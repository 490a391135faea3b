import Mutiny.Substrate.Tier
import Mutiny.Substrate.ForksSpec

/- Sleeping loses nothing while the tier knows what waits for its upload.

   The yardstick is the store that never drops a page or a manifest
   (`everPages`, `everManifests`): there every manifest resolves. The invariant
   (`Tiered`) ties the local root, object storage and the tier's memory together:
   a local page is remote or waits, a remote manifest's own pages are remote. When
   `sleep` returns, nothing waits and the manifests reachable from the head were
   all read from the local root and uploaded, so object storage alone answers as
   the store that never drops anything. -/
namespace Mutiny.Substrate
open Mutiny.Lib SortedMap TieredWorld Manifests Pages List Finset

variable {H : Hashing} {config : StoreConfig} {s s' : Manifests}

/-! The store that never drops anything. -/

variable {w : TieredWorld}

/-- A store of manifests of the run answers what the store that never drops
    anything answers. -/
theorem ever_get (h : Named H w.hashedManifests s) (hinj : TellsApart H.manifest w.hashedManifests)
    (id : ManifestId) (m : Manifest) (hget : s.get H id = .ok m) : (w.everManifests H).get H id = .ok m :=
  get_ok.2 ⟨h.get_all hinj (get_ok.1 hget).1, (get_ok.1 hget).2⟩

variable {id : PageId}

theorem get_everPages (hconfig : w.config = config) {pages : Pages} (h : NamedPages H config w.hashedPages pages)
    (hinj : TellsApart (config.hasher.hash H) w.hashedPages) (hid : id ∈ pages) :
    pages.get H config.hasher id = (w.everPages H).get H config.hasher id := by
  obtain ⟨bytes, hbytes⟩ := SortedMap.mem_iff.1 hid
  have hever : (w.everPages H)[id]? = some bytes := by
    rw [TieredWorld.everPages, hconfig]
    exact h.get_all hinj hbytes
  rw [Pages.get, Pages.get, hbytes, hever]

theorem put_named {pages : Pages} {bytes : Bytes} {hashed : List Bytes} (h : NamedPages H config hashed pages)
    (hpage : config.hasher.hash H bytes = id ∧ bytes ∈ hashed) : NamedPages H config hashed (pages.put ⟨id, bytes⟩) := by
  obtain ⟨rfl, hmem⟩ := hpage
  exact h.put hmem

/-! The invariant. -/

structure Tiered (H : Hashing) (config : StoreConfig) (w : TieredWorld) : Prop where
  pageSize : w.config.pageSize = config.pageSize
  /-- A keyed store, once woken, goes on without its key. -/
  config_eq : config.hasher = .unkeyed → w.config = config
  localNamed : Named H w.hashedManifests w.localManifests
  remoteNamed : Named H w.hashedManifests w.remoteManifests
  localPagesNamed : config.hasher = .unkeyed → NamedPages H config w.hashedPages w.localPages
  remotePagesNamed : config.hasher = .unkeyed → NamedPages H config w.hashedPages w.remotePages
  localBacked : ∀ (id : ManifestId) m page, w.localManifests[id]? = some m → m.Names page →
    page ∈ w.localPages ∨ page ∈ w.remotePages
  remoteBacked : ∀ (id : ManifestId) m page, w.remoteManifests[id]? = some m → m.Names page → page ∈ w.remotePages
  staged : ∀ (name : Nat) txn (pageNo : LogicalPageNo) page, w.txns[name]? = some txn →
    txn.writes[pageNo]? = some (some page) → page ∈ w.localPages ∨ page ∈ w.remotePages
  waiting : ∀ id ∈ w.localPages, id ∈ w.remotePages ∨ id ∈ w.tier.pending
  durable : ∀ id ∈ w.tier.durable, id ∈ w.remotePages
  stands : ∀ m ∈ w.hashedManifests, ∃ pages d, Stands H (w.everManifests H) m pages d
  rooted : Manifest.empty config.pageSize ∈ w.hashedManifests
  tokens : ∀ t ∈ w.tokens, t.pageSize = config.pageSize

variable {w : TieredWorld}

namespace TieredWorld

theorem getElem?_manifests (w : TieredWorld) (id : ManifestId) :
    w.manifests[id]? = w.localManifests[id]?.or w.remoteManifests[id]? :=
  getElem?_foldl_insert _ _ id

theorem getElem?_pages (w : TieredWorld) (id : PageId) : w.pages[id]? = w.localPages[id]?.or w.remotePages[id]? :=
  getElem?_foldl_insert _ _ id

theorem mem_manifests (w : TieredWorld) (id : ManifestId) :
    id ∈ w.manifests ↔ id ∈ w.localManifests ∨ id ∈ w.remoteManifests := by
  simp only [mem_iff, getElem?_manifests]
  cases w.localManifests[id]? <;> simp

theorem mem_pages (w : TieredWorld) (id : PageId) : id ∈ w.pages ↔ id ∈ w.localPages ∨ id ∈ w.remotePages := by
  simp only [mem_iff, getElem?_pages]
  cases w.localPages[id]? <;> simp

end TieredWorld

namespace Tiered

theorem manifestsNamed (h : Tiered H config w) : Named H w.hashedManifests w.manifests := by
  intro id m hget
  rw [getElem?_manifests, Option.or_eq_some_iff] at hget
  rcases hget with hl | ⟨-, hr⟩
  · exact h.localNamed id m hl
  · exact h.remoteNamed id m hr

theorem pagesNamed (h : Tiered H config w) (hunkeyed : config.hasher = .unkeyed) :
    NamedPages H config w.hashedPages w.pages := by
  intro id bytes hget
  rw [getElem?_pages, Option.or_eq_some_iff] at hget
  rcases hget with hl | ⟨-, hr⟩
  · exact h.localPagesNamed hunkeyed id bytes hl
  · exact h.remotePagesNamed hunkeyed id bytes hr

variable {m : Manifest} {id : ManifestId}

/-- The pages that the manifests in sight name are in sight. -/
theorem backed (h : Tiered H config w) (hget : w.manifests.get H id = .ok m) {page : PageId} (hpage : m.Names page) :
    page ∈ w.localPages ∨ page ∈ w.remotePages := by
  have hstored := (get_ok.1 hget).1
  rw [getElem?_manifests, Option.or_eq_some_iff] at hstored
  rcases hstored with hl | ⟨-, hr⟩
  · exact h.localBacked id m page hl hpage
  · exact Or.inr (h.remoteBacked id m page hr hpage)

/-! Putting one object. -/

variable {pages : PageMap}

theorem backed_put {P : PageId → Prop} (h : ∀ (id : ManifestId) m page, s[id]? = some m → m.Names page → P page)
    (hm : ∀ page, m.Names page → P page) :
    ∀ (id : ManifestId) m' page, (s.put H m)[id]? = some m' → m'.Names page → P page := by
  intro id m' page hget hpage
  rcases WriteOnce.of_get_put hget with ⟨-, rfl⟩ | hget
  · exact hm page hpage
  · exact h id m' page hget hpage

theorem put_local (h : Tiered H config w) (hm : m ∈ w.hashedManifests)
    (hpages : ∀ page, m.Names page → page ∈ w.localPages ∨ page ∈ w.remotePages) :
    Tiered H config { w with localManifests := w.localManifests.put H m } :=
  { h with localNamed := h.localNamed.put hm, localBacked := backed_put h.localBacked hpages }

/-- The run hashes a manifest that the store that never drops anything gives a
    meaning. -/
theorem hash_manifest (h : Tiered H config w) {d : Nat} (hm : Stands H (w.everManifests H) m pages d) :
    Tiered H config { w with hashedManifests := w.hashedManifests ++ [m] } := by
  have hever : ∀ id m', (w.everManifests H).get H id = .ok m' →
      (everManifests H { w with hashedManifests := w.hashedManifests ++ [m] }).get H id = .ok m' := by
    intro id m' hget
    simp only [everManifests, foldl_append, foldl_cons, foldl_nil]
    exact get_put_of_get hget m
  refine { h with
    localNamed := h.localNamed.append [m]
    remoteNamed := h.remoteNamed.append [m]
    stands := ?_
    rooted := mem_append_left _ h.rooted }
  intro m' hm'
  rcases mem_append.1 hm' with hm' | hm'
  · obtain ⟨pages', d', hs⟩ := h.stands m' hm'
    exact ⟨pages', d', hs.mono hever⟩
  · rw [List.mem_singleton.1 hm']
    exact ⟨pages, d, hm.mono hever⟩

/-! One event each. -/

variable {name : Nat} {head : ManifestId} {token : WakeToken} {ids : List PageId}

variable {txn : Txn} {w' : TieredWorld} {ids : List ManifestId}

section

variable (h : Tiered H config w)
include h

theorem set_txn (name : Nat)
    (hstaged : ∀ (pageNo : LogicalPageNo) page, txn.writes[pageNo]? = some (some page) →
      page ∈ w.localPages ∨ page ∈ w.remotePages) :
    Tiered H config { w with txns := w.txns.insert name txn } := by
  refine { h with staged := ?_ }
  intro name' txn' pageNo page ht hpage
  simp only [SortedMap.getElem?_insert] at ht
  split at ht
  · cases ht
    exact hstaged pageNo page hpage
  · exact h.staged name' txn' pageNo page ht hpage

theorem close_txn (name : Nat) : Tiered H config { w with txns := w.txns.erase name } := by
  refine { h with staged := ?_ }
  intro name' txn' pageNo page ht hpage
  simp only [getElem?_erase] at ht
  split at ht
  · cases ht
  · exact h.staged name' txn' pageNo page ht hpage

theorem remove (ht : w.txns[name]? = some txn) (pageNo : LogicalPageNo) :
    Tiered H config { w with txns := w.txns.insert name (txn.remove pageNo) } := by
  refine h.set_txn name ?_
  intro pageNo' page hpage
  simp only [Txn.remove, SortedMap.getElem?_insert] at hpage
  split at hpage
  · cases hpage
  · exact h.staged name txn pageNo' page ht hpage

theorem put_page {page : Page}
    (hpage : config.hasher = .unkeyed → config.hasher.hash H page.bytes = page.id ∧ page.bytes ∈ w.hashedPages)
    {tier : Tier} (hwait : page.id ∈ w.remotePages ∨ page.id ∈ tier.pending)
    (hpending : ∀ id ∈ w.tier.pending, id ∈ w.remotePages ∨ id ∈ tier.pending)
    (hdurable : ∀ id ∈ tier.durable, id ∈ w.remotePages) :
    Tiered H config { w with localPages := w.localPages.put page, tier := tier } := by
  have hsub : ∀ id, id ∈ w.localPages ∨ id ∈ w.remotePages → id ∈ w.localPages.put page ∨ id ∈ w.remotePages :=
    fun id hid => hid.imp (fun hl => mem_put.2 (Or.inr hl)) (fun hr => hr)
  refine { h with
    localPagesNamed := fun hunkeyed => put_named (h.localPagesNamed hunkeyed) (hpage hunkeyed)
    localBacked := fun id m pg hget hpg => hsub pg (h.localBacked id m pg hget hpg)
    staged := fun name txn pageNo pg ht hpg => hsub pg (h.staged name txn pageNo pg ht hpg)
    waiting := ?_
    durable := hdurable }
  intro id hid
  rcases mem_put.1 hid with rfl | hid
  · exact hwait
  · rcases h.waiting id hid with hr | hp
    · exact Or.inl hr
    · exact hpending id hp

theorem hash_page (bytes : Bytes) : Tiered H config { w with hashedPages := w.hashedPages ++ [bytes] } :=
  { h with
    localPagesNamed := fun hunkeyed => (h.localPagesNamed hunkeyed).append [bytes]
    remotePagesNamed := fun hunkeyed => (h.remotePagesNamed hunkeyed).append [bytes] }

theorem write (ht : w.txns[name]? = some txn) (pageNo : LogicalPageNo) (bytes : Bytes) :
    Tiered H config (w.write H name txn pageNo bytes) := by
  unfold TieredWorld.write
  cases hnew : Page.new H w.config.hasher bytes w.config.pageSize with
  | error e => exact h
  | ok page =>
    obtain rfl := Page.eq_of_new hnew
    -- a page that is not known durable waits
    have hput : Tiered H config (TieredWorld.putPage { w with hashedPages := w.hashedPages ++ [bytes] }
        ⟨w.config.hasher.hash H bytes, bytes⟩) := by
      refine (h.hash_page bytes).put_page (fun hunkeyed => ⟨by rw [h.config_eq hunkeyed], by simp⟩) ?_ ?_ ?_
      all_goals
        dsimp only [Tier.touch]
        split
      · next hd => exact Or.inl (h.durable _ hd)
      · exact Or.inr (Finset.mem_insert_self _ _)
      · exact fun id hid => Or.inr hid
      · exact fun id hid => Or.inr (Finset.mem_insert_of_mem hid)
      · exact h.durable
      · exact h.durable
    refine hput.set_txn name ?_
    intro pageNo' page hpage
    simp only [SortedMap.getElem?_insert] at hpage
    split at hpage
    · cases hpage
      exact Or.inl (Pages.mem_put.2 (Or.inl rfl))
    · exact hput.staged name txn pageNo' page ht hpage

theorem commit (ht : w.txns[name]? = some txn) (now : U64)
    (hinj : TellsApart H.manifest w.hashedManifests) : Tiered H config (w.commit H name txn now) := by
  unfold TieredWorld.commit
  dsimp only
  split
  · exact h.close_txn name
  · split
    · next next id hder =>
      -- the derivation is the one over the store that never drops anything
      have hever := deriveNext_ok_mono (ever_get h.manifestsNamed hinj) hder
      obtain ⟨base, hbase, _⟩ := bind_ok.1 hder
      have hmem := (h.manifestsNamed _ _ (get_ok.1 hbase).1).2
      obtain ⟨pages, d, hstands⟩ := h.stands base hmem
      have hres : Resolves H (w.everManifests H) txn.base pages :=
        ⟨base, d, ever_get h.manifestsNamed hinj _ _ hbase, hstands⟩
      have hnext : ∃ d, Stands H (w.everManifests H) next (patch pages txn.writes) d := by
        rcases deriveNext_of_resolves hres txn.writes now with ⟨_, hnone⟩ | ⟨_, next', hder', hderived⟩
        · rw [hnone] at hever
          cases hever
        · rw [hder'] at hever
          cases hever
          exact hderived.stands
      obtain ⟨d', hnext⟩ := hnext
      have hlocal := ((h.close_txn name).hash_manifest hnext).put_local
        (List.mem_append_right _ (List.mem_singleton_self next)) (fun page hpage => by
          rcases names_of_deriveNext hder hpage with ⟨pageNo, hstaged⟩ | ⟨id', m, hget, hm⟩
          · exact h.staged name txn pageNo page ht hstaged
          · exact h.backed hget hm)
      exact { hlocal with }
    · exact h.close_txn name

theorem fault (hok : w.fault H id = .ok w') : Tiered H config w' := by
  unfold TieredWorld.fault at hok
  cases hl : w.localPages[id]? with
  | some bytes =>
    rw [hl] at hok
    obtain ⟨page, _, hw⟩ := bind_ok.1 hok
    cases hw
    exact { h with }
  | none =>
    cases hr : w.remotePages[id]? with
    | none =>
      rw [hl, hr] at hok
      cases hok
    | some bytes =>
      rw [hl, hr] at hok
      obtain ⟨page, hpage, hw⟩ := bind_ok.1 hok
      cases hw
      have hid : id ∈ w.remotePages := mem_iff.2 ⟨bytes, hr⟩
      obtain rfl : page = ⟨id, bytes⟩ := by
        dsimp only [Page.verify] at hpage
        split at hpage
        · exact (Except.ok.inj hpage).symm
        · cases hpage
      refine h.put_page (fun hunkeyed => h.remotePagesNamed hunkeyed _ _ hr) (Or.inl hid) ?_ ?_
      · intro id' hid'
        by_cases heq : id' = id
        · exact Or.inl (heq ▸ hid)
        · exact Or.inr (mem_erase.2 ⟨heq, hid'⟩)
      · intro id' hid'
        rcases mem_insert.1 hid' with rfl | hd
        · exact hid
        · exact h.durable id' hd

theorem faultManifest (hok : w.faultManifest H id = .ok w') : Tiered H config w' := by
  obtain ⟨m, hget, hw⟩ := bind_ok.1 hok
  cases hw
  exact h.put_local (h.manifestsNamed _ _ (get_ok.1 hget).1).2 (fun page hpage => h.backed hget hpage)

theorem upload (hok : w.upload H id = .ok w') : Tiered H config w' := by
  obtain ⟨page, hpage, hw⟩ := bind_ok.1 hok
  rw [mapError_ok] at hpage
  cases hw
  obtain ⟨bytes, hl, _, rfl⟩ := get_ok.1 hpage
  have hsub : ∀ x, x ∈ w.remotePages → x ∈ w.remotePages.put ⟨id, bytes⟩ := fun x hx => mem_put.2 (Or.inr hx)
  refine { h with
    remotePagesNamed := fun hunkeyed => put_named (h.remotePagesNamed hunkeyed) (h.localPagesNamed hunkeyed _ _ hl)
    localBacked := fun i m pg hget hpg => (h.localBacked i m pg hget hpg).imp (fun hl => hl) (hsub pg)
    remoteBacked := fun i m pg hget hpg => hsub pg (h.remoteBacked i m pg hget hpg)
    staged := fun i txn n pg hget hpg => (h.staged i txn n pg hget hpg).imp (fun hl => hl) (hsub pg)
    waiting := ?_
    durable := ?_ }
  · intro x hx
    rcases h.waiting x hx with hr | hp
    · exact Or.inl (hsub x hr)
    · by_cases heq : x = id
      · exact Or.inl (mem_put.2 (Or.inl heq.symm))
      · exact Or.inr (mem_erase.2 ⟨heq, hp⟩)
  · intro x hx
    rcases mem_insert.1 hx with rfl | hd
    · exact mem_put.2 (Or.inl rfl)
    · exact hsub x (h.durable x hd)

theorem settled (hpending : w.tier.pending = ∅) (hid : id ∈ w.localPages) : id ∈ w.remotePages := by
  rcases h.waiting id hid with hr | hp
  · exact hr
  · rw [hpending] at hp
    exact absurd hp (notMem_empty id)

theorem uploadManifest (hpending : w.tier.pending = ∅) (hok : w.uploadManifest H id = .ok w') : Tiered H config w' := by
  obtain ⟨m, hget, hw⟩ := bind_ok.1 hok
  rw [mapError_ok] at hget
  have hstored := (get_ok.1 hget).1
  cases hw
  refine { h with
    remoteNamed := h.remoteNamed.put (h.localNamed _ _ hstored).2
    remoteBacked := backed_put h.remoteBacked ?_ }
  intro page hpage
  rcases h.localBacked id m page hstored hpage with hl | hr
  · exact h.settled hpending hl
  · exact hr

theorem evict (hid : id ∈ w.tier.durable) :
    Tiered H config { w with localPages := w.localPages.erase id, tier := w.tier.forget id } := by
  have hsub : ∀ x, x ∈ w.localPages ∨ x ∈ w.remotePages → x ∈ w.localPages.erase id ∨ x ∈ w.remotePages := by
    intro x hx
    by_cases heq : id = x
    · exact Or.inr (heq ▸ h.durable id hid)
    · refine hx.imp (fun hl => ?_) (fun hr => hr)
      obtain ⟨b, hb⟩ := mem_iff.1 hl
      exact mem_iff.2 ⟨b, by rw [getElem?_erase, if_neg heq, hb]⟩
  have hold : ∀ (x : PageId) b, (w.localPages.erase id)[x]? = some b → w.localPages[x]? = some b := by
    intro x b hb
    rw [getElem?_erase] at hb
    split at hb
    · cases hb
    · exact hb
  refine { h with
    localPagesNamed := fun hunkeyed x b hb => h.localPagesNamed hunkeyed x b (hold x b hb)
    localBacked := fun i m pg hget hpg => hsub pg (h.localBacked i m pg hget hpg)
    staged := fun i txn n pg hget hpg => hsub pg (h.staged i txn n pg hget hpg)
    waiting := ?_
    durable := fun x hx => h.durable x (mem_of_mem_erase hx) }
  intro x hx
  obtain ⟨b, hb⟩ := mem_iff.1 hx
  exact h.waiting x (mem_iff.2 ⟨b, hold x b hb⟩)

end

theorem evictLoop (maxBytes n : Nat) (h : Tiered H config w) : Tiered H config (w.evictLoop maxBytes n) := by
  induction n generalizing w with
  | zero => exact h
  | succ n ih =>
    unfold evictLoop
    split
    · exact h
    · split
      · exact h
      · next id hvictim =>
        refine ih (h.evict ?_)
        have hmem := argmin_mem hvictim
        rw [Finset.mem_sort, Finset.mem_filter] at hmem
        exact hmem.1

section

variable (h : Tiered H config w)
include h

theorem openTier {opened : StoreConfig} (hsize : opened.pageSize = config.pageSize)
    (hopened : config.hasher = .unkeyed → opened = config) (hremote : ∀ id ∈ w.localPages, id ∈ w.remotePages)
    (hok : w.openTier H opened = .ok w') : Tiered H config w' := by
  obtain ⟨_, _, hw⟩ := bind_ok.1 hok
  cases hw
  have hroot := (h.hash_manifest (m := .empty opened.pageSize) (.flat rfl rfl rfl)).put_local
    (List.mem_append_right _ (List.mem_singleton_self _)) (fun page hpage => absurd hpage (not_names_empty _ page))
  exact { hroot with
    pageSize := hsize
    config_eq := hopened
    staged := fun name txn pageNo page ht => by simp at ht
    waiting := fun id hid => Or.inl (hremote id hid)
    durable := fun id hid => absurd hid (notMem_empty id) }

theorem leave : Tiered H config { w with localPages := ∅, localManifests := ∅, txns := ∅ } :=
  { h with
    localNamed := .empty _ _
    localPagesNamed := fun _ => .empty _ _
    localBacked := fun id m page hget => by simp at hget
    staged := fun name txn pageNo page ht => by simp at ht
    waiting := fun id hid => by simp at hid }

theorem setHeadTo (hok : w.setHeadTo head = .ok w') : Tiered H config w' := by
  unfold TieredWorld.setHeadTo at hok
  split at hok
  · cases hok
    exact { h with }
  · cases hok

theorem restart (hpending : w.tier.pending = ∅) (hok : w.restart H head = .ok w') : Tiered H config w' := by
  obtain ⟨w1, hopen, hset⟩ := bind_ok.1 hok
  exact (h.openTier h.pageSize h.config_eq (fun id hid => h.settled hpending hid) hopen).setHeadTo hset

theorem wake (htoken : token ∈ w.tokens) (hok : w.wake H token = .ok w') : Tiered H config w' := by
  obtain ⟨w1, hopen, hset⟩ := bind_ok.1 hok
  have hsize := h.tokens token htoken
  have hw1 : Tiered H config w1 :=
    h.leave.openTier hsize (fun hunkeyed => by rw [hsize, ← hunkeyed]) (fun id hid => by simp at hid) hopen
  cases hget : w1.remoteManifests[token.manifest]? with
  | none =>
    rw [hget] at hset
    cases hset
  | some m =>
    rw [hget] at hset
    exact (hw1.put_local (hw1.remoteNamed _ _ hget).2 (fun page hpage =>
      Or.inr (hw1.remoteBacked _ _ page hget hpage))).setHeadTo hset

theorem dropLocal (hok : w.dropLocal = .ok w') : w.tier.pending = ∅ ∧ Tiered H config w' := by
  unfold TieredWorld.dropLocal at hok
  split at hok
  · next hpending =>
    cases hok
    have hsub : ∀ x, x ∈ w.localPages ∨ x ∈ w.remotePages → x ∈ (∅ : Pages) ∨ x ∈ w.remotePages := fun x hx =>
      Or.inr (hx.elim (fun hl => h.settled hpending hl) (fun hr => hr))
    exact ⟨hpending, { h with
      localPagesNamed := fun _ => .empty _ _
      localBacked := fun i m pg hget hpg => hsub pg (h.localBacked i m pg hget hpg)
      staged := fun i txn n pg hget hpg => hsub pg (h.staged i txn n pg hget hpg)
      waiting := fun id hid => by simp at hid
      durable := fun id hid => absurd hid (notMem_empty id) }⟩
  · cases hok

end

theorem uploadAll_frame (hok : w.uploadAll H ids = .ok w') :
    ∃ remote tier, w' = { w with remotePages := remote, tier := tier } := by
  induction ids generalizing w with
  | nil =>
    cases hok
    exact ⟨_, _, rfl⟩
  | cons id ids ih =>
    obtain ⟨w1, hone, hrest⟩ := bind_ok.1 hok
    obtain ⟨page, _, hw1⟩ := bind_ok.1 hone
    cases hw1
    obtain ⟨remote, tier, heq⟩ := ih hrest
    exact ⟨remote, tier, heq⟩

theorem uploadAll (h : Tiered H config w) (hok : w.uploadAll H ids = .ok w') : Tiered H config w' := by
  induction ids generalizing w with
  | nil =>
    cases hok
    exact h
  | cons id ids ih =>
    obtain ⟨w1, hone, hrest⟩ := bind_ok.1 hok
    exact ih (h.upload hone) hrest

theorem uploadManifests_frame (hok : w.uploadManifests H ids = .ok w') :
    ∃ remote, w' = { w with remoteManifests := remote } := by
  induction ids generalizing w with
  | nil =>
    cases hok
    exact ⟨_, rfl⟩
  | cons id ids ih =>
    obtain ⟨w1, hone, hrest⟩ := bind_ok.1 hok
    obtain ⟨m, _, hw1⟩ := bind_ok.1 hone
    cases hw1
    obtain ⟨remote, heq⟩ := ih hrest
    exact ⟨remote, heq⟩

theorem uploadManifests (h : Tiered H config w) (hpending : w.tier.pending = ∅)
    (hinj : TellsApart H.manifest w.hashedManifests) (hok : w.uploadManifests H ids = .ok w') :
    Tiered H config w' ∧ (∀ id m, w.remoteManifests.get H id = .ok m → w'.remoteManifests.get H id = .ok m) ∧
      ∀ id ∈ ids, ∀ m, w.localManifests.get H id = .ok m → w'.remoteManifests.get H id = .ok m := by
  induction ids generalizing w with
  | nil =>
    cases hok
    exact ⟨h, fun _ _ hget => hget, fun id hid => by cases hid⟩
  | cons id ids ih =>
    obtain ⟨w1, hone, hrest⟩ := bind_ok.1 hok
    have hw1 := h.uploadManifest hpending hone
    obtain ⟨m, hget, heq⟩ := bind_ok.1 hone
    rw [mapError_ok] at hget
    obtain ⟨hstored, rfl⟩ := get_ok.1 hget
    cases heq
    obtain ⟨hw', hkept, hput⟩ := ih hw1 hpending hinj hrest
    refine ⟨hw', fun id' m' hget' => hkept id' m' (get_put_of_get hget' m), ?_⟩
    intro id' hid' m' hget'
    rcases mem_cons.1 hid' with rfl | hid'
    · rw [hget] at hget'
      cases hget'
      exact hkept _ _ (get_put_self (h.remoteNamed.fresh hinj (h.localNamed _ _ hstored).2))
    · exact hput id' hid' m' hget'

/-- What a store asleep has left in object storage. -/
structure Asleep (H : Hashing) (w w' : TieredWorld) (token : WakeToken) (closure : List ManifestId) : Prop where
  token_eq : token = ⟨w.head, w.config.pageSize⟩
  head_mem : w.head ∈ closure
  closed : ∀ id ∈ closure, ∃ m, w.localManifests.get H id = .ok m ∧ (∀ next ∈ manifestEdges m, next ∈ closure) ∧
    w'.remoteManifests.get H id = .ok m
  same : ∃ remotePages remoteManifests tier, w' = { w with
    remotePages := remotePages, remoteManifests := remoteManifests, localPages := ∅, tier := tier
    tokens := w.tokens ++ [token] }

theorem sleep (h : Tiered H config w) (hinj : TellsApart H.manifest w.hashedManifests)
    (hok : w.sleep H = .ok (w', token)) :
    Tiered H config w' ∧ ∃ closure, Asleep H w w' token closure := by
  obtain ⟨w1, hflush, hok⟩ := bind_ok.1 hok
  obtain ⟨w2, hclosure, hok⟩ := bind_ok.1 hok
  obtain ⟨w3, hdrop, hok⟩ := bind_ok.1 hok
  obtain ⟨closure, hwalk, hups⟩ := bind_ok.1 hclosure
  rw [mapError_ok] at hwalk
  have hw1 := h.uploadAll hflush
  obtain ⟨remotePages, tier, rfl⟩ := uploadAll_frame hflush
  obtain ⟨remoteManifests, rfl⟩ := uploadManifests_frame hups
  -- the pages are dropped only if nothing waits, and uploading manifests changes nothing about that
  have hpending : tier.pending = ∅ := by
    unfold TieredWorld.dropLocal at hdrop
    split at hdrop
    · next hp => exact hp
    · cases hdrop
  obtain ⟨hw2, _, hput⟩ := hw1.uploadManifests hpending hinj hups
  obtain ⟨_, hw3⟩ := hw2.dropLocal hdrop
  obtain ⟨_, hhead, hclosed⟩ := @walk_closed _ _ _ _ _ mem_of_edgesOf _ _ _ hwalk
  rw [TieredWorld.dropLocal, if_pos hpending] at hdrop
  cases hdrop
  cases hok
  refine ⟨{ hw3 with tokens := ?_ }, closure, ⟨rfl, hhead _ (List.mem_singleton_self _), ?_, ⟨_, _, _, rfl⟩⟩⟩
  · intro t ht
    rcases mem_append.1 ht with ht | ht
    · exact h.tokens t ht
    · rw [List.mem_singleton.1 ht]
      exact h.pageSize
  · intro id hid
    obtain ⟨es, hes, hin⟩ := hclosed id hid (by simp)
    obtain ⟨m, hget, hedges⟩ := bind_ok.1 hes
    cases hedges
    exact ⟨m, hget, hin, hput id hid m hget⟩

/-! Runs. -/

theorem orElse (h : Tiered H config w) {ε : Type} {r : Except ε TieredWorld}
    (hr : ∀ w', r = .ok w' → Tiered H config w') : Tiered H config (w.orElse r) := by
  cases r with
  | error e => exact h
  | ok w' => exact hr w' rfl

theorem step (h : Tiered H config w)
    (hinj : TellsApart H.manifest w.hashedManifests) (e : TierEvent) (hsettled : w.Settled e) :
    Tiered H config (w.step H e) := by
  cases e with
  | begin name => exact h.set_txn name (fun pageNo page hpage => by simp [Txn.begin] at hpage)
  | write name pageNo bytes =>
    simp only [TieredWorld.step]
    cases ht : w.txns[name]? with
    | none => exact h
    | some txn => exact h.write ht pageNo bytes
  | remove name pageNo =>
    simp only [TieredWorld.step]
    cases ht : w.txns[name]? with
    | none => exact h
    | some txn => exact h.remove ht pageNo
  | commit name now =>
    simp only [TieredWorld.step]
    cases ht : w.txns[name]? with
    | none => exact h
    | some txn => exact h.commit ht now hinj
  | fault id => exact h.orElse (fun _ => h.fault)
  | faultManifest id => exact h.orElse (fun _ => h.faultManifest)
  | upload id =>
    simp only [TieredWorld.step]
    split
    · exact h.orElse (fun _ => h.upload)
    · exact h
  | uploadManifest id =>
    simp only [TieredWorld.step]
    split
    · next hpending => exact h.orElse (fun _ => h.uploadManifest hpending)
    · exact h
  | flush => exact h.orElse (fun _ => h.uploadAll)
  | evictTo maxBytes => exact h.evictLoop maxBytes w.tier.durable.card
  | restart head => exact h.orElse (fun _ => h.restart hsettled)
  | sleep =>
    refine h.orElse (fun w' hok => ?_)
    obtain ⟨⟨_, token⟩, hsleep, rfl⟩ := map_ok.1 hok
    exact (h.sleep hinj hsleep).1
  | wake sleep =>
    simp only [TieredWorld.step]
    cases ht : w.tokens[sleep]? with
    | none => exact h
    | some token => exact h.orElse (fun _ => h.wake (mem_of_getElem? ht))

/-- Every manifest hashed so far stays hashed. -/
def Recalls (w w' : TieredWorld) : Prop := w.hashedManifests ⊆ w'.hashedManifests

theorem Recalls.refl (w : TieredWorld) : Recalls w w := List.Subset.refl _

theorem Recalls.trans {w1 w2 w3 : TieredWorld} (h : Recalls w1 w2) (h' : Recalls w2 w3) : Recalls w1 w3 :=
  List.Subset.trans h h'

theorem recalls_orElse {ε : Type} {r : Except ε TieredWorld} (hr : ∀ w', r = .ok w' → Recalls w w') :
    Recalls w (w.orElse r) := by
  cases r with
  | error e => exact .refl w
  | ok w' => exact hr w' rfl

theorem recalls_write (name : Nat) (txn : Txn) (pageNo : LogicalPageNo) (bytes : Bytes) :
    Recalls w (w.write H name txn pageNo bytes) := by
  unfold TieredWorld.write
  split
  · exact .refl w
  · exact .refl w

theorem recalls_commit (name : Nat) (txn : Txn) (now : U64) : Recalls w (w.commit H name txn now) := by
  unfold TieredWorld.commit
  dsimp only
  split
  · exact .refl w
  · split
    · exact subset_append_left _ _
    · exact .refl w

theorem recalls_fault (hok : w.fault H id = .ok w') : Recalls w w' := by
  unfold TieredWorld.fault at hok
  split at hok
  · obtain ⟨_, _, hw⟩ := bind_ok.1 hok
    cases hw
    exact .refl w
  · split at hok
    · cases hok
    · obtain ⟨_, _, hw⟩ := bind_ok.1 hok
      cases hw
      exact .refl w

theorem recalls_evictLoop (maxBytes n : Nat) (w : TieredWorld) : Recalls w (w.evictLoop maxBytes n) := by
  induction n generalizing w with
  | zero => exact .refl w
  | succ n ih =>
    unfold TieredWorld.evictLoop
    split
    · exact .refl w
    · split
      · exact .refl w
      · next id _ =>
        have hrest := ih { w with localPages := w.localPages.erase id, tier := w.tier.forget id }
        exact hrest

theorem recalls_openTier {c : StoreConfig} (hok : w.openTier H c = .ok w') : Recalls w w' := by
  obtain ⟨_, _, hw⟩ := bind_ok.1 hok
  cases hw
  exact subset_append_left _ _

theorem recalls_setHeadTo (hok : w.setHeadTo head = .ok w') : Recalls w w' := by
  unfold TieredWorld.setHeadTo at hok
  split at hok
  · cases hok
    exact .refl w
  · cases hok

theorem recalls_wake (hok : w.wake H token = .ok w') : Recalls w w' := by
  obtain ⟨w1, hopen, hset⟩ := bind_ok.1 hok
  have hrecalls : Recalls w w1 := by
    have := recalls_openTier hopen
    exact this
  refine hrecalls.trans ?_
  cases hget : w1.remoteManifests[token.manifest]? with
  | none =>
    rw [hget] at hset
    cases hset
  | some m =>
    rw [hget] at hset
    have := recalls_setHeadTo hset
    exact this

theorem recalls_uploadAll (hok : w.uploadAll H ids = .ok w') : Recalls w w' := by
  obtain ⟨_, _, rfl⟩ := uploadAll_frame hok
  exact .refl w

theorem recalls_sleep (hok : w.sleep H = .ok (w', token)) : Recalls w w' := by
  obtain ⟨w1, hflush, hok⟩ := bind_ok.1 hok
  obtain ⟨w2, hclosure, hok⟩ := bind_ok.1 hok
  obtain ⟨w3, hdrop, hok⟩ := bind_ok.1 hok
  obtain ⟨closure, _, hups⟩ := bind_ok.1 hclosure
  unfold TieredWorld.dropLocal at hdrop
  split at hdrop
  · cases hdrop
    cases hok
    obtain ⟨_, rfl⟩ := uploadManifests_frame hups
    have hfirst : Recalls w w1 := recalls_uploadAll hflush
    exact hfirst
  · cases hdrop

theorem recalls_step (e : TierEvent) : Recalls w (w.step H e) := by
  cases e with
  | begin name => exact .refl w
  | write name pageNo bytes =>
    simp only [TieredWorld.step]
    split
    · exact .refl w
    · exact recalls_write _ _ _ _
  | remove name pageNo =>
    simp only [TieredWorld.step]
    split
    · exact .refl w
    · exact .refl w
  | commit name now =>
    simp only [TieredWorld.step]
    split
    · exact .refl w
    · exact recalls_commit _ _ _
  | fault id => exact recalls_orElse (fun _ => recalls_fault)
  | faultManifest id =>
    refine recalls_orElse (fun w' hok => ?_)
    obtain ⟨_, _, hw⟩ := bind_ok.1 hok
    cases hw
    exact .refl w
  | upload id | uploadManifest id =>
    simp only [TieredWorld.step]
    split
    · refine recalls_orElse (fun w' hok => ?_)
      obtain ⟨_, _, hw⟩ := bind_ok.1 hok
      cases hw
      exact .refl w
    · exact .refl w
  | flush => exact recalls_orElse (fun _ => recalls_uploadAll)
  | evictTo maxBytes => exact recalls_evictLoop _ _ w
  | restart head =>
    refine recalls_orElse (fun w' hok => ?_)
    obtain ⟨w1, hopen, hset⟩ := bind_ok.1 hok
    exact (recalls_openTier hopen).trans (recalls_setHeadTo hset)
  | sleep =>
    refine recalls_orElse (fun w' hok => ?_)
    obtain ⟨⟨_, token⟩, hsleep, rfl⟩ := map_ok.1 hok
    exact recalls_sleep hsleep
  | wake sleep =>
    simp only [TieredWorld.step]
    split
    · exact .refl w
    · exact recalls_orElse (fun _ => recalls_wake)

theorem run (h : Tiered H config w) {es : List TierEvent}
    (hsettled : w.SettledRun H es) (hinj : TellsApart H.manifest (w.run H es).hashedManifests) :
    Tiered H config (w.run H es) := by
  have hback : ∀ (w : TieredWorld) e, TellsApart H.manifest (w.step H e).hashedManifests →
      TellsApart H.manifest w.hashedManifests := fun w e hnext => hnext.mono (fun m hm => recalls_step e hm)
  exact Along.keeps_below (F := fun w => TellsApart H.manifest w.hashedManifests) hsettled h hback hinj
    (fun w e he hnext h => h.step (hback w e hnext) e he)

theorem created {w₀ : TieredWorld} (hok : created H config = .ok w₀) :
    Tiered H config w₀ ∧ validatePageSize config.pageSize = .ok () := by
  obtain ⟨_, hvalid, hw⟩ := bind_ok.1 hok
  cases hw
  refine ⟨?_, mapError_ok.1 hvalid⟩
  refine ⟨rfl, fun _ => rfl, ?_, .empty _ _, fun _ => .empty _ _, fun _ => .empty _ _, ?_, ?_, ?_, ?_, ?_, ?_, ?_, ?_⟩
  · exact (WriteOnce.Named.empty _ _).put (by simp)
  · exact backed_put (fun id m page hget => by simp at hget) (fun page hpage => absurd hpage (not_names_empty _ page))
  · intro id m page hget
    simp at hget
  · intro name txn pageNo page ht
    simp at ht
  · intro id hid
    simp at hid
  · intro id hid
    exact absurd hid (notMem_empty id)
  · intro m hm
    rw [show m = .empty config.pageSize by simpa using hm]
    exact ⟨∅, 0, .flat rfl rfl rfl⟩
  · simp
  · intro t ht
    cases ht

/-! Reading. -/

variable {closure : List ManifestId}

theorem read_ever (h : Tiered H config w) (hunkeyed : config.hasher = .unkeyed)
    (hpages : TellsApart (config.hasher.hash H) w.hashedPages)
    (hmans : TellsApart H.manifest w.hashedManifests) (hres : Resolves H w.manifests id pages)
    (pageNo : LogicalPageNo) :
    read H config w.pages w.manifests id pageNo = read H config (w.everPages H) (w.everManifests H) id pageNo := by
  rw [read, read, lookupPage_of_resolves hres, lookupPage_of_resolves (hres.mono (ever_get h.manifestsNamed hmans)),
    ok_bind, ok_bind]
  cases hpage : pages[pageNo]? with
  | none => rfl
  | some page =>
    obtain ⟨m, hget, hm⟩ := bind_ok.1 (resolve_of_resolves hres)
    have hsight : page ∈ w.localPages ∨ page ∈ w.remotePages := by
      rcases names_of_resolveFrom hm hpage with hown | ⟨id', m', hget', hnames⟩
      · exact h.backed hget hown
      · exact h.backed hget' hnames
    exact get_everPages (h.config_eq hunkeyed) (h.pagesNamed hunkeyed) hpages ((w.mem_pages page).2 hsight)

/-- A manifest of the closure resolves, to the same pages, in every store that holds
    the closure. -/
theorem Asleep.resolves (ha : Asleep H w w' token closure) (h : Tiered H config w)
    (hmans : TellsApart H.manifest w.hashedManifests) (hid : id ∈ closure) :
    ∃ pages, ∀ s : Manifests, (∀ id ∈ closure, ∀ m, w.localManifests.get H id = .ok m → s.get H id = .ok m) →
      Resolves H s id pages := by
  obtain ⟨m, hlocal, hedges, _⟩ := ha.closed id hid
  obtain ⟨pages, d, hstands⟩ := h.stands m (h.localNamed _ _ (get_ok.1 hlocal).1).2
  have hever : ∀ id ∈ closure, ∀ m, (w.everManifests H).get H id = .ok m →
      w.localManifests.get H id = .ok m ∧ ∀ next ∈ manifestEdges m, next ∈ closure := by
    intro id hid m hget
    obtain ⟨m', hlocal', hedges', _⟩ := ha.closed id hid
    have heq := ever_get h.localNamed hmans id m' hlocal'
    rw [hget] at heq
    cases heq
    exact ⟨hlocal', hedges'⟩
  have hclosed : ∀ id ∈ closure, ∀ m, (w.everManifests H).get H id = .ok m → ∀ b, m.overlayBase = some b → b ∈ closure := by
    intro id hid m hget b hb
    exact (hever id hid m hget).2 b (by simp [manifestEdges, hb])
  refine ⟨pages, fun s hs => ⟨m, d, hs id hid m hlocal, hstands.of_closed hclosed ?_ ?_⟩⟩
  · intro id hid m hget
    exact hs id hid m (hever id hid m hget).1
  · intro b hb
    exact hedges b (by simp [manifestEdges, hb])

theorem Asleep.remote (ha : Asleep H w w' token closure) :
    ∀ id ∈ closure, ∀ m, w.localManifests.get H id = .ok m → w'.remoteManifests.get H id = .ok m := by
  intro id hid m hget
  obtain ⟨m', hlocal, _, hremote⟩ := ha.closed id hid
  rw [hget] at hlocal
  cases hlocal
  exact hremote

theorem get_manifests (h : w.localManifests.get H id = .ok m) : w.manifests.get H id = .ok m := by
  obtain ⟨hstored, hname⟩ := get_ok.1 h
  refine get_ok.2 ⟨?_, hname⟩
  rw [getElem?_manifests, hstored]
  rfl

/-- What is reachable from the head is in the closure that was uploaded. -/
theorem Asleep.reaches (ha : Asleep H w w' token closure) (hid : Reaches H w.manifests w.head id) : id ∈ closure := by
  induction hid with
  | here => exact ha.head_mem
  | @edge id next m _ hget hnext ih =>
    obtain ⟨m', hlocal, hedges, _⟩ := ha.closed id ih
    have hview := (get_ok.1 hget).1
    rw [getElem?_manifests, (get_ok.1 hlocal).1] at hview
    cases hview
    exact hedges next hnext

theorem wake_ok (hvalid : validatePageSize token.pageSize = .ok ())
    (hhead : w.remoteManifests[token.manifest]? = some m) :
    ∃ woken, w.wake H token = .ok woken ∧ woken.head = token.manifest ∧
      woken.remoteManifests = w.remoteManifests ∧ woken.hashedPages = w.hashedPages ∧
      woken.hashedManifests = w.hashedManifests ++ [.empty token.pageSize] := by
  have hmem : ∀ opened : TieredWorld, opened.remoteManifests = w.remoteManifests → token.manifest ∈ opened.manifests := by
    intro opened hsame
    exact (mem_manifests _ _).2 (Or.inr (mem_iff.2 ⟨m, hsame ▸ hhead⟩))
  unfold TieredWorld.wake TieredWorld.openTier
  simp only [hvalid, Except.mapError, ok_bind, pure_eq_ok, hhead, TieredWorld.setHeadTo]
  rw [if_pos (hmem _ ?_)]
  · exact ⟨_, rfl, rfl, rfl, rfl, rfl⟩
  · rfl

end Tiered

open Tiered in
/-- Whenever `sleep` returns, and nothing waited for its upload when a process
    restarted, what is reachable from the head is in object storage. If pages are
    named without a key, a store woken on an empty root has the same head and reads
    every page as the store did before, and as a store that never dropped anything. -/
theorem sleep_loses_nothing {w₀ : TieredWorld} (es : List TierEvent) (hcreated : TieredWorld.created H config = .ok w₀)
    (hsettled : w₀.SettledRun H es) (hmans : TellsApart H.manifest (w₀.run H es).hashedManifests)
    {w' : TieredWorld} {token : WakeToken} (hsleep : (w₀.run H es).sleep H = .ok (w', token)) :
    (∀ id, TieredWorld.Reaches H (w₀.run H es).manifests (w₀.run H es).head id →
      ∃ pages, resolve H w'.remoteManifests id = .ok pages ∧
        ∀ (pageNo : LogicalPageNo) page, pages[pageNo]? = some page → page ∈ w'.remotePages) ∧
    (config.hasher = .unkeyed → TellsApart (config.hasher.hash H) (w₀.run H es).hashedPages →
      ∃ woken, w'.wake H token = .ok woken ∧ woken.head = (w₀.run H es).head ∧
      ∀ pageNo, woken.readHead H pageNo = (w₀.run H es).readHead H pageNo ∧
        woken.readHead H pageNo = read H config ((w₀.run H es).everPages H) ((w₀.run H es).everManifests H)
          (w₀.run H es).head pageNo) := by
  obtain ⟨hinitial, hvalid⟩ := Tiered.created hcreated
  have h := hinitial.run hsettled hmans
  generalize w₀.run H es = w at *
  obtain ⟨h', closure, hasleep⟩ := h.sleep hmans hsleep
  obtain ⟨remotePages, remoteManifests, tier, hw'⟩ := hasleep.same
  refine ⟨?_, ?_⟩
  · intro id hid
    obtain ⟨pages, hclosure⟩ := hasleep.resolves h hmans (hasleep.reaches hid)
    have hres := hclosure w'.remoteManifests hasleep.remote
    refine ⟨pages, resolve_of_resolves hres, ?_⟩
    intro pageNo page hpage
    obtain ⟨m, hget, hm⟩ := bind_ok.1 (resolve_of_resolves hres)
    rcases names_of_resolveFrom hm hpage with hown | ⟨id', m', hget', hnames⟩
    · exact h'.remoteBacked _ _ page (get_ok.1 hget).1 hown
    · exact h'.remoteBacked _ _ page (get_ok.1 hget').1 hnames
  · intro hunkeyed hpages
    obtain ⟨head, hlocal, _, hremote⟩ := hasleep.closed _ hasleep.head_mem
    obtain ⟨pages, hclosure⟩ := hasleep.resolves h hmans hasleep.head_mem
    have htoken : token ∈ w'.tokens := by
      rw [hw']
      exact List.mem_append_right _ (List.mem_singleton_self token)
    have hsize : token.pageSize = config.pageSize := h'.tokens token htoken
    have hmanifest : token.manifest = w.head := by rw [hasleep.token_eq]
    obtain ⟨woken, hwake, hwokenHead, hwokenRemote, hwokenPages, hwokenMans⟩ := wake_ok (H := H) (w := w')
      (hsize ▸ hvalid) (hmanifest ▸ (get_ok.1 hremote).1)
    have hsame : w'.hashedPages = w.hashedPages ∧ w'.hashedManifests = w.hashedManifests := by
      rw [hw']
      exact ⟨rfl, rfl⟩
    rw [hsame.1] at hwokenPages
    rw [hsame.2, hsize] at hwokenMans
    have hwoken := h'.wake htoken hwake
    -- the woken store hashed the empty root once more
    have hwokenInj : TellsApart H.manifest woken.hashedManifests := by
      refine hmans.mono ?_
      intro m hm
      rw [Set.mem_ofPred_eq, hwokenMans, List.mem_append, List.mem_singleton] at hm
      rcases hm with hm | rfl
      · exact hm
      · exact h.rooted
    have hever : woken.everManifests H = w.everManifests H := by
      have hroot : H.manifest (.empty config.pageSize) ∈ w.everManifests H := WriteOnce.mem_foldl_put (Or.inr h.rooted)
      rw [everManifests, hwokenMans, foldl_append]
      exact put_of_mem hroot
    have heverPages : woken.everPages H = w.everPages H := by
      rw [everPages, everPages, hwokenPages, hwoken.config_eq hunkeyed, h.config_eq hunkeyed]
    have hwokenRes : Resolves H woken.manifests w.head pages := by
      refine (hclosure w'.remoteManifests hasleep.remote).mono ?_
      intro id m hget
      rw [← hwokenRemote] at hget
      obtain ⟨hstored, hname⟩ := get_ok.1 hget
      obtain ⟨m', hm'⟩ := mem_iff.1 ((woken.mem_manifests id).2 (Or.inr (mem_iff.2 ⟨m, hstored⟩)))
      have heq : m' = m := by
        subst hname
        exact hwoken.manifestsNamed.fresh hwokenInj (hwoken.remoteNamed _ _ hstored).2 m' hm'
      exact get_ok.2 ⟨heq ▸ hm', hname⟩
    have hread : ∀ pageNo, woken.readHead H pageNo = read H config (w.everPages H) (w.everManifests H) w.head pageNo := by
      intro pageNo
      rw [readHead, hwokenHead, hmanifest, hwoken.config_eq hunkeyed,
        hwoken.read_ever hunkeyed (by rwa [hwokenPages]) hwokenInj hwokenRes, hever, heverPages]
    refine ⟨woken, hwake, hwokenHead.trans hmanifest, ?_⟩
    intro pageNo
    have hbefore : Resolves H w.manifests w.head pages := hclosure w.manifests (fun _ _ _ => get_manifests)
    refine ⟨?_, hread pageNo⟩
    rw [hread, readHead, h.config_eq hunkeyed, h.read_ever hunkeyed hpages hmans hbefore]

/-! Concrete runs. -/

def sampleTier (config : StoreConfig) : TieredWorld :=
  { remotePages := ∅
    remoteManifests := ∅
    localPages := ∅
    localManifests := Manifests.put sampleHashing ∅ (.empty config.pageSize)
    config := config
    head := sampleHashing.manifest (.empty config.pageSize)
    tier := .fresh
    txns := ∅
    tokens := []
    hashedPages := []
    hashedManifests := [.empty config.pageSize] }

theorem created_sample {config : StoreConfig} (hvalid : validatePageSize config.pageSize = .ok ()) :
    created sampleHashing config = .ok (sampleTier config) := by
  rw [created, openTier, hvalid]
  rfl

/-- Two commits with an upload and a restart between them, and an eviction. -/
def flushedRun : List TierEvent :=
  [.begin 0, .write 0 1 [7], .commit 0 5, .flush, .restart 511, .begin 1, .write 1 2 [8], .commit 1 6, .evictTo 0]

abbrev flushedTier : TieredWorld := (sampleTier sampleConfig).run sampleHashing flushedRun

theorem sleep_loses_nothing_flushed : ∃ w' token woken, flushedTier.sleep sampleHashing = .ok (w', token) ∧
      w'.wake sampleHashing token = .ok woken ∧ woken.readHead sampleHashing 1 = .ok ⟨8, [7]⟩ ∧
      woken.readHead sampleHashing 2 = .ok ⟨9, [8]⟩ := by
  have hcreated : created sampleHashing sampleConfig = .ok (sampleTier sampleConfig) :=
    created_sample (by decide +kernel)
  have hsettled : (sampleTier sampleConfig).SettledRun sampleHashing flushedRun := by decide +kernel
  have hpages : TellsApart (sampleConfig.hasher.hash sampleHashing) flushedTier.hashedPages := by decide +kernel
  have hmans : TellsApart sampleHashing.manifest flushedTier.hashedManifests := by decide +kernel
  have hsleep : (flushedTier.sleep sampleHashing).isOk = true := by decide +kernel
  have hread : flushedTier.readHead sampleHashing 1 = .ok ⟨8, [7]⟩ ∧
      flushedTier.readHead sampleHashing 2 = .ok ⟨9, [8]⟩ := by decide +kernel
  obtain ⟨⟨w', token⟩, hok⟩ := isOk_iff.1 hsleep
  obtain ⟨woken, hwake, _, hsame⟩ := (sleep_loses_nothing flushedRun hcreated hsettled hmans hok).2 rfl hpages
  exact ⟨w', token, woken, hok, hwake, (hsame 1).1.trans hread.1, (hsame 2).1.trans hread.2⟩

/-- A commit, and a restart before its page is uploaded. -/
def unsettledRun : List TierEvent := [.begin 0, .write 0 1 [7], .commit 0 5, .restart 511]

/-- The first restart forgets that the page waits, and the sleep after it drops the
    only copy. A store with a key wakes without it and finds its pages corrupt. -/
theorem sleep_loses_forgotten_page :
    (TieredWorld.created sampleHashing sampleConfig = .ok (sampleTier sampleConfig) ∧
      TieredWorld.created sampleHashing ⟨4096, .keyed 30⟩ = .ok (sampleTier ⟨4096, .keyed 30⟩)) ∧
    ((sampleTier sampleConfig).run sampleHashing unsettledRun).readHead sampleHashing 1 = .ok ⟨8, [7]⟩ ∧
    (((sampleTier sampleConfig).run sampleHashing unsettledRun).sleep sampleHashing >>= fun r =>
      (r.1.wake sampleHashing r.2).map (fun woken => woken.readHead sampleHashing 1)) = .ok (.error (.missingPage 8)) ∧
    ((sampleTier ⟨4096, .keyed 30⟩).run sampleHashing (unsettledRun.take 3)).readHead sampleHashing 1 =
      .ok ⟨37, [7]⟩ ∧
    (((sampleTier ⟨4096, .keyed 30⟩).run sampleHashing (unsettledRun.take 3)).sleep sampleHashing >>= fun r =>
      (r.1.wake sampleHashing r.2).map (fun woken => woken.readHead sampleHashing 1)) =
      .ok (.error (.corruptPage 37 8 1)) := by
  refine ⟨⟨created_sample (by decide +kernel), created_sample (by decide +kernel)⟩, ?_⟩
  decide +kernel

end Mutiny.Substrate
