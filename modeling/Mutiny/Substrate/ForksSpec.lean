import Mutiny.Substrate.Forks
import Mutiny.Substrate.PagerSpec

/- Forks over one store refine the store that copies everything.

   A manifest shows a database when it resolves to the hashes of its pages and
   those pages are there (`Shows`). Every event keeps the two worlds related:
   heads and kept snapshots show the naive copies, open transactions stage the
   naive writes, and the pins count what the open transactions staged. Collecting
   garbage keeps what a root shows (`gc_keeps`): the walk from the roots is closed
   under storage edges, and a page that a root resolves to is live.

   Between collections every stored manifest, head or not, stands for a map whose
   size and depth it records (`manifests_stand`). -/
namespace Mutiny.Substrate
open Mutiny.Lib SortedMap Manifests ForkWorld List

variable {H : Hashing} {config : StoreConfig}

/-- `id` resolves to the pages of `db`, all of which are there. -/
structure Shows (H : Hashing) (config : StoreConfig) (sh : Shared) (id : ManifestId) (db : Database) : Prop where
  resolves : ∃ pages, Resolves H sh.manifests id pages ∧
    ∀ pageNo : LogicalPageNo, pages[pageNo]? = db[pageNo]?.map (config.hasher.hash H)
  present : ∀ (pageNo : LogicalPageNo) bytes, db[pageNo]? = some bytes →
    sh.pages[config.hasher.hash H bytes]? = some bytes

/-- A transaction stages `writes`; its pages are there and pinned, and its base
    resolves. -/
structure Stages (H : Hashing) (config : StoreConfig) (sh : Shared) (txn : Txn)
    (writes : BTreeMap LogicalPageNo (Option Bytes)) : Prop where
  base : ∃ pages, Resolves H sh.manifests txn.base pages
  staged : ∀ pageNo : LogicalPageNo, txn.writes[pageNo]? = writes[pageNo]?.map (Option.map (config.hasher.hash H))
  present : ∀ (pageNo : LogicalPageNo) bytes, writes[pageNo]? = some (some bytes) →
    sh.pages[config.hasher.hash H bytes]? = some bytes ∧ config.hasher.hash H bytes ∈ txn.pinned

/-! Pins. -/

def Pins.count (pins : Pins) (id : PageId) : Nat := pins[id]?.getD 0

theorem Pins.count_pin (pins : Pins) (id x : PageId) :
    (pins.pin id).count x = pins.count x + if id = x then 1 else 0 := by
  unfold Pins.count Pins.pin
  rw [SortedMap.getElem?_insert]
  split
  · next h => simp [h]
  · rfl

theorem Pins.count_unpin (pins : Pins) (id x : PageId) :
    (pins.unpin id).count x = pins.count x - if id = x then 1 else 0 := by
  unfold Pins.count Pins.unpin
  cases hget : pins[id]? with
  | none =>
    by_cases h : id = x
    · subst h
      simp [hget]
    · simp [h]
  | some n =>
    by_cases hn : n - 1 = 0
    · simp only [hn, if_true, SortedMap.getElem?_erase]
      by_cases h : id = x
      · subst h
        simp [hget, hn]
      · simp [h]
    · simp only [hn, if_false, SortedMap.getElem?_insert]
      by_cases h : id = x
      · subst h
        simp [hget]
      · simp [h]

theorem Pins.count_release (l : List PageId) (pins : Pins) (x : PageId) :
    (l.foldl Pins.unpin pins).count x = pins.count x - l.count x := by
  induction l generalizing pins with
  | nil => simp
  | cons id l ih =>
    rw [foldl_cons, ih, Pins.count_unpin, count_cons]
    by_cases h : id = x
    · simp [h]
      omega
    · simp [h]

theorem Pins.mem_of_count {pins : Pins} {x : PageId} (h : 0 < pins.count x) : x ∈ pins := by
  unfold Pins.count at h
  cases hget : pins[x]? with
  | none =>
    rw [hget] at h
    exact absurd h (by simp)
  | some n => exact mem_iff.2 ⟨n, hget⟩

/-- The pins count what the open transactions pinned. -/
def Pinned (w : ForkWorld) : Prop :=
  ∀ id, w.shared.pins.count id = SortedMap.sumOf (fun t : Nat × Txn => t.2.pinned.count id) w.txns

theorem Pinned.mem {w : ForkWorld} (h : Pinned w) {name : Nat} {t : Nat × Txn} (ht : w.txns[name]? = some t)
    {id : PageId} (hid : id ∈ t.2.pinned) : id ∈ w.shared.pins := by
  refine Pins.mem_of_count ?_
  rw [h id, sumOf_erase ht]
  exact Nat.add_pos_left (count_pos_iff.2 hid) _

/-! Garbage collection. -/

variable {s : Manifests} {id : ManifestId} {pages : PageMap} {live manifestList : List ManifestId}
  {pageList : List PageId} {budget : Nat}

theorem getElem?_sweep {α β : Type} [LinearOrder α] (live : α → Bool) (ids : List α) (budget : Nat)
    (s : BTreeMap α β) (a : α) :
    (live a = true → (sweep live ids budget s).1[a]? = s[a]?) ∧
      ∀ v, (sweep live ids budget s).1[a]? = some v → s[a]? = some v := by
  induction ids generalizing budget s with
  | nil => exact ⟨fun _ => rfl, fun _ h => h⟩
  | cons id ids ih =>
    unfold sweep
    split
    · exact ih budget s
    · next hdead =>
      cases budget with
      | zero => exact ⟨fun _ => rfl, fun _ h => h⟩
      | succ budget =>
        obtain ⟨hkeep, hsub⟩ := ih budget (s.erase id)
        refine ⟨?_, ?_⟩
        · intro hlive
          rw [hkeep hlive, getElem?_erase, if_neg]
          rintro rfl
          exact hdead hlive
        · intro v hv
          have := hsub v hv
          rw [getElem?_erase] at this
          split at this
          · cases this
          · exact this

theorem mem_resolvedPages {ids : List ManifestId} {out : List PageId} (h : resolvedPages H s ids = .ok out)
    (hid : id ∈ ids) (hres : Resolves H s id pages) {pageNo : LogicalPageNo} {page : PageId}
    (hpage : pages[pageNo]? = some page) :
    page ∈ out := by
  induction ids generalizing out with
  | nil => cases hid
  | cons id' ids ih =>
    obtain ⟨pages', hres', hrest⟩ := bind_ok.1 h
    obtain ⟨rest, htail, hout⟩ := bind_ok.1 hrest
    cases hout
    rcases mem_cons.1 hid with rfl | hid
    · rw [resolve_of_resolves hres] at hres'
      cases hres'
      exact mem_append_left _ (mem_map.2 ⟨(pageNo, page), mem_toList.2 hpage, rfl⟩)
    · exact mem_append_right _ (ih htail hid)

theorem Stands.of_closed {s' : Manifests} {m : Manifest} {d : Nat} (h : Stands H s m pages d)
    {keep : List ManifestId}
    (hclosed : ∀ id ∈ keep, ∀ m, s.get H id = .ok m → ∀ b, m.overlayBase = some b → b ∈ keep)
    (hkeep : ∀ id ∈ keep, ∀ m, s.get H id = .ok m → s'.get H id = .ok m)
    (hbase : ∀ b, m.overlayBase = some b → b ∈ keep) : Stands H s' m pages d := by
  induction h with
  | flat hbody hdepth hcount => exact .flat hbody hdepth hcount
  | @overlay m below base changes pages d hbody hget _ hroom hdepth hcount ih =>
    have hmem : base ∈ keep := hbase base (by rw [Manifest.overlayBase, hbody])
    exact .overlay hbody (hkeep base hmem _ hget) (ih (hclosed base hmem _ hget)) hroom hdepth hcount

/-- What collecting keeps: what a root resolves to and its pages, and the pinned
    pages. It adds nothing. -/
theorem gc_keeps {sh sh' : Shared} (h : sh.gc H live pageList manifestList budget = .ok sh') :
    (∀ id ∈ live, ∀ pages, Resolves H sh.manifests id pages → Resolves H sh'.manifests id pages ∧
      ∀ (pageNo : LogicalPageNo) page, pages[pageNo]? = some page → sh'.pages[page]? = sh.pages[page]?) ∧
    (∀ id ∈ sh.pins, sh'.pages[id]? = sh.pages[id]?) ∧ sh'.pins = sh.pins ∧
    (∀ (id : ManifestId) m, sh'.manifests[id]? = some m → sh.manifests[id]? = some m) ∧
    ∀ (id : PageId) bytes, sh'.pages[id]? = some bytes → sh.pages[id]? = some bytes := by
  obtain ⟨reachable, hreach, hrest⟩ := bind_ok.1 h
  obtain ⟨livePages, hlive, hok⟩ := bind_ok.1 hrest
  obtain ⟨_, hroots, hclosed⟩ := walk_closed hreach
  cases hok
  have hpage := getElem?_sweep (fun id => decide (id ∈ livePages) || decide (id ∈ sh.pins)) pageList budget sh.pages
  generalize sweep _ pageList budget sh.pages = swept at hpage ⊢
  have hman := getElem?_sweep (fun id => decide (id ∈ reachable)) manifestList swept.2 sh.manifests
  generalize sweep _ manifestList swept.2 sh.manifests = kept at hman ⊢
  have hkeep : ∀ id ∈ reachable, ∀ m, sh.manifests.get H id = .ok m → get H kept.1 id = .ok m := by
    intro id hid m hget
    obtain ⟨hstored, hname⟩ := get_ok.1 hget
    exact get_ok.2 ⟨((hman id).1 (by simpa using hid)).trans hstored, hname⟩
  have hbase : ∀ id ∈ reachable, ∀ m, sh.manifests.get H id = .ok m → ∀ b, m.overlayBase = some b → b ∈ reachable := by
    intro id hid m hget b hb
    obtain ⟨es, hes, hin⟩ := hclosed id hid (by simp)
    rw [edgesOf, hget] at hes
    cases hes
    exact hin b (by simp [manifestEdges, hb])
  refine ⟨?_, ?_, rfl, fun id => (hman id).2, fun id => (hpage id).2⟩
  · intro id hid pages hres
    have hmem : id ∈ reachable := hroots id (mem_reverse.2 hid)
    obtain ⟨m, d, hget, hm⟩ := hres
    refine ⟨⟨m, d, hkeep id hmem m hget, hm.of_closed hbase hkeep (hbase id hmem m hget)⟩, ?_⟩
    intro pageNo page hp
    refine (hpage page).1 ?_
    simp [mem_resolvedPages hlive hmem ⟨m, d, hget, hm⟩ hp]
  · intro id hid
    exact (hpage id).1 (by simp [hid])

/-! The relation between the two worlds. -/

variable {txn : Txn}

structure Refines (H : Hashing) (config : StoreConfig) (w : ForkWorld) (n : NaiveWorld) : Prop where
  manifests : Named H w.hashedManifests w.shared.manifests
  pages : NamedPages H config w.hashedPages w.shared.pages
  stores : SortedMap.Rel (Shows H config w.shared) w.heads n.stores
  snapshots : SortedMap.Rel (Shows H config w.shared) w.snapshots n.snapshots
  txns : SortedMap.Rel (fun t u => t.1 = u.1 ∧ Stages H config w.shared t.2 u.2) w.txns n.txns
  pinned : Pinned w

/-- Everything that can be read can still be read. -/
structure Grows (H : Hashing) (sh sh' : Shared) : Prop where
  manifests : ∀ id m, sh.manifests.get H id = .ok m → sh'.manifests.get H id = .ok m
  pages : ∀ (id : PageId) bytes, sh.pages[id]? = some bytes → sh'.pages[id]? = some bytes

variable {sh sh' : Shared} {w : ForkWorld} {n : NaiveWorld} {db : Database} {store name : Nat}
  {writes : BTreeMap LogicalPageNo (Option Bytes)}

theorem Shows.grow (h : Shows H config sh id db) (hg : Grows H sh sh') : Shows H config sh' id db := by
  obtain ⟨pages, hres, hmap⟩ := h.resolves
  exact ⟨⟨pages, hres.mono hg.manifests, hmap⟩, fun pageNo bytes hb => hg.pages _ _ (h.present pageNo bytes hb)⟩

theorem Stages.grow (h : Stages H config sh txn writes) (hg : Grows H sh sh') : Stages H config sh' txn writes := by
  obtain ⟨pages, hres⟩ := h.base
  refine ⟨⟨pages, hres.mono hg.manifests⟩, h.staged, ?_⟩
  intro pageNo bytes hb
  obtain ⟨hpage, hpin⟩ := h.present pageNo bytes hb
  exact ⟨hg.pages _ _ hpage, hpin⟩

section

variable (h : Refines H config w n) (hg : Grows H w.shared sh')
include h hg

theorem Refines.grow_stores : Rel (Shows H config sh') w.heads n.stores := h.stores.mono (fun _ _ hs => hs.grow hg)

theorem Refines.grow_snapshots :
    Rel (Shows H config sh') w.snapshots n.snapshots := h.snapshots.mono (fun _ _ hs => hs.grow hg)

theorem Refines.grow_txns : Rel (fun t u => t.1 = u.1 ∧ Stages H config sh' t.2 u.2) w.txns n.txns :=
  h.txns.mono (fun _ _ ht => ⟨ht.1, ht.2.grow hg⟩)

end

theorem grows_release (sh : Shared) (txn : Txn) : Grows H sh (sh.release txn) := ⟨fun _ _ h => h, fun _ _ h => h⟩

/-! One event each. -/

variable {t : Target}

theorem Refines.close (h : Refines H config w n) (ht : w.txns[name]? = some (store, txn)) :
    Refines H config (w.close name txn) { n with txns := n.txns.erase name } := by
  have hg : Grows H w.shared (w.shared.release txn) := grows_release w.shared txn
  refine ⟨h.manifests, h.pages, h.grow_stores hg, h.grow_snapshots hg, (h.grow_txns hg).erase name, ?_⟩
  intro id
  show (txn.pinned.foldl Pins.unpin w.shared.pins).count id = _
  rw [Pins.count_release, h.pinned id, sumOf_erase ht]
  exact Nat.add_sub_cancel_left _ _

theorem Refines.begin (h : Refines H config w n) {head : ManifestId} (hhead : w.heads[store]? = some head)
    (hfree : name ∉ w.txns) : Refines H config { w with txns := w.txns.insert name (store, .begin head) }
      { n with txns := n.txns.insert name (store, ∅) } := by
  obtain ⟨db, _, hshows⟩ := h.stores.some_left hhead
  refine ⟨h.manifests, h.pages, h.stores, h.snapshots, h.txns.insert name ⟨rfl, ?_⟩, ?_⟩
  · obtain ⟨pages, hres, _⟩ := hshows.resolves
    exact ⟨⟨pages, hres⟩, by simp [Txn.begin], by simp⟩
  · intro id
    rw [sumOf_insert, erase_of_none (SortedMap.getElem?_eq_none.2 hfree), ← h.pinned id]
    simp [Txn.begin]

section

variable (h : Refines H config w n) (ht : w.txns[name]? = some (store, txn))
  (hstages : Stages H config w.shared txn writes) (pageNo : LogicalPageNo)
include h ht hstages pageNo

theorem Refines.write {bytes : Bytes}
    (hinj : TellsApart (config.hasher.hash H) (w.hashedPages ++ [bytes])) : Refines H config
      { w with
        shared := { w.shared with
          pages := w.shared.pages.put ⟨config.hasher.hash H bytes, bytes⟩
          pins := w.shared.pins.pin (config.hasher.hash H bytes) }
        txns := w.txns.insert name (store,
          ⟨txn.writes.insert pageNo (some (config.hasher.hash H bytes)), txn.base,
            txn.pinned ++ [config.hasher.hash H bytes]⟩)
        hashedPages := w.hashedPages ++ [bytes] }
      { n with txns := n.txns.insert name (store, writes.insert pageNo (some bytes)) } := by
  obtain ⟨hnamed, hput, hold⟩ := put_page h.pages hinj
  have hg : Grows H w.shared { w.shared with
      pages := w.shared.pages.put ⟨config.hasher.hash H bytes, bytes⟩
      pins := w.shared.pins.pin (config.hasher.hash H bytes) } := ⟨fun _ _ hget => hget, hold⟩
  refine ⟨h.manifests, hnamed, h.grow_stores hg, h.grow_snapshots hg, (h.grow_txns hg).insert name ⟨rfl, ?_⟩, ?_⟩
  · have hs := hstages.grow hg
    refine ⟨hs.base, ?_, ?_⟩
    · intro k
      rw [SortedMap.getElem?_insert, SortedMap.getElem?_insert, hs.staged k]
      split <;> rfl
    · intro k b hb
      rw [SortedMap.getElem?_insert] at hb
      split at hb
      · cases hb
        exact ⟨hput, by simp⟩
      · obtain ⟨hpage, hpin⟩ := hs.present k b hb
        exact ⟨hpage, mem_append_left _ hpin⟩
  · intro id
    show (w.shared.pins.pin _).count id = _
    rw [Pins.count_pin, h.pinned id, sumOf_insert, sumOf_erase ht]
    simp only [count_append, count_singleton, beq_iff_eq]
    omega

theorem Refines.remove : Refines H config { w with txns := w.txns.insert name (store, txn.remove pageNo) }
      { n with txns := n.txns.insert name (store, writes.insert pageNo none) } := by
  refine ⟨h.manifests, h.pages, h.stores, h.snapshots, h.txns.insert name ⟨rfl, hstages.base, ?_, ?_⟩, ?_⟩
  · intro k
    show (txn.writes.insert pageNo none)[k]? = _
    rw [SortedMap.getElem?_insert, SortedMap.getElem?_insert, hstages.staged k]
    split <;> rfl
  · intro k b hb
    rw [SortedMap.getElem?_insert] at hb
    split at hb
    · cases hb
    · exact hstages.present k b hb
  · intro id
    rw [h.pinned id, sumOf_insert, sumOf_erase ht]
    rfl

end

theorem patch_matches (hstages : Stages H config sh txn writes)
    (hmap : ∀ pageNo : LogicalPageNo, pages[pageNo]? = db[pageNo]?.map (config.hasher.hash H))
    (pageNo : LogicalPageNo) : (patch pages txn.writes)[pageNo]? =
      (patch db writes)[pageNo]?.map (config.hasher.hash H) := by
  rw [getElem?_patch, getElem?_patch, hstages.staged pageNo]
  cases writes[pageNo]? with
  | none => exact hmap pageNo
  | some v => rfl

theorem patch_present (hstages : Stages H config sh txn writes) (hshows : Shows H config sh id db)
    (pageNo : LogicalPageNo) (bytes : Bytes) (hb : (patch db writes)[pageNo]? = some bytes) :
    sh.pages[config.hasher.hash H bytes]? = some bytes := by
  rw [getElem?_patch] at hb
  cases hw : writes[pageNo]? with
  | none =>
    rw [hw] at hb
    exact hshows.present pageNo bytes hb
  | some v =>
    rw [hw] at hb
    exact (hstages.present pageNo bytes (by rw [hw, ← hb])).1

/-- A commit is a close without an effect, or stores, heads and returns a manifest that stands for the patched map. -/
theorem commit_cases (h : Named H w.hashedManifests w.shared.manifests)
    (hres : Resolves H w.shared.manifests txn.base pages) {now : U64}
    (hinj : TellsApart H.manifest (w.commit H name store txn now).2.hashedManifests) :
    (patch pages txn.writes = pages ∧ w.commit H name store txn now = (.ok txn.base, w.close name txn)) ∨
    (patch pages txn.writes ≠ pages ∧ ∃ next,
      Named H (w.hashedManifests ++ [next]) (w.shared.manifests.put H next) ∧
      Resolves H (w.shared.manifests.put H next) (H.manifest next) (patch pages txn.writes) ∧
      w.commit H name store txn now = (.ok (H.manifest next), { w.close name txn with
        shared := { w.shared.release txn with manifests := w.shared.manifests.put H next }
        heads := w.heads.insert store (H.manifest next)
        hashedManifests := w.hashedManifests ++ [next] })) := by
  unfold ForkWorld.commit at hinj ⊢
  dsimp only at hinj ⊢
  split
  · next hempty =>
    refine .inl ⟨?_, rfl⟩
    rw [patch_eq_self_iff, Std.ExtTreeMap.isEmpty_iff.1 hempty]
    intro c hc
    cases hc
  · next hne =>
    rw [if_neg hne] at hinj
    rcases deriveNext_of_resolves hres txn.writes now with ⟨hnop, hnone⟩ | ⟨hchange, next, hder, hnext⟩
    · rw [hnone]
      exact .inl ⟨hnop, rfl⟩
    · rw [hder] at hinj ⊢
      obtain ⟨hnamed, hfresh, -⟩ := h.put_new hinj
      exact .inr ⟨hchange, next, hnamed, hnext.resolves_put hfresh, rfl⟩

section

variable (h : Refines H config w n)
include h

theorem Refines.commit (ht : w.txns[name]? = some (store, txn))
    (hstages : Stages H config w.shared txn writes) (hhead : w.heads[store]? = some txn.base) {now : U64}
    (hinj : TellsApart H.manifest (w.commit H name store txn now).2.hashedManifests) :
    Refines H config (w.commit H name store txn now).2
      { n with
        stores := n.stores.insert store (patch (n.stores[store]?.getD ∅) writes)
        txns := n.txns.erase name } := by
  obtain ⟨db, hdb, hshows⟩ := h.stores.some_left hhead
  obtain ⟨pages, hres, hmap⟩ := hshows.resolves
  have hclosed := h.close ht
  rw [hdb, Option.getD_some]
  rcases commit_cases h.manifests hres hinj with ⟨hnop, hcommit⟩ | ⟨-, next, hnamed, hnext, hcommit⟩
  · -- without an effect the head already shows the patched database
    rw [hcommit]
    refine ⟨hclosed.manifests, hclosed.pages, ?_, hclosed.snapshots, hclosed.txns, hclosed.pinned⟩
    have hrel := hclosed.stores.insert store (b := txn.base) (c := patch db writes)
      (Shows.grow ⟨⟨pages, hres, ?_⟩, patch_present hstages hshows⟩ (grows_release w.shared txn))
    · rwa [insert_of_some (show (w.close name txn).heads[store]? = some txn.base from hhead)] at hrel
    · intro pageNo
      rw [← patch_matches hstages hmap, hnop]
  · rw [hcommit]
    have hg : Grows H w.shared { w.shared.release txn with manifests := w.shared.manifests.put H next } :=
      ⟨fun _ _ hget => get_put_of_get hget next, fun _ _ hpage => hpage⟩
    refine ⟨hnamed, h.pages, (h.grow_stores hg).insert store
      ⟨⟨patch pages txn.writes, hnext, patch_matches hstages hmap⟩, ?_⟩, h.grow_snapshots hg,
      (h.grow_txns hg).erase name, hclosed.pinned⟩
    exact fun pageNo bytes hb => patch_present hstages hshows pageNo bytes hb

theorem Refines.target (ht : w.target t = some id) : ∃ db, n.target t = some db ∧ Shows H config w.shared id db := by
  cases t with
  | head store => exact h.stores.some_left ht
  | snapshot name => exact h.snapshots.some_left ht

theorem Refines.target_none (ht : w.target t = none) : n.target t = none := by
  cases t with
  | head store => exact (h.stores.none_iff store).1 ht
  | snapshot name => exact (h.snapshots.none_iff name).1 ht

/-- A collection that is told the roots. -/
theorem Refines.gc (hlive : ∀ id ∈ w.roots, id ∈ live)
    (hgc : w.shared.gc H live pageList manifestList budget = .ok sh') :
    Refines H config { w with shared := sh' } n := by
  obtain ⟨hroots, hpins, hsame, hman, hpages⟩ := gc_keeps hgc
  have hshows : ∀ id db, id ∈ live → Shows H config w.shared id db → Shows H config sh' id db := by
    intro id db hid hs
    obtain ⟨pages, hres, hmap⟩ := hs.resolves
    obtain ⟨hres', hkeep⟩ := hroots id hid pages hres
    refine ⟨⟨pages, hres', hmap⟩, ?_⟩
    intro pageNo bytes hb
    rw [hkeep pageNo _ (by rw [hmap, hb]; rfl)]
    exact hs.present pageNo bytes hb
  refine ⟨?_, ?_, ?_, ?_, ?_, ?_⟩
  · exact fun id m hget => h.manifests id m (hman id m hget)
  · exact fun id bytes hget => h.pages id bytes (hpages id bytes hget)
  · refine h.stores.imp (fun k id db hk => hshows id db (hlive id ?_))
    simp only [roots, mem_append, mem_map]
    exact Or.inl (Or.inl ⟨(k, id), mem_toList.2 hk, rfl⟩)
  · refine h.snapshots.imp (fun k id db hk => hshows id db (hlive id ?_))
    simp only [roots, mem_append, mem_map]
    exact Or.inl (Or.inr ⟨(k, id), mem_toList.2 hk, rfl⟩)
  · refine h.txns.imp (fun k t u hk ht => ⟨ht.1, ?_⟩)
    have hbase : t.2.base ∈ live := by
      refine hlive _ ?_
      simp only [roots, mem_append, mem_map]
      exact Or.inr ⟨(k, t), mem_toList.2 hk, rfl⟩
    obtain ⟨pages, hres⟩ := ht.2.base
    refine ⟨⟨pages, (hroots _ hbase pages hres).1⟩, ht.2.staged, ?_⟩
    intro pageNo bytes hb
    obtain ⟨hpage, hpin⟩ := ht.2.present pageNo bytes hb
    exact ⟨(hpins _ (h.pinned.mem hk hpin)).trans hpage, hpin⟩
  · intro id
    show sh'.pins.count id = _
    rw [hsame]
    exact h.pinned id

/-! Runs. -/

theorem Refines.step (e : ForkEvent) (hallowed : w.Allowed e)
    (hpages : TellsApart (config.hasher.hash H) (w.step H config e).hashedPages)
    (hman : TellsApart H.manifest (w.step H config e).hashedManifests) :
    Refines H config (w.step H config e) (n.step config.pageSize e) := by
  cases e with
  | begin store name =>
    simp only [ForkWorld.step, NaiveWorld.step, ← h.stores.mem_iff store, ← h.txns.mem_iff name]
    cases hhead : w.heads[store]? with
    | none =>
      have hnot : store ∉ w.heads := by simp [SortedMap.mem_iff, hhead]
      simpa [hnot] using h
    | some head =>
      have hmem : store ∈ w.heads := SortedMap.mem_iff.2 ⟨head, hhead⟩
      by_cases hname : name ∈ w.txns
      · simpa [hname] using h
      · simpa [hname, hmem] using h.begin hhead hname
  | write name pageNo bytes =>
    simp only [ForkWorld.step, NaiveWorld.step] at hpages ⊢
    cases ht : w.txns[name]? with
    | none =>
      rw [(h.txns.none_iff name).1 ht]
      exact h
    | some t =>
      obtain ⟨store, txn⟩ := t
      obtain ⟨⟨_, writes⟩, hu, rfl, hstages⟩ := h.txns.some_left ht
      rw [ht] at hpages
      rw [hu]
      simp only [ForkWorld.write, Txn.write, Page.new] at hpages ⊢
      by_cases hlen : bytes.length ≤ config.pageSize
      · rw [if_neg (Nat.not_lt.2 hlen)] at hpages ⊢
        rw [if_pos hlen]
        exact h.write ht hstages pageNo hpages
      · rw [if_pos (Nat.lt_of_not_le hlen), if_neg hlen]
        exact h
  | remove name pageNo =>
    simp only [ForkWorld.step, NaiveWorld.step]
    cases ht : w.txns[name]? with
    | none =>
      rw [(h.txns.none_iff name).1 ht]
      exact h
    | some t =>
      obtain ⟨store, txn⟩ := t
      obtain ⟨⟨_, writes⟩, hu, rfl, hstages⟩ := h.txns.some_left ht
      rw [hu]
      exact h.remove ht hstages pageNo
  | commit name now =>
    simp only [ForkWorld.step, NaiveWorld.step] at hman ⊢
    cases ht : w.txns[name]? with
    | none =>
      rw [(h.txns.none_iff name).1 ht]
      exact h
    | some t =>
      obtain ⟨store, txn⟩ := t
      obtain ⟨⟨_, writes⟩, hu, rfl, hstages⟩ := h.txns.some_left ht
      rw [ht] at hman
      rw [hu]
      exact h.commit ht hstages (hallowed _ ht) hman
  | drop name =>
    simp only [ForkWorld.step, NaiveWorld.step]
    cases ht : w.txns[name]? with
    | none =>
      rw [SortedMap.erase_of_none ((h.txns.none_iff name).1 ht)]
      exact h
    | some t => exact h.close ht
  | snapshot store name =>
    simp only [ForkWorld.step, NaiveWorld.step]
    cases hhead : w.heads[store]? with
    | none =>
      rw [(h.stores.none_iff store).1 hhead]
      exact h
    | some head =>
      obtain ⟨db, hdb, hshows⟩ := h.stores.some_left hhead
      rw [hdb]
      exact ⟨h.manifests, h.pages, h.stores, h.snapshots.insert name hshows, h.txns, h.pinned⟩
  | forget name => exact ⟨h.manifests, h.pages, h.stores, h.snapshots.erase name, h.txns, h.pinned⟩
  | fork target store | rewind store target =>
    simp only [ForkWorld.step, NaiveWorld.step, ← h.stores.mem_iff store]
    cases ht : w.target target with
    | none =>
      rw [h.target_none ht]
      exact h
    | some id =>
      obtain ⟨db, hdb, hshows⟩ := h.target ht
      obtain ⟨pages, hres, _⟩ := hshows.resolves
      rw [hdb]
      simp only [hres.mem, true_and]
      split
      · exact ⟨h.manifests, h.pages, h.stores.insert store hshows, h.snapshots, h.txns, h.pinned⟩
      · exact h
  | gc live pageList manifestList budget =>
    simp only [ForkWorld.step, NaiveWorld.step]
    cases hgc : w.shared.gc H live pageList manifestList budget with
    | error e => exact h
    | ok sh' => exact h.gc hallowed hgc

end

theorem hashed_step (w : ForkWorld) (e : ForkEvent) :
    (∀ b ∈ w.hashedPages, b ∈ (w.step H config e).hashedPages) ∧
      ∀ m ∈ w.hashedManifests, m ∈ (w.step H config e).hashedManifests := by
  have hsame : (∀ b ∈ w.hashedPages, b ∈ w.hashedPages) ∧ ∀ m ∈ w.hashedManifests, m ∈ w.hashedManifests :=
    ⟨fun _ h => h, fun _ h => h⟩
  cases e <;> simp only [step]
  case write =>
    split
    · exact hsame
    · unfold write
      split
      · exact hsame
      · exact ⟨fun b hb => mem_append_left _ hb, hsame.2⟩
  case commit =>
    split
    · exact hsame
    · unfold commit
      dsimp only
      repeat' split
      all_goals first | exact hsame | exact ⟨hsame.1, fun m hm => mem_append_left _ hm⟩
  all_goals
    repeat' split
    all_goals exact hsame

theorem Refines.run {es : List ForkEvent} (h : Refines H config w n) (hallowed : w.AllowedRun H config es)
    (hpages : TellsApart (config.hasher.hash H) (w.run H config es).hashedPages)
    (hman : TellsApart H.manifest (w.run H config es).hashedManifests) :
    Refines H config (w.run H config es) (n.run config.pageSize es) := by
  refine Along.simulates (F := fun w => TellsApart (config.hasher.hash H) w.hashedPages ∧
    TellsApart H.manifest w.hashedManifests) hallowed h (fun w e hnext => ?_) ⟨hpages, hman⟩
    (fun w n e he hnext h => h.step e he hnext.1 hnext.2)
  obtain ⟨hp, hm⟩ := hashed_step (H := H) w e
  exact ⟨hnext.1.mono hp, hnext.2.mono hm⟩

theorem refines_initial : Refines H config (.initial H config) .initial := by
  refine ⟨?_, .empty _ _, ?_, rel_empty, rel_empty, ?_⟩
  · exact (WriteOnce.Named.empty _ _).put (mem_singleton.2 rfl)
  · refine Rel.insert rel_empty 0 ⟨⟨∅, resolves_empty, ?_⟩, ?_⟩
    · simp
    · simp
  · intro id
    show (∅ : Pins)[id]?.getD 0 = 0
    simp

/-- What a manifest gives a reader: it resolves, and every logical page reads back
    the bytes of `db`, or as absent. -/
def ReadsBack (H : Hashing) (config : StoreConfig) (sh : Shared) (id : ManifestId) (db : Database) : Prop :=
  (∃ pages, resolve H sh.manifests id = .ok pages) ∧
    ∀ pageNo : LogicalPageNo, read H config sh.pages sh.manifests id pageNo =
      match db[pageNo]? with
      | some bytes => .ok ⟨config.hasher.hash H bytes, bytes⟩
      | none => .error (.pageNotFound pageNo id)

theorem Shows.readsBack (h : Shows H config sh id db) : ReadsBack H config sh id db := by
  obtain ⟨pages, hres, hmap⟩ := h.resolves
  refine ⟨⟨pages, resolve_of_resolves hres⟩, ?_⟩
  intro pageNo
  rw [read, lookupPage_of_resolves hres, ok_bind, hmap pageNo]
  cases hdb : db[pageNo]? with
  | none => rfl
  | some bytes => simp [Pages.get, h.present pageNo bytes hdb, Page.verify]

/-- Refinement. Over any run of transactions, forks, snapshots, rewinds and
    collections, every store's head and every kept snapshot reads back exactly the
    database that the copying store has there, and every page an open transaction
    staged is still present. -/
theorem forks_refine_copies (es : List ForkEvent) (hallowed : (ForkWorld.initial H config).AllowedRun H config es)
    (hpages : TellsApart (config.hasher.hash H) ((ForkWorld.initial H config).run H config es).hashedPages)
    (hman : TellsApart H.manifest ((ForkWorld.initial H config).run H config es).hashedManifests) :
    SortedMap.Rel (ReadsBack H config ((ForkWorld.initial H config).run H config es).shared)
      ((ForkWorld.initial H config).run H config es).heads (NaiveWorld.initial.run config.pageSize es).stores ∧
    SortedMap.Rel (ReadsBack H config ((ForkWorld.initial H config).run H config es).shared)
      ((ForkWorld.initial H config).run H config es).snapshots (NaiveWorld.initial.run config.pageSize es).snapshots ∧
    ∀ (name store : Nat) (txn : Txn), ((ForkWorld.initial H config).run H config es).txns[name]? = some (store, txn) →
      ∀ (pageNo : LogicalPageNo) id, txn.writes[pageNo]? = some (some id) →
        id ∈ ((ForkWorld.initial H config).run H config es).shared.pages := by
  have h := refines_initial.run hallowed hpages hman
  refine ⟨h.stores.mono (fun _ _ hs => hs.readsBack), h.snapshots.mono (fun _ _ hs => hs.readsBack), ?_⟩
  intro name store txn ht pageNo id hw
  obtain ⟨⟨_, writes⟩, _, _, hstages⟩ := h.txns.some_left ht
  rw [hstages.staged pageNo] at hw
  obtain ⟨v, hv, hid⟩ := Option.map_eq_some_iff.1 hw
  obtain ⟨bytes, rfl, rfl⟩ := Option.map_eq_some_iff.1 hid
  exact mem_iff.2 ⟨bytes, (hstages.present pageNo bytes hv).1⟩

/-- A fork written to, a rewind that abandons a manifest, and a collection with a
    transaction open, interrupted after one deletion and then run to its end. -/
def forkedRun : List ForkEvent :=
  [.begin 0 0, .write 0 1 [7], .commit 0 1, .fork (.head 0) 1, .begin 1 1, .write 1 2 [8], .commit 1 2,
   .snapshot 1 0, .begin 1 2, .write 2 3 [9], .commit 2 3, .rewind 1 (.snapshot 0), .begin 0 3, .write 3 4 [10],
   .gc [111, 222] [8, 9, 10, 11] [0, 111, 222, 333] 1, .gc [111, 222] [8, 9, 11] [333, 0, 111, 222] 9, .commit 3 4]

abbrev sampleForks : ForkWorld :=
  (ForkWorld.initial sampleHashing sampleConfig).run sampleHashing sampleConfig forkedRun

theorem forks_refine_copies_forked :
    SortedMap.Rel (ReadsBack sampleHashing sampleConfig sampleForks.shared) sampleForks.heads
      (NaiveWorld.initial.run sampleConfig.pageSize forkedRun).stores ∧
    sampleForks.heads.toList = [(0, 422), (1, 222)] ∧
    sampleForks.shared.manifests.toList.map Prod.fst = [0, 111, 222, 422] := by
  have hallowed : (initial sampleHashing sampleConfig).AllowedRun sampleHashing sampleConfig forkedRun := by
    decide +kernel
  have hpages : TellsApart (sampleConfig.hasher.hash sampleHashing) sampleForks.hashedPages := by decide +kernel
  have hman : TellsApart sampleHashing.manifest sampleForks.hashedManifests := by decide +kernel
  exact ⟨(forks_refine_copies forkedRun hallowed hpages hman).1, by decide +kernel, by decide +kernel⟩

/-! Every stored manifest. -/

/-- The manifests that one is laid over, nearest first; `hops` bounds the walk. -/
def overlayChain (H : Hashing) (s : Manifests) : Nat → Manifest → List ManifestId
  | 0, _ => []
  | hops + 1, m => match m.overlayBase with
    | none => []
    | some base => base :: match s.get H base with
      | .ok below => overlayChain H s hops below
      | .error _ => []

theorem Stands.length_overlayChain {m : Manifest} {d hops : Nat} (h : Stands H s m pages d) (hd : d ≤ hops) :
    (overlayChain H s hops m).length = d := by
  induction h generalizing hops with
  | flat hbody =>
    cases hops with
    | zero => rfl
    | succ n => simp [overlayChain, Manifest.overlayBase, hbody]
  | overlay hbody hbase _ _ _ _ ih =>
    obtain ⟨n, rfl⟩ : ∃ n, hops = n + 1 := ⟨hops - 1, by omega⟩
    simp [overlayChain, Manifest.overlayBase, hbody, hbase, ih (show _ ≤ n by omega)]

/-- Every stored manifest stands for a map. -/
structure Standing (H : Hashing) (w : ForkWorld) : Prop where
  named : Named H w.hashedManifests w.shared.manifests
  resolves : ∀ id ∈ w.shared.manifests, ∃ pages, Resolves H w.shared.manifests id pages

/-- A commit on any base: one that is not stored is refused. -/
theorem Standing.commit (h : Standing H w) {now : U64}
    (hinj : TellsApart H.manifest (w.commit H name store txn now).2.hashedManifests) :
    Standing H (w.commit H name store txn now).2 := by
  by_cases hbase : txn.base ∈ w.shared.manifests
  · obtain ⟨pages, hres⟩ := h.resolves txn.base hbase
    rcases commit_cases h.named hres hinj with ⟨-, hcommit⟩ | ⟨-, next, hnamed, hnext, hcommit⟩
    · rw [hcommit]
      exact ⟨h.named, h.resolves⟩
    · rw [hcommit]
      refine ⟨hnamed, fun id hid => ?_⟩
      rcases WriteOnce.mem_put.1 hid with rfl | hold
      · exact ⟨_, hnext⟩
      · obtain ⟨pages', hold⟩ := h.resolves id hold
        exact ⟨pages', hold.mono fun _ _ hget => get_put_of_get hget next⟩
  · have hder : deriveNext H w.shared.manifests txn.base txn.writes now = .error (.missingManifest txn.base) := by
      rw [deriveNext, Manifests.get, Std.ExtTreeMap.getElem?_eq_none hbase]
      rfl
    have hclose : (w.commit H name store txn now).2 = w.close name txn := by
      unfold ForkWorld.commit
      rw [hder]
      split <;> rfl
    rw [hclose]
    exact ⟨h.named, h.resolves⟩

/-- Nothing but a commit and a collection touches the stored manifests. -/
theorem Standing.step (h : Standing H w) {e : ForkEvent} (he : ∀ a b c d, e ≠ .gc a b c d)
    (hinj : TellsApart H.manifest (w.step H config e).hashedManifests) : Standing H (w.step H config e) := by
  have hsame : ∀ {w' : ForkWorld}, w'.shared.manifests = w.shared.manifests →
      w'.hashedManifests = w.hashedManifests → Standing H w' := fun hs hh => ⟨hs ▸ hh ▸ h.named, hs ▸ h.resolves⟩
  cases e <;> simp only [ForkWorld.step] at hinj ⊢
  case commit name now =>
    split
    · exact h
    · next t ht =>
      simp only [ht] at hinj
      exact h.commit hinj
  case gc a b c d => exact absurd rfl (he a b c d)
  case write =>
    unfold ForkWorld.write
    repeat' split
    all_goals first | exact h | exact hsame rfl rfl
  all_goals
    repeat' split
    all_goals first | exact h | exact hsame rfl rfl

theorem Standing.run {es : List ForkEvent} (h : Standing H w) (hes : ∀ e ∈ es, ∀ a b c d, e ≠ .gc a b c d)
    (hinj : TellsApart H.manifest (w.run H config es).hashedManifests) : Standing H (w.run H config es) := by
  have hall : Along (ForkWorld.step H config) (fun _ e => ∀ a b c d, e ≠ .gc a b c d) w es :=
    along_of_forall (fun e he _ => hes e he)
  exact hall.keeps_below (F := fun w => TellsApart H.manifest w.hashedManifests) h
    (fun w e hnext => hnext.mono (hashed_step (H := H) w e).2) hinj (fun w e he hnext h => h.step he hnext)

/-- In any run of transactions, forks, snapshots and rewinds, every manifest is as deep as
    its overlay chain is long and no deeper than allowed, counts the pages it resolves to,
    and answers each page as its map does; a commit on it that leaves the map as it is returns it and
    stores nothing, any other returns and heads a manifest of the patched map. -/
theorem manifests_stand (es : List ForkEvent) (hes : ∀ e ∈ es, ∀ a b c d, e ≠ .gc a b c d)
    (hman : TellsApart H.manifest ((ForkWorld.initial H config).run H config es).hashedManifests) :
    let w := (ForkWorld.initial H config).run H config es
    ∀ id ∈ w.shared.manifests, ∃ m pages, w.shared.manifests.get H id = .ok m ∧
      (∀ hops, maxOverlayDepth ≤ hops → (overlayChain H w.shared.manifests hops m).length = m.depth) ∧
      m.depth ≤ maxOverlayDepth ∧ resolve H w.shared.manifests id = .ok pages ∧ m.pageCount = pages.size ∧
      (∀ p, lookupPage H w.shared.manifests id p = .ok pages[p]?) ∧
      ∀ (name store : Nat) (txn : Txn) (now : U64), txn.base = id → ∀ result w', w.commit H name store txn now = (result, w') →
        TellsApart H.manifest w'.hashedManifests →
          (SortedMap.patch pages txn.writes = pages ∧ result = .ok id ∧ w' = w.close name txn) ∨
          (SortedMap.patch pages txn.writes ≠ pages ∧ ∃ id', result = .ok id' ∧ w'.heads[store]? = some id' ∧
            resolve H w'.shared.manifests id' = .ok (SortedMap.patch pages txn.writes)) := by
  have hinit : Standing H (.initial H config) := ⟨refines_initial.manifests, fun id hid => by
    rcases WriteOnce.mem_put.1 hid with rfl | hid
    · exact ⟨∅, resolves_empty⟩
    · simp at hid⟩
  have hrun := hinit.run hes hman
  intro w id hid
  obtain ⟨pages, hres⟩ := hrun.resolves id hid
  obtain ⟨m, d, hget, hm⟩ := hres
  refine ⟨m, pages, hget, ?_, hm.depth_eq ▸ hm.depth_le, resolve_of_resolves ⟨m, d, hget, hm⟩, hm.count_eq,
    lookupPage_of_resolves ⟨m, d, hget, hm⟩, ?_⟩
  · intro hops hhops
    rw [hm.length_overlayChain (hm.depth_le.trans hhops), hm.depth_eq]
  · rintro name store txn now rfl result w' hdone hinj
    have hinj' : TellsApart H.manifest (w.commit H name store txn now).2.hashedManifests := by rwa [hdone]
    rcases commit_cases hrun.named ⟨m, d, hget, hm⟩ hinj' with ⟨hsame, hcommit⟩ | ⟨hchange, next, -, hnext, hcommit⟩
    · obtain ⟨rfl, rfl⟩ := Prod.mk.inj (hdone.symm.trans hcommit)
      exact .inl ⟨hsame, rfl, rfl⟩
    · obtain ⟨rfl, rfl⟩ := Prod.mk.inj (hdone.symm.trans hcommit)
      exact .inr ⟨hchange, H.manifest next, rfl, Std.ExtTreeMap.getElem?_insert_self, resolve_of_resolves hnext⟩

/-- Up to the collection: a fork written to and rewound. -/
theorem manifests_stand_forked :
    let w := (ForkWorld.initial sampleHashing sampleConfig).run sampleHashing sampleConfig (forkedRun.take 12)
    w.heads.toList = [(0, 111), (1, 222)] ∧ ∃ m pages, w.shared.manifests.get sampleHashing 222 = .ok m ∧
      resolve sampleHashing w.shared.manifests 222 = .ok pages ∧ m.pageCount = pages.size := by
  intro w
  have hman : TellsApart sampleHashing.manifest w.hashedManifests := by decide +kernel
  have hmem : (222 : ManifestId) ∈ w.shared.manifests := by decide +kernel
  obtain ⟨m, pages, hget, -, -, hres, hcount, -⟩ := manifests_stand (H := sampleHashing) (forkedRun.take 12)
    (by simp [forkedRun]) hman 222 hmem
  exact ⟨by decide +kernel, m, pages, hget, hres, hcount⟩

end Mutiny.Substrate
