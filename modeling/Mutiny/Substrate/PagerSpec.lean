import Mutiny.Substrate.Pager

/- What deriving a manifest does (`Pager::derive_next`).

   Over a manifest that stands for a page map, `deriveNext` patches the map: it
   answers nothing exactly when the patch changes nothing, and otherwise a
   manifest that stands for the patched map once it is stored. The derivation is
   a function of the base's chain, the writes and the time alone, which is what
   replay rests on (`deriveNext_ok_mono`). -/
namespace Mutiny.Substrate
open Mutiny.Lib SortedMap Manifests Manifest List

variable {H : Hashing} {s s' : Manifests} {m : Manifest} {pages : PageMap} {d : Nat} {base id : ManifestId}

theorem tally_eq (flag : Bool) (count : Int) (existing content : Option PageId) :
    tally (flag, count) existing content =
      (flag || decide (existing ≠ content),
        count + (if content.isSome then 1 else 0) - (if existing.isSome then 1 else 0)) := by
  rcases existing with _ | old <;> rcases content with _ | new
  · simp [tally]
  · simp [tally]
  · simp [tally]
  · by_cases h : old = new <;> simp [tally, h]

variable {l : List (LogicalPageNo × Option PageId)}

/-- The tally of a list of writes, each page named once, against the map they
    apply to: whether one of them says something new, and the change in size. -/
theorem tallyWrites_eq (h : Resolves H s base pages) (hnodup : (l.map Prod.fst).Nodup) {cur : PageMap}
    (hcur : ∀ c ∈ l, cur[c.1]? = pages[c.1]?) (flag : Bool) (count : Int) :
    tallyWrites H s base l (flag, count) =
      .ok (flag || l.any (fun c => pages[c.1]? ≠ c.2), count + (l.foldl change cur).size - cur.size) := by
  induction l generalizing cur flag count with
  | nil => simp [tallyWrites]
  | cons c l ih =>
    obtain ⟨pageNo, content⟩ := c
    obtain ⟨hnot, hrest⟩ := nodup_cons.1 hnodup
    obtain ⟨hhere, hthere⟩ := forall_mem_cons.1 hcur
    have hnext : ∀ c ∈ l, (change cur (pageNo, content))[c.1]? = pages[c.1]? := by
      intro c hc
      rw [getElem?_change, if_neg, hthere c hc]
      intro heq
      exact hnot (mem_map.2 ⟨c, hc, heq.symm⟩)
    have hsize := size_change cur (pageNo, content)
    rw [hhere] at hsize
    rw [tallyWrites, lookupPage_of_resolves h, ok_bind, tally_eq, ih hrest hnext]
    simp only [any_cons, foldl_cons, Bool.or_assoc, Except.ok.injEq, Prod.mk.injEq, true_and, hsize]
    ring

/-- What deriving answers: a manifest on `base` that stands for `pages'` as soon
    as `base` is stored. -/
structure Derived (H : Hashing) (s : Manifests) (base : ManifestId) (pages' : PageMap) (next : Manifest) : Prop where
  parent : next.parent = some base
  base_of_overlay : ∀ b, next.overlayBase = some b → b = base
  stands : ∃ d, Stands H s next pages' d

variable {t : U64} {writes : PageChanges}

theorem overlayOn_derived {count : Nat} (hget : s.get H base = .ok m) (hm : Stands H s m pages d)
    (hroom : m.mustFlatten = false) (hcount : count = (patch pages writes).size) :
    Derived H s base (patch pages writes) (overlayOn base m writes count t) := by
  refine ⟨rfl, ?_, d + 1, ?_⟩
  · intro b hb
    exact (Option.some.inj hb).symm
  · have hd : d < maxOverlayDepth := by
      rw [← hm.depth_eq]
      simpa [mustFlatten] using hroom
    refine .overlay rfl hget hm hd ?_ hcount
    rw [← hm.depth_eq]
    rfl

theorem flattenOnto_derived : Derived H s base (patch pages writes) (flattenOnto base m pages writes t) := by
  refine ⟨rfl, ?_, 0, .flat rfl rfl rfl⟩
  intro b hb
  cases hb

theorem deriveNext_of_resolves (h : Resolves H s base pages) (writes : PageChanges) (t : U64) :
    (patch pages writes = pages ∧ deriveNext H s base writes t = .ok none) ∨
    (patch pages writes ≠ pages ∧ ∃ next, deriveNext H s base writes t = .ok (some (next, H.manifest next)) ∧
      Derived H s base (patch pages writes) next) := by
  have hres := h
  obtain ⟨m, d, hget, hm⟩ := h
  have htally := tallyWrites_eq hres (nodup_toList writes) (fun c _ => rfl) false m.pageCount
  have hcount : ((m.pageCount : Int) + (writes.toList.foldl change pages).size - pages.size).toNat =
      (patch pages writes).size := by
    rw [hm.count_eq, patch]
    omega
  have hany : (writes.toList.any (fun c => pages[c.1]? ≠ c.2)) = false ↔ patch pages writes = pages := by
    rw [patch_eq_self_iff, any_eq_false]
    simp
  unfold deriveNext
  simp only [hget, ok_bind, htally, Bool.false_or, hcount]
  by_cases hsame : patch pages writes = pages
  · refine Or.inl ⟨hsame, ?_⟩
    rw [if_pos (hany.2 hsame)]
    rfl
  · refine Or.inr ⟨hsame, ?_⟩
    rw [if_neg (fun hc => hsame (hany.1 hc))]
    cases hflat : m.mustFlatten with
    | true =>
      refine ⟨flattenOnto base m pages writes t, ?_, flattenOnto_derived⟩
      rw [if_pos rfl, resolveFrom_of_stands hm (by have := hm.depth_le; omega)]
      rfl
    | false =>
      exact ⟨_, rfl, overlayOn_derived hget hm hflat rfl⟩

variable {next : Manifest}

/-- A derived manifest, once stored, resolves to the patched map. Another manifest
    of the same name in the store would stand in its place. -/
theorem Derived.resolves_put (h : Derived H s base pages next)
    (hfresh : ∀ m', s[H.manifest next]? = some m' → m' = next) :
    Resolves H (s.put H next) (H.manifest next) pages := by
  obtain ⟨d, hd⟩ := h.stands
  exact ⟨next, d, get_put_self hfresh, hd.mono (fun _ _ hget => get_put_of_get hget next)⟩

variable {pageSize : Nat}

theorem resolves_empty : Resolves H (put H ∅ (.empty pageSize)) (H.manifest (.empty pageSize)) ∅ :=
  ⟨.empty pageSize, 0, get_put_self (by simp), .flat rfl rfl rfl⟩

/-! Names. -/

variable {s : Manifests} {m : Manifest}

/-- Every stored manifest has its own name, and the run hashed it. -/
abbrev Named (H : Hashing) (hashed : List Manifest) (s : Manifests) : Prop := WriteOnce.Named H.manifest hashed s

theorem put_of_mem (h : H.manifest m ∈ s) : s.put H m = s := WriteOnce.put_of_mem h

theorem put_put (s : Manifests) (m : Manifest) : (s.put H m).put H m = s.put H m :=
  put_of_mem (WriteOnce.mem_put.2 (Or.inl rfl))

/-! What a store answers, a store that holds more answers too. -/

variable {r : Option PageId} {id base : ManifestId} {pageNo : LogicalPageNo} {hops : Nat}

section

variable (hs : ∀ id m, s.get H id = .ok m → s'.get H id = .ok m)
include hs

theorem lookupFrom_mono (h : lookupFrom H s pageNo hops m = .ok r) : lookupFrom H s' pageNo hops m = .ok r := by
  induction hops generalizing m with
  | zero =>
    unfold lookupFrom at h ⊢
    exact h
  | succ hops ih =>
    unfold lookupFrom at h ⊢
    cases hl : m.localLookup pageNo with
    | some answer => rwa [hl] at h
    | none =>
      cases hb : m.overlayBase with
      | none => rwa [hl, hb] at h
      | some base =>
        rw [hl, hb] at h
        obtain ⟨below, hget, hrest⟩ := bind_ok.1 h
        exact bind_ok.2 ⟨below, hs _ _ hget, ih hrest⟩

theorem lookupPage_mono (h : lookupPage H s id pageNo = .ok r) : lookupPage H s' id pageNo = .ok r := by
  obtain ⟨m, hget, hrest⟩ := bind_ok.1 h
  exact bind_ok.2 ⟨m, hs _ _ hget, lookupFrom_mono hs hrest⟩

theorem resolveFrom_mono {pages : PageMap}
    (h : resolveFrom H s hops m = .ok pages) : resolveFrom H s' hops m = .ok pages := by
  induction hops generalizing m pages with
  | zero =>
    unfold resolveFrom at h ⊢
    cases hb : m.body with
    | flat own => rwa [hb] at h
    | overlay base changes =>
      rw [hb] at h
      obtain ⟨_, _, hrest⟩ := bind_ok.1 h
      cases hrest
  | succ hops ih =>
    unfold resolveFrom at h ⊢
    cases hb : m.body with
    | flat own => rwa [hb] at h
    | overlay base changes =>
      rw [hb] at h
      obtain ⟨below, hget, hrest⟩ := bind_ok.1 h
      obtain ⟨under, hunder, hok⟩ := bind_ok.1 hrest
      exact bind_ok.2 ⟨below, hs _ _ hget, bind_ok.2 ⟨under, ih hunder, hok⟩⟩

theorem tallyWrites_mono {acc r : Bool × Int}
    (h : tallyWrites H s base l acc = .ok r) :
    tallyWrites H s' base l acc = .ok r := by
  induction l generalizing acc with
  | nil => exact h
  | cons c l ih =>
    obtain ⟨existing, hlook, hrest⟩ := bind_ok.1 h
    exact bind_ok.2 ⟨existing, lookupPage_mono hs hlook, ih hrest⟩

theorem deriveNext_ok_mono {r : Option (Manifest × ManifestId)} (h : deriveNext H s base writes t = .ok r) :
    deriveNext H s' base writes t = .ok r := by
  obtain ⟨m, hget, h⟩ := bind_ok.1 h
  obtain ⟨⟨flag, count⟩, htally, h⟩ := bind_ok.1 h
  refine bind_ok.2 ⟨m, hs _ _ hget, bind_ok.2 ⟨(flag, count), tallyWrites_mono hs htally, ?_⟩⟩
  dsimp only at h ⊢
  split
  · next hflag => rwa [if_pos hflag] at h
  · next hflag =>
    rw [if_neg hflag] at h
    cases hflat : m.mustFlatten with
    | true =>
      simp only [hflat, if_true] at h ⊢
      obtain ⟨pages, hpages, hok⟩ := bind_ok.1 h
      exact bind_ok.2 ⟨pages, resolveFrom_mono hs hpages, hok⟩
    | false =>
      simp only [hflat, Bool.false_eq_true, if_false, pure_bind] at h ⊢
      exact h

end

/-! The pages a manifest names itself. -/

/-- The manifest's own map or its own changes hold the page. -/
def Manifest.Names (m : Manifest) (page : PageId) : Prop := ∃ pageNo, m.localLookup pageNo = some (some page)

theorem not_names_empty (pageSize : Nat) (page : PageId) : ¬ (empty pageSize).Names page := by
  rintro ⟨pageNo, h⟩
  simp [localLookup, empty] at h

/-- A page of the resolved map is named by a manifest of the chain. -/
theorem names_of_resolveFrom {pages : PageMap} (h : resolveFrom H s hops m = .ok pages) {page : PageId}
    (hpage : pages[pageNo]? = some page) :
    m.Names page ∨ ∃ id m', s.get H id = .ok m' ∧ m'.Names page := by
  induction hops generalizing m pages with
  | zero =>
    unfold resolveFrom at h
    cases hb : m.body with
    | flat own =>
      rw [hb] at h
      cases h
      exact Or.inl ⟨pageNo, by simp [localLookup, hb, hpage]⟩
    | overlay base changes =>
      rw [hb] at h
      obtain ⟨_, _, hrest⟩ := bind_ok.1 h
      cases hrest
  | succ hops ih =>
    unfold resolveFrom at h
    cases hb : m.body with
    | flat own =>
      rw [hb] at h
      cases h
      exact Or.inl ⟨pageNo, by simp [localLookup, hb, hpage]⟩
    | overlay base changes =>
      rw [hb] at h
      obtain ⟨below, hget, hrest⟩ := bind_ok.1 h
      obtain ⟨under, hunder, hok⟩ := bind_ok.1 hrest
      cases hok
      rw [getElem?_patch] at hpage
      cases hc : changes[pageNo]? with
      | some v =>
        rw [hc] at hpage
        exact Or.inl ⟨pageNo, by simp [localLookup, hb, hc, hpage]⟩
      | none =>
        rw [hc] at hpage
        rcases ih hunder hpage with hown | hbelow
        · exact Or.inr ⟨base, below, hget, hown⟩
        · exact Or.inr hbelow

/-- A derived manifest names staged pages and pages of stored manifests. -/
theorem names_of_deriveNext (h : deriveNext H s base writes t = .ok (some (next, id))) {page : PageId}
    (hpage : next.Names page) :
    (∃ pageNo : LogicalPageNo, writes[pageNo]? = some (some page)) ∨ ∃ id m, s.get H id = .ok m ∧ m.Names page := by
  obtain ⟨m, hget, h⟩ := bind_ok.1 h
  obtain ⟨⟨flag, count⟩, htally, h⟩ := bind_ok.1 h
  obtain ⟨pageNo, hpage⟩ := hpage
  dsimp only at h
  split at h
  · cases h
  · cases hflat : m.mustFlatten with
    | true =>
      simp only [hflat, if_true] at h
      obtain ⟨pages, hpages, hok⟩ := bind_ok.1 h
      cases hok
      simp only [localLookup, flattenOnto, Option.some.injEq] at hpage
      rw [getElem?_patch] at hpage
      cases hw : writes[pageNo]? with
      | some v =>
        rw [hw] at hpage
        exact Or.inl ⟨pageNo, by rw [hw]; exact congrArg some hpage⟩
      | none =>
        rw [hw] at hpage
        rcases names_of_resolveFrom hpages hpage with hown | hbelow
        · exact Or.inr ⟨base, m, hget, hown⟩
        · exact Or.inr hbelow
    | false =>
      simp only [hflat] at h
      cases h
      exact Or.inl ⟨pageNo, hpage⟩

/-! Named pages. -/

variable {page : Page} {hasher : PageHasher} {bytes : Bytes} {pages : Pages} {config : StoreConfig}

/-- The page files hold what they are named for, and the run hashed it. -/
abbrev NamedPages (H : Hashing) (config : StoreConfig) (hashed : List Bytes) (pages : Pages) : Prop :=
  WriteOnce.Named (config.hasher.hash H) hashed pages

theorem Page.eq_of_new (h : Page.new H hasher bytes pageSize = .ok page) : page = ⟨hasher.hash H bytes, bytes⟩ := by
  unfold Page.new at h
  split at h
  · cases h
  · exact (Except.ok.inj h).symm

theorem Pages.mem_put {id : PageId} : id ∈ pages.put page ↔ page.id = id ∨ id ∈ pages :=
  show id ∈ WriteOnce.put (fun _ => page.id) pages page.bytes ↔ _ from WriteOnce.mem_put

theorem Pages.get_ok {id : PageId} :
    pages.get H hasher id = .ok page ↔ ∃ bytes, pages[id]? = some bytes ∧ hasher.hash H bytes = id ∧ page = ⟨id, bytes⟩ := by
  unfold Pages.get
  cases pages[id]? with
  | none => simp
  | some bytes =>
    by_cases h : hasher.hash H bytes = id
    · simp [Page.verify, h, eq_comm]
    · simp [Page.verify, h]

theorem put_page {hashed : List Bytes} (h : NamedPages H config hashed pages)
    (hinj : TellsApart (config.hasher.hash H) (hashed ++ [bytes])) :
    let pages' := pages.put ⟨config.hasher.hash H bytes, bytes⟩
    NamedPages H config (hashed ++ [bytes]) pages' ∧ pages'[config.hasher.hash H bytes]? = some bytes ∧
      ∀ (id : PageId) b, pages[id]? = some b → pages'[id]? = some b := by
  obtain ⟨hnamed, -, hget, hold⟩ := h.put_new hinj
  exact ⟨hnamed, hget, hold⟩

/-! Hashes for concrete runs. They tell the pages and manifests of those runs apart. -/

def sampleHashing : Hashing where
  page bytes := Fin.ofNat _ (leNat bytes + 1)
  keyedPage key bytes := Fin.ofNat _ (key.val + leNat bytes)
  manifest m := Fin.ofNat _ (m.createdAtMs.val * 100 + m.pageCount * 10 + m.depth)

def sampleConfig : StoreConfig := ⟨4096, .unkeyed⟩

end Mutiny.Substrate
