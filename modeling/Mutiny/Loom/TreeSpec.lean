import Mutiny.Loom.Tree

/- The tree holds a sorted list of records.

   `Sub nodes d lo hi page pages entries` says that `page` roots a subtree of
   depth `d` over the key range from `lo` up to but not including `hi`, made of
   exactly `pages`, holding exactly `entries`. The children of a node form a
   `Chain` along its separators. Separators may repeat: a leaf whose one entry
   outgrows its page splits into an empty leaf and a leaf whose lower bound is its
   only key, and can do so again.

   `TreeHolds` is the invariant of a whole tree: the root's subtree, with no page used
   twice and no written page outside it. `insert`, `remove` and a commit keep it
   and do to the list what their names say, and a search that may visit as many
   nodes as there are pages ends. `leaf_mem` is what the merge prefilter rests on:
   a record is in the tree exactly when it is in a leaf at one of the written
   pages. -/
namespace Mutiny.Loom
open Mutiny.Lib SortedMap Loom.Tree List Option

variable {κ ρ : Type} [LinearOrder κ]

/-! Sorted entries. -/

variable {m m1 m2 : List (κ × ρ)} {k key : κ} {record : ρ}

def Sorted (m : List (κ × ρ)) : Prop := m.Pairwise (fun a b => a.1 < b.1)

theorem Sorted.eq_of_key (h : Sorted m) {r r' : ρ} (hr : (k, r) ∈ m) (hr' : (k, r') ∈ m) : r = r' := by
  have hkeys : (m.map Prod.fst).Nodup := pairwise_map.2 (h.imp (fun hlt => ne_of_lt hlt))
  exact (Prod.mk.inj (inj_on_of_nodup_map hkeys hr hr' rfl)).2

theorem findEntry_eq_some (h : Sorted m) {r : ρ} : findEntry k m = some r ↔ (k, r) ∈ m := by
  unfold findEntry
  constructor
  · intro hfind
    obtain ⟨⟨k', r'⟩, hmem, rfl⟩ := map_eq_some_iff.1 hfind
    have hk : k' = k := by simpa using List.find?_some hmem
    subst hk
    exact mem_of_find?_eq_some hmem
  · intro hmem
    cases hfind : m.find? (fun e => e.1 = k) with
    | none => exact absurd (List.find?_eq_none.1 hfind (k, r) hmem) (by simp)
    | some e =>
      obtain ⟨k', r'⟩ := e
      have hk : k' = k := by simpa using List.find?_some hfind
      subst hk
      rw [h.eq_of_key hmem (mem_of_find?_eq_some hfind)]
      rfl

theorem findEntry_eq_none : findEntry k m = none ↔ ∀ e ∈ m, e.1 ≠ k := by
  simp [findEntry]

theorem findEntry_append_of_lt (h1 : ∀ e ∈ m1, e.1 < key) (h2 : ∀ e ∈ m2, key < e.1) :
    findEntry key (m1 ++ m ++ m2) = findEntry key m := by
  have hnone : ∀ {l : List (κ × ρ)}, (∀ e ∈ l, e.1 ≠ key) → l.find? (fun e => e.1 = key) = none := by
    intro l hl
    rw [List.find?_eq_none]
    intro e he
    simpa using hl e he
  unfold findEntry
  rw [List.find?_append, List.find?_append, hnone (fun e he => ne_of_lt (h1 e he)),
    hnone (fun e he => ne_of_gt (h2 e he)), none_or, or_none]

theorem putEntry_of_gt (h : ∀ e ∈ m, key < e.1) : putEntry key record m = (key, record) :: m := by
  cases m with
  | nil => rfl
  | cons e m =>
    have he := h e (by simp)
    simp only [putEntry, not_lt_of_gt he, if_false, ne_of_gt he]

theorem putEntry_append (h1 : ∀ e ∈ m1, e.1 < key) (h2 : ∀ e ∈ m2, key < e.1) :
    putEntry key record (m1 ++ m ++ m2) = m1 ++ putEntry key record m ++ m2 := by
  induction m1 with
  | cons e m1 ih =>
    obtain ⟨he, hrest⟩ := forall_mem_cons.1 h1
    simp only [cons_append, putEntry, he, if_true, ih hrest]
  | nil =>
    simp only [nil_append]
    induction m with
    | nil => exact putEntry_of_gt h2
    | cons e m ih =>
      by_cases hlt : e.1 < key
      · simp only [cons_append, putEntry, hlt, if_true, ih]
      · by_cases heq : e.1 = key
        · simp only [cons_append, putEntry, heq, lt_irrefl, if_false, if_true]
        · simp only [cons_append, putEntry, hlt, heq, if_false]

variable {e : κ × ρ}

theorem mem_putEntry (h : e ∈ putEntry key record m) : e = (key, record) ∨ e ∈ m := by
  fun_induction putEntry key record m with
  | case1 => exact .inl (mem_singleton.1 h)
  | case2 a m _ ih =>
    rcases mem_cons.1 h with rfl | h
    · exact .inr mem_cons_self
    · exact (ih h).imp_right (mem_cons_of_mem a)
  | case3 a m => exact (mem_cons.1 h).imp_right (mem_cons_of_mem a)
  | case4 => exact mem_cons.1 h

theorem sorted_putEntry (h : Sorted m) (key : κ) (record : ρ) : Sorted (putEntry key record m) := by
  fun_induction putEntry key record m with
  | case1 => exact pairwise_singleton _ _
  | case2 a m hlt ih =>
    obtain ⟨ha, hm⟩ := pairwise_cons.1 h
    refine pairwise_cons.2 ⟨?_, ih hm⟩
    intro e he
    rcases mem_putEntry he with rfl | he
    · exact hlt
    · exact ha e he
  | case3 a m _ heq =>
    obtain ⟨ha, hm⟩ := pairwise_cons.1 h
    exact pairwise_cons.2 ⟨fun e he => heq ▸ ha e he, hm⟩
  | case4 a m hlt heq =>
    have hgt : key < a.1 := lt_of_le_of_ne (not_lt.1 hlt) (Ne.symm heq)
    refine pairwise_cons.2 ⟨forall_mem_cons.2 ⟨hgt, fun e he => ?_⟩, h⟩
    exact hgt.trans ((pairwise_cons.1 h).1 e he)

theorem findEntry_cons (e : κ × ρ) (m : List (κ × ρ)) (key : κ) :
    findEntry key (e :: m) = if e.1 = key then some e.2 else findEntry key m := by
  unfold findEntry
  by_cases he : e.1 = key
  · simp [he]
  · simp [he]

theorem findEntry_putEntry (key key' : κ) (record : ρ) (m : List (κ × ρ)) :
    findEntry key' (putEntry key record m) = if key = key' then some record else findEntry key' m := by
  fun_induction putEntry key record m with
  | case1 => exact findEntry_cons (key, record) [] key'
  | case2 e m hlt ih =>
    rw [findEntry_cons, ih, findEntry_cons]
    by_cases hkey : key = key'
    · rw [if_neg (fun heq => ne_of_lt hlt (heq.trans hkey.symm)), if_pos hkey, if_pos hkey]
    · rw [if_neg hkey, if_neg hkey]
  | case3 e m _ heq =>
    rw [findEntry_cons, findEntry_cons, heq]
    by_cases hkey : key = key'
    · rw [if_pos hkey, if_pos hkey]
    · rw [if_neg hkey, if_neg hkey, if_neg hkey]
  | case4 e m => rw [findEntry_cons]

theorem dropEntry_append (h1 : ∀ e ∈ m1, e.1 < key) (h2 : ∀ e ∈ m2, key < e.1) :
    dropEntry key (m1 ++ m ++ m2) = m1 ++ dropEntry key m ++ m2 := by
  have hkeep : ∀ {l : List (κ × ρ)}, (∀ e ∈ l, e.1 ≠ key) → l.filter (fun e => e.1 ≠ key) = l := by
    intro l hl
    rw [filter_eq_self]
    intro e he
    simpa using hl e he
  simp only [dropEntry, filter_append, hkeep (fun e he => ne_of_lt (h1 e he)),
    hkeep (fun e he => ne_of_gt (h2 e he))]

/-! Ranges and chains. -/

def Above (lo : Option κ) (k : κ) : Prop := ∀ l ∈ lo, l ≤ k

def Below (hi : Option κ) (k : κ) : Prop := ∀ h ∈ hi, k < h

/-- The keys a subtree is responsible for. -/
def Within (lo hi : Option κ) (k : κ) : Prop := Above lo k ∧ Below hi k

/-- Where a separator may stand. -/
def Between (lo hi : Option κ) (s : κ) : Prop := Above lo s ∧ ∀ h ∈ hi, s ≤ h

theorem Within.between {lo hi : Option κ} {k : κ} (h : Within lo hi k) : Between lo hi k :=
  ⟨h.1, fun b hb => le_of_lt (h.2 b hb)⟩

/-- What a subtree is: a range, its root, its pages, its entries. -/
abbrev SubPred (κ ρ : Type) := Option κ → Option κ → PageNo → List PageNo → List (κ × ρ) → Prop

/-- Subtrees side by side, with a separator between each two. -/
inductive Chain (P : SubPred κ ρ) : Option κ → Option κ → List κ → List PageNo → List PageNo → List (κ × ρ) → Prop
  | one {lo hi : Option κ} {page : PageNo} {pages : List PageNo} {entries : List (κ × ρ)} :
      P lo hi page pages entries → Chain P lo hi [] [page] pages entries
  | cons {lo hi : Option κ} {s : κ} {keys : List κ} {page : PageNo} {children pages pages' : List PageNo}
      {entries entries' : List (κ × ρ)} :
      P lo (some s) page pages entries → Between lo hi s → Chain P (some s) hi keys children pages' entries' →
      Chain P lo hi (s :: keys) (page :: children) (pages ++ pages') (entries ++ entries')

/-- A subtree of depth `d`. -/
def Sub (nodes : PageNo → Node κ ρ) : Nat → SubPred κ ρ
  | 0, lo, hi, page, pages, entries =>
    pages = [page] ∧ nodes page = .leaf entries ∧ Sorted entries ∧ ∀ e ∈ entries, Within lo hi e.1
  | d + 1, lo, hi, page, pages, entries =>
    ∃ keys children below, nodes page = .internal keys children ∧ pages = page :: below ∧
      Chain (Sub nodes d) lo hi keys children below entries

variable {P P' : SubPred κ ρ} {lo hi : Option κ} {keys : List κ} {children pages : List PageNo} {entries : List (κ × ρ)}

theorem Chain.imp (h : Chain P lo hi keys children pages entries)
    (himp : ∀ lo hi page qs m, (∀ q ∈ qs, q ∈ pages) → P lo hi page qs m → P' lo hi page qs m) :
    Chain P' lo hi keys children pages entries := by
  induction h with
  | one hp => exact .one (himp _ _ _ _ _ (fun q hq => hq) hp)
  | cons hp hs _ ih =>
    refine .cons (himp _ _ _ _ _ (fun q hq => mem_append_left _ hq) hp) hs (ih ?_)
    exact fun lo hi page qs m hqs => himp lo hi page qs m (fun q hq => mem_append_right _ (hqs q hq))

/-- Sorted, and inside the range. -/
def Fine (lo hi : Option κ) (entries : List (κ × ρ)) : Prop := Sorted entries ∧ ∀ e ∈ entries, Within lo hi e.1

theorem Chain.fine (hP : ∀ lo hi page qs m, P lo hi page qs m → Fine lo hi m)
    (h : Chain P lo hi keys children pages entries) : Fine lo hi entries := by
  induction h with
  | one hp => exact hP _ _ _ _ _ hp
  | cons hp hs _ ih =>
    obtain ⟨hsorted, hin⟩ := hP _ _ _ _ _ hp
    obtain ⟨hsorted', hin'⟩ := ih
    refine ⟨pairwise_append.2 ⟨hsorted, hsorted', ?_⟩, ?_⟩
    · intro a ha b hb
      exact lt_of_lt_of_le ((hin a ha).2 _ rfl) ((hin' b hb).1 _ rfl)
    · intro e he
      rcases mem_append.1 he with he | he
      · exact ⟨(hin e he).1, fun b hb => lt_of_lt_of_le ((hin e he).2 _ rfl) (hs.2 b hb)⟩
      · exact ⟨fun l hl => (hs.1 l hl).trans ((hin' e he).1 _ rfl), (hin' e he).2⟩

theorem Chain.append {s : κ} {keys' : List κ} {children' pages' : List PageNo} {entries' : List (κ × ρ)}
    (h : Chain P lo (some s) keys children pages entries) (hs : Between lo hi s)
    (h' : Chain P (some s) hi keys' children' pages' entries') :
    Chain P lo hi (keys ++ s :: keys') (children ++ children') (pages ++ pages') (entries ++ entries') := by
  generalize hstop : some s = stop at h
  induction h with
  | one hp =>
    subst hstop
    exact .cons hp hs h'
  | cons hp hb _ ih =>
    subst hstop
    have hb' := hb.2 s rfl
    rw [append_assoc, append_assoc]
    refine .cons hp ⟨hb.1, fun b hbh => hb'.trans (hs.2 b hbh)⟩ (ih ⟨?_, hs.2⟩ rfl)
    intro l hl
    cases hl
    exact hb'

theorem Chain.split {left right : List κ} {s : κ} (h : Chain P lo hi (left ++ s :: right) children pages entries) :
    ∃ cs cs' ps ps' m m', children = cs ++ cs' ∧ cs.length = left.length + 1 ∧ pages = ps ++ ps' ∧ entries = m ++ m' ∧
      Chain P lo (some s) left cs ps m ∧ Between lo hi s ∧ Chain P (some s) hi right cs' ps' m' := by
  induction left generalizing lo children pages entries with
  | nil =>
    cases h with
    | cons hp hs hrest => exact ⟨[_], _, _, _, _, _, rfl, rfl, rfl, rfl, .one hp, hs, hrest⟩
  | cons a left ih =>
    cases h with
    | cons hp hs hrest =>
      obtain ⟨cs, cs', ps, ps', m, m', rfl, hlen, rfl, rfl, hl, hsep, hr⟩ := ih hrest
      refine ⟨_ :: cs, cs', _ ++ ps, ps', _ ++ m, m', rfl, by simp [hlen], by simp, by simp, .cons hp ?_ hl, ?_, hr⟩
      · refine ⟨hs.1, fun b hb => ?_⟩
        cases hb
        exact hsep.1 a rfl
      · exact ⟨fun l hl' => (hs.1 l hl').trans (hsep.1 a rfl), hsep.2⟩

/-- A chain around the child a key goes to. -/
structure Hole (κ ρ : Type) where
  keys₁ : List κ
  keys₂ : List κ
  children₁ : List PageNo
  child : PageNo
  children₂ : List PageNo
  pages₁ : List PageNo
  pages : List PageNo
  pages₂ : List PageNo
  entries₁ : List (κ × ρ)
  entries : List (κ × ρ)
  entries₂ : List (κ × ρ)
  lo : Option κ
  hi : Option κ

/-- The chain is what is around the hole and what is in it, and whatever chain
    over the same range is put in its place, the whole is a chain again. -/
structure Routes (P : SubPred κ ρ) (lo hi : Option κ) (key : κ) (keys : List κ) (children pages : List PageNo)
    (entries : List (κ × ρ)) (o : Hole κ ρ) : Prop where
  keys : keys = o.keys₁ ++ o.keys₂
  children : children = o.children₁ ++ o.child :: o.children₂
  pages : pages = o.pages₁ ++ o.pages ++ o.pages₂
  entries : entries = o.entries₁ ++ o.entries ++ o.entries₂
  index : o.keys₁.length = childIndex (o.keys₁ ++ o.keys₂) key
  length : o.children₁.length = o.keys₁.length
  sub : P o.lo o.hi o.child o.pages o.entries
  within : Within o.lo o.hi key
  before : ∀ e ∈ o.entries₁, e.1 < key
  behind : ∀ e ∈ o.entries₂, key < e.1
  fill : ∀ {P' : SubPred κ ρ} {ts : List κ} {cs ps : List PageNo} {m : List (κ × ρ)},
    (∀ lo hi page qs m, (∀ q ∈ qs, q ∈ o.pages₁ ++ o.pages₂) → P lo hi page qs m → P' lo hi page qs m) →
    Chain P' o.lo o.hi ts cs ps m →
    Chain P' lo hi (o.keys₁ ++ ts ++ o.keys₂) (o.children₁ ++ cs ++ o.children₂) (o.pages₁ ++ ps ++ o.pages₂)
      (o.entries₁ ++ m ++ o.entries₂)

theorem Chain.route (hP : ∀ lo hi page qs m, P lo hi page qs m → Fine lo hi m) {key : κ}
    (h : Chain P lo hi keys children pages entries) (hkey : Within lo hi key) :
    ∃ o, Routes P lo hi key keys children pages entries o := by
  induction h with
  | @one lo hi page pages entries hp =>
    refine ⟨⟨[], [], [], page, [], [], pages, [], [], entries, [], lo, hi⟩, ?_⟩
    refine ⟨rfl, rfl, by simp, by simp, rfl, rfl, hp, hkey, by simp, by simp, ?_⟩
    intro P' ts cs ps m _ hfill
    simpa using hfill
  | @cons lo hi s keys page children pages pages' entries entries' hp hs hrest ih =>
    by_cases hsk : s ≤ key
    · have hwithin : Within (some s) hi key := by
        refine ⟨fun l hl => ?_, hkey.2⟩
        cases hl
        exact hsk
      obtain ⟨o, ho⟩ := ih hwithin
      refine ⟨{ o with
        keys₁ := s :: o.keys₁
        children₁ := page :: o.children₁
        pages₁ := pages ++ o.pages₁
        entries₁ := entries ++ o.entries₁ }, ?_⟩
      refine ⟨by simp [ho.keys], by simp [ho.children], by simp [ho.pages], by simp [ho.entries], ?_, by simp [ho.length],
        ho.sub, ho.within, ?_, ho.behind, ?_⟩
      · simp only [childIndex, cons_append, takeWhile_cons, hsk, decide_true, if_true, length_cons]
        exact congrArg (· + 1) ho.index
      · intro e he
        rcases mem_append.1 he with he | he
        · exact lt_of_lt_of_le (((hP _ _ _ _ _ hp).2 e he).2 s rfl) hsk
        · exact ho.before e he
      · intro P' ts cs ps m hsame hfill
        have hhead := hsame _ _ _ _ _ (fun q hq => by simp [hq]) hp
        have htail := ho.fill (fun lo hi page qs m hqs =>
          hsame lo hi page qs m (fun q hq => by
            rcases mem_append.1 (hqs q hq) with hq | hq
            · simp [hq]
            · simp [hq])) hfill
        simpa using Chain.cons hhead hs htail
    · -- the key is below the separator, so the first child is where it goes
      have hks : key < s := not_le.1 hsk
      have hwithin : Within lo (some s) key := by
        refine ⟨hkey.1, fun b hb => ?_⟩
        cases hb
        exact hks
      refine ⟨⟨[], s :: keys, [], page, children, [], pages, pages', [], entries, entries', lo, some s⟩, ?_⟩
      refine ⟨rfl, rfl, by simp, by simp, ?_, rfl, hp, hwithin, by simp, ?_, ?_⟩
      · simp [childIndex, hsk]
      · intro e he
        exact lt_of_lt_of_le hks (((hrest.fine hP).2 e he).1 s rfl)
      · intro P' ts cs ps m hsame hfill
        have htail : Chain P' (some s) hi keys children pages' entries' :=
          hrest.imp (fun lo hi page qs m hqs => hsame lo hi page qs m (by simpa using hqs))
        simpa using hfill.append hs htail

/-! Subtrees. -/

variable {nodes nodes' : PageNo → Node κ ρ} {d : Nat} {page : PageNo}

theorem Sub.fine (h : Sub nodes d lo hi page pages entries) : Fine lo hi entries := by
  induction d generalizing lo hi page pages entries with
  | zero => exact h.2.2
  | succ d ih =>
    obtain ⟨keys, children, below, -, -, hchain⟩ := h
    exact hchain.fine (fun _ _ _ _ _ hsub => ih hsub)

theorem Sub.congr (h : Sub nodes d lo hi page pages entries) (hsame : ∀ q ∈ pages, nodes' q = nodes q) :
    Sub nodes' d lo hi page pages entries := by
  induction d generalizing lo hi page pages entries with
  | zero =>
    obtain ⟨rfl, hnode, hfine⟩ := h
    exact ⟨rfl, by rw [hsame page (by simp), hnode], hfine⟩
  | succ d ih =>
    obtain ⟨keys, children, below, hnode, rfl, hchain⟩ := h
    refine ⟨keys, children, below, by rw [hsame page (by simp), hnode], rfl, hchain.imp ?_⟩
    exact fun _ _ _ qs _ hqs hsub => ih hsub (fun q hq => hsame q (mem_cons_of_mem page (hqs q hq)))

theorem Chain.congr {keys : List κ} {children : List PageNo}
    (h : Chain (Sub nodes d) lo hi keys children pages entries) (hsame : ∀ q ∈ pages, nodes' q = nodes q) :
    Chain (Sub nodes' d) lo hi keys children pages entries :=
  h.imp (fun _ _ _ _ _ hqs hsub => hsub.congr (fun q hq => hsame q (hqs q hq)))

/-- A subtree has at least a page for each level. -/
theorem Sub.depth_lt (h : Sub nodes d lo hi page pages entries) : d < pages.length := by
  induction d generalizing lo hi page pages entries with
  | zero =>
    obtain ⟨rfl, -⟩ := h
    exact Nat.zero_lt_one
  | succ d ih =>
    obtain ⟨keys, children, below, -, rfl, hchain⟩ := h
    have hbelow : d < below.length := by
      cases hchain with
      | one hsub => exact ih hsub
      | cons hsub _ _ =>
        have := ih hsub
        rw [length_append]
        omega
    simpa using hbelow

theorem Sub.mem_iff (h : Sub nodes d lo hi page pages entries) :
    e ∈ entries ↔ ∃ q ∈ pages, ∃ es, nodes q = .leaf es ∧ e ∈ es := by
  induction d generalizing lo hi page pages entries with
  | zero =>
    obtain ⟨rfl, hnode, -⟩ := h
    simp [hnode]
  | succ d ih =>
    obtain ⟨keys, children, below, hnode, rfl, hchain⟩ := h
    have hbelow : e ∈ entries ↔ ∃ q ∈ below, ∃ es, nodes q = .leaf es ∧ e ∈ es := by
      clear hnode
      induction hchain with
      | one hsub => exact ih hsub
      | cons hsub _ _ ihc => simp only [mem_append, ih hsub, ihc, or_and_right, exists_or]
    rw [hbelow]
    simp [hnode]

/-! Searches. -/

namespace Tree

variable {t : Tree κ ρ} {fuel : Nat}

theorem child_of_routes {o : Hole κ ρ} (ho : Routes P lo hi key keys children pages entries o) :
    children[childIndex keys key]? = some o.child := by
  rw [ho.children, ho.keys, ← ho.index, ← ho.length]
  simp

theorem getFrom_sub (h : Sub t.node d lo hi page pages entries) (hkey : Within lo hi key) (hfuel : d < fuel) :
    t.getFrom key fuel page = .ok (findEntry key entries) := by
  induction d generalizing lo hi page pages entries fuel with
  | zero =>
    obtain ⟨fuel, rfl⟩ := Nat.exists_eq_add_one.2 hfuel
    obtain ⟨-, hnode, -⟩ := h
    simp only [getFrom, hnode]
  | succ d ih =>
    obtain ⟨fuel, rfl⟩ := Nat.exists_eq_add_one.2 (by omega : 0 < fuel)
    obtain ⟨keys, children, below, hnode, -, hchain⟩ := h
    obtain ⟨o, ho⟩ := hchain.route (fun _ _ _ _ _ => Sub.fine) hkey
    simp only [getFrom, hnode, child_of_routes ho]
    rw [ih ho.sub ho.within (by omega), ho.entries, findEntry_append_of_lt ho.before ho.behind]

theorem mapM_of_chain {ε : Type} {f : PageNo → Except ε (List (κ × ρ))}
    (hf : ∀ lo hi page qs m, P lo hi page qs m → f page = .ok m) (h : Chain P lo hi keys children pages entries) :
    (children.mapM f).map List.flatten = .ok entries := by
  induction h with
  | one hp => simp [hf _ _ _ _ _ hp, Except.map, pure, Except.pure, bind, Except.bind]
  | cons hp _ _ ih =>
    obtain ⟨mss, hmss, rfl⟩ := map_ok.1 ih
    simp [hf _ _ _ _ _ hp, hmss, Except.map, pure, Except.pure, bind, Except.bind]

theorem collect_sub (h : Sub t.node d lo hi page pages entries) (hfuel : d < fuel) :
    t.collect fuel page = .ok entries := by
  induction d generalizing lo hi page pages entries fuel with
  | zero =>
    obtain ⟨fuel, rfl⟩ := Nat.exists_eq_add_one.2 hfuel
    obtain ⟨-, hnode, -⟩ := h
    simp only [collect, hnode]
  | succ d ih =>
    obtain ⟨fuel, rfl⟩ := Nat.exists_eq_add_one.2 (by omega : 0 < fuel)
    obtain ⟨keys, children, below, hnode, -, hchain⟩ := h
    simp only [collect, hnode]
    exact mapM_of_chain (fun _ _ _ _ _ hsub => ih hsub (by omega)) hchain

theorem node_congr {t t' : Tree κ ρ} (hstore : t'.store = t.store) {q : PageNo} (hq : t'.dirty[q]? = t.dirty[q]?) :
    t'.node q = t.node q := by
  rw [node, node, hstore, hq]

theorem node_of_dirty {t : Tree κ ρ} {q : PageNo} {n : Node κ ρ} (h : t.dirty[q]? = some n) : t.node q = n := by
  rw [node, h]
  rfl

end Tree

/-! What a write to a subtree does to the tree around it. -/

/-- The pages of a subtree before and after a write to it: those it had stay,
    those it gained are new, and no other page is written. -/
structure Grown (t t' : Tree κ ρ) (pages pages' : List PageNo) : Prop where
  nodup : pages'.Nodup
  fresh : ∀ q ∈ pages', q ∈ pages ∨ t.info.nextFree ≤ q ∧ q < t'.info.nextFree
  keeps : ∀ q ∈ pages, q ∈ pages'
  frame : ∀ q ∉ pages', t'.dirty[q]? = t.dirty[q]?
  nextFree : t.info.nextFree ≤ t'.info.nextFree
  root : t'.info.root = t.info.root
  store : t'.store = t.store
  info : t'.infoDirty = false → t'.info = t.info ∧ t.infoDirty = false

section Grown

variable {t t' : Tree κ ρ} {pages' : List PageNo}

theorem Grown.refl (t : Tree κ ρ) (h : pages.Nodup) : Grown t t pages pages :=
  ⟨h, fun _ hq => .inl hq, fun _ hq => hq, fun _ _ => rfl, le_rfl, rfl, rfl, fun h => ⟨rfl, h⟩⟩

variable {q : PageNo}

section

variable (h : Grown t t' pages pages')
include h

theorem Grown.node (hq : q ∉ pages') : t'.node q = t.node q :=
  node_congr h.store (h.frame q hq)

theorem Grown.not_mem (hq : q ∉ pages) (hold : q < t.info.nextFree) : q ∉ pages' := by
  intro hmem
  rcases h.fresh q hmem with hmem | hmem
  · exact hq hmem
  · exact absurd hold (not_lt.2 hmem.1)

theorem Grown.around (before behind : List PageNo)
    (hnodup : (before ++ pages ++ behind).Nodup) (hold : ∀ q ∈ before ++ behind, q < t.info.nextFree) :
    Grown t t' (before ++ pages ++ behind) (before ++ pages' ++ behind) where
  nodup := by
    rw [nodup_append] at hnodup
    obtain ⟨hfront, hbehind, hdisj⟩ := hnodup
    obtain ⟨hbefore, -, hdisj'⟩ := nodup_append.1 hfront
    refine nodup_append.2 ⟨nodup_append.2 ⟨hbefore, h.nodup, ?_⟩, hbehind, ?_⟩
    · rintro a ha b hb rfl
      exact h.not_mem (fun hmem => hdisj' a ha a hmem rfl) (hold a (mem_append_left _ ha)) hb
    · rintro a ha b hb rfl
      rcases mem_append.1 ha with ha | ha
      · exact hdisj a (mem_append_left _ ha) a hb rfl
      · exact h.not_mem (fun hmem => hdisj a (mem_append_right _ hmem) a hb rfl)
          (hold a (mem_append_right _ hb)) ha
  fresh := by
    intro q hq
    simp only [mem_append] at hq ⊢
    rcases hq with (hq | hq) | hq
    · exact .inl (.inl (.inl hq))
    · exact (h.fresh q hq).imp_left (fun hmem => .inl (.inr hmem))
    · exact .inl (.inr hq)
  keeps := by
    intro q hq
    simp only [mem_append] at hq ⊢
    exact hq.imp_left (Or.imp_right (h.keeps q))
  frame q hq := h.frame q (fun hmem => hq (by simp [hmem]))
  nextFree := h.nextFree
  root := h.root
  store := h.store
  info := h.info

end

variable {o : Hole κ ρ}

theorem Routes.mem {P : SubPred κ ρ} (ho : Routes P lo hi key keys children pages entries o) (hq : q ∈ o.pages) :
    q ∈ pages := by
  rw [ho.pages]
  simp [hq]

theorem Routes.nodup {P : SubPred κ ρ} (ho : Routes P lo hi key keys children pages entries o) (h : pages.Nodup) :
    o.pages.Nodup := by
  rw [ho.pages] at h
  exact (nodup_append.1 (nodup_append.1 h).1).2.1

/-- After a write to the child a key goes to, its siblings are what they were. -/
theorem Routes.refill (ho : Routes (Sub t.node d) lo hi key keys children pages entries o) (hnodup : pages.Nodup)
    (hold : ∀ q ∈ pages, q < t.info.nextFree) {ts : List κ} {cs ps : List PageNo} {m : List (κ × ρ)}
    (hgrown : Grown t t' o.pages ps) (hchain : Chain (Sub t'.node d) o.lo o.hi ts cs ps m) :
    Chain (Sub t'.node d) lo hi (o.keys₁ ++ ts ++ o.keys₂) (o.children₁ ++ cs ++ o.children₂)
        (o.pages₁ ++ ps ++ o.pages₂) (o.entries₁ ++ m ++ o.entries₂) ∧
      Grown t t' pages (o.pages₁ ++ ps ++ o.pages₂) := by
  have hpages := ho.pages
  subst hpages
  have hout : ∀ q ∈ o.pages₁ ++ o.pages₂, q ∉ o.pages := by
    intro q hq hmem
    obtain ⟨hfront, -, hdisj⟩ := nodup_append.1 hnodup
    obtain ⟨-, -, hdisj'⟩ := nodup_append.1 hfront
    rcases mem_append.1 hq with hq | hq
    · exact hdisj' q hq q hmem rfl
    · exact hdisj q (mem_append_right _ hmem) q hq rfl
  have hold' : ∀ q ∈ o.pages₁ ++ o.pages₂, q < t.info.nextFree := by
    intro q hq
    apply hold
    rcases mem_append.1 hq with hq | hq
    · simp [hq]
    · simp [hq]
  refine ⟨ho.fill ?_ hchain, hgrown.around _ _ hnodup hold'⟩
  intro lo hi page qs m hqs hsub
  exact hsub.congr (fun q hq => hgrown.node (hgrown.not_mem (hout q (hqs q hq)) (hold' q (hqs q hq))))

end Grown

/-! Insertion. -/

namespace Tree

variable {Z : Sizing κ ρ} {t t' : Tree κ ρ} {fuel : Nat}

def newKeys (res : Option (κ × PageNo)) : List κ := res.toList.map Prod.fst

def newPages (res : Option (κ × PageNo)) : List PageNo := res.toList.map Prod.snd

variable {below' below : List PageNo} {t₁ : Tree κ ρ}

section

variable (h : Grown (t.take page) t₁ below below') (hpage : page ∉ below)
include h hpage

theorem grown_rewrite (hold : page < t.info.nextFree) (hdirty : ∀ q, page ≠ q → t'.dirty[q]? = t₁.dirty[q]?)
    (hstore : t'.store = t₁.store) (hinfo : t'.info = t₁.info) (hflag : t'.infoDirty = t₁.infoDirty) :
    Grown t t' (page :: below) (page :: below') where
  nodup := nodup_cons.2 ⟨h.not_mem hpage hold, h.nodup⟩
  fresh q hq := by
    rcases mem_cons.1 hq with rfl | hq
    · exact .inl (by simp)
    · rw [hinfo]
      exact (h.fresh q hq).imp_left (mem_cons_of_mem page)
  keeps := forall_mem_cons.2 ⟨by simp, fun q hq => mem_cons_of_mem page (h.keeps q hq)⟩
  frame q hq := by
    rw [mem_cons, not_or] at hq
    rw [hdirty q (Ne.symm hq.1), h.frame q hq.2, take, getElem?_erase, if_neg (Ne.symm hq.1)]
  nextFree := hinfo ▸ h.nextFree
  root := hinfo ▸ h.root
  store := hstore.trans h.store
  info := by
    rw [hinfo, hflag]
    exact h.info

theorem grown_split {pages' : List PageNo}
    (hold : ∀ q ∈ page :: below, q < t.info.nextFree)
    (hdirty : ∀ q, page ≠ q → t₁.info.nextFree ≠ q → t'.dirty[q]? = t₁.dirty[q]?) (hstore : t'.store = t₁.store)
    (hnext : t'.info.nextFree = t₁.info.nextFree + 1) (hroot : t'.info.root = t₁.info.root)
    (hflag : t'.infoDirty = true) (hpages' : List.Perm pages' (t₁.info.nextFree :: page :: below')) :
    Grown t t' (page :: below) pages' := by
  have hle : t.info.nextFree ≤ t₁.info.nextFree := h.nextFree
  have hlt : ∀ q ∈ page :: below', q < t₁.info.nextFree := by
    intro q hq
    rcases mem_cons.1 hq with rfl | hq
    · exact (hold q (by simp)).trans_le hle
    · rcases h.fresh q hq with hq | hq
      · exact (hold q (mem_cons_of_mem page hq)).trans_le hle
      · exact hq.2
  refine ⟨?_, ?_, ?_, ?_, ?_, hroot.trans h.root, hstore.trans h.store, fun hclean => absurd hclean (by simp [hflag])⟩
  · rw [hpages'.nodup_iff, nodup_cons, nodup_cons]
    exact ⟨fun hmem => lt_irrefl _ (hlt _ hmem), h.not_mem hpage (hold page (by simp)), h.nodup⟩
  · intro q hq
    rw [hnext]
    rcases mem_cons.1 (hpages'.mem_iff.1 hq) with rfl | hq
    · exact .inr ⟨hle, Nat.lt_succ_self _⟩
    · rcases mem_cons.1 hq with rfl | hq
      · exact .inl (by simp)
      · refine (h.fresh q hq).imp (mem_cons_of_mem page) (fun hq => ⟨hq.1, Nat.lt_succ_of_lt hq.2⟩)
  · intro q hq
    rw [hpages'.mem_iff]
    rcases mem_cons.1 hq with rfl | hq
    · simp
    · simp [h.keeps q hq]
  · intro q hq
    rw [hpages'.mem_iff, mem_cons, mem_cons, not_or, not_or] at hq
    obtain ⟨hright, hleft, hbelow⟩ := hq
    rw [hdirty q (Ne.symm hleft) (Ne.symm hright), h.frame q hbelow, take, getElem?_erase,
      if_neg (Ne.symm hleft)]
  · rw [hnext]
    exact hle.trans (Nat.le_succ _)

end

def Inserts (Z : Sizing κ ρ) (key : κ) (record : ρ) (t : Tree κ ρ) (d fuel : Nat) (lo hi : Option κ) (page : PageNo)
    (pages : List PageNo) (entries : List (κ × ρ)) : Prop :=
  ∃ res t' pages', insertInto Z key record fuel page t = .ok (res, t') ∧
    Chain (Sub t'.node d) lo hi (newKeys res) (page :: newPages res) pages' (putEntry key record entries) ∧
    Grown t t' pages pages' ∧ t'.info.count + entries.length = t.info.count + (putEntry key record entries).length

/-! The stored count. -/

theorem length_putEntry (key : κ) (record : ρ) (m : List (κ × ρ)) (h : Sorted m) :
    (putEntry key record m).length = if (findEntry key m).isSome then m.length else m.length + 1 := by
  induction m with
  | nil => rfl
  | cons e m ih =>
    obtain ⟨he, hm⟩ := pairwise_cons.1 h
    unfold putEntry
    rw [findEntry_cons]
    by_cases hlt : e.1 < key
    · rw [if_pos hlt, if_neg (ne_of_lt hlt), length_cons, ih hm, length_cons]
      by_cases hsome : (findEntry key m).isSome = true
      · rw [if_pos hsome, if_pos hsome]
      · rw [if_neg hsome, if_neg hsome]
    · rw [if_neg hlt]
      by_cases heq : e.1 = key
      · rw [if_pos heq, if_pos heq]
        rfl
      · rw [if_neg heq, if_neg heq]
        have hgt : key < e.1 := lt_of_le_of_ne (not_lt.1 hlt) (Ne.symm heq)
        have hnone : findEntry key m = none :=
          findEntry_eq_none.2 (fun x hx => ne_of_gt (hgt.trans (he x hx)))
        rw [hnone]
        rfl

theorem length_dropEntry {m : List (κ × ρ)} (h : Sorted m) (key : κ) :
    (dropEntry key m).length = if (findEntry key m).isSome then m.length - 1 else m.length := by
  induction m with
  | nil => rfl
  | cons e m ih =>
    obtain ⟨he, hm⟩ := pairwise_cons.1 h
    rw [findEntry_cons, dropEntry, filter_cons]
    by_cases heq : e.1 = key
    · have hrest : m.filter (fun x => x.1 ≠ key) = m := by
        rw [filter_eq_self]
        intro x hx
        simpa [heq] using (ne_of_gt (he x hx))
      rw [if_neg (by simpa using heq), if_pos heq, hrest]
      rfl
    · have hlen := ih hm
      rw [dropEntry] at hlen
      simp only [heq, ne_eq, not_false_eq_true, decide_true, if_true, if_false, length_cons, hlen]
      by_cases hsome : (findEntry key m).isSome = true
      · obtain ⟨r, hr⟩ := Option.isSome_iff_exists.1 hsome
        have hpos : 0 < m.length := length_pos_of_mem ((findEntry_eq_some hm).1 hr)
        simp only [hsome, if_true]
        omega
      · simp only [hsome, if_false, Bool.false_eq_true]

theorem putInLeaf_snd (Z : Sizing κ ρ) (t : Tree κ ρ) (page : PageNo) (key : κ) (record : ρ) (h : Sorted entries) :
    ∃ est t₁, t.putInLeaf Z page key record entries = (est, t₁) ∧ Grown t t₁ [] [] ∧
      t₁.info.count + entries.length = t.info.count + (putEntry key record entries).length := by
  unfold putInLeaf
  rw [length_putEntry key record entries h]
  cases findEntry key entries with
  | some old => exact ⟨_, t, rfl, Grown.refl t nodup_nil, rfl⟩
  | none =>
    refine ⟨_, _, rfl, ⟨nodup_nil, by simp, by simp, fun _ _ => rfl, le_rfl, rfl, rfl, fun h => absurd h (by simp)⟩, ?_⟩
    exact Nat.add_right_comm _ 1 _

theorem fine_putEntry (h : Fine lo hi entries) (hkey : Within lo hi key) : Fine lo hi (putEntry key record entries) := by
  refine ⟨sorted_putEntry h.1 key record, ?_⟩
  intro e he
  rcases mem_putEntry he with rfl | he
  · exact hkey
  · exact h.2 e he

theorem putEntry_ne_nil : putEntry key record entries ≠ [] := by
  fun_cases putEntry key record entries <;> simp

theorem fine_split {left right : List (κ × ρ)} {first : κ × ρ} (h : Fine lo hi (left ++ first :: right)) :
    Fine lo (some first.1) left ∧ Between lo hi first.1 ∧ Fine (some first.1) hi (first :: right) := by
  obtain ⟨hsorted, hin⟩ := h
  obtain ⟨hleft, hright, hcross⟩ := pairwise_append.1 hsorted
  refine ⟨⟨hleft, ?_⟩, (hin first (by simp)).between, hright, ?_⟩
  · intro e he
    refine ⟨(hin e (mem_append_left _ he)).1, fun b hb => ?_⟩
    cases hb
    exact hcross e he first (by simp)
  · intro e he
    refine ⟨fun l hl => ?_, (hin e (mem_append_right _ he)).2⟩
    cases hl
    rcases mem_cons.1 he with rfl | he
    · exact le_rfl
    · exact le_of_lt ((pairwise_cons.1 hright).1 e he)

theorem inserts_leaf (hnode : t.node page = .leaf entries) (hfine : Fine lo hi entries) (hkey : Within lo hi key)
    (hold : page < t.info.nextFree) : Inserts Z key record t 0 (fuel + 1) lo hi page [page] entries := by
  obtain ⟨est, t₁, hput, hgrown, hcount⟩ := putInLeaf_snd Z (t.take page) page key record hfine.1
  have hfine' : Fine lo hi (putEntry key record entries) := fine_putEntry hfine hkey
  unfold Inserts
  rw [insertInto]
  simp only [hnode, hput]
  obtain ⟨full, est', hover⟩ : ∃ full est', overflowed Z (.leaf (putEntry key record entries)) est = (full, est') :=
    ⟨_, _, rfl⟩
  cases full with
  | false =>
    simp only [hover]
    refine ⟨none, _, [page], rfl, .one ⟨rfl, node_of_dirty ?_, hfine'⟩, ?_, hcount⟩
    · rw [setSized, SortedMap.getElem?_insert, if_pos rfl]
    · refine grown_rewrite hgrown (by simp) hold (fun q hq => ?_) rfl rfl rfl
      rw [setSized, SortedMap.getElem?_insert, if_neg hq]
  | true =>
    simp only [hover, splitLeaf]
    obtain ⟨mid, hmid⟩ : ∃ mid, mid = (putEntry key record entries).length / 2 := ⟨_, rfl⟩
    rw [← hmid]
    have hcut := List.take_append_drop mid (putEntry key record entries)
    cases hdrop : (putEntry key record entries).drop mid with
    | nil =>
      have hpos : 0 < (putEntry key record entries).length := List.length_pos_of_ne_nil putEntry_ne_nil
      have := List.drop_eq_nil_iff.1 hdrop
      omega
    | cons first rest =>
      rw [hdrop] at hcut
      obtain ⟨hleft, hsep, hright⟩ := fine_split (hcut ▸ hfine')
      have hne : t₁.info.nextFree ≠ page := ne_of_gt (hold.trans_le hgrown.nextFree)
      refine ⟨some (first.1, t₁.info.nextFree), _, [page] ++ [t₁.info.nextFree], rfl, ?_, ?_, hcount⟩
      · rw [← hcut]
        refine .cons ⟨rfl, node_of_dirty ?_, hleft⟩ hsep (.one ⟨rfl, node_of_dirty ?_, hright⟩)
        · simp only [setSized, alloc, SortedMap.getElem?_insert, if_neg hne, if_true, hcut]
        · simp only [setSized, alloc, SortedMap.getElem?_insert, if_true]
      · refine grown_split hgrown (by simp) (by simpa using hold) (fun q hq hq' => ?_) rfl rfl rfl rfl
          (List.Perm.swap _ _ _)
        simp only [setSized, alloc, SortedMap.getElem?_insert, if_neg hq, if_neg hq']

theorem insertIdx_append {α : Type} (l l' : List α) (a : α) : (l ++ l').insertIdx l.length a = l ++ [a] ++ l' := by
  induction l with
  | nil => rfl
  | cons b l ih => simp [ih]

theorem chain_of_dirty (h : Chain (Sub t.node d) lo hi keys children pages entries) (hstore : t'.store = t.store)
    (hdirty : ∀ q ∈ pages, t'.dirty[q]? = t.dirty[q]?) : Chain (Sub t'.node d) lo hi keys children pages entries :=
  h.congr (fun q hq => node_congr hstore (hdirty q hq))

/-- A node that gained a child is written back whole or in two halves. -/
theorem inserts_top (hgrown : Grown (t.take page) t₁ below below')
    (hchain : Chain (Sub t₁.node d) lo hi keys children below' entries) (hpage : page ∉ below)
    (hold : ∀ q ∈ page :: below, q < t.info.nextFree) (hpos : 0 < keys.length) : ∃ res t' pages',
      (match overflowed Z (.internal keys children) (Z.nodeLen (.internal keys children)) with
        | (false, est) => pure (none, t₁.setSized page (.internal keys children) est)
        | (true, _) => t₁.splitInternal page keys children) = Except.ok (res, t') ∧
      Chain (Sub t'.node (d + 1)) lo hi (newKeys res) (page :: newPages res) pages' entries ∧
      Grown t t' (page :: below) pages' ∧ t'.info.count = t₁.info.count := by
  have hpage' : page ∉ below' := hgrown.not_mem hpage (hold page (by simp))
  have hne : ∀ q ∈ below', page ≠ q := fun q hq h => hpage' (h ▸ hq)
  obtain ⟨full, est, hover⟩ :
      ∃ full est, overflowed Z (.internal keys children) (Z.nodeLen (.internal keys children)) = (full, est) :=
    ⟨_, _, rfl⟩
  rw [hover]
  cases full with
  | false =>
    refine ⟨none, _, page :: below', rfl, .one ⟨keys, children, below', node_of_dirty ?_, rfl, ?_⟩, ?_, rfl⟩
    · rw [setSized, SortedMap.getElem?_insert, if_pos rfl]
    · refine chain_of_dirty hchain rfl (fun q hq => ?_)
      rw [setSized, SortedMap.getElem?_insert, if_neg (hne q hq)]
    · refine grown_rewrite hgrown hpage (hold page (by simp)) (fun q hq => ?_) rfl rfl rfl
      rw [setSized, SortedMap.getElem?_insert, if_neg hq]
  | true =>
    obtain ⟨mid, hmid⟩ : ∃ mid, mid = keys.length / 2 := ⟨_, rfl⟩
    have hlt : mid < keys.length := by omega
    simp only [splitInternal, ← hmid, List.getElem?_eq_getElem hlt]
    have hcut : keys.take mid ++ keys[mid] :: keys.drop (mid + 1) = keys := by
      rw [← List.drop_eq_getElem_cons hlt, List.take_append_drop]
    obtain ⟨cs, cs', ps, ps', m, m', rfl, hlen, rfl, rfl, hleft, hsep, hright⟩ := (hcut ▸ hchain).split
    have hlen' : cs.length = mid + 1 := by
      rw [hlen, List.length_take]
      omega
    rw [← hlen', List.take_left, List.drop_left, hlen']
    have hnew : ∀ q ∈ ps ++ ps', t₁.info.nextFree ≠ q := by
      intro q hq
      rcases hgrown.fresh q hq with hq | hq
      · exact ne_of_gt ((hold q (List.mem_cons_of_mem page hq)).trans_le hgrown.nextFree)
      · exact ne_of_gt hq.2
    have hpage1 : t₁.info.nextFree ≠ page := ne_of_gt ((hold page (by simp)).trans_le hgrown.nextFree)
    refine ⟨some (keys[mid], t₁.info.nextFree), _, (page :: ps) ++ (t₁.info.nextFree :: ps'), rfl, ?_, ?_, rfl⟩
    · refine .cons ⟨keys.take mid, cs, ps, node_of_dirty ?_, rfl, chain_of_dirty hleft rfl (fun q hq => ?_)⟩ hsep
        (.one ⟨keys.drop (mid + 1), cs', ps', node_of_dirty ?_, rfl, chain_of_dirty hright rfl (fun q hq => ?_)⟩)
      · simp only [set, alloc, SortedMap.getElem?_insert, if_neg hpage1, if_true]
      · have hq' : q ∈ ps ++ ps' := List.mem_append_left _ hq
        simp only [set, alloc, SortedMap.getElem?_insert, if_neg (hne q hq'), if_neg (hnew q hq')]
      · simp only [set, alloc, SortedMap.getElem?_insert, if_true]
      · have hq' : q ∈ ps ++ ps' := List.mem_append_right _ hq
        simp only [set, alloc, SortedMap.getElem?_insert, if_neg (hne q hq'), if_neg (hnew q hq')]
    · refine grown_split hgrown hpage hold (fun q hq hq' => ?_) rfl rfl rfl rfl ?_
      · simp only [set, alloc, SortedMap.getElem?_insert, if_neg hq, if_neg hq']
      · exact List.perm_middle

theorem inserts_internal (hnode : t.node page = .internal keys children)
    (hchain : Chain (Sub t.node d) lo hi keys children below entries) (hnodup : (page :: below).Nodup)
    (hold : ∀ q ∈ page :: below, q < t.info.nextFree) (hkey : Within lo hi key)
    (ih : ∀ (t : Tree κ ρ) (lo hi : Option κ) (child : PageNo) (pages : List PageNo) (entries : List (κ × ρ)),
      Sub t.node d lo hi child pages entries → pages.Nodup → (∀ q ∈ pages, q < t.info.nextFree) → Within lo hi key →
      Inserts Z key record t d fuel lo hi child pages entries) :
    Inserts Z key record t (d + 1) (fuel + 1) lo hi page (page :: below) entries := by
  obtain ⟨hpage, hbelow⟩ := nodup_cons.1 hnodup
  have hold' : ∀ q ∈ below, q < t.info.nextFree := fun q hq => hold q (mem_cons_of_mem page hq)
  -- below the page nothing is different once its node was taken out
  have htake : Chain (Sub (t.take page).node d) lo hi keys children below entries := by
    have hstore : (t.take page).store = t.store := rfl
    refine hchain.congr (fun q hq => node_congr hstore ?_)
    have hne : page ≠ q := fun h => hpage (h ▸ hq)
    rw [take, getElem?_erase, if_neg hne]
  obtain ⟨o, ho⟩ := htake.route (fun _ _ _ _ _ => Sub.fine) hkey
  obtain ⟨res, t₁, ps, hres, hchain1, hgrown1, hcount1⟩ :=
    ih (t.take page) o.lo o.hi o.child o.pages o.entries ho.sub (ho.nodup hbelow) (fun q hq => hold' q (ho.mem hq))
      ho.within
  obtain ⟨hwhole, hgrown⟩ := ho.refill hbelow hold' hgrown1 hchain1
  rw [← putEntry_append ho.before ho.behind, ← ho.entries] at hwhole
  have hcount : t₁.info.count + entries.length = t.info.count + (putEntry key record entries).length := by
    rw [ho.entries, putEntry_append ho.before ho.behind]
    simp only [length_append, show (t.take page).info = t.info from rfl] at hcount1 ⊢
    omega
  obtain ⟨below', hbelow'⟩ : ∃ below', below' = o.pages₁ ++ ps ++ o.pages₂ := ⟨_, rfl⟩
  rw [← hbelow'] at hwhole hgrown
  have hpage' : page ∉ below' := hgrown.not_mem hpage (hold page (by simp))
  unfold Inserts
  rw [insertInto]
  simp only [hnode, child_of_routes ho, hres, ok_bind]
  have hne : ∀ q ∈ below', page ≠ q := fun q hq h => hpage' (h ▸ hq)
  cases res with
  | none =>
    have hkeys : o.keys₁ ++ newKeys none ++ o.keys₂ = keys := by simp [newKeys, ho.keys]
    have hchildren : o.children₁ ++ (o.child :: newPages (κ := κ) none) ++ o.children₂ = children := by
      simp [newPages, ho.children]
    rw [hkeys, hchildren] at hwhole
    refine ⟨none, _, page :: below', rfl, .one ⟨keys, children, below', node_of_dirty ?_, rfl, ?_⟩, ?_, hcount⟩
    · rw [SortedMap.getElem?_insert, if_pos rfl]
    · refine chain_of_dirty hwhole rfl (fun q hq => ?_)
      rw [SortedMap.getElem?_insert, if_neg (hne q hq)]
    · refine grown_rewrite hgrown hpage (hold page (by simp)) (fun q hq => ?_) rfl rfl rfl
      rw [SortedMap.getElem?_insert, if_neg hq]
  | some new =>
    obtain ⟨separator, right⟩ := new
    have hkeys : o.keys₁ ++ newKeys (some (separator, right)) ++ o.keys₂ =
        keys.insertIdx (childIndex keys key) separator := by
      rw [ho.keys, ← ho.index, insertIdx_append]
      rfl
    have hchildren : o.children₁ ++ (o.child :: newPages (some (separator, right))) ++ o.children₂ =
        children.insertIdx (childIndex keys key + 1) right := by
      have hlen : childIndex keys key + 1 = (o.children₁ ++ [o.child]).length := by
        rw [ho.keys, ← ho.index, ← ho.length]
        simp
      rw [hlen, ho.children, append_cons o.children₁ o.child o.children₂, insertIdx_append]
      simp [newPages]
    have hpos : 0 < (keys.insertIdx (childIndex keys key) separator).length := by
      rw [← hkeys]
      simp [newKeys]
    rw [hkeys, hchildren] at hwhole
    obtain ⟨res, t', pages', htop, hchain', hgrown', hcount'⟩ := inserts_top hgrown hwhole hpage hold hpos
    exact ⟨res, t', pages', htop, hchain', hgrown', hcount'.symm ▸ hcount⟩

section

variable (h : Sub t.node d lo hi page pages entries) (hnodup : pages.Nodup) (hold : ∀ q ∈ pages, q < t.info.nextFree)
  (hkey : Within lo hi key) (hfuel : d < fuel)
include h hnodup hold hkey hfuel

/-- An insertion that may visit more nodes than the subtree is deep puts the entry
    in and keeps everything else. -/
theorem inserts : Inserts Z key record t d fuel lo hi page pages entries := by
  induction d generalizing t lo hi page pages entries fuel with
  | zero =>
    obtain ⟨fuel, rfl⟩ := Nat.exists_eq_add_one.2 hfuel
    obtain ⟨rfl, hnode, hfine⟩ := h
    exact inserts_leaf hnode hfine hkey (hold page (by simp))
  | succ d ih =>
    obtain ⟨fuel, rfl⟩ := Nat.exists_eq_add_one.2 (by omega : 0 < fuel)
    obtain ⟨keys, children, below, hnode, rfl, hchain⟩ := h
    refine inserts_internal hnode hchain hnodup hold hkey ?_
    intro t lo hi child pages entries hsub hnodup hold hkey
    exact ih hsub hnodup hold hkey (by omega)

/-! Removal. -/

theorem removeFrom_sub : ∃ t', t.removeFrom key fuel page = .ok ((findEntry key entries).isSome, t') ∧
      Sub t'.node d lo hi page pages (dropEntry key entries) ∧ Grown t t' pages pages ∧
      t'.info.count = t.info.count - (entries.length - (dropEntry key entries).length) := by
  induction d generalizing lo hi page pages entries fuel with
  | zero =>
    obtain ⟨fuel, rfl⟩ := Nat.exists_eq_add_one.2 hfuel
    obtain ⟨rfl, hnode, hsorted, hin⟩ := h
    simp only [removeFrom, hnode]
    cases hfind : findEntry key entries with
    | none =>
      have hdrop : dropEntry key entries = entries := by
        rw [dropEntry, List.filter_eq_self]
        intro e he
        simpa using findEntry_eq_none.1 hfind e he
      rw [hdrop, Nat.sub_self]
      exact ⟨t, rfl, ⟨rfl, hnode, hsorted, hin⟩, Grown.refl t hnodup, rfl⟩
    | some old =>
      have hpos : 0 < entries.length := length_pos_of_mem ((findEntry_eq_some hsorted).1 hfind)
      have hone : entries.length - (dropEntry key entries).length = 1 := by
        rw [length_dropEntry hsorted key, hfind, Option.isSome_some, if_pos rfl]
        omega
      rw [hone]
      refine ⟨_, rfl, ⟨rfl, node_of_dirty ?_, hsorted.filter _, ?_⟩, ?_, rfl⟩
      · simp only [set, SortedMap.getElem?_insert, if_true]
      · exact fun e he => hin e (List.mem_of_mem_filter he)
      · refine ⟨hnodup, fun q hq => .inl hq, fun q hq => hq, ?_, le_rfl, rfl, rfl, fun h => absurd h (by simp)⟩
        intro q hq
        have hne : page ≠ q := fun h => hq (by simp [h])
        simp only [set, SortedMap.getElem?_insert, if_neg hne]
  | succ d ih =>
    obtain ⟨fuel, rfl⟩ := Nat.exists_eq_add_one.2 (by omega : 0 < fuel)
    obtain ⟨keys, children, below, hnode, rfl, hchain⟩ := h
    obtain ⟨hpage, hbelow⟩ := List.nodup_cons.1 hnodup
    have hold' : ∀ q ∈ below, q < t.info.nextFree := fun q hq => hold q (List.mem_cons_of_mem page hq)
    obtain ⟨o, ho⟩ := hchain.route (fun _ _ _ _ _ => Sub.fine) hkey
    obtain ⟨t₁, hres, hsub1, hgrown1, hcount1⟩ :=
      ih ho.sub (ho.nodup hbelow) (fun q hq => hold' q (ho.mem hq)) ho.within (by omega : d < fuel)
    obtain ⟨hwhole, hgrown⟩ := ho.refill hbelow hold' hgrown1 (.one hsub1)
    rw [← dropEntry_append ho.before ho.behind, ← ho.entries, ← ho.pages] at hwhole
    rw [← ho.pages] at hgrown
    refine ⟨t₁, ?_, ⟨keys, children, below, ?_, rfl, ?_⟩, ?_, ?_⟩
    · simp only [removeFrom, hnode, child_of_routes ho, hres]
      rw [ho.entries, findEntry_append_of_lt ho.before ho.behind]
    · rw [hgrown.node hpage, hnode]
    · rw [ho.keys, ho.children]
      simpa using hwhole
    · simpa using hgrown.around [page] [] (by simpa using hnodup) (by simpa using hold page (by simp))
    · rw [hcount1, ho.entries, dropEntry_append ho.before ho.behind]
      simp only [length_append]
      omega

end

end Tree

/-! Whole trees. -/

/-- A tree of `pages` that holds `entries`: no page twice, none that was not
    handed out, none written outside it, and as many entries as it says. -/
structure TreeHolds (t : Tree κ ρ) (pages : List PageNo) (entries : List (κ × ρ)) : Prop where
  sub : ∃ d, Sub t.node d none none t.info.root pages entries
  nodup : pages.Nodup
  bound : ∀ q ∈ pages, 0 < q ∧ q < t.info.nextFree
  written : ∀ q, q ∉ pages → t.dirty[q]? = none ∧ t.store.nodes[q]? = none
  info : t.infoDirty = false → t.info = t.store.metaPage.getD Meta.empty
  count : t.info.count = entries.length

/-- A committed tree that holds `entries`. -/
def Pages.Holds (p : Pages κ ρ) (entries : List (κ × ρ)) : Prop := ∃ pages, TreeHolds (Tree.openAt p) pages entries

namespace TreeHolds

variable {Z : Sizing κ ρ} {t : Tree κ ρ}

theorem within_none (key : κ) : Within none none key := ⟨fun _ h => absurd h (by simp), fun _ h => absurd h (by simp)⟩

section

variable (h : TreeHolds t pages entries)
include h

theorem sorted : Sorted entries := by
  obtain ⟨d, hsub⟩ := h.sub
  exact hsub.fine.1

theorem depth_lt {d : Nat} (hsub : Sub t.node d none none t.info.root pages entries) : d < t.info.nextFree := by
  have hlen : pages.length ≤ (List.range t.info.nextFree).length :=
    (h.nodup.subperm (fun q hq => mem_range.2 (h.bound q hq).2)).length_le
  rw [length_range] at hlen
  exact hsub.depth_lt.trans_le hlen

theorem get (key : κ) : t.get key = .ok (findEntry key entries) := by
  obtain ⟨d, hsub⟩ := h.sub
  exact getFrom_sub hsub (within_none key) (h.depth_lt hsub)

theorem scan : t.scan = .ok entries := by
  obtain ⟨d, hsub⟩ := h.sub
  exact collect_sub hsub (h.depth_lt hsub)

theorem grown {t' : Tree κ ρ} {pages' : List PageNo} (hgrown : Grown t t' pages pages') :
    (∀ q ∈ pages', 0 < q ∧ q < t'.info.nextFree) ∧
      (∀ q, q ∉ pages' → t'.dirty[q]? = none ∧ t'.store.nodes[q]? = none) ∧
      (t'.infoDirty = false → t'.info = t'.store.metaPage.getD Meta.empty) := by
  have hpos : 0 < t.info.nextFree := by
    obtain ⟨d, hsub⟩ := h.sub
    exact Nat.zero_lt_of_lt (h.depth_lt hsub)
  refine ⟨?_, ?_, ?_⟩
  · intro q hq
    rcases hgrown.fresh q hq with hq | hq
    · exact ⟨(h.bound q hq).1, (h.bound q hq).2.trans_le hgrown.nextFree⟩
    · exact ⟨hpos.trans_le hq.1, hq.2⟩
  · intro q hq
    have hold := h.written q (fun hmem => hq (hgrown.keeps q hmem))
    rw [hgrown.frame q hq, hgrown.store]
    exact hold
  · intro hclean
    obtain ⟨hinfo, hclean'⟩ := hgrown.info hclean
    rw [hinfo, hgrown.store, h.info hclean']

theorem insert (key : κ) (record : ρ) :
    ∃ t' pages', t.insert Z key record = .ok t' ∧ TreeHolds t' pages' (putEntry key record entries) := by
  obtain ⟨d, hsub⟩ := h.sub
  have hinserts : Tree.Inserts Z key record t d t.info.nextFree none none t.info.root pages entries :=
    Tree.inserts hsub h.nodup (fun q hq => (h.bound q hq).2) (within_none key) (h.depth_lt hsub)
  obtain ⟨res, t₁, pages₁, hres, hchain, hgrown, hinserted⟩ := hinserts
  have hcount : t₁.info.count = (putEntry key record entries).length := by
    have := h.count
    omega
  obtain ⟨hbound, hwritten, hinfo⟩ := h.grown hgrown
  simp only [Tree.insert, hres, ok_bind]
  cases res with
  | none =>
    cases hchain with
    | one hsub1 => exact ⟨t₁, pages₁, rfl, ⟨d, hgrown.root ▸ hsub1⟩, hgrown.nodup, hbound, hwritten, hinfo, hcount⟩
  | some new =>
    -- a new root over the two halves of the old one
    obtain ⟨separator, right⟩ := new
    have hnew : t₁.info.nextFree ∉ pages₁ := fun hmem => lt_irrefl _ (hbound _ hmem).2
    have hpos : 0 < t₁.info.nextFree := Nat.zero_lt_of_lt ((h.depth_lt hsub).trans_le hgrown.nextFree)
    refine ⟨_, t₁.info.nextFree :: pages₁, rfl,
      ⟨d + 1, [separator], [t.info.root, right], pages₁, Tree.node_of_dirty ?_, rfl, ?_⟩, ?_, ?_, ?_, ?_, hcount⟩
    · simp only [Tree.set, Tree.alloc, SortedMap.getElem?_insert, if_true]
    · refine Tree.chain_of_dirty hchain rfl (fun q hq => ?_)
      have hne : t₁.info.nextFree ≠ q := fun heq => hnew (heq ▸ hq)
      simp only [Tree.set, Tree.alloc, SortedMap.getElem?_insert, if_neg hne]
    · exact List.nodup_cons.2 ⟨hnew, hgrown.nodup⟩
    · refine List.forall_mem_cons.2 ⟨⟨hpos, Nat.lt_succ_self _⟩, fun q hq => ?_⟩
      exact ⟨(hbound q hq).1, Nat.lt_succ_of_lt (hbound q hq).2⟩
    · intro q hq
      rw [List.mem_cons, not_or] at hq
      simp only [Tree.set, Tree.alloc, SortedMap.getElem?_insert, if_neg (Ne.symm hq.1)]
      exact hwritten q hq.2
    · intro hclean
      cases hclean

theorem remove (key : κ) :
    ∃ t', t.remove key = .ok ((findEntry key entries).isSome, t') ∧ TreeHolds t' pages (dropEntry key entries) := by
  obtain ⟨d, hsub⟩ := h.sub
  obtain ⟨t', hres, hsub', hgrown, hremoved⟩ := removeFrom_sub hsub h.nodup (fun q hq => (h.bound q hq).2) (within_none key)
    (h.depth_lt hsub)
  obtain ⟨hbound, hwritten, hinfo⟩ := h.grown hgrown
  have hle : (dropEntry key entries).length ≤ entries.length := length_filter_le _ _
  refine ⟨t', hres, ⟨d, hgrown.root ▸ hsub'⟩, h.nodup, hbound, hwritten, hinfo, ?_⟩
  rw [hremoved, h.count, Nat.sub_sub_self hle]

theorem flush : TreeHolds (openAt t.flush) pages entries := by
  have hnodes : ∀ q : PageNo, t.flush.nodes[q]? = t.dirty[q]?.or t.store.nodes[q]? :=
    fun q => getElem?_foldl_insert t.dirty t.store.nodes q
  have hinfo : (openAt t.flush).info = t.info := by
    cases hclean : t.infoDirty with
    | false => simp [Tree.openAt, Tree.flush, hclean, h.info hclean]
    | true => simp [Tree.openAt, Tree.flush, hclean]
  have hnode : (openAt t.flush).node = t.node := by
    funext q
    have hdirty : (openAt t.flush).dirty[q]? = none := getElem?_empty q
    rw [node, hdirty, none_or]
    exact congrArg (fun n => n.getD (Node.leaf [])) (hnodes q)
  refine ⟨by rw [hnode, hinfo]; exact h.sub, h.nodup, by rw [hinfo]; exact h.bound, ?_, fun _ => rfl, hinfo ▸ h.count⟩
  intro q hq
  refine ⟨getElem?_empty q, (hnodes q).trans ?_⟩
  rw [(h.written q hq).1, (h.written q hq).2, none_or]

end

theorem empty : TreeHolds (openAt (Pages.empty : Pages κ ρ)) [1] [] where
  sub := by
    refine ⟨0, rfl, ?_, List.Pairwise.nil, by simp⟩
    show ((∅ : BTreeMap PageNo (Node κ ρ))[1]?.or
      (∅ : BTreeMap PageNo (Node κ ρ))[1]?).getD (.leaf []) = _
    simp
  nodup := nodup_singleton 1
  bound := by
    intro q hq
    rw [mem_singleton.1 hq]
    exact ⟨Nat.zero_lt_one, Nat.one_lt_two⟩
  written q _ := ⟨getElem?_empty q, getElem?_empty q⟩
  info _ := rfl
  count := rfl

theorem leaf_mem (h : TreeHolds t pages entries) : e ∈ entries ↔ ∃ q ∈ pages, ∃ es, t.node q = .leaf es ∧ e ∈ es := by
  obtain ⟨d, hsub⟩ := h.sub
  exact hsub.mem_iff

end TreeHolds

/-! Histories. -/

def TreeOp.apply (entries : List (κ × ρ)) : TreeOp κ ρ → List (κ × ρ)
  | .insert key record => putEntry key record entries
  | .remove key => dropEntry key entries
  | .commit => entries

theorem TreeHolds.act {Z : Sizing κ ρ} {t : Tree κ ρ} {pages : List PageNo} (h : TreeHolds t pages entries)
    (op : TreeOp κ ρ) : ∃ t' pages', t.act Z op = .ok t' ∧ TreeHolds t' pages' (op.apply entries) := by
  cases op with
  | insert key record => exact h.insert key record
  | remove key =>
    obtain ⟨t', hres, hholds⟩ := h.remove key
    refine ⟨t', pages, ?_, hholds⟩
    simp only [Tree.act, hres]
    rfl
  | commit => exact ⟨_, pages, rfl, h.flush⟩

theorem TreeHolds.acts {Z : Sizing κ ρ} {t : Tree κ ρ} {pages : List PageNo} (h : TreeHolds t pages entries)
    (ops : List (TreeOp κ ρ)) :
    ∃ t' pages', ops.foldlM (Tree.act Z) t = .ok t' ∧ TreeHolds t' pages' (ops.foldl TreeOp.apply entries) := by
  induction ops generalizing t pages entries with
  | nil => exact ⟨t, pages, rfl, h⟩
  | cons op ops ih =>
    obtain ⟨t₁, pages₁, hact, h1⟩ := h.act (Z := Z) op
    obtain ⟨t', pages', hrest, h'⟩ := ih h1
    exact ⟨t', pages', by rw [List.foldlM_cons, hact, ok_bind, hrest], h'⟩

/-- Every history of a tree succeeds, and leaves the records its operations leave
    of a sorted list. -/
theorem Pages.Holds.after {p : Pages κ ρ} (h : p.Holds entries) (Z : Sizing κ ρ) (ops : List (TreeOp κ ρ)) :
    ∃ p', p.after Z ops = .ok p' ∧ p'.Holds (ops.foldl TreeOp.apply entries) := by
  obtain ⟨pages, h⟩ := h
  obtain ⟨t', pages', hrun, h'⟩ := h.acts (Z := Z) ops
  refine ⟨t'.flush, ?_, pages', h'.flush⟩
  rw [Pages.after, hrun]
  rfl

theorem Pages.Holds.empty : (Pages.empty : Pages κ ρ).Holds [] := ⟨[1], TreeHolds.empty⟩

end Mutiny.Loom
