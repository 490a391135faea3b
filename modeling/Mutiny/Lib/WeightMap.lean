import Mutiny.Lib.SortedMap
import Mutiny.Lib.ZSet

/- Sorted maps from elements to weights. `denote` reads one as a Z-set, with an
   absent element at weight zero. `addAll` adds a list of entries through any
   addition that is exact where it succeeds, so the checked and the unchecked
   sums share one lemma (`addAll_denote`). `overlay` is the second half of a
   staged write: every staged weight replaces the one below it, and a zero
   removes the entry. -/
namespace Mutiny.Lib

abbrev WeightMap (α : Type) [LinearOrder α] := BTreeMap α I64

namespace WeightMap
open Finsupp (single single_eq_same single_eq_of_ne)

variable {α : Type} [LinearOrder α]

def weight (m : WeightMap α) (a : α) : I64 := m.getD a I64.zero

/-- No entry is kept at weight zero. -/
def Reduced (m : WeightMap α) : Prop := ∀ (a : α) (w : I64), m[a]? = some w → w.val ≠ 0

noncomputable def denote (m : WeightMap α) : ZSet α := ZSet.ofEntries m.toList

theorem weight_eq (m : WeightMap α) (a : α) : m.weight a = m[a]?.getD I64.zero :=
  Std.ExtTreeMap.getD_eq_getD_getElem?

theorem denote_apply (m : WeightMap α) (a : α) : m.denote a = (m.weight a).val := by
  rw [weight_eq]
  cases h : m[a]? with
  | none =>
    refine ZSet.ofEntries_apply_eq_zero (fun e he hea => ?_)
    have := SortedMap.mem_toList.1 (show (e.1, e.2) ∈ m.toList from he)
    rw [hea, h] at this
    cases this
  | some w =>
    exact ZSet.ofEntries_apply_of_mem (SortedMap.nodup_toList m) (SortedMap.mem_toList.2 h)

@[simp] theorem denote_empty : denote (∅ : WeightMap α) = 0 := by
  ext a
  rw [denote_apply, weight_eq]
  simp

theorem weight_insert (m : WeightMap α) (a b : α) (w : I64) :
    weight (m.insert a w) b = if a = b then w else m.weight b := by
  simp [weight, Std.ExtTreeMap.getD_insert]

theorem weight_erase (m : WeightMap α) (a b : α) : weight (m.erase a) b = if a = b then I64.zero else m.weight b := by
  simp [weight, Std.ExtTreeMap.getD_erase]

variable {m : WeightMap α} {a : α} {w : I64}

theorem denote_insert {d : I64} (h : w.val = (m.weight a).val + d.val) :
    denote (m.insert a w) = m.denote + single a d.val := by
  ext b
  rw [denote_apply, weight_insert, Finsupp.add_apply, denote_apply]
  by_cases hab : a = b
  · subst hab; simpa using h
  · simp [hab, single_eq_of_ne (Ne.symm hab)]

theorem denote_erase {d : I64} (h : (m.weight a).val + d.val = 0) : denote (m.erase a) = m.denote + single a d.val := by
  ext b
  rw [denote_apply, weight_erase, Finsupp.add_apply, denote_apply]
  by_cases hab : a = b
  · subst hab; simpa using h.symm
  · simp [hab, single_eq_of_ne (Ne.symm hab)]

theorem Reduced.getElem?_eq_some (h : m.Reduced) : m[a]? = some w ↔ m.denote a = w.val ∧ w.val ≠ 0 := by
  rw [denote_apply, weight_eq]
  cases hm : m[a]? with
  | none => simp only [reduceCtorEq, Option.getD_none, I64.zero_val, false_iff]; omega
  | some v =>
    simp only [Option.some.injEq, Option.getD_some]
    refine ⟨fun e => ⟨congrArg _ e, e ▸ h a v hm⟩, fun ⟨e, _⟩ => Subtype.ext e⟩

theorem Reduced.isCanonical (h : m.Reduced) : IsCanonical m.toList :=
  ⟨SortedMap.sorted_toList m, fun e he =>
    h e.1 e.2 (SortedMap.mem_toList.1 he)⟩

/-- Reduced maps of one Z-set are equal: the map is a function of what it denotes. -/
theorem Reduced.ext {m' : WeightMap α} (h : m.Reduced) (h' : m'.Reduced) (hd : m.denote = m'.denote) : m = m' := by
  apply Std.ExtTreeMap.ext_getElem?
  intro a
  apply Option.ext
  intro w
  rw [h.getElem?_eq_some, h'.getElem?_eq_some, hd]

theorem reduced_empty : Reduced (∅ : WeightMap α) := by
  intro a w h
  simp at h

theorem Reduced.insert (h : m.Reduced) (hw : w.val ≠ 0) : Reduced (m.insert a w) := by
  intro b v hb
  rw [Std.ExtTreeMap.getElem?_insert] at hb
  split at hb
  · cases hb; exact hw
  · exact h b v hb

theorem Reduced.erase (h : m.Reduced) (a : α) : Reduced (m.erase a) := by
  intro b v hb
  rw [Std.ExtTreeMap.getElem?_erase] at hb
  split at hb
  · cases hb
  · exact h b v hb

/-! Adding entries one by one. -/

/-- Add entries in order, keeping elements whose weight reaches zero. -/
def addAll (add : I64 → I64 → Option I64) : WeightMap α → List (α × I64) → Option (WeightMap α)
  | m, [] => some m
  | m, (a, w) :: rest => match add (m.weight a) w with
    | none => none
    | some sum => addAll add (m.insert a sum) rest

theorem addAll_denote {add : I64 → I64 → Option I64} (hadd : ∀ x y z, add x y = some z → z.val = x.val + y.val)
    {entries : List (α × I64)} {m' : WeightMap α} (h : addAll add m entries = some m') :
    m'.denote = m.denote + ZSet.ofEntries entries := by
  induction entries generalizing m with
  | nil => cases h; simp
  | cons e rest ih =>
    obtain ⟨a, w⟩ := e
    simp only [addAll] at h
    split at h
    · cases h
    · next sum hs =>
      rw [ih h, denote_insert (hadd _ _ _ hs), ZSet.ofEntries_cons, add_assoc]

def nonzero (m : WeightMap α) : List (α × I64) := m.toList.filter (fun e => e.2.val ≠ 0)

theorem nonzero_isCanonical (m : WeightMap α) : IsCanonical m.nonzero :=
  ⟨(SortedMap.sorted_toList m).filter _, fun e he => by simpa using (List.mem_filter.1 he).2⟩

theorem ofEntries_nonzero (m : WeightMap α) : ZSet.ofEntries m.nonzero = m.denote :=
  ZSet.ofEntries_filter_nonzero m.toList

/-! Staged writes. -/

/-- One staged weight: a zero removes the entry. -/
def put (m : WeightMap α) (a : α) (w : I64) : WeightMap α :=
  if w = I64.zero then m.erase a else m.insert a w

def overlay (m : WeightMap α) : List (α × I64) → WeightMap α
  | [] => m
  | (a, w) :: rest => overlay (m.put a w) rest

theorem weight_put (m : WeightMap α) (a b : α) (w : I64) : (m.put a w).weight b = if a = b then w else m.weight b := by
  unfold put
  split
  · next h => rw [weight_erase, h]
  · exact weight_insert m a b w

theorem Reduced.put (h : m.Reduced) (a : α) (w : I64) : Reduced (m.put a w) := by
  unfold WeightMap.put
  split
  · exact h.erase a
  · next hw => exact h.insert (fun h0 => hw (Subtype.ext h0))

theorem Reduced.overlay (h : m.Reduced) (l : List (α × I64)) : Reduced (m.overlay l) := by
  induction l generalizing m with
  | nil => exact h
  | cons e l ih => exact ih (h.put e.1 e.2)

theorem weight_overlay_of_not_mem {l : List (α × I64)} (h : ∀ w, (a, w) ∉ l) : (m.overlay l).weight a = m.weight a := by
  induction l generalizing m with
  | nil => rfl
  | cons e l ih =>
    rw [overlay, ih (fun w hw => h w (List.mem_cons_of_mem _ hw)), weight_put, if_neg]
    rintro rfl
    exact h e.2 List.mem_cons_self

theorem weight_overlay_of_mem {l : List (α × I64)} (hd : (l.map Prod.fst).Nodup) (h : (a, w) ∈ l) :
    (m.overlay l).weight a = w := by
  induction l generalizing m with
  | nil => cases h
  | cons e l ih =>
    rw [List.map_cons, List.nodup_cons] at hd
    rcases List.mem_cons.1 h with rfl | h
    · rw [overlay, weight_overlay_of_not_mem, weight_put, if_pos rfl]
      intro v hv
      exact hd.1 (List.mem_map.2 ⟨_, hv, rfl⟩)
    · exact ih hd.2 h

theorem weight_overlay (m staged : WeightMap α) (a : α) :
    (m.overlay staged.toList).weight a = staged[a]?.getD (m.weight a) := by
  cases h : staged[a]? with
  | none =>
    refine weight_overlay_of_not_mem (fun w hw => ?_)
    rw [SortedMap.mem_toList, h] at hw
    cases hw
  | some w =>
    exact weight_overlay_of_mem (SortedMap.nodup_toList staged) (SortedMap.mem_toList.2 h)

end WeightMap

/-! Prefix scans. Under the lexicographic order the keys that extend a prefix
   are one range, which starts at the prefix itself. -/

section Prefix

variable {α : Type} [LinearOrder α]

theorem cons_le_cons_iff {a b : α} {l m : List α} : a :: l ≤ b :: m ↔ a < b ∨ (a = b ∧ l ≤ m) := by
  -- the order of lists is that of core, which says `≤` by `<`
  rw [← not_lt, ← not_lt]
  exact List.cons_le_cons_iff

variable {p : List α}

/-- Nothing between a prefix and an extension of it starts otherwise. -/
theorem prefix_of_le_of_le {k k' : List α} (hp : p ≤ k) (hk : k ≤ k') (h : p <+: k') : p <+: k := by
  induction p generalizing k k' with
  | nil => exact List.nil_prefix
  | cons a p ih =>
    obtain ⟨t, rfl⟩ := h
    cases k with
    | nil => exact absurd hp (not_le_of_gt (List.nil_lt_cons a p))
    | cons c k =>
      rw [List.cons_append, cons_le_cons_iff] at hk
      rw [cons_le_cons_iff] at hp
      rcases hp with hac | ⟨rfl, hp⟩
      · rcases hk with hca | ⟨rfl, _⟩
        · exact absurd (hac.trans hca) (lt_irrefl _)
        · exact absurd hac (lt_irrefl _)
      · rcases hk with hca | ⟨_, hk⟩
        · exact absurd hca (lt_irrefl _)
        · exact (List.prefix_cons_inj a).2 (ih hp hk (List.prefix_append p t))

theorem append_singleton_lt {a b : α} (h : p ++ [a] < p ++ [b]) : a < b := by
  induction p with
  | nil =>
    rcases List.cons_lt_cons_iff.1 h with h | ⟨_, h⟩
    · exact h
    · exact absurd h (lt_irrefl _)
  | cons c p ih =>
    rcases List.cons_lt_cons_iff.1 h with h | ⟨_, h⟩
    · exact absurd h (lt_irrefl c)
    · exact ih h

theorem prefix_le {k : List α} (h : p <+: k) : p ≤ k := by
  induction p generalizing k with
  | nil => cases k with
    | nil => exact le_refl _
    | cons c k => exact le_of_lt (List.nil_lt_cons c k)
  | cons a p ih =>
    obtain ⟨t, rfl⟩ := h
    exact cons_le_cons_iff.2 (Or.inr ⟨rfl, ih (List.prefix_append p t)⟩)

variable {β : Type} [BEq α] [LawfulBEq α] {l : List (List α × β)}

theorem takeWhile_prefix_eq_filter (hs : l.Pairwise (fun a b => a.1 < b.1)) (hp : ∀ e ∈ l, p ≤ e.1) :
    l.takeWhile (fun e => p.isPrefixOf e.1) = l.filter (fun e => p.isPrefixOf e.1) := by
  induction l with
  | nil => rfl
  | cons e l ih =>
    obtain ⟨he, hs'⟩ := List.pairwise_cons.1 hs
    by_cases h : p.isPrefixOf e.1
    · rw [List.takeWhile_cons_of_pos (by simpa using h), List.filter_cons_of_pos (by simpa using h),
        ih hs' (fun x hx => hp x (List.mem_cons_of_mem _ hx))]
    · rw [List.takeWhile_cons_of_neg (by simpa using h), List.filter_cons_of_neg (by simpa using h)]
      symm
      rw [List.filter_eq_nil_iff]
      intro x hx hpx
      refine h (List.isPrefixOf_iff_prefix.2 ?_)
      exact prefix_of_le_of_le (hp e List.mem_cons_self) (le_of_lt (he x hx))
        (List.isPrefixOf_iff_prefix.1 hpx)

/-- A scan from the prefix to the first key that does not extend it finds every
    key that does. -/
theorem scan_eq_filter (hs : l.Pairwise (fun a b => a.1 < b.1)) :
    (l.dropWhile (fun e => e.1 < p)).takeWhile (fun e => p.isPrefixOf e.1) =
      l.filter (fun e => p.isPrefixOf e.1) := by
  induction l with
  | nil => rfl
  | cons e l ih =>
    obtain ⟨he, hs'⟩ := List.pairwise_cons.1 hs
    by_cases h : e.1 < p
    · rw [List.dropWhile_cons_of_pos (by simpa using h), ih hs', List.filter_cons_of_neg]
      intro hpe
      exact absurd h (not_lt_of_ge (prefix_le (List.isPrefixOf_iff_prefix.1 hpe)))
    · rw [List.dropWhile_cons_of_neg (by simpa using h)]
      refine takeWhile_prefix_eq_filter hs (fun x hx => ?_)
      rcases List.mem_cons.1 hx with rfl | hx
      · exact not_lt.1 h
      · exact le_trans (not_lt.1 h) (le_of_lt (he x hx))

end Prefix
end Mutiny.Lib
