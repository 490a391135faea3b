import Mathlib
import Mutiny.Lib.I64

/- Z-sets: finitely supported integer weights over a type. A batch of weighted
   entries denotes the sum of its singletons (`ofEntries`), so concatenation is
   addition. `lin f` is the linear extension of a function on elements: an
   operator that treats each entry on its own is `lin` of what it does to one
   element, and its incremental form is `map_add`. `lin₂` is the bilinear
   extension, whose increment has three terms (`lin₂_increment`). -/
namespace Mutiny.Lib

abbrev ZSet (α : Type*) := α →₀ ℤ

namespace ZSet
open Finsupp

variable {α β : Type*} {M : Type*} [AddCommGroup M]

/-- The linear extension of `f`: an element of weight `w` contributes `w • f a`. -/
noncomputable def lin (f : α → M) : ZSet α →+ M :=
  Finsupp.liftAddHom (fun a => zmultiplesHom M (f a))

@[simp] theorem lin_single (f : α → M) (a : α) (w : ℤ) : lin f (single a w) = w • f a := by
  simp [lin]

theorem lin_apply (f : α → M) (z : ZSet α) : lin f z = z.sum (fun a w => w • f a) := by
  simp [lin, Finsupp.sum]

variable {z : ZSet α}

theorem lin_congr {f g : α → M} (h : ∀ a ∈ z.support, f a = g a) : lin f z = lin g z := by
  rw [lin_apply, lin_apply]
  exact Finset.sum_congr rfl (fun a ha => congrArg (z a • ·) (h a ha))

theorem lin_zero_fun (z : ZSet α) : lin (fun _ => (0 : M)) z = 0 := by
  simp [lin_apply, Finsupp.sum]

theorem lin_add_fun (f g : α → M) (z : ZSet α) : lin (fun a => f a + g a) z = lin f z + lin g z := by
  simp [lin_apply, Finsupp.sum, Finset.sum_add_distrib]

theorem map_lin {N : Type*} [AddCommGroup N] (g : M →+ N) (f : α → M) (z : ZSet α) :
    g (lin f z) = lin (fun a => g (f a)) z := by
  rw [lin_apply, lin_apply, map_finsuppSum]
  exact Finset.sum_congr rfl (fun a _ => map_zsmul g _ _)

theorem lin_apply_at (f : α → ZSet β) (z : ZSet α) (b : β) : lin f z b = lin (fun a => f a b) z :=
  map_lin (Finsupp.applyAddHom b) f z

theorem lin_single_one (z : ZSet α) : lin (fun a => single a (1 : ℤ)) z = z := by
  induction z using Finsupp.induction_linear with
  | zero => simp
  | add x y hx hy => rw [map_add, hx, hy]
  | single a w => simp

theorem lin_mono {f g : α → ℤ} (h : ∀ a, f a ≤ g a) (hz : 0 ≤ z) : lin f z ≤ lin g z := by
  rw [lin_apply, lin_apply]
  exact Finset.sum_le_sum (fun a _ => mul_le_mul_of_nonneg_left (h a) (hz a))

theorem lin_filter (f : α → M) (z : ZSet α) (p : α → Prop) [DecidablePred p] :
    lin f (z.filter p) = lin (fun a => if p a then f a else 0) z := by
  induction z using Finsupp.induction_linear with
  | zero => simp [Finsupp.filter_zero]
  | add x y hx hy => rw [Finsupp.filter_add, map_add, map_add, hx, hy]
  | single a w => by_cases h : p a <;> simp [h]

noncomputable def lin₂ (f : α → β → M) (x : ZSet α) (y : ZSet β) : M :=
  lin (fun a => lin (f a) y) x

section

variable (f : α → β → M)
include f

theorem lin₂_add_left (x x' : ZSet α) (y : ZSet β) : lin₂ f (x + x') y = lin₂ f x y + lin₂ f x' y := map_add _ _ _

theorem lin₂_add_right (x : ZSet α) (y y' : ZSet β) : lin₂ f x (y + y') = lin₂ f x y + lin₂ f x y' := by
  unfold lin₂
  rw [← lin_add_fun]
  simp only [map_add]

theorem lin₂_zero_left (y : ZSet β) : lin₂ f 0 y = 0 := map_zero _

theorem lin₂_zero_right (x : ZSet α) : lin₂ f x 0 = 0 := by
  unfold lin₂
  simp only [map_zero]
  exact lin_zero_fun x

/-- The increment of a bilinear operator: each delta against the other side as
    it was, and the two deltas against each other. -/
theorem lin₂_increment (x dx : ZSet α) (y dy : ZSet β) :
    lin₂ f (x + dx) (y + dy) = lin₂ f x y + (lin₂ f dx y + lin₂ f x dy + lin₂ f dx dy) := by
  rw [lin₂_add_left, lin₂_add_right, lin₂_add_right]
  abel

end

theorem lin_smul_fun (w : ℤ) (f : α → M) (z : ZSet α) : lin (fun a => w • f a) z = w • lin f z := by
  rw [lin_apply, lin_apply, Finsupp.sum, Finsupp.sum, Finset.smul_sum]
  exact Finset.sum_congr rfl (fun a _ => smul_comm _ _ _)

theorem lin₂_comm (f : α → β → M) (x : ZSet α) (y : ZSet β) : lin₂ (fun b a => f a b) y x = lin₂ f x y := by
  induction x using Finsupp.induction_linear with
  | zero => rw [lin₂_zero_left, lin₂_zero_right]
  | add x x' hx hx' => rw [lin₂_add_left, lin₂_add_right, hx, hx']
  | single a w =>
    unfold lin₂
    simp only [lin_single]
    exact lin_smul_fun w (f a) y

theorem lin_lin_single (f : β → M) (k : α → β) (z : ZSet α) :
    lin f (lin (fun a => single (k a) 1) z) = lin (fun a => f (k a)) z := by
  rw [map_lin]
  simp only [lin_single, one_smul]

/-- A sum over keys, changed at finitely many of them: the new sum is the old one
    and what each touched key changed by. -/
theorem finsum_change {f f' : α → M} (hf : (Function.support f).Finite)
    (hf' : (Function.support f').Finite) {touched : List α} (hn : touched.Nodup)
    (h : ∀ k, k ∉ touched → f' k = f k) :
    ∑ᶠ k, f' k = ∑ᶠ k, f k + (touched.map (fun k => f' k - f k)).sum := by
  classical
  have hsub : ∑ᶠ k, (f' k - f k) = ∑ᶠ k, f' k - ∑ᶠ k, f k := finsum_sub_distrib hf' hf
  have hsupp : Function.support (fun k => f' k - f k) ⊆ (touched.toFinset : Set α) := by
    intro k hk
    by_contra hno
    exact hk (sub_eq_zero.2 (h k (by simpa using hno)))
  rw [finsum_eq_sum_of_support_subset _ hsupp, List.sum_toFinset _ hn] at hsub
  rw [hsub]
  abel

/-! Batches of weighted entries. -/

noncomputable def ofEntries (l : List (α × I64)) : ZSet α :=
  (l.map (fun e => single e.1 e.2.val)).sum

@[simp] theorem ofEntries_nil : ofEntries ([] : List (α × I64)) = 0 := rfl

@[simp] theorem ofEntries_cons (e : α × I64) (l : List (α × I64)) :
    ofEntries (e :: l) = single e.1 e.2.val + ofEntries l := by simp [ofEntries]

@[simp] theorem ofEntries_append (l l' : List (α × I64)) :
    ofEntries (l ++ l') = ofEntries l + ofEntries l' := by simp [ofEntries]

variable {l : List (α × I64)}

theorem ofEntries_perm {l' : List (α × I64)} (h : l.Perm l') : ofEntries l = ofEntries l' :=
  (h.map _).sum_eq

theorem lin_ofEntries (f : α → M) (l : List (α × I64)) :
    lin f (ofEntries l) = (l.map (fun e => e.2.val • f e.1)).sum := by
  induction l with
  | nil => simp
  | cons e l ih => simp [ih]

theorem ofEntries_map (k : α → β) (l : List (α × I64)) :
    ofEntries (l.map (fun e => (k e.1, e.2))) = lin (fun a => single (k a) 1) (ofEntries l) := by
  induction l with
  | nil => simp
  | cons e l ih => simp [ih]

theorem ofEntries_filter (p : α → Bool) (l : List (α × I64)) :
    ofEntries (l.filter (fun e => p e.1)) = (ofEntries l).filter (fun a => p a = true) := by
  induction l with
  | nil => exact (Finsupp.filter_zero _).symm
  | cons e l ih => by_cases h : p e.1 = true <;> simp [h, ih, Finsupp.filter_add]

variable {a : α}

theorem ofEntries_filter_apply {p : α → Bool} (hp : p a = true) (l : List (α × I64)) :
    ofEntries (l.filter (fun e => p e.1)) a = ofEntries l a := by
  rw [ofEntries_filter]
  exact Finsupp.filter_apply_pos _ _ hp

theorem lin_ofEntries_filter (f : α → M) (p : α → Bool) (l : List (α × I64)) :
    lin f (ofEntries (l.filter (fun e => p e.1))) =
      lin (fun a => if p a then f a else 0) (ofEntries l) := by
  rw [ofEntries_filter, lin_filter]

theorem ofEntries_apply_eq_zero (h : ∀ e ∈ l, e.1 ≠ a) : ofEntries l a = 0 := by
  induction l with
  | nil => rfl
  | cons e l ih =>
    rw [ofEntries_cons, Finsupp.add_apply, ih (fun x hx => h x (List.mem_cons_of_mem e hx)),
      single_eq_of_ne (h e List.mem_cons_self).symm, add_zero]

theorem ofEntries_apply_of_mem (hd : (l.map Prod.fst).Nodup) {e : α × I64} (he : e ∈ l) :
    ofEntries l e.1 = e.2.val := by
  induction l with
  | nil => cases he
  | cons x l ih =>
    simp only [List.map_cons, List.nodup_cons] at hd
    rw [ofEntries_cons, Finsupp.add_apply]
    rcases List.mem_cons.1 he with rfl | he
    · rw [ofEntries_apply_eq_zero, single_eq_same, add_zero]
      intro y hy hxy
      exact hd.1 (hxy ▸ List.mem_map_of_mem hy)
    · have hne : x.1 ≠ e.1 := fun h => hd.1 (h ▸ List.mem_map_of_mem he)
      rw [ih hd.2 he, single_eq_of_ne hne.symm, zero_add]

theorem ofEntries_filter_nonzero (l : List (α × I64)) : ofEntries (l.filter (fun e => e.2.val ≠ 0)) = ofEntries l := by
  induction l with
  | nil => rfl
  | cons e l ih =>
    by_cases h : e.2.val = 0
    · rw [List.filter_cons_of_neg (by simpa using h), ih, ofEntries_cons, h, single_zero, zero_add]
    · rw [List.filter_cons_of_pos (by simpa using h), ofEntries_cons, ofEntries_cons, ih]

theorem ofEntries_nonneg (h : ∀ e ∈ l, 0 ≤ e.2.val) : 0 ≤ ofEntries l := by
  apply List.sum_nonneg
  intro z hz
  obtain ⟨e, he, rfl⟩ := List.mem_map.1 hz
  exact single_nonneg.2 (h e he)

theorem lin_nonneg {f : α → ZSet β} (hf : ∀ a, 0 ≤ f a) (hz : 0 ≤ z) : 0 ≤ lin f z := by
  rw [lin_apply]
  exact Finset.sum_nonneg (fun a _ => smul_nonneg (hz a) (hf a))

/-- Weights of either sign cancel; weights of one sign do not. -/
theorem add_ne_zero_iff {z' : ZSet α} (h : 0 ≤ z) (h' : 0 ≤ z') : (z + z') a ≠ 0 ↔ z a ≠ 0 ∨ z' a ≠ 0 := by
  have hz : (0 : ℤ) ≤ z a := h a
  have hz' : (0 : ℤ) ≤ z' a := h' a
  rw [Finsupp.add_apply]
  omega

theorem sum_ne_zero_iff {γ : Type*} {f : γ → ZSet α} {l : List γ} (hf : ∀ c ∈ l, 0 ≤ f c) :
    (l.map f).sum a ≠ 0 ↔ ∃ c ∈ l, f c a ≠ 0 := by
  induction l with
  | nil => simp
  | cons c l ih =>
    obtain ⟨hc, hl⟩ := List.forall_mem_cons.1 hf
    have hnn : 0 ≤ (l.map f).sum := List.sum_nonneg (List.forall_mem_map.2 hl)
    rw [List.map_cons, List.sum_cons, add_ne_zero_iff hc hnn, ih hl, List.exists_mem_cons_iff]

/-- An element has weight in a nonnegative linear extension over positive
    entries exactly when some entry contributes to it. -/
theorem lin_ofEntries_ne_zero_iff {f : α → ZSet β} (hf : ∀ a, 0 ≤ f a) (hl : ∀ e ∈ l, 0 < e.2.val) {b : β} :
    lin f (ofEntries l) b ≠ 0 ↔ ∃ e ∈ l, f e.1 b ≠ 0 := by
  rw [lin_ofEntries, sum_ne_zero_iff (fun e he => smul_nonneg (hl e he).le (hf e.1))]
  refine exists_congr (fun e => and_congr_right (fun he => ?_))
  rw [Finsupp.smul_apply, smul_eq_mul, mul_ne_zero_iff]
  simp [(hl e he).ne']

theorem ofEntries_ne_zero_iff (h : ∀ e ∈ l, 0 < e.2.val) : ofEntries l a ≠ 0 ↔ ∃ e ∈ l, e.1 = a := by
  have hlin := lin_ofEntries_ne_zero_iff (f := fun a => single a 1) (fun _ => single_nonneg.2 zero_le_one) h (b := a)
  rw [lin_single_one] at hlin
  refine hlin.trans (exists_congr (fun e => and_congr_right (fun _ => ?_)))
  rw [Finsupp.single_apply_ne_zero, and_iff_left one_ne_zero, eq_comm]

end ZSet

/-! Canonical lists. -/

section Canonical

variable {α : Type*} [LinearOrder α]

/-- Strictly ascending elements, none at weight zero. -/
structure IsCanonical (entries : List (α × I64)) : Prop where
  sorted : entries.Pairwise (fun a b => a.1 < b.1)
  nonzero : ∀ e ∈ entries, e.2.val ≠ 0

namespace IsCanonical

theorem nodup {l : List (α × I64)} (h : IsCanonical l) : (l.map Prod.fst).Nodup := by
  rw [List.Nodup, List.pairwise_map]
  exact h.sorted.imp (fun hab => ne_of_lt hab)

theorem mem_iff {l : List (α × I64)} (h : IsCanonical l) {a : α} {w : I64} :
    (a, w) ∈ l ↔ ZSet.ofEntries l a = w.val ∧ w.val ≠ 0 := by
  constructor
  · intro hm
    exact ⟨ZSet.ofEntries_apply_of_mem h.nodup hm, h.nonzero _ hm⟩
  · rintro ⟨hw, hne⟩
    by_contra hno
    have hrow : ∃ e ∈ l, e.1 = a := by
      by_contra hall
      push Not at hall
      exact hne (hw ▸ ZSet.ofEntries_apply_eq_zero hall)
    obtain ⟨⟨r, v⟩, he, rfl⟩ := hrow
    have hv : ZSet.ofEntries l r = v.val := ZSet.ofEntries_apply_of_mem h.nodup he
    have : v = w := Subtype.ext (hv.symm.trans hw)
    exact hno (this ▸ he)

/-- Two canonical lists of one Z-set are the same list. -/
theorem unique {l l' : List (α × I64)} (h : IsCanonical l) (h' : IsCanonical l')
    (hz : ZSet.ofEntries l = ZSet.ofEntries l') : l = l' := by
  have hperm : l.Perm l' := by
    apply (List.perm_ext_iff_of_nodup h.nodup.of_map h'.nodup.of_map).2
    rintro ⟨row, w⟩
    rw [h.mem_iff, h'.mem_iff, hz]
  exact hperm.eq_of_pairwise (fun a b _ _ hab hba => absurd (hab.trans hba) (lt_irrefl _))
    h.sorted h'.sorted

end IsCanonical
end Canonical
end Mutiny.Lib
