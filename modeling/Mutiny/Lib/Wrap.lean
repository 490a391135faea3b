import Mutiny.Lib.WeightMap

/- Sums of weights up to wrapping.

   Where overflow checks are not compiled in, a plain `+` on 64-bit weights is
   exact only modulo 2^64. `Wraps build exact actual` says that much of a whole
   Z-set, and that the two are equal in a build with the checks. It goes through
   sums and linear maps, and of two wrapped sums of one exact sum whose weights
   are all in range neither can differ from the other (`Wraps.unique`). -/
namespace Mutiny.Lib
theorem WeightMap.denote_inI64 {α : Type} [LinearOrder α] (m : WeightMap α) (a : α) : InI64 (m.denote a) := by
  rw [WeightMap.denote_apply]
  exact (m.weight a).property

/-- Two Z-sets that differ by what wraps around in a build without overflow
    checks, and by nothing where the checks are compiled in. -/
def Wraps {α : Type} (build : Build) (exact actual : ZSet α) : Prop :=
  ∃ y : ZSet α, actual = exact + (18446744073709551616 : ℤ) • y ∧ (build = .checked → y = 0)

namespace Wraps

variable {α β : Type} {build : Build}

theorem refl (z : ZSet α) : Wraps build z z :=
  ⟨0, by simp, fun _ => rfl⟩

theorem trans {x y z : ZSet α} (h : Wraps build x y) (h' : Wraps build y z) : Wraps build x z := by
  obtain ⟨a, rfl, ha⟩ := h
  obtain ⟨b, rfl, hb⟩ := h'
  refine ⟨a + b, by rw [smul_add, add_assoc], fun hbuild => ?_⟩
  rw [ha hbuild, hb hbuild, add_zero]

theorem add {x y x' y' : ZSet α} (h : Wraps build x y) (h' : Wraps build x' y') : Wraps build (x + x') (y + y') := by
  obtain ⟨a, rfl, ha⟩ := h
  obtain ⟨b, rfl, hb⟩ := h'
  refine ⟨a + b, by rw [smul_add]; abel, fun hbuild => ?_⟩
  rw [ha hbuild, hb hbuild, add_zero]

theorem lin {x y : ZSet α} (f : α → ZSet β) (h : Wraps build x y) : Wraps build (ZSet.lin f x) (ZSet.lin f y) := by
  obtain ⟨a, rfl, ha⟩ := h
  refine ⟨ZSet.lin f a, by rw [map_add, map_zsmul], fun hbuild => ?_⟩
  rw [ha hbuild, map_zero]

theorem checked_iff {x y : ZSet α} : Wraps .checked x y ↔ y = x := by
  constructor
  · rintro ⟨a, rfl, ha⟩
    rw [ha rfl, smul_zero, add_zero]
  · rintro rfl
    exact refl y

/-- A weight in range is all a wrapped sum leaves of the exact one. -/
theorem apply_eq {x y : ZSet α} (h : Wraps build x y) {a : α} (hx : InI64 (x a)) (hy : InI64 (y a)) : y a = x a := by
  obtain ⟨r, rfl, _⟩ := h
  rw [Finsupp.add_apply, Finsupp.smul_apply, smul_eq_mul] at hy ⊢
  unfold InI64 at hx hy
  omega

/-- Two wrapped sums of one exact sum are the same where both are in range. -/
theorem unique {x y y' : ZSet α} (h : Wraps build x y) (h' : Wraps build x y')
    (hy : ∀ a, InI64 (y a)) (hy' : ∀ a, InI64 (y' a)) : y = y' := by
  obtain ⟨r, rfl, _⟩ := h
  obtain ⟨r', rfl, _⟩ := h'
  ext a
  have ha := hy a
  have ha' := hy' a
  rw [Finsupp.add_apply, Finsupp.smul_apply, smul_eq_mul] at ha ha' ⊢
  rw [Finsupp.add_apply, Finsupp.smul_apply, smul_eq_mul]
  unfold InI64 at ha ha'
  omega

end Wraps

end Mutiny.Lib
