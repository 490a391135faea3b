import Mathlib.Algebra.BigOperators.Group.List.Basic
import Mutiny.Lib.Pointwise

/- Taking computations in `Except` apart. A bind that succeeds ran its first
   half to a value and its continuation on that value (`bind_ok`); a bind that
   fails failed in one of the two (`bind_error`). `Sat P Q` says of a result that
   its value satisfies `P` or its error satisfies `Q`, and composes over binds. -/
namespace Mutiny.Lib

variable {ε α β : Type} {x : Except ε α} {f : α → Except ε β}

theorem bind_ok {b : β} : (x >>= f) = .ok b ↔ ∃ a, x = .ok a ∧ f a = .ok b := by
  cases x with
  | error e => simp [bind, Except.bind]
  | ok a => simp [bind, Except.bind]

theorem bind_error {e : ε} : (x >>= f) = .error e ↔ x = .error e ∨ ∃ a, x = .ok a ∧ f a = .error e := by
  cases x with
  | error e' => simp [bind, Except.bind]
  | ok a => simp [bind, Except.bind]

theorem ok_unique {a b : α} (h : x = .ok a) (h' : x = .ok b) : a = b := Except.ok.inj (h.symm.trans h')

theorem map_ok {f : α → β} {b : β} : x.map f = .ok b ↔ ∃ a, x = .ok a ∧ f a = b := by
  cases x with
  | error e => simp [Except.map]
  | ok a => simp [Except.map]

theorem mapError_ok {ε' : Type} {f : ε → ε'} {a : α} : x.mapError f = .ok a ↔ x = .ok a := by
  cases x with
  | error e => simp [Except.mapError]
  | ok a => simp [Except.mapError]

theorem toOption_eq_some {a : α} : x.toOption = some a ↔ x = .ok a := by
  cases x with
  | error e => simp [Except.toOption]
  | ok a => simp [Except.toOption]

theorem isOk_iff : x.isOk = true ↔ ∃ a, x = .ok a := by
  cases x with
  | error e => simp [Except.isOk, Except.toBool]
  | ok a => simp [Except.isOk, Except.toBool]

@[simp] theorem ok_bind (a : α) (f : α → Except ε β) : (Except.ok a >>= f) = f a := rfl

@[simp] theorem error_bind (e : ε) (f : α → Except ε β) : (Except.error e >>= f) = .error e := rfl

@[simp] theorem pure_eq_ok (a : α) : (pure a : Except ε α) = .ok a := rfl

@[simp] theorem throw_eq_error (e : ε) : (throw e : Except ε α) = .error e := rfl

section MapM

variable {f : α → Except ε β} {xs : List α} {ys : List β}

theorem forall₂_of_mapM (h : xs.mapM f = .ok ys) : List.Forall₂ (fun x y => f x = .ok y) xs ys := by
  induction xs generalizing ys with
  | nil =>
    cases h
    exact .nil
  | cons x xs ih =>
    rw [List.mapM_cons] at h
    obtain ⟨y, hfirst, h⟩ := bind_ok.1 h
    obtain ⟨ys', hrest, h⟩ := bind_ok.1 h
    cases h
    exact .cons hfirst (ih hrest)

theorem mem_of_mapM {y : β} (h : xs.mapM f = .ok ys) (hy : y ∈ ys) : ∃ x ∈ xs, f x = .ok y :=
  forall₂_right (forall₂_of_mapM h) hy

theorem mem_mapM {x : α} (h : xs.mapM f = .ok ys) (hx : x ∈ xs) : ∃ y ∈ ys, f x = .ok y :=
  forall₂_left (forall₂_of_mapM h) hx

end MapM

section Sums

variable {M : Type} [AddCommMonoid M] {φ : β → M} {w : α → M} {xs : List α} {b b' : β}

/-- A fold that adds at each step adds up over the list. -/
theorem foldl_sum {step : β → α → β} (hstep : ∀ b a, φ (step b a) = φ b + w a) :
    φ (xs.foldl step b) = φ b + (xs.map w).sum := by
  induction xs generalizing b with
  | nil => simp
  | cons a rest ih => rw [List.foldl_cons, ih, hstep, List.map_cons, List.sum_cons, add_assoc]

theorem foldlM_sum {step : β → α → Except ε β} (hstep : ∀ b a b', step b a = .ok b' → φ b' = φ b + w a)
    (h : xs.foldlM step b = .ok b') : φ b' = φ b + (xs.map w).sum := by
  induction xs generalizing b with
  | nil =>
    cases h
    simp
  | cons a rest ih =>
    rw [List.foldlM_cons] at h
    obtain ⟨next, hnext, h⟩ := bind_ok.1 h
    rw [ih h, hstep b a next hnext, List.map_cons, List.sum_cons, add_assoc]

end Sums

/-- A value satisfies `P`, an error satisfies `Q`. -/
def Sat (P : α → Prop) (Q : ε → Prop) : Except ε α → Prop
  | .ok a => P a
  | .error e => Q e

variable {P : α → Prop} {P' : β → Prop} {Q : ε → Prop}

theorem Sat.bind (hx : Sat P Q x) (hf : ∀ a, x = .ok a → P a → Sat P' Q (f a)) : Sat P' Q (x >>= f) := by
  cases x with
  | error e => exact hx
  | ok a => exact hf a rfl hx

theorem Sat.of_ok {a : α} (h : Sat P Q x) (hx : x = .ok a) : P a := by
  subst hx
  exact h

theorem Sat.mono {R : α → Prop} (h : Sat P Q x) (hp : ∀ a, P a → R a) : Sat R Q x := by
  cases x with
  | error e => exact h
  | ok a => exact hp a h

end Mutiny.Lib
