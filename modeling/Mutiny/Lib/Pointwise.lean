import Mathlib.Data.List.Forall2

/- Lists related element by element: composition, membership, and equal images. And folds: what one step brings
   about (`foldl_of_mem`). -/
namespace Mutiny.Lib

variable {α β γ : Type} {R : α → β → Prop}

theorem forall₂_comp {Q : β → γ → Prop} {P : α → γ → Prop} (h : ∀ a b c, R a b → Q b c → P a c) {l : List α}
    {m : List β} {n : List γ} (hr : List.Forall₂ R l m) (hq : List.Forall₂ Q m n) : List.Forall₂ P l n := by
  induction hr generalizing n with
  | nil => cases hq; exact List.Forall₂.nil
  | cons hab _ ih =>
    cases hq with
    | cons hbc hq => exact List.Forall₂.cons (h _ _ _ hab hbc) (ih hq)

theorem forall₂_left {xs : List α} {ys : List β} (h : List.Forall₂ R xs ys) {x : α} (hx : x ∈ xs) :
    ∃ y ∈ ys, R x y := by
  induction h with
  | nil => exact absurd hx List.not_mem_nil
  | cons hr _ ih =>
    rcases List.mem_cons.1 hx with rfl | hx
    · exact ⟨_, List.mem_cons_self, hr⟩
    · obtain ⟨y, hy, hxy⟩ := ih hx
      exact ⟨y, List.mem_cons_of_mem _ hy, hxy⟩

theorem forall₂_right {xs : List α} {ys : List β} (h : List.Forall₂ R xs ys) {y : β} (hy : y ∈ ys) :
    ∃ x ∈ xs, R x y := forall₂_left h.flip hy

theorem map_eq_of_forall₂ {f : α → β} {l m : List α} (h : List.Forall₂ (fun a b => f b = f a) l m) :
    m.map f = l.map f := by
  induction h with
  | nil => rfl
  | cons hab _ ih => rw [List.map_cons, List.map_cons, hab, ih]

/-- What one step of a fold brings about, and every other step keeps. -/
theorem foldl_of_mem {f : β → α → β} {P : β → Prop} {a : α} {l : List α} {s : β} (hkeep : ∀ s b, P s → P (f s b))
    (hnew : ∀ s, P (f s a)) (h : P s ∨ a ∈ l) : P (l.foldl f s) := by
  induction l generalizing s with
  | nil => simpa using h
  | cons b l ih =>
    refine ih ?_
    rcases h with h | h
    · exact Or.inl (hkeep s b h)
    · rcases List.mem_cons.1 h with rfl | h
      · exact Or.inl (hnew s)
      · exact Or.inr h

end Mutiny.Lib
