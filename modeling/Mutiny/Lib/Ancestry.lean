import Mathlib

/- Histories with any number of parents.

   A history is a function from a version to its parents. `Anc` is ancestry,
   every version its own ancestor. A history is `Ranked` when parents come before
   their children. Then every common ancestor of two versions is an ancestor of a
   lowest one, so that two versions with one lowest common ancestor share exactly
   its history (`common_iff_of_unique`), and a sum over the ancestors of both is
   the sum over those of each, less the sum over those of the lowest
   (`sum_union_of_unique`). `Extends` is a history with one more version, which
   changes nobody else's ancestors, `Denser` one with more edges, which changes
   nobody's. -/
namespace Mutiny.Lib

variable {α : Type} {parents parents' : α → List α} {a b c : α}

/-- `b` is an ancestor of `a`. -/
def Anc (parents : α → List α) (a b : α) : Prop := Relation.ReflTransGen (fun x y => y ∈ parents x) a b

theorem Anc.refl (parents : α → List α) (a : α) : Anc parents a a := Relation.ReflTransGen.refl

theorem Anc.trans (h : Anc parents a b) (h' : Anc parents b c) : Anc parents a c := Relation.ReflTransGen.trans h h'

theorem Anc.of_parent (h : b ∈ parents a) : Anc parents a b := Relation.ReflTransGen.single h

theorem anc_iff : Anc parents a b ↔ a = b ∨ ∃ p ∈ parents a, Anc parents p b := by
  constructor
  · intro h
    rcases Relation.ReflTransGen.cases_head h with rfl | ⟨p, hp, hrest⟩
    · exact .inl rfl
    · exact .inr ⟨p, hp, hrest⟩
  · rintro (rfl | ⟨p, hp, hrest⟩)
    · exact .refl parents a
    · exact (Anc.of_parent hp).trans hrest

theorem Anc.mem_of_closed {s : α → Prop} (hclosed : ∀ x, s x → ∀ p ∈ parents x, s p) (h : Anc parents a b) (ha : s a) :
    s b := by
  induction h with
  | refl => exact ha
  | tail _ hstep ih => exact hclosed _ ih _ hstep

/-! Ranks. -/

/-- Parents come before their children. -/
def Ranked (parents : α → List α) : Prop := ∃ rank : α → Nat, ∀ x, ∀ p ∈ parents x, rank p < rank x

theorem Anc.rank_le {rank : α → Nat} (hrank : ∀ x, ∀ p ∈ parents x, rank p < rank x) (h : Anc parents a b) :
    rank b ≤ rank a := by
  induction h with
  | refl => exact le_rfl
  | tail _ hstep ih => exact (hrank _ _ hstep).le.trans ih

theorem Anc.eq_or_rank_lt {rank : α → Nat} (hrank : ∀ x, ∀ p ∈ parents x, rank p < rank x) (h : Anc parents a b) :
    a = b ∨ rank b < rank a := by
  rcases anc_iff.1 h with heq | ⟨p, hp, hrest⟩
  · exact .inl heq
  · exact .inr ((hrest.rank_le hrank).trans_lt (hrank a p hp))

/-- A common ancestor no other common ancestor descends from. -/
def Lowest (parents : α → List α) (s t b : α) : Prop :=
  (Anc parents s b ∧ Anc parents t b) ∧ ∀ c, Anc parents s c → Anc parents t c → Anc parents c b → c = b

theorem exists_lowest (hranked : Ranked parents) {s t x : α} (hs : Anc parents s x) (ht : Anc parents t x) :
    ∃ b, Lowest parents s t b ∧ Anc parents b x := by
  obtain ⟨rank, hrank⟩ := hranked
  -- climb from `x`: a version that is not lowest has one of higher rank above it, and no rank exceeds that of `s`
  induction hgap : rank s - rank x using Nat.strong_induction_on generalizing x with
  | _ n ih =>
    by_cases hlow : ∀ c, Anc parents s c → Anc parents t c → Anc parents c x → c = x
    · exact ⟨x, ⟨⟨hs, ht⟩, hlow⟩, .refl parents x⟩
    · push Not at hlow
      obtain ⟨c, hsc, htc, hcx, hne⟩ := hlow
      have hlt := (hcx.eq_or_rank_lt hrank).resolve_left hne
      have hle := hsc.rank_le hrank
      obtain ⟨b, hb, hbc⟩ := ih (rank s - rank c) (by omega) hsc htc rfl
      exact ⟨b, hb, hbc.trans hcx⟩

/-- Two versions with one lowest common ancestor share its history. -/
theorem common_iff_of_unique (hranked : Ranked parents) {s t b : α} (hb : Lowest parents s t b)
    (hunique : ∀ c, Lowest parents s t c → c = b) (x : α) :
    Anc parents s x ∧ Anc parents t x ↔ Anc parents b x := by
  constructor
  · rintro ⟨hs, ht⟩
    obtain ⟨c, hc, hcx⟩ := exists_lowest hranked hs ht
    rw [← hunique c hc]
    exact hcx
  · intro hx
    exact ⟨hb.1.1.trans hx, hb.1.2.trans hx⟩

theorem sum_union_of_unique [DecidableEq α] (hranked : Ranked parents) {s t b : α} (hb : Lowest parents s t b)
    (hunique : ∀ c, Lowest parents s t c → c = b) {ancs anct ancb : Finset α} (hs : ∀ x, x ∈ ancs ↔ Anc parents s x)
    (ht : ∀ x, x ∈ anct ↔ Anc parents t x) (hbx : ∀ x, x ∈ ancb ↔ Anc parents b x) (f : α → Int) :
    ∑ x ∈ ancs ∪ anct, f x = ∑ x ∈ ancs, f x + ∑ x ∈ anct, f x - ∑ x ∈ ancb, f x := by
  have hinter : ancs ∩ anct = ancb := by
    ext x
    rw [Finset.mem_inter, hs, ht, hbx, common_iff_of_unique hranked hb hunique]
  have hsum : ∑ x ∈ ancs ∪ anct, f x + ∑ x ∈ ancs ∩ anct, f x = ∑ x ∈ ancs, f x + ∑ x ∈ anct, f x :=
    Finset.sum_union_inter
  rw [hinter] at hsum
  omega

/-! One more version. -/

/-- `parents'` is `parents` with one more version, which was nobody's parent. -/
structure Extends (parents parents' : α → List α) (known : α → Prop) (new : α) : Prop where
  fresh : ¬ known new
  same : ∀ x, x ≠ new → parents' x = parents x
  closed : ∀ x, ∀ p ∈ parents x, known p
  born : ∀ p ∈ parents' new, known p

variable {known : α → Prop} {new : α}

theorem Extends.anc_old (h : Extends parents parents' known new) (ha : known a) :
    Anc parents' a b ↔ Anc parents a b := by
  have hne : ∀ x, known x → x ≠ new := fun x hx heq => h.fresh (heq ▸ hx)
  constructor
  · intro hanc
    induction hanc with
    | refl => exact .refl parents a
    | tail _ hstep ih =>
      have hx := ih.mem_of_closed (fun x _ => h.closed x) ha
      rw [h.same _ (hne _ hx)] at hstep
      exact ih.trans (.of_parent hstep)
  · intro hanc
    induction hanc with
    | refl => exact .refl parents' a
    | tail hxy hstep ih =>
      have hx := Anc.mem_of_closed (fun x _ => h.closed x) hxy ha
      exact ih.trans (.of_parent (by rwa [h.same _ (hne _ hx)]))

theorem Extends.anc_new (h : Extends parents parents' known new) :
    Anc parents' new b ↔ new = b ∨ ∃ p ∈ parents' new, Anc parents p b := by
  rw [anc_iff]
  refine or_congr_right (exists_congr (fun p => and_congr_right (fun hp => ?_)))
  exact h.anc_old (h.born p hp)

theorem Extends.ranked [DecidableEq α] (h : Extends parents parents' known new) (hranked : Ranked parents) :
    Ranked parents' := by
  obtain ⟨rank, hrank⟩ := hranked
  refine ⟨fun x => if x = new then ((parents' new).map rank).sum + 1 else rank x, ?_⟩
  intro x p hp
  by_cases hx : x = new
  · subst hx
    have hne : p ≠ x := fun heq => h.fresh (heq ▸ h.born p hp)
    simp only [hne, if_false, if_true]
    exact Nat.lt_succ_of_le (List.single_le_sum (by simp) _ (List.mem_map_of_mem hp))
  · rw [h.same x hx] at hp
    have hne : p ≠ new := fun heq => h.fresh (heq ▸ h.closed x p hp)
    simp only [hne, hx, if_false]
    exact hrank x p hp

/-! More edges. -/

/-- `parents'` is `parents` with more edges, each to a version that was an ancestor already. -/
structure Denser (parents parents' : α → List α) : Prop where
  kept : ∀ x, ∀ p ∈ parents x, p ∈ parents' x
  added : ∀ x, ∀ p ∈ parents' x, p ∈ parents x ∨ Anc parents x p ∧ x ≠ p

theorem Denser.anc (h : Denser parents parents') : Anc parents' b c ↔ Anc parents b c := by
  constructor
  · intro hanc
    induction hanc with
    | refl => exact .refl parents b
    | tail _ hstep ih =>
      rcases h.added _ _ hstep with hold | ⟨hold, -⟩
      · exact ih.trans (.of_parent hold)
      · exact ih.trans hold
  · intro hanc
    induction hanc with
    | refl => exact .refl parents' b
    | tail _ hstep ih => exact ih.trans (.of_parent (h.kept _ _ hstep))

theorem Denser.ranked (h : Denser parents parents') (hranked : Ranked parents) : Ranked parents' := by
  obtain ⟨rank, hrank⟩ := hranked
  refine ⟨rank, fun x p hp => ?_⟩
  rcases h.added x p hp with hold | ⟨hanc, hne⟩
  · exact hrank x p hold
  · exact (hanc.eq_or_rank_lt hrank).resolve_left hne

end Mutiny.Lib
