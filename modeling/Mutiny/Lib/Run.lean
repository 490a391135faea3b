import Mathlib.Logic.Basic

/- Runs of a machine.

   A machine is a step function of a state and an event, a run the fold of it over
   a list of events. A condition on a run is asked of each event in the state it
   finds (`Along`), and what one step keeps, a run keeps. Two things can help a
   step: what its event meets, and what the end of the run meets, if that goes
   back over steps (`Along.keeps_below`), such as that no two of all the things
   hashed so far collide. -/
namespace Mutiny.Lib
open List

variable {σ τ ε : Type}

/-- Each event of a run meets a condition in the state it finds. -/
def Along (step : σ → ε → σ) (ok : σ → ε → Prop) : σ → List ε → Prop
  | _, [] => True
  | s, e :: es => ok s e ∧ Along step ok (step s e) es

variable {step : σ → ε → σ} {ok ok' : σ → ε → Prop} {s : σ} {es : List ε} {I F : σ → Prop}

instance decidableAlong [∀ s e, Decidable (ok s e)] : ∀ s es, Decidable (Along step ok s es)
  | _, [] => isTrue trivial
  | s, e :: es => @instDecidableAnd _ _ _ (decidableAlong (step s e) es)

theorem along_append {later : List ε} :
    Along step ok s (es ++ later) ↔ Along step ok s es ∧ Along step ok (es.foldl step s) later := by
  induction es generalizing s with
  | nil => simp [Along]
  | cons e es ih => simp only [cons_append, Along, ih, foldl_cons, and_assoc]

theorem along_of_forall (h : ∀ e ∈ es, ∀ s, ok s e) : Along step ok s es := by
  induction es generalizing s with
  | nil => trivial
  | cons e es ih =>
    obtain ⟨he, hes⟩ := forall_mem_cons.1 h
    exact ⟨he s, ih hes⟩

/-- A condition that an invariant gives at each step. -/
theorem Along.imp (h : Along step ok s es) (hs : I s) (hstep : ∀ s e, ok s e → I s → ok' s e ∧ I (step s e)) :
    Along step ok' s es := by
  induction es generalizing s with
  | nil => trivial
  | cons e es ih =>
    obtain ⟨he, hnext⟩ := hstep s e h.1 hs
    exact ⟨he, ih h.2 hnext⟩

theorem Along.and (h : Along step ok s es) (h' : Along step ok' s es) : Along step (fun s e => ok s e ∧ ok' s e) s es := by
  induction es generalizing s with
  | nil => trivial
  | cons e es ih => exact ⟨⟨h.1, h'.1⟩, ih h.2 h'.2⟩

theorem Along.mem (h : Along step ok s es) : Along step (fun s e => ok s e ∧ e ∈ es) s es :=
  h.and (along_of_forall (fun _ he _ => he))

/-- What goes back over a step goes back over a run. -/
theorem foldl_back (hback : ∀ s e, F (step s e) → F s) (h : F (es.foldl step s)) : F s := by
  induction es generalizing s with
  | nil => exact h
  | cons e es ih => exact hback s e (ih h)

/-- Simulation: two machines that take the same events stay related. -/
theorem Along.simulates {step' : τ → ε → τ} {R : σ → τ → Prop} {t : τ} (h : Along step ok s es) (hR : R s t)
    (hback : ∀ s e, F (step s e) → F s) (hend : F (es.foldl step s))
    (hstep : ∀ s t e, ok s e → F (step s e) → R s t → R (step s e) (step' t e)) :
    R (es.foldl step s) (es.foldl step' t) := by
  induction es generalizing s t with
  | nil => exact hR
  | cons e es ih => exact ih h.2 (hstep s t e h.1 (foldl_back hback hend) hR) hend

theorem Along.keeps_below (h : Along step ok s es) (hs : I s) (hback : ∀ s e, F (step s e) → F s)
    (hend : F (es.foldl step s)) (hstep : ∀ s e, ok s e → F (step s e) → I s → I (step s e)) : I (es.foldl step s) := by
  induction es generalizing s with
  | nil => exact hs
  | cons e es ih => exact ih h.2 (hstep s e h.1 (foldl_back hback hend) hs) hend

theorem Along.keeps (h : Along step ok s es) (hs : I s) (hstep : ∀ s e, ok s e → I s → I (step s e)) :
    I (es.foldl step s) :=
  h.keeps_below (F := fun _ => True) hs (fun _ _ _ => trivial) trivial (fun s e hok _ => hstep s e hok)

end Mutiny.Lib
