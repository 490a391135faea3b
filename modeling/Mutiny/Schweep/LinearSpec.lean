import Mutiny.Schweep.Ops
import Mutiny.Schweep.Oracle

/- What the row-by-row passes compute, as Z-sets.

   A function from rows to an optional row or an error extends linearly to data
   (`rowData`) and to live errors (`rowErrs`). The operators' pass over a delta
   (`splitEntries_spec`) and the oracle's pass over a whole relation
   (`recordEntries_spec`) are both that extension, so for filter and project the
   output delta is the operator applied to the input delta. -/
namespace Mutiny.Schweep
open Mutiny.Lib ZSet ZSetBatch
open Finsupp (single)

/-- What one row contributes to the output. -/
noncomputable def rowData (f : Row → Except PlanError (Option Row)) (row : Row) : ZSet Row :=
  match f row with
  | .ok (some out) => single out 1
  | _ => 0

/-- What one row contributes to the live errors. -/
noncomputable def rowErrs (f : Row → Except PlanError (Option Row)) (row : Row) : ZSet Row :=
  match f row with
  | .error e => single (errorRow e) 1
  | _ => 0

theorem rowData_nonneg (f : Row → Except PlanError (Option Row)) (row : Row) : 0 ≤ rowData f row := by
  unfold rowData
  split
  · exact Finsupp.single_nonneg.2 (by decide)
  · exact le_refl _

theorem rowErrs_nonneg (f : Row → Except PlanError (Option Row)) (row : Row) : 0 ≤ rowErrs f row := by
  unfold rowErrs
  split
  · exact Finsupp.single_nonneg.2 (by decide)
  · exact le_refl _

/-! Opening the small wrappers. -/

variable {inputs : List ZSetBatch} {data : ZSetBatch} {errors : Entries} {out : StepOutput}

theorem opZSet_ok {α : Type} {x : Except ZSetError α} {a : α} : opZSet x = .ok a ↔ x = .ok a := by
  cases x <;> simp [opZSet]

theorem unary_ok {op : String} {input : ZSetBatch} (h : unary op inputs = .ok input) : inputs = [input] := by
  unfold unary at h
  split at h
  · cases h; rfl
  · cases h

theorem StepOutput.new_ok (h : StepOutput.new data errors = .ok out) :
    out.data = data ∧ out.errors.schema = errorSchema ∧ out.errors.denote = ofEntries errors := by
  unfold StepOutput.new at h
  obtain ⟨b, hb, h⟩ := bind_ok.1 h
  cases h
  obtain ⟨hs, he⟩ := fromEntries_ok (opZSet_ok.1 hb)
  exact ⟨rfl, hs, by rw [denote, he]⟩

theorem StepOutput.infallible_ok (h : StepOutput.infallible data = .ok out) :
    out.data = data ∧ out.errors.schema = errorSchema ∧ out.errors.denote = 0 := by
  cases h
  exact ⟨rfl, rfl, rfl⟩

/-! The pass over a delta. -/

variable {f : Row → Except PlanError (Option Row)} {l kept : Entries}

theorem splitEntries_spec (h : splitEntries f l = .ok (kept, errors)) :
    ofEntries kept = lin (rowData f) (ofEntries l) ∧
      ofEntries errors = lin (rowErrs f) (ofEntries l) := by
  induction l generalizing kept errors with
  | nil => cases h; simp
  | cons e rest ih =>
    obtain ⟨row, w⟩ := e
    rw [ofEntries_cons, map_add, map_add, lin_single, lin_single]
    unfold splitEntries at h
    split at h
    · next hf =>
      obtain ⟨hd, he⟩ := ih h
      simp [rowData, rowErrs, hf, hd, he]
    · next out hf =>
      obtain ⟨⟨k, es⟩, hr, h⟩ := bind_ok.1 h
      cases h
      obtain ⟨hd, he⟩ := ih hr
      simp [rowData, rowErrs, hf, hd, he]
    · next e hf =>
      split at h
      · obtain ⟨⟨k, es⟩, hr, h⟩ := bind_ok.1 h
        cases h
        obtain ⟨hd, he⟩ := ih hr
        simp [rowData, rowErrs, hf, hd, he]
      · cases h

/-- A filter's step: the linear extension of its row function, on one input. -/
theorem Filter.step_spec {f : Filter} (h : f.step inputs = .ok out) :
    ∃ input, inputs = [input] ∧ out.data.schema = f.inputSchema ∧ out.errors.schema = errorSchema ∧
      out.data.denote = lin (rowData (filterRow f.inputSchema f.predicate)) input.denote ∧
      out.errors.denote = lin (rowErrs (filterRow f.inputSchema f.predicate)) input.denote := by
  unfold Filter.step at h
  obtain ⟨input, hi, h⟩ := bind_ok.1 h
  obtain ⟨_, _, h⟩ := bind_ok.1 h
  obtain ⟨⟨kept, errors⟩, hsplit, h⟩ := bind_ok.1 h
  obtain ⟨data, hdata, h⟩ := bind_ok.1 h
  obtain ⟨hds, hde⟩ := fromEntries_ok (opZSet_ok.1 hdata)
  obtain ⟨hd, hes, he⟩ := StepOutput.new_ok h
  obtain ⟨hk, hr⟩ := splitEntries_spec hsplit
  refine ⟨input, unary_ok hi, hd ▸ hds, hes, ?_, he.trans hr⟩
  rw [hd, denote, hde]
  exact hk

theorem Project.step_spec {p : Project} (h : p.step inputs = .ok out) :
    ∃ input, inputs = [input] ∧ out.data.schema = p.outputSchema ∧ out.errors.schema = errorSchema ∧
      out.data.denote = lin (rowData (projectRow p.inputSchema p.items)) input.denote ∧
      out.errors.denote = lin (rowErrs (projectRow p.inputSchema p.items)) input.denote := by
  unfold Project.step at h
  obtain ⟨input, hi, h⟩ := bind_ok.1 h
  obtain ⟨_, _, h⟩ := bind_ok.1 h
  obtain ⟨⟨projected, errors⟩, hsplit, h⟩ := bind_ok.1 h
  obtain ⟨batch, hbatch, h⟩ := bind_ok.1 h
  obtain ⟨data, hdata, h⟩ := bind_ok.1 h
  obtain ⟨hbs, hbe⟩ := fromEntries_ok (opZSet_ok.1 hbatch)
  obtain ⟨hcs, _, hcd⟩ := consolidate_spec (opZSet_ok.1 hdata)
  obtain ⟨hd, hes, he⟩ := StepOutput.new_ok h
  obtain ⟨hk, hr⟩ := splitEntries_spec hsplit
  refine ⟨input, unary_ok hi, hd ▸ hcs.trans hbs, hes, ?_, he.trans hr⟩
  rw [hd, hcd, denote, hbe]
  exact hk

/-! The pass over a whole relation. -/

variable {live live' : LiveErrors}

/-- The live errors recorded so far: each under its own message, and each a fact
    about the data. -/
def LiveErrors.Valid (live : LiveErrors) : Prop :=
  ∀ (m : String) (e : PlanError), live[m]? = some e → e.message = m ∧ e.isEvaluationError = true

theorem LiveErrors.valid_empty : LiveErrors.Valid ∅ := by
  intro m e h
  simp at h

theorem LiveErrors.record_spec {e : PlanError} (h : live.record e = .ok live') :
    (live.Valid → live'.Valid) ∧ ∀ m, m ∈ live' ↔ m ∈ live ∨ e.message = m := by
  unfold LiveErrors.record at h
  split at h
  · next he =>
    cases h
    refine ⟨fun hv m e' hm => ?_, fun m => ?_⟩
    · rw [Std.ExtTreeMap.getElem?_insert] at hm
      split at hm
      · next hc => cases hm; exact ⟨by simpa using hc, he⟩
      · exact hv m e' hm
    · rw [Std.ExtTreeMap.mem_insert]
      simp [or_comm]
  · cases h

theorem recordEntries_spec (h : recordEntries f live l = .ok (kept, live')) :
    ofEntries kept = lin (rowData f) (ofEntries l) ∧
      (∀ e ∈ kept, ∃ e' ∈ l, f e'.1 = .ok (some e.1) ∧ e'.2 = e.2) ∧
      (live.Valid → live'.Valid) ∧
      ∀ m, m ∈ live' ↔ m ∈ live ∨ ∃ e ∈ l, ∃ err, f e.1 = .error err ∧ err.message = m := by
  induction l generalizing kept live with
  | nil => cases h; simp
  | cons e rest ih =>
    obtain ⟨row, w⟩ := e
    rw [ofEntries_cons, map_add, lin_single]
    unfold recordEntries at h
    split at h
    · next hf =>
      obtain ⟨hd, hk, hv, hm⟩ := ih h
      refine ⟨by simp [rowData, hf, hd], fun x hx => ?_, hv, fun m => ?_⟩
      · obtain ⟨y, hy, hyx⟩ := hk x hx
        exact ⟨y, List.mem_cons_of_mem _ hy, hyx⟩
      · simp [hm, hf]
    · next out hf =>
      obtain ⟨⟨k, live1⟩, hr, h⟩ := bind_ok.1 h
      cases h
      obtain ⟨hd, hk, hv, hm⟩ := ih hr
      refine ⟨by simp [rowData, hf, hd], fun x hx => ?_, hv, fun m => ?_⟩
      · rcases List.mem_cons.1 hx with rfl | hx
        · exact ⟨(row, w), List.mem_cons_self, hf, rfl⟩
        · obtain ⟨y, hy, hyx⟩ := hk x hx
          exact ⟨y, List.mem_cons_of_mem _ hy, hyx⟩
      · simp [hm, hf]
    · next err hf =>
      obtain ⟨live1, hrec, h⟩ := bind_ok.1 h
      obtain ⟨hv1, hm1⟩ := LiveErrors.record_spec hrec
      obtain ⟨hd, hk, hv, hm⟩ := ih h
      refine ⟨by simp [rowData, hf, hd], fun x hx => ?_, fun hl => hv (hv1 hl), fun m => ?_⟩
      · obtain ⟨y, hy, hyx⟩ := hk x hx
        exact ⟨y, List.mem_cons_of_mem _ hy, hyx⟩
      · simp [hm, hm1, hf, or_assoc]

end Mutiny.Schweep
