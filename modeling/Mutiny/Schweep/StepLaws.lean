import Mutiny.Schweep.BuildSpec

/- Laws of single operators.

   An aggregate collects an epoch's change with plain additions before the checked
   write sees it. What it stores is exact just when every sum of the batch is a
   number an `i64` holds (`step_exact_iff`): in a build without overflow checks a
   sum beyond that wraps, and nothing reports it. With overflow checks the sums on
   the way count too, and one that goes over panics.

   A join's indexes are the integrals of its two inputs, and what it has emitted
   is the join of the integrals (`Join.run_bilinear`), whatever the signs of the weights. -/
namespace Mutiny.Schweep
open Mutiny.Lib ZSet MemBackend List
open Finsupp (single)

/-! Samples. -/

def oneInt (name : String) : Schema := ⟨[⟨name, .int64, true⟩], by simp, by simp⟩

def nulls (name : String) (weights : List I64) : ZSetBatch :=
  ⟨oneInt name, weights.map ([.null], ·), fun e he => by
    obtain ⟨w, -, rfl⟩ := List.mem_map.1 he
    exact .cons rfl .nil⟩

namespace Aggregate

variable {a : Aggregate} {d : AggDelta}

/-! Weights of one batch. -/

theorem nodup_stateBatch (hd : a.Grouped d) (hslots : a.aggregates.length < 2 ^ 63) :
    ((a.stateBatch d true).map Prod.fst).Nodup := by
  have hkeys : (a.stateBatch d true).map Prod.fst =
      (d.totals.toList.map Prod.fst).map totalKey ++ (d.values.toList.map Prod.fst).map slotKey := by
    simp only [stateBatch, Bool.not_true, Bool.and_false, Bool.false_eq_true, if_false, append_nil,
      map_append, map_map]
    rfl
  rw [hkeys]
  have hslot : ∀ k ∈ d.values.toList.map Prod.fst, (ofLex k).1 < 2 ^ 63 := by
    intro k hk
    obtain ⟨e, he, rfl⟩ := mem_map.1 hk
    exact (hd.slots e.1 (SortedMap.mem_of_mem_toList he)).trans hslots
  refine ((SortedMap.nodup_toList _).map totalKey_injective).append
    ((SortedMap.nodup_toList _).map_on fun x hx y hy hxy => ?_) fun k ht hv => ?_
  · obtain ⟨h1, h2, h3⟩ := (valueKey_eq_iff (hslot x hx) (hslot y hy)).1 hxy
    exact ofLex.injective (Prod.ext h1 (ofLex.injective (Prod.ext h2 h3)))
  · obtain ⟨g, -, rfl⟩ := mem_map.1 ht
    obtain ⟨x, -, hx⟩ := mem_map.1 hv
    simp [slotKey, valueKey, valuesPrefix, totalKey] at hx

theorem deltaState_of_mem (hd : a.Grouped d) (hslots : a.aggregates.length < 2 ^ 63) {e : Key × I64}
    (he : e ∈ a.stateBatch d true) : deltaState d e.1 = e.2.val := by
  have hbatch : deltaState d = ofEntries (a.stateBatch d true) := by simp [ofEntries_stateBatch]
  rw [hbatch, ofEntries_apply_of_mem (nodup_stateBatch hd hslots) he]

theorem deltaState_inI64 (hd : a.Grouped d) (hslots : a.aggregates.length < 2 ^ 63) (k : Key) :
    InI64 (deltaState d k) := by
  by_cases hk : ∃ e ∈ a.stateBatch d true, e.1 = k
  · obtain ⟨e, he, rfl⟩ := hk
    rw [deltaState_of_mem hd hslots he]
    exact e.2.property
  · have hbatch : deltaState d = ofEntries (a.stateBatch d true) := by simp [ofEntries_stateBatch]
    rw [hbatch, ofEntries_apply_eq_zero (fun e he hek => hk ⟨e, he, hek⟩)]
    decide

/-! Where a step panics. -/

variable {build : Build} {schema : Schema} {row : Row} {w : I64} {group : List Value} {slot : Nat}
  {aggs : List (Named AggFunc)} {l : Entries}

/-- Fails, if at all, with an error the source has. -/
abbrev Reports {α : Type} : Except OpError α → Prop := Sat (fun _ => True) (· ≠ .addOverflowPanic)

theorem Reports.ne {α : Type} {x : Except OpError α} (h : Reports x) : x ≠ .error .addOverflowPanic := by
  rintro rfl
  exact h rfl

theorem Reports.cases {α : Type} {x : Except OpError α} (h : Reports x) :
    (∃ e, x = .error e ∧ e ≠ .addOverflowPanic) ∨ ∃ a, x = .ok a := by
  cases x with
  | error e => exact Or.inl ⟨e, rfl, h⟩
  | ok a => exact Or.inr ⟨a, rfl⟩

theorem reports_overflow {α : Type} (func : AggFunc) (x : Option α) : Reports (overflow func x) := by
  cases x with
  | none => simp [overflow, Sat]
  | some a => trivial

theorem reports_visitValue (func : AggFunc) (n : Nat) (acc : FoldAcc) (key : Key) (w : I64) :
    Reports (visitValue func n acc key w) := by
  unfold visitValue
  repeat' split
  all_goals first
    | exact (reports_overflow _ _).bind fun _ _ _ => trivial
    | exact (reports_overflow _ _).bind fun _ _ _ => (reports_overflow _ _).bind fun _ _ _ =>
        (reports_overflow _ _).bind fun _ _ _ => trivial
    | simp [Sat]

theorem reports_visit (func : AggFunc) (n : Nat) (acc : FoldAcc) (l : List (Key × I64)) : Reports (visit func n acc l) := by
  induction l generalizing acc with
  | nil => trivial
  | cons e l ih =>
    refine (reports_visitValue func n acc e.1 e.2).bind fun r _ _ => ?_
    dsimp only
    split
    · exact ih _
    · trivial

theorem reports_fold (a : Aggregate) (slot : Nat) (g : List Value) (func : AggFunc) : Reports (a.fold slot g func) := by
  unfold fold
  split
  · trivial
  · refine (reports_visit _ _ _ _).bind fun acc _ _ => ?_
    repeat' split
    all_goals first
      | trivial
      | exact (reports_overflow _ _).bind fun _ _ _ => trivial

theorem reports_foldAll (a : Aggregate) (g : List Value) (slot : Nat) (aggs : List (Named AggFunc)) :
    Reports (a.foldAll g slot aggs) := by
  induction aggs generalizing slot with
  | nil => trivial
  | cons agg aggs ih => exact (reports_fold _ _ _ _).bind fun _ _ _ => (ih _).bind fun _ _ _ => trivial

theorem reports_emission (a : Aggregate) (g : List Value) (b : Bool) : Reports (a.emission g b) := by
  have hfold := reports_foldAll a g 0 a.aggregates
  unfold emission
  generalize a.foldAll g 0 a.aggregates = values at hfold ⊢
  repeat' split
  all_goals trivial

theorem reports_emissions (a : Aggregate) (b : Bool) (gs : List (List Value)) : Reports (a.emissions b gs) := by
  induction gs with
  | nil => trivial
  | cons g gs ih => exact (reports_emission _ _ _).bind fun _ _ _ => ih.bind fun _ _ _ => trivial

theorem reports_changes (a : Aggregate) (l : List (List Value × Emission)) : Reports (a.changes l) := by
  induction l with
  | nil => trivial
  | cons e l ih =>
    refine (reports_emission _ _ _).bind fun now _ _ => ih.bind fun r _ _ => ?_
    dsimp only
    split <;> trivial

theorem reports_opZSet {α : Type} (x : Except ZSetError α) : Reports (opZSet x) := by
  cases x with
  | error e => simp [opZSet, Sat]
  | ok a => trivial

theorem reports_finish (a : Aggregate) (out errors : Entries) : Reports (a.finish out errors) :=
  (reports_opZSet _).bind fun _ _ _ => (reports_opZSet _).bind fun _ _ _ => (reports_opZSet _).bind fun _ _ _ => trivial

/-- A step that does not report an error has collected its input, or panicked over it. -/
theorem step_collects (a : Aggregate) (build : Build) (inputs : List ZSetBatch) :
    (∃ e, (a.step build inputs).1 = .error e ∧ e ≠ .addOverflowPanic) ∨
      ∃ input, inputs = [input] ∧
        ((a.step build inputs).1 = .error .addOverflowPanic ∧
            a.collect build ⟨[], ∅, ∅⟩ input.entries = .error .addOverflowPanic ∨
          ∃ out d, (a.step build inputs).1 = .ok out ∧ a.collect build ⟨[], ∅, ∅⟩ input.entries = .ok d) := by
  unfold step
  split
  · next e hprep =>
    by_cases he : e = .addOverflowPanic
    · subst he
      refine Or.inr ?_
      rcases bind_error.1 hprep with h | ⟨input, hin, h⟩
      · unfold unary at h
        split at h <;> cases h
      rcases bind_error.1 h with h | ⟨_, -, h⟩
      · unfold checkSchema at h
        split at h <;> cases h
      rcases bind_error.1 h with h | ⟨d, -, h⟩
      · exact ⟨input, unary_ok hin, Or.inl ⟨rfl, h⟩⟩
      rcases bind_error.1 h with h | ⟨before, -, h⟩
      · exact absurd h (reports_emissions _ _ _).ne
      · cases h
    · exact Or.inl ⟨e, rfl, he⟩
  · next d before hprep =>
    obtain ⟨input, hin, h⟩ := bind_ok.1 hprep
    obtain ⟨_, -, h⟩ := bind_ok.1 h
    obtain ⟨d, hd, -⟩ := bind_ok.1 h
    split
    · exact Or.inl ⟨_, rfl, by simp⟩
    · refine Reports.cases ?_ |>.imp_right fun ⟨out, hout⟩ => ⟨input, unary_ok hin, Or.inr ⟨out, d, hout, hd⟩⟩
      exact (reports_changes _ _).bind fun _ _ _ => reports_finish _ _ _

/-- What can go over: the sums of the batch, and with overflow checks the sums on the
    way to them. -/
def WeightsFit (a : Aggregate) (build : Build) (entries : Entries) : Prop :=
  match build with
  | .wrapping => ∀ k, InI64 (lin a.rowState (ofEntries entries) k)
  | .checked => ∀ front, front <+: entries → ∀ k, InI64 (lin a.rowState (ofEntries front) k)

theorem collect_append (a : Aggregate) (d : AggDelta) (l l' : Entries) :
    a.collect build d (l ++ l') = a.collect build d l >>= fun d => a.collect build d l' := by
  induction l generalizing d with
  | nil => rfl
  | cons e l ih =>
    simp only [cons_append, collect]
    split
    · split
      · exact ih _
      · rfl
    · simp only [ih, bind_assoc]

/-- A sum that starts from nothing is the weight itself: the key that panics is there. -/
theorem addPlain_panics {α : Type} [LinearOrder α] {m : WeightMap α} {k : α} {e : OpError}
    (h : addPlain build m k w = .error e) :
    build = .checked ∧ ∃ x, (k, x) ∈ m.toList ∧ ¬ InI64 (x.val + w.val) := by
  unfold addPlain at h
  split at h
  · next hnone =>
    cases build with
    | wrapping => cases hnone
    | checked =>
      have hsum : ¬ InI64 ((m.weight k).val + w.val) := fun hin =>
        nomatch hnone.symm.trans (I64.checkedAdd_eq_some.2 (show (⟨_, hin⟩ : I64).val = _ from rfl))
      refine ⟨rfl, m.weight k, SortedMap.mem_toList.2 ?_, hsum⟩
      rw [WeightMap.weight_eq] at hsum ⊢
      cases hget : m[k]? with
      | some x => rfl
      | none =>
        rw [hget] at hsum
        exact absurd (by simpa using w.property) hsum
  · cases h

theorem collectSlots_panics (h : collectSlots build schema row w group slot d aggs = .error .addOverflowPanic) :
    build = .checked ∧ ∃ i agg v x, aggs[i]? = some agg ∧ slotInput schema row agg.value = .ok (some v) ∧
      (toLex (slot + i, toLex (group, v)), x) ∈ d.values.toList ∧ ¬ InI64 (x.val + w.val) := by
  induction aggs generalizing slot d with
  | nil => cases h
  | cons agg aggs ih =>
    -- this slot's value does not touch the entries of a later one
    have hlater : ∀ d' : AggDelta, (∀ i v x, (toLex (slot + 1 + i, toLex (group, v)), x) ∈ d'.values.toList →
          (toLex (slot + 1 + i, toLex (group, v)), x) ∈ d.values.toList) →
        collectSlots build schema row w group (slot + 1) d' aggs = .error .addOverflowPanic → build = .checked ∧
          ∃ i agg' v x, (agg :: aggs)[i]? = some agg' ∧ slotInput schema row agg'.value = .ok (some v) ∧
            (toLex (slot + i, toLex (group, v)), x) ∈ d.values.toList ∧ ¬ InI64 (x.val + w.val) := by
      intro d' hsame hrest
      obtain ⟨hbuild, i, agg', v, x, hget, hin, hmem, hsum⟩ := ih hrest
      have hmem := hsame i v x hmem
      rw [show slot + 1 + i = slot + (i + 1) by omega] at hmem
      exact ⟨hbuild, i + 1, agg', v, x, hget, hin, hmem, hsum⟩
    unfold collectSlots at h
    split at h
    · exact hlater d (fun _ _ _ => id) h
    · next argument harg =>
      split at h
      · exact hlater d (fun _ _ _ => id) h
      · next value hnull hvalue =>
        rcases bind_error.1 h with hadd | ⟨values, hadd, hrest⟩
        · obtain ⟨hbuild, x, hmem, hsum⟩ := addPlain_panics hadd
          refine ⟨hbuild, 0, agg, value, x, rfl, ?_, hmem, hsum⟩
          cases value <;> simp_all [slotInput, Value.isNull]
        · refine hlater _ (fun i v x hmem => ?_) hrest
          unfold addPlain at hadd
          split at hadd
          · cases hadd
          · cases hadd
            rw [SortedMap.mem_toList, SortedMap.getElem?_insert, if_neg] at hmem
            · exact SortedMap.mem_toList.2 hmem
            · intro heq
              have := congrArg (fun k => (ofLex k).1) heq
              simp at this
              omega
      · split at h
        · refine hlater _ ?_ h
          exact fun _ _ _ => id
        · cases h

theorem collect_row_panics (hd : a.Grouped d) (hslots : a.aggregates.length < 2 ^ 63)
    (h : a.collect build d [(row, w)] = .error .addOverflowPanic) :
    build = .checked ∧ ∃ k, ¬ InI64 (deltaState d k + w.val • a.rowState row k) := by
  unfold collect at h
  split at h
  · split at h <;> cases h
  · next group hgroup =>
    simp only [rowState, hgroup]
    rcases bind_error.1 h with hadd | ⟨totals, -, h⟩
    · obtain ⟨hbuild, x, hmem, hsum⟩ := addPlain_panics hadd
      refine ⟨hbuild, totalKey group, ?_⟩
      have hx : deltaState d (totalKey group) = x.val :=
        deltaState_of_mem hd hslots (mem_append_left _ (mem_append_left _ (mem_map_of_mem hmem)))
      simpa [hx, slotState_totalKey] using hsum
    · rcases bind_error.1 h with hslot | ⟨d', -, h⟩
      · obtain ⟨hbuild, i, agg, v, x, hget, hin, hmem, hsum⟩ := collectSlots_panics hslot
        refine ⟨hbuild, valueKey i group v, ?_⟩
        rw [Nat.zero_add] at hmem
        have hx : deltaState d (valueKey i group v) = x.val :=
          deltaState_of_mem hd hslots (mem_append_left _ (mem_append_right _ (mem_map_of_mem hmem)))
        have hone : slotState a.inputSchema row group 0 a.aggregates (valueKey i group v) = 1 := by
          have := slotState_valueKey a.inputSchema row group v hget (by omega : 0 + a.aggregates.length < 2 ^ 63)
          rw [Nat.zero_add] at this
          rw [this, rowInput, hin]
          simp
        have hne : valueKey i group v ≠ totalKey group := fun h => absurd (List.cons.inj h).1 (by simp)
        simpa [hx, hone, hne] using hsum
      · cases h

theorem collect_panics (hd : a.Grouped d) (hslots : a.aggregates.length < 2 ^ 63)
    (h : a.collect build d l = .error .addOverflowPanic) :
    build = .checked ∧ ∃ front, front <+: l ∧ ∃ k, ¬ InI64 (deltaState d k + lin a.rowState (ofEntries front) k) := by
  induction l generalizing d with
  | nil => cases h
  | cons e l ih =>
    obtain ⟨row, w⟩ := e
    rw [← singleton_append, collect_append] at h
    rcases bind_error.1 h with hrow | ⟨d', hrow, hrest⟩
    · obtain ⟨hbuild, k, hk⟩ := collect_row_panics hd hslots hrow
      exact ⟨hbuild, [(row, w)], prefix_append [(row, w)] l, k, by simpa using hk⟩
    · obtain ⟨hd', hdelta, -⟩ := collect_spec hrow hd
      obtain ⟨rfl, front, hfront, k, hk⟩ := ih hd' hrest
      refine ⟨rfl, (row, w) :: front, cons_prefix_cons.2 ⟨rfl, hfront⟩, k, ?_⟩
      rw [Wraps.checked_iff.1 hdelta] at hk
      simpa [add_assoc] using hk

theorem collect_fits (hslots : a.aggregates.length < 2 ^ 63) (h : a.collect .checked ⟨[], ∅, ∅⟩ l = .ok d) :
    a.WeightsFit .checked l := by
  rintro front ⟨rest, rfl⟩ k
  rw [collect_append] at h
  obtain ⟨d', hfront, -⟩ := bind_ok.1 h
  obtain ⟨hd', hdelta, -⟩ := collect_spec hfront ⟨by simp, by simp, by simp⟩
  have hin := deltaState_inI64 hd' hslots k
  rw [Wraps.checked_iff.1 hdelta] at hin
  simpa [deltaState] using hin

/-- A step that reports no error has returned with the exact sums stored just when
    each sum of the batch, of the weights for one group or for one value of a slot, is
    in the range of an `i64`; with overflow checks just when the sums on the way to it
    are as well, and otherwise it panics. -/
theorem step_exact_iff (a : Aggregate) (build : Build) (inputs : List ZSetBatch)
    (hslots : a.aggregates.length < 2 ^ 63) :
    (∃ e, (a.step build inputs).1 = .error e ∧ e ≠ .addOverflowPanic) ∨
      ∃ input, inputs = [input] ∧
        (((a.step build inputs).1.isOk = true ∧ ∀ k, k ≠ primedKey →
            (a.step build inputs).2.state.denote k = a.state.denote k + lin a.rowState input.denote k) ↔
          a.WeightsFit build input.entries) := by
  rcases step_collects a build inputs with hreport | ⟨input, hin, ⟨hpanic, hcollect⟩ | ⟨out, d, hout, hcollect⟩⟩
  · exact Or.inl hreport
  · refine Or.inr ⟨input, hin, ⟨fun hok => ?_, fun hfit => ?_⟩⟩
    · rw [hpanic] at hok
      cases hok.1
    · -- only the build with checks panics, over a sum on the way
      obtain ⟨rfl, front, hfront, k, hk⟩ := collect_panics ⟨by simp, by simp, by simp⟩ hslots hcollect
      exact absurd (by simpa [deltaState] using hfit front hfront k) hk
  · refine Or.inr ⟨input, hin, ?_⟩
    have hstep : a.step build inputs = (.ok out, (a.step build inputs).2) := Prod.ext hout rfl
    obtain ⟨input', d', before, state, hin', hd, hdelta, -, -, hwrite, hstate, -⟩ := step_ok hstep
    obtain rfl : input = input' := by simpa using hin.symm.trans hin'
    have hrange := deltaState_inI64 hd hslots
    have hstored : ∀ k, k ≠ primedKey →
        (a.step build inputs).2.state.denote k = a.state.denote k + deltaState d' k := by
      intro k hk
      rw [hstate, (write_spec hwrite).1, ofEntries_stateBatch, Finsupp.add_apply, Finsupp.add_apply]
      split
      · rw [Finsupp.single_eq_of_ne hk, add_zero]
      · rw [Finsupp.coe_zero, Pi.zero_apply, add_zero]
    rw [hout]
    -- what was collected is exact with checks, and without them up to a multiple of `2 ^ 64`
    cases build with
    | checked =>
      refine iff_of_true ⟨rfl, fun k hk => ?_⟩ (collect_fits hslots hcollect)
      rw [hstored k hk, Wraps.checked_iff.1 hdelta]
    | wrapping =>
      refine ⟨fun hexact k => ?_, fun hsums => ⟨rfl, fun k hk => ?_⟩⟩
      · by_cases hk : k = primedKey
        · rw [hk, lin_rowState_primedKey]
          decide
        · have hsame := hexact.2 k hk
          rw [hstored k hk] at hsame
          exact add_left_cancel hsame ▸ hrange k
      · rw [hstored k hk, hdelta.apply_eq (hsums k) (hrange k)]

/-- `COUNT(*)` over everything, nothing seen yet. -/
def rowCount : Aggregate := ⟨oneInt "x", oneInt "n", [], [⟨"n", .countStar⟩], MemBackend.new⟩

/-- Two inserts and a retraction leave the exact sum in place of the old total. -/
theorem step_exact_iff_rowCount : let batch := nulls "x" [I64.one, I64.one, I64.negOne]
    let after := rowCount.step .checked [batch]
    after.1.isOk = true ∧ ∀ k, k ≠ primedKey → after.2.state.denote k =
      rowCount.state.denote k + lin rowCount.rowState batch.denote k := by
  intro batch after
  have hok : after.1.isOk = true := by decide +kernel
  have hcollect : (rowCount.collect .checked ⟨[], ∅, ∅⟩ batch.entries).isOk = true := by decide +kernel
  obtain ⟨d, hd⟩ := isOk_iff.1 hcollect
  obtain ⟨e, he, -⟩ | ⟨input, hin, hiff⟩ := step_exact_iff rowCount .checked [batch] (by decide)
  · cases (congrArg Except.isOk he).symm.trans hok
  · obtain rfl : batch = input := by simpa using hin
    exact hiff.2 (collect_fits (by decide) hd)

/-- Without overflow checks, weights that sum to `2 ^ 64 + 1` are stored, and counted, as
    one row; with them, weights that come back into range panic on the way. -/
theorem total_wraps_to_one : let batch := nulls "x" [I64.lit (2 ^ 63 - 1), I64.lit (2 ^ 63 - 1), I64.lit 3]
    let after := rowCount.step .wrapping [batch]
    ((batch.entries.map (·.2.val)).sum = 2 ^ 64 + 1 ∧ after.2.state.get (totalKey []) = some I64.one ∧
      ∃ out, after.1 = .ok out ∧ out.data.entries = [([.int I64.one], I64.one)]) ∧
      (rowCount.step .checked [nulls "x" [I64.lit (2 ^ 63 - 1), I64.one, I64.negOne]]).1 =
        .error .addOverflowPanic := by
  have htest : (match (rowCount.step .wrapping
      [nulls "x" [I64.lit (2 ^ 63 - 1), I64.lit (2 ^ 63 - 1), I64.lit 3]]).1 with
    | .ok out => decide (out.data.entries = [([.int I64.one], I64.one)])
    | .error _ => false) = true := by decide +kernel
  refine ⟨⟨by decide +kernel, by decide +kernel, ?_⟩, rfl⟩
  split at htest
  · next out hout => exact ⟨out, hout, of_decide_eq_true htest⟩
  · cases htest

end Aggregate

namespace Join

variable {left right : ZSet Row} {j j' : Join} {outs : List StepOutput} {deltas : List (ZSetBatch × ZSetBatch)}

/-! A run of a join. -/

/-- Step through pairs of deltas, collecting what is emitted; stop at the first failure. -/
def run (j : Join) : List (ZSetBatch × ZSetBatch) → Except OpError (List StepOutput × Join)
  | [] => .ok ([], j)
  | (l, r) :: rest => match j.step [l, r] with
    | (.error e, _) => .error e
    | (.ok out, next) => do
      let (outs, last) ← run next rest
      return (out :: outs, last)

theorem run_of_holds (hj : j.Holds left right) (hred : j.Reduced) (h : j.run deltas = .ok (outs, j')) :
    j'.Holds (left + (deltas.map (·.1.denote)).sum) (right + (deltas.map (·.2.denote)).sum) ∧ j'.Reduced ∧
      (j'.leftKey = j.leftKey ∧ j'.rightKey = j.rightKey) ∧
      lin₂ (matched j.leftKey j.rightKey) left right + (outs.map (·.data.denote)).sum =
        lin₂ (matched j.leftKey j.rightKey) (left + (deltas.map (·.1.denote)).sum)
          (right + (deltas.map (·.2.denote)).sum) := by
  -- the pair of integrals grows with the steps; the keys stay
  induction deltas generalizing j left right outs with
  | nil =>
    cases h
    simpa using ⟨hj, hred⟩
  | cons d rest ih =>
    unfold run at h
    split at h
    · cases h
    · next out next hstep =>
      obtain ⟨⟨outs, last⟩, hrest, h⟩ := bind_ok.1 h
      cases h
      obtain ⟨l, r, hd, hshape, hkeep, hnext, -, -, -, hemit⟩ := step_spec hj hstep
      obtain ⟨rfl, rfl⟩ : d.1 = l ∧ d.2 = r := by simpa using hd
      obtain ⟨hlast, hlastRed, hkeys, hsum⟩ := ih hnext (hkeep hred) hrest
      rw [hshape.leftKey, hshape.rightKey] at hkeys hsum
      rw [← hemit] at hsum
      simp only [map_cons, sum_cons, ← add_assoc]
      exact ⟨hlast, hlastRed, hkeys, hsum⟩

/-- From empty indexes, whatever the deltas: the indexes are the two integrals, with no
    entry at weight zero, and the outputs sum to the nested-loop join of the integrals. -/
theorem run_bilinear {leftSchema rightSchema : Schema} {on : List (Nat × Nat)}
    (hnew : Join.new leftSchema rightSchema on MemBackend.new MemBackend.new = .ok j)
    (hrun : j.run deltas = .ok (outs, j')) :
    let left := (deltas.map (·.1.denote)).sum
    let right := (deltas.map (·.2.denote)).sum
    j'.leftIndex.denote = indexed (on.map Prod.fst) left ∧ j'.rightIndex.denote = indexed (on.map Prod.snd) right ∧
      j'.Reduced ∧ (outs.map (·.data.denote)).sum = ZSet.lin₂ (matched (on.map Prod.fst) (on.map Prod.snd)) left right := by
  unfold new at hnew
  split at hnew
  · cases hnew
  obtain ⟨_, -, hnew⟩ := bind_ok.1 hnew
  obtain ⟨outputSchema, -, hnew⟩ := bind_ok.1 hnew
  cases hnew
  have hempty : WeightMap.Reduced MemBackend.new.entries := WeightMap.reduced_empty
  obtain ⟨hlast, hred, ⟨hl, hr⟩, hsum⟩ := run_of_holds
    ⟨by simp, denote_new.trans (map_zero _).symm, denote_new.trans (map_zero _).symm⟩
    ⟨hempty, hempty⟩ hrun
  rw [lin₂_zero_left, zero_add, zero_add, zero_add] at hsum
  exact ⟨by simpa [hl] using hlast.leftIndex, by simpa [hr] using hlast.rightIndex, hred, hsum⟩

def twoInts (x y : String) (h : x ≠ y := by decide) : Schema :=
  ⟨[⟨x, .int64, true⟩, ⟨y, .int64, true⟩], by simp, by simpa using h⟩

theorem inI64_two : InI64 2 := by decide

/-- A row with a key on both sides, and one with half a key, each side in its own epoch. -/
def keyedEpochs : List (ZSetBatch × ZSetBatch) :=
  let full : Row := [.int I64.one, .int I64.zero]
  let half : Row := [.int I64.one, .null]
  [(⟨twoInts "x" "y", [(full, I64.lit 2 inI64_two), (half, I64.one)], Schema.checkColumns_conforms.1 rfl⟩,
      ZSetBatch.empty (twoInts "z" "w")),
    (ZSetBatch.empty (twoInts "x" "y"),
      ⟨twoInts "z" "w", [(full, I64.negOne), (half, I64.one)], Schema.checkColumns_conforms.1 rfl⟩)]

/-- A composite key over nullable columns, the match found in the second epoch. -/
theorem run_bilinear_nulls : ∃ j outs j',
    Join.new (twoInts "x" "y") (twoInts "z" "w") [(0, 0), (1, 1)] MemBackend.new MemBackend.new = .ok j ∧
      j.run keyedEpochs = .ok (outs, j') ∧
      outs.map (·.data.entries) =
        [[], [([.int I64.one, .int I64.zero, .int I64.one, .int I64.zero], I64.lit (-2))]] ∧
      j'.leftIndex.denote = indexed [0, 1] (keyedEpochs.map (·.1.denote)).sum ∧
      j'.rightIndex.denote = indexed [0, 1] (keyedEpochs.map (·.2.denote)).sum ∧
      (outs.map (·.data.denote)).sum = ZSet.lin₂ (matched [0, 1] [0, 1])
        (keyedEpochs.map (·.1.denote)).sum (keyedEpochs.map (·.2.denote)).sum := by
  have htest : (match (Join.new (twoInts "x" "y") (twoInts "z" "w") [(0, 0), (1, 1)] MemBackend.new
      MemBackend.new).bind fun j => j.run keyedEpochs with
    | .ok r => decide (r.1.map (·.data.entries) =
        [[], [([.int I64.one, .int I64.zero, .int I64.one, .int I64.zero], I64.lit (-2))]])
    | .error _ => false) = true := by decide +kernel
  split at htest
  · next r hr =>
    obtain ⟨j, hnew, hrun⟩ := bind_ok.1 hr
    obtain ⟨hleft, hright, -, hsum⟩ := run_bilinear hnew hrun
    exact ⟨j, r.1, r.2, hnew, hrun, of_decide_eq_true htest, hleft, hright, hsum⟩
  · cases htest

end Join

end Mutiny.Schweep
