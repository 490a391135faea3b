import Mutiny.Schweep.OracleAnswer

/- The incremental engine answers what the oracle answers.

   Both engines are compared with the meaning of the query's plan: the circuit
   by `Instantiated.answer_spec`, the oracle by `Planned.answerAt`. When either
   has an answer both have, with the same canonical form. Where every aggregate
   argument evaluates they also agree on the least live message. Where one does
   not they are both in error, but not always with the same message: the
   aggregate operator keeps every argument's error and still emits the group
   from what it has, while the oracle stops at the group's first aggregate that
   raises and drops the group. -/
namespace Mutiny.Schweep
open Mutiny.Lib Oracle

/-! The two engines on one history. -/

section Agreement

variable {tables : List (String × Schema)} {history : List EpochDeltas} {o : Oracle} {query : Query}
  {bound : Bound} {plan : CircuitPlan} {c : Circuit} {n : Nat}

/-- Both engines are made for one query over the same tables and read one history: the oracle all of it, the circuit
    its first epochs. -/
inductive Replayed (tables : List (String × Schema)) (history : List EpochDeltas) (query : Query) (n : Nat) :
    Oracle → Circuit → Prop where
  | intro {o₀ o : Oracle} {bound : Bound} {plan : CircuitPlan} {c₀ c : Circuit} (hnew : Oracle.new tables = .ok o₀)
      (hseal : o₀.sealAll history = .ok o) (hbind : bind o₀.catalog query = .ok bound)
      (hplan : planOf query bound o₀.catalog = .ok plan) (hinst : instantiate .checked plan = .ok c₀)
      (hrun : c₀.run .checked (history.take n) = .ok c) : Replayed tables history query n o c

/-- Both engines have read the same prefix of one history. -/
structure Twin (o : Oracle) (n : Nat) (query : Query) (bound : Bound) (plan : CircuitPlan) (src : CircuitNode)
    (c : Circuit) : Prop where
  planned : Planned o n query bound plan src
  instantiated : Instantiated plan c
  typed : plan.root.Typed
  holds : ∃ S, c.Tracks .checked (fun _ => true) (fun _ => o.tables n) S

theorem Replayed.twin (h : Replayed tables history query n o c) (hn : n ≤ history.length) :
    ∃ bound plan src, Twin o n query bound plan src c := by
  obtain @⟨_, _, bound, plan, _, _, hnew, hseal, hbind, hplan, hinst, hrun⟩ := h
  obtain ⟨hsealed0, hlog0⟩ := new_sealed hnew
  obtain ⟨hsealed, hcat, hlog⟩ := sealAll_spec hsealed0 hseal
  rw [hlog0, List.nil_append] at hlog
  obtain ⟨src, hstaged, htyped⟩ := planOf_staged hbind hplan
  obtain ⟨hi0, _, _, S₀, hold0⟩ := instantiate_spec hinst
  obtain ⟨hshape, _, S, htracks⟩ := Circuit.run_spec hold0 hrun
  have hi : Instantiated plan c := ⟨hshape ▸ hi0.placed⟩
  have htables : (fun table => (0 : ZSet Row) + ZSet.ofEntries (deltasOf table (history.take n))) =
      o.tables n := by
    funext table
    rw [zero_add, Oracle.tables, hlog]
  rw [htables] at htracks
  have hepoch : n ≤ o.log.length := hlog ▸ hn
  obtain ⟨hfits, hmsg, _⟩ := hi.answer_spec htyped htracks (hsealed.tables_nonneg hepoch)
  rw [← hcat] at hbind hstaged
  exact ⟨bound, plan, src, ⟨hsealed, hepoch, hbind, hstaged, hfits, hmsg⟩, hi, htyped, S, htracks⟩

theorem Twin.answer {src : CircuitNode} (h : Twin o n query bound plan src c) :
    (((plan.root.meaning (o.tables n)).2 = 0 ∧ ∃ entries, c.answer = .ok ⟨bound.outputSchema, entries⟩ ∧
        IsCanonical entries ∧ ZSet.ofEntries entries = (plan.root.meaning (o.tables n)).1) ∨
      ∃ m, c.answer = .error (.liveEvaluationError m) ∧ (plan.root.meaning (o.tables n)).2 [.str m] ≠ 0 ∧
        ∀ m', (plan.root.meaning (o.tables n)).2 [.str m'] ≠ 0 → m ≤ m') := by
  obtain ⟨S, hold⟩ := h.holds
  have hanswer := (h.instantiated.answer_spec h.typed hold h.planned.nonneg).2.2
  rwa [h.planned.staged.output] at hanswer

/-- Both engines over one history, up to an epoch, and a test of where they are. -/
def replay (tables : List (String × Schema)) (history : List EpochDeltas) (query : Query) (n : Nat)
    (test : Oracle → Circuit → Bool) : Bool :=
  let run : Option Bool := do
    let o₀ ← (Oracle.new tables).toOption
    let o ← (o₀.sealAll history).toOption
    let bound ← (bind o₀.catalog query).toOption
    let plan ← (planOf query bound o₀.catalog).toOption
    let c₀ ← (instantiate .checked plan).toOption
    let c ← (c₀.run .checked (history.take n)).toOption
    return test o c
  run = some true

theorem replay_spec {test : Oracle → Circuit → Bool} (h : replay tables history query n test = true) :
    ∃ o c, Replayed tables history query n o c ∧ test o c = true := by
  simp only [replay, decide_eq_true_eq, Option.bind_eq_bind, Option.bind_eq_some_iff, Option.pure_def,
    Option.some.injEq, toOption_eq_some] at h
  obtain ⟨o₀, hnew, o, hseal, bound, hbind, plan, hplan, c₀, hinst, c, hrun, htest⟩ := h
  exact ⟨o, c, ⟨hnew, hseal, hbind, hplan, hinst, hrun⟩, htest⟩

/-- Values: when either engine answers, both do, with one canonical form. -/
theorem answer_eq_answerAt (h : Replayed tables history query n o c) (hn : n ≤ history.length)
    (hweight : ∀ e, o.answerAt query n = .error e → e.isWeightOverflow = false)
    (hok : (∃ canon, c.answer = .ok canon) ∨ ∃ b, o.answerAt query n = .ok b) :
    ∃ canon b, c.answer = .ok canon ∧ o.answerAt query n = .ok b ∧ b.canonical = .ok canon := by
  obtain ⟨bound, plan, src, h⟩ := h.twin hn
  -- either answer shows that no aggregate argument raised
  have hev : o.ArgumentsEvaluate query n := by
    rcases hok with ⟨canon, hc⟩ | ⟨b, hb⟩
    · rcases h.answer with ⟨hzero, _⟩ | ⟨m, hm, _⟩
      · exact h.planned.evaluates_of_errors hzero
      · rw [hc] at hm
        cases hm
    · exact h.planned.evaluates_of_answer hb
  rcases h.planned.answerAt hev with ⟨hzero, b, hb, hschema, hcanon, hdata⟩ | ⟨e, he, _, hlive, _⟩ | ⟨e, he, hw⟩
  · rcases h.answer with ⟨_, entries, hc, hcanon', hdata'⟩ | ⟨m, _, hm, _⟩
    · have hentries : b.entries = entries := hcanon.unique hcanon' (hdata.trans hdata'.symm)
      refine ⟨_, b, hc, hb, ?_⟩
      rw [ZSetBatch.canonical, ZSetBatch.consolidatedEntries_of_canonical hcanon, hentries, hschema]
    · rw [hzero] at hm
      exact absurd rfl hm
  · rcases h.answer with ⟨hzero, _⟩ | ⟨m, hm, _⟩
    · rw [hzero] at hlive
      exact absurd rfl hlive
    · rcases hok with ⟨canon, hc⟩ | ⟨b, hb⟩
      · rw [hc] at hm
        cases hm
      · rw [hb] at he
        cases he
  · rw [hweight e he] at hw
    cases hw

def singleColumn : List (String × Schema) := [("t", ⟨[⟨"x", .int64, true⟩], by simp, by simp⟩)]

/-- Epoch 1 inserts, epoch 2 retracts one of what it inserted. -/
def insertThenRetract : List EpochDeltas :=
  [(∅ : EpochDeltas).insert "t" [([.int (I64.lit 2)], I64.one), ([.int I64.one], I64.lit 2), ([.null], I64.one)],
    (∅ : EpochDeltas).insert "t" [([.int (I64.lit 2)], I64.negOne)]]

/-- `SELECT DISTINCT n + n AS m FROM t AS l JOIN t AS r ON l.x = r.x GROUP BY l.x AS k,
    COUNT(*) AS n HAVING n > 1`. -/
def selfJoinQuery : Query where
  source := .join (.scan "t" "l") (.scan "t" "r") [("l.x", "r.x")]
  filter := none
  groupBy := some
    ⟨[⟨"k", .column "l.x"⟩], [⟨"n", .countStar⟩], some (.binary .gt (.column "n") (.literal (.int I64.one))),
      by decide⟩
  project := some [⟨"m", .binary .add (.column "n") (.column "n")⟩]
  distinct := true

/-- A self join over two epochs, the second with a retraction. -/
theorem answer_eq_answerAt_selfJoin : ∃ o c canon b, Replayed singleColumn insertThenRetract selfJoinQuery 2 o c ∧
    c.answer = .ok canon ∧ o.answerAt selfJoinQuery 2 = .ok b ∧ b.canonical = .ok canon ∧
    b.entries = [([.int (I64.lit 8)], I64.one)] := by
  have htest : replay singleColumn insertThenRetract selfJoinQuery 2 (fun o _ =>
      match o.answerAt selfJoinQuery 2 with
      | .ok b => b.entries = [([.int (I64.lit 8)], I64.one)]
      | .error _ => false) = true := by decide +kernel
  obtain ⟨o, c, hplayed, ht⟩ := replay_spec htest
  cases hb : o.answerAt selfJoinQuery 2 with
  | error e => simp [hb] at ht
  | ok b =>
    obtain ⟨canon, b', hc, hb', hcanon⟩ := answer_eq_answerAt hplayed (show 2 ≤ 2 from le_rfl) (by simp [hb])
      (Or.inr ⟨b, hb⟩)
    cases hb.symm.trans hb'
    exact ⟨o, c, canon, b, hplayed, hc, hb, hcanon, by simpa [hb] using ht⟩

/-- The message an answer is in error with, if it is a live error. -/
def liveMessage : Except CircuitError Canonical → Option String
  | .error (.liveEvaluationError m) => some m
  | _ => none

theorem liveMessage_eq_some {x : Except CircuitError Canonical} {m : String} :
    liveMessage x = some m ↔ x = .error (.liveEvaluationError m) := by
  unfold liveMessage
  split <;> simp_all

/-- The message of the evaluation error an oracle's answer is. -/
def evaluationMessage : Except OracleError ZSetBatch → Option String
  | .error (.plan e) => if e.isEvaluationError then some e.message else none
  | _ => none

theorem evaluationMessage_eq_some {x : Except OracleError ZSetBatch} {m : String} :
    evaluationMessage x = some m ↔ ∃ e, x = .error (.plan e) ∧ e.isEvaluationError = true ∧ e.message = m := by
  unfold evaluationMessage
  split
  · next e =>
    simp
  · next hx =>
    simp
    intro e he
    exact absurd he (hx e)

/-- Live errors: where every aggregate argument evaluates on the rows that reach
    its group, both engines report the same least message. -/
theorem liveEvaluationError_iff (h : Replayed tables history query n o c) (hn : n ≤ history.length)
    (hweight : ∀ e, o.answerAt query n = .error e → e.isWeightOverflow = false)
    (hev : o.ArgumentsEvaluate query n) (m : String) :
    c.answer = .error (.liveEvaluationError m) ↔
      ∃ e, o.answerAt query n = .error (.plan e) ∧ e.isEvaluationError = true ∧ e.message = m := by
  obtain ⟨bound, plan, src, h⟩ := h.twin hn
  rcases h.planned.answerAt hev with ⟨hzero, b, hb, _⟩ | ⟨e, he, heval, hlive, hle⟩ | ⟨e, he, hw⟩
  · rcases h.answer with ⟨_, entries, hc, _⟩ | ⟨m', _, hm, _⟩
    · rw [hb, hc]
      simp
    · rw [hzero] at hm
      exact absurd rfl hm
  · rcases h.answer with ⟨hzero, _⟩ | ⟨m', hm', hlive', hle'⟩
    · rw [hzero] at hlive
      exact absurd rfl hlive
    · obtain rfl : m' = e.message := le_antisymm (hle' _ hlive) (hle _ hlive')
      rw [hm', he]
      constructor
      · intro h
        cases h
        exact ⟨e, rfl, heval, rfl⟩
      · rintro ⟨e', he', _, rfl⟩
        cases he'
        rfl
  · rw [hweight e he] at hw
    cases hw

def zeroAndOne : List EpochDeltas :=
  [(∅ : EpochDeltas).insert "t" [([.int I64.zero], I64.one), ([.int I64.one], I64.one)]]

/-- `SELECT 1 / (s - 1) AS q FROM t GROUP BY (), SUM(t.x) AS s`. -/
def divideSumQuery : Query where
  source := .scan "t" "t"
  filter := none
  groupBy := some ⟨[], [⟨"s", .sum (.column "t.x")⟩], none, by decide⟩
  project := some [⟨"q", .binary .div (.literal (.int I64.one))
    (.binary .sub (.column "s") (.literal (.int I64.one)))⟩]
  distinct := false

/-- The argument evaluates on every row, and the SELECT over the sum raises. -/
theorem liveEvaluationError_iff_divideSum : ∃ o c, Replayed singleColumn zeroAndOne divideSumQuery 1 o c ∧
    o.ArgumentsEvaluate divideSumQuery 1 ∧ c.answer = .error (.liveEvaluationError "division by zero in / (S-21)") := by
  have htest : replay singleColumn zeroAndOne divideSumQuery 1 (fun o _ =>
      decide (o.ArgumentsEvaluate divideSumQuery 1) &&
        evaluationMessage (o.answerAt divideSumQuery 1) = some "division by zero in / (S-21)") = true := by
    decide +kernel
  obtain ⟨o, c, hplayed, ht⟩ := replay_spec htest
  obtain ⟨hev, hm⟩ := Bool.and_eq_true_iff.1 ht
  obtain ⟨e, he, heval, hmsg⟩ := evaluationMessage_eq_some.1 (of_decide_eq_true hm)
  have hweight : ∀ e', o.answerAt divideSumQuery 1 = .error e' → e'.isWeightOverflow = false := by
    intro e' he'
    cases he.symm.trans he'
    cases e with
    | aggregateOverflow func =>
      by_contra hgroup
      obtain rfl : func = "GROUP BY" := by simpa [OracleError.isWeightOverflow] using hgroup
      exact absurd hmsg (by decide)
    | _ => rfl
  refine ⟨o, c, hplayed, of_decide_eq_true hev, ?_⟩
  exact (liveEvaluationError_iff hplayed (show 1 ≤ 1 from le_rfl) hweight (of_decide_eq_true hev) _).2
    ⟨e, he, heval, hmsg⟩

/-- `SELECT SUM(1 / t.x) AS a, SUM(t.x + 9223372036854775807) AS b FROM t`. -/
def twoRaisingQuery : Query where
  source := .scan "t" "t"
  filter := none
  groupBy := some ⟨[], [⟨"a", .sum (.binary .div (.literal (.int I64.one)) (.column "t.x"))⟩,
    ⟨"b", .sum (.binary .add (.column "t.x") (.literal (.int (I64.lit 9223372036854775807))))⟩], none, by decide⟩
  project := none
  distinct := false

/-- Both arguments raise, each on a row of its own. The oracle stops at the first
    aggregate, the circuit keeps both errors and reports the lesser. -/
theorem liveEvaluationError_twoRaising : ∃ o c e, Replayed singleColumn zeroAndOne twoRaisingQuery 1 o c ∧
    o.answerAt twoRaisingQuery 1 = .error (.plan e) ∧ e.isEvaluationError = true ∧
    e.message = "division by zero in / (S-21)" ∧
    c.answer = .error (.liveEvaluationError "arithmetic overflow in + (S-20)") := by
  have htest : replay singleColumn zeroAndOne twoRaisingQuery 1 (fun o c =>
      decide (evaluationMessage (o.answerAt twoRaisingQuery 1) = some "division by zero in / (S-21)") &&
        liveMessage c.answer = some "arithmetic overflow in + (S-20)") = true := by
    decide +kernel
  obtain ⟨o, c, hplayed, ht⟩ := replay_spec htest
  obtain ⟨ho, hc⟩ := Bool.and_eq_true_iff.1 ht
  obtain ⟨e, he, heval, hmsg⟩ := evaluationMessage_eq_some.1 (of_decide_eq_true ho)
  exact ⟨o, c, e, hplayed, he, heval, hmsg, liveMessage_eq_some.1 (of_decide_eq_true hc)⟩

end Agreement

end Mutiny.Schweep
