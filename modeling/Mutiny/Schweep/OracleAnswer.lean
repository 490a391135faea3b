import Mutiny.Schweep.BuildSpec
import Mutiny.Schweep.OracleGroup

/- The oracle answers the meaning of the query's plan.

   `planOf_staged` reads the stages of a plan off a query that binds, and the
   stages of `answer_at` are compared with them one by one: FROM, WHERE, GROUP
   BY with HAVING, SELECT, and the final consolidation. `Planned.answerAt` says
   what the answer is where every aggregate argument evaluates, and either an
   answer (`Planned.evaluates_of_answer`) or a plan without live errors
   (`Planned.evaluates_of_errors`) shows that they all do. -/
namespace Mutiny.Schweep
open Mutiny.Lib SortedMap ZSet LiveErrors Aggregate CircuitNode List
open Finsupp (single)

/-! The plan of a bound query. -/

variable {context : String} {u : Unit} {bound : Bound}

/-- The stages of a plan, from the source up. -/
structure Staged (query : Query) (bound : Bound) (catalog : Catalog) (plan : CircuitPlan) (src : CircuitNode) :
    Prop where
  source : sourceNode catalog query.source = .ok src
  input : bindSource catalog query.source = .ok bound.inputSchema
  srcSchema : src.schema = bound.inputSchema
  root : plan.root =
    let node := withProject query.project query.groupedNaming bound.outputSchema
      (withGroupBy query.groupBy bound.groupedSchema (withFilter .qualified query.filter src))
    if query.distinct then .distinct node else node
  output : plan.outputSchema = bound.outputSchema
  rootSchema : plan.root.schema = bound.outputSchema
  filtered : (withFilter .qualified query.filter src).Typed
  grouped : (withGroupBy query.groupBy bound.groupedSchema (withFilter .qualified query.filter src)).Typed
  projected : (withProject query.project query.groupedNaming bound.outputSchema
    (withGroupBy query.groupBy bound.groupedSchema (withFilter .qualified query.filter src))).Typed

variable {query : Query} {catalog : Catalog} {plan : CircuitPlan} {src : CircuitNode}

theorem withFilter_schema (naming : Naming) (predicate : Option Expr) (node : CircuitNode) :
    (withFilter naming predicate node).schema = node.schema := by
  cases predicate <;> rfl

theorem expectBoolean_ok {scope : Scope} {e : Expr} (h : expectBoolean scope context e = .ok u) :
    typeOf scope e = .ok .boolean := by
  unfold expectBoolean at h
  obtain ⟨found, hf, h⟩ := bind_ok.1 h
  split at h
  · next heq => rw [hf, heq]
  · cases h

variable {predicate : Option Expr}

theorem withFilter_typed {node : CircuitNode} (hn : node.Typed) {naming : Naming}
    (h : expectBooleanOpt ⟨node.schema, naming⟩ context predicate = .ok u) :
    (withFilter naming predicate node).Typed := by
  cases predicate with
  | none => exact hn
  | some e => exact ⟨hn, expectBoolean_ok h⟩

theorem planOf_staged (hb : bind catalog query = .ok bound) (hp : planOf query bound catalog = .ok plan) :
    ∃ src, Staged query bound catalog plan src ∧ plan.root.Typed := by
  unfold bind at hb
  obtain ⟨_, _, hb⟩ := bind_ok.1 hb
  obtain ⟨input, hinput, hb⟩ := bind_ok.1 hb
  obtain ⟨_, hwhere, hb⟩ := bind_ok.1 hb
  obtain ⟨grouped, hgrouped, hb⟩ := bind_ok.1 hb
  obtain ⟨_, hhaving, hb⟩ := bind_ok.1 hb
  obtain ⟨output, houtput, hb⟩ := bind_ok.1 hb
  cases hb
  unfold planOf at hp
  obtain ⟨src, hsrc, hp⟩ := bind_ok.1 hp
  dsimp only at hp
  generalize hroot : (if query.distinct = true then distinct _ else _) = root at hp
  split at hp
  · cases hp
  next hschema =>
  cases hp
  obtain ⟨htsrc, hssrc, _⟩ := sourceNode_spec hsrc
  have hs := hssrc input hinput
  have hfiltered : (withFilter .qualified query.filter src).Typed := by
    rw [← hs] at hwhere
    exact withFilter_typed htsrc hwhere
  have hfs : (withFilter .qualified query.filter src).schema = input := (withFilter_schema _ _ _).trans hs
  have hgroupedTyped : (withGroupBy query.groupBy grouped (withFilter .qualified query.filter src)).Typed ∧
      (withGroupBy query.groupBy grouped (withFilter .qualified query.filter src)).schema = grouped := by
    unfold Query.bindGrouped at hgrouped
    cases hg : query.groupBy with
    | none =>
      rw [hg] at hgrouped
      cases hgrouped
      exact ⟨hfiltered, hfs⟩
    | some g =>
      rw [hg] at hgrouped hhaving
      dsimp only at hgrouped
      unfold bindGroupBy at hgrouped
      split at hgrouped
      · cases hgrouped
      obtain ⟨kf, hkf, hgrouped⟩ := bind_ok.1 hgrouped
      obtain ⟨af, haf, _⟩ := bind_ok.1 hgrouped
      have hagg : (aggregate (withFilter .qualified query.filter src) g.keys g.aggregates
          grouped).Typed := ⟨hfiltered, g.slots_lt, ⟨kf, hfs ▸ hkf⟩, af, hfs ▸ haf⟩
      have hnaming : query.groupedNaming = .unqualified := by simp [Query.groupedNaming, hg]
      rw [hnaming] at hhaving
      exact ⟨withFilter_typed hagg hhaving, withFilter_schema _ _ _⟩
  have hprojected : (withProject query.project query.groupedNaming output
      (withGroupBy query.groupBy grouped (withFilter .qualified query.filter src))).Typed := by
    unfold Query.bindOutput at houtput
    cases hpr : query.project with
    | none => exact hgroupedTyped.1
    | some items =>
      rw [hpr] at houtput
      exact ⟨hgroupedTyped.1, by rw [hgroupedTyped.2]; exact houtput⟩
  refine ⟨src, ⟨hsrc, hinput, hs, hroot.symm, rfl, not_not.1 hschema, hfiltered, hgroupedTyped.1, hprojected⟩, ?_⟩
  rw [← hroot]
  split
  · exact hprojected
  · exact hprojected

/-! What holds of a plan holds of the stages below its root. -/

variable {T : String → ZSet Row}

section Stages

variable {T : String → ZSet Row} {node : CircuitNode} {naming : Naming} {predicate : Option Expr}

theorem withFilter_below : ((withFilter naming predicate node).Fits T → node.Fits T) ∧
      ((∀ table, 0 ≤ T table) → ((withFilter naming predicate node).meaning T).2 = 0 →
        (node.meaning T).2 = 0) := by
  cases predicate with
  | none => exact ⟨id, fun _ => id⟩
  | some e =>
    refine ⟨fun h => h.1, fun hT h => ?_⟩
    have hnn := meaning_nonneg hT node
    exact (add_eq_zero_iff_of_nonneg hnn.2 (lin_nonneg (rowErrs_nonneg _) hnn.1)).1 h |>.1

theorem withFilter_below_typed (h : (withFilter naming predicate node).Typed) : node.Typed := by
  cases predicate with
  | none => exact h
  | some e => exact h.1

theorem withProject_below {items : Option (List (Named Expr))} {output : Schema} :
    ((withProject items naming output node).Fits T → node.Fits T) ∧
      ((∀ table, 0 ≤ T table) → ((withProject items naming output node).meaning T).2 = 0 →
        (node.meaning T).2 = 0) := by
  cases items with
  | none => exact ⟨id, fun _ => id⟩
  | some items =>
    refine ⟨fun h => h.1, fun hT h => ?_⟩
    have hnn := meaning_nonneg hT node
    exact (add_eq_zero_iff_of_nonneg hnn.2 (lin_nonneg (rowErrs_nonneg _) hnn.1)).1 h |>.1

theorem aggregate_below {keys : List (Named Expr)} {aggregates : List (Named AggFunc)} {schema : Schema}
    (hT : ∀ table, 0 ≤ T table) (h : ((aggregate node keys aggregates schema).meaning T).2 = 0) :
    lin (aggregateOf node.schema keys aggregates schema).rowErrors (node.meaning T).1 = 0 := by
  have hnn := meaning_nonneg hT node
  have hagg := (add_eq_zero_iff_of_nonneg hnn.2 (meaning_nonneg _ hnn.1).2).1 h
  have hlin := lin_nonneg (aggregateOf node.schema keys aggregates schema).rowErrors_nonneg hnn.1
  have hgroups := finsum_nonneg
    (groupMeaning_nonneg (aggregateOf node.schema keys aggregates schema) (node.meaning T).1)
  exact ((add_eq_zero_iff_of_nonneg hlin hgroups.2).1 hagg.2).1

theorem withGroupBy_fits {groupBy : Option GroupBy} {grouped : Schema}
    (h : (withGroupBy groupBy grouped node).Fits T) : node.Fits T := by
  cases groupBy with
  | none => exact h
  | some g => exact (withFilter_below.1 h).1

end Stages

theorem Staged.fits (hs : Staged query bound catalog plan src) (h : plan.root.Fits T) :
    (withProject query.project query.groupedNaming bound.outputSchema
      (withGroupBy query.groupBy bound.groupedSchema (withFilter .qualified query.filter src))).Fits T := by
  rw [hs.root] at h
  dsimp only at h
  split at h
  · exact h.1
  · exact h

theorem Staged.errors (hs : Staged query bound catalog plan src) (T : String → ZSet Row) :
    (plan.root.meaning T).2 = ((withProject query.project query.groupedNaming bound.outputSchema
      (withGroupBy query.groupBy bound.groupedSchema (withFilter .qualified query.filter src))).meaning T).2 := by
  rw [hs.root]
  dsimp only
  split <;> rfl

/-! The end of the pipeline. -/

variable {live : LiveErrors}

theorem LiveErrors.least_none (h : live.least = none) : ∀ m, m ∉ live := by
  intro m hm
  obtain ⟨e, he⟩ := mem_iff.1 hm
  have hmem := mem_toList.2 he
  unfold least at h
  cases hl : live.toList with
  | nil =>
    rw [hl] at hmem
    cases hmem
  | cons x rest =>
    rw [hl] at h
    cases h

theorem LiveErrors.least_spec (hv : live.Valid) :
    (live.least = none ∧ ∀ m, m ∉ live) ∨ ∃ e, live.least = some e ∧ e.isEvaluationError = true ∧
      e.message ∈ live ∧ ∀ m ∈ live, e.message ≤ m := by
  cases hleast : live.least with
  | none => exact Or.inl ⟨rfl, least_none hleast⟩
  | some e0 =>
  unfold least at hleast
  cases hl : live.toList with
  | nil =>
    rw [hl] at hleast
    cases hleast
  | cons x rest =>
    obtain ⟨m, e⟩ := x
    rw [hl] at hleast
    cases hleast
    have hx : live[m]? = some e := mem_toList.1 (by rw [hl]; exact mem_cons_self)
    obtain ⟨hmsg, hev⟩ := hv m e hx
    refine Or.inr ⟨e, rfl, hev, by rw [hmsg]; exact mem_iff.2 ⟨e, hx⟩, fun m' hm' => ?_⟩
    obtain ⟨e', he'⟩ := mem_iff.1 hm'
    have hmem := mem_toList.2 he'
    have hsorted := sorted_toList live
    rw [hl] at hmem hsorted
    rw [hmsg]
    rcases mem_cons.1 hmem with heq | hin
    · cases heq
      exact le_rfl
    · exact ((pairwise_cons.1 hsorted).1 _ hin).le

theorem distinctEntries_spec {entries : Entries} (hc : IsCanonical entries) (hpos : ∀ e ∈ entries, 0 < e.2.val) :
    ∃ out, distinctEntries entries = .ok out ∧ IsCanonical out ∧
      ofEntries out = presence (ofEntries entries) := by
  have hout : distinctEntries entries = .ok (entries.map (fun e => (e.1, I64.one))) := by
    clear hc
    induction entries with
    | nil => rfl
    | cons e rest ih =>
      obtain ⟨row, w⟩ := e
      obtain ⟨(hw : 0 < w.val), hrest⟩ := forall_mem_cons.1 hpos
      unfold distinctEntries
      rw [if_neg (not_lt.2 hw.le), ih hrest]
      rfl
  have hcanon : IsCanonical (entries.map (fun e => (e.1, I64.one))) := by
    refine ⟨pairwise_map.2 hc.sorted, fun e he => ?_⟩
    obtain ⟨x, _, rfl⟩ := mem_map.1 he
    show (1 : ℤ) ≠ 0
    decide
  refine ⟨_, hout, hcanon, ?_⟩
  ext row
  rw [presence_apply]
  by_cases hrow : ∃ e ∈ entries, e.1 = row
  · obtain ⟨e, he, rfl⟩ := hrow
    have h1 := ofEntries_apply_of_mem hcanon.nodup (mem_map.2 ⟨e, he, rfl⟩)
    have h2 := ofEntries_apply_of_mem hc.nodup he
    rw [h2, present, if_pos (hpos e he)]
    exact h1
  · rw [ofEntries_apply_eq_zero (fun e he her => hrow ?_),
      ofEntries_apply_eq_zero (fun e he her => hrow ⟨e, he, her⟩)]
    · rfl
    · obtain ⟨x, hx, rfl⟩ := mem_map.1 he
      exact ⟨x, hx, her⟩

/-- What an answer is, against the plan's data and live errors. -/
def AnswerIs (output : Schema) (M : Streams) (x : Except OracleError ZSetBatch) : Prop :=
  (M.2 = 0 ∧ ∃ b, x = .ok b ∧ b.schema = output ∧ IsCanonical b.entries ∧ b.denote = M.1) ∨
    (∃ e, x = .error (.plan e) ∧ e.isEvaluationError = true ∧ M.2 [.str e.message] ≠ 0 ∧
      ∀ m, M.2 [.str m] ≠ 0 → e.message ≤ m) ∨
    ∃ e, x = .error e ∧ e.isWeightOverflow = true

/-- The last stage: the least live message, or the rows. -/
theorem Agree.finishAnswer {r : Relation} {p root : CircuitNode} (h : Agree r live p T)
    (hroot : root = if query.distinct then .distinct p else p) (hf : root.Fits T)
    (hmsg : ∀ row, (root.meaning T).2 row ≠ 0 → ∃ m, row = [.str m]) :
    AnswerIs root.schema (root.meaning T) (Schweep.finishAnswer query root.schema r live) := by
  have herr : (root.meaning T).2 = (p.meaning T).2 := by
    rw [hroot]
    split <;> rfl
  have hlive : ∀ m, m ∈ live ↔ (root.meaning T).2 [.str m] ≠ 0 := fun m => by rw [herr, h.live]
  unfold Schweep.finishAnswer
  rcases least_spec h.valid with ⟨hnone, hempty⟩ | ⟨e, hsome, hev, hmem, hle⟩
  · have hzero : (root.meaning T).2 = 0 := by
      ext row
      by_contra hrow
      obtain ⟨m, rfl⟩ := hmsg row hrow
      exact hempty m ((hlive m).2 hrow)
    rw [hnone]
    dsimp only
    have hcons := h.consolidate
    cases hx : consolidateRelation r.entries with
    | error e =>
      rw [hx] at hcons
      exact Or.inr (Or.inr ⟨e, rfl, hcons⟩)
    | ok entries =>
      rw [hx] at hcons
      obtain ⟨hagree, hcanon⟩ := hcons
      -- the entries returned, and that they are the root's data
      obtain ⟨out, hout, hoc, hod⟩ : ∃ out, (if query.distinct then distinctEntries entries else .ok entries) =
          .ok out ∧ IsCanonical out ∧ ofEntries out = (root.meaning T).1 := by
        cases hd : query.distinct with
        | false =>
          refine ⟨entries, rfl, hcanon, ?_⟩
          rw [hroot, hd]
          exact hagree.data
        | true =>
          obtain ⟨out, ho, hc, hz⟩ := distinctEntries_spec hcanon hagree.pos
          refine ⟨out, ho, hc, ?_⟩
          rw [hz, hroot, hd, show ofEntries entries = _ from hagree.data]
          rfl
      have hvalid : ∀ e ∈ out, root.schema.Conforms e.1 := by
        intro e he
        refine hf.root ?_
        rw [← hod, ofEntries_apply_of_mem hoc.nodup he]
        exact hoc.nonzero e he
      refine Or.inl ⟨hzero, ⟨root.schema, out, hvalid⟩, ?_, rfl, hoc, hod⟩
      have hfrom := ZSetBatch.fromEntries_of_conforms hvalid
      cases hd : query.distinct with
      | false =>
        rw [hd] at hout
        cases hout
        simp only [ok_bind, Bool.false_eq_true, if_false, hfrom, orZSet]
      | true =>
        rw [hd, if_pos rfl] at hout
        simp only [ok_bind, if_true, hout, hfrom, orZSet]
  · rw [hsome]
    exact Or.inr (Or.inl ⟨e, rfl, hev, (hlive _).1 hmem, fun m hm => hle m ((hlive m).2 hm)⟩)

/-! The whole pipeline. -/

/-- Every aggregate argument evaluates on every row that reaches a group. -/
def Oracle.ArgumentsEvaluate (o : Oracle) (query : Query) (n : Nat) : Prop :=
  ∀ g, query.groupBy = some g → ∀ source filtered live, o.evalSource n query.source = .ok source →
    filterStage query.filter source ∅ = .ok (filtered, live) →
    Schweep.ArgumentsEvaluate filtered.schema g.keys g.aggregates filtered.entries

instance decidableOracleArgumentsEvaluate (o : Oracle) (query : Query) (n : Nat) :
    Decidable (o.ArgumentsEvaluate query n) :=
  decidable_of_iff
    (∀ g ∈ query.groupBy, ∀ source ∈ (o.evalSource n query.source).toOption,
      ∀ x ∈ (filterStage query.filter source ∅).toOption,
        Schweep.ArgumentsEvaluate x.1.schema g.keys g.aggregates x.1.entries) <| by
    simp only [Oracle.ArgumentsEvaluate, Option.mem_def, toOption_eq_some, Prod.forall]
    constructor
    · exact fun h g hg source filtered live hs hf => h g hg source hs filtered live hf
    · exact fun h g hg source hs filtered live hf => h g hg source filtered live hs hf

/-- An oracle, one of its epochs, and the plan of a query bound against it. -/
structure Planned (o : Oracle) (n : Nat) (query : Query) (bound : Bound) (plan : CircuitPlan) (src : CircuitNode) :
    Prop where
  sealed : o.Sealed
  epoch : n ≤ o.log.length
  binds : bind o.catalog query = .ok bound
  staged : Staged query bound o.catalog plan src
  fits : plan.root.Fits (o.tables n)
  messages : ∀ row, (plan.root.meaning (o.tables n)).2 row ≠ 0 → ∃ m, row = [.str m]

section Pipeline

variable {o : Oracle} {n : Nat} {query : Query} {bound : Bound} {plan : CircuitPlan} {src : CircuitNode}

section

variable (h : Planned o n query bound plan src)
include h

theorem Planned.nonneg : ∀ table, 0 ≤ o.tables n table :=
  h.sealed.tables_nonneg h.epoch

theorem Planned.fits_grouped :
    (withGroupBy query.groupBy bound.groupedSchema (withFilter .qualified query.filter src)).Fits (o.tables n) :=
  withProject_below.1 (h.staged.fits h.fits)

theorem Planned.fits_filtered :
    (withFilter .qualified query.filter src).Fits (o.tables n) := withGroupBy_fits h.fits_grouped

theorem Planned.source : Outcome (fun r => Agree r ∅ src (o.tables n)) (o.evalSource n query.source) := by
  have hfits : src.Fits (o.tables n) := withFilter_below.1 h.fits_filtered
  obtain ⟨_, _, herr⟩ := sourceNode_spec h.staged.source
  refine (Oracle.evalSource_spec h.sealed h.epoch h.staged.input h.staged.source hfits).mono
    (fun r hr => ⟨hr.1, hr.2.1, hr.2.2, valid_empty, fun m => ?_⟩)
  simp [herr]

theorem Planned.filtered {source : Relation}
    (hs : o.evalSource n query.source = .ok source) :
    ∃ filtered live, filterStage query.filter source ∅ = .ok (filtered, live) ∧
      Agree filtered live (withFilter .qualified query.filter src) (o.tables n) :=
  (h.source.of_ok hs).filterStage h.nonneg (withFilter_below.1 h.fits_filtered) h.staged.filtered

end

variable {schema : Schema} {aggs : List (Named AggFunc)}

/-- Merging equal rows changes which rows are there for no row. -/
theorem argumentsEvaluate_congr {keys : List (Named Expr)} {l l' : Entries}
    (h : ArgumentsEvaluate schema keys aggs l) (hl : ∀ e ∈ l, 0 < e.2.val) (hl' : ∀ e ∈ l', 0 < e.2.val)
    (hz : ofEntries l' = ofEntries l) :
    ArgumentsEvaluate schema keys aggs l' := by
  intro e he
  have hne := (ofEntries_ne_zero_iff hl').2 ⟨e, he, rfl⟩
  rw [hz] at hne
  obtain ⟨x, hx, hxe⟩ := (ofEntries_ne_zero_iff hl).1 hne
  exact hxe ▸ h x hx

variable {r : Relation} {live : LiveErrors}

theorem Planned.grouped (h : Planned o n query bound plan src)
    (hr : Agree r live (withFilter .qualified query.filter src) (o.tables n))
    (hev : ∀ g, query.groupBy = some g → Schweep.ArgumentsEvaluate r.schema g.keys g.aggregates r.entries) :
    Outcome (fun x => Agree x.1 x.2
        (withGroupBy query.groupBy bound.groupedSchema (withFilter .qualified query.filter src)) (o.tables n))
      (groupStage query.groupBy bound.groupedSchema r live) := by
  have hfits := h.fits_grouped
  have htyped := h.staged.grouped
  cases hg : query.groupBy with
  | none => exact hr
  | some g =>
    rw [hg] at hfits htyped
    have hagg : (aggregate (withFilter .qualified query.filter src) g.keys g.aggregates
        bound.groupedSchema).Typed := withFilter_below_typed htyped
    unfold groupStage
    refine Outcome.bind (hr.evalGroupBy h.nonneg h.fits_filtered hagg (hev g hg)) (fun x _ hx => ?_)
    obtain ⟨r', live', hstage, hagree⟩ := hx.filterStage h.nonneg (withFilter_below.1 hfits) htyped
    dsimp only
    rw [hstage]
    exact hagree

/-- The oracle's answer, where every aggregate argument evaluates. -/
theorem Planned.answerAt (h : Planned o n query bound plan src) (hev : o.ArgumentsEvaluate query n) :
    AnswerIs bound.outputSchema (plan.root.meaning (o.tables n)) (o.answerAt query n) := by
  have hweight : ∀ {α : Type} {P : α → Prop} {x : Except OracleError α} {e : OracleError}
      {k : α → Except OracleError ZSetBatch}, Outcome P x → x = .error e →
      AnswerIs bound.outputSchema (plan.root.meaning (o.tables n)) (x >>= k) := by
    intro α P x e k hx he
    subst he
    exact Or.inr (Or.inr ⟨e, rfl, hx⟩)
  unfold Oracle.answerAt
  rw [if_neg (show ¬ n > o.sealedEpoch from not_lt.2 h.epoch), h.binds]
  simp only [orPlan, ok_bind]
  cases hsource : o.evalSource n query.source with
  | error e => exact hsource ▸ hweight h.source hsource
  | ok source =>
    obtain ⟨filtered, live, hfilter, hagree⟩ := h.filtered hsource
    simp only [ok_bind, hfilter]
    have hcons := hagree.consolidate
    cases hmerged : consolidateRelation filtered.entries with
    | error e => exact hmerged ▸ hweight hcons hmerged
    | ok merged =>
      rw [hmerged] at hcons
      obtain ⟨hmagree, _⟩ := hcons
      simp only [ok_bind]
      have hgroup := h.grouped hmagree (fun g hg => argumentsEvaluate_congr (hev g hg source filtered live
        hsource hfilter) hagree.pos hmagree.pos (hmagree.data.trans hagree.data.symm))
      cases hstage : groupStage query.groupBy bound.groupedSchema ⟨filtered.schema, merged⟩ live with
      | error e => exact hstage ▸ hweight hgroup hstage
      | ok grouped =>
        rw [hstage] at hgroup
        obtain ⟨r, live', hselect, hsagree⟩ :=
          Agree.selectStage hgroup h.nonneg h.fits_grouped h.staged.projected
        simp only [ok_bind, hselect]
        have hroot := h.staged.rootSchema
        rw [← hroot]
        exact hsagree.finishAnswer h.staged.root h.fits h.messages

/-! An answer without live errors had none in its groups. -/

variable {r' : Relation} {live' : LiveErrors} {output : Schema} {b : ZSetBatch}

theorem filterStage_live (h : filterStage predicate r live = .ok (r', live')) (hempty : ∀ m, m ∉ live') :
    ∀ m, m ∉ live := by
  cases predicate with
  | none =>
    cases h
    exact hempty
  | some e =>
    obtain ⟨⟨kept, live1⟩, hrec, h⟩ := bind_ok.1 h
    cases h
    exact fun m hm => hempty m (((recordEntries_spec hrec).2.2.2 m).2 (Or.inl hm))

theorem selectStage_live {items : Option (List (Named Expr))} (h : selectStage items output r live = .ok (r', live'))
    (hempty : ∀ m, m ∉ live') : ∀ m, m ∉ live := by
  cases items with
  | none =>
    cases h
    exact hempty
  | some items =>
    obtain ⟨⟨kept, live1⟩, hrec, h⟩ := bind_ok.1 h
    cases h
    exact fun m hm => hempty m (((recordEntries_spec hrec).2.2.2 m).2 (Or.inl hm))

theorem finishAnswer_live {query : Query} (h : finishAnswer query output r live = .ok b) : ∀ m, m ∉ live := by
  unfold finishAnswer at h
  cases hl : live.least with
  | none => exact least_none hl
  | some e =>
    rw [hl] at h
    cases h

/-- An oracle that answers has evaluated every aggregate argument. -/
theorem Planned.evaluates_of_answer (h : Planned o n query bound plan src) (hb : o.answerAt query n = .ok b) :
    o.ArgumentsEvaluate query n := by
  intro g hg source filtered live hsource hfilter
  obtain ⟨_, _, hfilter', hagree⟩ := h.filtered hsource
  cases hfilter.symm.trans hfilter'
  unfold Oracle.answerAt at hb
  rw [if_neg (show ¬ n > o.sealedEpoch from not_lt.2 h.epoch), h.binds] at hb
  simp only [orPlan, ok_bind, hsource, hfilter] at hb
  obtain ⟨merged, hmerged, hb⟩ := bind_ok.1 hb
  obtain ⟨⟨grouped, live1⟩, hgroup, hb⟩ := bind_ok.1 hb
  obtain ⟨⟨selected, live2⟩, hselect, hb⟩ := bind_ok.1 hb
  rw [hg] at hgroup
  obtain ⟨⟨r, live0⟩, heval, hhaving⟩ := bind_ok.1 hgroup
  have hempty := filterStage_live hhaving (selectStage_live hselect (finishAnswer_live hb))
  obtain ⟨hmagree, _⟩ := hagree.consolidate.of_ok hmerged
  have hev : Schweep.ArgumentsEvaluate filtered.schema g.keys g.aggregates merged :=
    evalGroupBy_evaluates (r := ⟨filtered.schema, merged⟩) hmagree.pos heval hempty
  exact argumentsEvaluate_congr hev hmagree.pos hagree.pos (hagree.data.trans hmagree.data.symm)

theorem slotErrs_evaluates {row : Row} (h : slotErrs schema row aggs = 0) :
    ∀ agg ∈ aggs, ∃ input, slotInput schema row agg.value = .ok input := by
  induction aggs with
  | nil => simp
  | cons agg rest ih =>
    unfold slotErrs at h
    cases hi : slotInput schema row agg.value with
    | error e =>
      rw [hi, add_eq_zero_iff_of_nonneg (Finsupp.single_nonneg.2 zero_le_one)
        (slotErrs_nonneg _ _ _)] at h
      simp at h
    | ok input =>
      rw [hi, zero_add] at h
      exact forall_mem_cons.2 ⟨⟨input, hi⟩, ih h⟩

theorem Planned.evaluates_of_errors (h : Planned o n query bound plan src)
    (herr : (plan.root.meaning (o.tables n)).2 = 0) : o.ArgumentsEvaluate query n := by
  intro g hg source filtered live hsource hfilter
  obtain ⟨_, _, hfilter', hagree⟩ := h.filtered hsource
  cases hfilter.symm.trans hfilter'
  rw [h.staged.errors, hg] at herr
  have hagg := withFilter_below.2 h.nonneg (withProject_below.2 h.nonneg herr)
  have hlin := aggregate_below h.nonneg hagg
  intro e he key hkey agg hmem arg harg
  have hrow : (aggregateOf (withFilter .qualified query.filter src).schema g.keys g.aggregates
      bound.groupedSchema).rowErrors e.1 = 0 := by
    ext x
    by_contra hx
    refine absurd ?_ ((lin_ofEntries_ne_zero_iff (rowErrors_nonneg _) hagree.pos).2 ⟨e, he, hx⟩)
    rw [show ofEntries filtered.entries = _ from hagree.data, hlin]
    rfl
  unfold rowErrors at hrow
  rw [hagree.schema] at hkey ⊢
  obtain ⟨input, hinput⟩ := slotErrs_evaluates (by simpa [aggregateOf, hkey] using hrow) agg hmem
  obtain ⟨v, hv, _⟩ := slotInput_ok harg hinput
  exact ⟨v, hv⟩

end Pipeline

end Mutiny.Schweep
