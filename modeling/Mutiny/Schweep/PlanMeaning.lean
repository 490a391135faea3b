import Mutiny.Schweep.CircuitSpec
import Mutiny.Schweep.GroupMeaning
import Mutiny.Schweep.Incremental
import Mutiny.Schweep.TypeSound

/- What a circuit plan means, and that the circuit built from it means that.

   `CircuitNode.meaning` is the plan read as one function of the tables: the
   data of its root and all the live errors under it. Instantiation lays the
   plan's nodes out in postorder (`Placed`), each with the operator its node
   describes. A circuit that holds its tables then holds, at the root and
   summed over the tree, the meaning of the plan (`Placed.meaning`). -/
namespace Mutiny.Schweep
open Mutiny.Lib CircuitBuilder Operator Aggregate CircuitNode Finsupp
open List (map_cons map_nil)
open Finsupp (single)

/-- The aggregate a plan node describes, over empty state. -/
def aggregateOf (input : Schema) (keys : List (Named Expr)) (aggregates : List (Named AggFunc))
    (schema : Schema) : Aggregate := ⟨input, schema, keys, aggregates, MemBackend.new⟩

namespace CircuitNode

/-- Data and live errors of a plan, when the tables hold `T`. -/
noncomputable def meaning (T : String → ZSet Row) : CircuitNode → Streams
  | .source table _ _ => (T table, 0)
  | .filter input _ predicate =>
    (ZSet.lin (rowData (filterRow input.schema predicate)) (input.meaning T).1,
      (input.meaning T).2 + ZSet.lin (rowErrs (filterRow input.schema predicate)) (input.meaning T).1)
  | .project input _ items _ =>
    (ZSet.lin (rowData (projectRow input.schema items)) (input.meaning T).1,
      (input.meaning T).2 + ZSet.lin (rowErrs (projectRow input.schema items)) (input.meaning T).1)
  | .join left right keys _ =>
    (ZSet.lin₂ (Join.matched (keys.map Prod.fst) (keys.map Prod.snd)) (left.meaning T).1 (right.meaning T).1,
      (left.meaning T).2 + (right.meaning T).2)
  | .aggregate input keys aggregates schema =>
    (0, (input.meaning T).2) +
      (aggregateOf input.schema keys aggregates schema).meaning (input.meaning T).1
  | .distinct input => (presence (input.meaning T).1, (input.meaning T).2)

/-- What binding says of the plan: expressions have types over the schemas below
    them, and schemas are the declared ones. -/
def Typed : CircuitNode → Prop
  | .source _ _ _ => True
  | .filter input naming predicate =>
    input.Typed ∧ typeOf ⟨input.schema, naming⟩ predicate = .ok .boolean
  | .project input naming items schema =>
    input.Typed ∧ projectionSchema ⟨input.schema, naming⟩ items = .ok schema
  | .join left right _ schema =>
    left.Typed ∧ right.Typed ∧ Schema.new (left.schema.fields ++ right.schema.fields) = .ok schema
  | .aggregate input keys aggregates _ =>
    input.Typed ∧ aggregates.length < 2 ^ 63 ∧
      (∃ fields, outputFields (typeOf ⟨input.schema, .qualified⟩) keys = .ok fields) ∧
      ∃ fields, outputFields (aggregateResultType ⟨input.schema, .qualified⟩) aggregates = .ok fields
  | .distinct input => input.Typed

/-- Every node's rows fit its schema. -/
def Fits (T : String → ZSet Row) : CircuitNode → Prop
  | .source table aliasName schema =>
    ∀ row, ((source table aliasName schema).meaning T).1 row ≠ 0 → schema.Conforms row
  | .filter input naming predicate =>
    input.Fits T ∧ ∀ row, ((filter input naming predicate).meaning T).1 row ≠ 0 → input.schema.Conforms row
  | .project input naming items schema =>
    input.Fits T ∧ ∀ row, ((project input naming items schema).meaning T).1 row ≠ 0 → schema.Conforms row
  | .join left right keys schema => left.Fits T ∧ right.Fits T ∧
    ∀ row, ((join left right keys schema).meaning T).1 row ≠ 0 → schema.Conforms row
  | .aggregate input keys aggregates schema => input.Fits T ∧
    ∀ row, ((aggregate input keys aggregates schema).meaning T).1 row ≠ 0 → schema.Conforms row
  | .distinct input => input.Fits T ∧
    ∀ row, ((distinct input).meaning T).1 row ≠ 0 → input.schema.Conforms row

theorem Fits.root {T : String → ZSet Row} {p : CircuitNode} (h : p.Fits T) {row : Row}
    (hr : (p.meaning T).1 row ≠ 0) : p.schema.Conforms row := by
  cases p with
  | source table aliasName schema => exact h row hr
  | filter input naming predicate | project input naming items schema | aggregate input keys aggregates schema
  | distinct input => exact h.2 row hr
  | join left right keys schema => exact h.2.2 row hr

end CircuitNode

/-! Nothing negative comes from tables that are not negative. -/

variable {T : String → ZSet Row}

theorem matched_nonneg (leftKey rightKey : List Nat) (left right : Row) :
    0 ≤ Join.matched leftKey rightKey left right := by
  unfold Join.matched
  split
  · exact le_rfl
  · split
    · exact single_nonneg.2 (by decide)
    · exact le_rfl

variable {α : Type}

theorem presence_nonneg (z : ZSet α) : 0 ≤ presence z := by
  intro a
  show (0 : ℤ) ≤ presence z a
  rw [presence_apply, present]
  split <;> decide

namespace Aggregate

theorem slotErrs_nonneg (schema : Schema) (row : Row) (aggs : List (Named AggFunc)) : 0 ≤ slotErrs schema row aggs := by
  induction aggs with
  | nil => exact le_rfl
  | cons agg rest ih =>
    refine add_nonneg ?_ ih
    split
    · exact single_nonneg.2 (by decide)
    · exact le_rfl

theorem rowErrors_nonneg (a : Aggregate) (row : Row) : 0 ≤ a.rowErrors row := by
  unfold rowErrors
  split
  · exact single_nonneg.2 (by decide)
  · exact slotErrs_nonneg _ _ _

theorem groupMeaning_nonneg (a : Aggregate) (z : ZSet Row) (g : List Value) : 0 ≤ a.groupMeaning z g := by
  unfold groupMeaning
  split
  · split
    · exact ⟨single_nonneg.2 (by decide), le_rfl⟩
    · exact ⟨le_rfl, single_nonneg.2 (by decide)⟩
  · exact le_rfl

theorem meaning_nonneg (a : Aggregate) {z : ZSet Row} (hz : 0 ≤ z) : 0 ≤ a.meaning z :=
  add_nonneg ⟨le_rfl, ZSet.lin_nonneg a.rowErrors_nonneg hz⟩ (finsum_nonneg (a.groupMeaning_nonneg z))

end Aggregate

theorem CircuitNode.meaning_nonneg (hT : ∀ table, 0 ≤ T table) (p : CircuitNode) : 0 ≤ p.meaning T := by
  induction p with
  | source table aliasName schema => exact ⟨hT table, le_rfl⟩
  | filter input naming predicate ih | project input naming items schema ih =>
    exact ⟨ZSet.lin_nonneg (rowData_nonneg _) ih.1, add_nonneg ih.2 (ZSet.lin_nonneg (rowErrs_nonneg _) ih.1)⟩
  | join left right keys schema ihl ihr =>
    refine ⟨ZSet.lin_nonneg (fun l => ZSet.lin_nonneg (matched_nonneg _ _ l) ihr.1) ihl.1,
      add_nonneg ihl.2 ihr.2⟩
  | aggregate input keys aggregates schema ih =>
    exact add_nonneg ⟨le_rfl, ih.2⟩ (Aggregate.meaning_nonneg _ ih.1)
  | distinct input ih => exact ⟨presence_nonneg _, ih.2⟩

/-! Where a plan's nodes are. -/

variable {p input : CircuitNode} {i : Nat} {b b' : CircuitBuilder}

/-- The operator a plan node describes, at a place, with its inputs. -/
def Wired (shape : List (Option Node)) (p : CircuitNode) (inputs : List Nat) (i : Nat) : Prop :=
  ∃ op, operatorFor p = .ok (some op) ∧ shape[i]? = some (some (.operator op inputs))

/-- A plan laid out in postorder over the places `lo..hi`, its root last. -/
inductive Placed (shape : List (Option Node)) : Nat → CircuitNode → Nat → Prop
  | source {lo : Nat} {table aliasName : String} {schema : Schema}
      (h : shape[lo]? = some (some (.source table aliasName schema))) :
      Placed shape lo (.source table aliasName schema) (lo + 1)
  | filter {lo mid : Nat} {input : CircuitNode} {naming : Naming} {predicate : Expr}
      (h : Placed shape lo input mid) (hw : Wired shape (.filter input naming predicate) [mid - 1] mid) :
      Placed shape lo (.filter input naming predicate) (mid + 1)
  | project {lo mid : Nat} {input : CircuitNode} {naming : Naming} {items : List (Named Expr)}
      {schema : Schema} (h : Placed shape lo input mid)
      (hw : Wired shape (.project input naming items schema) [mid - 1] mid) :
      Placed shape lo (.project input naming items schema) (mid + 1)
  | join {lo mid hi : Nat} {left right : CircuitNode} {keys : List (Nat × Nat)} {schema : Schema}
      (hl : Placed shape lo left mid) (hr : Placed shape mid right hi)
      (hw : Wired shape (.join left right keys schema) [mid - 1, hi - 1] hi) :
      Placed shape lo (.join left right keys schema) (hi + 1)
  | aggregate {lo mid : Nat} {input : CircuitNode} {keys : List (Named Expr)}
      {aggregates : List (Named AggFunc)} {schema : Schema} (h : Placed shape lo input mid)
      (hw : Wired shape (.aggregate input keys aggregates schema) [mid - 1] mid) :
      Placed shape lo (.aggregate input keys aggregates schema) (mid + 1)
  | distinct {lo mid : Nat} {input : CircuitNode} (h : Placed shape lo input mid)
      (hw : Wired shape (.distinct input) [mid - 1] mid) : Placed shape lo (.distinct input) (mid + 1)

theorem Placed.lt {shape : List (Option Node)} {lo hi : Nat} (h : Placed shape lo p hi) : lo < hi := by
  induction h with
  | source _ | filter _ _ ih | project _ _ ih | join _ _ _ ihl ihr | aggregate _ _ ih | distinct _ _ ih => omega

variable {inputs : List Nat}

theorem Wired.append {shape more : List (Option Node)} (h : Wired shape p inputs i) :
    Wired (shape ++ more) p inputs i := by
  obtain ⟨op, hop, hi⟩ := h
  exact ⟨op, hop, by rw [List.getElem?_append_left (List.getElem?_eq_some_iff.1 hi).1, hi]⟩

theorem Placed.append {shape : List (Option Node)} {lo hi : Nat} (h : Placed shape lo p hi)
    (more : List (Option Node)) : Placed (shape ++ more) lo p hi := by
  induction h with
  | source h => exact .source (by rw [List.getElem?_append_left (List.getElem?_eq_some_iff.1 h).1, h])
  | filter _ hw ih => exact .filter ih hw.append
  | project _ hw ih => exact .project ih hw.append
  | join _ _ hw ihl ihr => exact .join ihl ihr hw.append
  | aggregate _ hw ih => exact .aggregate ih hw.append
  | distinct _ hw ih => exact .distinct ih hw.append

/-- A builder's nodes, as the shape a circuit built from them has. -/
def CircuitBuilder.shape (b : CircuitBuilder) : List (Option Node) := b.nodes.map (fun n => some n.reset)

variable {op : Operator}

theorem operatorFor_reset (h : operatorFor p = .ok (some op)) : op.reset = op := by
  unfold operatorFor at h
  split at h
  · cases h
  · obtain ⟨f, _, h⟩ := bind_ok.1 h
    cases h
    rfl
  · obtain ⟨f, _, h⟩ := bind_ok.1 h
    cases h
    rfl
  · obtain ⟨j, hj, h⟩ := bind_ok.1 h
    cases h
    unfold Join.new at hj
    split at hj
    · cases hj
    · obtain ⟨_, _, hj⟩ := bind_ok.1 hj
      obtain ⟨_, _, hj⟩ := bind_ok.1 hj
      cases hj
      rfl
  · obtain ⟨a, ha, h⟩ := bind_ok.1 h
    cases h
    unfold Aggregate.new at ha
    split at ha
    · cases ha
    · cases ha
      rfl
  · cases h
    rfl

theorem sqlCircuit_ok {x : Except CircuitError α} {a : α} : sqlCircuit x = .ok a ↔ x = .ok a := by
  cases x <;> simp [sqlCircuit]

theorem sqlOps_ok {x : Except OpError α} {a : α} : sqlOps x = .ok a ↔ x = .ok a := by
  cases x <;> simp [sqlOps]

theorem sqlPlan_ok {x : Except PlanError α} {a : α} : sqlPlan x = .ok a ↔ x = .ok a := by
  cases x <;> simp [sqlPlan]

theorem addOperator_spec (h : addOperator b p inputs = .ok (i, b')) :
    (∃ node, b'.shape = b.shape ++ [node]) ∧ i = b.shape.length ∧ Wired b'.shape p inputs b.shape.length := by
  unfold addOperator at h
  obtain ⟨op, hop, h⟩ := bind_ok.1 h
  rw [sqlOps_ok] at hop
  cases op with
  | none => cases h
  | some op =>
    have hadd := sqlCircuit_ok.1 h
    unfold add at hadd
    obtain ⟨_, _, hadd⟩ := bind_ok.1 hadd
    cases hadd
    have hshape : shape { b with nodes := b.nodes ++ [.operator op inputs] } =
        b.shape ++ [some (.operator op inputs)] := by
      simp [shape, Node.reset, operatorFor_reset hop]
    refine ⟨⟨_, hshape⟩, by simp [shape], op, hop, ?_⟩
    rw [hshape]
    simp

theorem addUnary_spec {b1 : CircuitBuilder} {j : Nat}
    (hin : b.shape <+: b1.shape ∧ j + 1 = b1.shape.length ∧ Placed b1.shape b.shape.length input b1.shape.length)
    (h : addOperator b1 p [j] = .ok (i, b')) :
    b.shape <+: b'.shape ∧ i + 1 = b'.shape.length ∧ ∃ mid, b'.shape.length = mid + 1 ∧
      Placed b'.shape b.shape.length input mid ∧ Wired b'.shape p [mid - 1] mid := by
  obtain ⟨hpre, hj, hp⟩ := hin
  obtain ⟨⟨node, hs⟩, rfl, hw⟩ := addOperator_spec h
  rw [show j = b1.shape.length - 1 by omega] at hw
  have hlen : b'.shape.length = b1.shape.length + 1 := by rw [hs]; simp
  exact ⟨hs ▸ hpre.trans (List.prefix_append _ _), hlen.symm, _, hlen, hs ▸ hp.append _, hw⟩

/-- A node's subtree lands after everything before it, root last. -/
theorem addNode_spec (h : addNode b p = .ok (i, b')) :
    b.shape <+: b'.shape ∧ i + 1 = b'.shape.length ∧ Placed b'.shape b.shape.length p b'.shape.length := by
  induction p generalizing b b' i with
  | source table aliasName schema =>
    have hs := sqlCircuit_ok.1 h
    unfold CircuitBuilder.source at hs
    split at hs
    · cases hs
    · cases hs
      have hshape : shape ⟨b.nodes ++ [.source table aliasName schema],
          b.sources.insert aliasName b.nodes.length⟩ = b.shape ++ [some (.source table aliasName schema)] := by
        simp [shape, Node.reset]
      rw [hshape]
      refine ⟨List.prefix_append _ _, by simp [shape], ?_⟩
      rw [List.length_append]
      exact .source (by simp)
  | filter input naming predicate ih =>
    obtain ⟨⟨j, b1⟩, h1, h2⟩ := bind_ok.1 h
    obtain ⟨hpre, hi, mid, hlen, hp, hw⟩ := addUnary_spec (ih h1) h2
    exact ⟨hpre, hi, hlen ▸ .filter hp hw⟩
  | project input naming items schema ih =>
    obtain ⟨⟨j, b1⟩, h1, h2⟩ := bind_ok.1 h
    obtain ⟨hpre, hi, mid, hlen, hp, hw⟩ := addUnary_spec (ih h1) h2
    exact ⟨hpre, hi, hlen ▸ .project hp hw⟩
  | join left right keys schema ihl ihr =>
    obtain ⟨⟨l, b1⟩, h1, h⟩ := bind_ok.1 h
    obtain ⟨⟨r, b2⟩, h2, h3⟩ := bind_ok.1 h
    obtain ⟨hpre1, hl, hpl⟩ := ihl h1
    obtain ⟨⟨more, hmore⟩, hr, hpr⟩ := ihr h2
    obtain ⟨⟨node, hs⟩, rfl, hw⟩ := addOperator_spec h3
    rw [show l = b1.shape.length - 1 by omega, show r = b2.shape.length - 1 by omega] at hw
    refine ⟨?_, by rw [hs]; simp, ?_⟩
    · rw [hs]
      exact (hpre1.trans ⟨more, hmore⟩).trans (List.prefix_append _ _)
    · rw [hs] at hw ⊢
      rw [List.length_append]
      have hpl2 : Placed b2.shape b.shape.length left b1.shape.length := hmore ▸ hpl.append more
      exact .join (hpl2.append _) (hpr.append _) hw
  | aggregate input keys aggregates schema ih =>
    obtain ⟨⟨j, b1⟩, h1, h2⟩ := bind_ok.1 h
    obtain ⟨hpre, hi, mid, hlen, hp, hw⟩ := addUnary_spec (ih h1) h2
    exact ⟨hpre, hi, hlen ▸ .aggregate hp hw⟩
  | distinct input ih =>
    obtain ⟨⟨j, b1⟩, h1, h2⟩ := bind_ok.1 h
    obtain ⟨hpre, hi, mid, hlen, hp, hw⟩ := addUnary_spec (ih h1) h2
    exact ⟨hpre, hi, hlen ▸ .distinct hp hw⟩

/-! What each node's operator is. -/

variable {naming : Naming}

theorem operatorFor_filter {predicate : Expr} (h : operatorFor (.filter input naming predicate) = .ok (some op)) :
    op = .filter ⟨input.schema, predicate⟩ := by
  unfold operatorFor at h
  obtain ⟨f, hf, h⟩ := bind_ok.1 h
  cases h
  unfold Filter.new at hf
  obtain ⟨found, _, hf⟩ := bind_ok.1 hf
  split at hf
  · cases hf
    rfl
  · cases hf

variable {schema : Schema}

theorem operatorFor_project {items : List (Named Expr)}
    (h : operatorFor (.project input naming items schema) = .ok (some op))
    (ht : projectionSchema ⟨input.schema, naming⟩ items = .ok schema) :
    op = .project ⟨input.schema, schema, items⟩ := by
  unfold operatorFor at h
  obtain ⟨f, hf, h⟩ := bind_ok.1 h
  cases h
  unfold Project.new at hf
  rw [ht] at hf
  cases hf
  rfl

theorem operatorFor_join {left right : CircuitNode} {keys : List (Nat × Nat)}
    (h : operatorFor (.join left right keys schema) = .ok (some op))
    (ht : Schema.new (left.schema.fields ++ right.schema.fields) = .ok schema) :
    op = .join ⟨left.schema, right.schema, schema, keys.map Prod.fst, keys.map Prod.snd, MemBackend.new,
      MemBackend.new⟩ := by
  unfold operatorFor at h
  obtain ⟨j, hj, h⟩ := bind_ok.1 h
  cases h
  unfold Join.new at hj
  split at hj
  · cases hj
  · obtain ⟨_, _, hj⟩ := bind_ok.1 hj
    rw [ht] at hj
    cases hj
    rfl

theorem operatorFor_aggregate {keys : List (Named Expr)} {aggregates : List (Named AggFunc)}
    (h : operatorFor (.aggregate input keys aggregates schema) = .ok (some op)) :
    op = .aggregate (aggregateOf input.schema keys aggregates schema) := by
  unfold operatorFor at h
  obtain ⟨a, ha, h⟩ := bind_ok.1 h
  cases h
  unfold Aggregate.new at ha
  split at ha
  · cases ha
  · cases ha
    rfl

/-! The types an aggregate reads. -/

theorem outputFields_mem {ty : α → Except PlanError DataType} {items : List (Named α)} {fields : List Field}
    (h : outputFields ty items = .ok fields) {item : Named α} (hi : item ∈ items) : ∃ t, ty item.value = .ok t := by
  induction items generalizing fields with
  | nil => cases hi
  | cons x rest ih =>
    unfold outputFields at h
    obtain ⟨t, ht, h⟩ := bind_ok.1 h
    obtain ⟨fs, hfs, _⟩ := bind_ok.1 h
    rcases List.mem_cons.1 hi with rfl | hi
    · exact ⟨t, ht⟩
    · exact ih hfs hi

theorem slotInput_takes {func : AggFunc} {ty : DataType} {row : Row} {v : Value}
    (ht : aggregateResultType ⟨schema, naming⟩ func = .ok ty) (hr : schema.Conforms row)
    (hv : slotInput schema row func = .ok (some v)) : func.Takes v := by
  have hint : ∀ {arg : Expr}, func.argument = some arg → typeOf ⟨schema, naming⟩ arg = .ok .int64 →
      ∃ x, v = .int x := by
    intro arg ha hty
    obtain ⟨v', hev, ho⟩ := slotInput_ok ha hv
    have hfit := (@eval_sound ⟨schema, naming⟩ row hr arg _ hty).of_ok hev
    cases hn : v'.isNull with
    | true =>
      rw [hn] at ho
      cases ho
    | false =>
      rw [hn] at ho
      cases ho
      cases v <;> simp_all [Value.Fits, Value.dataType, Value.isNull]
  cases func with
  | sum arg | avg arg =>
    unfold aggregateResultType at ht
    obtain ⟨t, hty, ht⟩ := bind_ok.1 ht
    split at ht
    · next heq => exact hint rfl (heq ▸ hty)
    · cases ht
  | countStar | count arg | min arg | max arg => trivial

/-! A circuit with a plan placed in it. -/

variable {c : Circuit} {S : Nat → Streams}

theorem Circuit.Tracks.operatorAt (hc : c.Tracks .checked (fun _ => true) (fun _ => T) S)
    (h : Wired c.shape.1 p inputs i) : ∃ op : Operator, operatorFor p = .ok (some op.reset) ∧
      op.Tracks .checked true (inputs.map (fun j => (S j).1)) (S i) ∧
      ∀ row, (S i).1 row ≠ 0 → op.reset.outputSchema.Conforms row := by
  obtain ⟨op0, hop, hi⟩ := h
  obtain ⟨_, node, -, -, hr, hn⟩ := hc.nodeOf hi
  cases node with
  | source table aliasName schema => cases hr
  | operator op ins =>
    cases hr
    exact ⟨op, hop, hn.emits, fun row hrow => op.reset_outputSchema ▸ hn.conforms row hrow⟩

theorem sum_Ico_root {lo mid : Nat} (h : lo < mid) (f : Nat → ZSet Row) :
    ∑ j ∈ Finset.Ico lo (mid + 1), f j = ∑ j ∈ Finset.Ico lo mid, f j + f mid :=
  Finset.sum_Ico_succ_top h.le f

/-- The root's data and the tree's errors are what the plan means. -/
theorem Placed.meaning (hc : c.Tracks .checked (fun _ => true) (fun _ => T) S) (hT : ∀ table, 0 ≤ T table) {lo hi : Nat}
    (hp : Placed c.shape.1 lo p hi) (ht : p.Typed) :
    (S (hi - 1)).1 = (p.meaning T).1 ∧ ∑ j ∈ Finset.Ico lo hi, (S j).2 = (p.meaning T).2 ∧ p.Fits T := by
  induction hp with
  | @source lo table aliasName schema h =>
    obtain ⟨_, node, -, -, hr, hn⟩ := hc.nodeOf h
    cases node with
    | operator op inputs => cases hr
    | source t a s =>
      cases hr
      have hS : S lo = (T table, 0) := hn.emits
      refine ⟨by rw [Nat.add_sub_cancel, hS]; rfl, by simp [hS, CircuitNode.meaning], fun row hrow => ?_⟩
      refine hn.conforms row ?_
      rw [hS]
      exact hrow
  | @filter lo mid input naming predicate h hw ih =>
    obtain ⟨hin, herr, hfits⟩ := ih ht.1
    obtain ⟨op, hop, hold, hconf⟩ := hc.operatorAt hw
    have hop' := operatorFor_filter hop
    cases op with
    | filter f =>
      cases hop'
      simp only [map_cons, map_nil, hin] at hold
      obtain ⟨z, hz, hS⟩ := hold
      cases hz
      rw [Nat.add_sub_cancel, sum_Ico_root h.lt, hS, herr]
      refine ⟨rfl, rfl, hfits, fun row hrow => hconf row ?_⟩
      rw [hS]
      exact hrow
    | _ => cases hop'
  | @project lo mid input naming items schema h hw ih =>
    obtain ⟨hin, herr, hfits⟩ := ih ht.1
    obtain ⟨op, hop, hold, hconf⟩ := hc.operatorAt hw
    have hop' := operatorFor_project hop ht.2
    cases op with
    | project f =>
      cases hop'
      simp only [map_cons, map_nil, hin] at hold
      obtain ⟨z, hz, hS⟩ := hold
      cases hz
      rw [Nat.add_sub_cancel, sum_Ico_root h.lt, hS, herr]
      refine ⟨rfl, rfl, hfits, fun row hrow => hconf row ?_⟩
      rw [hS]
      exact hrow
    | _ => cases hop'
  | @join lo mid hi left right keys schema hl hr hw ihl ihr =>
    obtain ⟨hinl, herrl, hfitsl⟩ := ihl ht.1
    obtain ⟨hinr, herrr, hfitsr⟩ := ihr ht.2.1
    obtain ⟨op, hop, hold, hconf⟩ := hc.operatorAt hw
    have hop' := operatorFor_join hop ht.2.2
    cases op with
    | join j =>
      simp only [map_cons, map_nil, hinl, hinr] at hold
      obtain ⟨l, r, hz, _, _, hS⟩ := hold
      cases hz
      have hlk : j.leftKey = keys.map Prod.fst := congrArg Join.leftKey (Operator.join.inj hop')
      have hrk : j.rightKey = keys.map Prod.snd := congrArg Join.rightKey (Operator.join.inj hop')
      have hos : (Operator.join j).reset.outputSchema = schema := by rw [hop']; rfl
      rw [hlk, hrk] at hS
      have hsum : ∑ i ∈ Finset.Ico lo (hi + 1), (S i).2 =
          (left.meaning T).2 + (right.meaning T).2 + (S hi).2 := by
        rw [sum_Ico_root (hl.lt.trans hr.lt), ← herrl, ← herrr,
          Finset.sum_Ico_consecutive _ hl.lt.le hr.lt.le]
      rw [Nat.add_sub_cancel, hsum, hS]
      refine ⟨rfl, add_zero _, hfitsl, hfitsr, fun row hrow => hos ▸ hconf row ?_⟩
      rw [hS]
      exact hrow
    | _ => cases hop'
  | @aggregate lo mid input keys aggregates schema h hw ih =>
    obtain ⟨htin, hlen, _, fields, hfields⟩ := ht
    obtain ⟨hin, herr, hfits⟩ := ih htin
    obtain ⟨op, hop, hold, hconf⟩ := hc.operatorAt hw
    have hop' := operatorFor_aggregate hop
    cases op with
    | aggregate a =>
      simp only [map_cons, map_nil, hin] at hold
      obtain ⟨z, hz, hold⟩ := hold
      cases hz
      have ha : a = { aggregateOf input.schema keys aggregates schema with state := a.state } := by
        cases a
        cases hop'
        rfl
      have hos : (Operator.aggregate a).reset.outputSchema = schema := by rw [hop']; rfl
      have htyped : a.Typed (input.meaning T).1 := by
        intro row hrow agg hagg v hv
        rw [ha] at hagg hv
        obtain ⟨ty, hty⟩ := outputFields_mem hfields hagg
        exact slotInput_takes hty (hfits.root hrow) hv
      have hb : a.aggregates.length < 2 ^ 63 := by rw [ha]; exact hlen
      have hS : S mid = (aggregateOf input.schema keys aggregates schema).meaning (input.meaning T).1 := by
        rw [hold.meaning_eq (CircuitNode.meaning_nonneg hT input).1 hb htyped, ha]
        rfl
      rw [Nat.add_sub_cancel, sum_Ico_root h.lt, hS, herr]
      refine ⟨by simp [CircuitNode.meaning], rfl, hfits, fun row hrow => hos ▸ hconf row ?_⟩
      rw [hS]
      simpa [CircuitNode.meaning] using hrow
    | _ => cases hop'
  | @distinct lo mid input h hw ih =>
    obtain ⟨hin, herr, hfits⟩ := ih ht
    obtain ⟨op, hop, hold, hconf⟩ := hc.operatorAt hw
    cases op with
    | distinct d =>
      simp only [map_cons, map_nil, hin] at hold
      obtain ⟨z, hz, _, hS⟩ := hold
      cases hz
      have hos : (Operator.distinct d).reset.outputSchema = input.schema := by
        rw [← Option.some.inj (Except.ok.inj hop)]
        rfl
      rw [Nat.add_sub_cancel, sum_Ico_root h.lt, hS, herr]
      refine ⟨rfl, add_zero _, hfits, fun row hrow => hos ▸ hconf row ?_⟩
      rw [hS]
      exact hrow
    | _ => cases hop

end Mutiny.Schweep
