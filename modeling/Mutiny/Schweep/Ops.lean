import Mutiny.Lib.Except
import Mutiny.Schweep.Plan
import Mutiny.Schweep.State

/- The circuit operators (`schweep-ops`).

   An operator consumes one epoch's input deltas and produces one epoch's output
   delta and the delta of its live errors. Filter and project are linear and
   keep nothing; the join keeps both sides' integrals, indexed by key; the
   aggregate keeps each group's total weight and, per aggregate slot, the
   ordered multiset of the argument's values; distinct keeps its input's
   integral.

   Correspondence (Rust ↔ Lean): `Operator::step` of each operator ↔ its `step`,
   `Join::integrate` ↔ `Join.integrate`, `Aggregate::emission` ↔
   `Aggregate.emission`, `Aggregate::fold` ↔ `Aggregate.fold`, `dyn Operator` ↔
   `Operator`. A step returns its result and the operator it leaves, also when
   it fails. -/
namespace Mutiny.Schweep
open Mutiny.Lib

inductive OpError where
  | plan (e : PlanError)
  | zset (e : ZSetError)
  | state (e : StateError)
  | arity (op : String) (expected found : Nat)
  | inputSchemaMismatch (op : String) (expected found : Schema)
  | predicateNotBoolean (op : String) (found : DataType)
  | joinKeyOutOfRange (side : String) (index : Nat)
  | joinWeightOverflow
  | corruptJoinIndex
  | corruptAggregateState
  /-- Not a value of the source's error type: the plain `+=` of a build with
      overflow checks panics here. -/
  | addOverflowPanic
  deriving DecidableEq

def opPlan {α : Type} : Except PlanError α → Except OpError α
  | .error e => .error (.plan e)
  | .ok a => .ok a

def opZSet {α : Type} : Except ZSetError α → Except OpError α
  | .error e => .error (.zset e)
  | .ok a => .ok a

/-- Every operator's error stream: one non-null text column. -/
def errorSchema : Schema := ⟨[⟨"error", .utf8, false⟩], by simp, by simp⟩

def errorRow (e : PlanError) : Row := [.str e.message]

structure StepOutput where
  data : ZSetBatch
  errors : ZSetBatch

def StepOutput.infallible (data : ZSetBatch) : Except OpError StepOutput :=
  .ok ⟨data, ZSetBatch.empty errorSchema⟩

def StepOutput.new (data : ZSetBatch) (errorEntries : Entries) : Except OpError StepOutput := do
  let errors ← opZSet (ZSetBatch.fromEntries errorSchema errorEntries)
  return ⟨data, errors⟩

/-- What an operator promises to remember between steps. -/
inductive StateBound where
  | stateless
  | proportionalToInputs (inputs : List String) (factor constant : Nat)
  | unbounded (reason : String)
  deriving DecidableEq, Repr

def unary (op : String) : List ZSetBatch → Except OpError ZSetBatch
  | [only] => .ok only
  | inputs => .error (.arity op 1 inputs.length)

def checkSchema (op : String) (expected : Schema) (input : ZSetBatch) : Except OpError Unit :=
  if input.schema ≠ expected then .error (.inputSchemaMismatch op expected input.schema) else .ok ()

/-- One pass over a delta: a row contributes what it evaluates to, if anything,
    and a row that raises contributes its message, both at the row's weight. -/
def splitEntries (f : Row → Except PlanError (Option Row)) : Entries → Except OpError (Entries × Entries)
  | [] => .ok ([], [])
  | (row, w) :: rest => match f row with
    | .ok none => splitEntries f rest
    | .ok (some out) => do
      let (kept, errors) ← splitEntries f rest
      return ((out, w) :: kept, errors)
    | .error e =>
      if e.isEvaluationError then do
        let (kept, errors) ← splitEntries f rest
        return (kept, (errorRow e, w) :: errors)
      else .error (.plan e)

/-! Filter. -/

structure Filter where
  inputSchema : Schema
  predicate : Expr

namespace Filter

def new (inputSchema : Schema) (naming : Naming) (predicate : Expr) : Except OpError Filter := do
  let found ← opPlan (typeOf ⟨inputSchema, naming⟩ predicate)
  if found = .boolean then return ⟨inputSchema, predicate⟩
  else throw (.predicateNotBoolean "filter" found)

def step (f : Filter) (inputs : List ZSetBatch) : Except OpError StepOutput := do
  let input ← unary "filter" inputs
  checkSchema "filter" f.inputSchema input
  let (kept, errors) ← splitEntries (filterRow f.inputSchema f.predicate) input.entries
  let data ← opZSet (ZSetBatch.fromEntries f.inputSchema kept)
  StepOutput.new data errors

end Filter

/-! Project. -/

structure Project where
  inputSchema : Schema
  outputSchema : Schema
  items : List (Named Expr)

namespace Project

def new (inputSchema : Schema) (naming : Naming) (items : List (Named Expr)) : Except OpError Project := do
  let outputSchema ← opPlan (projectionSchema ⟨inputSchema, naming⟩ items)
  return ⟨inputSchema, outputSchema, items⟩

def step (p : Project) (inputs : List ZSetBatch) : Except OpError StepOutput := do
  let input ← unary "project" inputs
  checkSchema "project" p.inputSchema input
  let (projected, errors) ← splitEntries (projectRow p.inputSchema p.items) input.entries
  let batch ← opZSet (ZSetBatch.fromEntries p.outputSchema projected)
  let data ← opZSet batch.consolidate
  StepOutput.new data errors

end Project

/-! Join. -/

structure Join where
  leftSchema : Schema
  rightSchema : Schema
  outputSchema : Schema
  leftKey : List Nat
  rightKey : List Nat
  leftIndex : MemBackend
  rightIndex : MemBackend

/-- A row's key values, or `none` if any is null: such a row joins nothing. -/
def keyOf (row : Row) : List Nat → Option (List Value)
  | [] => some []
  | position :: rest => match row[position]? with
    | none | some .null => none
    | some v => (keyOf row rest).map (v :: ·)

/-- The join key, then the whole row. -/
def indexKey (key : List Value) (row : Row) : Key := key ++ row

def rowFromIndexKey (key : Key) (keyLen : Nat) : Except OpError Row :=
  if key.length < keyLen then .error .corruptJoinIndex else .ok (key.drop keyLen)

/-- Concatenate the rows and multiply the weights. -/
def joined (left : Row) (leftWeight : I64) (right : Row) (rightWeight : I64) : Except OpError (Row × I64) :=
  match I64.checkedMul leftWeight rightWeight with
  | none => .error .joinWeightOverflow
  | some w => .ok (left ++ right, w)

namespace Join

variable (j : Join)

def checkKeys (left right : Schema) : List (Nat × Nat) → Except OpError Unit
  | [] => .ok ()
  | (l, r) :: rest => match left.field l with
    | none => .error (.joinKeyOutOfRange "left" l)
    | some lf => match right.field r with
      | none => .error (.joinKeyOutOfRange "right" r)
      | some rf =>
        if lf.dataType ≠ rf.dataType then .error (.plan (.typeMismatch "join key =" lf.dataType rf.dataType))
        else checkKeys left right rest

def new (leftSchema rightSchema : Schema) (on : List (Nat × Nat)) (leftIndex rightIndex : MemBackend) :
    Except OpError Join :=
  if on = [] then .error (.plan .crossJoinNotSupported)
  else do
    checkKeys leftSchema rightSchema on
    let outputSchema ← opZSet (Schema.new (leftSchema.fields ++ rightSchema.fields))
    return ⟨leftSchema, rightSchema, outputSchema, on.map Prod.fst, on.map Prod.snd, leftIndex, rightIndex⟩

/-- Every indexed row under one key, paired with one delta row. -/
def probe (keyLen : Nat) (pair : Row → I64 → Except OpError (Row × I64)) : List (Key × I64) → Except OpError Entries
  | [] => .ok []
  | (key, w) :: rest => do
    let row ← rowFromIndexKey key keyLen
    let entry ← pair row w
    let out ← probe keyLen pair rest
    return entry :: out

/-- A delta against the other side's index. A row without a key probes nothing. -/
def probeAll (positions : List Nat) (index : MemBackend) (keyLen : Nat)
    (pair : Row → I64 → Row → I64 → Except OpError (Row × I64)) : Entries → Except OpError Entries
  | [] => .ok []
  | (row, w) :: rest => match keyOf row positions with
    | none => probeAll positions index keyLen pair rest
    | some key => do
      let here ← probe keyLen (pair row w) (index.visitPrefix key)
      let out ← probeAll positions index keyLen pair rest
      return here ++ out

def crossRow (rightKey : List Nat) (leftRow : Row) (leftWeight : I64) (key : List Value) :
    Entries → Except OpError Entries
  | [] => .ok []
  | (rightRow, rightWeight) :: rest =>
    if keyOf rightRow rightKey = some key then do
      let entry ← joined leftRow leftWeight rightRow rightWeight
      let out ← crossRow rightKey leftRow leftWeight key rest
      return entry :: out
    else crossRow rightKey leftRow leftWeight key rest

/-- The two deltas against each other. -/
def cross (leftKey rightKey : List Nat) (right : Entries) : Entries → Except OpError Entries
  | [] => .ok []
  | (leftRow, leftWeight) :: rest => match keyOf leftRow leftKey with
    | none => cross leftKey rightKey right rest
    | some key => do
      let here ← crossRow rightKey leftRow leftWeight key right
      let out ← cross leftKey rightKey right rest
      return here ++ out

/-- The key a row is indexed under. A row without a key is kept under nulls,
    which no probe asks for. -/
def storedKey (positions : List Nat) (row : Row) : List Value :=
  (keyOf row positions).getD (positions.map (fun _ => .null))

def indexBatch (positions : List Nat) (entries : Entries) : WriteBatch :=
  entries.map (fun e => (indexKey (storedKey positions e.1) e.1, e.2))

/-- The left index is written first; the right write may still fail. -/
def integrate (left right : Entries) : Except OpError Unit × Join :=
  match j.leftIndex.write (indexBatch j.leftKey left) with
  | .error e => (.error (.state e), j)
  | .ok leftIndex =>
    let j := { j with leftIndex := leftIndex }
    match j.rightIndex.write (indexBatch j.rightKey right) with
    | .error e => (.error (.state e), j)
    | .ok rightIndex => (.ok (), { j with rightIndex := rightIndex })

/-- The three terms, all against the indexes as they were before the epoch. -/
def probes (left right : Entries) : Except OpError Entries := do
  let term1 ← probeAll j.leftKey j.rightIndex j.leftKey.length
    (fun leftRow lw rightRow rw => joined leftRow lw rightRow rw) left
  let term2 ← probeAll j.rightKey j.leftIndex j.leftKey.length
    (fun rightRow rw leftRow lw => joined leftRow lw rightRow rw) right
  let term3 ← cross j.leftKey j.rightKey right left
  return term1 ++ term2 ++ term3

def finish (out : Entries) : Except OpError StepOutput := do
  let batch ← opZSet (ZSetBatch.fromEntries j.outputSchema out)
  let data ← opZSet batch.consolidate
  StepOutput.infallible data

def inputs : List ZSetBatch → Except OpError (ZSetBatch × ZSetBatch)
  | [l, r] => do
    checkSchema "join (left)" j.leftSchema l
    checkSchema "join (right)" j.rightSchema r
    return (l, r)
  | batches => .error (.arity "join" 2 batches.length)

def step (batches : List ZSetBatch) : Except OpError StepOutput × Join :=
  match j.inputs batches with
  | .error e => (.error e, j)
  | .ok (l, r) => match j.probes l.entries r.entries with
    | .error e => (.error e, j)
    | .ok out => match j.integrate l.entries r.entries with
      | (.error e, j) => (.error e, j)
      | (.ok (), j) => (j.finish out, j)

def stateSize : Nat := j.leftIndex.len + j.rightIndex.len

end Join

/-! Aggregate. -/

structure Aggregate where
  inputSchema : Schema
  outputSchema : Schema
  keys : List (Named Expr)
  aggregates : List (Named AggFunc)
  state : MemBackend

inductive Emission where
  | absent
  | row (r : Row)
  | failed (e : PlanError)
  deriving DecidableEq

/-- The accumulators of one pass over a group's multiset. -/
structure FoldAcc where
  any : Bool
  count : I64
  sum : Int
  extremum : Option Value

/-- One epoch's change to an aggregate: live errors, group totals, and slot
    multisets by slot, group and value. -/
structure AggDelta where
  errors : Entries
  totals : WeightMap (List Value)
  values : WeightMap (ℕ ×ₗ List Value ×ₗ Value)

namespace Aggregate

variable (a : Aggregate)

def new (inputSchema outputSchema : Schema) (keys : List (Named Expr))
    (aggregates : List (Named AggFunc)) (state : MemBackend) : Except OpError Aggregate :=
  if aggregates = [] then .error (.plan .emptyGroupKeys)
  else .ok ⟨inputSchema, outputSchema, keys, aggregates, state⟩

def totalKey (group : List Value) : Key := .str "*" :: group

/-- `slot as i64`; a slot is a position in the select list. -/
def slotValue (slot : Nat) : Value := .int (I64.wrap slot)

def valuesPrefix (slot : Nat) (group : List Value) : Key := .str "v" :: slotValue slot :: group

def valueKey (slot : Nat) (group : List Value) (value : Value) : Key := valuesPrefix slot group ++ [value]

def isGrandTotal : Bool := a.keys.isEmpty

def primedKey : Key := [.str "primed"]

def overflow {α : Type} (func : AggFunc) : Option α → Except OpError α
  | some a => .ok a
  | none => .error (.plan (.aggregateOverflow func.name))

def fit (x : Int) : Option Int := if InI128 x then some x else none

/-- One visited entry: the new accumulators, and whether to go on. -/
def visitValue (func : AggFunc) (valueAt : Nat) (acc : FoldAcc) (key : Key) (weight : I64) :
    Except OpError (FoldAcc × Bool) :=
  match key[valueAt]? with
  | none => .error .corruptAggregateState
  | some value =>
    let acc := { acc with any := true }
    match func with
    | .count _ => do
      let count ← overflow func (I64.checkedAdd acc.count weight)
      return ({ acc with count := count }, true)
    | .sum _ | .avg _ => match value with
      | .int x => do
        let term ← overflow func (fit (weight.val * x.val))
        let sum ← overflow func (fit (acc.sum + term))
        let count ← overflow func (I64.checkedAdd acc.count weight)
        return ({ acc with sum := sum, count := count }, true)
      | other => .error (.plan (.aggregateTypeUnsupported func.name (other.dataType.getD .int64)))
    | .min _ => .ok ({ acc with extremum := some value }, false)
    | .max _ => .ok ({ acc with extremum := some value }, true)
    | .countStar => .ok (acc, false)

def visit (func : AggFunc) (valueAt : Nat) : FoldAcc → List (Key × I64) → Except OpError FoldAcc
  | acc, [] => .ok acc
  | acc, (key, w) :: rest => do
    let (acc, more) ← visitValue func valueAt acc key w
    if more then visit func valueAt acc rest else return acc

def total (group : List Value) : I64 := (a.state.get (totalKey group)).getD I64.zero

def fold (slot : Nat) (group : List Value) (func : AggFunc) : Except OpError Value :=
  match func with
  | .countStar => .ok (.int (a.total group))
  | _ => do
    let keyPrefix := valuesPrefix slot group
    let acc ← visit func keyPrefix.length ⟨false, I64.zero, 0, none⟩ (a.state.visitPrefix keyPrefix)
    match func with
    | .count _ => return .int acc.count
    | .sum _ =>
      if acc.any then
        let sum ← overflow func (I64.ofInt? acc.sum)
        return .int sum
      else return .null
    | .avg _ =>
      if acc.any then
        let sum ← overflow func (I64.ofInt? acc.sum)
        return .float (F64.ofRatio sum acc.count)
      else return .null
    | .min _ | .max _ => return acc.extremum.getD .null
    | .countStar => return .int (a.total group)

/-- The aggregates of a group in slot order, up to the first that fails. -/
def foldAll (a : Aggregate) (group : List Value) : Nat → List (Named AggFunc) → Except OpError (List Value)
  | _, [] => .ok []
  | slot, agg :: rest => do
    let v ← a.fold slot group agg.value
    let values ← a.foldAll group (slot + 1) rest
    return v :: values

/-- What a group emits, given the state as it stands. A keyed group exists iff
    its total weight is positive; a grand total once it has emitted. -/
def emission (group : List Value) (alreadyEmitted : Bool) : Except OpError Emission :=
  if (if a.isGrandTotal then !alreadyEmitted else decide ((a.total group).val ≤ 0)) then .ok .absent
  else match a.foldAll group 0 a.aggregates with
    | .ok values => .ok (.row (group ++ values))
    | .error (.plan e) => if e.isEvaluationError then .ok (.failed e) else .error (.plan e)
    | .error other => .error other

/-- The plain `+=` on a map entry. -/
def addPlain {α : Type} [LinearOrder α] (build : Build) (m : WeightMap α) (key : α) (w : I64) :
    Except OpError (WeightMap α) :=
  match I64.plainAdd build (m.weight key) w with
  | none => .error .addOverflowPanic
  | some sum => .ok (m.insert key sum)

/-- One row's contribution to each slot. A null enters no multiset; a raising
    argument is recorded and the other slots go on. -/
def collectSlots (build : Build) (schema : Schema) (row : Row) (w : I64) (group : List Value) :
    Nat → AggDelta → List (Named AggFunc) → Except OpError AggDelta
  | _, d, [] => .ok d
  | slot, d, agg :: rest => match agg.value.argument with
    | none => collectSlots build schema row w group (slot + 1) d rest
    | some argument => match eval schema row argument with
      | .ok .null => collectSlots build schema row w group (slot + 1) d rest
      | .ok value => do
        let values ← addPlain build d.values (toLex (slot, toLex (group, value))) w
        collectSlots build schema row w group (slot + 1) { d with values := values } rest
      | .error e =>
        if e.isEvaluationError then
          collectSlots build schema row w group (slot + 1) { d with errors := d.errors ++ [(errorRow e, w)] } rest
        else .error (.plan e)

/-- The epoch's change, row by row. A row whose key raises is in no group. -/
def collect (a : Aggregate) (build : Build) : AggDelta → Entries → Except OpError AggDelta
  | d, [] => .ok d
  | d, (row, w) :: rest => match evalNamed a.inputSchema row a.keys with
    | .error e =>
      if e.isEvaluationError then a.collect build { d with errors := d.errors ++ [(errorRow e, w)] } rest
      else .error (.plan e)
    | .ok group => do
      let totals ← addPlain build d.totals group w
      let d ← collectSlots build a.inputSchema row w group 0 { d with totals := totals } a.aggregates
      a.collect build d rest

/-- The groups an epoch touches, in order. A grand total is always touched. -/
def touched (d : AggDelta) : List (List Value) :=
  let groups := d.totals.keys
  if a.isGrandTotal && !groups.any List.isEmpty then groups ++ [[]] else groups

def emissions (a : Aggregate) (alreadyEmitted : Bool) : List (List Value) → Except OpError (List Emission)
  | [] => .ok []
  | group :: rest => do
    let e ← a.emission group alreadyEmitted
    let es ← a.emissions alreadyEmitted rest
    return e :: es

def stateBatch (d : AggDelta) (wasPrimed : Bool) : WriteBatch :=
  d.totals.toList.map (fun e => (totalKey e.1, e.2)) ++
    d.values.toList.map (fun e => (valueKey (ofLex e.1).1 (ofLex (ofLex e.1).2).1 (ofLex (ofLex e.1).2).2, e.2)) ++
    (if a.isGrandTotal && !wasPrimed then [(primedKey, I64.one)] else [])

/-- What an emission adds to the output and to the live errors, at weight `w`. -/
def Emission.entries (w : I64) : Emission → Entries × Entries
  | .absent => ([], [])
  | .row r => ([(r, w)], [])
  | .failed e => ([], [(errorRow e, w)])

/-- Retract what each group said, then state what it says now. -/
def changes (a : Aggregate) : List (List Value × Emission) → Except OpError (Entries × Entries)
  | [] => .ok ([], [])
  | (group, was) :: rest => do
    let now ← a.emission group true
    let (out, errors) ← a.changes rest
    if was = now then return (out, errors)
    else
      let before := Emission.entries I64.negOne was
      let after := Emission.entries I64.one now
      return (before.1 ++ after.1 ++ out, before.2 ++ after.2 ++ errors)

def finish (out errors : Entries) : Except OpError StepOutput := do
  let batch ← opZSet (ZSetBatch.fromEntries a.outputSchema out)
  let data ← opZSet batch.consolidate
  StepOutput.new data errors

/-- What an epoch changes, and what its groups emitted before it. -/
def prepare (build : Build) (inputs : List ZSetBatch) : Except OpError (AggDelta × List Emission) := do
  let input ← unary "aggregate" inputs
  checkSchema "aggregate" a.inputSchema input
  let d ← a.collect build ⟨[], ∅, ∅⟩ input.entries
  let before ← a.emissions (a.state.get primedKey).isSome (a.touched d)
  return (d, before)

def step (build : Build) (inputs : List ZSetBatch) : Except OpError StepOutput × Aggregate :=
  match a.prepare build inputs with
  | .error e => (.error e, a)
  | .ok (d, before) =>
    match a.state.write (a.stateBatch d (a.state.get primedKey).isSome) with
    | .error e => (.error (.state e), a)
    | .ok state =>
      let a' := { a with state := state }
      (do
        let (out, errors) ← a'.changes ((a.touched d).zip before)
        a'.finish out (d.errors ++ errors), a')

end Aggregate

/-! Distinct. -/

structure Distinct where
  schema : Schema
  state : MemBackend

namespace Distinct

/-- Present means weight above zero. -/
def sign (w : I64) : I64 := if w.val > 0 then I64.one else I64.zero

/-- The change in presence of each row of a consolidated delta. -/
def flips (state : MemBackend) : Entries → Except OpError Entries
  | [] => .ok []
  | (row, delta) :: rest =>
    let before := (state.get row).getD I64.zero
    match I64.checkedAdd before delta with
    | none => .error .joinWeightOverflow
    | some after => do
      let out ← flips state rest
      match I64.checkedSub (sign after) (sign before) with
      | none => throw .addOverflowPanic
      | some change => return if change.val ≠ 0 then (row, change) :: out else out

def prepare (d : Distinct) (inputs : List ZSetBatch) : Except OpError (Entries × WriteBatch) := do
  let input ← unary "distinct" inputs
  checkSchema "distinct" d.schema input
  let consolidated ← opZSet input.consolidate
  let out ← flips d.state consolidated.entries
  return (out, consolidated.entries)

def step (d : Distinct) (inputs : List ZSetBatch) : Except OpError StepOutput × Distinct :=
  match d.prepare inputs with
  | .error e => (.error e, d)
  | .ok (out, batch) => match d.state.write batch with
    | .error e => (.error (.state e), d)
    | .ok state =>
      (do
        let data ← opZSet (ZSetBatch.fromEntries d.schema out)
        StepOutput.infallible data, { d with state := state })

end Distinct

/-! Any operator. -/

inductive Operator where
  | filter (f : Filter)
  | project (p : Project)
  | join (j : Join)
  | aggregate (a : Aggregate)
  | distinct (d : Distinct)

namespace Operator

def name : Operator → String
  | .filter _ => "filter"
  | .project _ => "project"
  | .join _ => "join"
  | .aggregate _ => "aggregate"
  | .distinct _ => "distinct"

def arity : Operator → Nat
  | .join _ => 2
  | _ => 1

def outputSchema : Operator → Schema
  | .filter f => f.inputSchema
  | .project p => p.outputSchema
  | .join j => j.outputSchema
  | .aggregate a => a.outputSchema
  | .distinct d => d.schema

/-- One index entry per row for a join and for distinct; for an aggregate one
    total and one value per slot, and the marker of a grand total. -/
def stateBound : Operator → StateBound
  | .filter _ | .project _ => .stateless
  | .join _ => .proportionalToInputs ["left", "right"] 1 0
  | .aggregate a =>
    .proportionalToInputs ["input"] (1 + a.aggregates.length) (if a.isGrandTotal then 1 else 0)
  | .distinct _ => .proportionalToInputs ["input"] 1 0

def stateSize : Operator → Nat
  | .filter _ | .project _ => 0
  | .join j => j.stateSize
  | .aggregate a => a.state.len
  | .distinct d => d.state.len

def step (build : Build) (op : Operator) (inputs : List ZSetBatch) : Except OpError StepOutput × Operator :=
  match op with
  | .filter f => (f.step inputs, .filter f)
  | .project p => (p.step inputs, .project p)
  | .join j => let (r, j) := j.step inputs; (r, .join j)
  | .aggregate a => let (r, a) := a.step build inputs; (r, .aggregate a)
  | .distinct d => let (r, d) := d.step inputs; (r, .distinct d)

end Operator
end Mutiny.Schweep
