import Mutiny.Lib.Except
import Mutiny.Lib.WeightMap
import Mutiny.Schweep.Plan

/- The naive reference engine (`schweep-oracle`).

   The oracle keeps a log of epochs and recomputes every answer from the log
   prefix: FROM by nested loops, then WHERE, GROUP BY, HAVING, SELECT and
   DISTINCT. An evaluation error does not stop the recomputation: the row (or
   the group) is dropped, the error is recorded as live, and the least live
   message is the answer.

   Correspondence (Rust ↔ Lean) where names differ:
     `Oracle::answer_at`     ↔ `Oracle.answerAt`, one function per stage
   A method that takes `&mut self` returns its result and the oracle it leaves. -/
namespace Mutiny.Schweep
open Mutiny.Lib

inductive OracleError where
  | plan (e : PlanError)
  | zset (e : ZSetError)
  | duplicateTable (name : String)
  | negativeIntegral (table : String) (row : Row) (weight : I64) (epoch : Nat)
  | epochOutOfRange (requested sealed : Nat)
  | joinWeightOverflow
  | negativeIntermediate (stage : String) (weight : I64)
  deriving DecidableEq

/-- A weight left the `i64` range: a product of multiplicities, a sum of weights
    of one row, or the total weight of a group. -/
def OracleError.isWeightOverflow : OracleError → Bool
  | .joinWeightOverflow => true
  | .zset (.weightOverflow _) => true
  | .plan (.aggregateOverflow func) => func == "GROUP BY"
  | _ => false

def orPlan {α : Type} : Except PlanError α → Except OracleError α
  | .error e => .error (.plan e)
  | .ok a => .ok a

def orZSet {α : Type} : Except ZSetError α → Except OracleError α
  | .error e => .error (.zset e)
  | .ok a => .ok a

structure Relation where
  schema : Schema
  entries : Entries

structure Oracle where
  catalog : Catalog
  log : List EpochDeltas

/-! Live errors. -/

/-- The live errors of one recomputation, by message. -/
abbrev LiveErrors := BTreeMap String PlanError

/-- Only a fact about the data becomes live; anything else is returned. -/
def LiveErrors.record (live : LiveErrors) (error : PlanError) : Except OracleError LiveErrors :=
  if error.isEvaluationError then .ok (live.insert error.message error) else .error (.plan error)

def LiveErrors.least (live : LiveErrors) : Option PlanError := live.toList.head?.map Prod.snd

/-! Aggregates over the members of a group. -/

def orAggregateOverflow {α : Type} (func : String) : Option α → Except PlanError α
  | some a => .ok a
  | none => .error (.aggregateOverflow func)

def fitI128 (x : Int) : Option Int := if InI128 x then some x else none

def countWeights (func : String) : I64 → Entries → Except PlanError I64
  | total, [] => .ok total
  | total, (_, w) :: rest => do
    let total ← orAggregateOverflow func (I64.checkedAdd total w)
    countWeights func total rest

def countValues (func : String) (arg : Expr) (scope : Schema) : I64 → Entries → Except PlanError I64
  | total, [] => .ok total
  | total, (row, w) :: rest => do
    let v ← eval scope row arg
    if v.isNull then countValues func arg scope total rest
    else
      let total ← orAggregateOverflow func (I64.checkedAdd total w)
      countValues func arg scope total rest

/-- The running sum in `i128` and count in `i64` of the non-null values. -/
structure SumCount where
  sum : Int
  count : I64
  any : Bool

def SumCount.add (func : String) (acc : SumCount) (x weight : I64) : Except PlanError SumCount := do
  let term ← orAggregateOverflow func (fitI128 (weight.val * x.val))
  let sum ← orAggregateOverflow func (fitI128 (acc.sum + term))
  let count ← orAggregateOverflow func (I64.checkedAdd acc.count weight)
  return ⟨sum, count, true⟩

def sumValues (func : String) (arg : Expr) (scope : Schema) : SumCount → Entries → Except PlanError SumCount
  | acc, [] => .ok acc
  | acc, (row, w) :: rest => do
    let v ← eval scope row arg
    match v with
    | .null => sumValues func arg scope acc rest
    | .int x =>
      let acc ← acc.add func x w
      sumValues func arg scope acc rest
    | other => throw (.aggregateTypeUnsupported func (other.dataType.getD .int64))

/-- The exact sum, narrowed with a check, and the exact count; `none` when the
    group has no non-null value. -/
def SumCount.finish (func : String) (acc : SumCount) : Except PlanError (Option (I64 × I64)) :=
  if acc.any then do
    let sum ← orAggregateOverflow func (I64.ofInt? acc.sum)
    return some (sum, acc.count)
  else .ok none

def sumAndCount (arg : Expr) (members : Entries) (scope : Schema) (func : String) :
    Except PlanError (Option (I64 × I64)) := do
  let acc ← sumValues func arg scope ⟨0, I64.zero, false⟩ members
  acc.finish func

inductive Extremum where
  | min
  | max
  deriving DecidableEq, Repr

/-- The value kept when a new one meets the best so far. -/
def Extremum.better (which : Extremum) : Option Value → Value → Value
  | none, v => v
  | some current, v => match which with
    | .min => if v < current then v else current
    | .max => if v > current then v else current

def extremum (arg : Expr) (scope : Schema) (which : Extremum) : Option Value → Entries → Except PlanError Value
  | best, [] => .ok (best.getD .null)
  | best, (row, w) :: rest =>
    if w.val < 1 then extremum arg scope which best rest
    else do
      let v ← eval scope row arg
      if v.isNull then extremum arg scope which best rest
      else extremum arg scope which (some (which.better best v)) rest

def evaluate (func : AggFunc) (members : Entries) (scope : Schema) : Except PlanError Value :=
  match func with
  | .countStar => (countWeights func.name I64.zero members).map .int
  | .count arg => (countValues func.name arg scope I64.zero members).map .int
  | .sum arg => do
    let r ← sumAndCount arg members scope func.name
    return match r with
      | none => .null
      | some (sum, _) => .int sum
  | .avg arg => do
    let r ← sumAndCount arg members scope func.name
    return match r with
      | none => .null
      | some (sum, count) => .float (F64.ofRatio sum count)
  | .min arg => extremum arg scope .min none members
  | .max arg => extremum arg scope .max none members

/-! FROM. -/

namespace Oracle

/-- Tables in order; each schema passes the table door again. -/
def addTables : Catalog → List (String × Schema) → Except OracleError Catalog
  | catalog, [] => .ok catalog
  | catalog, (name, schema) :: rest => do
    let checked ← orZSet (Schema.newTable schema.fields)
    if catalog.contains name then throw (.duplicateTable name)
    else addTables (catalog.insert name checked) rest

def new (tables : List (String × Schema)) : Except OracleError Oracle := do
  let catalog ← addTables ∅ tables
  return ⟨catalog, []⟩

def sealedEpoch (o : Oracle) : Nat := o.log.length

/-- The weights of an integrated table: none negative, zeros left out. -/
def presentEntries (table : String) (epoch : Nat) : Entries → Except OracleError Entries
  | [] => .ok []
  | (row, w) :: rest =>
    if w.val < 0 then .error (.negativeIntegral table row w epoch)
    else do
      let out ← presentEntries table epoch rest
      return if w.val ≠ 0 then (row, w) :: out else out

/-- A table's entries over a log prefix, in arrival order. -/
def deltasOf (table : String) (epochs : List EpochDeltas) : Entries :=
  epochs.flatMap (fun d => d.entriesFor table)

/-- A table's contents: the integral of its deltas over `1..=epoch`. -/
def contentsAt (o : Oracle) (table : String) (epoch : Nat) : Except OracleError Entries :=
  if ¬ o.catalog.contains table then .error (.plan (.unknownTable table))
  else if epoch > o.sealedEpoch then .error (.epochOutOfRange epoch o.sealedEpoch)
  else match WeightMap.addAll I64.checkedAdd ∅ (deltasOf table (o.log.take epoch)) with
    | none => .error (.zset (.weightOverflow "integrating a table's deltas"))
    | some integral => presentEntries table epoch integral.toList

def checkValues (schema : Schema) : Nat → Row → Except ZSetError Unit
  | _, [] => .ok ()
  | index, v :: rest => do
    schema.checkValue index v
    checkValues schema (index + 1) rest

def checkRows (schema : Schema) : Entries → Except ZSetError Unit
  | [] => .ok ()
  | (row, _) :: rest => do
    if row.length ≠ schema.len then throw (.arityMismatch schema.len row.length)
    checkValues schema 0 row
    checkRows schema rest

/-- Every named table exists and every row fits it. -/
def checkDeltas (catalog : Catalog) : List (String × Entries) → Except OracleError Unit
  | [] => .ok ()
  | (table, entries) :: rest => match catalog[table]? with
    | none => .error (.plan (.unknownTable table))
    | some schema => do
      orZSet (checkRows schema entries)
      checkDeltas catalog rest

def checkContents (o : Oracle) (epoch : Nat) : List String → Except OracleError Unit
  | [] => .ok ()
  | name :: rest => do
    let _ ← o.contentsAt name epoch
    checkContents o epoch rest

/-- Seal one epoch. The deltas are in the log before the contents are checked,
    so an epoch refused for its contents stays in it. -/
def sealEpoch (o : Oracle) (deltas : EpochDeltas) : Except OracleError Nat × Oracle :=
  match checkDeltas o.catalog deltas.toList with
  | .error e => (.error e, o)
  | .ok () =>
    let o' : Oracle := ⟨o.catalog, o.log ++ [deltas]⟩
    match o'.checkContents o'.sealedEpoch o'.catalog.keys with
    | .error e => (.error e, o')
    | .ok () => (.ok o'.sealedEpoch, o')

def joinKeyIndexes (left right : Schema) : List (String × String) → Except OracleError (List (Nat × Nat))
  | [] => .ok []
  | (lname, rname) :: rest => match left.indexOf lname with
    | none => .error (.plan (.unknownColumn lname left))
    | some li => match right.indexOf rname with
      | none => .error (.plan (.unknownColumn rname right))
      | some ri => do
        let keys ← joinKeyIndexes left right rest
        return (li, ri) :: keys

/-- Every key comparison must be true; a null on either side is not. -/
def keysMatch (lrow rrow : Row) : List (Nat × Nat) → Except OracleError Bool
  | [] => .ok true
  | (li, ri) :: rest => match lrow[li]? with
    | none => .error (.negativeIntermediate "join key lookup" I64.zero)
    | some lv => match rrow[ri]? with
      | none => .error (.negativeIntermediate "join key lookup" I64.zero)
      | some rv =>
        if lv.isNull || rv.isNull || lv ≠ rv then .ok false else keysMatch lrow rrow rest

def joinRow (keys : List (Nat × Nat)) (lrow : Row) (lw : I64) : Entries → Except OracleError Entries
  | [] => .ok []
  | (rrow, rw) :: rest => do
    let hit ← keysMatch lrow rrow keys
    if hit then
      match I64.checkedMul lw rw with
      | none => throw .joinWeightOverflow
      | some w =>
        let out ← joinRow keys lrow lw rest
        return (lrow ++ rrow, w) :: out
    else joinRow keys lrow lw rest

def joinEntries (keys : List (Nat × Nat)) (right : Entries) : Entries → Except OracleError Entries
  | [] => .ok []
  | (lrow, lw) :: rest => do
    let here ← joinRow keys lrow lw right
    let out ← joinEntries keys right rest
    return here ++ out

def evalSource (o : Oracle) (epoch : Nat) : Source → Except OracleError Relation
  | .scan table aliasName => match o.catalog[table]? with
    | none => .error (.plan (.unknownTable table))
    | some schema => do
      let qualified ← orZSet (Schema.new (qualify aliasName schema.fields))
      let entries ← o.contentsAt table epoch
      return ⟨qualified, entries⟩
  | .join left right on =>
    if on = [] then .error (.plan .crossJoinNotSupported)
    else do
      let l ← o.evalSource epoch left
      let r ← o.evalSource epoch right
      let keys ← joinKeyIndexes l.schema r.schema on
      let schema ← orZSet (Schema.new (l.schema.fields ++ r.schema.fields))
      let entries ← joinEntries keys r.entries l.entries
      return ⟨schema, entries⟩

end Oracle

/-! The later stages. -/

/-- One pass over the entries: a row that evaluates contributes what it
    evaluates to, if anything; a row that raises is dropped and recorded. -/
def recordEntries (f : Row → Except PlanError (Option Row)) :
    LiveErrors → Entries → Except OracleError (Entries × LiveErrors)
  | live, [] => .ok ([], live)
  | live, (row, w) :: rest => match f row with
    | .ok none => recordEntries f live rest
    | .ok (some out) => do
      let (kept, live) ← recordEntries f live rest
      return ((out, w) :: kept, live)
    | .error e => do
      let live ← live.record e
      recordEntries f live rest

def filterStage (predicate : Option Expr) (r : Relation) (live : LiveErrors) :
    Except OracleError (Relation × LiveErrors) :=
  match predicate with
  | none => .ok (r, live)
  | some p => do
    let (kept, live) ← recordEntries (filterRow r.schema p) live r.entries
    return (⟨r.schema, kept⟩, live)

def selectStage (items : Option (List (Named Expr))) (output : Schema) (r : Relation)
    (live : LiveErrors) : Except OracleError (Relation × LiveErrors) :=
  match items with
  | none => .ok (r, live)
  | some items => do
    let (projected, live) ← recordEntries (projectRow r.schema items) live r.entries
    return (⟨output, projected⟩, live)

/-- Equal rows merged, zero weights dropped, rows in order. -/
def consolidateRelation (entries : Entries) : Except OracleError Entries :=
  match WeightMap.addAll I64.checkedAdd ∅ entries with
  | none => .error (.zset (.weightOverflow "consolidating an intermediate relation"))
  | some merged => .ok (WeightMap.nonzero merged)

abbrev Groups := BTreeMap (List Value) Entries

def groupEntries (keys : List (Named Expr)) (schema : Schema) :
    Groups → LiveErrors → Entries → Except OracleError (Groups × LiveErrors)
  | groups, live, [] => .ok (groups, live)
  | groups, live, (row, w) :: rest =>
    if w.val < 0 then .error (.negativeIntermediate "GROUP BY input" w)
    else match evalNamed schema row keys with
      | .error e => do
        let live ← live.record e
        groupEntries keys schema groups live rest
      | .ok key =>
        groupEntries keys schema (groups.insert key (groups.getD key [] ++ [(row, w)])) live rest

/-- A group's aggregates in order, up to the first that raises. -/
def evaluateAll (members : Entries) (schema : Schema) : List (Named AggFunc) → Except PlanError (List Value)
  | [] => .ok []
  | agg :: rest => do
    let v ← evaluate agg.value members schema
    let values ← evaluateAll members schema rest
    return v :: values

/-- One row at weight 1 for every group that exists and evaluates. -/
def emitGroups (g : GroupBy) (schema : Schema) :
    LiveErrors → List (List Value × Entries) → Except OracleError (Entries × LiveErrors)
  | live, [] => .ok ([], live)
  | live, (key, members) :: rest => do
    let total ← orPlan (countWeights "GROUP BY" I64.zero members)
    if total.val ≤ 0 ∧ g.keys ≠ [] then emitGroups g schema live rest
    else match evaluateAll members schema g.aggregates with
      | .error e =>
        if e.isEvaluationError then
          let live ← live.record e
          emitGroups g schema live rest
        else throw (.plan e)
      | .ok values =>
        let (out, live) ← emitGroups g schema live rest
        return ((key ++ values, I64.one) :: out, live)

/-- With no keys there is one group from the start, and it has no members. -/
def seedGroups (g : GroupBy) : Groups := if g.keys = [] then (∅ : Groups).insert [] [] else ∅

def evalGroupBy (g : GroupBy) (input : Relation) (output : Schema) (live : LiveErrors) :
    Except OracleError (Relation × LiveErrors) := do
  let (groups, live) ← groupEntries g.keys input.schema (seedGroups g) live input.entries
  let (entries, live) ← emitGroups g input.schema live groups.toList
  return (⟨output, entries⟩, live)

def groupStage (groupBy : Option GroupBy) (grouped : Schema) (r : Relation) (live : LiveErrors) :
    Except OracleError (Relation × LiveErrors) :=
  match groupBy with
  | none => .ok (r, live)
  | some g => do
    let (r, live) ← evalGroupBy g r grouped live
    filterStage g.having r live

/-- DISTINCT: every row present appears once. -/
def distinctEntries : Entries → Except OracleError Entries
  | [] => .ok []
  | (row, w) :: rest =>
    if w.val < 0 then .error (.negativeIntermediate "DISTINCT input" w)
    else do
      let out ← distinctEntries rest
      return (row, I64.one) :: out

/-- The answer is an error while any error is live. -/
def finishAnswer (query : Query) (output : Schema) (r : Relation) (live : LiveErrors) : Except OracleError ZSetBatch :=
  match live.least with
  | some error => .error (.plan error)
  | none => do
    let entries ← consolidateRelation r.entries
    let entries ← if query.distinct then distinctEntries entries else .ok entries
    orZSet (ZSetBatch.fromEntries output entries)

def Oracle.answerAt (o : Oracle) (query : Query) (epoch : Nat) : Except OracleError ZSetBatch :=
  if epoch > o.sealedEpoch then .error (.epochOutOfRange epoch o.sealedEpoch)
  else do
    let bound ← orPlan (bind o.catalog query)
    let source ← o.evalSource epoch query.source
    let (filtered, live) ← filterStage query.filter source ∅
    let merged ← consolidateRelation filtered.entries
    let (grouped, live) ← groupStage query.groupBy bound.groupedSchema ⟨filtered.schema, merged⟩ live
    let (selected, live) ← selectStage query.project bound.outputSchema grouped live
    finishAnswer query bound.outputSchema selected live

end Mutiny.Schweep
