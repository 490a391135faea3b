import Mutiny.Schweep.Circuit

/- The incrementalizer (`schweep-sql`: `circuit_plan.rs`, `incremental.rs`,
   `instantiate.rs`): a bound query to a circuit plan, and a plan to a running
   circuit with operator state in memory.

   Correspondence (Rust ↔ Lean): `plan_of` ↔ `planOf`, `source_node` ↔
   `sourceNode`, `operator_for` ↔ `operatorFor`, `add` ↔ `addNode`,
   `instantiate` ↔ `instantiate`. A failure to build the circuit keeps the error
   it came from, where the source keeps its text. -/
namespace Mutiny.Schweep
open Mutiny.Lib

/-- A node of a circuit plan: one node, one operator. -/
inductive CircuitNode where
  | source (table aliasName : String) (schema : Schema)
  | filter (input : CircuitNode) (naming : Naming) (predicate : Expr)
  | project (input : CircuitNode) (naming : Naming) (items : List (Named Expr)) (schema : Schema)
  | join (left right : CircuitNode) (keys : List (Nat × Nat)) (schema : Schema)
  | aggregate (input : CircuitNode) (keys : List (Named Expr)) (aggregates : List (Named AggFunc))
      (schema : Schema)
  | distinct (input : CircuitNode)

def CircuitNode.schema : CircuitNode → Schema
  | .source _ _ schema => schema
  | .filter input _ _ => input.schema
  | .project _ _ _ schema => schema
  | .join _ _ _ schema => schema
  | .aggregate _ _ _ schema => schema
  | .distinct input => input.schema

structure CircuitPlan where
  root : CircuitNode
  outputSchema : Schema

inductive SqlError where
  | plan (e : PlanError)
  | planWiringMismatch (emitted expected : Schema)
  | circuit (e : CircuitError)
  | ops (e : OpError)
  deriving DecidableEq

def sqlPlan {α : Type} : Except PlanError α → Except SqlError α
  | .error e => .error (.plan e)
  | .ok a => .ok a

def sqlCircuit {α : Type} : Except CircuitError α → Except SqlError α
  | .error e => .error (.circuit e)
  | .ok a => .ok a

def sqlOps {α : Type} : Except OpError α → Except SqlError α
  | .error e => .error (.ops e)
  | .ok a => .ok a

/-! Query to plan. -/

def planIndexOf (schema : Schema) (name : String) : Except SqlError Nat :=
  match schema.indexOf name with
  | none => .error (.plan (.unknownColumn name schema))
  | some index => .ok index

def planKeys (left right : Schema) : List (String × String) → Except SqlError (List (Nat × Nat))
  | [] => .ok []
  | (l, r) :: rest => do
    let li ← planIndexOf left l
    let ri ← planIndexOf right r
    let keys ← planKeys left right rest
    return (li, ri) :: keys

def sourceNode (catalog : Catalog) : Source → Except SqlError CircuitNode
  | .scan table aliasName => do
    let schema ← sqlPlan (bindSource catalog (.scan table aliasName))
    return .source table aliasName schema
  | .join left right on => do
    let l ← sourceNode catalog left
    let r ← sourceNode catalog right
    let keys ← planKeys l.schema r.schema on
    let schema ← sqlPlan (liftZSet (Schema.new (l.schema.fields ++ r.schema.fields)))
    return .join l r keys schema

/-- WHERE over the source. -/
def withFilter (naming : Naming) (predicate : Option Expr) (node : CircuitNode) : CircuitNode :=
  match predicate with
  | none => node
  | some p => .filter node naming p

/-- GROUP BY, then HAVING. -/
def withGroupBy (groupBy : Option GroupBy) (grouped : Schema) (node : CircuitNode) : CircuitNode :=
  match groupBy with
  | none => node
  | some g => withFilter .unqualified g.having (.aggregate node g.keys g.aggregates grouped)

def withProject (items : Option (List (Named Expr))) (naming : Naming) (output : Schema)
    (node : CircuitNode) : CircuitNode :=
  match items with
  | none => node
  | some items => .project node naming items output

def planOf (query : Query) (bound : Bound) (catalog : Catalog) : Except SqlError CircuitPlan := do
  let node ← sourceNode catalog query.source
  let node := withFilter .qualified query.filter node
  let node := withGroupBy query.groupBy bound.groupedSchema node
  let node := withProject query.project query.groupedNaming bound.outputSchema node
  let node := if query.distinct then CircuitNode.distinct node else node
  if node.schema ≠ bound.outputSchema then throw (.planWiringMismatch node.schema bound.outputSchema)
  else return ⟨node, bound.outputSchema⟩

/-! Plan to circuit. -/

/-- The operator a plan node describes, with fresh state; none for a source. -/
def operatorFor : CircuitNode → Except OpError (Option Operator)
  | .source .. => .ok none
  | .filter input naming predicate => do
    let f ← Filter.new input.schema naming predicate
    return some (.filter f)
  | .project input naming items _ => do
    let p ← Project.new input.schema naming items
    return some (.project p)
  | .join left right keys _ => do
    let j ← Join.new left.schema right.schema keys MemBackend.new MemBackend.new
    return some (.join j)
  | .aggregate input keys aggregates schema => do
    let a ← Aggregate.new input.schema schema keys aggregates MemBackend.new
    return some (.aggregate a)
  | .distinct input => .ok (some (.distinct ⟨input.schema, MemBackend.new⟩))

/-- Wire the operator a node describes to inputs that are in place. -/
def addOperator (b : CircuitBuilder) (node : CircuitNode) (inputs : List Nat) :
    Except SqlError (Nat × CircuitBuilder) := do
  let op ← sqlOps (operatorFor node)
  match op with
  | none => throw (.planWiringMismatch node.schema node.schema)
  | some op => sqlCircuit (b.add op inputs)

/-- A node after its children, left to right. -/
def addNode (b : CircuitBuilder) : CircuitNode → Except SqlError (Nat × CircuitBuilder)
  | .source table aliasName schema => sqlCircuit (b.source table aliasName schema)
  | .filter input naming predicate => do
    let (i, b) ← addNode b input
    addOperator b (.filter input naming predicate) [i]
  | .project input naming items schema => do
    let (i, b) ← addNode b input
    addOperator b (.project input naming items schema) [i]
  | .join left right keys schema => do
    let (l, b) ← addNode b left
    let (r, b) ← addNode b right
    addOperator b (.join left right keys schema) [l, r]
  | .aggregate input keys aggregates schema => do
    let (i, b) ← addNode b input
    addOperator b (.aggregate input keys aggregates schema) [i]
  | .distinct input => do
    let (i, b) ← addNode b input
    addOperator b (.distinct input) [i]

def instantiate (mode : Build) (plan : CircuitPlan) : Except SqlError Circuit := do
  let (root, b) ← addNode CircuitBuilder.new plan.root
  let c ← sqlCircuit (b.build mode root)
  let sink ← sqlCircuit (c.sinkAt 0)
  if sink.result.schema ≠ plan.outputSchema then
    throw (.planWiringMismatch sink.result.schema plan.outputSchema)
  else return c

end Mutiny.Schweep
