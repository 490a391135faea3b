import Mutiny.Schweep.Ops

/- The circuit runtime (`schweep-circuit`: `circuit.rs`, `result_store.rs`).

   A circuit is a list of nodes in dependency order, each with its counters, and
   a list of sinks. One pass steps every node in index order, checks declared
   state against actual state, folds each sink's delta into its answer, and then
   folds every operator's error delta into the live errors of the sinks
   downstream of it. Priming, stepping and catching up are that one pass.

   Correspondence (Rust ↔ Lean) where names differ:
     `CircuitBuilder::{source, add, build}` ↔ the same names
   The three per-node vectors of the source are one list of `Slot`s. Counters are
   unbounded. A method that takes `&mut self` returns its result and the value it
   leaves, which on an error is whatever had been changed by then. -/
namespace Mutiny.Schweep
open Mutiny.Lib

inductive CircuitError where
  | op (e : OpError)
  | zset (e : ZSetError)
  | unknownNode (index : Nat)
  | unknownSink (index : Nat)
  | nodeOutOfOrder (node input : Nat)
  | wiringArity (op : String) (expected found : Nat)
  | duplicateSource (aliasName : String)
  | emptyCircuit
  | stateBoundViolated (op : String) (declared : StateBound) (actual budget : Nat)
  | stateDeclarationArityMismatch (op : String) (declared arity : Nat)
  | unboundedStateNotAdmissible (op reason : String)
  | weightOverflow (whileDoing : String)
  | corruptErrorStore
  | liveEvaluationError (message : String)
  deriving DecidableEq

def circuitZSet {α : Type} : Except ZSetError α → Except CircuitError α
  | .error e => .error (.zset e)
  | .ok a => .ok a

/-! Result stores. -/

structure ResultStore where
  schema : Schema
  integral : WeightMap Row

namespace ResultStore

def new (schema : Schema) : ResultStore := ⟨schema, ∅⟩

def isEmpty (s : ResultStore) : Bool := s.integral.isEmpty

/-- Entries in order; a sum of zero removes its row. An overflow stops there. -/
def absorbEntries : WeightMap Row → Entries → Except CircuitError Unit × WeightMap Row
  | m, [] => (.ok (), m)
  | m, (row, w) :: rest => match m[row]? with
    | none => absorbEntries (if w.val ≠ 0 then m.insert row w else m) rest
    | some held => match I64.checkedAdd held w with
      | none => (.error (.weightOverflow "absorbing a delta into a result store"), m)
      | some sum => absorbEntries (if sum.val = 0 then m.erase row else m.insert row sum) rest

def absorb (s : ResultStore) (delta : ZSetBatch) : Except CircuitError Unit × ResultStore :=
  if delta.schema ≠ s.schema then (.error (.zset .schemaMismatch), s)
  else let (r, integral) := absorbEntries s.integral delta.entries; (r, ⟨s.schema, integral⟩)

def contents (s : ResultStore) : Except CircuitError ZSetBatch :=
  circuitZSet (ZSetBatch.fromEntries s.schema s.integral.toList)

def canonical (s : ResultStore) : Except CircuitError Canonical := do
  let b ← s.contents
  circuitZSet b.canonical

end ResultStore

/-! Nodes and sinks. -/

inductive Node where
  | source (table aliasName : String) (schema : Schema)
  | operator (op : Operator) (inputs : List Nat)

/-- A node with the entries it has ever emitted and the times it was stepped.
    No node is the hole a removal leaves. -/
structure Slot where
  node : Option Node
  emitted : Nat
  steps : Nat

structure Sink where
  node : Nat
  result : ResultStore
  errors : ResultStore
  ancestors : List Nat

structure Circuit where
  slots : List Slot
  sinks : List (Option Sink)
  epoch : Nat
  admittedUnbounded : List Nat

def Node.inputs : Node → List Nat
  | .source .. => []
  | .operator _ inputs => inputs

def Node.outputSchema : Node → Schema
  | .source _ _ schema => schema
  | .operator op _ => op.outputSchema

/-! One pass. -/

/-- The deltas an operator reads; a node that was not stepped offers none. -/
def gather (outputs : List (Option ZSetBatch)) : List Nat → Except CircuitError (List ZSetBatch)
  | [] => .ok []
  | input :: rest => match outputs[input]? with
    | some (some batch) => do
      let batches ← gather outputs rest
      return batch :: batches
    | _ => .error (.unknownNode input)

/-- One node's output delta and, for an operator, its error delta. -/
def Node.produce (build : Build) (deltas : EpochDeltas) (outputs : List (Option ZSetBatch)) (node : Node) :
    Except CircuitError (ZSetBatch × Option ZSetBatch) × Node :=
  match node with
  | .source table _ schema =>
    (match ZSetBatch.fromEntries schema (deltas.entriesFor table) with
      | .error e => .error (.zset e)
      | .ok batch => .ok (batch, none), node)
  | .operator op inputs => match gather outputs inputs with
    | .error e => (.error e, node)
    | .ok batches => match op.step build batches with
      | (.error e, op) => (.error (.op e), .operator op inputs)
      | (.ok out, op) => (.ok (out.data, some out.errors), .operator op inputs)

/-- What one pass produced: a delta per node, and the error deltas by node. -/
structure PassOutput where
  outputs : List (Option ZSetBatch)
  errors : List (Nat × ZSetBatch)

def included (subset : Option (List Nat)) (index : Nat) : Bool :=
  match subset with
  | none => true
  | some only => only.contains index

/-- The slots from `index` on, given the outputs of those before. -/
def stepSlots (build : Build) (deltas : EpochDeltas) (subset : Option (List Nat)) :
    Nat → List (Option ZSetBatch) → List Slot → Except CircuitError PassOutput × List Slot
  | _, outputs, [] => (.ok ⟨outputs, []⟩, [])
  | index, outputs, slot :: rest =>
    match (if included subset index then slot.node else none) with
    | none =>
      let (r, rest) := stepSlots build deltas subset (index + 1) (outputs ++ [none]) rest
      (r, slot :: rest)
    | some node => match node.produce build deltas outputs with
      | (.error e, node) => (.error e, { slot with node := some node } :: rest)
      | (.ok (batch, errors), node) =>
        let slot := ⟨some node, slot.emitted + batch.entries.length, slot.steps + 1⟩
        let (r, rest) := stepSlots build deltas subset (index + 1) (outputs ++ [some batch]) rest
        (r.map (fun out => ⟨out.outputs, (errors.map (fun b => (index, b))).toList ++ out.errors⟩),
          slot :: rest)

/-- The entries an operator may hold, from its declaration and what it was fed. -/
def stateBudget (slots : List Slot) (declared : StateBound) (inputs : List Nat) (op : String) :
    Except CircuitError Nat :=
  match declared with
  | .stateless => .ok 0
  | .proportionalToInputs _ factor constant => do
    let emitted ← inputs.mapM (fun i => match slots[i]? with
      | none => Except.error (CircuitError.unknownNode i)
      | some slot => .ok slot.emitted)
    return emitted.sum * factor + constant
  | .unbounded reason => .error (.unboundedStateNotAdmissible op reason)

def StateBound.isUnbounded : StateBound → Bool
  | .unbounded _ => true
  | _ => false

/-- Actual state against declared state, node by node. -/
def checkStateDeclarations (admitted : List Nat) (slots : List Slot) : Nat → List Slot → Except CircuitError Unit
  | _, [] => .ok ()
  | index, slot :: rest => match slot.node with
    | some (.operator op inputs) =>
      if op.stateBound.isUnbounded && admitted.contains index then
        checkStateDeclarations admitted slots (index + 1) rest
      else do
        let budget ← stateBudget slots op.stateBound inputs op.name
        if op.stateSize > budget then
          throw (.stateBoundViolated op.name op.stateBound op.stateSize budget)
        else checkStateDeclarations admitted slots (index + 1) rest
    | _ => checkStateDeclarations admitted slots (index + 1) rest

/-- Each sink folds in the delta of the node it reads, if that node was stepped. -/
def absorbResults (outputs : List (Option ZSetBatch)) :
    List (Option Sink) → Except CircuitError Unit × List (Option Sink)
  | [] => (.ok (), [])
  | none :: rest => let (r, rest) := absorbResults outputs rest; (r, none :: rest)
  | some sink :: rest => match outputs[sink.node]? with
    | some (some delta) => match sink.result.absorb delta with
      | (.error e, result) => (.error e, some { sink with result := result } :: rest)
      | (.ok (), result) =>
        let (r, rest) := absorbResults outputs rest
        (r, some { sink with result := result } :: rest)
    | _ => let (r, rest) := absorbResults outputs rest; (r, some sink :: rest)

/-- One node's error delta, into every sink downstream of it. -/
def absorbError (node : Nat) (delta : ZSetBatch) : List (Option Sink) → Except CircuitError Unit × List (Option Sink)
  | [] => (.ok (), [])
  | none :: rest => let (r, rest) := absorbError node delta rest; (r, none :: rest)
  | some sink :: rest =>
    if sink.ancestors.contains node then
      match sink.errors.absorb delta with
      | (.error e, errors) => (.error e, some { sink with errors := errors } :: rest)
      | (.ok (), errors) =>
        let (r, rest) := absorbError node delta rest
        (r, some { sink with errors := errors } :: rest)
    else let (r, rest) := absorbError node delta rest; (r, some sink :: rest)

def absorbErrors : List (Nat × ZSetBatch) → List (Option Sink) → Except CircuitError Unit × List (Option Sink)
  | [], sinks => (.ok (), sinks)
  | (node, delta) :: rest, sinks => match absorbError node delta sinks with
    | (.error e, sinks) => (.error e, sinks)
    | (.ok (), sinks) => absorbErrors rest sinks

namespace Circuit

def pass (c : Circuit) (build : Build) (deltas : EpochDeltas) (subset : Option (List Nat)) :
    Except CircuitError Unit × Circuit :=
  match stepSlots build deltas subset 0 [] c.slots with
  | (.error e, slots) => (.error e, { c with slots := slots })
  | (.ok out, slots) =>
    let c := { c with slots := slots }
    match checkStateDeclarations c.admittedUnbounded slots 0 slots with
    | .error e => (.error e, c)
    | .ok () => match absorbResults out.outputs c.sinks with
      | (.error e, sinks) => (.error e, { c with sinks := sinks })
      | (.ok (), sinks) =>
        let (r, sinks) := absorbErrors out.errors sinks
        (r, { c with sinks := sinks })

/-- Seal one epoch. The counter moves only after the whole pass succeeded. -/
def step (c : Circuit) (build : Build) (deltas : EpochDeltas) : Except CircuitError Nat × Circuit :=
  match c.pass build deltas none with
  | (.error e, c) => (.error e, c)
  | (.ok (), c) => (.ok (c.epoch + 1), { c with epoch := c.epoch + 1 })

def nodeAt (c : Circuit) (id : Nat) : Except CircuitError Node :=
  match c.slots[id]? with
  | some ⟨some node, _, _⟩ => .ok node
  | _ => .error (.unknownNode id)

/-- Depth-first from the stack's top; `fuel` bounds the pops. -/
def ancestorsLoop (c : Circuit) : Nat → List Nat → List Nat → Except CircuitError (List Nat)
  | 0, out, _ => .ok out
  | _ + 1, out, [] => .ok out
  | fuel + 1, out, id :: stack =>
    if out.contains id then c.ancestorsLoop fuel out stack
    else match c.nodeAt id with
      | .error e => .error e
      | .ok node => c.ancestorsLoop fuel (id :: out) (node.inputs.reverse ++ stack)

/-- Enough pops for every edge of the circuit and the first node. -/
def edgeCount (c : Circuit) : Nat :=
  (c.slots.map (fun s => match s.node with
    | none => 0
    | some node => node.inputs.length)).sum

def ancestorsOf (c : Circuit) (node : Nat) : Except CircuitError (List Nat) :=
  c.ancestorsLoop (c.edgeCount + 2) [] [node]

def addSink (c : Circuit) (node : Nat) : Except CircuitError Circuit := do
  let held ← c.nodeAt node
  let ancestors ← c.ancestorsOf node
  let sink : Sink := ⟨node, ResultStore.new held.outputSchema, ResultStore.new errorSchema, ancestors⟩
  return { c with sinks := c.sinks ++ [some sink] }

def sinkAt (c : Circuit) (id : Nat) : Except CircuitError Sink :=
  match c.sinks[id]? with
  | some (some sink) => .ok sink
  | _ => .error (.unknownSink id)

/-- The first row of the live errors, in order, is the least message. -/
def leastMessage (live : Canonical) : Except CircuitError String :=
  match live.entries with
  | ((.str message :: _), _) :: _ => .ok message
  | _ => .error .corruptErrorStore

def answerOf (c : Circuit) (id : Nat) : Except CircuitError Canonical := do
  let sink ← c.sinkAt id
  if sink.errors.isEmpty then sink.result.canonical
  else
    let live ← sink.errors.canonical
    let least ← leastMessage live
    throw (.liveEvaluationError least)

def answer (c : Circuit) : Except CircuitError Canonical := c.answerOf 0

end Circuit

/-! Building. -/

structure CircuitBuilder where
  nodes : List Node
  sources : BTreeMap String Nat

/-- The wiring rules: arity, a declaration that describes the operator, no
    unadmitted unbounded state, and inputs that exist already. -/
def checkWiring (op : Operator) (inputs : List Nat) (id : Nat) (admitUnbounded : Bool) : Except CircuitError Unit :=
  if op.arity ≠ inputs.length then .error (.wiringArity op.name op.arity inputs.length)
  else match op.stateBound with
    | .proportionalToInputs declared _ _ =>
      if declared.length ≠ op.arity then
        .error (.stateDeclarationArityMismatch op.name declared.length op.arity)
      else checkOrder id inputs
    | .unbounded reason =>
      if admitUnbounded then checkOrder id inputs else .error (.unboundedStateNotAdmissible op.name reason)
    | .stateless => checkOrder id inputs
where
  checkOrder (id : Nat) : List Nat → Except CircuitError Unit
    | [] => .ok ()
    | input :: rest => if input ≥ id then .error (.nodeOutOfOrder id input) else checkOrder id rest

namespace CircuitBuilder

def new : CircuitBuilder := ⟨[], ∅⟩

def source (b : CircuitBuilder) (table aliasName : String) (schema : Schema) :
    Except CircuitError (Nat × CircuitBuilder) :=
  if b.sources.contains aliasName then .error (.duplicateSource aliasName)
  else .ok (b.nodes.length,
    ⟨b.nodes ++ [.source table aliasName schema], b.sources.insert aliasName b.nodes.length⟩)

def add (b : CircuitBuilder) (op : Operator) (inputs : List Nat) : Except CircuitError (Nat × CircuitBuilder) := do
  checkWiring op inputs b.nodes.length false
  return (b.nodes.length, { b with nodes := b.nodes ++ [.operator op inputs] })

/-- One sink on the named node, then one pass over empty deltas. -/
def build (b : CircuitBuilder) (mode : Build) (sink : Nat) : Except CircuitError Circuit :=
  if b.nodes = [] then .error .emptyCircuit
  else do
    let c : Circuit := ⟨b.nodes.map (fun node => ⟨some node, 0, 0⟩), [], 0, []⟩
    let c ← c.addSink sink
    match c.pass mode ∅ none with
    | (.error e, _) => throw e
    | (.ok (), c) => return c

end CircuitBuilder
end Mutiny.Schweep
