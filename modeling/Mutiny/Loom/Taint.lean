import Mutiny.Loom.Session

/- Everything downstream of a source (`loom-provenance`: `taint.rs`).

   The derivation nodes of a branch are read from its tree, and so are the nodes
   that cite a source directly. From these the edges are walked down, depth first
   and no deeper than a limit. `mark_stale` writes the claims it meets back with
   another status. -/
namespace Mutiny.Loom
open Mutiny.Lib Mutiny.Substrate
open Mutiny.Bridge (SourceRef WriteEnvelope)

abbrev NodeMap := BTreeMap NodeId DerivationNode

def maxDerivationDepth : Nat := 64

/-- The nodes derived from a node, once for each time it is named. -/
def childrenOf (nodes : NodeMap) (parent : NodeId) : List NodeId :=
  nodes.toList.flatMap (fun e => (e.2.derivedFrom.filter (fun p => p = parent)).map (fun _ => e.2.id))

def parentIds (nodes : NodeMap) : List NodeId := nodes.toList.flatMap (fun e => e.2.derivedFrom)

theorem mem_parentIds {nodes : NodeMap} {parent : NodeId} (h : childrenOf nodes parent ≠ []) :
    parent ∈ parentIds nodes := by
  obtain ⟨child, hchild⟩ := List.exists_mem_of_ne_nil _ h
  obtain ⟨e, he, hchild⟩ := List.mem_flatMap.1 hchild
  obtain ⟨p, hp, -⟩ := List.mem_map.1 hchild
  obtain ⟨hmem, heq⟩ := List.mem_filter.1 hp
  exact List.mem_flatMap.2 ⟨e, he, of_decide_eq_true heq ▸ hmem⟩

/-- The walk down from the seeds; the largest seed comes first. -/
def floodDownstream (nodes : NodeMap) (seeds : List NodeId) : Except LoomError (List NodeId) :=
  match deepWalk (childrenOf nodes) mem_parentIds maxDerivationDepth [] (seeds.reverse.map (fun id => (id, 0))) with
  | .ok found => .ok (sortedNodes found)
  | .error depth => .error (.derivationCycle depth)

namespace LoomDb

variable (E : Engine) (db : LoomDb) (branch : BranchId) (source : SourceRef)

def nodesIn (entries : Entries) : NodeMap :=
  (entries.filterMap (fun e =>
    if provPrefix.isPrefixOf e.1 then e.2.blob?.bind E.codec.decodeNode else none)).foldl
      (fun nodes node => nodes.insert node.id node) ∅

def seedsIn (entries : Entries) : List NodeId :=
  sortedNodes (entries.filterMap (fun e =>
    if (sourceIndexPrefix source).isPrefixOf e.1 then e.2.blob?.bind nodeOfBytes else none))

def headEntries : Except LoomError Entries := do
  let t ← db.headTree branch
  liftTree t.scan

def nodesOn : Except LoomError NodeMap := do
  let entries ← db.headEntries branch
  return nodesIn E entries

def seedsOn : Except LoomError (List NodeId) := do
  let entries ← db.headEntries branch
  return seedsIn source entries

/-- The walk on one branch, with the nodes it went over. -/
def contaminatedOn : Except LoomError (NodeMap × List NodeId) := do
  let nodes ← db.nodesOn E branch
  let seeds ← db.seedsOn branch source
  let contaminated ← floodDownstream nodes seeds
  return (nodes, contaminated)

/-- The key of a node that is there and not the provenance layer's own. -/
def recordKey? (nodes : NodeMap) (id : NodeId) : Option Key :=
  (nodes[id]?.map DerivationNode.key).filter (fun key => !isProvenance key)

def contaminatedKeysOn : Except LoomError (List Key) := do
  let (nodes, contaminated) ← db.contaminatedOn E branch source
  return ((contaminated.filterMap (recordKey? nodes)).insertionSort (· ≤ ·)).dedup

/-- Only an asserted claim goes stale. -/
def staleRecord? : Option Record → Option Record
  | some (.claim claim) => if claim.status = .asserted then some (.claim { claim with status := .stale }) else none
  | _ => none

def staleWrite? (nodes : NodeMap) (t : Tree Key Record) (id : NodeId) : Except LoomError (Option (Key × Record)) :=
  match recordKey? nodes id with
  | none => .ok none
  | some key => do
    let stored ← liftTree (t.get key)
    return (staleRecord? stored).map (fun record => (key, record))

/-- What `mark_stale` writes. -/
def staleWrites : Except LoomError Entries := do
  let (nodes, contaminated) ← db.contaminatedOn E branch source
  let t ← db.headTree branch
  let writes ← contaminated.mapM (staleWrite? nodes t)
  return writes.reduceOption

/-- The keys it marked. -/
def markStale (token : CapabilityToken) (envelope : WriteEnvelope) (now : Nat) (fresh : CommitId) :
    Outcome (List Key) :=
  match db.staleWrites E branch source with
  | .error e => (.error e, db)
  | .ok [] => (.ok [], db)
  | .ok writes =>
    match db.writeAll E token branch writes envelope [] [] now fresh with
    | (.error e, db) => (.error e, db)
    | (.ok _, db) => (.ok (writes.map Prod.fst), db)

end LoomDb

end Mutiny.Loom
