import Mutiny.Loom.Session

/- The index beside the records, and forgetting (`loom-branch`: `session.rs`,
   `ann.rs`; `loom-core`: `hnsw_store.rs`).

   The graph of a branch is at reserved keys of its tree, one record for each node
   and one for the whole. How a graph is built from vectors, and which nodes an
   insertion rewrites, are parameters (`AnnGraph`). A fold that no write overtakes is
   a build: both read the entries of the head, write the graph and clear the buffer
   in one commit.

   Correspondence (Rust ↔ Lean) where names differ:
     `hnsw_node_key`, `hnsw_meta_key`     ↔ `GraphKey.key`
     `build_ann_index`, `ann_fold`        ↔ `LoomDb.buildAnnIndex` -/
namespace Mutiny.Loom
open Mutiny.Lib Mutiny.Substrate
open Mutiny.Bridge (WriteEnvelope)

/-! The graph. -/

inductive GraphKey where
  | node (id : Key)
  /-- The entry point, the levels and the dimension. -/
  | graph
  deriving DecidableEq

def GraphKey.key : GraphKey → Key
  | .node id => reservedKey "hnsw/" (utf8 "n/" ++ id)
  | .graph => reservedKey "hnsw/" (utf8 "meta")

structure AnnGraph where
  /-- `Hnsw::insert` of every vector, then `export_persisted`. -/
  build : List (Key × Embedding) → List (GraphKey × Bytes)
  /-- `hnsw_insert`, given what is stored. -/
  insert : (GraphKey → Option Bytes) → Key → Embedding → Except LoomError (List (GraphKey × Bytes))

def graphWrites (nodes : List (GraphKey × Bytes)) : Entries :=
  nodes.map (fun n => (n.1.key, .value (.blob n.2)))

section Build

variable (E : Engine) (A : AnnGraph)

def indexPrefix : Key := reservedKey "idx/" []

def annBufferPrefix : Key := reservedKey "annbuf/" []

def indexedVector? (e : Key × Record) : Except LoomError (Option (Key × Embedding)) :=
  if indexPrefix.isPrefixOf e.1 then
    match e.2.blob? with
    | none => .ok none
    | some bytes =>
      match E.codec.decodeEntry bytes with
      | none => .error (.codec "decode" "index entry")
      | some entry => .ok (entry.embedding.map (fun vector => (entry.key, vector)))
  else .ok none

def removeAll (t : Tree Key Record) (keys : List Key) : Except LoomError (Tree Key Record) :=
  keys.foldlM (fun t key => (liftTree (t.remove key)).map Prod.snd) t

/-- The pages of a commit with its graph built anew, and how many vectors it has. -/
def rebuildGraph (base : Commit) : Except LoomError (RecordPages × Nat) := do
  let t := Tree.openAt base.pages
  let entries ← liftTree t.scan
  let found ← entries.mapM (indexedVector? E)
  let vectors := found.reduceOption
  let t ← insertAll E t (graphWrites (A.build vectors))
  let buffered ← liftTree (t.scanPrefix annBufferPrefix)
  let t ← removeAll t (buffered.map Prod.fst)
  let pages ← flushTree E t
  return (pages, vectors.length)

def insertVector (base : Commit) (key : Key) (vector : Embedding) : Except LoomError RecordPages := do
  let t := Tree.openAt base.pages
  let stored (k : GraphKey) : Option Bytes := (t.get k.key).toOption.join.bind Record.blob?
  let nodes ← A.insert stored key vector
  let t ← insertAll E t (graphWrites nodes)
  flushTree E t

end Build

/-! Forgetting. -/

/-- A claim that still stands is withdrawn. -/
def withdrawn? : Option Record → Option Record
  | some (.claim claim) =>
    if claim.status = .asserted ∨ claim.status = .stale then some (.claim { claim with status := .invalidated }) else none
  | _ => none

structure Forgotten where
  invalidated : Nat
  deindexed : Nat
  deriving DecidableEq

/-- Remove the entry of a key, and withdraw the claim there. -/
def forgetKey (E : Engine) (state : Forgotten × Tree Key Record) (key : Key) :
    Except LoomError (Forgotten × Tree Key Record) := do
  let (counts, t) := state
  let (removed, t) ← liftTree (t.remove (indexKey key))
  let counts := if removed then { counts with deindexed := counts.deindexed + 1 } else counts
  let stored ← liftTree (t.get key)
  match withdrawn? stored with
  | none => return (counts, t)
  | some record =>
    let t ← treeInsert E t key record
    return ({ counts with invalidated := counts.invalidated + 1 }, t)

def forgetPages (E : Engine) (base : Commit) (keys : List Key) : Except LoomError (RecordPages × Forgotten) := do
  let (counts, t) ← keys.foldlM (forgetKey E) (⟨0, 0⟩, Tree.openAt base.pages)
  let pages ← flushTree E t
  return (pages, counts)

namespace LoomDb

/-- Commit pages built on the head of a branch, and move it. -/
def advance {α : Type} (db : LoomDb) (branch : BranchId) (built : Commit → Except LoomError (RecordPages × α))
    (fresh : CommitId) : Outcome α :=
  let found : Except LoomError (CommitId × Commit × RecordPages × α) := do
    let head ← db.head branch
    let base ← db.fork head
    let (pages, a) ← built base
    return (head, base, pages, a)
  match found with
  | .error e => (.error e, db)
  | .ok (head, base, pages, a) =>
    match db.publish branch head base pages fresh with
    | (_, .error e) => (.error e, db)
    | (_, .ok db) => (.ok a, db.persist)

def whenAllowed {α : Type} (db : LoomDb) (allowed : Except LoomError Unit) (act : Outcome α) : Outcome α :=
  match allowed with
  | .error e => (.error e, db)
  | .ok () => act

variable (E : Engine) (A : AnnGraph) (db : LoomDb) (token : CapabilityToken) (branch : BranchId)

def buildAnnIndex (now : Nat) (fresh : CommitId) : Outcome Nat :=
  db.whenAllowed (authorize E token branch now) (db.advance branch (rebuildGraph E A) fresh)

def annInsert (key : Key) (vector : Embedding) (now : Nat) (fresh : CommitId) : Outcome Unit :=
  db.whenAllowed (authorize E token branch now)
    (db.advance branch (fun base => (insertVector E A base key vector).map (fun pages => (pages, ()))) fresh)

def invalidateAndDeindex (keys : List Key) (envelope : WriteEnvelope) (now : Nat) (fresh : CommitId) :
    Outcome Forgotten :=
  db.whenAllowed (admitted E token branch envelope now)
    (db.advance branch (fun base => forgetPages E base keys) fresh)

end LoomDb

end Mutiny.Loom
