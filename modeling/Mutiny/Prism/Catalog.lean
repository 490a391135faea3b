import Mutiny.Lib.SortedMap
import Mutiny.Lib.Script
import Mutiny.Prism.Part

/- The catalog of one store (`prism-part`: `catalog.rs`, `partition.rs`,
   `store.rs`; `prism-engine`: `storage/cold.rs`, `storage/mirror.rs`).

   A part is data once the snapshot that `CURRENT` names lists it. A `World` is
   the files of one store and the objects of its object store; what the engine
   does to them is a sequence of `Effect`s, each one rename, one file write or one
   call of the object store, and `exec` carries one out. A commit is three of them
   (`commitMeta`): every part named must open, then the snapshot file is written,
   then `CURRENT` is renamed. Reclamation (`gcAt`) removes what no retained
   snapshot names.

   Correspondence (Rust ↔ Lean) where names differ:
     `Snapshot` / `SnapshotMeta::of`         ↔ `Snapshot` / its first part
     `Engine::publish_part_cold`             ↔ `Effect.publishCold`
     `Engine::mirror_snapshot`               ↔ `Effect.mirror`
     `ownership::assert_owner`               ↔ `Effect.fence`
   A snapshot's id `s{:08}` is its number; `snapshotName` is the text snapshots
   are listed by. -/
namespace Mutiny.Prism
open Mutiny.Lib

/-! Snapshots. -/

structure PartRef where
  partId : PartId
  partition : PartitionKey
  rows : Nat
  tenants : List String
  timeMin : Int
  timeMax : Int
  deriving DecidableEq

inductive PartEntry where
  | located (r : PartRef)
  | legacy (id : PartId)
  deriving DecidableEq

def PartEntry.partId : PartEntry → PartId
  | .located r => r.partId
  | .legacy id => id

def PartEntry.located? : PartEntry → Option PartRef
  | .located r => some r
  | .legacy _ => none

def PartRef.valid (r : PartRef) : Bool :=
  r.timeMin ≤ r.timeMax && !r.tenants.isEmpty &&
    match r.partition.bucket with
    | .dedicated _ => r.tenants.length ≤ 1
    | .shared _ => true

def PartEntry.valid : PartEntry → Bool
  | .located r => r.valid
  | .legacy _ => true

structure Bridge where
  fromSpace : String
  toSpace : String
  validation : String
  declaredAtMs : Int
  deriving DecidableEq

def Bridge.joins (b : Bridge) (x y : String) : Bool :=
  (b.fromSpace = x && b.toSpace = y) || (b.fromSpace = y && b.toSpace = x)

inductive BaselineState where
  | ready
  | degraded (reason : String)
  deriving DecidableEq

structure BaselineRef where
  baselineId : String
  tenant : String
  generationId : GenerationId
  state : BaselineState
  deriving DecidableEq

/-- What a lifecycle transition may change about a snapshot other than its parts. -/
structure SnapshotMeta where
  generations : BTreeMap GenerationId GenerationState
  bridges : List Bridge
  baselines : List BaselineRef
  /-- The deleted event ids, sorted. -/
  tombstones : List String
  appliedWalRecord : Option Nat
  deriving DecidableEq

structure Snapshot extends SnapshotMeta where
  snapshotId : Nat
  parent : Option Nat
  parts : List PartEntry
  nextSeq : Nat
  activeGeneration : Option GenerationId
  createdAtMs : Int
  deriving DecidableEq

def Snapshot.empty : Snapshot where
  generations := ∅
  bridges := []
  baselines := []
  tombstones := []
  appliedWalRecord := none
  snapshotId := 0
  parent := none
  parts := []
  nextSeq := 1
  activeGeneration := none
  createdAtMs := 0

namespace Snapshot

def isTombstoned (s : Snapshot) (eventId : String) : Bool := eventId ∈ s.tombstones

def partIds (s : Snapshot) : List PartId := s.parts.map PartEntry.partId

/-- The generations the located parts are encoded under. -/
def generationsInUse (s : Snapshot) : List GenerationId :=
  s.parts.filterMap (fun e => e.located?.map (fun r => r.partition.generation))

def stateOf (s : Snapshot) (g : GenerationId) : Option GenerationState := s.generations[g]?

def bridge (s : Snapshot) (x y : String) : Option Bridge := s.bridges.find? (fun b => b.joins x y)

end Snapshot

def padded (width n : Nat) : String :=
  let digits := Nat.toDigits 10 n
  String.ofList (List.replicate (width - digits.length) '0' ++ digits)

def snapshotName (id : Nat) : String := "s" ++ padded 8 id

/-! The files of a store and its object store. -/

structure Store where
  snapshots : BTreeMap Nat Snapshot
  /-- What `CURRENT` names. -/
  current? : Option Nat
  parts : BTreeMap PartId Part
  generations : BTreeMap GenerationId Generation
  deadLetters : List DeadLetter

/-- Something in the object store, with the time it was put there. -/
structure Stamped (α : Type) where
  content : α
  modified : Int
  deriving DecidableEq

/-- The objects of the object store that the engine writes as it publishes. -/
structure Remote where
  /-- `parts/<id>/rerank.vec`: the columns the vectors were read from. -/
  cold : BTreeMap PartId (Stamped Columns)
  /-- `catalog/SNAPSHOT-<id>`. -/
  mirror : BTreeMap Nat (Stamped Snapshot)
  /-- `catalog/OWNER-<epoch>`: who took each epoch. -/
  owners : BTreeMap Nat String

structure World where
  store : Store
  remote : Remote

def Store.blank : Store := ⟨∅, none, ∅, ∅, []⟩

def Remote.blank : Remote := ⟨∅, ∅, ∅⟩

def World.blank : World := ⟨.blank, .blank⟩

namespace Store

def loadSnapshot (db : Store) (id : Nat) : Except PrismError Snapshot :=
  match db.snapshots[id]? with
  | some s => .ok s
  | none => .error (.noSnapshot id)

/-- The live snapshot; a fresh store has the empty one. -/
def current (db : Store) : Except PrismError Snapshot :=
  match db.current? with
  | some id => db.loadSnapshot id
  | none => .ok .empty

def listSnapshots (db : Store) : List Nat :=
  db.snapshots.keys.insertionSort (fun a b => snapshotName a ≤ snapshotName b)

def getGeneration (db : Store) (id : GenerationId) : Except PrismError Generation :=
  match db.generations[id]? with
  | some g => .ok g
  | none => .error (.noGeneration id)

/-- `PartReader::open`: the part's manifest. -/
def openManifest (db : Store) (id : PartId) : Except PrismError Part :=
  match db.parts[id]? with
  | some p => .ok p
  | none => .error (.noManifest id)

end Store

/-! Effects. -/

inductive Effect where
  | deadLetters (ds : List DeadLetter)
  | putGeneration (g : Generation)
  | removeGeneration (id : GenerationId)
  /-- The rename of a finished part into place. -/
  | writePart (p : Part)
  | publishCold (id : PartId) (now : Int)
  /-- `assert_write_owner` of an engine that holds an epoch. -/
  | fence (held : Nat)
  | mirror (s : Snapshot) (now : Int)
  /-- The check of a commit: every entry is valid and every part opens. -/
  | checkParts (parts : List PartEntry)
  | writeSnapshot (s : Snapshot)
  | setCurrent (id : Nat)

/-- The highest epoch anybody took, 0 if nobody did. -/
def Remote.highestEpoch (r : Remote) : Nat := r.owners.keys.foldl max 0

/-- A part that is there already is the same content and stays. -/
def Store.addPart (db : Store) (p : Part) : Store :=
  if p.id ∈ db.parts then db else { db with parts := db.parts.insert p.id p }

def Store.checkEntry (db : Store) (e : PartEntry) : Except PrismError Unit :=
  if !e.valid then .error (.badEntry e.partId)
  else if e.partId ∈ db.parts then .ok ()
  else .error (.partNotReadable e.partId)

/-- Put the vectors of a part into the object store, unless an object of the same length is there
    already and the part is not sealed; then look that it arrived. -/
def World.publishCold (w : World) (id : PartId) (now : Int) : World :=
  match w.store.parts[id]? with
  | none => w
  | some p =>
    let held := w.remote.cold[id]?
    if p.manifest.encryption || held.map (fun o => o.content.rows.length) ≠ some p.rows.length then
      { w with remote := { w.remote with cold := w.remote.cold.insert id ⟨p.columns, now⟩ } }
    else w

/-- Create the mirror object of a snapshot, unless the same one is there. -/
def World.mirrorSnapshot (w : World) (s : Snapshot) (now : Int) : Except PrismError World :=
  if s.snapshotId = 0 then .ok w
  else match w.remote.mirror[s.snapshotId]? with
    | none => .ok { w with remote := { w.remote with mirror := w.remote.mirror.insert s.snapshotId ⟨s, now⟩ } }
    | some o => if o.content = s then .ok w else .error (.splitBrain s.snapshotId)

def exec : Effect → World → Except PrismError World
  | .deadLetters ds, w => .ok { w with store := { w.store with deadLetters := w.store.deadLetters ++ ds } }
  | .putGeneration g, w =>
    .ok (if g.generationId ∈ w.store.generations then w
      else { w with store := { w.store with generations := w.store.generations.insert g.generationId g } })
  | .removeGeneration id, w =>
    .ok { w with store := { w.store with generations := w.store.generations.erase id } }
  | .writePart p, w => .ok { w with store := w.store.addPart p }
  | .publishCold id now, w => .ok (w.publishCold id now)
  | .fence held, w =>
    if held < w.remote.highestEpoch then .error (.fenced held w.remote.highestEpoch) else .ok w
  | .mirror s now, w => w.mirrorSnapshot s now
  | .checkParts parts, w => (parts.forM w.store.checkEntry).map (fun _ => w)
  | .writeSnapshot s, w =>
    .ok { w with store := { w.store with snapshots := w.store.snapshots.insert s.snapshotId s } }
  | .setCurrent id, w => .ok { w with store := { w.store with current? := some id } }

abbrev Work (α : Type) := Script Effect PrismError α

def World.run {α : Type} (w : World) (x : Work α) : World × Except PrismError α := x.run exec w

/-! Committing. -/

def Snapshot.child (parent : Snapshot) (parts : List PartEntry) (nextSeq : Nat) (active : Option GenerationId)
    (extra : SnapshotMeta) (now : Int) : Snapshot where
  toSnapshotMeta := extra
  snapshotId := parent.snapshotId + 1
  parent := some parent.snapshotId
  parts := parts
  nextSeq := nextSeq
  activeGeneration := active
  createdAtMs := now

def commitMeta (parent : Snapshot) (parts : List PartEntry) (nextSeq : Nat) (active : Option GenerationId)
    (extra : SnapshotMeta) (now : Int) : Work Snapshot := do
  let snap := parent.child parts nextSeq active extra now
  Script.emit (.checkParts parts)
  Script.emit (.writeSnapshot snap)
  Script.emit (.setCurrent snap.snapshotId)
  pure snap

def commit (parent : Snapshot) (parts : List PartEntry) (nextSeq : Nat) (active : Option GenerationId) (now : Int) :
    Work Snapshot :=
  commitMeta parent parts nextSeq active parent.toSnapshotMeta now

/-! Reclaiming. -/

def leaseTtlMs : Int := 60 * 60 * 1000

def gcGraceMs : Int := leaseTtlMs

def gcHorizonMs : Int := leaseTtlMs + gcGraceMs

def i64Min : Int := -9223372036854775808

/-- `i64::saturating_sub` of a number that is not negative. -/
def saturatingSub (a b : Int) : Int := max i64Min (a - b)

/-- The retained snapshots and the parts they list. -/
structure Retained where
  snapshots : List Nat
  parts : List PartId

namespace Store

/-- The newest snapshots by name, the live one, and those younger than the horizon. -/
def retainedSnapshots (db : Store) (current : Nat) (retain : Nat) (now : Int) : List Nat :=
  let newest := db.listSnapshots.reverse.take (max retain 1) ++ [current]
  newest ++ db.listSnapshots.filter (fun id =>
    match db.snapshots[id]? with
    | some s => saturatingSub now gcHorizonMs < s.createdAtMs
    | none => false)

def retained (db : Store) (retain : Nat) (now : Int) : Except PrismError Retained := do
  let current ← db.current
  let kept := db.retainedSnapshots current.snapshotId retain now
  pure ⟨kept, kept.flatMap (fun id => ((db.snapshots[id]?).map Snapshot.partIds).getD [])⟩

/-- Remove the parts and the snapshots that a retained set does not hold. -/
def sweep (db : Store) (live : Retained) : Store :=
  { db with
    parts := db.parts.filter (fun id _ => id ∈ live.parts)
    snapshots := db.snapshots.filter (fun id _ => id ∈ live.snapshots) }

def gcAt (db : Store) (retain : Nat) (now : Int) (dryRun : Bool) : Except PrismError Store := do
  let live ← db.retained retain now
  pure (if dryRun then db else db.sweep live)

end Store

end Mutiny.Prism
