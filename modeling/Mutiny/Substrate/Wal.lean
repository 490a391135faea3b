import Mutiny.Substrate.Pager
import Mutiny.Substrate.WalRecord

/- The write-ahead log and the durable store over it (`substrate-wal`: `wal.rs`,
   `lib.rs`).

   The disk is the page and manifest files, the segments of the log and the
   checkpoint marker. A commit stamps its writes and a commit record with
   consecutive numbers and appends them together; recovery replays the log from
   the marker, or from the empty root, and derives every committed manifest again.

   Appending is cut short by a crash at any byte. Recovery cuts a segment back to
   its last whole record, but whole records of a commit that never got its commit
   record stay in the log, and the next commit record takes them with it.

   Correspondence (Rust ↔ Lean) where names differ:
     `Wal::open`, `Wal::append`          ↔ `Wal.openWal`, `Wal.append`
     `Wal::commit`, `take_lsn`           ↔ `Wal.commit`, `stamp`
     `DurableStore::open_with_clock`     ↔ `openStore`
   An LSN past `u64::MAX` panics (`overflow-checks`); the model's `commit` and
   `checkpoint` answer `none` there. I/O errors other than a crash are left out. -/
namespace Mutiny.Substrate
open Mutiny.Lib

def segmentTargetBytes : Nat := 4 * 1024 * 1024

abbrev Segments := BTreeMap Nat Bytes

structure Disk where
  pages : Pages
  manifests : Manifests
  segments : Segments
  /-- The bytes of the `CHECKPOINT` file. -/
  marker : Option Bytes

def Disk.blank : Disk := ⟨∅, ∅, ∅, none⟩

/-- Where a recovery failed; the source puts it in the error's text. -/
inductive RecoveryStage where
  | checkpointManifest
  | rootManifest
  | replayingCommit (lsn : U64)
  | checkpointRecord (lsn : U64)
  | finalHead
  deriving DecidableEq

inductive WalError where
  | replayDiverged (lsn : U64) (expected actual : ManifestId)
  | recovery (stage : RecoveryStage) (cause : PagerError)
  | pager (cause : PagerError)
  deriving DecidableEq

structure Recovery where
  committedTxns : Nat
  recordsReplayed : Nat
  tornTail : Bool
  uncommittedWritesDiscarded : Nat
  durableLsn : Nat
  deriving DecidableEq

structure Wal where
  current : Nat
  currentBytes : Nat
  nextLsn : Nat
  deriving DecidableEq

namespace Wal

def openWal (disk : Disk) : Wal :=
  match disk.segments.toList.getLast? with
  | none => ⟨0, 0, 0⟩
  | some (n, bytes) => ⟨n, bytes.length, 0⟩

end Wal

/-- Bytes at the end of a segment, which is created if absent. -/
def Disk.appendTo (disk : Disk) (segment : Nat) (bytes : Bytes) : Disk :=
  { disk with segments := disk.segments.insert segment (disk.segments[segment]?.getD [] ++ bytes) }

/-- Records numbered one after the other. -/
def stamp : Nat → List RecordKind → List WalRecord
  | _, [] => []
  | lsn, kind :: kinds => ⟨Fin.ofNat (2 ^ 64) lsn, kind⟩ :: stamp (lsn + 1) kinds

/-- The records of a transaction: its writes in page order, then its commit. -/
def commitKinds (writes : PageChanges) (manifest : ManifestId) (createdAtMs : U64) : List RecordKind :=
  writes.toList.map (fun c => .write c.1 c.2) ++ [.commit manifest createdAtMs]

namespace Wal

/-- All the numbers there are room for. -/
def Room (wal : Wal) (kinds : List RecordKind) : Prop := wal.nextLsn + kinds.length < 2 ^ 64

instance (wal : Wal) (kinds : List RecordKind) : Decidable (wal.Room kinds) := by
  unfold Room
  infer_instance

def buffer [WalCodec] (wal : Wal) (kinds : List RecordKind) : Bytes := (walFraming WalError).frames (stamp wal.nextLsn kinds)

/-- Append and roll over. Rolling is done after the append, so that a transaction
    never straddles two segments. -/
def append [WalCodec] (wal : Wal) (disk : Disk) (kinds : List RecordKind) : Disk × Wal :=
  let buf := wal.buffer kinds
  let bytes := wal.currentBytes + buf.length
  let nextLsn := wal.nextLsn + kinds.length
  (disk.appendTo wal.current buf,
    if segmentTargetBytes ≤ bytes then ⟨wal.current + 1, 0, nextLsn⟩ else ⟨wal.current, bytes, nextLsn⟩)

/-- The commit point. -/
def commit [WalCodec] (wal : Wal) (disk : Disk) (writes : PageChanges) (manifest : ManifestId) (createdAtMs : U64) :
    Option (Disk × Wal) :=
  let kinds := commitKinds writes manifest createdAtMs
  if wal.Room kinds then some (wal.append disk kinds) else none

def writeMarker [WalCodec] (disk : Disk) (lsn : Nat) (manifest : ManifestId) : Disk :=
  { disk with marker := some ((walFraming WalError).frame ⟨Fin.ofNat (2 ^ 64) lsn, .checkpoint manifest⟩) }

/-- The segments before `keepFrom`, deleted in order; a crash can leave some. -/
def truncateSegments (disk : Disk) (keepFrom removed : Nat) : Disk :=
  let old := (disk.segments.toList.map Prod.fst).filter (· < keepFrom)
  { disk with segments := (old.take removed).foldl (fun s n => s.erase n) disk.segments }

/-- Record that `manifest` captures everything so far, then drop what is behind it. -/
def checkpoint [WalCodec] (wal : Wal) (disk : Disk) (manifest : ManifestId) : Option (Disk × Wal) :=
  if wal.Room [.checkpoint manifest] then
    let (disk, wal') := wal.append disk [.checkpoint manifest]
    let disk := writeMarker disk wal.nextLsn manifest
    some (truncateSegments disk wal'.current disk.segments.size, wal')
  else none

end Wal

/-! Recovery. -/

/-- A marker that is torn, or is another record, counts as no marker. -/
def Disk.readCheckpoint [WalCodec] (disk : Disk) : Option (ManifestId × U64) :=
  match disk.marker with
  | none => none
  | some bytes =>
    match (walFraming WalError).read bytes with
    | .ok (some (⟨lsn, .checkpoint manifest⟩, _)) => some (manifest, lsn)
    | _ => none

structure Replay where
  manifests : Manifests
  head : ManifestId
  pending : PageChanges
  nextLsn : Nat
  recovery : Recovery

/-- The effect of one record that the checkpoint does not account for. -/
def replayKind (H : Hashing) (st : Replay) (r : WalRecord) : Except WalError Replay :=
  match r.kind with
  | .write pageNo page => .ok { st with pending := st.pending.insert pageNo page }
  | .commit manifest createdAtMs =>
    match deriveNext H st.manifests st.head st.pending createdAtMs with
    | .error e => .error (.recovery (.replayingCommit r.lsn) e)
    | .ok (some (next, id)) =>
      if id = manifest then
        .ok { st with
          manifests := st.manifests.put H next
          head := id
          pending := ∅
          recovery := { st.recovery with
            committedTxns := st.recovery.committedTxns + 1
            durableLsn := r.lsn } }
      else .error (.replayDiverged r.lsn manifest id)
    -- a no-op against this base
    | .ok none => .ok { st with pending := ∅, recovery := { st.recovery with durableLsn := r.lsn } }
  | .checkpoint manifest =>
    if manifest ∈ st.manifests then
      .ok { st with head := manifest, pending := ∅, recovery := { st.recovery with durableLsn := r.lsn } }
    else .error (.recovery (.checkpointRecord r.lsn) (.missingManifest manifest))

def replayRecord (H : Hashing) (capturedThrough : Option U64) (st : Replay) (r : WalRecord) : Except WalError Replay :=
  let st := { st with nextLsn := max st.nextLsn (r.lsn.val + 1) }
  if capturedThrough.any (fun cp => r.lsn ≤ cp) then .ok st
  else
    replayKind H
      { st with recovery := { st.recovery with recordsReplayed := st.recovery.recordsReplayed + 1 } } r

/-- A replay over the segments: where the log now ends, and the segments cut back
    to their last whole record. -/
structure SegmentScan where
  replay : Replay
  segments : Segments
  current : Nat
  currentBytes : Nat

def replaySegment [WalCodec] (H : Hashing) (capturedThrough : Option U64) (sc : SegmentScan) (segment : Nat) (bytes : Bytes) :
    Except WalError SegmentScan := do
  let (st, offset) ← (walFraming WalError).scan (fun st r _ => replayRecord H capturedThrough st r) sc.replay bytes
  if offset < bytes.length then
    return ⟨{ st with recovery := { st.recovery with tornTail := true } },
      sc.segments.insert segment (bytes.take offset), segment, offset⟩
  else return ⟨st, sc.segments, segment, offset⟩

def replaySegments [WalCodec] (H : Hashing) (capturedThrough : Option U64) :
    SegmentScan → List (Nat × Bytes) → Except WalError SegmentScan
  | sc, [] => .ok sc
  | sc, (segment, bytes) :: rest => do
    let sc ← replaySegment H capturedThrough sc segment bytes
    replaySegments H capturedThrough sc rest

/-- A store after recovery. `leftover` is what the replay still had pending: the
    writes it counts as discarded. -/
structure Recovered where
  disk : Disk
  wal : Wal
  head : ManifestId
  leftover : PageChanges
  recovery : Recovery

/-- The fixed base of a replay: the marker's manifest, or the empty root. -/
def replayBase [WalCodec] (H : Hashing) (config : StoreConfig) (disk : Disk) (wal : Wal) :
    Except WalError (Replay × Option U64) :=
  let start := fun manifests head nextLsn => Replay.mk manifests head ∅ nextLsn ⟨0, 0, false, 0, 0⟩
  match disk.readCheckpoint with
  | some (manifest, lsn) =>
    if manifest ∈ disk.manifests then .ok (start disk.manifests manifest (lsn.val + 1), some lsn)
    else .error (.recovery .checkpointManifest (.missingManifest manifest))
  | none =>
    let root := Manifest.empty config.pageSize
    .ok (start (disk.manifests.put H root) (H.manifest root) wal.nextLsn, none)

def recover [WalCodec] (H : Hashing) (config : StoreConfig) (disk : Disk) (wal : Wal) : Except WalError Recovered := do
  let (start, capturedThrough) ← replayBase H config disk wal
  let sc ← replaySegments H capturedThrough ⟨start, disk.segments, wal.current, wal.currentBytes⟩
    disk.segments.toList
  let st := sc.replay
  if st.head ∈ st.manifests then
    return { disk := { disk with manifests := st.manifests, segments := sc.segments }
             wal := ⟨sc.current, sc.currentBytes, st.nextLsn⟩
             head := st.head
             leftover := st.pending
             recovery := { st.recovery with uncommittedWritesDiscarded := st.pending.size } }
  else .error (.recovery .finalHead (.missingManifest st.head))

/-- Opening stores the empty root and looks where the log ends. -/
def openStore (H : Hashing) (config : StoreConfig) (disk : Disk) : Except WalError (Disk × Wal) := do
  (validatePageSize config.pageSize).mapError WalError.pager
  let disk := { disk with manifests := disk.manifests.put H (.empty config.pageSize) }
  return (disk, Wal.openWal disk)

end Mutiny.Substrate
