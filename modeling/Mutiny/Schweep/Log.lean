import Mutiny.Lib.Run
import Mutiny.Schweep.LogRecord
import Mutiny.Schweep.Oracle

/- The append-only input log over one segment (`schweep-log`: `log.rs`).

   The log is what `Log` keeps in memory; the segment is the bytes of its file.
   A missing segment file reads as an empty one. Opening scans the segment up to
   the first frame that does not read and rebuilds the index. It does not cut
   the file there, while `append` and `sealEpoch` write at the file's physical
   end: the two offsets part as soon as a crash has left part of a frame behind.

   A run is a list of events: appends and seals that return, the same two cut by
   a crash after some bytes of their frame, a crash between calls, and opens.
   Beside the code's own state a run carries what the caller knows: the batches
   acknowledged, and the epochs and pending batches that whole frames describe.

   Correspondence (Rust ↔ Lean) where names differ:
     `Log::open`, `replay_from_disk`   ↔ `Log.openLog`, `Log.replayRecord`
     `Log::append`, steps A1–A4        ↔ `Log.append`, `Log.admitBatch` -/
namespace Mutiny.Schweep
open Mutiny.Lib

inductive Ack where
  | appended
  | droppedAsReplay
  deriving DecidableEq, Repr

/-- The byte range of one sealed epoch's appends, without its seal record. -/
structure EpochSpan where
  start : Nat
  stop : Nat
  deriving DecidableEq

structure Log where
  catalog : Catalog
  dedup : BTreeMap String UInt64
  pending : List LogBatch
  sealed : List EpochSpan
  segmentLen : Nat
  epochStart : Nat

namespace Log

def fresh (catalog : Catalog) : Log := ⟨catalog, ∅, [], [], 0, 0⟩

def sealedEpoch (log : Log) : Nat := log.sealed.length

def replayRecord (log : Log) (r : Record) (consumed : Nat) : Log :=
  match r with
  | .append b =>
    { log with
      dedup := log.dedup.insert b.dedupToken r.contentHash
      pending := log.pending ++ [b]
      segmentLen := log.segmentLen + consumed }
  | .sealEpoch _ =>
    { log with
      sealed := log.sealed ++ [⟨log.epochStart, log.segmentLen⟩]
      epochStart := log.segmentLen + consumed
      pending := []
      segmentLen := log.segmentLen + consumed }

def openLog (catalog : Catalog) (segment : Bytes) : Except LogError Log :=
  (recordFraming.scan (fun log r consumed => .ok (log.replayRecord r consumed)) (fresh catalog) segment).map
    Prod.fst

/-- Validation and dedup. `none` is a replay, a hash is a batch to be written. -/
def admitBatch (log : Log) (b : LogBatch) : Except LogError (Option UInt64) :=
  match log.catalog[b.table]? with
  | none => .error (.unknownTable b.table)
  | some schema => match Oracle.checkRows schema b.entries with
    | .error e => .error (.zset e)
    | .ok () =>
      let hash := (Record.append b).contentHash
      match log.dedup[b.dedupToken]? with
      | some known => if known = hash then .ok none else .error (.tokenReused b.sourceId b.dedupToken)
      | none => .ok (some hash)

/-- Whether a batch gets as far as the segment. -/
def writes (log : Log) (b : LogBatch) : Bool :=
  match log.admitBatch b with
  | .ok (some _) => true
  | _ => false

/-- Append a batch: the ack, the log and the segment. -/
def append (log : Log) (segment : Bytes) (b : LogBatch) : Except LogError Ack × Log × Bytes :=
  match log.admitBatch b with
  | .error e => (.error e, log, segment)
  | .ok none => (.ok .droppedAsReplay, log, segment)
  | .ok (some hash) =>
    let framed := frame (Record.append b).encode
    (.ok .appended,
      { log with
        segmentLen := log.segmentLen + framed.length
        dedup := log.dedup.insert b.dedupToken hash
        pending := log.pending ++ [b] },
      segment ++ framed)

def sealRecord (log : Log) : Record := .sealEpoch (UInt64.ofNat (log.sealedEpoch + 1))

/-- Seal an epoch: its number, the log and the segment. -/
def sealEpoch (log : Log) (segment : Bytes) : Nat × Log × Bytes :=
  let framed := frame log.sealRecord.encode
  (log.sealedEpoch + 1,
    { log with
      sealed := log.sealed ++ [⟨log.epochStart, log.segmentLen⟩]
      segmentLen := log.segmentLen + framed.length
      epochStart := log.segmentLen + framed.length
      pending := [] },
    segment ++ framed)

/-- One record of a span. The span stops before its seal, so one inside it is
    corruption. -/
def spanRecord (batches : List LogBatch) (r : Record) (_consumed : Nat) : Except LogError (List LogBatch) :=
  match r with
  | .append b => .ok (batches ++ [b])
  | .sealEpoch _ => .error (.corrupt "a seal record inside an epoch's span")

def readSpan (segment : Bytes) (span : EpochSpan) : Except LogError (List LogBatch) :=
  if span.stop - span.start = 0 then .ok []
  else
    (recordFraming.scan spanRecord [] ((segment.drop span.start).take (span.stop - span.start))).map Prod.fst

/-- The batches of one sealed epoch, read from the segment. -/
def epoch (log : Log) (segment : Bytes) (n : Nat) : Except LogError (List LogBatch) :=
  if n = 0 ∨ n > log.sealedEpoch then .error (.epochOutOfRange n log.sealedEpoch)
  else match log.sealed[n - 1]? with
    | none => .error (.epochOutOfRange n log.sealedEpoch)
    | some span => readSpan segment span

end Log

/-! Runs. -/

/-- The batches by epoch, and those not in one yet. -/
structure Contents where
  epochs : List (List LogBatch)
  pending : List LogBatch
  deriving DecidableEq

namespace Contents

def empty : Contents := ⟨[], []⟩

def push (c : Contents) (b : LogBatch) : Contents := { c with pending := c.pending ++ [b] }

def close (c : Contents) : Contents := ⟨c.epochs ++ [c.pending], []⟩

def all (c : Contents) : List LogBatch := c.epochs.flatten ++ c.pending

end Contents

/-- The segment, the process if it is up, and what its callers know. -/
structure LogWorld where
  segment : Bytes
  log : Option Log
  contents : Contents
  acked : List LogBatch

inductive LogEvent where
  | append (b : LogBatch)
  | appendCrash (b : LogBatch) (written : Nat)
  | sealEpoch
  | sealCrash (written : Nat)
  | crash
  | reopen

namespace LogWorld

def start : LogWorld := ⟨[], none, .empty, []⟩

/-- A crash leaves the first bytes of the frame, and the change happened if that
    is all of them. -/
def torn (w : LogWorld) (framed : Bytes) (written : Nat) (after : Contents) : LogWorld :=
  { w with
    segment := w.segment ++ framed.take written
    log := none
    contents := if framed.length ≤ written then after else w.contents }

def step (catalog : Catalog) (w : LogWorld) : LogEvent → LogWorld
  | .append b => match w.log with
    | none => w
    | some log => match log.append w.segment b with
      | (.ok .appended, log', segment') =>
        ⟨segment', some log', w.contents.push b, w.acked ++ [b]⟩
      | (_, log', segment') => { w with segment := segment', log := some log' }
  | .appendCrash b written => match w.log with
    | none => w
    | some log => match log.admitBatch b with
      | .ok (some _) => w.torn (frame (Record.append b).encode) written (w.contents.push b)
      | _ => { w with log := none }
  | .sealEpoch => match w.log with
    | none => w
    | some log =>
      let (_, log', segment') := log.sealEpoch w.segment
      { w with segment := segment', log := some log', contents := w.contents.close }
  | .sealCrash written => match w.log with
    | none => w
    | some log => w.torn (frame log.sealRecord.encode) written w.contents.close
  | .crash => { w with log := none }
  | .reopen => { w with log := (Log.openLog catalog w.segment).toOption }

def run (catalog : Catalog) (w : LogWorld) (events : List LogEvent) : LogWorld :=
  events.foldl (step catalog) w

/-- No write lands behind a cut frame, and every frame is below 4 GiB. -/
def Clean (w : LogWorld) : LogEvent → Prop
  | .append b | .appendCrash b _ => ∀ log ∈ w.log, log.writes b = true →
      w.segment.length = log.segmentLen ∧ (Record.append b).encode.length < 2 ^ 32
  | .sealEpoch | .sealCrash _ => ∀ log ∈ w.log, w.segment.length = log.segmentLen
  | .crash | .reopen => True

instance (w : LogWorld) (e : LogEvent) : Decidable (w.Clean e) := by
  cases e <;> unfold Clean <;> infer_instance

abbrev CleanRun (catalog : Catalog) : LogWorld → List LogEvent → Prop := Along (step catalog) Clean

end LogWorld

end Mutiny.Schweep
