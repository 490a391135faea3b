import Mutiny.Bridge.Capture

/- The admission of a capture into the compute log (`mutiny-bridge`:
   `apply_commit`).

   The log is the one of `Schweep.Log`, read as what it keeps: the sealed epochs,
   the batches that wait for a seal and the hashes of the known tokens. A call is
   given a budget of durable writes (appends and seals); the process dies when the
   budget is used up and another write is due. A death after a write has reached
   the disk and before it was acknowledged is the same as one before the next.

   Correspondence (Rust ↔ Lean) where names differ:
     `Log::append`, `seal_epoch`, `epoch`      ↔ `ComputeLog.append`, `sealEpoch`, `epochs`
     `validate_against_catalog`                ↔ `validateRows`
   The log is not compacted, so `retained_from` is 0 and no epoch is refused as
   compacted. -/
namespace Mutiny.Bridge
open Mutiny.Lib Mutiny.Schweep Mutiny.Substrate

structure ComputeLog where
  catalog : Catalog
  dedup : BTreeMap String UInt64
  pending : List LogBatch
  epochs : List (List LogBatch)

namespace ComputeLog

def fresh (catalog : Catalog) : ComputeLog := ⟨catalog, ∅, [], []⟩

def sealedEpoch (log : ComputeLog) : Nat := log.epochs.length

/-- The part of the log's index that admission reads. -/
def index (log : ComputeLog) : Log := ⟨log.catalog, log.dedup, log.pending, [], 0, 0⟩

def append (log : ComputeLog) (b : LogBatch) : Except LogError (Ack × ComputeLog) :=
  match log.index.admitBatch b with
  | .error e => .error e
  | .ok none => .ok (.droppedAsReplay, log)
  | .ok (some hash) =>
    .ok (.appended, { log with dedup := log.dedup.insert b.dedupToken hash, pending := log.pending ++ [b] })

def sealEpoch (log : ComputeLog) : ComputeLog := { log with epochs := log.epochs ++ [log.pending], pending := [] }

end ComputeLog

inductive ApplyDisposition where
  | applied
  | replayed
  deriving DecidableEq

structure ApplyReceipt where
  commit : ManifestId
  epoch : Nat
  envelope : Digest
  disposition : ApplyDisposition
  appendedBatches : Nat
  replayedBatches : Nat
  deriving DecidableEq

inductive Outcome (α : Type) where
  | ok (value : α)
  | error (cause : BridgeError)
  /-- The process died. -/
  | died
  deriving DecidableEq

/-- The appends of one call: how many were new and how many known. -/
def appendAll : List LogBatch → Nat × Nat → Nat → ComputeLog → Outcome (Nat × Nat) × ComputeLog × Nat
  | [], counts, budget, log => (.ok counts, log, budget)
  | b :: bs, counts, budget, log =>
    match log.append b with
    | .error e => (.error (.log e), log, budget)
    | .ok (.droppedAsReplay, log) => appendAll bs (counts.1, counts.2 + 1) budget log
    | .ok (.appended, log') =>
      match budget with
      | 0 => (.died, log, 0)
      | budget + 1 => appendAll bs (counts.1 + 1, counts.2) budget log'

/-- Known tokens first, each half in table order. -/
def AppendBefore (log : ComputeLog) (a b : LogBatch) : Prop :=
  a.dedupToken ∈ log.dedup ∧ b.dedupToken ∉ log.dedup ∨
    (a.dedupToken ∈ log.dedup ↔ b.dedupToken ∈ log.dedup) ∧ a.table ≤ b.table

instance (log : ComputeLog) : DecidableRel (AppendBefore log) := fun a b =>
  inferInstanceAs (Decidable (a.dedupToken ∈ log.dedup ∧ b.dedupToken ∉ log.dedup ∨
    (a.dedupToken ∈ log.dedup ↔ b.dedupToken ∈ log.dedup) ∧ a.table ≤ b.table))

def appendOrder (log : ComputeLog) (batches : List LogBatch) : List LogBatch :=
  batches.insertionSort (AppendBefore log)

/-- A capture whose epoch is sealed: it is the same, or it is refused. -/
def replaySealed (log : ComputeLog) (c : CommitCapture) (prepared : Prepared) : Except BridgeError ApplyReceipt :=
  match log.epochs[c.commitSeq - 1]? with
  | none => .error (.log (.epochOutOfRange c.commitSeq log.sealedEpoch))
  | some existing =>
    if existing ≠ prepared.batches then .error (.replayMismatch c.commitSeq)
    else .ok ⟨c.commit, c.commitSeq, prepared.envelope, .replayed, 0, existing.length⟩

def admitCapture (log : ComputeLog) (c : CommitCapture) (prepared : Prepared) : Except BridgeError Unit := do
  if c.commitSeq ≠ log.sealedEpoch + 1 then throw (.sequenceGap (log.sealedEpoch + 1) c.commitSeq)
  validateRows log.catalog (prepared.batches.map (fun b => (b.table, b.entries)))
  if log.pending.any (fun b => b ∉ prepared.batches) then throw (.foreignPendingBatch (digestHex c.commit))

def applyCommit (H : Hashing) (A : Authority) (log : ComputeLog) (c : CommitCapture) (budget : Nat) :
    Outcome ApplyReceipt × ComputeLog × Nat :=
  match prepare H A c with
  | .error e => (.error e, log, budget)
  | .ok prepared =>
    if c.commitSeq ≤ log.sealedEpoch then
      match replaySealed log c prepared with
      | .error e => (.error e, log, budget)
      | .ok receipt => (.ok receipt, log, budget)
    else
      match admitCapture log c prepared with
      | .error e => (.error e, log, budget)
      | .ok () =>
        match appendAll (appendOrder log prepared.batches) (0, 0) budget log with
        | (.error e, log, budget) => (.error e, log, budget)
        | (.died, log, budget) => (.died, log, budget)
        | (.ok _, log, 0) => (.died, log, 0)
        | (.ok (appended, replayed), log, budget + 1) =>
          -- the seal's number is the expected one: nothing else seals in between
          (.ok ⟨c.commit, log.sealedEpoch + 1, prepared.envelope, .applied, appended, replayed⟩, log.sealEpoch, budget)

/-- Captures applied in order, up to the first that does not return `Ok`. -/
def applyAll (H : Hashing) (A : Authority) : List CommitCapture → Nat → ComputeLog → ComputeLog
  | [], _, log => log
  | c :: cs, budget, log =>
    match applyCommit H A log c budget with
    | (.ok _, log, budget) => applyAll H A cs budget log
    | (_, log, _) => log

end Mutiny.Bridge
