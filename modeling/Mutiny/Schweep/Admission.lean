import Mutiny.Schweep.LogSpec

/- Admission to the log (`schweep-server`: `admission.rs`, `engine.rs`).

   A source may have `queueBound` batches of `queueBytes` bytes in all that no epoch
   has sealed yet. The counters that enforce this are kept in memory, and
   `Engine::open` starts them at zero while the log brings the unsealed batches back;
   and a batch is charged the frame it has under the name `wire`, whatever its source
   is called. So what a source has unsealed is within the bounds but for the batches
   the last open found and for what its name is longer than `wire` (`admission_bound`):
   a restart inside an epoch lets a full queue grow again, and a long name takes more
   bytes than it is charged for (`restart_fills_again`).

   Of the engine there are the log and the gate. Whether the memo takes a sealed epoch
   is part of the event: if it does not, the counters are not cleared. Sizes are
   `Nat`; the source's `usize` cannot overflow below a queue that is in memory.

   Correspondence (Rust ↔ Lean) where names differ:
     `Admission::check`, `admitted`, `sealed` ↔ `Admission.check`, `admitted`, `cleared`
     `Engine::seal`, `Engine::open`           ↔ `ServerWorld.step` -/
namespace Mutiny.Schweep
open Mutiny.Lib SortedMap List

structure Policy where
  queueBound : Nat
  queueBytes : Nat

inductive Verdict where
  | admits
  | overloaded (sourceDepth bound : Nat)
  | overloadedBytes (queuedBytes batchBytes bound : Nat)
  | tooLarge (batchBytes bound : Nat)

structure Admission where
  policy : Policy
  depths : BTreeMap String Nat
  bytes : BTreeMap String Nat
  refused : BTreeMap String Nat

namespace Admission

variable (a : Admission) (source : String) (batchBytes : Nat)

def new (policy : Policy) : Admission := ⟨policy, ∅, ∅, ∅⟩

def refuse (v : Verdict) : Verdict × Admission :=
  (v, { a with refused := a.refused.insert source (a.refused.getD source 0 + 1) })

/-- May one more batch be queued? The bytes are asked for first. -/
def check : Verdict × Admission :=
  if batchBytes > a.policy.queueBytes then a.refuse source (.tooLarge batchBytes a.policy.queueBytes)
  else if a.bytes.getD source 0 + batchBytes > a.policy.queueBytes then
    a.refuse source (.overloadedBytes (a.bytes.getD source 0) batchBytes a.policy.queueBytes)
  else if a.depths.getD source 0 ≥ a.policy.queueBound then
    a.refuse source (.overloaded (a.depths.getD source 0) a.policy.queueBound)
  else (.admits, a)

def admitted : Admission :=
  { a with
    depths := a.depths.insert source (a.depths.getD source 0 + 1)
    bytes := a.bytes.insert source (a.bytes.getD source 0 + batchBytes) }

def cleared : Admission := { a with depths := ∅, bytes := ∅ }

end Admission

/-- The frame a batch is charged for: that of a source named `wire`. -/
def encodeBatch (b : LogBatch) : Bytes := frame (Record.append { b with sourceId := "wire" }).encode

def batchBytes (b : LogBatch) : Nat := (encodeBatch b).length

/-- The bytes of the frame the log writes for a batch. -/
def heldBytes (b : LogBatch) : Nat := (frame (Record.append b).encode).length

theorem heldBytes_eq (b : LogBatch) : heldBytes b + 4 = batchBytes b + (utf8 b.sourceId).length := by
  have hwire : (utf8 "wire").length = 4 := by decide
  simp only [heldBytes, batchBytes, encodeBatch, frame, length_checkedFrame, Record.encode, putStr, putU64, length_cons,
    length_append, length_beBytes, hwire]
  omega

inductive ServerError where
  | overloaded (sourceId : String) (depth bound : Nat)
  | overloadedBytes (sourceId : String) (queuedBytes batchBytes bound : Nat)
  | batchTooLarge (batchBytes bound : Nat)
  | log (e : LogError)

/-- The segment on disk, the log and the gate of the engine if it is open, and the
    batches that its last open found unsealed and that still are. -/
structure ServerWorld where
  segment : Bytes
  engine : Option (Log × Admission)
  recovered : List LogBatch

inductive ServerEvent where
  | ingest (b : LogBatch)
  | sealEpoch (stepped : Bool)
  | restart

namespace ServerWorld

def ingest (log : Log) (gate : Admission) (segment : Bytes) (b : LogBatch) :
    Except ServerError Ack × (Log × Admission) × Bytes :=
  match gate.check b.sourceId (batchBytes b) with
  | (.overloaded depth bound, gate) => (.error (.overloaded b.sourceId depth bound), (log, gate), segment)
  | (.overloadedBytes queued size bound, gate) =>
    (.error (.overloadedBytes b.sourceId queued size bound), (log, gate), segment)
  | (.tooLarge size bound, gate) => (.error (.batchTooLarge size bound), (log, gate), segment)
  | (.admits, gate) => match log.append segment b with
    | (.error e, log, segment) => (.error (.log e), (log, gate), segment)
    | (.ok .droppedAsReplay, log, segment) => (.ok .droppedAsReplay, (log, gate), segment)
    | (.ok .appended, log, segment) => (.ok .appended, (log, gate.admitted b.sourceId (batchBytes b)), segment)

def step (catalog : Catalog) (policy : Policy) (w : ServerWorld) : ServerEvent → ServerWorld
  | .ingest b => match w.engine with
    | none => w
    | some (log, gate) =>
      let (_, engine, segment) := ingest log gate w.segment b
      { w with segment := segment, engine := some engine }
  | .sealEpoch stepped => match w.engine with
    | none => w
    | some (log, gate) =>
      let (_, log, segment) := log.sealEpoch w.segment
      ⟨segment, some (log, if stepped then gate.cleared else gate), []⟩
  | .restart => match Log.openLog catalog w.segment with
    | .error _ => ⟨w.segment, none, []⟩
    | .ok log => ⟨w.segment, some (log, .new policy), log.pending⟩

def run (catalog : Catalog) (policy : Policy) (events : List ServerEvent) : ServerWorld :=
  events.foldl (step catalog policy) ⟨[], none, []⟩

def pending (w : ServerWorld) : List LogBatch := w.engine.elim [] (fun e => e.1.pending)

end ServerWorld

/-- What a source has in a queue, by a measure of batches. -/
def share (f : LogBatch → Nat) (source : String) (batches : List LogBatch) : Nat :=
  ((batches.filter (fun b => b.sourceId = source)).map f).sum

/-! The counters and the log. -/

/-- A counter is within its limit and covers what came after the last open. -/
structure Counts (f : LogBatch → Nat) (limit : Nat) (newer : List LogBatch) (counter : BTreeMap String Nat) : Prop where
  within : ∀ source, counter.getD source 0 ≤ limit
  covers : ∀ source, share f source newer ≤ counter.getD source 0

section Counts

variable {f : LogBatch → Nat} {limit : Nat} {newer : List LogBatch} {counter : BTreeMap String Nat} {b : LogBatch}

theorem Counts.empty (f : LogBatch → Nat) (limit : Nat) : Counts f limit [] ∅ := ⟨by simp, by simp [share]⟩

theorem Counts.sealed (h : Counts f limit newer counter) : Counts f limit [] counter := ⟨h.within, by simp [share]⟩

theorem Counts.add (h : Counts f limit newer counter) (hroom : counter.getD b.sourceId 0 + f b ≤ limit) :
    Counts f limit (newer ++ [b]) (counter.insert b.sourceId (counter.getD b.sourceId 0 + f b)) := by
  have hcounter : ∀ source, (counter.insert b.sourceId (counter.getD b.sourceId 0 + f b)).getD source 0 =
      if b.sourceId = source then counter.getD b.sourceId 0 + f b else counter.getD source 0 := by
    intro source
    rw [getD_eq, SortedMap.getElem?_insert]
    split_ifs
    · rfl
    · rw [getD_eq]
  refine ⟨fun source => ?_, fun source => ?_⟩
  · rw [hcounter]
    split_ifs
    · exact hroom
    · exact h.within source
  · have hold := h.covers source
    rw [hcounter]
    by_cases heq : b.sourceId = source
    · subst heq
      simp only [share, filter_append, map_append, sum_append] at hold ⊢
      simp
      omega
    · simpa [share, heq] using hold

theorem Counts.bound (h : Counts f limit newer counter) (source : String) : share f source newer ≤ limit :=
  (h.covers source).trans (h.within source)

end Counts

/-- What a name is longer than `wire`, the log holds uncharged. -/
theorem share_heldBytes (source : String) (l : List LogBatch) :
    share heldBytes source l + 4 * share (fun _ => 1) source l =
      share batchBytes source l + (utf8 source).length * share (fun _ => 1) source l := by
  induction l with
  | nil => simp [share]
  | cons b l ih =>
    by_cases hb : b.sourceId = source
    · have hheld := heldBytes_eq b
      simp only [share, filter_cons, hb, decide_true, if_true, map_cons, sum_cons, Nat.mul_add] at ih hheld ⊢
      omega
    · simpa [share, filter_cons, hb] using ih

namespace ServerWorld

/-- The gate counts what the log took since it was opened. -/
structure Gated (policy : Policy) (recovered newer : List LogBatch) (engine : Log × Admission) : Prop where
  policy : engine.2.policy = policy
  pending : engine.1.pending = recovered ++ newer
  depths : Counts (fun _ => 1) engine.2.policy.queueBound newer engine.2.depths
  bytes : Counts batchBytes engine.2.policy.queueBytes newer engine.2.bytes

variable {policy : Policy} {w : ServerWorld}

theorem Gated.ingest {recovered newer : List LogBatch} {log : Log} {gate : Admission}
    (h : Gated policy recovered newer (log, gate)) (segment : Bytes) (b : LogBatch) :
    ∃ newer, Gated policy recovered newer (ServerWorld.ingest log gate segment b).2.1 := by
  simp only [ServerWorld.ingest, Admission.check]
  split_ifs with hlarge hbytes hdepth
  · exact ⟨newer, h.policy, h.pending, h.depths, h.bytes⟩
  · exact ⟨newer, h.policy, h.pending, h.depths, h.bytes⟩
  · exact ⟨newer, h.policy, h.pending, h.depths, h.bytes⟩
  · unfold Log.append
    cases log.admitBatch b with
    | error e => exact ⟨newer, h⟩
    | ok o =>
      cases o with
      | none => exact ⟨newer, h⟩
      | some hash =>
        refine ⟨newer ++ [b], h.policy, ?_, h.depths.add (not_le.1 hdepth), h.bytes.add (not_lt.1 hbytes)⟩
        rw [← append_assoc, ← h.pending]

def Within (policy : Policy) (w : ServerWorld) : Prop := match w.engine with
  | none => w.recovered = []
  | some engine => ∃ newer, Gated policy w.recovered newer engine

theorem within_step (h : w.Within policy) (catalog : Catalog) (event : ServerEvent) :
    (w.step catalog policy event).Within policy := by
  cases event with
  | restart =>
    simp only [step]
    cases Log.openLog catalog w.segment with
    | error e => exact rfl
    | ok log => exact ⟨[], rfl, (append_nil _).symm, .empty _ _, .empty _ _⟩
  | sealEpoch stepped =>
    simp only [step]
    unfold Within at h
    split at h
    · next hengine => simpa only [hengine, Within] using h
    · next engine hengine =>
      obtain ⟨newer, h⟩ := h
      rw [hengine]
      cases stepped with
      | true => exact ⟨[], h.policy, rfl, .empty _ _, .empty _ _⟩
      | false => exact ⟨[], h.policy, rfl, h.depths.sealed, h.bytes.sealed⟩
  | ingest b =>
    simp only [step]
    unfold Within at h
    split at h
    · next hengine => simpa only [hengine, Within] using h
    · next engine hengine =>
      obtain ⟨newer, h⟩ := h
      rw [hengine]
      exact h.ingest w.segment b

theorem within_run (catalog : Catalog) (policy : Policy) (events : List ServerEvent) :
    (run catalog policy events).Within policy :=
  foldlRecOn events (step catalog policy) rfl (fun _ h event _ => within_step h catalog event)

theorem Within.pending (h : w.Within policy) (source : String) : ∃ newer, w.pending = w.recovered ++ newer ∧
    share (fun _ => 1) source newer ≤ policy.queueBound ∧ share batchBytes source newer ≤ policy.queueBytes := by
  unfold Within at h
  split at h
  · next hengine => exact ⟨[], by simp [ServerWorld.pending, hengine, h], by simp [share]⟩
  · next engine hengine =>
    obtain ⟨newer, rfl, hpending, hdepths, hbytes⟩ := h
    exact ⟨newer, by simp [ServerWorld.pending, hengine, hpending], hdepths.bound source, hbytes.bound source⟩

/-- What a source has unsealed is what the last open found and newer batches. Those are
    within the bound, and their frames within the bytes but for what the source's name is
    longer than `wire`; so all of it is, for a short name and nothing found. -/
theorem admission_bound (catalog : Catalog) (policy : Policy) (events : List ServerEvent) (source : String) :
    let w := run catalog policy events
    (∃ newer, w.pending = w.recovered ++ newer ∧ share (fun _ => 1) source newer ≤ policy.queueBound ∧
      share heldBytes source newer + 4 * share (fun _ => 1) source newer ≤
        policy.queueBytes + (utf8 source).length * share (fun _ => 1) source newer) ∧
    (w.recovered = [] → share (fun _ => 1) source w.pending ≤ policy.queueBound ∧
      ((utf8 source).length ≤ 4 → share heldBytes source w.pending ≤ policy.queueBytes)) := by
  intro w
  obtain ⟨newer, hpending, hdepth, hbytes⟩ := (within_run catalog policy events).pending source
  have hheld := share_heldBytes source newer
  refine ⟨⟨newer, hpending, hdepth, by omega⟩, fun hnone => ?_⟩
  rw [hpending, hnone, nil_append]
  refine ⟨hdepth, fun hshort => ?_⟩
  have := Nat.mul_le_mul_right (share (fun _ => 1) source newer) hshort
  omega

/-- A source at its bound of one batch has two after a restart; and one with a name of
    43 characters holds 111 bytes for the 72 it is charged, and may have. -/
theorem restart_fills_again :
    let w := run logCatalog ⟨1, 1000⟩ [.restart, .ingest (logBatch "a" I64.zero), .ingest (logBatch "b" I64.one),
      .restart, .ingest (logBatch "b" I64.one)]
    let long := "a-source-with-a-name-of-forty-three-letters"
    let w' := run logCatalog ⟨1, 72⟩ [.restart, .ingest { logBatch "a" I64.zero with sourceId := long }]
    (w.pending = [logBatch "a" I64.zero, logBatch "b" I64.one] ∧ share (fun _ => 1) "s" w.pending = 2) ∧
      w'.recovered = [] ∧ share heldBytes long w'.pending = 111 := by
  decide +kernel

end ServerWorld

end Mutiny.Schweep
