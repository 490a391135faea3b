import Mutiny.Lib.Group
import Mutiny.Prism.Catalog

/- Ingest, delete, merge, re-embed and rollback (`prism-engine`: `engine.rs`,
   `ingest.rs`, `delete.rs`, `merge.rs`, `scheduler.rs`).

   Each operation reads the live snapshot and the parts it needs, and is a script
   of effects over them: parts are put in place first, the commit comes last.

   Correspondence (Rust ↔ Lean) where names differ:
     `Engine::ingest` / `ingest_wal`        ↔ `ingest` / `ingestWal`, through `ingestInner`
   The embedder answers each text on its own. The key generated for a part is
   `freshDek` of the part's sequence number. -/
namespace Mutiny.Prism
open Mutiny.Lib

/-! The model plane. -/

/-- An embedder: the model it serves and the artifacts it was registered with. -/
structure Model where
  modelId : String
  modelVersion : String
  artifacts : Option String
  deriving DecidableEq

inductive Purpose where
  | ingest
  | migration
  | query
  deriving DecidableEq

structure EmbeddingInput where
  tenantId : Option String
  purpose : Purpose
  text : String
  deriving DecidableEq

structure Plane where
  defaultEmbedder : Nat → Except PrismError Model
  embedder : String → String → Nat → Option String → Except PrismError Model
  candidateEmbedder : String → String → Nat → Except PrismError Model
  embed : Model → EmbeddingInput → Except PlaneError (List F32)
  preflight : String → String → EmbeddingInput → Except PlaneError Unit

structure Engine where
  config : StoreConfig
  platform : Platform
  plane : Plane
  /-- The key service of a sealed store. -/
  keys : Option KeyService
  freshDek : Nat → Dek
  /-- The ownership epoch it holds, 0 before it acquired one. -/
  epoch : Nat

namespace Engine

variable (E : Engine) (db : Store)

/-! Parts. -/

def tenantTokenizer : Option (String → String) := E.keys.map KeyService.token

/-- Open a part and attach its key if it is sealed. -/
def openPart (id : PartId) : Except PrismError (Part × Option Dek) := do
  let p ← db.openManifest id
  let cipher ← cipherFor E.keys p
  pure (p, cipher)

def openParts (snap : Snapshot) : Except PrismError (List (Part × Option Dek)) :=
  snap.partIds.mapM (E.openPart db)

/-- The sealing of a new part; none for a store without keys. -/
def partEncryptionFor (bucketOrdinal dekEpoch seq : Nat) : Except PrismError (Option PartEncryption) :=
  match E.keys with
  | none => .ok none
  | some keys => do
    let dek := E.freshDek seq
    let wrapped ← keys.wrap dek
    pure (some ⟨dek, ⟨aeadXchacha20Poly1305, wrapped.1, dekEpoch, wrapped.2, bucketOrdinal⟩⟩)

/-- The partition an event belongs to, under a generation. -/
def partitionOf (g : GenerationId) (e : Event) : PartitionKey :=
  ⟨E.config.partitions.bucketOf E.platform.hashing e.tenantId, E.config.partitions.windowOf e.eventTime, g⟩

def partRef (p : Part) (key : PartitionKey) : PartRef :=
  ⟨p.id, key, p.manifest.rowCount, p.manifest.tenants, p.manifest.timeMin, p.manifest.timeMax⟩

def putPart (seq : Nat) (g : Generation) (key : PartitionKey) (lineage : Lineage) (enc : Option PartEncryption)
    (rows : List Row) : Work Part := do
  let spec : PartSpec := ⟨some key, E.config.promote, lineage, enc, E.tenantTokenizer⟩
  let p ← Script.lift (PartWriter.write E.platform E.config seq g spec rows)
  Script.emit (.writePart p)
  pure p

def entryOf (p : Part) (key : PartitionKey) : PartEntry := .located (partRef p key)

/-- The entries of the parts written for some groups, in the order of the groups. -/
def entriesOf (groups : List (PartitionKey × List Row)) (parts : List Part) : List PartEntry :=
  List.zipWith (fun group p => entryOf p group.1) groups parts

def encodeRow (g : Generation) (event : Event) (vector : List F32) : Except PrismError Row := do
  let code ← E.platform.encode g.pq vector
  pure ⟨event, E.platform.assign g.coarse vector, code, vector⟩

/-! Ingest. -/

structure IngestReport where
  admitted : Nat
  deadLettered : Nat
  partId : Option PartId
  snapshotId : Nat
  generationId : GenerationId
  trainedGeneration : Bool
  deriving DecidableEq

def inputOf (purpose : Purpose) (e : Event) : EmbeddingInput := ⟨some e.tenantId, purpose, e.body⟩

/-- Embed a batch: what survived with its vector, and what has to be dead-lettered. -/
def embedAll (m : Model) : List Event → List (Event × List F32) × List DeadLetter
  | [] => ([], [])
  | e :: rest =>
    let (kept, dead) := embedAll m rest
    match E.plane.embed m (inputOf .ingest e) with
    | .ok v => ((e, v) :: kept, dead)
    | .error err =>
      let reason := match err with
        | .policy _ => RejectReason.modelPolicyDenied
        | .other _ => .embeddingFailed
      (kept, ⟨reason, err.toText, "embedding", e⟩ :: dead)

/-- The events that pass validation, and the letters of those that do not. -/
def splitValid : List Event → List Event × List DeadLetter
  | [] => ([], [])
  | e :: rest =>
    let (admitted, dead) := splitValid rest
    match e.validate E.platform.hashing with
    | .ok _ => (e :: admitted, dead)
    | .error (reason, detail) => (admitted, ⟨reason, detail, "admission", e⟩ :: dead)

/-- The model policy's decision on each event of a batch. -/
def preflightAll (modelId modelVersion : String) : List Event → Except PrismError (List Event × List DeadLetter)
  | [] => .ok ([], [])
  | e :: rest =>
    match E.plane.preflight modelId modelVersion (inputOf .ingest e) with
    | .ok _ => do
      let (allowed, denied) ← preflightAll modelId modelVersion rest
      pure (e :: allowed, denied)
    | .error (.policy detail) => do
      let (allowed, denied) ← preflightAll modelId modelVersion rest
      pure (allowed, ⟨.modelPolicyDenied, detail, "model_policy", e⟩ :: denied)
    | .error err => .error (.plane err)

/-- The preflight under the active generation's model, or the default one. -/
def modelPreflightIngest (snap : Snapshot) (events : List Event) : Except PrismError (List Event × List DeadLetter) :=
  if events.isEmpty then .ok ([], [])
  else do
    let model ← match snap.activeGeneration with
      | some g => (db.getGeneration g).map (fun g => (g.modelId, g.modelVersion))
      | none => (E.plane.defaultEmbedder E.config.dim).map (fun m => (m.modelId, m.modelVersion))
    E.preflightAll model.1 model.2 events

/-- A generation for a model, under its content address. -/
def newGeneration (m : Model) (t : Trained) (trainedFrom : String) (provisional : Bool) : Generation :=
  ⟨E.platform.generationAddress m.modelId m.modelVersion m.artifacts E.config.dim t.coarse t.pq, m.modelId,
    m.modelVersion, m.artifacts, E.config.dim, t.coarse, t.pq, trainedFrom, provisional⟩

def sampleRows (kept : List (Event × List F32)) : List (String × String × List F32) :=
  kept.map (fun ev => (ev.1.tenantId, ev.1.eventId, ev.2))

/-- Train the first generation from a batch; none if nothing embeds. -/
def trainGeneration (snapshotId : Nat) (admitted : List Event) :
    Except PrismError (Option (Generation × List (Event × List F32)) × List DeadLetter) := do
  let m ← E.plane.defaultEmbedder E.config.dim
  let (kept, dead) := E.embedAll m admitted
  if kept.isEmpty then
    pure (none, dead)
  else
    let t ← E.platform.train E.config snapshotId (sampleRows kept)
    let n := t.rowsSampled
    let trainedFrom :=
      s!"bootstrap (PROVISIONAL): stratified sample of {n} vectors from the first ingest, keyed on event_id"
    pure (some (E.newGeneration m t trainedFrom true, kept), dead)

def writeDeadLetters (dead : List DeadLetter) : Work Unit :=
  if dead.isEmpty then pure () else Script.emit (.deadLetters dead)

def finishEmpty (snap : Snapshot) (dead : List DeadLetter) : Work IngestReport := do
  writeDeadLetters dead
  pure ⟨0, dead.length, none, snap.snapshotId, snap.activeGeneration.getD "", false⟩

/-- One part of an ingest: sealed if the store has keys. -/
def ingestPart (g : Generation) (seq : Nat) (group : PartitionKey × List Row) : Work Part := do
  let enc ← Script.lift (E.partEncryptionFor (E.config.partitions.bucketOrdinal group.1.bucket) 1 seq)
  E.putPart seq g group.1 .default enc group.2

/-- Refuse if this engine acquired ownership and another took it since. -/
def assertWriteOwner : Work Unit := if E.epoch = 0 then pure () else Script.emit (.fence E.epoch)

def writeAndCommit (snap : Snapshot) (g : Generation) (kept : List (Event × List F32)) (dead : List DeadLetter)
    (trained : Bool) (now : Int) (applied : Option Nat) : Work IngestReport := do
  writeDeadLetters dead
  if kept.isEmpty then
    return ⟨0, dead.length, none, snap.snapshotId, g.generationId, trained⟩
  let rows ← Script.lift (kept.mapM (fun ev => E.encodeRow g ev.1 ev.2))
  let groups := (SortedMap.group (fun r => E.partitionOf g.generationId r.event) rows).toList
  let parts ← Script.mapFrom (fun _ => 1) (E.ingestPart g) snap.nextSeq groups
  Script.emitAll (parts.map (fun p => .publishCold p.id now))
  E.assertWriteOwner
  Script.emit (.mirror snap now)
  let extra := { snap.toSnapshotMeta with appliedWalRecord := applied.orElse (fun _ => snap.appliedWalRecord) }
  let new ← commitMeta snap (snap.parts ++ entriesOf groups parts) (snap.nextSeq + groups.length)
    (some g.generationId) extra now
  Script.emit (.mirror new now)
  pure ⟨rows.length, dead.length, parts.head?.map Part.id, new.snapshotId, g.generationId, trained⟩

/-- Embed the admitted events under the active generation, or a first one, and commit them. -/
def embedAndCommit (snap : Snapshot) (admitted : List Event) (dead : List DeadLetter) (now : Int)
    (applied : Option Nat) : Work IngestReport :=
  match snap.activeGeneration with
  | some id => do
    let g ← Script.lift (db.getGeneration id)
    let m ← Script.lift (E.plane.embedder g.modelId g.modelVersion E.config.dim g.modelArtifacts)
    let (kept, failed) := E.embedAll m admitted
    E.writeAndCommit snap g kept (dead ++ failed) false now applied
  | none => do
    let (trained, failed) ← Script.lift (E.trainGeneration snap.snapshotId admitted)
    match trained with
    | none => finishEmpty snap (dead ++ failed)
    | some (g, kept) => do
      Script.emit (.putGeneration g)
      E.writeAndCommit snap g kept (dead ++ failed) true now applied

def ingestInner (events : List Event) (now : Int) (applied : Option Nat) (preflight : Bool) : Work IngestReport := do
  let snap ← Script.lift db.current
  let (admitted, dead) := E.splitValid events
  if preflight then
    let (allowed, denied) ← Script.lift (E.modelPreflightIngest db snap admitted)
    if allowed.isEmpty then
      finishEmpty snap (dead ++ denied)
    else
      E.embedAndCommit db snap allowed (dead ++ denied) now applied
  else
    E.embedAndCommit db snap admitted dead now applied

def ingest (events : List Event) (now : Int) : Work IngestReport := E.ingestInner db events now none true

/-- Ingest as the publication of a log record. -/
def ingestWal (events : List Event) (now : Int) (recordId : Nat) : Work IngestReport :=
  E.ingestInner db events now (some recordId) false

/-! Delete. -/

/-- Put an event id into the sorted set of deleted ones. -/
def addTombstone (tombstones : List String) (id : String) : List String :=
  if id ∈ tombstones then tombstones else tombstones.orderedInsert (· ≤ ·) id

def delete (eventIds : List String) (now : Int) : Work Nat := do
  let snap ← Script.lift db.current
  let tombstones := eventIds.foldl addTombstone snap.tombstones
  let added := tombstones.length - snap.tombstones.length
  if added = 0 then
    return 0
  let _ ← commitMeta snap snap.parts snap.nextSeq snap.activeGeneration
    { snap.toSnapshotMeta with tombstones := tombstones } now
  pure added

/-! Reconciling duplicates. -/

/-- Last write wins by event time, then by content hash. -/
def supersedes (new old : Event) : Bool :=
  if old.eventTime < new.eventTime then true
  else if new.eventTime < old.eventTime then false
  else old.contentHash E.platform.hashing < new.contentHash E.platform.hashing

def keepWinner (kept : BTreeMap String Row) (r : Row) : BTreeMap String Row :=
  match kept[r.event.eventId]? with
  | some old => if E.supersedes r.event old.event then kept.insert r.event.eventId r else kept
  | none => kept.insert r.event.eventId r

/-- One row of every event id, in the order of the ids. -/
def reconcile (rows : List Row) : List Row := (rows.foldl E.keepWinner ∅).toList.map Prod.snd

def mergeSafetyMarginBytes : Nat := 64 * 1024 * 1024

/-- Whether a merge has to rewrite a part even alone: an older format, or tenant names in the clear on
    a store that seals them. -/
def needsMigration (p : Part) : Bool := p.isLegacy || (E.tenantTokenizer.isSome && !p.manifest.tenantTokens)

/-! The merge scheduler. -/

def mergeTierFanout : Nat := 4
def mergeTierRatio : Nat := 4
def mergeTierBaseRows : Nat := 256
def mergeIoBudgetRows : Nat := 1000000
def mergeMaxOps : Nat := 16

/-- The first tier, counted from `bound`, that covers a number of rows. -/
def tierFrom (rows : Nat) : Nat → Nat → Nat
  | 0, _ => 0
  | fuel + 1, bound => if bound < rows then tierFrom rows fuel (bound * mergeTierRatio) + 1 else 0

def tierOf (rows : Nat) : Nat := tierFrom rows rows mergeTierBaseRows

structure MergeOp where
  partition : String
  tier : Nat
  partIds : List PartId
  inputRows : Nat
  reason : String
  deriving DecidableEq

def describe (key : PartitionKey) : String :=
  let bucket := match key.bucket with
    | .dedicated i => s!"Dedicated({i})"
    | .shared i => s!"Shared({i})"
  let window := key.window
  let generation := key.generation
  s!"bucket={bucket} window={window} generation={generation}"

def mergeReason (tier members : Nat) : String :=
  let fanout := mergeTierFanout
  let fewer := members - 1
  s!"tier {tier} holds {members} parts (>= fan-out {fanout}); merging them into one graduates the tier and cuts part count by {fewer}"

/-- The tiers of a partition that hold enough parts, each with its parts. -/
def ripeOps (key : PartitionKey) (members : List PartRef) : List MergeOp :=
  (SortedMap.group (fun p => tierOf p.rows) members).toList.filterMap (fun tier =>
    if mergeTierFanout ≤ tier.2.length then
      some ⟨describe key, tier.1, (tier.2.map PartRef.partId).insertionSort (· ≤ ·), (tier.2.map PartRef.rows).sum,
        mergeReason tier.1 tier.2.length⟩
    else none)

structure Admission where
  ops : List MergeOp
  ioSpent : Nat
  deferred : Nat

/-- One round over the buckets' queues: an op from each, as far as the budgets go. -/
def admitRound : List (List MergeOp) → Admission → List (List MergeOp) × Admission
  | [], a => ([], a)
  | [] :: queues, a =>
    let (rest, a) := admitRound queues a
    ([] :: rest, a)
  | (op :: q) :: queues, a =>
    if mergeMaxOps ≤ a.ops.length ∨ mergeIoBudgetRows < a.ioSpent + op.inputRows then
      let (rest, a) := admitRound queues { a with deferred := a.deferred + 1 + q.length }
      ([] :: rest, a)
    else
      let (rest, a) := admitRound queues ⟨a.ops ++ [op], a.ioSpent + op.inputRows, a.deferred⟩
      (q :: rest, a)

/-- Rounds until every queue is empty; each takes an op from every queue that has one. -/
def admitRounds : Nat → List (List MergeOp) → Admission → Admission
  | 0, _, a => a
  | fuel + 1, queues, a => if queues.all List.isEmpty then a
    else
      let (queues, a) := admitRound queues a
      admitRounds fuel queues a

structure MergePlan where
  ops : List MergeOp
  mergeDebt : Nat
  ioBudgetRows : Nat
  ioSpentRows : Nat
  deferredOps : Nat
  deriving DecidableEq

def planMerges (parts : List PartRef) : MergePlan :=
  let byPartition := (SortedMap.group PartRef.partition parts).toList
  let debt := (byPartition.map (fun kp =>
    ((SortedMap.group (fun p => tierOf p.rows) kp.2).toList.map (fun tier => tier.2.length - 1)).sum)).sum
  let ripe := byPartition.flatMap (fun kp => (ripeOps kp.1 kp.2).map (fun op => (kp.1.bucket.id, op)))
  let queues := (SortedMap.group Prod.fst ripe).toList.map (fun bucket =>
    (bucket.2.map Prod.snd).insertionSort (fun a b => toLex (a.inputRows, a.partition) ≤ toLex (b.inputRows, b.partition)))
  let a := admitRounds ripe.length queues ⟨[], 0, 0⟩
  ⟨a.ops, debt, mergeIoBudgetRows, a.ioSpent, a.deferred⟩

/-! Merging. -/

structure MergeReport where
  partsIn : Nat
  partsOut : Nat
  rowsIn : Nat
  rowsOut : Nat
  duplicatesReconciled : Nat
  partsMigrated : Nat
  bytesRead : Nat
  bytesWritten : Nat
  snapshotId : Nat
  /-- Put off for want of space: the bytes free and the bytes needed. -/
  deferred : Option (Nat × Nat)
  plan : Option MergePlan
  mergeDebt : Nat
  deriving DecidableEq

/-- The report of a merge that left the store as it is. -/
def untouched (snap : Snapshot) (deferred : Option (Nat × Nat)) (plan : Option MergePlan) (debt : Nat) : MergeReport :=
  ⟨snap.parts.length, snap.parts.length, 0, 0, 0, 0, 0, 0, snap.snapshotId, deferred, plan, debt⟩

def totalBytes (parts : List Part) : Nat := (parts.map E.platform.logicalBytes).sum

/-- The rows a merge read that are not deleted, each with the generation it is encoded under. -/
def liveRows (snap : Snapshot) (read : List (Part × List Row)) : List (GenerationId × Row) :=
  read.flatMap (fun pr =>
    (pr.2.filter (fun r => !snap.isTombstoned r.event.eventId)).map (fun r => (pr.1.manifest.generationId, r)))

def rowsRead (read : List (Part × List Row)) : Nat := (read.map (fun pr => pr.2.length)).sum

/-- One part of a merge. It is written in the clear, as an ordinary part. -/
def mergedPart (seq : Nat) (group : PartitionKey × List Row) : Work Part := do
  let g ← Script.lift (db.getGeneration group.1.generation)
  E.putPart seq g group.1 .default none group.2

def mergeGroups (live : List (GenerationId × Row)) : List (PartitionKey × List Row) :=
  (SortedMap.group (fun gr => E.partitionOf gr.1 gr.2.event) live).toList.map
    (fun kr => (kr.1, E.reconcile (kr.2.map Prod.snd)))

/-- Everything into one part per partition. `free` is the free space of the disk, if it can be told. -/
def merge (free : Option Nat) (now : Int) : Work MergeReport := do
  let snap ← Script.lift db.current
  let readers ← Script.lift (E.openParts db snap)
  if snap.parts.length < 2 ∧ ¬ readers.any (fun r => E.needsMigration r.1) then
    return untouched snap none none 0
  let bytesRead := E.totalBytes (readers.map Prod.fst)
  let required := bytesRead + mergeSafetyMarginBytes
  if free.any (· < required) then
    return untouched snap (free.map (fun f => (f, required))) none 0
  let read ← Script.lift (readers.mapM (fun r => (r.1.readAll r.2).map (fun rows => (r.1, rows))))
  let live := liveRows snap read
  let groups := E.mergeGroups live
  let parts ← Script.mapFrom (fun _ => 1) (E.mergedPart db) snap.nextSeq groups
  let new ← commitMeta snap (entriesOf groups parts) (snap.nextSeq + groups.length) snap.activeGeneration
    { snap.toSnapshotMeta with tombstones := [] } now
  let rowsOut := (groups.map (fun kr => kr.2.length)).sum
  -- a live row that is not written was a duplicate
  pure ⟨snap.parts.length, parts.length, rowsRead read, rowsOut, live.length - rowsOut,
    (readers.filter (fun r => E.needsMigration r.1)).length, bytesRead, E.totalBytes parts, new.snapshotId, none, none, 0⟩

/-- The parts of an op with their rows. They are opened without a key. -/
def opRead (op : MergeOp) : Except PrismError (List (Part × List Row)) :=
  op.partIds.mapM (fun id => do
    let p ← db.openManifest id
    let rows ← p.readAll none
    pure (p, rows))

structure OpOutcome where
  read : List (Part × List Row)
  live : List (GenerationId × Row)
  written : Option (PartitionKey × List Row × Part)

/-- Carry out one op: nothing is written if every row was deleted, else one part in the partition of the
    first row left. -/
def mergeOp (snap : Snapshot) (seq : Nat) (op : MergeOp) : Work OpOutcome := do
  let read ← Script.lift (opRead db op)
  let live := liveRows snap read
  match live with
  | [] => pure ⟨read, live, none⟩
  | (gen, r) :: _ => do
    let group := (E.partitionOf gen r.event, E.reconcile (live.map Prod.snd))
    let p ← E.mergedPart db seq group
    pure ⟨read, live, some (group.1, group.2, p)⟩

def OpOutcome.used (o : OpOutcome) : Nat := if o.written.isSome then 1 else 0

def opEntries (os : List OpOutcome) : List PartEntry :=
  os.filterMap (fun o => o.written.map (fun w => entryOf w.2.2 w.1))

def unconsumed (snap : Snapshot) (ops : List MergeOp) : List PartEntry :=
  snap.parts.filter (fun e => e.located?.all (fun r => r.partId ∉ ops.flatMap MergeOp.partIds))

def mergeTiered (free : Option Nat) (now : Int) : Work MergeReport := do
  let snap ← Script.lift db.current
  let refs := snap.parts.filterMap PartEntry.located?
  if refs.length ≠ snap.parts.length then
    E.merge db free now
  else
    let plan := planMerges refs
    if plan.ops.isEmpty then
      return untouched snap none (some plan) plan.mergeDebt
    let os ← Script.mapFrom OpOutcome.used (E.mergeOp db snap) snap.nextSeq plan.ops
    let kept := unconsumed snap plan.ops ++ opEntries os
    let new ← commit snap kept (snap.nextSeq + (opEntries os).length) snap.activeGeneration now
    let rowsOut := (os.map (fun o => (o.written.map (fun w => w.2.1.length)).getD 0)).sum
    pure ⟨snap.parts.length, kept.length, (os.map (fun o => rowsRead o.read)).sum, rowsOut,
      (os.map (fun o => o.live.length)).sum - rowsOut, 0,
      E.totalBytes (os.flatMap (fun o => o.read.map Prod.fst)),
      E.totalBytes (os.filterMap (fun o => o.written.map (fun w => w.2.2))), new.snapshotId, none, some plan,
      (planMerges (new.parts.filterMap PartEntry.located?)).mergeDebt⟩

/-! Re-embedding and rollback. -/

structure ReembedReport where
  oldGeneration : GenerationId
  newGeneration : GenerationId
  oldModel : String
  newModel : String
  rows : Nat
  partsWritten : Nat
  snapshotId : Nat
  rollbackTo : Nat
  deriving DecidableEq

/-- Embed every event, or fail at the first that does not embed. -/
def reembedAll (m : Model) (refused : Event → PlaneError → PrismError) (events : List Event) :
    Except PrismError (List (Event × List F32)) :=
  events.mapM (fun e =>
    match E.plane.embed m (inputOf .migration e) with
    | .ok v => .ok (e, v)
    | .error err => .error (refused e err))

/-- Every row under a new model version, in a new generation. -/
def reembed (newVersion : String) (now : Int) : Work ReembedReport := do
  let snap ← Script.lift db.current
  let oldId ← Script.lift (snap.activeGeneration.elim (.error (.nothingToReembed "store is empty")) .ok)
  let old ← Script.lift (db.getGeneration oldId)
  let m ← Script.lift (E.plane.candidateEmbedder old.modelId newVersion E.config.dim)
  let readers ← Script.lift (E.openParts db snap)
  let read ← Script.lift (readers.mapM (fun r => r.1.readAll r.2))
  let events := read.flatten.map Row.event
  if events.isEmpty then
    Script.lift (.error (.nothingToReembed "no rows"))
  else
    let kept ← Script.lift (E.reembedAll m (fun e err => .reembedFailed e.eventId newVersion err) events)
    let t ← Script.lift (E.platform.train E.config snap.snapshotId (sampleRows kept))
    let n := t.rowsSampled
    let g := E.newGeneration m t s!"re-embed from generation {oldId}: reservoir sample of {n} vectors" false
    if g.generationId = oldId then
      Script.lift (.error .sameGeneration)
    else
      Script.emit (.putGeneration g)
      let rows ← Script.lift (kept.mapM (fun ev => E.encodeRow g ev.1 ev.2))
      let groups := (SortedMap.group (fun r => E.partitionOf g.generationId r.event) rows).toList
      let parts ← Script.mapFrom (fun _ => 1) (fun seq group => E.putPart seq g group.1 .default none group.2)
        snap.nextSeq groups
      let new ← commit snap (entriesOf groups parts) (snap.nextSeq + groups.length) (some g.generationId) now
      pure ⟨oldId, g.generationId, spaceOf old.modelId old.modelVersion, spaceOf m.modelId m.modelVersion,
        rows.length, parts.length, new.snapshotId, snap.snapshotId⟩

/-- Make the parts and the active generation of an earlier snapshot live again. -/
def rollback (target : Nat) (now : Int) : Work Nat := do
  let target ← Script.lift (db.loadSnapshot target)
  let current ← Script.lift db.current
  let new ← commit current target.parts (max current.nextSeq target.nextSeq) target.activeGeneration now
  pure new.snapshotId

end Engine

end Mutiny.Prism
