import Mutiny.Prism.Engine

/- The life of a generation, retention and bridges (`prism-engine`:
   `generations.rs`).

   A generation is trained as a candidate, parts move into it a partition at a
   time, it is promoted and in the end retired; each transition is one commit.
   `Op` lists what an engine can be asked to do to its store, and `Op.work` is the
   script it then runs.

   Correspondence (Rust ↔ Lean) where names differ:
     `Engine::generation_canary`    ↔ `generationCanary`, through `reembedParts`
     `Engine::generation_migrate`   ↔ `generationMigrate`, through `reembedParts` -/
namespace Mutiny.Prism
open Mutiny.Lib

def Row.redacted (r : Row) : Row := { r with event := { r.event with body := "" } }

namespace Engine

variable (E : Engine) (db : Store)

/-! Training a candidate. -/

def creationEmbedder (active : Option Generation) (version : String) : Except PrismError Model :=
  match active with
  | some g =>
    if g.modelVersion = version then E.plane.embedder g.modelId g.modelVersion E.config.dim g.modelArtifacts
    else E.plane.candidateEmbedder g.modelId version E.config.dim
  | none => do
    let m ← E.plane.defaultEmbedder E.config.dim
    if m.modelVersion ≠ version then
      throw (.notDefaultVersion version m.modelVersion)
    pure m

/-- The metadata of a snapshot that also knows a candidate. -/
def registerCandidate (snap : Snapshot) (g : GenerationId) : SnapshotMeta :=
  let gens := if g ∈ snap.generations then snap.generations else snap.generations.insert g .candidate
  { snap.toSnapshotMeta with
    generations := match snap.activeGeneration with
      | some a => if a ∈ gens then gens else gens.insert a .active
      | none => gens }

def generationCreate (version : Option String) (now : Int) : Work Generation := do
  let snap ← Script.lift db.current
  let active ← Script.lift (snap.activeGeneration.elim (.ok none) (fun id => (db.getGeneration id).map some))
  let version ← Script.lift
    ((version.orElse (fun _ => active.map Generation.modelVersion)).elim (.error .noActiveGeneration) .ok)
  let m ← Script.lift (E.creationEmbedder active version)
  let readers ← Script.lift (E.openParts db snap)
  let read ← Script.lift ((readers.filter (fun r => !r.1.manifest.lineage.bodiesRedacted)).mapM
    (fun r => r.1.readAll r.2))
  let events := read.flatten.map Row.event
  if events.isEmpty then
    Script.lift (.error .noBodies)
  else
    let kept ← Script.lift (E.reembedAll m (fun e err => .trainingRefused e.eventId e.tenantId err) events)
    let t ← Script.lift (E.platform.train E.config snap.snapshotId (sampleRows kept))
    let rows := t.rowsSampled
    let strata := t.strata
    let name := snapshotName snap.snapshotId
    let g := E.newGeneration m t
      s!"stratified sample of {rows} rows across {strata} partitions of snapshot {name}, keyed on event_id" false
    if snap.activeGeneration = some g.generationId then
      Script.lift (.error .sameGeneration)
    else
      Script.emit (.putGeneration g)
      let _ ← commitMeta snap snap.parts snap.nextSeq snap.activeGeneration (registerCandidate snap g.generationId) now
      pure g

/-! Moving parts into a generation. -/

/-- What a migration does with an entry of the catalog. -/
inductive Placement where
  | keep
  /-- Its bodies are gone. -/
  | unmigratable
  | todo
  deriving DecidableEq

def placementOf (g : Generation) : PartEntry → Except PrismError Placement
  | .legacy _ => .ok .keep
  | .located r =>
    if r.partition.generation = g.generationId then .ok .keep
    else do
      let p ← db.openManifest r.partId
      pure (if p.manifest.lineage.bodiesRedacted then .unmigratable else .todo)

/-- The row of an event under a generation; none if the event does not embed. -/
def migratedRow (m : Model) (g : Generation) (e : Event) : Except PrismError (Option Row) :=
  match E.plane.embed m (inputOf .migration e) with
  | .ok v => (E.encodeRow g e v).map some
  | .error _ => .ok none

/-- The rows of some parts that embed under a generation. The parts are opened without a key. -/
def migratedRows (m : Model) (g : Generation) (ids : List PartId) : Except PrismError (List Row) := do
  let rows ← ids.mapM (fun id => do
    let p ← db.openManifest id
    let rows ← p.readAll none
    rows.mapM (fun r => E.migratedRow m g r.event))
  pure rows.flatten.reduceOption

def entriesNamed (snap : Snapshot) (ids : List PartId) : List PartEntry :=
  ids.filterMap (fun id => snap.parts.find? (fun e => e.partId = id))

/-- What became of a partition: the entries it now has, and the part written for it. -/
structure Migrated where
  entries : List PartEntry
  written : Option Part

def Migrated.used (o : Migrated) : Nat := if o.written.isSome then 1 else 0

/-- Move one partition. It stays where it is if none of its rows embeds. -/
def migratePartition (snap : Snapshot) (m : Model) (g : Generation) (seq : Nat)
    (group : PartitionKey × List PartRef) : Work Migrated := do
  let ids := group.2.map PartRef.partId
  let rows ← Script.lift (E.migratedRows db m g ids)
  if rows.isEmpty then
    return ⟨entriesNamed snap ids, none⟩
  let key : PartitionKey := { group.1 with generation := g.generationId }
  let p ← E.putPart seq g key { Lineage.default with reembeddedFrom := some group.1.generation } none rows
  pure ⟨[entryOf p key], some p⟩

/-- The states of the generations once parts moved into one. -/
def migratedStates (snap : Snapshot) (g : GenerationId) (state : GenerationState) :
    BTreeMap GenerationId GenerationState :=
  let gens := snap.generations.insert g state
  match snap.activeGeneration with
  | none => gens
  | some a =>
    if a = g then gens
    else match gens[a]? with
      | some s => if s = .active ∧ state = .active then gens.insert a .deprecated else gens
      | none => gens.insert a .deprecated

structure MigrateReport where
  fromGeneration : String
  toGeneration : GenerationId
  partsMigrated : Nat
  rowsMigrated : Nat
  partsRemaining : Nat
  partsUnmigratable : Nat
  rowsUnmigratable : Nat
  snapshotId : Nat
  deriving DecidableEq

/-- Re-embed parts into a generation, in the order of their partitions, up to a number of partitions. -/
def reembedParts (snap : Snapshot) (g : Generation) (maxPartitions : Option Nat) (state : GenerationState)
    (now : Int) : Work MigrateReport := do
  let m ← Script.lift (E.plane.embedder g.modelId g.modelVersion E.config.dim g.modelArtifacts)
  let placed ← Script.lift (snap.parts.mapM (fun e => (placementOf db g e).map (fun pl => (e, pl))))
  let stay := placed.filter (fun ep => ep.2 ≠ .todo)
  let gone := (placed.filter (fun ep => ep.2 = .unmigratable)).filterMap (fun ep => ep.1.located?)
  let todo := (SortedMap.group PartRef.partition
    ((placed.filter (fun ep => ep.2 = .todo)).filterMap (fun ep => ep.1.located?))).toList
  let batch := maxPartitions.elim todo todo.take
  let later := maxPartitions.elim [] todo.drop
  let moved ← Script.mapFrom Migrated.used (E.migratePartition db snap m g) snap.nextSeq batch
  let parts := moved.filterMap Migrated.written
  let entries := stay.map Prod.fst ++ moved.flatMap Migrated.entries ++
    later.flatMap (fun group => entriesNamed snap (group.2.map PartRef.partId))
  let extra := { snap.toSnapshotMeta with generations := migratedStates snap g.generationId state }
  let active := if state = .active then some g.generationId else snap.activeGeneration
  let new ← commitMeta snap entries (snap.nextSeq + parts.length) active extra now
  pure ⟨snap.activeGeneration.getD "(none)", g.generationId, parts.length, (parts.map (fun p => p.rows.length)).sum,
    todo.length - batch.length, gone.length, (gone.map PartRef.rows).sum, new.snapshotId⟩

def generationCanary (genId : GenerationId) (maxPartitions : Nat) (now : Int) : Work MigrateReport := do
  let g ← Script.lift (db.getGeneration genId)
  let snap ← Script.lift db.current
  match snap.stateOf genId with
  | some .candidate | some .canary => E.reembedParts db snap g (some maxPartitions) .canary now
  | some s => Script.lift (.error (.notCandidate genId s))
  | none => Script.lift (.error (.notRegistered genId))

def generationMigrate (genId : GenerationId) (maxPartitions : Option Nat) (now : Int) : Work MigrateReport := do
  let g ← Script.lift (db.getGeneration genId)
  let snap ← Script.lift db.current
  E.reembedParts db snap g maxPartitions .active now

/-! Making a generation active, and dropping it. -/

def promotedStates (snap : Snapshot) (g : GenerationId) : BTreeMap GenerationId GenerationState :=
  let gens := match snap.activeGeneration with
    | some a => if a = g then snap.generations else snap.generations.insert a .deprecated
    | none => snap.generations
  gens.insert g .active

/-- Commit a snapshot that differs in its active generation. -/
def activate (snap : Snapshot) (g : GenerationId) (now : Int) : Work Snapshot :=
  commitMeta snap snap.parts snap.nextSeq (some g)
    { snap.toSnapshotMeta with generations := promotedStates snap g } now

/-- Refuse to leave parts behind in a space that no bridge joins to the new one. -/
def checkPromotion (snap : Snapshot) (g : Generation) : Except PrismError Unit :=
  match snap.activeGeneration with
  | none => .ok ()
  | some a => do
    let old ← db.getGeneration a
    if old.space ≠ g.space ∧ snap.parts ≠ [] ∧ snap.bridge old.space g.space = none then
      throw (.unbridgedPromotion g.generationId)

def generationPromote (genId : GenerationId) (now : Int) : Work Nat := do
  let g ← Script.lift (db.getGeneration genId)
  let snap ← Script.lift db.current
  if snap.stateOf genId = none then
    Script.lift (.error (.notRegistered genId))
  else
    Script.lift (checkPromotion db snap g)
    let new ← activate snap genId now
    pure new.snapshotId

def installGeneration (g : Generation) (now : Int) : Work Unit := do
  Script.lift (g.verifyContentAddress E.platform)
  let snap ← Script.lift db.current
  if snap.activeGeneration = some g.generationId then
    return ()
  Script.emit (.putGeneration g)
  let _ ← activate snap g.generationId now
  pure ()

/-- No snapshot there is a file of has a part under the generation. -/
def checkRetirable (genId : GenerationId) : Except PrismError Unit :=
  db.listSnapshots.forM (fun id => do
    let s ← db.loadSnapshot id
    if genId ∈ s.generationsInUse then
      throw (.retireInUse genId id))

def generationRetire (genId : GenerationId) (now : Int) : Work Nat := do
  let snap ← Script.lift db.current
  if snap.activeGeneration = some genId then
    Script.lift (.error (.retireActive genId))
  else
    Script.lift (checkRetirable db genId)
    let new ← commitMeta snap snap.parts snap.nextSeq snap.activeGeneration
      { snap.toSnapshotMeta with generations := snap.generations.erase genId } now
    Script.emit (.removeGeneration genId)
    pure new.snapshotId

/-! The state of a migration. -/

structure GenerationStatus where
  generationId : GenerationId
  space : String
  state : Option GenerationState
  active : Bool
  parts : Nat
  rows : Nat
  provisional : Bool
  trainedFrom : String
  deriving DecidableEq

/-- What stands between a store and a finished migration. -/
inductive Incomplete where
  | otherGeneration (parts rows : Nat) (generation active : GenerationId)
  | staleBaseline (tenant : String) (generation active : GenerationId)
  | degradedBaseline (tenant reason : String)
  deriving DecidableEq

structure MigrationStatus where
  snapshotId : Nat
  generations : List GenerationStatus
  incompleteBecause : List Incomplete
  complete : Bool
  deriving DecidableEq

def refsUnder (snap : Snapshot) (g : GenerationId) : List PartRef :=
  (snap.parts.filterMap PartEntry.located?).filter (fun r => r.partition.generation = g)

def statusOf (snap : Snapshot) (id : GenerationId) : GenerationStatus :=
  let g := db.generations[id]?
  let refs := refsUnder snap id
  ⟨id, (g.map Generation.space).getD "", snap.stateOf id, snap.activeGeneration = some id, refs.length,
    (refs.map PartRef.rows).sum, (g.map Generation.provisional).getD false, (g.map Generation.trainedFrom).getD ""⟩

def baselinePending (active : GenerationId) (b : BaselineRef) : List Incomplete :=
  (if b.generationId = active then [] else [.staleBaseline b.tenant b.generationId active]) ++
    match b.state with
    | .ready => []
    | .degraded reason => [.degradedBaseline b.tenant reason]

def incompleteBecause (snap : Snapshot) : List Incomplete :=
  match snap.activeGeneration with
  | none => []
  | some active =>
    ((sortedSet snap.generationsInUse).filter (· ≠ active)).map (fun id =>
      let refs := refsUnder snap id
      .otherGeneration refs.length (refs.map PartRef.rows).sum id active) ++
    snap.baselines.flatMap (baselinePending active)

def migrationStatus : Except PrismError MigrationStatus := do
  let snap ← db.current
  let ids := sortedSet (snap.generations.keys ++ snap.generationsInUse ++ snap.activeGeneration.toList)
  let pending := incompleteBecause snap
  pure ⟨snap.snapshotId, ids.map (statusOf db snap), pending, pending.isEmpty⟩

/-! Retention and bridges. -/

/-- An entry after a redaction, and the part written for it. -/
structure Redacted where
  entry : PartEntry
  written : Option Part

def Redacted.used (o : Redacted) : Nat := if o.written.isSome then 1 else 0

/-- Rewrite a part whose rows end before a time, without its bodies. It is opened without a key. -/
def redactPart (before : Int) (reason : String) (now : Int) (seq : Nat) : PartEntry → Work Redacted
  | .legacy id => pure ⟨.legacy id, none⟩
  | .located r => do
    let p ← Script.lift (db.openManifest r.partId)
    if before ≤ r.timeMax ∨ p.manifest.lineage.bodiesRedacted then
      return ⟨.located r, none⟩
    let rows ← Script.lift (p.readAll none)
    let g ← Script.lift (db.getGeneration r.partition.generation)
    let p' ← E.putPart seq g r.partition ⟨none, true, now, reason⟩ none (rows.map Row.redacted)
    pure ⟨entryOf p' r.partition, some p'⟩

def redactBodies (before : Int) (reason : String) (now : Int) : Work Nat := do
  if isBlank reason then
    Script.lift (.error .noReason)
  else
    let snap ← Script.lift db.current
    let os ← Script.mapFrom Redacted.used (E.redactPart db before reason now) snap.nextSeq snap.parts
    let redacted := (os.filterMap Redacted.written).length
    let _ ← commitMeta snap (os.map Redacted.entry) (snap.nextSeq + redacted) snap.activeGeneration
      snap.toSnapshotMeta now
    pure redacted

def bridgeDeclare (fromSpace toSpace validation : String) (now : Int) : Work Nat := do
  if isBlank validation then
    Script.lift (.error .noValidation)
  else
    let snap ← Script.lift db.current
    let bridges := snap.bridges.filter (fun b => !b.joins fromSpace toSpace) ++ [⟨fromSpace, toSpace, validation, now⟩]
    let new ← commitMeta snap snap.parts snap.nextSeq snap.activeGeneration
      { snap.toSnapshotMeta with bridges := bridges } now
    pure new.snapshotId

end Engine

/-! What an engine can be asked to do. -/

inductive Op where
  | ingest (events : List Event)
  | ingestWal (events : List Event) (recordId : Nat)
  | delete (eventIds : List String)
  | merge (free : Option Nat)
  | mergeTiered (free : Option Nat)
  | reembed (newVersion : String)
  | rollback (target : Nat)
  | create (version : Option String)
  | canary (g : GenerationId) (maxPartitions : Nat)
  | migrate (g : GenerationId) (maxPartitions : Option Nat)
  | promote (g : GenerationId)
  | install (g : Generation)
  | retire (g : GenerationId)
  | redact (before : Int) (reason : String)
  | bridge (fromSpace toSpace validation : String)

/-- The script of an operation over the store it finds, its report left out. -/
def Op.work (E : Engine) (db : Store) (now : Int) : Op → Work Unit
  | .ingest events => do let _ ← E.ingest db events now
  | .ingestWal events recordId => do let _ ← E.ingestWal db events now recordId
  | .delete eventIds => do let _ ← Engine.delete db eventIds now
  | .merge free => do let _ ← E.merge db free now
  | .mergeTiered free => do let _ ← E.mergeTiered db free now
  | .reembed newVersion => do let _ ← E.reembed db newVersion now
  | .rollback target => do let _ ← Engine.rollback db target now
  | .create version => do let _ ← E.generationCreate db version now
  | .canary g maxPartitions => do let _ ← E.generationCanary db g maxPartitions now
  | .migrate g maxPartitions => do let _ ← E.generationMigrate db g maxPartitions now
  | .promote g => do let _ ← Engine.generationPromote db g now
  | .install g => E.installGeneration db g now
  | .retire g => do let _ ← Engine.generationRetire db g now
  | .redact before reason => do let _ ← E.redactBodies db before reason now
  | .bridge fromSpace toSpace validation => do let _ ← Engine.bridgeDeclare db fromSpace toSpace validation now

def World.step (E : Engine) (w : World) (now : Int) (op : Op) : World := (w.run (op.work E w.store now)).1

def World.runOps (E : Engine) (w : World) (steps : List (Int × Op)) : World :=
  steps.foldl (fun w s => w.step E s.1 s.2) w

end Mutiny.Prism
