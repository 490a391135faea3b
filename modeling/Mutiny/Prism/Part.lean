import Mutiny.Prism.Event

/- Parts and generations (`prism-part`: `partition.rs`, `part.rs`, `ext.rs`,
   `tenant.rs`, `generation.rs`, `crypto.rs`).

   A part is an immutable set of rows under one generation, with a manifest that
   says what a reader needs to know before it reads a column. `PartWriter.write`
   builds one; where it is put is the catalog's business. A sealed part's columns
   can be read with the key that sealed them and not otherwise: `Columns.sealed`
   keeps the key beside the rows.

   Correspondence (Rust ↔ Lean) where names differ:
     `S5Ext` / `S14Ext`                         ↔ `Lineage` / `Envelope`
   A part's name `p{seq:08}-{digest}` is the pair of its two parts. `Platform`
   stands for the digests, the quantiser and the training of codebooks. -/
namespace Mutiny.Prism
open Mutiny.Lib

abbrev GenerationId := String

/-- A part's name: its sequence number and the digest of its columns. Names sort as the pairs do as long as the number
    has at most the eight digits it is padded to. -/
structure PartId where
  seq : Nat
  digest : String
  deriving DecidableEq

def PartId.key (p : PartId) : ℕ ×ₗ String := toLex (p.seq, p.digest)

theorem PartId.key_injective : Function.Injective PartId.key := by
  rintro ⟨s, d⟩ ⟨s', d'⟩ h
  simpa [PartId.key] using h

instance : LinearOrder PartId := LinearOrder.lift' PartId.key PartId.key_injective

/-! Where rows live. -/

inductive Bucket where
  | dedicated (i : Nat)
  | shared (i : Nat)
  deriving DecidableEq

def Bucket.id : Bucket → Nat
  | .dedicated i => i
  | .shared i => i

def Bucket.tag : Bucket → Nat
  | .dedicated _ => 0
  | .shared _ => 1

/-- How a store maps tenants onto buckets and times onto windows. -/
structure PartitionScheme where
  buckets : Nat
  timeWindowMs : Int
  /-- Tenants with a bucket to themselves. -/
  dedicated : List (String × Nat)
  buckets_pos : 0 < buckets
  window_pos : 0 < timeWindowMs

def PartitionScheme.bucketOf (s : PartitionScheme) (H : Hashing) (tenant : String) : Bucket :=
  match s.dedicated.lookup tenant with
  | some i => .dedicated i
  | none => .shared (H.bucketHash tenant % s.buckets)

def PartitionScheme.windowOf (s : PartitionScheme) (eventTime : Int) : Int :=
  eventTime / s.timeWindowMs * s.timeWindowMs

/-- A number for a bucket, different for dedicated and shared ones. -/
def PartitionScheme.bucketOrdinal (s : PartitionScheme) : Bucket → Nat
  | .shared n => n
  | .dedicated i => s.buckets + i

structure PartitionKey where
  bucket : Bucket
  window : Int
  generation : GenerationId
  deriving DecidableEq

def PartitionKey.key (k : PartitionKey) : ℕ ×ₗ ℕ ×ₗ ℤ ×ₗ String :=
  toLex (k.bucket.tag, toLex (k.bucket.id, toLex (k.window, k.generation)))

theorem PartitionKey.key_injective : Function.Injective PartitionKey.key := by
  rintro ⟨b, w, g⟩ ⟨b', w', g'⟩ h
  cases b <;> cases b' <;> simp [PartitionKey.key, Bucket.tag, Bucket.id] at h ⊢ <;> exact h

instance : LinearOrder PartitionKey := LinearOrder.lift' PartitionKey.key PartitionKey.key_injective

/-! Generations. -/

inductive GenerationState where
  | candidate
  | canary
  | active
  | deprecated
  deriving DecidableEq

structure Codebook where
  data : List F32
  deriving DecidableEq

structure Generation where
  generationId : GenerationId
  modelId : String
  modelVersion : String
  modelArtifacts : Option String
  dim : Nat
  coarse : Codebook
  pq : Codebook
  trainedFrom : String
  /-- Of the record of its training; without one it is not. -/
  provisional : Bool
  deriving DecidableEq

def spaceOf (modelId modelVersion : String) : String := modelId ++ ":" ++ modelVersion

def Generation.space (g : Generation) : String := spaceOf g.modelId g.modelVersion

/-! Rows and manifests. -/

/-- A stored row: the event, its coarse centroid, its code and its exact vector. -/
structure Row where
  event : Event
  centroid : Nat
  code : Bytes
  vector : List F32
  deriving DecidableEq

/-- Where a part came from and what it has lost (`S5Ext`). -/
structure Lineage where
  reembeddedFrom : Option GenerationId
  bodiesRedacted : Bool
  redactedAtMs : Int
  redactionReason : String
  deriving DecidableEq

/-- An ordinary part, bodies intact. -/
def Lineage.default : Lineage := ⟨none, false, 0, ""⟩

structure Dek where
  material : Nat
  deriving DecidableEq

/-- The wrapped key a sealed part carries (`S14Ext`). -/
structure Envelope where
  algorithm : Nat
  wrappingKeyId : String
  dekEpoch : Nat
  wrappedDek : Bytes
  bucketOrdinal : Nat
  deriving DecidableEq

/-- The AEAD this build seals with. -/
def aeadXchacha20Poly1305 : Nat := 1

structure TenantStats where
  tenant : String
  rows : Nat
  timeMin : Int
  timeMax : Int
  deriving DecidableEq

def formatVersion : Nat := 4

structure Manifest where
  formatVersion : Nat
  partId : PartId
  generationId : GenerationId
  modelId : String
  modelVersion : String
  rowCount : Nat
  timeMin : Int
  timeMax : Int
  /-- Tenant handles: names, or tokens on a store that seals tenant identity. -/
  tenants : List String
  encryption : Bool
  tenantTokens : Bool
  partition : Option PartitionKey
  tenantStats : List TenantStats
  lineage : Lineage
  envelope : Option Envelope
  deriving DecidableEq

def Manifest.space (m : Manifest) : String := spaceOf m.modelId m.modelVersion

/-- The columns of a part: rows in the clear, or rows sealed under a key. -/
inductive Columns where
  | clear (rows : List Row)
  | sealed (dek : Dek) (rows : List Row)
  deriving DecidableEq

def Columns.rows : Columns → List Row
  | .clear rows => rows
  | .sealed _ rows => rows

structure Part where
  manifest : Manifest
  columns : Columns
  deriving DecidableEq

def Part.id (p : Part) : PartId := p.manifest.partId

def Part.rows (p : Part) : List Row := p.columns.rows

def Part.isLegacy (p : Part) : Bool := p.manifest.formatVersion ≠ Prism.formatVersion

/-! Refusals. -/

/-- A refusal of the model plane: by policy, or for another reason. -/
inductive PlaneError where
  | policy (detail : String)
  | other (detail : String)
  deriving DecidableEq

def PlaneError.toText : PlaneError → String
  | .policy detail => "model policy denied: " ++ detail
  | .other detail => detail

inductive PrismError where
  | plane (e : PlaneError)
  /-- A failure of the quantiser or of the key service. -/
  | external (detail : String)
  /-- `Invalid`: a part without rows. -/
  | emptyPart
  /-- `Invariant`: a row whose vector or code has the wrong length. -/
  | rowShape (eventId : String)
  /-- `Invariant`: a promoted attribute with two value types. -/
  | promotedTypes (key : String)
  /-- `Invariant`: more distinct attribute keys than a part may carry. -/
  | tooManyKeys (keys : Nat)
  /-- `Corrupt`: no manifest in the part's directory. -/
  | noManifest (id : PartId)
  /-- `Corrupt`: the encryption feature without an envelope. -/
  | noEnvelope (id : PartId)
  /-- `Corrupt`: an AEAD this build does not have. -/
  | unknownAead (id : PartId) (algorithm : Nat)
  /-- `Policy`: a sealed part and no key service. -/
  | noKeyService (id : PartId) (keyId : String)
  /-- `Policy`: sealed columns read without a key. -/
  | sealedColumns (id : PartId)
  /-- `Corrupt`: sealed columns read with another key. -/
  | sealBroken (id : PartId)
  /-- `Corrupt`: a catalog entry that fails validation. -/
  | badEntry (id : PartId)
  /-- `Corrupt`: a snapshot file that is not there. -/
  | noSnapshot (id : Nat)
  /-- `Invariant`: a commit that names a part that does not open. -/
  | partNotReadable (id : PartId)
  /-- `NotFound`: no such generation record. -/
  | noGeneration (id : GenerationId)
  /-- `Corrupt`: a generation that does not hash to its id. -/
  | badAddress (id : GenerationId)
  /-- `Invalid`: nothing to re-embed, because the store is empty or has no rows. -/
  | nothingToReembed (detail : String)
  /-- `Invariant`: a row that does not embed under the new model. -/
  | reembedFailed (eventId version : String) (e : PlaneError)
  /-- `Invalid`: a row that does not embed when a generation is trained. -/
  | trainingRefused (eventId tenantId : String) (e : PlaneError)
  /-- `Invalid`: training gave the active generation again. -/
  | sameGeneration
  /-- `Invalid`: no active generation to retrain from. -/
  | noActiveGeneration
  /-- `Invalid`: a model version that is not the default of an empty store. -/
  | notDefaultVersion (requested default_ : String)
  /-- `Invalid`: no rows with bodies to train on. -/
  | noBodies
  /-- `Invalid`: only a candidate can be canaried. -/
  | notCandidate (id : GenerationId) (state : GenerationState)
  /-- `NotFound`: the snapshot does not register the generation. -/
  | notRegistered (id : GenerationId)
  /-- `Invalid`: promoting across spaces without a bridge. -/
  | unbridgedPromotion (id : GenerationId)
  /-- `Invalid`: retiring the active generation. -/
  | retireActive (id : GenerationId)
  /-- `Invalid`: retiring a generation a snapshot has parts under. -/
  | retireInUse (id : GenerationId) (snapshot : Nat)
  /-- `Invalid`: a redaction without a reason. -/
  | noReason
  /-- `Invalid`: a bridge without a validation note. -/
  | noValidation
  /-- `Invariant`: the write ownership went to a higher epoch. -/
  | fenced (held highest : Nat)
  /-- `Invariant`: another snapshot is mirrored under this id. -/
  | splitBrain (id : Nat)
  /-- `Corrupt`: the object store does not hold what was put. -/
  | coldIncomplete (id : PartId)
  /-- `Corrupt`: a sealed admission record of another version. -/
  | walVersion (recordId version : Nat)
  /-- `Corrupt`: an admission record sealed with an AEAD this build does not have. -/
  | walAead (algorithm : Nat)
  /-- `Corrupt`: a sealed admission record that does not open. -/
  | walSealBroken (recordId : Nat)
  /-- `Corrupt`: an admission record sealed under another's id. -/
  | walIdMismatch (declared found : Nat)
  /-- `NotFound`: a wrapping key the key service does not hold. -/
  | keyUnknown (keyId : String)
  /-- `Invalid`: the active wrapping key is not retired. -/
  | keyActive (keyId : String)
  /-- `Invalid`: a wrapping key that live envelopes still need. -/
  | keyInUse (keyId : String) (envelopes : Nat)
  deriving DecidableEq

/-! What the engine is given. -/

structure StoreConfig where
  dim : Nat
  pqM : Nat
  nlist : Nat
  seed : Nat
  partitions : PartitionScheme
  /-- Attribute keys promoted to columns of their own. -/
  promote : List String

/-- Codebooks trained on a sample, and the size of the sample. -/
structure Trained where
  coarse : Codebook
  pq : Codebook
  rowsSampled : Nat
  strata : Nat

/-- Digests, the quantiser and the training of codebooks. -/
structure Platform where
  hashing : Hashing
  /-- The digest of a part's columns under a generation and a promotion list. -/
  fingerprint : List String → GenerationId → List Row → String
  /-- The id of a generation, from its content. -/
  generationAddress : String → String → Option String → Nat → Codebook → Codebook → GenerationId
  /-- The nearest coarse centroid. -/
  assign : Codebook → List F32 → Nat
  /-- The product-quantised code. -/
  encode : Codebook → List F32 → Except PrismError Bytes
  /-- The bytes of a part's columns. -/
  logicalBytes : Part → Nat
  /-- Codebooks from a stratified sample of rows: tenant, event id, vector. -/
  train : StoreConfig → Nat → List (String × String × List F32) → Except PrismError Trained

def Generation.verifyContentAddress (P : Platform) (g : Generation) : Except PrismError Unit :=
  if P.generationAddress g.modelId g.modelVersion g.modelArtifacts g.dim g.coarse g.pq = g.generationId then .ok ()
  else .error (.badAddress g.generationId)

/-- The key service of a sealed store, and its tenant tokenizer. -/
structure KeyService where
  wrap : Dek → Except PrismError (String × Bytes)
  unwrap : String → Bytes → Except PrismError Dek
  token : String → String

/-! Writing a part. -/

/-- The key a part is sealed under, and the envelope that records it. -/
structure PartEncryption where
  cipher : Dek
  envelope : Envelope
  deriving DecidableEq

/-- Where and how a part is written, beyond its rows. -/
structure PartSpec where
  partition : Option PartitionKey
  promote : List String
  lineage : Lineage
  encryption : Option PartEncryption
  tenantTokenizer : Option (String → String)

/-- The inner order of a part's rows. -/
def rowKey (r : Row) : ℕ ×ₗ ℤ ×ₗ String := toLex (r.centroid, toLex (r.event.eventTime, r.event.eventId))

def sortRows (rows : List Row) : List Row := rows.insertionSort (fun a b => rowKey a ≤ rowKey b)

/-- A tenant's handle: its name, or its token. -/
def handle (tokenizer : Option (String → String)) (tenant : String) : String :=
  match tokenizer with
  | some token => token tenant
  | none => tenant

def sortedSet (xs : List String) : List String := xs.dedup.insertionSort (· ≤ ·)

/-- The value types a promoted key is used with. -/
def promotedTags (key : String) (rows : List Row) : List UInt8 :=
  (rows.filterMap (fun r => (r.event.attributes.lookup key).map AttrValue.typeTag)).dedup

def mapKeys (promote : List String) (rows : List Row) : List String :=
  (rows.flatMap (fun r => (r.event.attributes.map Prod.fst).filter (· ∉ promote))).dedup

/-- The least and the greatest of some times, of `t` among them. -/
def timeRange (t : Int) (ts : List Int) : Int × Int := (ts.foldl min t, ts.foldl max t)

def statsOf (tokenizer : Option (String → String)) (tenant : String) (rows : List Row) : Option TenantStats :=
  match rows.filter (fun r => r.event.tenantId = tenant) with
  | [] => none
  | r :: rest =>
    let range := timeRange r.event.eventTime (rest.map (fun r => r.event.eventTime))
    some ⟨handle tokenizer tenant, rest.length + 1, range.1, range.2⟩

namespace PartWriter

def check (config : StoreConfig) (promote : List String) (rows : List Row) : Except PrismError Unit := do
  if rows.isEmpty then
    throw .emptyPart
  rows.forM (fun r =>
    if r.vector.length ≠ config.dim ∨ r.code.length ≠ config.pqM then .error (.rowShape r.event.eventId)
    else .ok ())
  promote.forM (fun key => if 1 < (promotedTags key rows).length then .error (.promotedTypes key) else .ok ())
  let keys := (mapKeys promote rows).length
  if maxAttributeKeyCardinality < keys then
    throw (.tooManyKeys keys)

/-- The part written for some rows, the first of them given apart. -/
def build (P : Platform) (seq : Nat) (g : Generation) (spec : PartSpec) (r : Row) (rows : List Row) : Part :=
  let sorted := sortRows (r :: rows)
  let range := timeRange r.event.eventTime (rows.map (fun r => r.event.eventTime))
  let names := sortedSet ((r :: rows).map (fun r => r.event.tenantId))
  { manifest :=
      { formatVersion := Prism.formatVersion
        partId := ⟨seq, P.fingerprint spec.promote g.generationId sorted⟩
        generationId := g.generationId
        modelId := g.modelId
        modelVersion := g.modelVersion
        rowCount := rows.length + 1
        timeMin := range.1
        timeMax := range.2
        tenants := sortedSet ((r :: rows).map (fun r => handle spec.tenantTokenizer r.event.tenantId))
        encryption := spec.encryption.isSome
        tenantTokens := spec.tenantTokenizer.isSome
        partition := spec.partition
        tenantStats := names.filterMap (fun t => statsOf spec.tenantTokenizer t sorted)
        lineage := spec.lineage
        envelope := spec.encryption.map PartEncryption.envelope }
    columns :=
      match spec.encryption with
      | some enc => .sealed enc.cipher sorted
      | none => .clear sorted }

def write (P : Platform) (config : StoreConfig) (seq : Nat) (g : Generation) (spec : PartSpec) (rows : List Row) :
    Except PrismError Part := do
  check config spec.promote rows
  match rows with
  | [] => throw .emptyPart
  | r :: rest => pure (build P seq g spec r rest)

end PartWriter

/-! Reading a part. -/

/-- The rows of a part, with the key that was attached to its reader. -/
def Part.readAll (p : Part) (cipher : Option Dek) : Except PrismError (List Row) :=
  if p.manifest.encryption && cipher.isNone then .error (.sealedColumns p.id)
  else match p.columns, cipher with
    | .clear rows, _ => .ok rows
    | .sealed _ _, none => .error (.sealedColumns p.id)
    | .sealed dek rows, some k => if k = dek then .ok rows else .error (.sealBroken p.id)

/-- The key that opens a part, from the envelope it carries. -/
def cipherFor (keys : Option KeyService) (p : Part) : Except PrismError (Option Dek) :=
  if !p.manifest.encryption then .ok none
  else match p.manifest.envelope with
    | none => .error (.noEnvelope p.id)
    | some env =>
      if env.algorithm ≠ aeadXchacha20Poly1305 then .error (.unknownAead p.id env.algorithm)
      else match keys with
        | none => .error (.noKeyService p.id env.wrappingKeyId)
        | some k => (k.unwrap env.wrappingKeyId env.wrappedDek).map some

end Mutiny.Prism
