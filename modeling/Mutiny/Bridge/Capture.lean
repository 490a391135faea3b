import Mutiny.Lib.Hex
import Mutiny.Schweep.Log
import Mutiny.Substrate.Pager

/- The handoff from the storage writer to the compute plane (`mutiny-bridge`,
   `loom-core`: `envelope.rs`).

   A commit carries its logical changes and a Loom envelope. `prepare` turns it
   into one batch per table, in table order, and one batch of the derivation
   relation with an edge per change and source. The trust plane's checks and the
   hash of an envelope's signed bytes are a parameter (`Authority`).

   The loops over tables stop at the first refusal; what they had built by then is
   dropped, so the checks and the building are separate here. -/
namespace Mutiny.Bridge
open Mutiny.Lib Mutiny.Schweep Mutiny.Substrate

/-! Texts. -/

def isWhiteSpace (c : Char) : Bool :=
  let n := c.toNat
  (9 ≤ n && n ≤ 13) || n == 0x20 || n == 0x85 || n == 0xA0 || n == 0x1680 || (0x2000 ≤ n && n ≤ 0x200A) ||
    n == 0x2028 || n == 0x2029 || n == 0x202F || n == 0x205F || n == 0x3000

/-- `s.trim().is_empty()`. -/
def isBlank (s : String) : Bool := s.toList.all isWhiteSpace

def isAsciiControl (c : Char) : Bool := c.toNat < 0x20 || c.toNat == 0x7F

def digestHex (id : Digest) : String := hex (beBytes 32 id.val)

theorem digestHex_append_inj {a b : Digest} {s t : String} (h : digestHex a ++ s = digestHex b ++ t) : a = b ∧ s = t := by
  obtain ⟨hbytes, hst⟩ := hex_append_inj (by simp) h
  refine ⟨?_, hst⟩
  have hval := congrArg beNat hbytes
  rw [beNat_beBytes, beNat_beBytes, Nat.mod_eq_of_lt (by have := a.isLt; omega),
    Nat.mod_eq_of_lt (by have := b.isLt; omega)] at hval
  exact Fin.ext hval

/-! Envelopes. -/

structure SourceRef where
  system : String
  recordId : String
  deriving DecidableEq

/-- The derived order: the system, then the record. -/
def SourceRef.Before (a b : SourceRef) : Prop := a.system < b.system ∨ a.system = b.system ∧ a.recordId ≤ b.recordId

instance : DecidableRel SourceRef.Before := fun a b =>
  inferInstanceAs (Decidable (a.system < b.system ∨ a.system = b.system ∧ a.recordId ≤ b.recordId))

structure WriteEnvelope where
  actor : String
  session : String
  branch : String
  contextHash : Digest
  delegation : List String
  derivedFrom : List SourceRef
  intent : String
  policy : Option String
  signature : Bytes
  deriving DecidableEq

def WriteEnvelope.isValid (e : WriteEnvelope) : Bool :=
  e.actor ≠ "" && e.session ≠ "" && e.branch ≠ "" && !isBlank e.intent

/-- The trust plane: the hash of an envelope's signed bytes, and its admission. -/
structure Authority where
  envelopeId : WriteEnvelope → Digest
  admits : Digest → WriteEnvelope → Except String Unit

/-! Captures. -/

def derivationTable : String := "mutiny_derivation"

/-- `CAPTURE_PAGE`: the page reserved for the outbox. -/
def capturePage : LogicalPageNo := Fin.last _

/-- One logical row change. An update is a change of the old row with weight `-1`
    and one of the new row with weight `1`. -/
structure CapturedChange where
  row : Row
  weight : I64
  primaryKey : Bytes
  pages : Finset LogicalPageNo
  deriving DecidableEq

abbrev CapturedTables := BTreeMap String (List CapturedChange)

structure CommitDraft where
  tenant : String
  plane : String
  commitSeq : Nat
  branch : String
  envelope : WriteEnvelope
  tables : CapturedTables
  deriving DecidableEq

structure CommitCapture where
  tenant : String
  plane : String
  commit : ManifestId
  commitSeq : Nat
  manifest : Manifest
  branch : String
  envelope : WriteEnvelope
  physicalPages : Finset LogicalPageNo
  tables : CapturedTables
  deriving DecidableEq

deriving instance DecidableEq for LogError

inductive CaptureReason where
  | page (cause : PagerError)
  | codec (text : String)
  deriving DecidableEq

inductive BridgeError where
  | invalidIdentifier (field : String)
  | invalidEnvelope
  | branchMismatch (envelope commit : String)
  | envelopeRefused (id reason : String)
  | manifestIdMismatch
  | zeroSequence
  | emptyCommit (commit : String)
  | emptyTable (table : String)
  | zeroWeight (table : String)
  | auditMismatch (unexplained phantom : List LogicalPageNo)
  | sequenceGap (expected found : Nat)
  | replayMismatch (epoch : Nat)
  | replayCompacted (epoch : Nat)
  | foreignPendingBatch (commit : String)
  | capturePageReserved (page : LogicalPageNo)
  | captureEncode (reason : String)
  | catalogMismatch (table : String)
  | captureDecode (commit : ManifestId) (reason : CaptureReason)
  | consumedBeyondSealed (floor sealed : Nat)
  | storage (cause : PagerError)
  | uncapturedParent (commit : ManifestId) (pageCount : Nat)
  | log (cause : LogError)
  /-- Not an error of the source: a walk along a cycle of manifests would not return. -/
  | endlessHistory
  deriving DecidableEq

/-! Validation. -/

def validateIdentifier (field value : String) : Except BridgeError Unit :=
  if isBlank value || value.toList.contains '/' || value.toList.any isAsciiControl then
    .error (.invalidIdentifier field)
  else .ok ()

def validateTable (table : String) (changes : List CapturedChange) : Except BridgeError Unit := do
  validateIdentifier "table" table
  if table = derivationTable then throw (.invalidIdentifier "table")
  if changes = [] then throw (.emptyTable table)
  if changes.any (fun c => c.weight.val = 0) then throw (.zeroWeight table)

def validateTables : List (String × List CapturedChange) → Except BridgeError Unit
  | [] => .ok ()
  | (table, changes) :: rest => do
    validateTable table changes
    validateTables rest

def validateHeader (tenant plane branch : String) (commitSeq : Nat) (envelope : WriteEnvelope) :
    Except BridgeError Unit := do
  validateIdentifier "tenant" tenant
  validateIdentifier "plane" plane
  validateIdentifier "branch" branch
  if commitSeq = 0 then throw .zeroSequence
  if envelope.isValid = false then throw .invalidEnvelope
  if envelope.branch ≠ branch then throw (.branchMismatch envelope.branch branch)

def Authority.check (A : Authority) (envelope : WriteEnvelope) : Except BridgeError Unit :=
  (A.admits (A.envelopeId envelope) envelope).mapError (BridgeError.envelopeRefused (digestHex (A.envelopeId envelope)))

def validateDraft (A : Authority) (draft : CommitDraft) : Except BridgeError Unit := do
  validateHeader draft.tenant draft.plane draft.branch draft.commitSeq draft.envelope
  if draft.tables.isEmpty then throw (.emptyCommit "not-yet-assigned")
  validateTables draft.tables.toList
  A.check draft.envelope

def derivationFields : List Field :=
  ["tenant", "branch", "table_name", "row_key", "source_system", "source_record", "envelope"].map
    (fun name => ⟨name, .utf8, false⟩)

def derivationSchema : Schema := ⟨derivationFields, by decide, by decide⟩

def validateRows (catalog : Catalog) : List (String × Entries) → Except BridgeError Unit
  | [] => .ok ()
  | (table, entries) :: rest => do
    match catalog[table]? with
    | none => throw (.log (.unknownTable table))
    | some schema => (Oracle.checkRows schema entries).mapError (fun e => BridgeError.log (.zset e))
    validateRows catalog rest

def changeEntries (changes : List CapturedChange) : Entries := changes.map (fun c => (c.row, c.weight))

def validateDraftAgainstCatalog (catalog : Catalog) (draft : CommitDraft) : Except BridgeError Unit := do
  match catalog[derivationTable]? with
  | none => throw (.log (.unknownTable derivationTable))
  | some declared => if declared ≠ derivationSchema then throw (.catalogMismatch derivationTable)
  validateRows catalog (draft.tables.toList.map (fun t => (t.1, changeEntries t.2)))

def explainedPages : List (String × List CapturedChange) → Except BridgeError (Finset LogicalPageNo)
  | [] => .ok ∅
  | (table, changes) :: rest => do
    if changes = [] then throw (.emptyTable table)
    let pages ← explainedPages rest
    return changes.foldr (fun c acc => c.pages ∪ acc) pages

def auditPages (physical explained : Finset LogicalPageNo) : Except BridgeError Unit :=
  if physical \ explained = ∅ ∧ explained \ physical = ∅ then .ok ()
  else .error (.auditMismatch ((physical \ explained).sort (· ≤ ·)) ((explained \ physical).sort (· ≤ ·)))

/-! Preparation. -/

/-- The order of weighted rows: the row, then the weight. -/
def EntryLe (a b : Row × I64) : Prop := a.1 < b.1 ∨ a.1 = b.1 ∧ a.2.val ≤ b.2.val

instance : DecidableRel EntryLe := fun a b =>
  inferInstanceAs (Decidable (a.1 < b.1 ∨ a.1 = b.1 ∧ a.2.val ≤ b.2.val))

def sortedEntries (entries : Entries) : Entries := entries.insertionSort EntryLe

/-- The envelope's sources, sorted and without repetition. -/
def WriteEnvelope.sources (e : WriteEnvelope) : List SourceRef := (e.derivedFrom.insertionSort SourceRef.Before).dedup

/-- A row of the derivation relation: a key of a table on a branch was written under
    an envelope that cites a source. -/
def derivationRow (tenant branch table : String) (primaryKey : Bytes) (source : SourceRef) (envelope : Digest) : Row :=
  [.str tenant, .str branch, .str table, .str (hex primaryKey), .str source.system, .str source.recordId,
    .str (digestHex envelope)]

/-- `format!("{commit_hex}/{table}")`. -/
def batchToken (commit : ManifestId) (table : String) : String := digestHex commit ++ ("/" ++ table)

def tableBatch (c : CommitCapture) (table : String) (changes : List CapturedChange) : LogBatch :=
  { sourceId := c.tenant ++ "/" ++ c.plane ++ "/" ++ table
    dedupToken := batchToken c.commit table
    table := table
    entries := sortedEntries (changeEntries changes) }

/-- The edges of one table: one per change and source, with the change's weight. -/
def tableEdges (A : Authority) (c : CommitCapture) (table : String) (changes : List CapturedChange) : Entries :=
  changes.flatMap (fun change => c.envelope.sources.map (fun source =>
    (derivationRow c.tenant c.branch table change.primaryKey source (A.envelopeId c.envelope), change.weight)))

def derivationBatch (A : Authority) (c : CommitCapture) : LogBatch :=
  { sourceId := c.tenant ++ "/trust/" ++ derivationTable
    dedupToken := batchToken c.commit derivationTable
    table := derivationTable
    entries := sortedEntries (c.tables.toList.flatMap (fun t => tableEdges A c t.1 t.2)) }

def batchMap (A : Authority) (c : CommitCapture) : BTreeMap String LogBatch :=
  (c.tables.toList.foldl (fun m t => m.insert t.1 (tableBatch c t.1 t.2)) (∅ : BTreeMap String LogBatch)).insert
    derivationTable (derivationBatch A c)

structure Prepared where
  envelope : Digest
  batches : List LogBatch
  deriving DecidableEq

def prepare (H : Hashing) (A : Authority) (c : CommitCapture) : Except BridgeError Prepared := do
  validateHeader c.tenant c.plane c.branch c.commitSeq c.envelope
  if H.manifest c.manifest ≠ c.commit then throw .manifestIdMismatch
  if c.tables.isEmpty then throw (.emptyCommit (digestHex c.commit))
  A.check c.envelope
  validateTables c.tables.toList
  let explained ← explainedPages c.tables.toList
  auditPages (c.physicalPages.erase capturePage) explained
  return ⟨A.envelopeId c.envelope, (batchMap A c).toList.map Prod.snd⟩

end Mutiny.Bridge
