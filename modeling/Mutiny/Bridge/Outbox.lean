import Mutiny.Bridge.Apply
import Mutiny.Substrate.PagerSpec

/- The durable outbox: the manifest history is the queue of captures
   (`mutiny-bridge`: `commit_with_capture`, `recover_capture`,
   `recover_pending_captures`).

   Every commit writes its draft to the reserved page, so each manifest of the
   history holds the capture of its own commit. The encoding of a draft is a
   parameter that decodes what it encoded (`CaptureCodec`).

   Correspondence (Rust ↔ Lean) where names differ:
     `recover_pending_captures`     ↔ `Store.recoverPendingCaptures`, `Store.walkBack`
     `DurableStore::commit`         ↔ `Store.commitTxn`, without its log (`Substrate.Wal`) -/
namespace Mutiny.Bridge
open Mutiny.Lib Mutiny.Schweep Mutiny.Substrate

structure CaptureCodec where
  encode : CommitDraft → Except String Bytes
  decode : Bytes → Except String CommitDraft
  decode_encode : ∀ draft bytes, encode draft = .ok bytes → decode bytes = .ok draft

structure Setup where
  hashing : Hashing
  config : StoreConfig
  authority : Authority
  codec : CaptureCodec
  catalog : Catalog

/-- The pages, the manifests and the head of a tenant's store. -/
structure Store where
  pages : Pages
  manifests : Manifests
  head : ManifestId

namespace Store

variable (S : Setup)

def read (st : Store) (id : ManifestId) (pageNo : LogicalPageNo) : Except PagerError Page :=
  Substrate.read S.hashing S.config st.pages st.manifests id pageNo

/-- The draft on the reserved page, as of a manifest. -/
def readDraft (st : Store) (commit : ManifestId) : Except BridgeError CommitDraft := do
  let page ← (st.read S commit capturePage).mapError (fun e => .captureDecode commit (.page e))
  (S.codec.decode page.bytes).mapError (fun text => .captureDecode commit (.codec text))

def materializeCapture (st : Store) (commit : ManifestId) (draft : CommitDraft)
    (physicalPages : Finset LogicalPageNo) : Except BridgeError CommitCapture := do
  let manifest ← (st.manifests.get S.hashing commit).mapError BridgeError.storage
  return { tenant := draft.tenant, plane := draft.plane, commit := commit, commitSeq := draft.commitSeq
           manifest := manifest, branch := draft.branch, envelope := draft.envelope
           physicalPages := physicalPages, tables := draft.tables }

def recoverCapture (st : Store) (commit : ManifestId) : Except BridgeError CommitCapture := do
  let draft ← st.readDraft S commit
  let explained ← explainedPages draft.tables.toList
  st.materializeCapture S commit draft (insert capturePage explained)

/-- The history from a manifest back to the first capture that is sealed, in front
    of what was collected. A collapsed root still carries its capture. -/
def walkBack (st : Store) (sealedEpoch : Nat) : Nat → ManifestId → List CommitCapture →
    Except BridgeError (List CommitCapture)
  | 0, _, _ => .error .endlessHistory
  | fuel + 1, current, pending => do
    let manifest ← (st.manifests.get S.hashing current).mapError BridgeError.storage
    match manifest.parent with
    | none =>
      match ← (lookupPage S.hashing st.manifests current capturePage).mapError BridgeError.storage with
      | none => return pending
      | some _ =>
        let root ← st.recoverCapture S current
        if sealedEpoch < root.commitSeq then throw (.consumedBeyondSealed root.commitSeq sealedEpoch)
        return pending
    | some parent =>
      let capture ← st.recoverCapture S current
      if capture.commitSeq ≤ sealedEpoch then return pending
      walkBack st sealedEpoch fuel parent (capture :: pending)

/-- Sequence numbers without a gap. -/
def checkDense : Nat → List CommitCapture → Except BridgeError Unit
  | _, [] => .ok ()
  | expected, c :: cs => do
    if c.commitSeq ≠ expected then throw (.sequenceGap expected c.commitSeq)
    checkDense (expected + 1) cs

/-- Every capture newer than the sealed epoch, oldest first. A history has no more
    manifests than the store. -/
def recoverPendingCaptures (st : Store) (head : ManifestId) (sealedEpoch : Nat) :
    Except BridgeError (List CommitCapture) := do
  let pending ← st.walkBack S sealedEpoch (st.manifests.size + 1) head []
  checkDense (sealedEpoch + 1) pending
  return pending

/-! Committing. -/

def validateParentSequence (st : Store) (parent : ManifestId) (found : Nat) : Except BridgeError Unit :=
  match st.read S parent capturePage with
  | .ok page => do
    let prior ← (S.codec.decode page.bytes).mapError (fun text => .captureDecode parent (.codec text))
    if found ≠ prior.commitSeq + 1 then throw (.sequenceGap (prior.commitSeq + 1) found)
  | .error (.pageNotFound _ _) =>
    if found = 1 then do
      let manifest ← (st.manifests.get S.hashing parent).mapError BridgeError.storage
      if manifest.pageCount ≠ 0 then throw (.uncapturedParent parent manifest.pageCount)
    else .error (.sequenceGap 1 found)
  | .error e => .error (.storage e)

/-- `PageStore::write`: the page goes to the store at once. -/
def stage (st : Store) (txn : Txn) (pageNo : LogicalPageNo) (bytes : Bytes) : Except PagerError (Store × Txn) := do
  let (pages, txn, _) ← txn.write S.hashing S.config st.pages pageNo bytes
  return ({ st with pages := pages }, txn)

/-- The commit of a transaction and the manifest it is named by. One that changes
    nothing is its base. -/
def commitTxn (st : Store) (txn : Txn) (now : U64) : Except PagerError (Store × ManifestId) := do
  match ← deriveNext S.hashing st.manifests txn.base txn.writes now with
  | none => return (st, txn.base)
  | some (next, id) => return ({ st with manifests := st.manifests.put S.hashing next, head := id }, id)

def writtenPages (txn : Txn) : Finset LogicalPageNo := (txn.writes.toList.map Prod.fst).toFinset

/-- What a draft is checked for before anything is written. -/
def validateCommit (st : Store) (txn : Txn) (draft : CommitDraft) : Except BridgeError Unit := do
  if capturePage ∈ txn.writes then throw (.capturePageReserved capturePage)
  validateDraft S.authority draft
  validateDraftAgainstCatalog S.catalog draft
  st.validateParentSequence S txn.base draft.commitSeq
  let explained ← explainedPages draft.tables.toList
  auditPages (writtenPages txn) explained

/-- Application pages and their capture in one transaction. -/
def commitWithCapture (st : Store) (txn : Txn) (draft : CommitDraft) (now : U64) :
    Except BridgeError (Store × CommitCapture) := do
  st.validateCommit S txn draft
  let bytes ← (S.codec.encode draft).mapError BridgeError.captureEncode
  let (st, txn) ← (st.stage S txn capturePage bytes).mapError BridgeError.storage
  let (st, commit) ← (st.commitTxn S txn now).mapError BridgeError.storage
  let capture ← st.materializeCapture S commit draft (writtenPages txn)
  return (st, capture)

end Store

end Mutiny.Bridge
