import Mutiny.Lib.Walk
import Mutiny.Loom.Merge
import Mutiny.Loom.Provenance

/- Sessions, branches and the write path (`loom-branch`: `session.rs`,
   `token.rs`).

   A database is its commits, each a tree of records and the commit it was built
   on, the refs in memory with the edits not yet written, the refs as written,
   and what each session has read. Operations are functions on it. One that fails
   can have changed it: the read set is gone before a write is tried.

   A commit is named by a hash over its content, its parent and an instant no
   other commit of the process has. The name is an argument here (`fresh`): a run
   supplies names that were not used before. A commit that would change no page
   is not made, and its base is returned. The refs in memory and as written are
   the maps themselves; their file is modelled with `FileRefStore`.

   What is left to parameters (`Engine`): the encodings, the sizes of nodes, the
   signature of a token and the registry of actor keys. `scan` and the searches,
   which leave the database as it is, are left out.

   Correspondence (Rust ↔ Lean) where names differ:
     `Loom::read_at`                              ↔ `LoomDb.readAt`
     `Loom::branch`, `open_session_named`         ↔ `LoomDb.branch`, `LoomDb.openSession` -/
namespace Mutiny.Loom
open Mutiny.Lib Mutiny.Substrate
open Mutiny.Bridge (SourceRef WriteEnvelope)

inductive LoomError where
  | missingEnvelope
  /-- `UnknownActor`, `EnvelopeUnsigned`, `EnvelopeSignatureInvalid`. -/
  | unauthentic (actor : ActorId) (detail : String)
  | tokenForged
  | tokenExpired (session : SessionId)
  | outOfScope (branch : BranchId) (scope : String)
  | branchExists (name : String)
  | missingManifest (id : CommitId)
  | pageTooLarge (page : PageNo)
  | tree (e : TreeError)
  | codec (op what : String)
  | derivationCycle (depth : Nat)
  | index (detail : String)
  deriving DecidableEq

/-! Tokens. -/

structure TokenClaims where
  tenant : String
  session : SessionId
  scope : List BranchId
  expiresAtMs : Nat
  deriving DecidableEq

structure CapabilityToken where
  claims : TokenClaims
  signature : Bytes
  deriving DecidableEq

structure Engine where
  codec : LoomCodec
  sizing : Sizing Key Record
  pageSize : Nat
  sign : TokenClaims → Bytes
  authenticate : WriteEnvelope → Except LoomError Unit

section Tokens

variable (E : Engine)

def issue (tenant : String) (session : SessionId) (scope : List BranchId) (expiresAtMs : Nat) : CapabilityToken :=
  let claims : TokenClaims := ⟨tenant, session, scope, expiresAtMs⟩
  ⟨claims, E.sign claims⟩

/-- A token for everything an old one covers and one more branch. -/
def extend (token : CapabilityToken) (branch : BranchId) : CapabilityToken :=
  let c := token.claims
  issue E c.tenant c.session (if branch ∈ c.scope then c.scope else c.scope.orderedInsert (· ≤ ·) branch) c.expiresAtMs

/-- The signature, the expiry, the scope, in that order. -/
def authorize (token : CapabilityToken) (branch : BranchId) (now : Nat) : Except LoomError Unit :=
  if token.signature ≠ E.sign token.claims then .error .tokenForged
  else if now ≥ token.claims.expiresAtMs then .error (.tokenExpired token.claims.session)
  else if branch ∉ token.claims.scope then .error (.outOfScope branch (", ".intercalate token.claims.scope))
  else .ok ()

end Tokens

/-! The database. -/

structure Commit where
  parent : Option CommitId
  pages : RecordPages
  deriving DecidableEq

/-- What a session has read since its last write. The two sets are lists without
    repetition; a node sorts what it takes from them. -/
structure ReadSet where
  nodes : List NodeId
  sources : List SourceRef
  minLabel : TrustClass
  deriving DecidableEq

def ReadSet.empty : ReadSet := ⟨[], [], TrustClass.leastRestrictive⟩

structure LoomDb where
  tenant : String
  commits : BTreeMap CommitId Commit
  refs : Refs
  /-- `ref_edits`: changed in memory and not written. -/
  edits : List RefEdit
  /-- The refs as written. -/
  durable : Refs
  readSets : BTreeMap SessionId ReadSet
  deriving DecidableEq

def mainBranch : BranchId := "main"

namespace LoomDb

variable (db : LoomDb)

def head (branch : BranchId) : Except LoomError CommitId :=
  match db.refs.branches[branch]? with
  | none => .error (.outOfScope branch "no such branch")
  | some id => .ok id

/-- `Pager::fork`: the commit must be there. -/
def fork (id : CommitId) : Except LoomError Commit :=
  match db.commits[id]? with
  | none => .error (.missingManifest id)
  | some c => .ok c

def pushEdit (edit : RefEdit) : LoomDb := { db with edits := db.edits ++ [edit] }

/-- The store applies the edits. A failure of it, which the caller gets and the edits do not survive, is not modelled. -/
def persist : LoomDb := { db with durable := db.durable.replay db.edits, edits := [] }

/-- Only the first parents recorded for a commit count, and none are recorded for a
    commit that was not made. -/
def recordCommit (commit : CommitId) (parents : List CommitId) : LoomDb :=
  let parents := parents.filter (fun p => p ≠ commit)
  if parents.isEmpty || commit ∈ db.refs.commits then db
  else
    { db with refs := { db.refs with commits := db.refs.commits.insert commit parents } }.pushEdit
      (.recordCommit commit parents)

def createBranch (name : String) (id : CommitId) : Except LoomError LoomDb :=
  if name ∈ db.refs.branches then .error (.branchExists name)
  else
    .ok ({ db with refs := { db.refs with branches := db.refs.branches.insert name id } }.pushEdit
      (.createBranch name id)).persist

/-- `set_head` up to its `persist`. -/
def moveHead (branch : BranchId) (id : CommitId) : Except LoomError LoomDb :=
  if branch ∈ db.refs.branches then
    .ok ({ db with refs := { db.refs with branches := db.refs.branches.insert branch id } }.pushEdit
      (.setHead branch id))
  else .error (.outOfScope branch "no such branch")

def setHead (branch : BranchId) (id : CommitId) : Except LoomError LoomDb :=
  (db.moveHead branch id).map persist

/-- The transaction's commit: the base itself if no page changes. -/
def commitPages (head : CommitId) (base : Commit) (pages : RecordPages) (fresh : CommitId) : CommitId × LoomDb :=
  if pages = base.pages then (head, db) else (fresh, { db with commits := db.commits.insert fresh ⟨some head, pages⟩ })

end LoomDb

/-! Building the tree of a commit. -/

section Build

variable (E : Engine)

def liftTree {α : Type} (x : Except TreeError α) : Except LoomError α := x.mapError LoomError.tree

def treeInsert (t : Tree Key Record) (key : Key) (record : Record) : Except LoomError (Tree Key Record) :=
  liftTree (t.insert E.sizing key record)

/-- The pages of a transaction; a node longer than a page is refused. -/
def flushTree (t : Tree Key Record) : Except LoomError RecordPages :=
  match t.dirty.toList.find? (fun e => E.sizing.nodeLen e.2 > E.pageSize) with
  | some (page, _) => .error (.pageTooLarge page)
  | none => .ok t.flush

def insertAll (t : Tree Key Record) (records : Entries) : Except LoomError (Tree Key Record) :=
  records.foldlM (fun t e => treeInsert E t e.1 e.2) t

/-- One node for each key written, the provenance layer's own excepted. -/
def derivationNodes (branch : BranchId) (commit : CommitId) (written : Entries) (envelope : WriteEnvelope)
    (captured : ReadSet) (extraParents : List (Key × List NodeId)) : List DerivationNode :=
  (written.filter (fun e => !isProvenance e.1)).map (fun e =>
    let extra := (extraParents.find? (fun p => p.1 = e.1)).elim [] Prod.snd
    let own := match e.2 with
      | .observation obs => [obs.source]
      | _ => []
    DerivationNode.new E.codec branch commit e.1 envelope.actor envelope.delegation envelope.intent
      (captured.nodes ++ extra) (captured.sources ++ envelope.derivedFrom ++ own))

/-- A branch's next node number: `n as u64`. -/
def nextSeq (t : Tree Key Record) (branch : BranchId) : Except LoomError Nat := do
  let stored ← liftTree (t.get (provSeqKey branch))
  return (stored.bind Record.counter?).elim 0 (fun n => (n.val % 2 ^ 64).toNat)

/-- A node, the pointer from its key and the entries of its sources. -/
def putNode (branch : BranchId) (state : Tree Key Record × Nat) (node : DerivationNode) :
    Except LoomError (Tree Key Record × Nat) := do
  let (t, seq) := state
  let id : Record := .value (.blob (digestBytes node.id))
  let t ← treeInsert E t (nodeStorageKey branch seq) (.value (.blob (E.codec.encodeNode node)))
  let t ← treeInsert E t (latestNodeKey node.key) id
  let t ← insertAll E t (node.sources.map (fun source => (sourceIndexKey source branch seq, id)))
  return (t, seq + 1)

def putNodes (branch : BranchId) (t : Tree Key Record) (nodes : List DerivationNode) :
    Except LoomError (Tree Key Record) := do
  let seq ← nextSeq t branch
  let (t, seq) ← nodes.foldlM (putNode E branch) (t, seq)
  treeInsert E t (provSeqKey branch) (.value (.counter (I64.wrap seq)))

structure IndexHint where
  text : String
  embedding : Option Embedding

def citationsOf : Record → List SourceRef
  | .observation obs => [obs.source]
  | .claim claim => claim.evidence
  | .value _ => []

def isStale : Record → Bool
  | .claim claim => claim.status == .stale
  | _ => false

def ownTrust : Record → TrustClass
  | .observation obs => obs.trust
  | _ => TrustClass.leastRestrictive

/-- The index entry of a record that has a hint and something to cite, and its
    vector's place in the buffer. -/
def putRecord? (captured : ReadSet) (hints : List (Key × IndexHint)) (t : Tree Key Record) (e : Key × Record) :
    Except LoomError (Tree Key Record) := do
  match hints.find? (fun h => h.1 = e.1) with
  | none => return t
  | some (_, hint) =>
    let label := captured.minLabel.mostRestrictive (ownTrust e.2)
    match IndexEntry.new e.1 hint.text hint.embedding (citationsOf e.2) (isStale e.2) label with
    | none => return t
    | some entry =>
      let t ← treeInsert E t (indexKey e.1) (.value (.blob (E.codec.encodeEntry entry)))
      match hint.embedding with
      | none => return t
      | some vector => treeInsert E t (annBufferKey e.1) (.value (.blob (E.codec.encodeVector vector)))

def claimVersions (subject predicate : String) (entries : Entries) : List (Key × ClaimVersion) :=
  entries.filterMap (fun e =>
    if (historyPrefix subject predicate).isPrefixOf e.1 then
      (e.2.blob?.bind E.codec.decodeVersion).map (fun version => (e.1, version))
    else none)

def closeVersion (now : Option Timestamp) (version : ClaimVersion) : ClaimVersion :=
  let known := match now with
    | some start => version.claim.known.closedAt start
    | none => version.claim.known
  { version with claim := { version.claim with known := known, status := .superseded } }

/-- Close the open versions of a claim and append the new one. -/
def appendClaimVersion (t : Tree Key Record) (claim : Claim) : Except LoomError (Tree Key Record) := do
  let entries ← liftTree t.scan
  let versions := claimVersions E claim.subject claim.predicate entries
  let seq := versions.foldl (fun n v => max n (v.2.seq + 1)) 0
  let openVersions := versions.filter (fun v => v.2.claim.known.stop.isNone)
  let t ← insertAll E t (openVersions.map (fun v =>
    (v.1, .value (.blob (E.codec.encodeVersion (closeVersion claim.known.start v.2))))))
  treeInsert E t (versionKey claim.subject claim.predicate seq) (.value (.blob (E.codec.encodeVersion ⟨claim, seq⟩)))

def putVersion (t : Tree Key Record) (e : Key × Record) : Except LoomError (Tree Key Record) :=
  match e.2 with
  | .claim claim => appendClaimVersion E t claim
  | _ => .ok t

/-- No nodes are made for a write of the engine's own records only. -/
def putProvenance (branch : BranchId) (head : CommitId) (written : Entries) (envelope : WriteEnvelope)
    (captured : ReadSet) (extraParents : List (Key × List NodeId)) (t : Tree Key Record) :
    Except LoomError (Tree Key Record) :=
  if written.any (fun e => !isProvenance e.1 && !isReserved e.1) then
    putNodes E branch t (derivationNodes E branch head written envelope captured extraParents)
  else .ok t

/-- The engine's records of a write: nodes, index entries, claim versions. -/
def putEngine (branch : BranchId) (head : CommitId) (written : Entries) (envelope : WriteEnvelope)
    (captured : ReadSet) (extraParents : List (Key × List NodeId)) (hints : List (Key × IndexHint))
    (t : Tree Key Record) : Except LoomError (Tree Key Record) := do
  let t ← putProvenance E branch head written envelope captured extraParents t
  let t ← written.foldlM (putRecord? E captured hints) t
  written.foldlM (putVersion E) t

end Build

namespace LoomDb

/-! Writing. -/

variable (E : Engine) (db : LoomDb)

def takeReadSet (session : SessionId) : ReadSet × LoomDb :=
  (db.readSets[session]?.getD ReadSet.empty, { db with readSets := db.readSets.erase session })

/-- The head a write is built on, its commit and the pages the write leaves. -/
def buildWrite (branch : BranchId) (records : Entries) (envelope : WriteEnvelope)
    (captured : ReadSet) (extraParents : List (Key × List NodeId)) (hints : List (Key × IndexHint)) :
    Except LoomError (CommitId × Commit × RecordPages) := do
  let head ← db.head branch
  let base ← db.fork head
  let t ← insertAll E (Tree.openAt base.pages) records
  let t ← putEngine E branch head records envelope captured extraParents hints t
  let pages ← flushTree E t
  return (head, base, pages)

/-- Commit the pages and move the head, up to the last `persist`. -/
def publish (branch : BranchId) (head : CommitId) (base : Commit) (pages : RecordPages)
    (fresh : CommitId) : CommitId × Except LoomError LoomDb :=
  let (commit, db) := db.commitPages head base pages fresh
  (commit, (db.recordCommit commit [head]).moveHead branch commit)

abbrev Outcome (α : Type) := Except LoomError α × LoomDb

def admitted (token : CapabilityToken) (branch : BranchId) (envelope : WriteEnvelope) (now : Nat) :
    Except LoomError Unit := do
  if !envelope.isValid then throw .missingEnvelope
  E.authenticate envelope
  authorize E token branch now

/-- The one write path. -/
def writeAll (token : CapabilityToken) (branch : BranchId) (records : Entries)
    (envelope : WriteEnvelope) (extraParents : List (Key × List NodeId)) (hints : List (Key × IndexHint)) (now : Nat)
    (fresh : CommitId) : Outcome CommitId :=
  match admitted E token branch envelope now with
  | .error e => (.error e, db)
  | .ok () =>
    let (captured, db) := db.takeReadSet envelope.session
    match db.buildWrite E branch records envelope captured extraParents hints with
    | .error e => (.error e, db)
    | .ok (head, base, pages) =>
      match db.publish branch head base pages fresh with
      | (_, .error e) => (.error e, db)
      | (commit, .ok db) => (.ok commit, db.persist)

/-- The merge edge, up to its `persist`. -/
def addSecondParent (commit before second : CommitId) : LoomDb :=
  let db := db.recordCommit commit [before, second]
  match db.refs.commits[commit]? with
  | none => db
  | some parents =>
    if second ∈ parents then db
    else
      { db with refs := { db.refs with commits := db.refs.commits.insert commit (parents ++ [second]) } }.pushEdit
        (.addParent commit second)

def writeMerge (token : CapabilityToken) (branch : BranchId) (records : Entries)
    (envelope : WriteEnvelope) (second : CommitId) (parents : List (Key × List NodeId)) (now : Nat) (fresh : CommitId) :
    Outcome CommitId :=
  match db.head branch with
  | .error e => (.error e, db)
  | .ok before =>
    match db.writeAll E token branch records envelope parents [] now fresh with
    | (.error e, db) => (.error e, db)
    | (.ok commit, db) => (.ok commit, (db.addSecondParent commit before second).persist)

/-! Reading. -/

def headTree (branch : BranchId) : Except LoomError (Tree Key Record) := do
  let head ← db.head branch
  let commit ← db.fork head
  return Tree.openAt commit.pages

def nodeForKey (branch : BranchId) (key : Key) : Except LoomError (Option NodeId) := do
  let t ← db.headTree branch
  let pointer ← liftTree (t.get (latestNodeKey key))
  return (pointer.bind Record.blob?).bind nodeOfBytes

def indexEntryFor (branch : BranchId) (key : Key) : Except LoomError (Option IndexEntry) := do
  let t ← db.headTree branch
  let stored ← liftTree (t.get (indexKey key))
  match stored.bind Record.blob? with
  | none => return none
  | some bytes =>
    match E.codec.decodeEntry bytes with
    | some entry => return some entry
    | none => throw (.codec "decode" "index entry")

def ReadSet.capture (set : ReadSet) (node : Option NodeId) (record : Record) (entry : Option IndexEntry) : ReadSet :=
  let set := match node with
    | some id => { set with nodes := if id ∈ set.nodes then set.nodes else id :: set.nodes }
    | none => set
  let set := match record with
    | .observation obs =>
      { set with
        sources := if obs.source ∈ set.sources then set.sources else obs.source :: set.sources
        minLabel := set.minLabel.mostRestrictive obs.trust }
    | _ => set
  match entry with
  | some entry => { set with minLabel := set.minLabel.mostRestrictive entry.label }
  | none => set

/-- The pointer is looked up before the source is added and the entry after it, so a
    failed lookup leaves what came before. -/
def captureRead (session : SessionId) (branch : BranchId) (key : Key) (record : Record) : Outcome Unit :=
  if isProvenance key then (.ok (), db)
  else
    let set := db.readSets[session]?.getD ReadSet.empty
    let keep (set : ReadSet) : LoomDb := { db with readSets := db.readSets.insert session set }
    match db.nodeForKey branch key with
    | .error e => (.error e, keep set)
    | .ok node =>
      match db.indexEntryFor E branch key with
      | .error e => (.error e, keep (ReadSet.capture set node record none))
      | .ok entry => (.ok (), keep (ReadSet.capture set node record entry))

def read (token : CapabilityToken) (branch : BranchId) (key : Key) (now : Nat) : Outcome (Option Record) :=
  let found : Except LoomError (Option Record) := do
    authorize E token branch now
    let t ← db.headTree branch
    liftTree (t.get key)
  match found with
  | .error e => (.error e, db)
  | .ok none => (.ok none, db)
  | .ok (some record) =>
    match db.captureRead E token.claims.session branch key record with
    | (.error e, db) => (.error e, db)
    | (.ok (), db) => (.ok (some record), db)

def readAt (token : CapabilityToken) (branch : BranchId) (id : CommitId) (key : Key)
    (now : Nat) : Except LoomError (Option Record) := do
  authorize E token branch now
  let commit ← db.fork id
  liftTree ((Tree.openAt commit.pages).get key)

/-! The commit graph. -/

/-- The recorded parents of a commit, or else the one it was built on. -/
def parentsOf (id : CommitId) : List CommitId :=
  match db.refs.commits[id]? with
  | some parents => parents
  | none =>
    match db.commits[id]? with
    | some commit => commit.parent.toList
    | none => []

/-- Every id a walk over the graph can meet. -/
def graphIds : List CommitId :=
  db.refs.commits.toList.flatMap Prod.snd ++ db.commits.toList.flatMap (fun e => e.2.parent.toList)

def fullAncestors (id : CommitId) : List CommitId := reach db.parentsOf (id :: db.graphIds) [id]

/-- The common ancestors no other one descends from. -/
def mergeBases (source target : CommitId) : List CommitId :=
  let targets := db.fullAncestors target
  let common := (db.fullAncestors source).filter (fun id => id ∈ targets)
  (common.filter (fun id => common.all (fun other => other = id || id ∉ db.fullAncestors other))).insertionSort (· ≤ ·)

/-! Merging. -/

inductive MergeResult where
  | merged (commit : CommitId) (records automatic : Nat)
  | conflict (report : List MergeConflict)
  | ambiguousHistory (bases : Nat)
  | policyRefused (key : Key) (reason : String)
  deriving DecidableEq

def isCallerKey (key : Key) : Bool := !isReserved key && !isProvenance key

structure MergePlan where
  sourceHead : CommitId
  writes : Entries
  records : Nat
  automatic : Nat
  parents : List (Key × List NodeId)
  deriving DecidableEq

/-- The nodes that wrote a merged key on either side. -/
def mergeParents (source target : BranchId) (key : Key) : List NodeId :=
  [source, target].filterMap (fun branch => (db.nodeForKey branch key).toOption.join)

/-- The source and the target must both be in scope. -/
def admittedMerge (token : CapabilityToken) (source target : BranchId) (envelope : WriteEnvelope)
    (now : Nat) : Except LoomError Unit := do
  if !envelope.isValid then throw .missingEnvelope
  authorize E token source now
  authorize E token target now

/-- More than one base is refused. Without shared history everything in the source is
    new. -/
def mergeBase? (source target : CommitId) : Except MergeResult CommitId :=
  match db.mergeBases source target with
  | [] => .ok source
  | [base] => .ok base
  | bases => .error (.ambiguousHistory bases.length)

def planHeads (base source target : CommitId) (policy : MergePolicy) : Except LoomError MergeOutcome := do
  let b ← db.fork base
  let s ← db.fork source
  let t ← db.fork target
  liftTree (planMerge b.pages s.pages t.pages policy)

/-- The current policy may refuse a write; else the target remembers what it merged,
    and each merged key is derived from the nodes that wrote it on either side. -/
def planOutcome (source target : BranchId) (sourceHead : CommitId) (forbids : Key → Record → Option String) :
    MergeOutcome → MergeResult ⊕ MergePlan
  | .conflict report => .inl (.conflict report)
  | .merged writes automatic =>
    let caller := writes.filter (fun e => isCallerKey e.1)
    match caller.findSome? (fun e => (forbids e.1 e.2).map (fun reason => (e.1, reason))) with
    | some (key, reason) => .inl (.policyRefused key reason)
    | none =>
      let writes := writes ++ [(mergedFromKey source, .value (.blob (digestBytes sourceHead)))]
      let parents := (writes.filter (fun e => isCallerKey e.1)).filterMap (fun e =>
        let nodes := db.mergeParents source target e.1
        if nodes.isEmpty then none else some (e.1, nodes))
      .inr ⟨sourceHead, writes, caller.length, automatic, parents⟩

def planBranches (token : CapabilityToken) (source target : BranchId) (policy : MergePolicy)
    (envelope : WriteEnvelope) (forbids : Key → Record → Option String) (now : Nat) :
    Except LoomError (MergeResult ⊕ MergePlan) := do
  admittedMerge E token source target envelope now
  let sourceHead ← db.head source
  let targetHead ← db.head target
  match db.mergeBase? sourceHead targetHead with
  | .error result => return .inl result
  | .ok base =>
    let outcome ← db.planHeads base sourceHead targetHead policy
    return db.planOutcome source target sourceHead forbids outcome

def mergeChecked (token : CapabilityToken) (source target : BranchId) (policy : MergePolicy)
    (envelope : WriteEnvelope) (forbids : Key → Record → Option String) (now : Nat) (fresh : CommitId) :
    Outcome MergeResult :=
  match db.planBranches E token source target policy envelope forbids now with
  | .error e => (.error e, db)
  | .ok (.inl result) => (.ok result, db)
  | .ok (.inr plan) =>
    match db.writeMerge E token target plan.writes envelope plan.sourceHead plan.parents now fresh with
    | (.error e, db) => (.error e, db)
    | (.ok commit, db) => (.ok (.merged commit plan.records plan.automatic), db)

/-! Branches. -/

def branch (token : CapabilityToken) (source : BranchId) (name : String) (now : Nat) : Outcome CapabilityToken :=
  let created : Except LoomError LoomDb := do
    authorize E token source now
    let head ← db.head source
    db.createBranch name head
  match created with
  | .error e => (.error e, db)
  | .ok db => (.ok (extend E token name), db)

def sessionTtlMs : Nat := 8 * 3600000

/-- `open_session_named`: a branch of `main` with the session's name. -/
def openSession (session : SessionId) (now : Nat) : Outcome CapabilityToken :=
  let created : Except LoomError LoomDb := do
    let base ← db.head mainBranch
    db.createBranch session base
  match created with
  | .error e => (.error e, db)
  | .ok db => (.ok (issue E db.tenant session [session] (now + sessionTtlMs)), db)

def rewind (token : CapabilityToken) (branch : BranchId) (id : CommitId) (now : Nat) : Outcome CommitId :=
  let moved : Except LoomError (CommitId × LoomDb) := do
    authorize E token branch now
    let previous ← db.head branch
    let db ← db.setHead branch id
    return (previous, db)
  match moved with
  | .error e => (.error e, db)
  | .ok (previous, db) => (.ok previous, db)

/-- The commit a commit was built on; its pages may be stored as changes to it. -/
def builtOn (id : CommitId) : Except LoomError (List CommitId) := do
  let commit ← db.fork id
  return commit.parent.toList

theorem mem_of_builtOn {db : LoomDb} {id : CommitId} {es : List CommitId} (h : db.builtOn id = .ok es) :
    id ∈ db.commits.toList.map Prod.fst := by
  obtain ⟨commit, hfork, -⟩ := bind_ok.1 h
  unfold fork at hfork
  cases hget : db.commits[id]? with
  | none =>
    rw [hget] at hfork
    cases hfork
  | some c => exact List.mem_map.2 ⟨(id, c), SortedMap.mem_toList.2 hget, rfl⟩

/-- Sweep every commit no branch or tag was built on. -/
def gc : Except LoomError LoomDb := do
  let live ← walk db.builtOn mem_of_builtOn [] db.refs.roots.reverse
  return { db with commits := db.commits.filter (fun id _ => id ∈ live) }

/-- The process dies and the database is opened again: what was not written is
    gone, and so is what the sessions had read. -/
def reopen : LoomDb := { db with refs := db.durable, edits := [], readSets := ∅ }

def create (tenant : String) (root : CommitId) (pages : RecordPages) : LoomDb :=
  let refs := Refs.rooted mainBranch root
  ⟨tenant, (∅ : BTreeMap _ _).insert root ⟨none, pages⟩, refs, [], refs, ∅⟩

end LoomDb

end Mutiny.Loom
