import Mutiny.Lib.Framed
import Mutiny.Lib.Run
import Mutiny.Substrate.Manifest

/- Durable refs (`loom-branch`: `refs.rs`): branch heads, tags and the commit
   graph, kept as a snapshot and a log of edits behind it.

   `load` replays the log on the snapshot and stops at the first frame that is
   not whole. `apply` appends the frames of a batch of edits and, once the log
   has outgrown the snapshot, writes what it then reads back as the new snapshot
   and empties the log.

   The files are their bytes. A crash in an append leaves a front of the new
   bytes, a crash in the truncation leaves a front of the old log, and the
   snapshot is replaced in one step. The encodings of an edit and of the refs
   are parameters that read back what they wrote (`RefCodec`), and so is the
   eight-byte checksum.

   Correspondence (Rust ↔ Lean) where names differ:
     `frame_encode`, `frames_decode`              ↔ `RefCodec.framing`, `framesDecode`
     `write_snapshot_and_reset_log`               ↔ `RefFiles.writeSnapshot`, `RefFiles.truncateLog`
     `FileRefStore::open_inner`                   ↔ `RefFiles.sizes`
     `RefStore::apply`                            ↔ `RefFiles.apply`; cut short: `RefFiles.applyCrash` -/
namespace Mutiny.Loom
open Mutiny.Lib Mutiny.Substrate

abbrev CommitId := ManifestId

def refsFormatVersion : Nat := 1

/-- Everything that must survive a restart, other than the data. -/
structure Refs where
  formatVersion : Nat
  branches : BTreeMap String CommitId
  tags : BTreeMap String CommitId
  commits : BTreeMap CommitId (List CommitId)
  deriving DecidableEq

def Refs.empty : Refs := ⟨0, ∅, ∅, ∅⟩

def Refs.rooted (branch : String) (root : CommitId) : Refs :=
  { Refs.empty with formatVersion := refsFormatVersion, branches := (∅ : BTreeMap _ _).insert branch root }

/-- Every commit a branch or a tag points at. -/
def Refs.roots (r : Refs) : List CommitId :=
  ((r.branches.toList.map Prod.snd ++ r.tags.toList.map Prod.snd).insertionSort (· ≤ ·)).dedup

inductive RefEdit where
  | setHead (branch : String) (id : CommitId)
  | createBranch (name : String) (id : CommitId)
  | removeBranch (name : String)
  | setTag (tag : String) (id : CommitId)
  | removeTag (tag : String)
  | recordCommit (commit : CommitId) (parents : List CommitId)
  | addParent (commit parent : CommitId)
  deriving DecidableEq

/-- One more parent, at the end, unless it is there. -/
def withParent (parent : CommitId) (parents : Option (List CommitId)) : List CommitId :=
  let parents := parents.getD []
  if parent ∈ parents then parents else parents ++ [parent]

def Refs.applyEdit (r : Refs) : RefEdit → Refs
  | .setHead branch id => { r with branches := r.branches.insert branch id }
  | .createBranch name id => { r with branches := r.branches.insert name id }
  | .removeBranch name => { r with branches := r.branches.erase name }
  | .setTag tag id => { r with tags := r.tags.insert tag id }
  | .removeTag tag => { r with tags := r.tags.erase tag }
  | .recordCommit commit parents => { r with commits := r.commits.insert commit parents }
  | .addParent commit parent => { r with commits := r.commits.insert commit (withParent parent r.commits[commit]?) }

def Refs.replay (r : Refs) (edits : List RefEdit) : Refs := edits.foldl Refs.applyEdit r

/-! Bytes. -/

inductive RefError where
  | codec (op what : String)
  | futureVersion (found supported : Nat)
  deriving DecidableEq

/-- bincode and BLAKE3, as far as the ref store relies on them. -/
structure RefCodec where
  encodeEdit : RefEdit → Bytes
  decodeEdit : Bytes → Option RefEdit
  decode_encodeEdit : ∀ e, decodeEdit (encodeEdit e) = some e
  encodeRefs : Refs → Bytes
  decodeRefs : Bytes → Option Refs
  decode_encodeRefs : ∀ r, decodeRefs (encodeRefs r) = some r
  checksum : Bytes → Bytes
  length_checksum : ∀ bs, (checksum bs).length = 8

/-- `frame_encode`: a length, the payload, eight bytes of its hash. -/
def RefCodec.framing (C : RefCodec) : Framing RefEdit Empty :=
  Framing.trailed Word32.le C.checksum 8 C.length_checksum C.encodeEdit C.decodeEdit

/-- Every whole frame, up to the first that is not. -/
def framesDecode (C : RefCodec) (log : Bytes) : List RefEdit :=
  match C.framing.scan (fun edits edit _ => .ok (edits ++ [edit])) [] log with
  | .ok (edits, _) => edits

def Refs.decode (C : RefCodec) (bytes : Bytes) : Except RefError Refs :=
  match C.decodeRefs bytes with
  | none => .error (.codec "decode" "refs")
  | some refs =>
    if refs.formatVersion > refsFormatVersion then .error (.futureVersion refs.formatVersion refsFormatVersion)
    else .ok refs

/-! Files. -/

/-- The store's files: `refs.snapshot`, `refs.bin` of an older build, `refs.log`. -/
structure RefFiles where
  snapshot : Option Bytes
  legacy : Option Bytes
  log : Option Bytes
  deriving DecidableEq

/-- `FileState`: the sizes that drive compaction. -/
structure FileState where
  snapshotBytes : Nat
  logBytes : Nat
  deriving DecidableEq

namespace RefFiles

variable (C : RefCodec)

/-- The snapshot, or the single file of an older build in its place. -/
def readSnapshot (f : RefFiles) : Except RefError (Option Refs) :=
  match f.snapshot, f.legacy with
  | some bytes, _ => (Refs.decode C bytes).map some
  | none, some bytes => (Refs.decode C bytes).map some
  | none, none => .ok none

/-- The log replayed on the snapshot. -/
def reconstruct (f : RefFiles) : Except RefError (Option Refs) := do
  let snapshot ← f.readSnapshot C
  let log := framesDecode C (f.log.getD [])
  match snapshot, log with
  | none, [] => return none
  | base, log => return some ((base.getD Refs.empty).replay log)

def sizes (f : RefFiles) : FileState := ⟨(f.snapshot.getD []).length, (f.log.getD []).length⟩

def appendLog (f : RefFiles) (bytes : Bytes) : RefFiles := { f with log := some (f.log.getD [] ++ bytes) }

def writeSnapshot (f : RefFiles) (refs : Refs) : RefFiles := { f with snapshot := some (C.encodeRefs refs) }

def truncateLog (f : RefFiles) (size : Nat) : RefFiles := { f with log := f.log.map (fun log => log.take size) }

def overgrown (floor : Nat) (st : FileState) : Bool := st.logBytes > max st.snapshotBytes floor

def apply (floor : Nat) (f : RefFiles) (st : FileState) (edits : List RefEdit) :
    Except RefError Unit × RefFiles × FileState :=
  if edits = [] then (.ok (), f, st)
  else
    let bytes := C.framing.frames edits
    let f := f.appendLog bytes
    let st := { st with logBytes := st.logBytes + bytes.length }
    if overgrown floor st then
      match f.reconstruct C with
      | .error e => (.error e, f, st)
      | .ok refs =>
        let refs := refs.getD Refs.empty
        (.ok (), (f.writeSnapshot C refs).truncateLog 0, ⟨(C.encodeRefs refs).length, 0⟩)
    else (.ok (), f, st)

/-- Where an `apply` is cut short: after some bytes of the append, or, if it
    compacts, with some bytes of the old log left. -/
inductive CrashPoint where
  | appending (written : Nat)
  | truncating (left : Nat)
  deriving DecidableEq

def applyCrash (floor : Nat) (f : RefFiles) (st : FileState) (edits : List RefEdit) : CrashPoint → RefFiles
  | .appending written => if edits = [] then f else f.appendLog ((C.framing.frames edits).take written)
  | .truncating left =>
    if edits = [] then f
    else
      let bytes := C.framing.frames edits
      let f := f.appendLog bytes
      if overgrown floor { st with logBytes := st.logBytes + bytes.length } then
        match f.reconstruct C with
        | .error _ => f
        | .ok refs => (f.writeSnapshot C (refs.getD Refs.empty)).truncateLog left
      else f

end RefFiles

/-! Runs. -/

/-- The files, the store while the process lives, and every batch handed to
    `apply`, newest first, with whether it returned `Ok`. -/
structure RefWorld where
  files : RefFiles
  state : Option FileState
  calls : List (Bool × List RefEdit)
  deriving DecidableEq

inductive RefEvent where
  | apply (edits : List RefEdit)
  | applyCrash (edits : List RefEdit) (point : RefFiles.CrashPoint)
  | crash
  | reopen
  deriving DecidableEq

namespace RefWorld

variable (C : RefCodec) (floor : Nat)

def step (w : RefWorld) : RefEvent → RefWorld
  | .apply edits =>
    match w.state with
    | none => w
    | some st =>
      match RefFiles.apply C floor w.files st edits with
      | (.ok (), f, st) => ⟨f, some st, (true, edits) :: w.calls⟩
      | (.error _, f, st) => ⟨f, some st, (false, edits) :: w.calls⟩
  | .applyCrash edits point =>
    match w.state with
    | none => w
    | some st => ⟨RefFiles.applyCrash C floor w.files st edits point, none, (false, edits) :: w.calls⟩
  | .crash => { w with state := none }
  | .reopen => { w with state := some w.files.sizes }

def run (w : RefWorld) (events : List RefEvent) : RefWorld := events.foldl (step C floor) w

def load (w : RefWorld) : Except RefError (Option Refs) := w.files.reconstruct C

end RefWorld

/-- The edits of every batch that returned `Ok`, in order, with those of each
    other batch all in or all out. -/
inductive Kept : List (Bool × List RefEdit) → List RefEdit → Prop
  | nil : Kept [] []
  | ok {calls : List (Bool × List RefEdit)} {kept : List RefEdit} (edits : List RefEdit) :
      Kept calls kept → Kept ((true, edits) :: calls) (kept ++ edits)
  | all {calls : List (Bool × List RefEdit)} {kept : List RefEdit} (edits : List RefEdit) :
      Kept calls kept → Kept ((false, edits) :: calls) (kept ++ edits)
  | none {calls : List (Bool × List RefEdit)} {kept : List RefEdit} (edits : List RefEdit) :
      Kept calls kept → Kept ((false, edits) :: calls) kept

/-- What a store that began with `base` holds after some edits. -/
def afterEdits (base : Option Refs) : List RefEdit → Option Refs
  | [] => base
  | edits => some ((base.getD Refs.empty).replay edits)

end Mutiny.Loom
