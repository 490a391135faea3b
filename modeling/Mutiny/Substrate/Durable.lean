import Mutiny.Lib.Run
import Mutiny.Substrate.Wal

/- Runs of a durable store (`substrate-wal`: `lib.rs`).

   A run is a list of events over a disk and, while the process is up, what it
   holds in memory: the head, the log, and any number of open transactions, each
   with a handle. A crash inside an append leaves any number of the appended
   bytes; `atomic_write` (manifests, pages, the marker) is all or nothing, so a
   crash falls before or after it.

   Beside the code's own state a run carries what the caller knows. `kept` are
   the transactions that happened, in commit order: those whose `commit` returned
   `Ok`, and an interrupted one exactly when all its records were written.
   `hashed` are the manifests the run hashed.

   Correspondence (Rust ↔ Lean) where names differ:
     `DurableStore::open`, `recover`      ↔ `Event.reopen`
     `begin`, `write`, `remove`, `commit` ↔ the events of the same names -/
namespace Mutiny.Substrate
open Mutiny.Lib

/-- A transaction that happened, and the manifest it made, if it changed anything. -/
structure Kept where
  writes : PageChanges
  manifest : Option ManifestId
  deriving DecidableEq

/-- What an open, recovered store holds in memory. `leftover` is not the code's:
    it is the writes that recovery discarded and that are still in the log. -/
structure Process where
  head : ManifestId
  wal : Wal
  txns : BTreeMap Nat Txn
  leftover : PageChanges

structure World where
  disk : Disk
  process : Option Process
  kept : List Kept
  hashed : List Manifest

inductive Event where
  | reopen
  | begin (handle : Nat)
  | write (handle : Nat) (pageNo : LogicalPageNo) (bytes : Bytes)
  | remove (handle : Nat) (pageNo : LogicalPageNo)
  | commit (handle : Nat) (now : U64)
  /-- Killed inside `commit`, `written` bytes into its append; once all bytes are
      written the manifest may be installed or not. -/
  | commitCrash (handle : Nat) (now : U64) (written : Nat) (installed : Bool)
  | checkpoint
  /-- Killed inside `checkpoint`: `written` bytes into its append; after all of them
      before or after the marker; after the marker with `removed` segments deleted. -/
  | checkpointCrash (written : Nat) (marker : Bool) (removed : Nat)
  | crash
  deriving DecidableEq

def pagesAfter (kept : List Kept) : PageMap := kept.foldl (fun pages k => SortedMap.patch pages k.writes) ∅

/-- The manifest made by the last transaction that changed anything. -/
def headAfter (root : ManifestId) (kept : List Kept) : ManifestId :=
  kept.foldl (fun head k => k.manifest.getD head) root

/-- `commit` takes its transaction by value: it is gone whatever the outcome. -/
def Process.close (p : Process) (handle : Nat) : Process := { p with txns := p.txns.erase handle }

namespace World

def initial (config : StoreConfig) : World := ⟨.blank, none, [], [.empty config.pageSize]⟩

variable (H : Hashing) (config : StoreConfig)

/-- Open and recover. What a failed recovery leaves on the disk is not followed. -/
def reopen [WalCodec] (w : World) : World :=
  match openStore H config w.disk with
  | .error _ => { w with process := none }
  | .ok (disk, wal) =>
    match recover H config disk wal with
    | .error _ => { w with disk := disk, process := none }
    | .ok st => { w with disk := st.disk, process := some ⟨st.head, st.wal, ∅, st.leftover⟩ }

def commit [WalCodec] (w : World) (p : Process) (handle : Nat) (txn : Txn) (now : U64) : World :=
  match deriveNext H w.disk.manifests txn.base txn.writes now with
  | .error _ => { w with process := some (p.close handle) }
  | .ok none => { w with process := some (p.close handle), kept := w.kept ++ [⟨txn.writes, none⟩] }
  | .ok (some (next, id)) =>
    match p.wal.commit w.disk txn.writes id now with
    | none => { w with process := none, hashed := w.hashed ++ [next] }
    | some (disk, wal) =>
      { disk := { disk with manifests := disk.manifests.put H next }
        process := some { (p.close handle) with head := id, wal := wal, leftover := ∅ }
        kept := w.kept ++ [⟨txn.writes, some id⟩]
        hashed := w.hashed ++ [next] }

def commitCrash [WalCodec] (w : World) (p : Process) (txn : Txn) (now : U64) (written : Nat) (installed : Bool) : World :=
  match deriveNext H w.disk.manifests txn.base txn.writes now with
  | .ok (some (next, id)) =>
    let kinds := commitKinds txn.writes id now
    let buf := p.wal.buffer kinds
    if p.wal.Room kinds then
      let disk := w.disk.appendTo p.wal.current (buf.take written)
      if buf.length ≤ written then
        { disk := if installed then { disk with manifests := disk.manifests.put H next } else disk
          process := none
          kept := w.kept ++ [⟨txn.writes, some id⟩]
          hashed := w.hashed ++ [next] }
      else { w with disk := disk, process := none, hashed := w.hashed ++ [next] }
    else { w with process := none, hashed := w.hashed ++ [next] }
  | _ => { w with process := none }

def checkpoint [WalCodec] (w : World) (p : Process) : World :=
  match p.wal.checkpoint w.disk p.head with
  | none => { w with process := none }
  | some (disk, wal) => { w with disk := disk, process := some { p with wal := wal, leftover := ∅ } }

def checkpointCrash [WalCodec] (w : World) (p : Process) (written : Nat) (marker : Bool) (removed : Nat) : World :=
  let kinds := [RecordKind.checkpoint p.head]
  let buf := p.wal.buffer kinds
  if p.wal.Room kinds then
    let disk := w.disk.appendTo p.wal.current (buf.take written)
    if buf.length ≤ written ∧ marker then
      let disk := Wal.writeMarker disk p.wal.nextLsn p.head
      { w with disk := Wal.truncateSegments disk (p.wal.append w.disk kinds).2.current removed, process := none }
    else { w with disk := disk, process := none }
  else { w with process := none }

/-- Staging a page. A page that is too large is refused and nothing happens. -/
def write (w : World) (p : Process) (handle : Nat) (txn : Txn) (pageNo : LogicalPageNo) (bytes : Bytes) : World :=
  match txn.write H config w.disk.pages pageNo bytes with
  | .error _ => w
  | .ok (pages, txn, _) =>
    { w with
      disk := { w.disk with pages := pages }
      process := some { p with txns := p.txns.insert handle txn } }

def act [WalCodec] (w : World) (p : Process) : Event → World
  | .reopen => w.reopen H config
  | .begin handle => { w with process := some { p with txns := p.txns.insert handle (.begin p.head) } }
  | .write handle pageNo bytes =>
    match p.txns[handle]? with
    | none => w
    | some txn => w.write H config p handle txn pageNo bytes
  | .remove handle pageNo =>
    match p.txns[handle]? with
    | none => w
    | some txn => { w with process := some { p with txns := p.txns.insert handle (txn.remove pageNo) } }
  | .commit handle now =>
    match p.txns[handle]? with
    | none => w
    | some txn => w.commit H p handle txn now
  | .commitCrash handle now written installed =>
    match p.txns[handle]? with
    | none => { w with process := none }
    | some txn => w.commitCrash H p txn now written installed
  | .checkpoint => w.checkpoint p
  | .checkpointCrash written marker removed => w.checkpointCrash p written marker removed
  | .crash => { w with process := none }

/-- A process that is down can only be opened again. -/
def step [WalCodec] (w : World) (e : Event) : World :=
  match w.process with
  | some p => w.act H config p e
  | none => if e = .reopen then w.reopen H config else w

def run [WalCodec] : World → List Event → World := List.foldl (step H config)

end World

/-! Conditions on runs. -/

section Conditions

variable (H : Hashing) (config : StoreConfig)

/-- What an event would commit: the process and the transaction. -/
def World.committing (w : World) (e : Event) : Option (Process × Txn × U64) :=
  match w.process, e with
  | some p, .commit handle now => (p.txns[handle]?).map (fun txn => (p, txn, now))
  | some p, .commitCrash handle now _ _ => (p.txns[handle]?).map (fun txn => (p, txn, now))
  | _, _ => none

/-- All records of a commit reach the log. A transaction that changes nothing has none. -/
def World.Logs [WalCodec] (w : World) (e : Event) (c : Process × Txn × U64) : Prop :=
  match deriveNext H w.disk.manifests c.2.1.base c.2.1.writes c.2.2, e with
  | .ok (some (_, id)), .commitCrash _ _ written _ =>
    (c.1.wal.buffer (commitKinds c.2.1.writes id c.2.2)).length ≤ written
  | .ok (some _), _ => True
  | _, _ => False

/-- Every page that the last recovery discarded a write of, and that no commit or
    checkpoint has cleared from the log since, is written by the transaction, if its
    records are all logged. -/
def CoversLeftover [WalCodec] (w : World) (e : Event) : Prop :=
  ∀ c ∈ w.committing e, w.Logs H e c → ∀ l ∈ c.1.leftover.toList, l.1 ∈ c.2.1.writes

/-- The transaction was begun on what is still the head, or changes nothing of
    either. -/
def OnHead (w : World) (e : Event) : Prop :=
  ∀ c ∈ w.committing e, c.2.1.base = c.1.head ∨
    deriveNext H w.disk.manifests c.2.1.base c.2.1.writes c.2.2 = .ok none ∧
      deriveNext H w.disk.manifests c.1.head c.2.1.writes c.2.2 = .ok none

/-- A transaction is begun only when none is open. -/
def OneAtATime (w : World) (e : Event) : Prop :=
  match w.process, e with
  | some p, .begin _ => p.txns.isEmpty = true
  | _, _ => True

/-- The events of a process that is not killed and does not checkpoint. -/
def Event.Plain : Event → Prop
  | .begin _ => True
  | .write _ _ _ => True
  | .remove _ _ => True
  | .commit _ _ => True
  | _ => False

instance [WalCodec] (w : World) (e : Event) (c : Process × Txn × U64) : Decidable (w.Logs H e c) := by
  unfold World.Logs
  split <;> infer_instance

instance [WalCodec] (w : World) (e : Event) : Decidable (CoversLeftover H w e) :=
  -- the discarded writes are searched as a list: their type is finite, and huge
  have (p : Process) (t : Txn) : Decidable (∀ l ∈ p.leftover.toList, l.1 ∈ t.writes) :=
    List.decidableBAll (fun l => l.1 ∈ t.writes) p.leftover.toList
  inferInstanceAs (Decidable (∀ c ∈ w.committing e, _))

instance (w : World) (e : Event) : Decidable (OnHead H w e) := by
  unfold OnHead
  infer_instance

instance (w : World) (e : Event) : Decidable (OneAtATime w e) := by
  unfold OneAtATime
  split <;> infer_instance

instance (e : Event) : Decidable e.Plain := by
  cases e <;> unfold Event.Plain <;> infer_instance

end Conditions

/-- What the last transaction that touched a page left there. -/
def lastWritten (kept : List Kept) (pageNo : LogicalPageNo) : Option PageId :=
  match kept.reverse.find? (fun k => pageNo ∈ k.writes) with
  | some k => k.writes[pageNo]?.join
  | none => none

end Mutiny.Substrate
