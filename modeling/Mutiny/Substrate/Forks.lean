import Mutiny.Lib.Run
import Mutiny.Lib.Walk
import Mutiny.Substrate.Pager

/- Forks over one content-addressed store, and their garbage collection
   (`substrate-pager`: `pager.rs`, `cas.rs`).

   Any number of stores share the pages, the manifests and the pins; each has its
   own head. A fork, a snapshot and a rewind move manifest ids and copy nothing.
   `gc` recomputes what is live from the manifests, then deletes pages, then
   manifests. It visits them in the order the directories list them, which is a
   parameter, and can be interrupted after any number of deletions.

   The naive store beside it copies the whole database on each fork and snapshot.

   Correspondence (Rust ↔ Lean) where names differ:
     `PinRegistry::pin`, `unpin`, `pinned`      ↔ `Pins.pin`, `Pins.unpin`, membership
     `Pager::begin`, `write`, `remove`, `commit`
     `Pager::snapshot`, `fork`, `rewind`        ↔ the events of the same names
     `Drop for Txn`                             ↔ `Shared.release` -/
namespace Mutiny.Substrate
open Mutiny.Lib

abbrev Pins := BTreeMap PageId Nat

namespace Pins

def pin (pins : Pins) (id : PageId) : Pins := pins.insert id (pins[id]?.getD 0 + 1)

def unpin (pins : Pins) (id : PageId) : Pins :=
  match pins[id]? with
  | none => pins
  | some count => if count - 1 = 0 then pins.erase id else pins.insert id (count - 1)

end Pins

/-- What the forks of a store share. -/
structure Shared where
  pages : Pages
  manifests : Manifests
  pins : Pins

/-! Garbage collection. -/

/-- The base before the parent, as the stack pops them. -/
def manifestEdges (m : Manifest) : List ManifestId := m.overlayBase.toList ++ m.parent.toList

def edgesOf (H : Hashing) (s : Manifests) (id : ManifestId) : Except PagerError (List ManifestId) := do
  let m ← s.get H id
  return manifestEdges m

theorem mem_of_edgesOf {H : Hashing} {s : Manifests} {id : ManifestId} {es : List ManifestId}
    (h : edgesOf H s id = .ok es) : id ∈ s.toList.map Prod.fst := by
  obtain ⟨m, hget, _⟩ := bind_ok.1 h
  exact List.mem_map.2 ⟨(id, m), SortedMap.mem_toList.2 (Manifests.get_ok.1 hget).1, rfl⟩

/-- Every manifest reachable from the roots by history and storage edges. A
    manifest that cannot be read stops the walk. -/
def reachableManifests (H : Hashing) (s : Manifests) (roots : List ManifestId) : Except PagerError (List ManifestId) :=
  walk (edgesOf H s) mem_of_edgesOf [] roots.reverse

/-- The pages of the maps that some manifests resolve to. -/
def resolvedPages (H : Hashing) (s : Manifests) : List ManifestId → Except PagerError (List PageId)
  | [] => .ok []
  | id :: ids => do
    let pages ← resolve H s id
    let rest ← resolvedPages H s ids
    return pages.toList.map Prod.snd ++ rest

/-- Delete what is not live, in the order listed, while deletions are left. -/
def sweep {α β : Type} [LinearOrder α] (live : α → Bool) : List α → Nat → BTreeMap α β → BTreeMap α β × Nat
  | [], budget, s => (s, budget)
  | id :: ids, budget, s =>
    if live id then sweep live ids budget s
    else
      match budget with
      -- interrupted
      | 0 => (s, 0)
      | budget + 1 => sweep live ids budget (s.erase id)

namespace Shared

/-- `budget` bounds the deletions of a `gc` that is interrupted. -/
def gc (H : Hashing) (sh : Shared) (liveManifests : List ManifestId) (pageList : List PageId)
    (manifestList : List ManifestId) (budget : Nat) : Except PagerError Shared := do
  let reachable ← reachableManifests H sh.manifests liveManifests
  let livePages ← resolvedPages H sh.manifests reachable
  let (pages, left) := sweep (fun id => id ∈ livePages || id ∈ sh.pins) pageList budget sh.pages
  let (manifests, _) := sweep (fun id => id ∈ reachable) manifestList left sh.manifests
  return { sh with pages := pages, manifests := manifests }

/-- A dropped transaction gives its pins back. -/
def release (sh : Shared) (txn : Txn) : Shared := { sh with pins := txn.pinned.foldl Pins.unpin sh.pins }

end Shared

/-! Runs. -/

/-- The stores by name, each with its head; the snapshots that are kept; the open
    transactions, each with its store. `hashedPages` and `hashedManifests` are not
    the code's: they are what the run hashed. -/
structure ForkWorld where
  shared : Shared
  heads : BTreeMap Nat ManifestId
  snapshots : BTreeMap Nat ManifestId
  txns : BTreeMap Nat (Nat × Txn)
  hashedPages : List Bytes
  hashedManifests : List Manifest

/-- A manifest that is still known: a store's head or a kept snapshot. -/
inductive Target where
  | head (store : Nat)
  | snapshot (name : Nat)
  deriving DecidableEq

inductive ForkEvent where
  | begin (store txn : Nat)
  | write (txn : Nat) (pageNo : LogicalPageNo) (bytes : Bytes)
  | remove (txn : Nat) (pageNo : LogicalPageNo)
  | commit (txn : Nat) (now : U64)
  | drop (txn : Nat)
  | snapshot (store name : Nat)
  | forget (name : Nat)
  | fork (target : Target) (store : Nat)
  | rewind (store : Nat) (target : Target)
  | gc (live : List ManifestId) (pageList : List PageId) (manifestList : List ManifestId) (budget : Nat)

namespace ForkWorld

def initial (H : Hashing) (config : StoreConfig) : ForkWorld :=
  let root := Manifest.empty config.pageSize
  ⟨⟨∅, (∅ : Manifests).put H root, ∅⟩, (∅ : BTreeMap Nat ManifestId).insert 0 (H.manifest root), ∅, ∅, [], [root]⟩

variable (H : Hashing) (config : StoreConfig)

def target (w : ForkWorld) : Target → Option ManifestId
  | .head store => w.heads[store]?
  | .snapshot name => w.snapshots[name]?

/-- A transaction that ends, whatever way, gives its pins back. -/
def close (w : ForkWorld) (name : Nat) (txn : Txn) : ForkWorld :=
  { w with shared := w.shared.release txn, txns := w.txns.erase name }

def write (w : ForkWorld) (name store : Nat) (txn : Txn) (pageNo : LogicalPageNo) (bytes : Bytes) : ForkWorld :=
  match txn.write H config w.shared.pages pageNo bytes with
  | .error _ => w
  | .ok (pages, txn, id) =>
    { w with
      shared := { w.shared with pages := pages, pins := w.shared.pins.pin id }
      txns := w.txns.insert name (store, txn)
      hashedPages := w.hashedPages ++ [bytes] }

/-- `PageStore::commit`: nothing is stored for a transaction without an effect, and its base is returned. -/
def commit (w : ForkWorld) (name store : Nat) (txn : Txn) (now : U64) : Except PagerError ManifestId × ForkWorld :=
  let done := w.close name txn
  if txn.writes.isEmpty then (.ok txn.base, done)
  else
    match deriveNext H w.shared.manifests txn.base txn.writes now with
    | .error e => (.error e, done)
    | .ok none => (.ok txn.base, done)
    | .ok (some (next, id)) =>
      (.ok id, { done with
        shared := { done.shared with manifests := done.shared.manifests.put H next }
        heads := done.heads.insert store id
        hashedManifests := done.hashedManifests ++ [next] })

def step (w : ForkWorld) : ForkEvent → ForkWorld
  | .begin store name =>
    match w.heads[store]? with
    | none => w
    | some head => if name ∈ w.txns then w else { w with txns := w.txns.insert name (store, .begin head) }
  | .write name pageNo bytes =>
    match w.txns[name]? with
    | none => w
    | some (store, txn) => w.write H config name store txn pageNo bytes
  | .remove name pageNo =>
    match w.txns[name]? with
    | none => w
    | some (store, txn) => { w with txns := w.txns.insert name (store, txn.remove pageNo) }
  | .commit name now =>
    match w.txns[name]? with
    | none => w
    | some (store, txn) => (w.commit H name store txn now).2
  | .drop name =>
    match w.txns[name]? with
    | none => w
    | some (_, txn) => w.close name txn
  | .snapshot store name =>
    match w.heads[store]? with
    | none => w
    | some head => { w with snapshots := w.snapshots.insert name head }
  | .forget name => { w with snapshots := w.snapshots.erase name }
  | .fork target store =>
    match w.target target with
    | none => w
    -- `Pager::at` refuses a manifest that is not stored
    | some id => if id ∈ w.shared.manifests ∧ store ∉ w.heads then { w with heads := w.heads.insert store id } else w
  | .rewind store target =>
    match w.target target with
    | none => w
    | some id => if id ∈ w.shared.manifests ∧ store ∈ w.heads then { w with heads := w.heads.insert store id } else w
  | .gc live pageList manifestList budget =>
    match w.shared.gc H live pageList manifestList budget with
    | .error _ => w
    | .ok shared => { w with shared := shared }

def run : ForkWorld → List ForkEvent → ForkWorld := List.foldl (step H config)

/-- What a caller of `gc` has to name: the heads, the kept snapshots and the bases
    of the open transactions. -/
def roots (w : ForkWorld) : List ManifestId :=
  w.heads.toList.map Prod.snd ++ w.snapshots.toList.map Prod.snd ++ w.txns.toList.map (fun t => t.2.2.base)

/-- A transaction is committed on a head that has not moved, and `gc` is told the
    roots. -/
def Allowed (w : ForkWorld) : ForkEvent → Prop
  | .commit name _ => ∀ t ∈ w.txns[name]?, w.heads[t.1]? = some t.2.base
  | .gc live _ _ _ => ∀ id ∈ w.roots, id ∈ live
  | _ => True

abbrev AllowedRun : ForkWorld → List ForkEvent → Prop := Along (step H config) Allowed

instance (w : ForkWorld) : (e : ForkEvent) → Decidable (w.Allowed e)
  | .commit name _ => inferInstanceAs (Decidable (∀ t ∈ w.txns[name]?, w.heads[t.1]? = some t.2.base))
  | .gc live _ _ _ => List.decidableBAll (fun id => id ∈ live) w.roots
  | .begin .. | .write .. | .remove .. | .drop _ | .snapshot .. | .forget _ | .fork .. | .rewind .. => .isTrue trivial

end ForkWorld

/-! The naive store. -/

abbrev Database := BTreeMap LogicalPageNo Bytes

/-- Every store, every snapshot and every open transaction has its own copy. -/
structure NaiveWorld where
  stores : BTreeMap Nat Database
  snapshots : BTreeMap Nat Database
  txns : BTreeMap Nat (Nat × BTreeMap LogicalPageNo (Option Bytes))

namespace NaiveWorld

def initial : NaiveWorld := ⟨(∅ : BTreeMap Nat Database).insert 0 ∅, ∅, ∅⟩

def target (n : NaiveWorld) : Target → Option Database
  | .head store => n.stores[store]?
  | .snapshot name => n.snapshots[name]?

def step (pageSize : Nat) (n : NaiveWorld) : ForkEvent → NaiveWorld
  | .begin store name =>
    if store ∈ n.stores ∧ name ∉ n.txns then { n with txns := n.txns.insert name (store, ∅) } else n
  | .write name pageNo bytes =>
    match n.txns[name]? with
    | none => n
    | some (store, writes) =>
      if bytes.length ≤ pageSize then { n with txns := n.txns.insert name (store, writes.insert pageNo (some bytes)) }
      else n
  | .remove name pageNo =>
    match n.txns[name]? with
    | none => n
    | some (store, writes) => { n with txns := n.txns.insert name (store, writes.insert pageNo none) }
  | .commit name _ =>
    match n.txns[name]? with
    | none => n
    | some (store, writes) =>
      { n with
        stores := n.stores.insert store (SortedMap.patch (n.stores[store]?.getD ∅) writes)
        txns := n.txns.erase name }
  | .drop name => { n with txns := n.txns.erase name }
  | .snapshot store name =>
    match n.stores[store]? with
    | none => n
    | some db => { n with snapshots := n.snapshots.insert name db }
  | .forget name => { n with snapshots := n.snapshots.erase name }
  | .fork target store =>
    match n.target target with
    | none => n
    | some db => if store ∉ n.stores then { n with stores := n.stores.insert store db } else n
  | .rewind store target =>
    match n.target target with
    | none => n
    | some db => if store ∈ n.stores then { n with stores := n.stores.insert store db } else n
  | .gc _ _ _ _ => n

def run (pageSize : Nat) : NaiveWorld → List ForkEvent → NaiveWorld := List.foldl (step pageSize)

end NaiveWorld

end Mutiny.Substrate
