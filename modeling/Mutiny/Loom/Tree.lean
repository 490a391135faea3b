import Mutiny.Lib.Bytes
import Mutiny.Lib.Except
import Mutiny.Lib.SortedMap

/- The record store: a B+tree whose nodes are logical pages (`loom-branch`:
   `tree.rs`).

   A committed tree is a metadata page and the nodes at the other pages. A `Tree`
   is the working context of one transaction over it: nodes are read from the
   transaction's own writes first, and `flush` adds those writes to the committed
   pages. A page that was never written is an empty leaf. Keys and records are
   any types here; what a node, an entry and a page cost in bytes decides only
   when a node splits, and is a parameter (`Sizing`).

   The walks down the tree are loops in the source. Here they take a bound on the
   number of nodes they may visit, which the number of pages ever handed out is.
   The size of a node read from the store is the length of its bytes, which is
   what `sizeOf` computes when it has no estimate, so remembering it is left out.
   Page numbers do not run out.

   Correspondence (Rust ↔ Lean) where names differ:
     `Tree::open`, `flush`                       ↔ `Tree.openAt`, `Tree.flush`
     `Tree::node`, `take_node`, `set`            ↔ `Tree.node`, `Tree.take`, `Tree.set`
     `binary_search_by` over a leaf              ↔ `findEntry`, `putEntry`, `dropEntry` -/
namespace Mutiny.Loom
open Mutiny.Lib

abbrev PageNo := Nat

def metaPageNo : PageNo := 0

def treeFormatVersion : Nat := 1

structure Meta where
  formatVersion : Nat
  root : PageNo
  nextFree : PageNo
  count : Nat
  deriving DecidableEq

def Meta.empty : Meta := ⟨treeFormatVersion, 1, 2, 0⟩

/-- `keys[i]` separates `children[i]` from `children[i + 1]`. -/
inductive Node (κ ρ : Type) where
  | leaf (entries : List (κ × ρ))
  | internal (keys : List κ) (children : List PageNo)
  deriving DecidableEq

/-- Internal nodes contribute none. -/
def Node.leafKeys {κ ρ : Type} : Node κ ρ → List κ
  | .leaf entries => entries.map Prod.fst
  | .internal _ _ => []

structure Pages (κ ρ : Type) [LinearOrder κ] where
  metaPage : Option Meta
  nodes : BTreeMap PageNo (Node κ ρ)
  deriving DecidableEq

/-- The encoded length of a node, what an entry is counted for, and how long a
    node may get. -/
structure Sizing (κ ρ : Type) where
  nodeLen : Node κ ρ → Nat
  entryCost : κ → ρ → Nat
  limit : Nat

inductive TreeError where
  | recordTooLarge (page : PageNo)
  /-- A node has no child where the search goes, or the search does not end. -/
  | malformed (page : PageNo)
  deriving DecidableEq

variable {κ ρ : Type} [LinearOrder κ]

/-! Leaves and separators. -/

def findEntry (key : κ) (entries : List (κ × ρ)) : Option ρ := (entries.find? (fun e => e.1 = key)).map Prod.snd

/-- Replace the entry of a key or put one in its place in the order. -/
def putEntry (key : κ) (record : ρ) : List (κ × ρ) → List (κ × ρ)
  | [] => [(key, record)]
  | e :: entries =>
    if e.1 < key then e :: putEntry key record entries
    else if e.1 = key then (key, record) :: entries
    else (key, record) :: e :: entries

def dropEntry (key : κ) (entries : List (κ × ρ)) : List (κ × ρ) := entries.filter (fun e => e.1 ≠ key)

/-- Which child a key belongs under. -/
def childIndex (keys : List κ) (key : κ) : Nat := (keys.takeWhile (fun k => k ≤ key)).length

/-! Transactions. -/

structure Tree (κ ρ : Type) [LinearOrder κ] where
  store : Pages κ ρ
  dirty : BTreeMap PageNo (Node κ ρ)
  sizes : BTreeMap PageNo Nat
  info : Meta
  infoDirty : Bool

namespace Tree

variable (Z : Sizing κ ρ) (t : Tree κ ρ)

def openAt (store : Pages κ ρ) : Tree κ ρ := ⟨store, ∅, ∅, store.metaPage.getD Meta.empty, false⟩

/-- A node as written by this transaction, or as stored. -/
def node (page : PageNo) : Node κ ρ := (t.dirty[page]?.or t.store.nodes[page]?).getD (.leaf [])

/-- `take_node`: what is left when a node was taken out. -/
def take (page : PageNo) : Tree κ ρ := { t with dirty := t.dirty.erase page }

def set (page : PageNo) (node : Node κ ρ) : Tree κ ρ :=
  { t with sizes := t.sizes.erase page, dirty := t.dirty.insert page node }

def setSized (page : PageNo) (node : Node κ ρ) (size : Nat) : Tree κ ρ :=
  { t with sizes := t.sizes.insert page size, dirty := t.dirty.insert page node }

def sizeOf (page : PageNo) (node : Node κ ρ) : Nat :=
  t.sizes[page]?.getD (Z.nodeLen node)

/-- Whether a node has outgrown its page, and the estimate brought up to date. -/
def overflowed (node : Node κ ρ) (est : Nat) : Bool × Nat :=
  if est ≤ Z.limit then (false, est) else (Z.nodeLen node > Z.limit, Z.nodeLen node)

def alloc : PageNo × Tree κ ρ :=
  (t.info.nextFree, { t with info := { t.info with nextFree := t.info.nextFree + 1 }, infoDirty := true })

def getFrom (t : Tree κ ρ) (key : κ) : Nat → PageNo → Except TreeError (Option ρ)
  | 0, page => .error (.malformed page)
  | fuel + 1, page =>
    match t.node page with
    | .leaf entries => .ok (findEntry key entries)
    | .internal keys children =>
      match children[childIndex keys key]? with
      | none => .error (.malformed page)
      | some child => getFrom t key fuel child

def get (key : κ) : Except TreeError (Option ρ) := t.getFrom key t.info.nextFree t.info.root

def collect (t : Tree κ ρ) : Nat → PageNo → Except TreeError (List (κ × ρ))
  | 0, page => .error (.malformed page)
  | fuel + 1, page =>
    match t.node page with
    | .leaf entries => .ok entries
    | .internal _ children => (children.mapM (collect t fuel)).map List.flatten

def scan : Except TreeError (List (κ × ρ)) := t.collect t.info.nextFree t.info.root

def len : Nat := t.info.count

/-- Whether a child between two separators can have keys in a range: `below_hi`, then
    `above_lo`. -/
def visits (lo : κ) (hi lower upper : Option κ) : Bool :=
  (match lower, hi with
    | some l, some h => decide (l < h)
    | _, _ => true) &&
  upper.all (fun u => lo < u)

/-- The children to visit, `lower` being the separator before the first of them. -/
def overlapping (lo : κ) (hi : Option κ) : Option κ → List κ → List PageNo → List PageNo
  | _, _, [] => []
  | lower, keys, child :: children =>
    let upper := keys.head?
    let rest := overlapping lo hi upper keys.tail children
    if visits lo hi lower upper then child :: rest else rest

def collectRange (t : Tree κ ρ) (lo : κ) (hi : Option κ) : Nat → PageNo → Except TreeError (List (κ × ρ))
  | 0, page => .error (.malformed page)
  | fuel + 1, page =>
    match t.node page with
    | .leaf entries => .ok (entries.filter (fun e => lo ≤ e.1 && hi.all (fun h => e.1 < h)))
    | .internal keys children =>
      ((overlapping lo hi none keys children).mapM (collectRange t lo hi fuel)).map List.flatten

/-- A leaf with an entry put in: a replaced entry costs the difference, a new one
    counts. -/
def putInLeaf (page : PageNo) (key : κ) (record : ρ) (entries : List (κ × ρ)) : Nat × Tree κ ρ :=
  let est := t.sizeOf Z page (.leaf entries)
  match findEntry key entries with
  | some old => (est - Z.entryCost key old + Z.entryCost key record, t)
  | none =>
    (est + Z.entryCost key record,
      { t with info := { t.info with count := t.info.count + 1 }, infoDirty := true })

/-- The left half stays at its page, the right half gets a new one. -/
def splitLeaf (page : PageNo) (entries : List (κ × ρ)) : Except TreeError (Option (κ × PageNo) × Tree κ ρ) :=
  let mid := entries.length / 2
  match entries.drop mid with
  | [] => .error (.recordTooLarge page)
  | first :: rest =>
    let left := Node.leaf (entries.take mid)
    let right := Node.leaf (first :: rest)
    let (rightPage, t) := t.alloc
    .ok (some (first.1, rightPage),
      (t.setSized page left (Z.nodeLen left)).setSized rightPage right (Z.nodeLen right))

/-- The middle separator moves up. -/
def splitInternal (page : PageNo) (keys : List κ) (children : List PageNo) :
    Except TreeError (Option (κ × PageNo) × Tree κ ρ) :=
  let mid := keys.length / 2
  match keys[mid]? with
  | none => .error (.malformed page)
  | some separator =>
    let (rightPage, t) := t.alloc
    .ok (some (separator, rightPage),
      (t.set page (.internal (keys.take mid) (children.take (mid + 1)))).set rightPage
        (.internal (keys.drop (mid + 1)) (children.drop (mid + 1))))

/-- The separator and the page of a new right half, if the node split. -/
def insertInto (Z : Sizing κ ρ) (key : κ) (record : ρ) :
    Nat → PageNo → Tree κ ρ → Except TreeError (Option (κ × PageNo) × Tree κ ρ)
  | 0, page, _ => .error (.malformed page)
  | fuel + 1, page, t =>
    match t.node page with
    | .leaf entries =>
      let (est, t) := (t.take page).putInLeaf Z page key record entries
      let entries := putEntry key record entries
      match overflowed Z (.leaf entries) est with
      | (false, est) => .ok (none, t.setSized page (.leaf entries) est)
      | (true, _) => t.splitLeaf Z page entries
    | .internal keys children =>
      let idx := childIndex keys key
      match children[idx]? with
      | none => .error (.malformed page)
      | some child => do
        match ← insertInto Z key record fuel child (t.take page) with
        | (none, t) => return (none, { t with dirty := t.dirty.insert page (.internal keys children) })
        | (some (separator, right), t) =>
          let keys := keys.insertIdx idx separator
          let children := children.insertIdx (idx + 1) right
          match overflowed Z (.internal keys children) (Z.nodeLen (.internal keys children)) with
          | (false, est) => return (none, t.setSized page (.internal keys children) est)
          | (true, _) => t.splitInternal page keys children

def insert (key : κ) (record : ρ) : Except TreeError (Tree κ ρ) := do
  let root := t.info.root
  match ← insertInto Z key record t.info.nextFree root t with
  | (none, t) => return t
  | (some (separator, right), t) =>
    let (newRoot, t) := t.alloc
    let t := t.set newRoot (.internal [separator] [root, right])
    return { t with info := { t.info with root := newRoot }, infoDirty := true }

def removeFrom (t : Tree κ ρ) (key : κ) : Nat → PageNo → Except TreeError (Bool × Tree κ ρ)
  | 0, page => .error (.malformed page)
  | fuel + 1, page =>
    match t.node page with
    | .leaf entries =>
      match findEntry key entries with
      | none => .ok (false, t)
      | some _ =>
        let t := t.set page (.leaf (dropEntry key entries))
        .ok (true, { t with info := { t.info with count := t.info.count - 1 }, infoDirty := true })
    | .internal keys children =>
      match children[childIndex keys key]? with
      | none => .error (.malformed page)
      | some child => removeFrom t key fuel child

/-- Remove a key; an emptied leaf stays. -/
def remove (key : κ) : Except TreeError (Bool × Tree κ ρ) :=
  t.removeFrom key t.info.nextFree t.info.root

def flush : Pages κ ρ :=
  ⟨if t.infoDirty then some t.info else t.store.metaPage,
    t.dirty.toList.foldl (fun nodes c => nodes.insert c.1 c.2) t.store.nodes⟩

def keysInPages (pages : List PageNo) : List κ :=
  let keys := (pages.filter (fun page => page ≠ metaPageNo)).flatMap (fun page => (t.node page).leafKeys)
  (keys.insertionSort (· ≤ ·)).dedup

end Tree

/-! Prefixes. -/

/-- The last byte that is not 0xFF, one more, what follows it dropped; the bytes come
    last first. -/
def bumpLast : Bytes → Option Bytes
  | [] => none
  | last :: rest => if last < 0xFF then some ((last + 1) :: rest) else bumpLast rest

/-- The smallest key after every key with a prefix. -/
def prefixUpper (start : Bytes) : Option Bytes := (bumpLast start.reverse).map List.reverse

/-- Every record whose key has the prefix, in key order. -/
def Tree.scanPrefix (t : Tree Bytes ρ) (start : Bytes) : Except TreeError (List (Bytes × ρ)) :=
  t.collectRange start (prefixUpper start) t.info.nextFree t.info.root

/-! Histories. -/

/-- One operation on a tree; a commit flushes the transaction and opens the next. -/
inductive TreeOp (κ ρ : Type) where
  | insert (key : κ) (record : ρ)
  | remove (key : κ)
  | commit

def Tree.act (Z : Sizing κ ρ) (t : Tree κ ρ) : TreeOp κ ρ → Except TreeError (Tree κ ρ)
  | .insert key record => t.insert Z key record
  | .remove key => (t.remove key).map Prod.snd
  | .commit => .ok (Tree.openAt t.flush)

/-- Operations from a committed tree, and the commit at their end. -/
def Pages.after (Z : Sizing κ ρ) (pages : Pages κ ρ) (ops : List (TreeOp κ ρ)) : Except TreeError (Pages κ ρ) :=
  (ops.foldlM (Tree.act Z) (Tree.openAt pages)).map Tree.flush

def Pages.empty : Pages κ ρ := ⟨none, ∅⟩

end Mutiny.Loom
