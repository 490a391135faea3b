import Mutiny.Substrate.Manifest

/- The pager's reading and deriving of manifests (`substrate-pager`: `pager.rs`).

   A manifest is read through its overlay chain: `lookupPage` walks it for one
   page, `resolve` for the whole map. `deriveNext` computes the manifest a
   transaction would produce and stores nothing. The cache of decoded manifests
   is left out: it only ever holds what `get` returned, and what `gc` removes is
   removed from it in the same step.

   The abstract side is `Resolves`: a manifest stands for a page map when its
   chain of overlays, at most `maxOverlayDepth` long, ends in a flat manifest and
   every one of them is stored under its own hash. Over such a manifest the two
   walks compute the map, and `deriveNext` patches it.

   Correspondence (Rust ↔ Lean) where names differ:
     `Pager::lookup_page`                 ↔ `lookupPage`, `lookupFrom`
     `Pager::resolve_manifest`, `resolve` ↔ `resolveFrom`, `resolve`
     `Pager::derive_next`                 ↔ `deriveNext`, `tally` -/
namespace Mutiny.Substrate
open Mutiny.Lib

/-- `StoreConfig`, without the pool's name, which no modelled operation reads. -/
structure StoreConfig where
  pageSize : Nat
  hasher : PageHasher
  deriving DecidableEq

structure Txn where
  writes : PageChanges
  base : ManifestId
  pinned : List PageId
  deriving DecidableEq

section Walks

variable (H : Hashing) (s : Manifests)

/-- One page through the chain, with the number of hops still allowed. -/
def lookupFrom (pageNo : LogicalPageNo) (hops : Nat) (current : Manifest) : Except PagerError (Option PageId) :=
  match current.localLookup pageNo with
  -- content or a tombstone: either way the base is not asked
  | some answer => .ok answer
  | none =>
    match current.overlayBase with
    | none => .ok none
    | some base =>
      match hops with
      | 0 => .error .chainTooDeep
      | hops + 1 => do
        let below ← s.get H base
        lookupFrom pageNo hops below

def lookupPage (id : ManifestId) (pageNo : LogicalPageNo) : Except PagerError (Option PageId) := do
  let current ← s.get H id
  lookupFrom H s pageNo (maxOverlayDepth + 1) current

/-- The whole map, overlays applied from the flat manifest up. -/
def resolveFrom (hops : Nat) (current : Manifest) : Except PagerError PageMap :=
  match current.body with
  | .flat pages => .ok pages
  | .overlay base changes => do
    let below ← s.get H base
    match hops with
    | 0 => .error .chainTooDeep
    | hops + 1 =>
      let pages ← resolveFrom hops below
      return SortedMap.patch pages changes

def resolve (id : ManifestId) : Except PagerError PageMap := do
  let manifest ← s.get H id
  resolveFrom H s (maxOverlayDepth + 1) manifest

/-- What one write does to the flag "changes anything" and to the page count. -/
def tally (acc : Bool × Int) (existing content : Option PageId) : Bool × Int :=
  match existing, content with
  | some old, some new => if old = new then acc else (true, acc.2)
  | none, none => acc
  | none, some _ => (true, acc.2 + 1)
  | some _, none => (true, acc.2 - 1)

def tallyWrites (base : ManifestId) : List (LogicalPageNo × Option PageId) → Bool × Int → Except PagerError (Bool × Int)
  | [], acc => .ok acc
  | (pageNo, content) :: rest, acc => do
    let existing ← lookupPage H s base pageNo
    tallyWrites base rest (tally acc existing content)

/-- The manifest a transaction would produce and its id; `none` if it changes
    nothing. -/
def deriveNext (base : ManifestId) (writes : PageChanges) (createdAtMs : U64) :
    Except PagerError (Option (Manifest × ManifestId)) := do
  let baseManifest ← s.get H base
  let (changesAnything, pageCount) ← tallyWrites H s base writes.toList (false, baseManifest.pageCount)
  if changesAnything = false then return none
  let next ←
    if baseManifest.mustFlatten then do
      let resolved ← resolveFrom H s (maxOverlayDepth + 1) baseManifest
      pure (Manifest.flattenOnto base baseManifest resolved writes createdAtMs)
    else
      pure (Manifest.overlayOn base baseManifest writes pageCount.toNat createdAtMs)
  return some (next, H.manifest next)

end Walks

def read (H : Hashing) (config : StoreConfig) (pages : Pages) (s : Manifests) (id : ManifestId)
    (pageNo : LogicalPageNo) : Except PagerError Page := do
  match ← lookupPage H s id pageNo with
  | some pageId => pages.get H config.hasher pageId
  | none => .error (.pageNotFound pageNo id)

namespace Txn

def begin (head : ManifestId) : Txn := ⟨∅, head, []⟩

/-- Stage a write: the page goes to the store at once and nothing names it yet. -/
def write (H : Hashing) (config : StoreConfig) (pages : Pages) (txn : Txn) (pageNo : LogicalPageNo)
    (bytes : Bytes) : Except PagerError (Pages × Txn × PageId) := do
  let page ← Page.new H config.hasher bytes config.pageSize
  return (pages.put page,
    { txn with writes := txn.writes.insert pageNo (some page.id), pinned := txn.pinned ++ [page.id] }, page.id)

def remove (txn : Txn) (pageNo : LogicalPageNo) : Txn :=
  { txn with writes := txn.writes.insert pageNo none }

end Txn

/-! Resolved manifests. -/

/-- `m` stands for `pages`: it is flat and holds them, or it changes a map that a
    stored manifest stands for. The last index is the depth of the chain. -/
inductive Stands (H : Hashing) (s : Manifests) : Manifest → PageMap → Nat → Prop
  | flat {m : Manifest} {pages : PageMap} (hbody : m.body = .flat pages) (hdepth : m.depth = 0)
      (hcount : m.pageCount = pages.size) : Stands H s m pages 0
  | overlay {m below : Manifest} {base : ManifestId} {changes : PageChanges} {pages : PageMap} {d : Nat}
      (hbody : m.body = .overlay base changes) (hbase : s.get H base = .ok below)
      (hbelow : Stands H s below pages d) (hroom : d < maxOverlayDepth) (hdepth : m.depth = d + 1)
      (hcount : m.pageCount = (SortedMap.patch pages changes).size) :
      Stands H s m (SortedMap.patch pages changes) (d + 1)

/-- The stored manifest `id` stands for `pages`. -/
def Resolves (H : Hashing) (s : Manifests) (id : ManifestId) (pages : PageMap) : Prop :=
  ∃ m d, s.get H id = .ok m ∧ Stands H s m pages d

section

variable {H : Hashing} {s s' : Manifests} {m : Manifest} {pages : PageMap} {d : Nat} {id : ManifestId}

section

variable (h : Stands H s m pages d)
include h

theorem Stands.depth_eq : m.depth = d := by
  cases h <;> assumption

theorem Stands.depth_le : d ≤ maxOverlayDepth := by
  cases h with
  | flat => exact Nat.zero_le _
  | overlay _ _ _ hroom => exact hroom

theorem Stands.count_eq : m.pageCount = pages.size := by
  cases h <;> assumption

/-- What a manifest stands for only depends on the stored manifests below it. -/
theorem Stands.mono (hs : ∀ id m, s.get H id = .ok m → s'.get H id = .ok m) : Stands H s' m pages d := by
  induction h with
  | flat hbody hdepth hcount => exact .flat hbody hdepth hcount
  | overlay hbody hbase _ hroom hdepth hcount ih => exact .overlay hbody (hs _ _ hbase) ih hroom hdepth hcount

end

theorem Resolves.mono (h : Resolves H s id pages) (hs : ∀ id m, s.get H id = .ok m → s'.get H id = .ok m) :
    Resolves H s' id pages := by
  obtain ⟨m, d, hget, hm⟩ := h
  exact ⟨m, d, hs _ _ hget, hm.mono hs⟩

theorem Resolves.mem (h : Resolves H s id pages) : id ∈ s := by
  obtain ⟨m, d, hget, _⟩ := h
  exact SortedMap.mem_iff.2 ⟨m, (Manifests.get_ok.1 hget).1⟩

theorem lookupFrom_of_stands (h : Stands H s m pages d) {hops : Nat} (hd : d ≤ hops) (pageNo : LogicalPageNo) :
    lookupFrom H s pageNo hops m = .ok pages[pageNo]? := by
  induction h generalizing hops with
  | flat hbody =>
    unfold lookupFrom
    simp [Manifest.localLookup, hbody]
  | @overlay m below base changes pages d hbody hbase _ _ _ _ ih =>
    obtain ⟨n, rfl⟩ : ∃ n, hops = n + 1 := ⟨hops - 1, by omega⟩
    unfold lookupFrom
    rw [SortedMap.getElem?_patch]
    simp only [Manifest.localLookup, Manifest.overlayBase, hbody]
    cases changes[pageNo]? with
    | some answer => rfl
    | none =>
      simp only [hbase, ok_bind]
      exact ih (by omega)

theorem lookupPage_of_resolves (h : Resolves H s id pages) (pageNo : LogicalPageNo) :
    lookupPage H s id pageNo = .ok pages[pageNo]? := by
  obtain ⟨m, d, hget, hm⟩ := h
  rw [lookupPage, hget, ok_bind]
  exact lookupFrom_of_stands hm (by have := hm.depth_le; omega) pageNo

theorem resolveFrom_of_stands (h : Stands H s m pages d) {hops : Nat} (hd : d ≤ hops) :
    resolveFrom H s hops m = .ok pages := by
  induction h generalizing hops with
  | flat hbody =>
    unfold resolveFrom
    rw [hbody]
  | overlay hbody hbase _ _ _ _ ih =>
    obtain ⟨n, rfl⟩ : ∃ n, hops = n + 1 := ⟨hops - 1, by omega⟩
    unfold resolveFrom
    simp only [hbody, hbase, ok_bind, ih (show _ ≤ n by omega)]
    rfl

theorem resolve_of_resolves (h : Resolves H s id pages) : resolve H s id = .ok pages := by
  obtain ⟨m, d, hget, hm⟩ := h
  rw [resolve, hget, ok_bind]
  exact resolveFrom_of_stands hm (by have := hm.depth_le; omega)

end

end Mutiny.Substrate
