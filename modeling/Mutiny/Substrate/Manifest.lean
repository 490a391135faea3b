import Mutiny.Lib.Bytes
import Mutiny.Lib.Except
import Mutiny.Lib.WriteOnce

/- Pages, manifests and the stores that hold them (`substrate-pager`: `page.rs`,
   `cas.rs`, `manifest.rs`).

   A page is named by the hash of its bytes and a manifest by the hash of its
   encoding. The hashes are parameters (`Hashing`): nothing here looks inside
   them, and no collision is excluded. Both stores verify on read, so a stored
   value is served only under the name it hashes to.

   Correspondence (Rust ↔ Lean) where names differ:
     `FsCas::put`, `get`, `contains`               ↔ `Pages.put`, `Pages.get`, membership
     `Manifest::id`                                ↔ `Hashing.manifest`
     `FsManifestStore::put`, `get`, `contains`     ↔ `Manifests.put`, `Manifests.get`, membership -/
namespace Mutiny.Substrate
open Mutiny.Lib

/-- The 32 bytes of a BLAKE3 hash, read as a number. -/
abbrev Digest := Fin (2 ^ 256)

abbrev PageId := Digest

abbrev ManifestId := Digest

abbrev U64 := Fin (2 ^ 64)

abbrev LogicalPageNo := U64

/-! What maps and literals ask of these types, under one name each. -/

instance (priority := 2000) transOrdDigest : Std.TransOrd Digest := inferInstance

instance (priority := 2000) lawfulEqOrdDigest : Std.LawfulEqOrd Digest := inferInstance

instance (priority := 2000) lawfulBEqDigest : LawfulBEq Digest := inferInstance

instance (priority := 2000) lawfulBEqOptionDigest : LawfulBEq (Option Digest) := inferInstance

instance (priority := 2000) neZeroDigest : NeZero (2 ^ 256) := inferInstance

instance (priority := 2000) transOrdU64 : Std.TransOrd U64 := inferInstance

instance (priority := 2000) lawfulEqOrdU64 : Std.LawfulEqOrd U64 := inferInstance

instance (priority := 2000) neZeroU64 : NeZero (2 ^ 64) := inferInstance

abbrev PageMap := BTreeMap LogicalPageNo PageId

/-- What changed: `none` is the removal of a logical page. -/
abbrev PageChanges := BTreeMap LogicalPageNo (Option PageId)

def maxOverlayDepth : Nat := 8

def manifestFormatVersion : Nat := 2

inductive ManifestBody where
  | flat (pages : PageMap)
  | overlay (base : ManifestId) (changes : PageChanges)
  deriving DecidableEq

/-- The state of one database at one instant. -/
structure Manifest where
  formatVersion : Nat
  body : ManifestBody
  parent : Option ManifestId
  createdAtMs : U64
  schemaVersion : Nat
  pageSize : Nat
  depth : Nat
  pageCount : Nat
  deriving DecidableEq

abbrev PoolKey := Digest

/-- BLAKE3, over page bytes, over page bytes under a key, and over the encoding
    of a manifest. -/
structure Hashing where
  page : Bytes → PageId
  keyedPage : PoolKey → Bytes → PageId
  manifest : Manifest → ManifestId

inductive PageHasher where
  | unkeyed
  | keyed (key : PoolKey)
  deriving DecidableEq

def PageHasher.hash (H : Hashing) : PageHasher → Bytes → PageId
  | .unkeyed, bytes => H.page bytes
  | .keyed key, bytes => H.keyedPage key bytes

/-- The errors of the modelled operations. The source's `MissingManifest` carries
    a text; its three texts are `missingManifest` (no such file),
    `substitutedManifest` (the file hashes to another id) and `chainTooDeep`. -/
inductive PagerError where
  | pageTooLarge (actual pageSize : Nat)
  | corruptPage (expected actual : PageId) (len : Nat)
  | missingPage (id : PageId)
  | pageNotFound (pageNo : LogicalPageNo) (manifest : ManifestId)
  | missingManifest (id : ManifestId)
  | substitutedManifest (id actual : ManifestId)
  | chainTooDeep
  | invalidPageSize (size : Nat)
  deriving DecidableEq

/-! Pages. -/

structure Page where
  id : PageId
  bytes : Bytes
  deriving DecidableEq

def Page.new (H : Hashing) (hasher : PageHasher) (bytes : Bytes) (pageSize : Nat) : Except PagerError Page :=
  if bytes.length > pageSize then .error (.pageTooLarge bytes.length pageSize)
  else .ok ⟨hasher.hash H bytes, bytes⟩

def Page.verify (H : Hashing) (hasher : PageHasher) (id : PageId) (bytes : Bytes) : Except PagerError Page :=
  let actual := hasher.hash H bytes
  if actual = id then .ok ⟨id, bytes⟩ else .error (.corruptPage id actual bytes.length)

/-- `MIN_PAGE_SIZE`, `MAX_PAGE_SIZE` and the powers of two between them. -/
def validatePageSize (size : Nat) : Except PagerError Unit :=
  if 4 * 1024 ≤ size ∧ size ≤ 16 * 1024 * 1024 ∧ size = 2 ^ size.log2 then .ok ()
  else .error (.invalidPageSize size)

abbrev Pages := BTreeMap PageId Bytes

namespace Pages

/-- Write-once: a page that is there already is left alone. -/
def put (s : Pages) (page : Page) : Pages := if page.id ∈ s then s else s.insert page.id page.bytes

def get (H : Hashing) (hasher : PageHasher) (s : Pages) (id : PageId) : Except PagerError Page :=
  match s[id]? with
  | none => .error (.missingPage id)
  | some bytes => Page.verify H hasher id bytes

end Pages

/-! Manifests. -/

namespace Manifest

def empty (pageSize : Nat) : Manifest :=
  { formatVersion := manifestFormatVersion
    body := .flat ∅
    parent := none
    createdAtMs := 0
    schemaVersion := 0
    pageSize := pageSize
    depth := 0
    pageCount := 0 }

def overlayBase (m : Manifest) : Option ManifestId :=
  match m.body with
  | .flat _ => none
  | .overlay base _ => some base

/-- What this manifest alone says of a page: nothing, its content, or that it is
    removed. -/
def localLookup (m : Manifest) (pageNo : LogicalPageNo) : Option (Option PageId) :=
  match m.body with
  | .flat pages => some pages[pageNo]?
  | .overlay _ changes => changes[pageNo]?

def overlayOn (baseId : ManifestId) (base : Manifest) (changes : PageChanges) (pageCount : Nat)
    (createdAtMs : U64) : Manifest :=
  { formatVersion := manifestFormatVersion
    body := .overlay baseId changes
    parent := some baseId
    createdAtMs := createdAtMs
    schemaVersion := base.schemaVersion
    pageSize := base.pageSize
    depth := base.depth + 1
    pageCount := pageCount }

def flattenOnto (baseId : ManifestId) (base : Manifest) (resolvedBase : PageMap) (changes : PageChanges)
    (createdAtMs : U64) : Manifest :=
  let pages := SortedMap.patch resolvedBase changes
  { formatVersion := manifestFormatVersion
    body := .flat pages
    parent := some baseId
    createdAtMs := createdAtMs
    schemaVersion := base.schemaVersion
    pageSize := base.pageSize
    depth := 0
    pageCount := pages.size }

def mustFlatten (m : Manifest) : Bool := maxOverlayDepth ≤ m.depth

end Manifest

abbrev Manifests := BTreeMap ManifestId Manifest

namespace Manifests

/-- Content-addressed: already there means already correct. -/
def put (H : Hashing) (s : Manifests) (m : Manifest) : Manifests :=
  if H.manifest m ∈ s then s else s.insert (H.manifest m) m

/-- Verified on read, as pages are. -/
def get (H : Hashing) (s : Manifests) (id : ManifestId) : Except PagerError Manifest :=
  match s[id]? with
  | none => .error (.missingManifest id)
  | some m => if H.manifest m = id then .ok m else .error (.substitutedManifest id (H.manifest m))

variable {H : Hashing} {s s' : Manifests} {m : Manifest} {id : ManifestId}

theorem get_ok : s.get H id = .ok m ↔ s[id]? = some m ∧ H.manifest m = id := by
  unfold get
  cases s[id]? with
  | none => simp
  | some m' =>
    by_cases h : H.manifest m' = id
    · simp only [h, if_true, Except.ok.injEq, Option.some.injEq]
      constructor
      · rintro rfl
        exact ⟨rfl, h⟩
      · exact And.left
    · simp only [h, if_false, reduceCtorEq, Option.some.injEq, false_iff]
      rintro ⟨rfl, h'⟩
      exact h h'

theorem get_put_of_get (h : s.get H id = .ok m) (m' : Manifest) : (s.put H m').get H id = .ok m :=
  get_ok.2 ⟨WriteOnce.get_put_of_get (get_ok.1 h).1 m', (get_ok.1 h).2⟩

theorem get_put_self (h : ∀ m', s[H.manifest m]? = some m' → m' = m) : (s.put H m).get H (H.manifest m) = .ok m :=
  get_ok.2 ⟨WriteOnce.get_put_self h, rfl⟩

end Manifests

end Mutiny.Substrate
