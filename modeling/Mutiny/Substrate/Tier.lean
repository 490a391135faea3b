import Mutiny.Substrate.Forks

/- Tiering: a local root in front of object storage, sleep and wake
   (`substrate-store`: `lib.rs`, `tier.rs`, `manifests.rs`, `remote.rs`).

   Object storage keeps every successful put. What the tier knows of its pages
   (which are durable remotely, which wait for their upload) lives in memory only
   and is gone when the process restarts, while the pages stay in the local root.
   A wake configuration is rebuilt from the token, which does not hold the hasher.

   The pager reads through the tier: a local file, or else the remote object. The
   local copy that a read leaves behind is an event of its own (`fault`,
   `faultManifest`), as is each single upload (`upload`, `uploadManifest`): a
   `flush` or an upload of manifests that fails half way is a run of those. The
   set of manifests known durable and the learned warm set only save requests and
   are left out; all objects are in one pool.

   Correspondence (Rust ↔ Lean) where names differ:
     `TierState`, `touch`                          ↔ `Tier`, `Tier.touch`
     `TieredCas::put`, `fault_under_gate`          ↔ `TieredWorld.putPage`, `fault`
     `RemoteTier::put`                             ↔ `Pages.put`, `Manifests.put`
     `TieredStore::open`, `sleep`, `wake`          ↔ `openTier`, `sleep`, `wake` -/
namespace Mutiny.Substrate
open Mutiny.Lib

inductive StoreError where
  | pager (cause : PagerError)
  /-- `PageLost`: the object of this manifest is not there. -/
  | manifestLost (id : ManifestId)
  /-- `PageLost`: so many pages are not yet durable in object storage. -/
  | notDurable (pending : Nat)
  deriving DecidableEq

/-- What the tier knows about the pages it has seen. -/
structure Tier where
  durable : Finset PageId
  pending : Finset PageId
  touched : BTreeMap PageId Nat
  localBytes : Nat
  sizes : BTreeMap PageId Nat
  clock : Nat

namespace Tier

def fresh : Tier := ⟨∅, ∅, ∅, 0, ∅, 0⟩

def touch (t : Tier) (id : PageId) (size : Nat) : Tier :=
  { t with
    clock := t.clock + 1
    touched := t.touched.insert id (t.clock + 1)
    sizes := t.sizes.insert id size
    localBytes := if id ∈ t.sizes then t.localBytes else t.localBytes + size }

/-- The page's upload is confirmed. -/
def confirm (t : Tier) (id : PageId) : Tier :=
  { t with durable := insert id t.durable, pending := t.pending.erase id }

/-- The coldest page that is durable and not waiting. -/
def victim (t : Tier) : Option PageId :=
  ((t.durable.filter (· ∉ t.pending)).sort (· ≤ ·)).argmin (fun id => t.touched[id]?.getD 0)

def forget (t : Tier) (id : PageId) : Tier :=
  { t with
    durable := t.durable.erase id
    touched := t.touched.erase id
    sizes := t.sizes.erase id
    localBytes := t.localBytes - t.sizes[id]?.getD 0 }

end Tier

structure WakeToken where
  manifest : ManifestId
  pageSize : Nat
  deriving DecidableEq

/-- Object storage, the local root and one open store. `tokens` are what `sleep`
    returned, and `hashedPages`, `hashedManifests` what the run hashed. -/
structure TieredWorld where
  remotePages : Pages
  remoteManifests : Manifests
  localPages : Pages
  localManifests : Manifests
  config : StoreConfig
  head : ManifestId
  tier : Tier
  txns : BTreeMap Nat Txn
  tokens : List WakeToken
  hashedPages : List Bytes
  hashedManifests : List Manifest

namespace TieredWorld

variable (H : Hashing) (w : TieredWorld)

/-! Reading through the tier. -/

/-- `TieredManifestStore::get`: the local file or else the remote object. -/
def manifests : Manifests :=
  w.localManifests.toList.foldl (fun s e => s.insert e.1 e.2) w.remoteManifests

/-- `TieredCas::get`: the local file or else the remote object. -/
def pages : Pages := w.localPages.toList.foldl (fun s e => s.insert e.1 e.2) w.remotePages

def readHead (pageNo : LogicalPageNo) : Except PagerError Page :=
  read H w.config w.pages w.manifests w.head pageNo

/-- The copy of a remote page that a read leaves in the local root. -/
def fault (id : PageId) : Except PagerError TieredWorld :=
  match w.localPages[id]? with
  | some bytes => do
    let page ← Page.verify H w.config.hasher id bytes
    return { w with tier := w.tier.touch id page.bytes.length }
  | none =>
    match w.remotePages[id]? with
    | none => .error (.missingPage id)
    | some bytes => do
      let page ← Page.verify H w.config.hasher id bytes
      return { w with
        localPages := w.localPages.put page
        tier := (w.tier.confirm id).touch id page.bytes.length }

/-- The copy of a remote manifest that a read leaves in the local root. -/
def faultManifest (id : ManifestId) : Except PagerError TieredWorld := do
  let manifest ← w.manifests.get H id
  return { w with localManifests := w.localManifests.put H manifest }

/-! Writing. -/

def putPage (page : Page) : TieredWorld :=
  let tier := if page.id ∈ w.tier.durable then w.tier else { w.tier with pending := insert page.id w.tier.pending }
  { w with localPages := w.localPages.put page, tier := tier.touch page.id page.bytes.length }

def write (name : Nat) (txn : Txn) (pageNo : LogicalPageNo) (bytes : Bytes) : TieredWorld :=
  match Page.new H w.config.hasher bytes w.config.pageSize with
  | .error _ => w
  | .ok page =>
    let txn := { txn with writes := txn.writes.insert pageNo (some page.id), pinned := txn.pinned ++ [page.id] }
    { (w.putPage page) with txns := w.txns.insert name txn, hashedPages := w.hashedPages ++ [bytes] }

def commit (name : Nat) (txn : Txn) (now : U64) : TieredWorld :=
  let done := { w with txns := w.txns.erase name }
  if txn.writes.isEmpty then done
  else
    match deriveNext H w.manifests txn.base txn.writes now with
    | .ok (some (next, id)) =>
      { done with
        localManifests := w.localManifests.put H next
        head := id
        hashedManifests := w.hashedManifests ++ [next] }
    | _ => done

/-! Uploading, evicting, sleeping. -/

/-- One page's upload: its bytes come from the local root. -/
def upload (id : PageId) : Except StoreError TieredWorld := do
  let page ← (w.localPages.get H w.config.hasher id).mapError StoreError.pager
  return { w with remotePages := w.remotePages.put ⟨id, page.bytes⟩, tier := w.tier.confirm id }

def uploadAll (w : TieredWorld) : List PageId → Except StoreError TieredWorld
  | [] => .ok w
  | id :: ids => do
    let w ← w.upload H id
    uploadAll w ids

/-- Upload every page that waits. -/
def flush : Except StoreError TieredWorld := w.uploadAll H (w.tier.pending.sort (· ≤ ·))

def uploadManifest (id : ManifestId) : Except StoreError TieredWorld := do
  let manifest ← (w.localManifests.get H id).mapError StoreError.pager
  return { w with remoteManifests := w.remoteManifests.put H manifest }

def uploadManifests (w : TieredWorld) : List ManifestId → Except StoreError TieredWorld
  | [] => .ok w
  | id :: ids => do
    let w ← w.uploadManifest H id
    uploadManifests w ids

/-- A manifest and its ancestry by both edges, all from the local root. The order of
    the visits only decides which missing manifest an error names. -/
def uploadClosure (head : ManifestId) : Except StoreError TieredWorld := do
  let closure ← (walk (edgesOf H w.localManifests) mem_of_edgesOf [] [head]).mapError StoreError.pager
  w.uploadManifests H closure

/-- Evict until the budget is met, at most once per durable page. Removing a file
    that is not there is no error. -/
def evictLoop (maxBytes : Nat) : Nat → TieredWorld → TieredWorld
  | 0, w => w
  | n + 1, w =>
    if w.tier.localBytes ≤ maxBytes then w
    else
      match w.tier.victim with
      | none => w
      | some id => evictLoop maxBytes n { w with localPages := w.localPages.erase id, tier := w.tier.forget id }

def evictTo (maxBytes : Nat) : TieredWorld := evictLoop maxBytes w.tier.durable.card w

/-- Drop every local page. It refuses while one waits for its upload. -/
def dropLocal : Except StoreError TieredWorld :=
  if w.tier.pending = ∅ then
    .ok { w with
      localPages := ∅
      tier := { w.tier with durable := ∅, touched := ∅, sizes := ∅, localBytes := 0 } }
  else .error (.notDurable w.tier.pending.card)

def sleep : Except StoreError (TieredWorld × WakeToken) := do
  let head := w.head
  let w ← w.flush H
  let w ← w.uploadClosure H head
  let w ← w.dropLocal
  let token : WakeToken := ⟨head, w.config.pageSize⟩
  return ({ w with tokens := w.tokens ++ [token] }, token)

/-- Open a store on a local root: nothing is known of the pages, and the head is
    the empty root. -/
def openTier (config : StoreConfig) : Except StoreError TieredWorld := do
  (validatePageSize config.pageSize).mapError StoreError.pager
  let root := Manifest.empty config.pageSize
  return { w with
    localManifests := w.localManifests.put H root
    config := config
    head := H.manifest root
    tier := .fresh
    txns := ∅
    hashedManifests := w.hashedManifests ++ [root] }

def setHeadTo (head : ManifestId) : Except StoreError TieredWorld :=
  if head ∈ w.manifests then .ok { w with head := head } else .error (.pager (.missingManifest head))

/-- Restore a sleeping database on an empty local root. The configuration is the
    default one with the token's page size. -/
def wake (token : WakeToken) : Except StoreError TieredWorld := do
  let w ← { w with localPages := ∅, localManifests := ∅ }.openTier H ⟨token.pageSize, .unkeyed⟩
  match w.remoteManifests[token.manifest]? with
  | none => .error (.manifestLost token.manifest)
  | some manifest => setHeadTo { w with localManifests := w.localManifests.put H manifest } token.manifest

/-- The process restarts on the same local root and its head is set anew. -/
def restart (head : ManifestId) : Except StoreError TieredWorld := do
  let w ← w.openTier H w.config
  w.setHeadTo head

end TieredWorld

/-! Runs. -/

inductive TierEvent where
  | begin (txn : Nat)
  | write (txn : Nat) (pageNo : LogicalPageNo) (bytes : Bytes)
  | remove (txn : Nat) (pageNo : LogicalPageNo)
  | commit (txn : Nat) (now : U64)
  | fault (id : PageId)
  | faultManifest (id : ManifestId)
  | upload (id : PageId)
  | uploadManifest (id : ManifestId)
  | flush
  | evictTo (maxBytes : Nat)
  | restart (head : ManifestId)
  | sleep
  /-- Wake, on an empty root, what the numbered `sleep` returned. -/
  | wake (sleep : Nat)

namespace TieredWorld

variable (H : Hashing)

/-- The result, or nothing when the operation failed. -/
def orElse {ε : Type} (w : TieredWorld) (r : Except ε TieredWorld) : TieredWorld :=
  match r with
  | .ok w' => w'
  | .error _ => w

def step (w : TieredWorld) : TierEvent → TieredWorld
  | .begin name => { w with txns := w.txns.insert name (.begin w.head) }
  | .write name pageNo bytes =>
    match w.txns[name]? with
    | none => w
    | some txn => w.write H name txn pageNo bytes
  | .remove name pageNo =>
    match w.txns[name]? with
    | none => w
    | some txn => { w with txns := w.txns.insert name (txn.remove pageNo) }
  | .commit name now =>
    match w.txns[name]? with
    | none => w
    | some txn => w.commit H name txn now
  | .fault id => w.orElse (w.fault H id)
  | .faultManifest id => w.orElse (w.faultManifest H id)
  | .upload id => if id ∈ w.tier.pending then w.orElse (w.upload H id) else w
  -- manifests follow the pages: their upload starts when no page waits
  | .uploadManifest id => if w.tier.pending = ∅ then w.orElse (w.uploadManifest H id) else w
  | .flush => w.orElse (w.flush H)
  | .evictTo maxBytes => w.evictTo maxBytes
  | .restart head => w.orElse (w.restart H head)
  | .sleep => w.orElse ((w.sleep H).map Prod.fst)
  | .wake sleep =>
    match w.tokens[sleep]? with
    | none => w
    | some token => w.orElse (w.wake H token)

def run : TieredWorld → List TierEvent → TieredWorld := List.foldl (step H)

/-- Every page the run hashed, as a store that never drops one. -/
def everPages (w : TieredWorld) : Pages :=
  w.hashedPages.foldl (fun s bytes => s.put ⟨w.config.hasher.hash H bytes, bytes⟩) ∅

/-- Every manifest the run hashed, as a store that never drops one. -/
def everManifests (w : TieredWorld) : Manifests := w.hashedManifests.foldl (Manifests.put H) ∅

/-- The manifests that history and storage edges lead to. -/
inductive Reaches (s : Manifests) (head : ManifestId) : ManifestId → Prop
  | here : Reaches s head head
  | edge {id next : ManifestId} {m : Manifest} (hid : Reaches s head id) (hget : s.get H id = .ok m)
      (hnext : next ∈ manifestEdges m) : Reaches s head next

/-- A new store on an empty root, with empty object storage. -/
def created (config : StoreConfig) : Except StoreError TieredWorld :=
  TieredWorld.openTier H ⟨∅, ∅, ∅, ∅, config, 0, .fresh, ∅, [], [], []⟩ config

/-- No page waits for its upload when the process restarts. -/
def Settled (w : TieredWorld) : TierEvent → Prop
  | .restart _ => w.tier.pending = ∅
  | _ => True

abbrev SettledRun : TieredWorld → List TierEvent → Prop := Along (step H) Settled

instance (w : TieredWorld) (e : TierEvent) : Decidable (w.Settled e) :=
  match e with
  | .restart _ => inferInstanceAs (Decidable (w.tier.pending = ∅))
  | .begin _ | .write .. | .remove .. | .commit .. | .fault _ | .faultManifest _ | .upload _ | .uploadManifest _
  | .flush | .evictTo _ | .sleep | .wake _ => .isTrue trivial

end TieredWorld

end Mutiny.Substrate
