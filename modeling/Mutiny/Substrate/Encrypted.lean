import Mutiny.Substrate.PagerSpec

/- Encryption at rest (`substrate-security`: `crypt.rs`, `lib.rs`).

   `EncryptedCas` keeps each page sealed under the id of its plaintext and opens it
   on read. Opening checks the identity once more, but always against the unkeyed
   hash, whatever hasher the store was made with. So the wrapped store answers as
   the plain one does as long as no page is read whose unkeyed hash is not its id
   (`encrypted_transparent_iff`): always in an unkeyed pool, and in a keyed pool
   only while nothing that is stored is read (`keyed_read_corrupt`).

   The cipher is a parameter that opens what it sealed under the same key, nonce
   and associated data, and nothing else. The inner store is `MemCas`; the one
   other store with raw access is `EncryptedCas` itself, which passes it through.

   Correspondence (Rust ↔ Lean) where names differ:
     `crypt::seal`, `crypt::open`       ↔ `Crypt.sealBytes`, `Crypt.openBytes`
     `impl Cas for MemCas`, `EncryptedCas` ↔ `Cas.plain`, `Cas.encrypted` -/
namespace Mutiny.Substrate
open Mutiny.Lib SortedMap

structure Aead where
  encrypt (key nonce aad msg : Bytes) : Bytes
  decrypt (key nonce aad sealed : Bytes) : Option Bytes
  decrypt_iff : ∀ key nonce aad sealed msg,
    decrypt key nonce aad sealed = some msg ↔ sealed = encrypt key nonce aad msg

/-- The cipher, and BLAKE3 in the nonce's context. -/
structure Crypt where
  cipher : Aead
  nonceHash : Bytes → Bytes

inductive SecurityError where
  | decrypt (page : PageId)
  | plaintextMismatch (page : PageId)

def aadFor (id : PageId) : Bytes := "substrate-page-v1".toUTF8.data.toList ++ beBytes 32 id.val

namespace Crypt

variable (C : Crypt) (H : Hashing) (key : Bytes)

def nonceFor (id : PageId) : Bytes := (C.nonceHash (key ++ beBytes 32 id.val)).take 24

def sealBytes (id : PageId) (plaintext : Bytes) : Bytes :=
  C.cipher.encrypt key (C.nonceFor key id) (aadFor id) plaintext

def openBytes (id : PageId) (ciphertext : Bytes) : Except SecurityError Bytes :=
  match C.cipher.decrypt key (C.nonceFor key id) (aadFor id) ciphertext with
  | none => .error (.decrypt id)
  -- `PageId::of`: the unkeyed hash
  | some plaintext => if H.page plaintext ≠ id then .error (.plaintextMismatch id) else .ok plaintext

def get (hasher : PageHasher) (inner : Pages) (id : PageId) : Except PagerError Page :=
  match inner[id]? with
  | none => .error (.missingPage id)
  | some ciphertext => match C.openBytes H key id ciphertext with
    -- both errors are reported as corruption
    | .error _ => .error (.corruptPage id id ciphertext.length)
    -- a page size of `usize::MAX` refuses nothing
    | .ok plaintext => .ok ⟨hasher.hash H plaintext, plaintext⟩

end Crypt

/-! Calls. -/

/-- A page is put under the id that the store's hasher gives it. -/
inductive CasCall where
  | put (bytes : Bytes)
  | get (id : PageId)
  | contains (id : PageId)
  | remove (id : PageId)
  | list

inductive CasReply where
  | done
  | page (r : Except PagerError Page)
  | found (b : Bool)
  | ids (l : List PageId)
  deriving DecidableEq

namespace Cas

variable (C : Crypt) (H : Hashing) (hasher : PageHasher) (key : Bytes)

/-- One call on a map of bytes: `stored` is what a put keeps of a page. -/
def serve (stored : PageId → Bytes → Bytes) (get : Pages → PageId → Except PagerError Page) (s : Pages) :
    CasCall → CasReply × Pages
  | .put bytes => (.done, s.insert (hasher.hash H bytes) (stored (hasher.hash H bytes) bytes))
  | .get id => (.page (get s id), s)
  | .contains id => (.found (id ∈ s), s)
  | .remove id => (.done, s.erase id)
  | .list => (.ids s.keys, s)

def plain : Pages → CasCall → CasReply × Pages := serve H hasher (fun _ bytes => bytes) (Pages.get H hasher)

def encrypted : Pages → CasCall → CasReply × Pages := serve H hasher (C.sealBytes key) (C.get H key hasher)

def replies (step : Pages → CasCall → CasReply × Pages) : Pages → List CasCall → List CasReply
  | _, [] => []
  | s, call :: rest => (step s call).1 :: replies step (step s call).2 rest

/-! The encrypted store beside the plain one. -/

variable {C H hasher key} {s : Pages} {id : PageId} {bytes : Bytes}

/-- The encrypted store's map for a plain one. -/
def sealedMap (C : Crypt) (key : Bytes) (s : Pages) : Pages := s.map (C.sealBytes key)

/-- Every page is under the id its store gives it. -/
def Own (H : Hashing) (hasher : PageHasher) (s : Pages) : Prop :=
  ∀ (id : PageId) bytes, s[id]? = some bytes → hasher.hash H bytes = id

theorem getElem?_sealedMap : (sealedMap C key s)[id]? = s[id]?.map (C.sealBytes key id) :=
  Std.ExtTreeMap.getElem?_map

theorem own_step (h : Own H hasher s) (call : CasCall) : Own H hasher (plain H hasher s call).2 := by
  cases call with
  | put bytes =>
    intro id b hb
    simp only [plain, serve, getElem?_insert] at hb
    split at hb
    · next hid => cases hb; exact hid
    · exact h id b hb
  | remove id =>
    intro x b hb
    simp only [plain, serve, getElem?_erase] at hb
    split at hb
    · cases hb
    · exact h x b hb
  | _ => exact h

/-- The two stores stay beside each other. -/
theorem encrypted_step (call : CasCall) :
    (encrypted C H hasher key (sealedMap C key s) call).2 = sealedMap C key (plain H hasher s call).2 := by
  cases call with
  | put bytes =>
    refine SortedMap.ext fun x => ?_
    simp only [encrypted, plain, serve, getElem?_insert, getElem?_sealedMap]
    split
    · next hx => rw [hx]; rfl
    · rfl
  | remove id =>
    refine SortedMap.ext fun x => ?_
    simp only [encrypted, plain, serve, getElem?_erase, getElem?_sealedMap]
    split <;> rfl
  | _ => rfl

theorem plain_get (h : Own H hasher s) : s.get H hasher id = match s[id]? with
    | none => .error (.missingPage id)
    | some bytes => .ok ⟨id, bytes⟩ := by
  unfold Pages.get
  cases hs : s[id]? with
  | none => rfl
  | some bytes => exact if_pos (h id bytes hs)

theorem encrypted_get (h : Own H hasher s) : C.get H key hasher (sealedMap C key s) id = match s[id]? with
    | none => .error (.missingPage id)
    | some bytes => if H.page bytes = id then .ok ⟨id, bytes⟩
      else .error (.corruptPage id id (C.sealBytes key id bytes).length) := by
  unfold Crypt.get
  rw [getElem?_sealedMap]
  cases hs : s[id]? with
  | none => rfl
  | some bytes =>
    have hopen := (C.cipher.decrypt_iff key (C.nonceFor key id) (aadFor id) _ bytes).2 rfl
    simp only [Option.map_some, Crypt.openBytes, Crypt.sealBytes, hopen]
    by_cases hid : H.page bytes = id
    · simp [hid, h id bytes hs]
    · simp [hid]

/-- Replies differ only where a page is read that is there. -/
theorem reply_eq (h : Own H hasher s) (call : CasCall) :
    (encrypted C H hasher key (sealedMap C key s) call).1 = (plain H hasher s call).1 ↔
      ∀ page, .page (.ok page) = (plain H hasher s call).1 → H.page page.bytes = hasher.hash H page.bytes := by
  cases call with
  | get id =>
    simp only [encrypted, plain, serve, plain_get h, encrypted_get h]
    cases hs : s[id]? with
    | none => simp
    | some bytes => by_cases hid : H.page bytes = id <;> simp [hid, h id bytes hs]
  | contains id => simp [encrypted, plain, serve, sealedMap]
  | list => simp [encrypted, plain, serve, sealedMap]
  | put | remove => simp [encrypted, plain, serve]

theorem replies_eq_iff (h : Own H hasher s) (calls : List CasCall) :
    replies (encrypted C H hasher key) (sealedMap C key s) calls = replies (plain H hasher) s calls ↔
      ∀ page, .page (.ok page) ∈ replies (plain H hasher) s calls → H.page page.bytes = hasher.hash H page.bytes := by
  induction calls generalizing s with
  | nil => simp [replies]
  | cons call rest ih =>
    simp only [replies, List.cons.injEq, encrypted_step, reply_eq h, ih (own_step h call), List.mem_cons, or_imp,
      forall_and]

theorem read_own (h : Own H hasher s) {calls : List CasCall} {page : Page}
    (hread : (.get id, .page (.ok page)) ∈ calls.zip (replies (encrypted C H hasher key) (sealedMap C key s) calls)) :
    page.id = id ∧ hasher.hash H page.bytes = id := by
  induction calls generalizing s with
  | nil => simp at hread
  | cons call rest ih =>
    rw [replies, List.zip_cons_cons, List.mem_cons, encrypted_step] at hread
    rcases hread with hread | hread
    · obtain ⟨rfl, hget⟩ := Prod.mk.inj hread
      simp only [encrypted, serve, encrypted_get h, CasReply.page.injEq] at hget
      cases hs : s[id]? with
      | none => simp [hs] at hget
      | some bytes =>
        rw [hs] at hget
        dsimp only at hget
        split at hget
        · cases hget
          exact ⟨rfl, h id bytes hs⟩
        · cases hget
    · exact ih (own_step h call) hread

/-- The wrapped store answers as the plain one exactly as long as the hasher gives every
    page read its unkeyed hash, and never gives a page for another's id. -/
theorem encrypted_transparent_iff (C : Crypt) (H : Hashing) (hasher : PageHasher) (key : Bytes) (calls : List CasCall) :
    (replies (encrypted C H hasher key) ∅ calls = replies (plain H hasher) ∅ calls ↔
      ∀ page, .page (.ok page) ∈ replies (plain H hasher) ∅ calls → H.page page.bytes = hasher.hash H page.bytes) ∧
    ∀ id page, (.get id, .page (.ok page)) ∈ calls.zip (replies (encrypted C H hasher key) ∅ calls) →
      page.id = id ∧ hasher.hash H page.bytes = id := by
  have hown : Own H hasher ∅ := by simp [Own]
  have hempty : sealedMap C key ∅ = ∅ := SortedMap.ext fun x => by simp [getElem?_sealedMap]
  have hreplies : replies (encrypted C H hasher key) (sealedMap C key ∅) calls = _ ↔ _ := replies_eq_iff hown calls
  rw [hempty] at hreplies
  refine ⟨hreplies, fun id page hread => ?_⟩
  rw [← hempty] at hread
  exact read_own hown hread

/-- A cipher that puts the key, the nonce and the associated data in front. -/
def sampleCrypt : Crypt where
  cipher :=
    { encrypt := fun key nonce aad msg => key ++ nonce ++ aad ++ msg
      decrypt := fun key nonce aad sealed => sealed.dropPrefix? (key ++ nonce ++ aad)
      decrypt_iff := by simp [List.dropPrefix?_eq_some_iff] }
  nonceHash := fun bytes => bytes

/-- In a keyed pool the page just stored reads as corrupt. -/
theorem keyed_read_corrupt :
    replies (plain sampleHashing (.keyed 0)) ∅ [.put [7], .get 7] = [.done, .page (.ok ⟨7, [7]⟩)] ∧
    replies (encrypted sampleCrypt sampleHashing (.keyed 0) [1]) ∅ [.put [7], .get 7] =
      [.done, .page (.error (.corruptPage 7 7 75))] := by
  decide +kernel

end Cas

end Mutiny.Substrate
