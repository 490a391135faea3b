import Mutiny.Prism.Conservation

/- Rotating the wrapping keys of a sealed store (`prism-engine`: `keys.rs`, `tenant_key.rs`, the key ids of
   `wal.rs`, the rewrap and the retirement guard of `engine.rs`).

   Data keys are stored wrapped, each beside the id of the key that wrapped it: in the manifests of parts, in the
   records of the two admission logs, and in the envelope of the store's tenant key. The guard counts the parts of
   the live snapshot and the local log. What it lets through is safe exactly if nothing else needs the key.

   Correspondence (Rust ↔ Lean) where names differ:
     `SoftwareKeystore`                ↔ `Keystore`, with `wrap`, `unwrap`, `expand`, `activate`, `retire`
     `decode_record`                   ↔ `decodeFrame`
     `Wal::read_all`                   ↔ `SealedStore.readLocal`
     `RemoteWal::read_all`             ↔ `SealedStore.readRemote`
     `tenant_key::load_or_mint`        ↔ `SealedStore.loadOrMint`, through `readTenantKey`
   Every read goes to the key service, as after a restart: the caches of opened keys are left out. The service is up
   and has revoked no key: `set_fault` and `revoke`, under which it refuses, are left out as well. -/
namespace Mutiny.Prism
open Mutiny.Lib SortedMap Store List

/-! The key service. -/

/-- Wrapping a data key under a wrapping key and its id, and back. -/
structure Wrapping where
  wrapDek : Nat → String → Dek → Bytes
  unwrapDek : Nat → String → Bytes → Except PrismError Dek

/-- The wrapping keys a service holds by id, and the one new data keys are wrapped under. -/
structure Keystore where
  keys : BTreeMap String Nat
  active : String

namespace Keystore

variable (s : Keystore)

def wrap (W : Wrapping) (s : Keystore) (dek : Dek) : Except PrismError (String × Bytes) :=
  match s.keys[s.active]? with
  | none => .error (.keyUnknown s.active)
  | some key => .ok (s.active, W.wrapDek key s.active dek)

/-- The id is used as given: no other key is tried. -/
def unwrap (W : Wrapping) (s : Keystore) (keyId : String) (wrapped : Bytes) : Except PrismError Dek :=
  match s.keys[keyId]? with
  | none => .error (.keyUnknown keyId)
  | some key => W.unwrapDek key keyId wrapped

def expand (keyId : String) (key : Nat) : Keystore := { s with keys := s.keys.insert keyId key }

def activate (keyId : String) : Except PrismError Keystore :=
  if keyId ∈ s.keys then .ok { s with active := keyId } else .error (.keyUnknown keyId)

def retire (keyId : String) : Except PrismError Keystore :=
  if s.active = keyId then .error (.keyActive keyId) else .ok { s with keys := s.keys.erase keyId }

def service (W : Wrapping) (s : Keystore) (token : String → String) : KeyService := ⟨s.wrap W, s.unwrap W, token⟩

end Keystore

/-! What holds wrapped keys. -/

/-- One acknowledged batch. -/
structure LogRecord where
  recordId : Nat
  events : List Event
  deriving DecidableEq

/-- A frame of an admission log: a record in the clear, or sealed under a data key for one record id. -/
inductive LogFrame where
  | clear (record : LogRecord)
  | sealed (version recordId algorithm : Nat) (wrappingKeyId : String) (wrappedDek : Bytes)
      (dek : Dek) (boundTo : Nat) (record : LogRecord)
  deriving DecidableEq

def sealedWalVersion : Nat := 1

def decodeFrame (W : Wrapping) (s : Keystore) : LogFrame → Except PrismError LogRecord
  | .clear r => .ok r
  | .sealed version recordId algorithm keyId wrapped dek boundTo record =>
    if version ≠ sealedWalVersion then .error (.walVersion recordId version)
    else if algorithm ≠ aeadXchacha20Poly1305 then .error (.walAead algorithm)
    else do
      let key ← s.unwrap W keyId wrapped
      if key ≠ dek ∨ recordId ≠ boundTo then throw (.walSealBroken recordId)
      if record.recordId ≠ recordId then throw (.walIdMismatch recordId record.recordId)
      pure record

def LogFrame.keyId? : LogFrame → Option String
  | .clear _ => none
  | .sealed _ _ _ keyId _ _ _ _ => some keyId

structure TenantKeyEnvelope where
  algorithm : Nat
  wrappingKeyId : String
  wrappedKey : Bytes

/-- A sealed store: its files, and the key service it is opened with. -/
structure SealedStore where
  world : World
  tenantKey : Option TenantKeyEnvelope
  /-- The whole frames of the local log, and whether the checksum of each matches. -/
  localLog : List (LogFrame × Bool)
  remoteLog : List LogFrame
  keystore : Keystore

/-- The key that opens a part. -/
def Part.keyId? (p : Part) : Option String :=
  if p.manifest.encryption then p.manifest.envelope.map Envelope.wrappingKeyId else none

/-- The keys some frame of a log is sealed under; no frame is opened, and no checksum read. -/
def wrappingKeyIds (log : List (LogFrame × Bool)) : List String := sortedSet (log.filterMap (fun f => f.1.keyId?))

namespace SealedStore

variable (W : Wrapping) (s : SealedStore)

def store : Store := s.world.store

def readPart (id : PartId) : Except PrismError (List Row) := do
  let p ← s.store.openManifest id
  let cipher ← cipherFor (some (s.keystore.service W (fun name => name))) p
  p.readAll cipher

/-- The records of the local log up to the first frame that is cut or damaged. -/
def readLocal : Except PrismError (List LogRecord) :=
  (s.localLog.takeWhile Prod.snd).mapM (fun f => decodeFrame W s.keystore f.1)

def readRemote : Except PrismError (List LogRecord) := s.remoteLog.mapM (decodeFrame W s.keystore)

def readTenantKey : Except PrismError (Option Dek) :=
  match s.tenantKey with
  | none => .ok none
  | some env =>
    if env.algorithm ≠ aeadXchacha20Poly1305 then .error (.walAead env.algorithm)
    else (s.keystore.unwrap W env.wrappingKeyId env.wrappedKey).map some

/-- The tenant key; the first use mints it and wraps it under the active key. -/
def loadOrMint (fresh : Dek) : Except PrismError (Dek × SealedStore) := do
  match ← s.readTenantKey W with
  | some key => pure (key, s)
  | none =>
    let wrapped ← s.keystore.wrap W fresh
    pure (fresh, { s with tenantKey := some ⟨aeadXchacha20Poly1305, wrapped.1, wrapped.2⟩ })

/-- A part under another envelope; its columns stay as they are. -/
def rewrapped (p : Part) (env : Envelope) : Part := { p with manifest := { p.manifest with envelope := some env } }

/-- Wrap the data key of one part under the active key. -/
def rewrapPart (keystore : Keystore) (db : Store) (id : PartId) : Except PrismError Store := do
  let p ← db.openManifest id
  if !p.manifest.encryption then pure db
  else match p.manifest.envelope with
    | none => throw (.noEnvelope id)
    | some env =>
      if env.wrappingKeyId = keystore.active then pure db
      else do
        let dek ← keystore.unwrap W env.wrappingKeyId env.wrappedDek
        let wrapped ← keystore.wrap W dek
        let part := rewrapped p { env with wrappingKeyId := wrapped.1, wrappedDek := wrapped.2 }
        pure { db with parts := db.parts.insert id part }

def rewrapToActiveKey : Except PrismError SealedStore := do
  let snap ← s.store.current
  let db ← snap.partIds.foldlM (rewrapPart W s.keystore) s.store
  pure { s with world := { s.world with store := db } }

def wrappingKeysInUse : Except PrismError (List String) := do
  let snap ← s.store.current
  let parts ← snap.partIds.mapM s.store.openManifest
  pure (parts.filterMap (fun p => p.manifest.envelope.map Envelope.wrappingKeyId) ++ wrappingKeyIds s.localLog)

def assertKeyRetirable (keyId : String) : Except PrismError Unit := do
  let used ← s.wrappingKeysInUse
  if used.count keyId = 0 then pure () else throw (.keyInUse keyId (used.count keyId))

end SealedStore

/-! A key less. -/

variable {W : Wrapping} {k : String} {keystore less : Keystore} {s : SealedStore}

section

variable (h : keystore.retire k = .ok less)
include h

theorem Keystore.retire_unwrap (keyId : String) (wrapped : Bytes) :
    less.unwrap W keyId wrapped = if k = keyId then .error (.keyUnknown keyId) else keystore.unwrap W keyId wrapped := by
  unfold Keystore.retire at h
  split at h
  · cases h
  · cases h
    unfold Keystore.unwrap
    rw [getElem?_erase]
    by_cases hk : k = keyId <;> simp [hk]

theorem cipherFor_retire (token : String → String) (p : Part) :
    (p.keyId? ≠ some k →
      cipherFor (some (less.service W token)) p = cipherFor (some (keystore.service W token)) p) ∧
    (p.keyId? = some k → ∀ cipher, cipherFor (some (less.service W token)) p ≠ .ok cipher) := by
  unfold Part.keyId? cipherFor
  cases p.manifest.encryption with
  | false => simp
  | true =>
    cases p.manifest.envelope with
    | none => simp
    | some env =>
      simp only [Keystore.service, Keystore.retire_unwrap h, if_true, Option.map_some, Bool.not_true,
        Bool.false_eq_true, if_false, ne_eq, Option.some.injEq]
      refine ⟨fun hne => by rw [if_neg (Ne.symm hne)], fun heq cipher hok => ?_⟩
      rw [if_pos heq.symm] at hok
      split at hok
      · cases hok
      · cases hok

theorem decodeFrame_retire (f : LogFrame) :
    (f.keyId? ≠ some k → decodeFrame W less f = decodeFrame W keystore f) ∧
    (f.keyId? = some k → ∀ r, decodeFrame W less f ≠ .ok r) := by
  cases f with
  | clear r => exact ⟨fun _ => rfl, fun hk => by cases hk⟩
  | sealed version recordId algorithm keyId wrapped dek boundTo record =>
    simp only [LogFrame.keyId?, decodeFrame, Keystore.retire_unwrap h, ne_eq, Option.some.injEq]
    refine ⟨fun hne => by rw [if_neg (Ne.symm hne)], fun heq r hok => ?_⟩
    rw [if_pos heq.symm] at hok
    split at hok
    · cases hok
    · split at hok
      · cases hok
      · cases hok

end

theorem mapM_congr {α β ε : Type} {f g : α → Except ε β} {l : List α} (h : ∀ x ∈ l, f x = g x) :
    l.mapM f = l.mapM g := by
  induction l with
  | nil => rfl
  | cons x l ih =>
    obtain ⟨hx, hl⟩ := forall_mem_cons.1 h
    rw [mapM_cons, mapM_cons, hx, ih hl]

/-! The guard. -/

namespace SealedStore

theorem assertKeyRetirable_iff :
    s.assertKeyRetirable k = .ok () ↔ ∃ used, s.wrappingKeysInUse = .ok used ∧ k ∉ used := by
  unfold assertKeyRetirable
  cases s.wrappingKeysInUse with
  | error e => simp
  | ok used =>
    simp only [ok_bind, count_eq_zero]
    by_cases hk : k ∈ used <;> simp [hk]

theorem wrappingKeysInUse_iff {used : List String} (h : s.wrappingKeysInUse = .ok used) :
    ∃ snap, s.store.current = .ok snap ∧ ∀ keyId, keyId ∈ used ↔
      (∃ id ∈ snap.partIds, ∃ p env, s.store.parts[id]? = some p ∧ p.manifest.envelope = some env ∧
        env.wrappingKeyId = keyId) ∨ ∃ f ∈ s.localLog, f.1.keyId? = some keyId := by
  obtain ⟨snap, hcur, h⟩ := bind_ok.1 h
  obtain ⟨parts, hparts, h⟩ := bind_ok.1 h
  cases h
  refine ⟨snap, hcur, fun keyId => ?_⟩
  simp only [mem_append, mem_filterMap, Option.map_eq_some_iff, wrappingKeyIds, sortedSet,
    mem_insertionSort, mem_dedup]
  refine or_congr_left ⟨?_, ?_⟩
  · rintro ⟨p, hp, env, henv, hkey⟩
    obtain ⟨id, hid, hok⟩ := mem_of_mapM hparts hp
    exact ⟨id, hid, p, env, openManifest_ok.1 hok, henv, hkey⟩
  · rintro ⟨id, hid, p, env, hp, henv, hkey⟩
    obtain ⟨p', hp', hok⟩ := mem_mapM hparts hid
    cases hp.symm.trans (openManifest_ok.1 hok)
    exact ⟨p, hp', env, henv, hkey⟩

/-- Everything a store could read with its key service, it still can with another: the parts of every snapshot that
    collection would retain, both admission logs, and the tenant key. -/
structure KeepsReads (W : Wrapping) (retain : Nat) (now : Int) (s : SealedStore) (less : Keystore) : Prop where
  parts : ∀ live, s.store.retained retain now = .ok live → ∀ id ∈ live.parts, ∀ rows,
    s.readPart W id = .ok rows → { s with keystore := less }.readPart W id = .ok rows
  localLog : ∀ rs, s.readLocal W = .ok rs → { s with keystore := less }.readLocal W = .ok rs
  remoteLog : ∀ rs, s.readRemote W = .ok rs → { s with keystore := less }.readRemote W = .ok rs
  tenantKey : ∀ key, s.readTenantKey W = .ok key → { s with keystore := less }.readTenantKey W = .ok key

/-- Nothing that the guard does not count, and that can be read, needs a key. -/
structure NeedsNot (W : Wrapping) (retain : Nat) (now : Int) (s : SealedStore) (k : String) : Prop where
  older : ∀ live snap, s.store.retained retain now = .ok live → s.store.current = .ok snap →
    ∀ id ∈ live.parts, id ∉ snap.partIds → ∀ rows, s.readPart W id = .ok rows →
      ∀ p, s.store.parts[id]? = some p → p.keyId? ≠ some k
  remoteLog : ∀ rs, s.readRemote W = .ok rs → ∀ f ∈ s.remoteLog, f.keyId? ≠ some k
  tenantKey : ∀ key, s.readTenantKey W = .ok key → ∀ env, s.tenantKey = some env → env.wrappingKeyId ≠ k

variable {id : PartId}

theorem readPart_retire (h : s.keystore.retire k = .ok less) {rows : List Row} {p : Part}
    (hp : s.store.parts[id]? = some p) (hread : s.readPart W id = .ok rows) :
    { s with keystore := less }.readPart W id = .ok rows ↔ p.keyId? ≠ some k := by
  obtain ⟨hkeep, hlose⟩ := cipherFor_retire (W := W) h (fun name => name) p
  have hopen := openManifest_ok.2 hp
  unfold readPart at hread ⊢
  rw [hopen, ok_bind] at hread
  rw [show ({ s with keystore := less } : SealedStore).store.openManifest id = .ok p from hopen, ok_bind]
  constructor
  · intro hafter hneeds
    obtain ⟨cipher, hcipher, -⟩ := bind_ok.1 hafter
    exact hlose hneeds cipher hcipher
  · intro hne
    rw [hkeep hne]
    exact hread

theorem readTenantKey_retire (h : s.keystore.retire k = .ok less) {key : Option Dek}
    (hread : s.readTenantKey W = .ok key) :
    { s with keystore := less }.readTenantKey W = .ok key ↔ ∀ env, s.tenantKey = some env → env.wrappingKeyId ≠ k := by
  unfold readTenantKey at hread ⊢
  cases htenant : s.tenantKey with
  | none => simpa [htenant] using hread
  | some env =>
    simp only [htenant, Keystore.retire_unwrap h, Option.some.injEq, forall_eq'] at hread ⊢
    by_cases hk : k = env.wrappingKeyId
    · simp only [hk, if_true, ne_eq, not_true_eq_false, iff_false]
      split
      · exact fun hno => by cases hno
      · exact fun hno => by cases hno
    · simp only [if_neg hk, hread, ne_eq, true_iff]
      exact fun heq => hk heq.symm

/-- With the guard passed, retiring a key is safe exactly if nothing beside what was counted needs it. -/
theorem keepsReads_iff (hguard : s.assertKeyRetirable k = .ok ()) (h : s.keystore.retire k = .ok less) (retain : Nat)
    (now : Int) : s.KeepsReads W retain now less ↔ s.NeedsNot W retain now k := by
  obtain ⟨used, hused, hk⟩ := assertKeyRetirable_iff.1 hguard
  obtain ⟨snap, hcur, hcount⟩ := wrappingKeysInUse_iff hused
  constructor
  · intro hkeeps
    refine ⟨fun live _ hlive _ id hid _ rows hrows p hp => ?_, fun rs hrs f hf hneeds => ?_, fun key hkey => ?_⟩
    · exact (readPart_retire h hp hrows).1 (hkeeps.parts live hlive id hid rows hrows)
    · obtain ⟨r, -, hr⟩ := mem_mapM (hkeeps.remoteLog rs hrs) hf
      exact (decodeFrame_retire h f).2 hneeds r hr
    · exact (readTenantKey_retire h hkey).1 (hkeeps.tenantKey key hkey)
  · intro hneeds
    refine ⟨fun live hlive id hid rows hrows => ?_, fun rs hrs => ?_, fun rs hrs => ?_, fun key hkey => ?_⟩
    · obtain ⟨p, hopen, -⟩ := bind_ok.1 hrows
      have hp := openManifest_ok.1 hopen
      refine (readPart_retire h hp hrows).2 ?_
      by_cases hsnap : id ∈ snap.partIds
      · -- a part of the live snapshot was counted
        intro hneed
        unfold Part.keyId? at hneed
        split at hneed
        · obtain ⟨env, henv, hkey⟩ := Option.map_eq_some_iff.1 hneed
          exact hk ((hcount k).2 (.inl ⟨id, hsnap, p, env, hp, henv, hkey⟩))
        · cases hneed
      · exact hneeds.older live snap hlive hcur id hid hsnap rows hrows p hp
    · rw [← hrs]
      refine mapM_congr (fun f hf => (decodeFrame_retire h f.1).1 (fun hneed => ?_))
      exact hk ((hcount k).2 (.inr ⟨f, takeWhile_sublist _ |>.subset hf, hneed⟩))
    · rw [← hrs]
      exact mapM_congr (fun f hf => (decodeFrame_retire h f).1 (hneeds.remoteLog rs hrs f hf))
    · exact (readTenantKey_retire h hkey).2 (hneeds.tenantKey key hkey)

/-! Rewrapping. -/

variable {db db' : Store} {ids : List PartId}

/-- A part that is there and, if it is sealed, is sealed under a key. -/
def Settled (active : String) (db : Store) (id : PartId) : Prop :=
  ∃ p, db.parts[id]? = some p ∧
    (p.manifest.encryption = true → ∀ env, p.manifest.envelope = some env → env.wrappingKeyId = active)

theorem rewrapPart_ok (h : rewrapPart W keystore db id = .ok db') :
    db'.current = db.current ∧ Settled keystore.active db' id ∧
      ∀ id', Settled keystore.active db id' → Settled keystore.active db' id' := by
  obtain ⟨p, hopen, h⟩ := bind_ok.1 h
  have hp := Store.openManifest_ok.1 hopen
  cases henc : p.manifest.encryption with
  | false =>
    simp only [henc, Bool.not_false, if_true] at h
    cases h
    exact ⟨rfl, ⟨p, hp, fun hno => by rw [henc] at hno; cases hno⟩, fun _ h => h⟩
  | true =>
    simp only [henc, Bool.not_true, Bool.false_eq_true, if_false] at h
    cases henv : p.manifest.envelope with
    | none =>
      rw [henv] at h
      cases h
    | some env =>
      simp only [henv] at h
      split at h
      · next hactive =>
        cases h
        refine ⟨rfl, ⟨p, hp, fun _ env' henv' => ?_⟩, fun _ h => h⟩
        cases henv.symm.trans henv'
        exact hactive
      · obtain ⟨dek, -, h⟩ := bind_ok.1 h
        obtain ⟨wrapped, hwrap, h⟩ := bind_ok.1 h
        have hkey : wrapped.1 = keystore.active := by
          unfold Keystore.wrap at hwrap
          split at hwrap <;> cases hwrap
          rfl
        cases h
        refine ⟨rfl, ⟨_, by rw [SortedMap.getElem?_insert, if_pos rfl], fun _ env' henv' => ?_⟩, ?_⟩
        · cases henv'
          exact hkey
        · rintro id' ⟨p', hp', hset⟩
          by_cases heq : id = id'
          · refine ⟨_, by rw [SortedMap.getElem?_insert, if_pos heq], fun _ env' henv' => ?_⟩
            cases henv'
            exact hkey
          · exact ⟨p', by rw [SortedMap.getElem?_insert, if_neg heq, hp'], hset⟩

theorem foldlM_rewrapPart_ok (h : ids.foldlM (rewrapPart W keystore) db = .ok db') :
    db'.current = db.current ∧ (∀ id ∈ ids, Settled keystore.active db' id) ∧
      ∀ id, Settled keystore.active db id → Settled keystore.active db' id := by
  induction ids generalizing db with
  | nil =>
    cases h
    exact ⟨rfl, fun id hid => absurd hid not_mem_nil, fun _ h => h⟩
  | cons id ids ih =>
    obtain ⟨db1, hone, hrest⟩ := bind_ok.1 h
    obtain ⟨hcur, hsettled, hkeep⟩ := rewrapPart_ok hone
    obtain ⟨hcur', hall, hkeep'⟩ := ih hrest
    refine ⟨hcur'.trans hcur, forall_mem_cons.2 ⟨hkeep' id hsettled, hall⟩, fun id' hid' => hkeep' id' (hkeep id' hid')⟩

theorem mapM_openManifest (h : ∀ id ∈ ids, ∃ p, db.parts[id]? = some p) : ∃ ps, ids.mapM db.openManifest = .ok ps := by
  induction ids with
  | nil => exact ⟨[], rfl⟩
  | cons id ids ih =>
    obtain ⟨⟨p, hp⟩, hids⟩ := forall_mem_cons.1 h
    obtain ⟨ps, hps⟩ := ih hids
    refine ⟨p :: ps, ?_⟩
    rw [mapM_cons, hps, openManifest_ok.2 hp]
    rfl

/-- After a rewrap and with empty logs, a key that is not active is retirable exactly if no part of the live snapshot
    carries an envelope of that key without being sealed. -/
theorem retirable_of_rewrap {s' : SealedStore} (h : s.rewrapToActiveKey W = .ok s') (hlog : s'.localLog = [])
    (hk : k ≠ s'.keystore.active) :
    s'.assertKeyRetirable k = .ok () ↔ ∀ snap, s'.store.current = .ok snap → ∀ id ∈ snap.partIds, ∀ p env,
      s'.store.parts[id]? = some p → p.manifest.encryption = false → p.manifest.envelope = some env →
        env.wrappingKeyId ≠ k := by
  obtain ⟨snap, hcur, h⟩ := bind_ok.1 h
  obtain ⟨db, hdb, h⟩ := bind_ok.1 h
  cases h
  obtain ⟨hsame, hsettled, -⟩ := foldlM_rewrapPart_ok hdb
  have hcur' : db.current = .ok snap := hsame.trans hcur
  rw [assertKeyRetirable_iff]
  constructor
  · rintro ⟨used, hused, hno⟩ snap' hsnap' id hid p env hp _ henv heq
    obtain ⟨_, hsnap, hcount⟩ := wrappingKeysInUse_iff hused
    cases hsnap.symm.trans hsnap'
    exact hno ((hcount k).2 (.inl ⟨id, hid, p, env, hp, henv, heq⟩))
  · intro hplain
    obtain ⟨ps, hps⟩ := mapM_openManifest (fun id hid => (hsettled id hid).imp (fun _ hp => hp.1))
    refine ⟨_, bind_ok.2 ⟨snap, hcur', bind_ok.2 ⟨ps, hps, rfl⟩⟩, fun hmem => ?_⟩
    obtain ⟨_, hsnap, hcount⟩ := wrappingKeysInUse_iff (s := { s with world := { s.world with store := db } })
      (bind_ok.2 ⟨snap, hcur', bind_ok.2 ⟨ps, hps, rfl⟩⟩)
    cases hcur'.symm.trans hsnap
    rcases (hcount k).1 hmem with ⟨id, hid, p, env, hp, henv, hkey⟩ | ⟨f, hf, -⟩
    · obtain ⟨p', hp', hactive⟩ := hsettled id hid
      cases hp.symm.trans hp'
      cases henc : p.manifest.encryption with
      | true => exact hk (hkey.symm.trans (hactive henc env henv))
      | false => exact hplain snap hcur' id hid p env hp henc henv hkey
    · rw [show s.localLog = [] from hlog] at hf
      exact absurd hf not_mem_nil

/-- In every state of a sealed store, however it came about: a key the guard lets through is removed safely exactly if
    no readable part outside the live snapshot, no record of the replicated log and not the tenant key needs it; and
    after a rewrap, with empty logs, every other key is retirable unless an unsealed part carries its envelope. -/
theorem retirement_safe_iff (W : Wrapping) (s : SealedStore) (k : String) :
    (∀ less, s.assertKeyRetirable k = .ok () → s.keystore.retire k = .ok less → ∀ retain now,
      s.KeepsReads W retain now less ↔ s.NeedsNot W retain now k) ∧
    (∀ s', s.rewrapToActiveKey W = .ok s' → s'.localLog = [] → s'.remoteLog = [] → k ≠ s'.keystore.active →
      (s'.assertKeyRetirable k = .ok () ↔ ∀ snap, s'.store.current = .ok snap → ∀ id ∈ snap.partIds, ∀ p env,
        s'.store.parts[id]? = some p → p.manifest.encryption = false → p.manifest.envelope = some env →
          env.wrappingKeyId ≠ k)) :=
  ⟨fun _ hguard hretire retain now => keepsReads_iff hguard hretire retain now,
    fun _ hrewrap hlog _ hk => retirable_of_rewrap hrewrap hlog hk⟩

end SealedStore

/-! A rotation. -/

/-- A wrapped key is the wrapping key and the data key, a byte each. -/
def tinyWrapping : Wrapping where
  wrapDek key _ dek := [UInt8.ofNat key, UInt8.ofNat dek.material]
  unwrapDek key _ wrapped :=
    match wrapped with
    | [first, second] => if first = UInt8.ofNat key then .ok ⟨second.toNat⟩ else .error (.external "another key")
    | _ => .error (.external "not a wrapped key")

/-- An empty store under one key, before its tenant key is minted. -/
def firstStore : SealedStore := ⟨.blank, none, [], [], ⟨(∅ : BTreeMap String Nat).insert "one" 1, "one"⟩⟩

/-- Two events under the first key, then a merge; the second key is activated and everything live is rewrapped. -/
def SealedStore.rotated (s : SealedStore) : Option SealedStore := do
  let E : Engine := { tinyEngine [] with keys := some (s.keystore.service tinyWrapping (fun name => name)) }
  let world := s.world.runOps E [(10, .ingest [tinyEvent "a" "x"]), (11, .ingest [tinyEvent "b" "y"]), (12, .merge none)]
  let keystore ← ((s.keystore.expand "two" 2).activate "two").toOption
  (SealedStore.rewrapToActiveKey tinyWrapping { s with world := world, keystore := keystore }).toOption

def rotatedStore : Option SealedStore := do
  let (_, s) ← (firstStore.loadOrMint tinyWrapping ⟨9⟩).toOption
  s.rotated

/-- Past the horizon, with only the live snapshot retained and no tenant key, nothing needs the first key, and its
    retirement loses no read. -/
theorem unneeded_key_is_retired : ∃ s less, firstStore.rotated = some s ∧ s.assertKeyRetirable "one" = .ok () ∧
    s.keystore.retire "one" = .ok less ∧ s.KeepsReads tinyWrapping 1 7200012 less := by
  have hrun : firstStore.rotated.any (fun s => (s.assertKeyRetirable "one").isOk && (s.keystore.retire "one").isOk &&
      s.tenantKey.isNone && s.remoteLog = [] && ((s.store.retained 1 7200012).toOption.elim [] Retained.parts).all
        (fun id => (s.store.current.toOption.elim [] Snapshot.partIds).contains id)) = true := by
    decide +kernel
  obtain ⟨s, hs, hrun⟩ := (Option.any_eq_true _ _).1 hrun
  simp only [Bool.and_eq_true, decide_eq_true_eq, Option.isNone_iff_eq_none, isOk_iff, all_eq_true] at hrun
  obtain ⟨⟨⟨⟨⟨_, hguard⟩, less, hretire⟩, htenant⟩, hremote⟩, hlive⟩ := hrun
  refine ⟨s, less, hs, hguard, hretire, ((SealedStore.retirement_safe_iff _ s _).1 less hguard hretire _ _).2
    ⟨fun live snap hretained hcur id hid hout => ?_, fun rs _ f hf => ?_, fun key _ env henv => ?_⟩⟩
  · rw [hretained, hcur] at hlive
    exact absurd (contains_iff_mem.1 (hlive id hid)) hout
  · rw [hremote] at hf
    cases hf
  · rw [htenant] at henv
    cases henv

/-- What a rotation is about: whether the tenant key opens, and each part of the snapshots there are. -/
def SealedStore.opens (s : SealedStore) : Bool × List Bool :=
  ((s.readTenantKey tinyWrapping).isOk,
    (((s.store.retained 4 12).toOption.map Retained.parts).getD []).dedup.map (fun id => (s.readPart tinyWrapping id).isOk))

/-- The guard lets the first key go; the tenant key and the parts from before the merge do not open any more. -/
theorem guard_lets_needed_key_go :
    (rotatedStore.bind (fun s => (s.keystore.retire "one").toOption.map (fun less =>
      ((s.assertKeyRetirable "one").isOk, s.opens, { s with keystore := less }.opens)))) =
      some (true, (true, [true, true, true]), (false, [false, false, true])) := by
  decide +kernel

end Mutiny.Prism
