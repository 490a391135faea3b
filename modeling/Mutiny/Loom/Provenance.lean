import Mutiny.Schweep.LogRecord
import Mutiny.Loom.Record
import Mutiny.Loom.Refs

/- Derivation nodes and the keys the engine keeps its own records at
   (`loom-core`: `provenance.rs`, `envelope.rs`, `index.rs`, `history.rs`;
   `loom-branch`: `merge.rs`).

   A node says what one written key was derived from. It is named by a hash of
   its fields, one after the other and with nothing between them, and stored at
   the next number of its branch. Neither that nor what is signed of an envelope
   tells all fields apart, and `preimages_tell_content_iff` says what it takes
   beside them. Records the engine keeps for itself are blobs: the encodings are
   parameters (`LoomCodec`).

   Correspondence (Rust ↔ Lean) where names differ:
     `NodeId::from_bytes`, `as_bytes`         ↔ `nodeOfBytes`, `digestBytes`
     `SourceRef::to_string`                   ↔ `sourceText`
     `IndexEntry::new`, `storage_key`         ↔ `IndexEntry.new`, `indexKey`
     `ClaimVersion::history_prefix`, `storage_key` ↔ `historyPrefix`, `versionKey` -/
namespace Mutiny.Loom
open Mutiny.Lib Mutiny.Substrate List
open Mutiny.Bridge (SourceRef WriteEnvelope)

abbrev BranchId := String

abbrev SessionId := String

abbrev ActorId := String

abbrev NodeId := Digest

/-- `as_bytes` of an id. -/
def digestBytes (d : Digest) : Bytes := beBytes 32 d.val

def nodeOfBytes (bytes : Bytes) : Option NodeId := if bytes.length = 32 then some (Fin.ofNat (2 ^ 256) (beNat bytes)) else none

theorem nodeOfBytes_digestBytes (d : Digest) : nodeOfBytes (digestBytes d) = some d := by
  have hmod : d.val % 256 ^ 32 = d.val := Nat.mod_eq_of_lt (d.isLt.trans_eq (by norm_num))
  rw [nodeOfBytes, digestBytes, length_beBytes, if_pos rfl, beNat_beBytes, hmod]
  exact congrArg some (Fin.ofNat_val_eq_self d)

theorem digestBytes_inj {d d' : Digest} (h : digestBytes d = digestBytes d') : d = d' := by
  have hread := nodeOfBytes_digestBytes d
  rw [h, nodeOfBytes_digestBytes] at hread
  exact (Option.some.inj hread).symm

/-- `{system}:{record}`. -/
def sourceText (s : SourceRef) : Bytes := utf8 s.system ++ utf8 ":" ++ utf8 s.recordId

/-! Nodes. -/

structure DerivationNode where
  id : NodeId
  branch : BranchId
  commit : CommitId
  key : Key
  actor : ActorId
  delegation : List ActorId
  intent : String
  derivedFrom : List NodeId
  sources : List SourceRef
  deriving DecidableEq

abbrev Embedding := List (BitVec 32)

structure IndexEntry where
  key : Key
  text : String
  embedding : Option Embedding
  citations : List SourceRef
  stale : Bool
  label : TrustClass
  deriving DecidableEq

/-- An entry that cites nothing is not made. -/
def IndexEntry.new (key : Key) (text : String) (embedding : Option Embedding) (citations : List SourceRef) (stale : Bool)
    (label : TrustClass) : Option IndexEntry :=
  if citations.isEmpty then none else some ⟨key, text, embedding, citations, stale, label⟩

structure ClaimVersion where
  claim : Claim
  seq : Nat
  deriving DecidableEq

/-- bincode of the engine's own records, and BLAKE3. -/
structure LoomCodec where
  hash : Bytes → Digest
  encodeNode : DerivationNode → Bytes
  decodeNode : Bytes → Option DerivationNode
  encodeEntry : IndexEntry → Bytes
  decodeEntry : Bytes → Option IndexEntry
  encodeVersion : ClaimVersion → Bytes
  decodeVersion : Bytes → Option ClaimVersion
  encodeVector : Embedding → Bytes

def sortedNodes (nodes : List NodeId) : List NodeId := (nodes.insertionSort (· ≤ ·)).dedup

def sortedSources (sources : List SourceRef) : List SourceRef := (sources.insertionSort SourceRef.Before).dedup

def nodeBytes (branch : BranchId) (commit : CommitId) (key : Key) (actor : ActorId) (derivedFrom : List NodeId)
    (sources : List SourceRef) : Bytes :=
  utf8 branch ++ digestBytes commit ++ key ++ utf8 actor ++ derivedFrom.flatMap digestBytes ++ sources.flatMap sourceText

def DerivationNode.new (C : LoomCodec) (branch : BranchId) (commit : CommitId) (key : Key) (actor : ActorId)
    (delegation : List ActorId) (intent : String) (derivedFrom : List NodeId) (sources : List SourceRef) :
    DerivationNode :=
  let derivedFrom := sortedNodes derivedFrom
  let sources := sortedSources sources
  ⟨C.hash (nodeBytes branch commit key actor derivedFrom sources), branch, commit, key, actor, delegation, intent,
    derivedFrom, sources⟩

/-! What is signed. -/

/-- Bytes with their length before them. -/
def signedField (bytes : Bytes) : Bytes := leBytes 8 bytes.length ++ bytes

def signingBytes (e : WriteEnvelope) : Bytes :=
  signedField (utf8 "loom-envelope-v1") ++ signedField (utf8 e.actor) ++ signedField (utf8 e.session) ++
    signedField (utf8 e.branch) ++ signedField (digestBytes e.contextHash) ++ signedField (utf8 e.intent) ++
    leBytes 8 e.delegation.length ++ e.delegation.flatMap (fun actor => signedField (utf8 actor)) ++
    leBytes 8 e.derivedFrom.length ++ e.derivedFrom.flatMap (fun source => signedField (sourceText source))

/-- The lengths a `u64` has to hold: of the signed fields, and of the two lists. -/
def signedSizes (e : WriteEnvelope) : List Nat :=
  [(utf8 e.actor).length, (utf8 e.session).length, (utf8 e.branch).length, (utf8 e.intent).length,
    e.delegation.length, e.derivedFrom.length] ++
    e.delegation.map (fun actor => (utf8 actor).length) ++ e.derivedFrom.map (fun source => (sourceText source).length)

theorem signedField_cancel {a b x y : Bytes} (ha : a.length < 2 ^ 64) (hb : b.length < 2 ^ 64)
    (h : signedField a ++ x = signedField b ++ y) : a = b ∧ x = y := by
  rw [signedField, signedField, append_assoc, append_assoc] at h
  obtain ⟨hlen, h⟩ := append_inj h (by simp)
  exact append_inj h (leBytes_inj ha hb hlen)

/-- As many fields on either side are the same fields, in front of any rest. -/
theorem signedFields_cancel {α : Type} {f : α → Bytes} {l l' : List α} {x y : Bytes} (hlen : l.length = l'.length)
    (hl : ∀ a ∈ l, (f a).length < 2 ^ 64) (hl' : ∀ a ∈ l', (f a).length < 2 ^ 64)
    (h : l.flatMap (fun a => signedField (f a)) ++ x = l'.flatMap (fun a => signedField (f a)) ++ y) :
    l.map f = l'.map f ∧ x = y := by
  induction l generalizing l' with
  | nil =>
    obtain rfl := eq_nil_of_length_eq_zero hlen.symm
    exact ⟨rfl, h⟩
  | cons a l ih =>
    cases l' with
    | nil => cases hlen
    | cons a' l' =>
      rw [forall_mem_cons] at hl hl'
      rw [flatMap_cons, flatMap_cons, append_assoc, append_assoc] at h
      obtain ⟨hfirst, h⟩ := signedField_cancel hl.1 hl'.1 h
      obtain ⟨hrest, h⟩ := ih (Nat.succ.inj hlen) hl.2 hl'.2 h
      exact ⟨by rw [map_cons, map_cons, hfirst, hrest], h⟩

/-- The signed bytes tell every field but the policy, and of the sources their texts. -/
theorem signed_fields {e e' : WriteEnvelope} (he : ∀ n ∈ signedSizes e, n < 2 ^ 64) (he' : ∀ n ∈ signedSizes e', n < 2 ^ 64)
    (h : signingBytes e = signingBytes e') :
    (e.actor = e'.actor ∧ e.session = e'.session ∧ e.branch = e'.branch ∧ e.contextHash = e'.contextHash ∧
      e.intent = e'.intent ∧ e.delegation = e'.delegation) ∧
      e.derivedFrom.map sourceText = e'.derivedFrom.map sourceText := by
  simp only [signedSizes, forall_mem_append, forall_mem_cons, forall_mem_map, not_mem_nil, IsEmpty.forall_iff,
    implies_true, and_true] at he he'
  obtain ⟨⟨⟨ha, hs, hb, hi, hd, hf⟩, hD⟩, hF⟩ := he
  obtain ⟨⟨⟨ha', hs', hb', hi', hd', hf'⟩, hD'⟩, hF'⟩ := he'
  -- the fields come off the front, each by its length
  simp only [signingBytes, append_assoc] at h
  obtain ⟨-, h⟩ := signedField_cancel (by decide +kernel) (by decide +kernel) h
  obtain ⟨hactor, h⟩ := signedField_cancel ha ha' h
  obtain ⟨hsession, h⟩ := signedField_cancel hs hs' h
  obtain ⟨hbranch, h⟩ := signedField_cancel hb hb' h
  obtain ⟨hcontext, h⟩ := signedField_cancel (by simp [digestBytes]) (by simp [digestBytes]) h
  obtain ⟨hintent, h⟩ := signedField_cancel hi hi' h
  obtain ⟨hcount, h⟩ := append_inj h (by simp)
  obtain ⟨hdelegation, h⟩ := signedFields_cancel (leBytes_inj hd hd' hcount) hD hD' h
  obtain ⟨hcount, h⟩ := append_inj h (by simp)
  rw [← append_nil (e.derivedFrom.flatMap _), ← append_nil (e'.derivedFrom.flatMap _)] at h
  obtain ⟨hsources, -⟩ := signedFields_cancel (leBytes_inj hf hf' hcount) hF hF' h
  exact ⟨⟨utf8_inj hactor, utf8_inj hsession, utf8_inj hbranch, digestBytes_inj hcontext, utf8_inj hintent,
    map_injective_iff.2 (fun _ _ => utf8_inj) hdelegation⟩, hsources⟩

/-- Where its text is cut a source is told by the text. -/
theorem sourceText_inj {s s' : SourceRef} (hcut : (utf8 s.system).length = (utf8 s'.system).length)
    (h : sourceText s = sourceText s') : s = s' := by
  simp only [sourceText, append_assoc] at h
  obtain ⟨hsystem, h⟩ := append_inj h hcut
  have hrecord := append_cancel_left h
  cases s
  cases s'
  exact congrArg₂ SourceRef.mk (utf8_inj hsystem) (utf8_inj hrecord)

theorem sources_eq_of_texts {l l' : List SourceRef}
    (hcut : l.map (fun s => (utf8 s.system).length) = l'.map (fun s => (utf8 s.system).length))
    (h : l.map sourceText = l'.map sourceText) : l = l' := by
  have hboth := congrArg₂ zip hcut h
  rw [zip_map', zip_map'] at hboth
  refine map_injective_iff.2 (fun s s' heq => ?_) hboth
  obtain ⟨hcut, htext⟩ := Prod.mk.inj heq
  exact sourceText_inj hcut htext

/-! What a node's id is taken over. -/

def DerivationNode.preimage (n : DerivationNode) : Bytes :=
  nodeBytes n.branch n.commit n.key n.actor n.derivedFrom n.sources

def DerivationNode.Made (C : LoomCodec) (n : DerivationNode) : Prop :=
  ∃ branch commit key actor delegation intent parents sources,
    n = new C branch commit key actor delegation intent parents sources

theorem DerivationNode.Made.id_eq {C : LoomCodec} {n : DerivationNode} (h : n.Made C) : n.id = C.hash n.preimage := by
  obtain ⟨_, _, _, _, _, _, _, _, rfl⟩ := h
  rfl

/-- The lengths of the fields, as they are not in the preimage. -/
def DerivationNode.layout (n : DerivationNode) : Nat × Nat × Nat × Nat × List (Nat × Nat) :=
  ((utf8 n.branch).length, n.key.length, (utf8 n.actor).length, n.derivedFrom.length,
    n.sources.map (fun s => ((utf8 s.system).length, (utf8 s.recordId).length)))

/-- With the lengths of the fields beside it a preimage tells them. -/
theorem DerivationNode.preimage_inj {n n' : DerivationNode} (hlayout : n.layout = n'.layout)
    (h : n.preimage = n'.preimage) :
    n.branch = n'.branch ∧ n.commit = n'.commit ∧ n.key = n'.key ∧ n.actor = n'.actor ∧
      n.derivedFrom = n'.derivedFrom ∧ n.sources = n'.sources := by
  simp only [layout, Prod.mk.injEq] at hlayout
  obtain ⟨hbranch, hkey, hactor, hparents, hsources⟩ := hlayout
  simp only [preimage, nodeBytes, append_assoc] at h
  obtain ⟨hB, h⟩ := append_inj h hbranch
  obtain ⟨hC, h⟩ := append_inj h (by simp [digestBytes])
  obtain ⟨hK, h⟩ := append_inj h hkey
  obtain ⟨hA, h⟩ := append_inj h hactor
  obtain ⟨hP, hS⟩ := append_inj h (by simp [digestBytes, hparents])
  refine ⟨utf8_inj hB, digestBytes_inj hC, hK, utf8_inj hA, ?_, ?_⟩
  · have hdigests : n.derivedFrom.map digestBytes = n'.derivedFrom.map digestBytes :=
      eq_iff_flatten_eq.2 ⟨hP, by simp [Function.comp_def, digestBytes, map_const', hparents]⟩
    exact map_injective_iff.2 (fun _ _ => digestBytes_inj) hdigests
  · have hcut := congrArg (map Prod.fst) hsources
    have hlen := congrArg (map (fun c => c.1 + (utf8 ":").length + c.2)) hsources
    simp only [map_map, Function.comp_def] at hcut hlen
    refine sources_eq_of_texts hcut (eq_iff_flatten_eq.2 ⟨hS, ?_⟩)
    simpa only [map_map, Function.comp_def, sourceText, length_append] using hlen

/-- Envelopes that sign the same bytes are equal but for the signature exactly when they
    have one policy and their sources are cut alike; nodes with one id have the same
    content exactly when their fields have the same lengths. -/
theorem preimages_tell_content_iff (C : LoomCodec) :
    (∀ e e' : WriteEnvelope, (∀ n ∈ signedSizes e, n < 2 ^ 64) → (∀ n ∈ signedSizes e', n < 2 ^ 64) →
      signingBytes e = signingBytes e' →
      ({ e with signature := [] } = { e' with signature := [] } ↔ e.policy = e'.policy ∧
        e.derivedFrom.map (fun s => (utf8 s.system).length) = e'.derivedFrom.map (fun s => (utf8 s.system).length))) ∧
    ∀ n n' : DerivationNode, n.Made C → n'.Made C → Set.InjOn C.hash {n.preimage, n'.preimage} →
      n.id = n'.id →
      ((n.branch = n'.branch ∧ n.commit = n'.commit ∧ n.key = n'.key ∧ n.actor = n'.actor ∧
        n.derivedFrom = n'.derivedFrom ∧ n.sources = n'.sources) ↔ n.layout = n'.layout) := by
  refine ⟨fun e e' he he' h => ⟨fun heq => ?_, ?_⟩, fun n n' hn hn' hinj hid => ⟨?_, fun hlayout => ?_⟩⟩
  · simp only [WriteEnvelope.mk.injEq] at heq
    obtain ⟨-, -, -, -, -, hsources, -, hpolicy, -⟩ := heq
    exact ⟨hpolicy, by rw [hsources]⟩
  · rintro ⟨hpolicy, hcut⟩
    obtain ⟨⟨hactor, hsession, hbranch, hcontext, hintent, hdelegation⟩, htexts⟩ := signed_fields he he' h
    rw [hactor, hsession, hbranch, hcontext, hintent, hdelegation, hpolicy, sources_eq_of_texts hcut htexts]
  · rintro ⟨hbranch, -, hkey, hactor, hparents, hsources⟩
    rw [DerivationNode.layout, DerivationNode.layout, hbranch, hkey, hactor, hparents, hsources]
  · have hhash : C.hash n.preimage = C.hash n'.preimage := hn.id_eq.symm.trans (hid.trans hn'.id_eq)
    exact DerivationNode.preimage_inj hlayout (hinj (by simp) (by simp) hhash)

/-- Two envelopes with one policy and two nodes, told apart by nothing that is hashed. -/
theorem display_forms_collide :
    let e : WriteEnvelope := ⟨"a", "s", "main", 0, [], [⟨"crm", "x:1"⟩], "i", none, []⟩
    let e' : WriteEnvelope := { e with derivedFrom := [⟨"crm:x", "1"⟩] }
    signingBytes e = signingBytes e' ∧ e ≠ e' ∧
      ∀ C : LoomCodec, (DerivationNode.new C "main" 0 (utf8 "k1") "23" [] "i" [] []).id =
        (DerivationNode.new C "main" 0 (utf8 "k12") "3" [] "i" [] []).id := by
  refine ⟨by decide +kernel, by decide, fun C => congrArg C.hash ?_⟩
  decide +kernel

/-! Keys. -/

def branchSeq (branch : BranchId) (seq : Nat) : Bytes :=
  beBytes 2 (utf8 branch).length ++ utf8 branch ++ beBytes 8 seq

def nodeStorageKey (branch : BranchId) (seq : Nat) : Key := provPrefix ++ branchSeq branch seq

def sourceIndexPrefix (source : SourceRef) : Key := srcPrefix ++ sourceText source ++ utf8 "/"

def sourceIndexKey (source : SourceRef) (branch : BranchId) (seq : Nat) : Key :=
  sourceIndexPrefix source ++ branchSeq branch seq

/-- A reserved key: what it is for, then what it is of. -/
def reservedKey (kind : String) (rest : Bytes) : Key := reservedPrefix ++ utf8 kind ++ rest

def provSeqKey (branch : BranchId) : Key := reservedKey "provseq/" (utf8 branch)

def latestNodeKey (key : Key) : Key := reservedKey "latest/" key

def mergedFromKey (source : BranchId) : Key := reservedKey "merged-from/" (utf8 source)

def indexKey (key : Key) : Key := reservedKey "idx/" key

def annBufferKey (key : Key) : Key := reservedKey "annbuf/" key

def historyPrefix (subject predicate : String) : Key :=
  reservedKey "clmhist/" (utf8 subject ++ [0] ++ utf8 predicate ++ [0])

def versionKey (subject predicate : String) (seq : Nat) : Key := historyPrefix subject predicate ++ beBytes 8 seq

theorem isReserved_reservedKey (kind : String) (rest : Bytes) : isReserved (reservedKey kind rest) = true := by
  rw [isReserved, reservedKey, append_assoc, isPrefixOf_iff_prefix]
  exact prefix_append _ _

theorem isProvenance_nodeStorageKey (branch : BranchId) (seq : Nat) : isProvenance (nodeStorageKey branch seq) = true := by
  rw [isProvenance, Bool.or_eq_true, nodeStorageKey, isPrefixOf_iff_prefix]
  exact .inl (prefix_append _ _)

theorem isProvenance_sourceIndexKey (source : SourceRef) (branch : BranchId) (seq : Nat) :
    isProvenance (sourceIndexKey source branch seq) = true := by
  rw [isProvenance, Bool.or_eq_true, sourceIndexKey, sourceIndexPrefix]
  refine .inr ( isPrefixOf_iff_prefix.2 ?_)
  rw [append_assoc, append_assoc]
  exact prefix_append _ _

end Mutiny.Loom
