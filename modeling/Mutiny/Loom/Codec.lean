import Mutiny.Lib.Coding
import Mutiny.Loom.Session

/- An engine to run histories with.

   Its encodings write the fields of a node, an index entry or a claim's version
   one after the other and read back whatever they wrote (`LoomCodec.Lawful`,
   `plainCodec_lawful`). Its hash mixes every byte in; what is shown of all engines
   does not depend on it. -/
namespace Mutiny.Loom
open Mutiny.Lib Mutiny.Substrate Coding
open Mutiny.Schweep (F64)
open Mutiny.Bridge (SourceRef WriteEnvelope)

/-- Nodes, entries and versions read back. A version's number is a `u64`. -/
structure LoomCodec.Lawful (C : LoomCodec) : Prop where
  node : ∀ n, C.decodeNode (C.encodeNode n) = some n
  entry : ∀ e, C.decodeEntry (C.encodeEntry e) = some e
  version : ∀ v, v.seq < 2 ^ 64 → C.decodeVersion (C.encodeVersion v) = some v

/-! Codings. -/

def sourceCoding : Coding SourceRef :=
  (text.pair text).of (fun s => (s.system, s.recordId)) (fun (system, recordId) => some ⟨system, recordId⟩) (fun _ => rfl)

def nodeCoding : Coding DerivationNode :=
  (digest.pair <| text.pair <| digest.pair <| escaped.pair <| text.pair <| text.list.pair <| text.pair <|
      digest.list.pair sourceCoding.list).of
    (fun n => (n.id, n.branch, n.commit, n.key, n.actor, n.delegation, n.intent, n.derivedFrom, n.sources))
    (fun (id, branch, commit, key, actor, delegation, intent, derivedFrom, sources) =>
      some ⟨id, branch, commit, key, actor, delegation, intent, derivedFrom, sources⟩)
    (fun _ => rfl)

def floatCoding : Coding (BitVec 32) := bits 4 (by norm_num)

def flagCoding : Coding Bool := mark.of Bool.toNat (fun n => some (n != 0)) (fun b => by cases b <;> rfl)

def trustCoding : Coding TrustClass :=
  mark.of TrustClass.rank
    (fun
      | 0 => some .verifiedSystem
      | 1 => some .human
      | 2 => some .thirdParty
      | _ => some .untrusted)
    (fun t => by cases t <;> rfl)

def entryCoding : Coding IndexEntry :=
  (escaped.pair <| text.pair <| floatCoding.list.option.pair <| sourceCoding.list.pair <|
      flagCoding.pair trustCoding).of
    (fun e => (e.key, e.text, e.embedding, e.citations, e.stale, e.label))
    (fun (key, text, embedding, citations, stale, label) => some ⟨key, text, embedding, citations, stale, label⟩)
    (fun _ => rfl)

def intervalCoding : Coding Interval :=
  (u64.option.pair u64.option).of (fun i => (i.start, i.stop)) (fun (start, stop) => some ⟨start, stop⟩)
    (fun _ => rfl)

theorem eight_bytes : 256 ^ 8 = 2 ^ 64 := by norm_num

def doubleCoding : Coding F64 := (bits 8 eight_bytes).of F64.bits (fun b => some ⟨b⟩) (fun _ => rfl)

/-- A counter as the number above the least one. -/
def counterCoding : Coding I64 :=
  word 8 (fun n => (n.val + 2 ^ 63).toNat) (fun n => I64.wrap ((n : Int) - 2 ^ 63)) (fun n => by
    have hrange : InI64 n.val := n.property
    have hvalue : (((n.val + 2 ^ 63).toNat % 256 ^ 8 : Nat) : Int) - 2 ^ 63 = n.val := by
      unfold InI64 at hrange
      omega
    rw [hvalue]
    exact Subtype.ext (I64.wrap_val hrange))

/-- A value by its kind and the one of the other parts that it has. -/
def valueCoding : Coding Value :=
  (mark.pair <| escaped.list.pair <| counterCoding.pair <| text.pair doubleCoding).of
    (fun
      | .blob bytes => (0, [bytes], I64.zero, "", ⟨0⟩)
      | .counter n => (1, [], n, "", ⟨0⟩)
      | .set items => (2, items.sort (· ≤ ·), I64.zero, "", ⟨0⟩)
      | .bool b => (3 + b.toNat, [], I64.zero, "", ⟨0⟩)
      | .text s => (5, [], I64.zero, s, ⟨0⟩)
      | .number f => (6, [], I64.zero, "", f))
    (fun
      | (0, items, _) => some (.blob items.flatten)
      | (1, _, n, _) => some (.counter n)
      | (2, items, _) => some (.set items.toFinset)
      | (3, _) => some (.bool false)
      | (4, _) => some (.bool true)
      | (5, _, _, s, _) => some (.text s)
      | (_, _, _, _, f) => some (.number f))
    (fun v => by rcases v with _ | _ | _ | (_ | _) | _ | _ <;> simp)

def methodCoding : Coding Method :=
  mark.of Method.rank
    (fun
      | 0 => some .languageModel
      | 1 => some .imported
      | 2 => some .statistical
      | 3 => some .rule
      | 4 => some .human
      | _ => some .direct)
    (fun m => by cases m <;> rfl)

def statusCoding : Coding ClaimStatus :=
  mark.of
    (fun
      | .asserted => 0
      | .superseded => 1
      | .contradicted => 2
      | .stale => 3
      | .invalidated => 4
      | .expired => 5)
    (fun
      | 0 => some .asserted
      | 1 => some .superseded
      | 2 => some .contradicted
      | 3 => some .stale
      | 4 => some .invalidated
      | _ => some .expired)
    (fun s => by cases s <;> rfl)

def confidenceCoding : Coding Confidence :=
  (doubleCoding.pair <| methodCoding.pair text).of (fun c => (c.value, c.method, c.calibration))
    (fun (value, method, calibration) => some ⟨value, method, calibration⟩) (fun _ => rfl)

def claimCoding : Coding Claim :=
  (digest.pair <| text.pair <| text.pair <| valueCoding.pair <| intervalCoding.pair <| intervalCoding.pair <|
      confidenceCoding.pair <| sourceCoding.list.pair <| statusCoding.pair <| text.option.pair text).of
    (fun c => (c.id, c.predicate, c.subject, c.object, c.valid, c.known, c.confidence, c.evidence, c.status, c.policy,
      c.actor))
    (fun (id, predicate, subject, object, valid, known, confidence, evidence, status, policy, actor) =>
      some ⟨id, predicate, subject, object, valid, known, confidence, evidence, status, policy, actor⟩)
    (fun _ => rfl)

def versionCoding : Coding ClaimVersion :=
  (mark.pair claimCoding).of (fun v => (v.seq, v.claim)) (fun (seq, claim) => some ⟨claim, seq⟩) (fun _ => rfl)

/-! The engine. -/

def plainCodec : LoomCodec where
  hash bytes := Fin.ofNat (2 ^ 256) (bytes.foldl (fun h b => h * 257 + b.toNat + 1) 0)
  encodeNode := nodeCoding.put
  decodeNode := nodeCoding.decode
  encodeEntry := entryCoding.put
  decodeEntry := entryCoding.decode
  encodeVersion := versionCoding.put
  decodeVersion := versionCoding.decode
  encodeVector v := v.flatMap floatCoding.put

theorem plainCodec_lawful : plainCodec.Lawful where
  node n := by simp only [plainCodec, decode_put]
  entry e := by simp only [plainCodec, decode_put]
  version v _ := by simp only [plainCodec, decode_put]

/-- A leaf is as long as it has entries; pages hold many. -/
def plainSizing : Sizing Key Record where
  nodeLen
    | .leaf entries => entries.length
    | .internal keys _ => keys.length
  entryCost _ _ := 1
  limit := 64

/-- Every actor is known and a token is signed by its session's name. -/
def plainEngine : Engine where
  codec := plainCodec
  sizing := plainSizing
  pageSize := 64
  sign claims := utf8 claims.session
  authenticate _ := .ok ()

/-- A token for `main` and two more branches. -/
def mainToken : CapabilityToken := issue plainEngine "t" "s" ["a", "b", "main"] 100

/-- An envelope of the token's session that names these sources. -/
def citing (sources : List SourceRef) : WriteEnvelope := ⟨"u", "s", "main", 1, [], sources, "note", none, [0]⟩

end Mutiny.Loom
