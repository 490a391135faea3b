import Mutiny.Lib.OrderedCode
import Mutiny.Schweep.LogRecord
import Mutiny.Schweep.State

/- Keys as bytes (`schweep-state`: `codec.rs`).

   A tag in the rank order of values, then a body that says where it ends. Each
   body is an ordered code (`Lib/OrderedCode`): numbers of one width, and the
   escaped bytes of a string with a terminator that precedes every escape. So byte
   order is key order, byte prefixes are key prefixes, and keys read back
   (`codec_keeps_keys`). The snapshot format over it is left out.

   Correspondence (Rust ↔ Lean) where names differ:
     `StateError::Backend(text)`   ↔ `BackendError`
     an offset `at` into a key     ↔ the bytes from there on -/
namespace Mutiny.Schweep
open Mutiny.Lib List

structure BackendError where
  message : String
  deriving DecidableEq, Repr

def corrupt (what : String) : BackendError := ⟨"corrupt encoded key: " ++ what⟩

/-- `1 << 63`. -/
def signBit : BitVec 64 := 1 <<< 63

/-- The bits whose unsigned order is `total_cmp`. -/
def F64.ordered (f : F64) : BitVec 64 := if f.bits &&& signBit ≠ 0 then ~~~f.bits else f.bits ||| signBit

def F64.ofOrdered (ordered : BitVec 64) : F64 :=
  ⟨if ordered &&& signBit ≠ 0 then ordered &&& ~~~signBit else ~~~ordered⟩

/-- A literal NUL is escaped. -/
def escapeByte (b : UInt8) : Bytes := if b = 0 then [0, 0xFF] else [b]

def encodeValue : Value → Bytes
  | .null => [0]
  | .bool b => [1, if b then 1 else 0]
  | .int i => 2 :: beBytes 8 (BitVec.ofInt 64 i.val ^^^ signBit).toNat
  | .float f => 3 :: beBytes 8 f.ordered.toNat
  | .str s => 4 :: ((utf8 s).flatMap escapeByte ++ [0, 0])

def encodeKey (key : Key) : Bytes := key.flatMap encodeValue

/-! Decoding. -/

def byteAt (short : BackendError) : Reader BackendError UInt8
  | [] => .error short
  | b :: rest => .ok (b, rest)

/-- The loop over the bytes of a string. -/
def readText : Reader BackendError Bytes
  | [] => .error (corrupt "unterminated string")
  | [b] => .error (corrupt (if b = 0 then "short escape" else "unterminated string"))
  | b :: next :: rest =>
    if b = 0 then
      if next = 0 then .ok ([], rest)
      else if next = 0xFF then (readText rest).map (fun x => (0 :: x.1, x.2))
      else .error (corrupt "bad escape")
    else (readText (next :: rest)).map (fun x => (b :: x.1, x.2))

def eight : Reader BackendError (BitVec 64) := do
  let raw ← takeBytes (corrupt "short fixed-width value") 8
  return BitVec.ofNat 64 (beNat raw)

def decodeValue : Reader BackendError Value := do
  let tag ← byteAt (corrupt "missing tag")
  match tag.toNat with
  | 0 => return .null
  | 1 => do
    let b ← byteAt (corrupt "short bool")
    return .bool (b != 0)
  | 2 => do
    let raw ← eight
    return .int (I64.wrap (raw ^^^ signBit).toNat)
  | 3 => do
    let raw ← eight
    return .float (F64.ofOrdered raw)
  | 4 => do
    let text ← readText
    match String.fromUTF8? ⟨text.toArray⟩ with
    | some s => return .str s
    | none => throw (corrupt "string is not UTF-8")
  | other => throw (corrupt s!"unknown tag {other}")

/-- At most so many values: each takes its tag, so there are never more than bytes. -/
def decodeValues : Nat → Bytes → Except BackendError Key
  | 0, _ | _, [] => .ok []
  | n + 1, bytes => do
    let (v, rest) ← decodeValue bytes
    return v :: (← decodeValues n rest)

def decodeKey (bytes : Bytes) : Except BackendError Key := decodeValues bytes.length bytes

/-! The order of encodings. -/

theorem toNat_signBit : signBit.toNat = 2 ^ 63 := by decide

theorem two_pow_xor {n : Nat} (h : n < 2 ^ 63) : 2 ^ 63 ^^^ n = 2 ^ 63 + n := by
  apply Nat.eq_of_testBit_eq
  intro i
  rw [Nat.testBit_xor, Nat.testBit_two_pow]
  obtain hi | rfl | hi := lt_trichotomy i 63
  · rw [Nat.testBit_two_pow_add_gt hi]
    simp [hi.ne']
  · rw [Nat.testBit_two_pow_add_eq]
    simp
  · have hpow : 2 ^ 64 ≤ 2 ^ i := Nat.pow_le_pow_right (by omega) hi
    rw [Nat.testBit_lt_two_pow (by omega), Nat.testBit_lt_two_pow (x := 2 ^ 63 + n) (by omega)]
    simp [hi.ne]

/-- Flipping the sign bit moves the signed range onto the unsigned one. -/
theorem toNat_xor_signBit (i : I64) : ((BitVec.ofInt 64 i.val ^^^ signBit).toNat : Int) = i.val + 2 ^ 63 := by
  obtain ⟨x, hx⟩ := i
  unfold InI64 at hx
  rw [BitVec.toNat_xor, toNat_signBit, BitVec.toNat_ofInt, Nat.xor_comm]
  show ((2 ^ 63 ^^^ (x % (2 ^ 64 : Nat)).toNat : Nat) : Int) = x + 2 ^ 63
  obtain hneg | hpos := lt_or_ge x 0
  · have hbits : (x % (2 ^ 64 : Nat)).toNat = 2 ^ 63 + (x + 2 ^ 63).toNat := by omega
    rw [hbits, ← two_pow_xor (by omega), ← Nat.xor_assoc, Nat.xor_self, Nat.zero_xor]
    omega
  · have hbits : (x % (2 ^ 64 : Nat)).toNat = x.toNat := by omega
    rw [hbits, two_pow_xor (by omega)]
    omega

theorem and_signBit (b : BitVec 64) : b &&& signBit ≠ 0 ↔ 2 ^ 63 ≤ b.toNat := by
  have hb := b.isLt
  rw [Ne, ← BitVec.toNat_inj, BitVec.toNat_and, toNat_signBit, Nat.and_two_pow, Nat.testBit_eq_decide_div_mod_eq]
  simp
  omega

theorem F64.toNat_ordered (f : F64) : (f.ordered.toNat : Int) = f.totalKey + 2 ^ 63 := by
  have hf := f.bits.isLt
  unfold ordered totalKey
  split_ifs with hsign hlow hlow
  · have := (and_signBit _).1 hsign
    omega
  · rw [BitVec.toNat_not]
    omega
  · have hor := Nat.two_pow_add_eq_or_of_lt hlow 1
    rw [BitVec.toNat_or, toNat_signBit, Nat.or_comm, ← mul_one (2 ^ 63), ← hor]
    omega
  · exact absurd ((and_signBit _).2 (by omega)) hsign

theorem F64.ofOrdered_ordered (f : F64) : ofOrdered f.ordered = f := by
  have hf := f.bits.isLt
  have hkey := f.toNat_ordered
  unfold totalKey at hkey
  unfold ofOrdered
  congr 1
  split_ifs with hsign
  · have hlow := (and_signBit _).1 hsign
    have hmask : (~~~signBit).toNat = 2 ^ 63 - 1 := by decide
    apply BitVec.eq_of_toNat_eq
    rw [BitVec.toNat_and, hmask, Nat.and_two_pow_sub_one_eq_mod]
    split_ifs at hkey <;> omega
  · have hhigh := mt (and_signBit _).2 hsign
    apply BitVec.eq_of_toNat_eq
    rw [BitVec.toNat_not]
    split_ifs at hkey <;> omega

theorem orderedCode_escapeByte : OrderedCode escapeByte where
  precedes a b hab := by
    unfold escapeByte
    split_ifs with ha hb hb
    · exact absurd hab (by simp [ha, hb])
    · exact .head (ha ▸ hab) _ _
    · exact absurd hab (by simp [hb])
    · exact .head hab _ _
  ne_nil a := by
    unfold escapeByte
    split_ifs <;> simp

/-- A string ends below every byte that could follow. -/
theorem precedes_escapeByte (b : UInt8) : Precedes [0, 0] (escapeByte b) := by
  unfold escapeByte
  split_ifs with hb
  · exact .tail 0 (.head (by decide) _ _)
  · exact .head (UInt8.pos_iff_ne_zero.2 hb) _ _

theorem orderedCode_encodeValue : OrderedCode encodeValue where
  precedes a b hab := by
    have hkey : a.orderKey < b.orderKey := hab
    have hwide : ∀ {x y : BitVec 64} (tag : UInt8), (x.toNat : Int) < y.toNat →
        Precedes (tag :: beBytes 8 x.toNat) (tag :: beBytes 8 y.toNat) :=
      fun {x y} tag h => .tail tag (precedes_beBytes (by omega) y.isLt)
    cases a <;> cases b <;> simp [Value.orderKey, Prod.Lex.toLex_lt_toLex, -String.lt_iff_ltb] at hkey
    -- values of different kinds differ in the tag
    all_goals first | exact .head (by decide) _ _ | skip
    · next i j =>
      have hij : i.val < j.val := hkey
      apply hwide
      rw [toNat_xor_signBit, toNat_xor_signBit]
      omega
    · next s t =>
      have hbytes : utf8 s < utf8 t := by
        rw [utf8, utf8, toUTF8_eq_flatMap, toUTF8_eq_flatMap]
        exact orderedCode_utf8.strictMono (String.lt_iff_toList_lt.1 hkey)
      exact .tail 4 (orderedCode_escapeByte.precedes_stop precedes_escapeByte hbytes)
    · next b c =>
      cases b <;> cases c <;> simp at hkey
      exact .tail 1 (.head (by decide) _ _)
    · next f g =>
      apply hwide
      rw [F64.toNat_ordered, F64.toNat_ordered]
      omega
  ne_nil v := by cases v <;> simp [encodeValue]

/-! Keys read back. -/

theorem reads_byteAt (short : BackendError) (b : UInt8) : Reads (byteAt short) [b] b := fun _ => rfl

theorem reads_eight (b : BitVec 64) : Reads eight (beBytes 8 b.toNat) b := by
  have hr := (Reads.take (corrupt "short fixed-width value") (length_beBytes 8 b.toNat)).map
    (fun raw => BitVec.ofNat 64 (beNat raw))
  rwa [beNat_beBytes, Nat.mod_eq_of_lt (b.isLt.trans_eq (by norm_num)), BitVec.ofNat_toNat, BitVec.setWidth_eq] at hr

theorem reads_text (text : Bytes) : Reads readText (text.flatMap escapeByte ++ [0, 0]) text := by
  intro rest
  induction text with
  | nil => rfl
  | cons b text ih =>
    have hmore : ∃ next more, text.flatMap escapeByte ++ [0, 0] ++ rest = next :: more := by
      cases hword : text.flatMap escapeByte with
      | nil => exact ⟨0, 0 :: rest, rfl⟩
      | cons next more => exact ⟨next, more ++ [0, 0] ++ rest, rfl⟩
    obtain ⟨next, more, hnext⟩ := hmore
    rw [flatMap_cons, append_assoc, append_assoc, ← append_assoc _ _ rest, hnext]
    rw [hnext] at ih
    unfold escapeByte
    by_cases hb : b = 0
    · rw [if_pos hb]
      simp only [cons_append, nil_append, readText, ih]
      simp [hb, Except.map]
    · rw [if_neg hb]
      simp only [cons_append, nil_append, readText, if_neg hb, ih]
      rfl

theorem reads_decodeValue (v : Value) : Reads decodeValue (encodeValue v) v := by
  cases v with
  | null => exact (reads_byteAt _ 0).bind (Reads.pure Value.null)
  | bool b =>
    cases b with
    | false => exact (reads_byteAt _ 1).bind ((reads_byteAt _ 0).map (fun b => Value.bool (b != 0)))
    | true => exact (reads_byteAt _ 1).bind ((reads_byteAt _ 1).map (fun b => Value.bool (b != 0)))
  | int i =>
    have hm := (reads_eight (BitVec.ofInt 64 i.val ^^^ signBit)).map (fun raw => Value.int (I64.wrap (raw ^^^ signBit).toNat))
    have hi : I64.wrap (BitVec.ofInt 64 i.val ^^^ signBit ^^^ signBit).toNat = i := by
      rw [BitVec.xor_assoc, BitVec.xor_self, BitVec.xor_zero, BitVec.toNat_ofInt]
      exact wrap_emod i
    rw [hi] at hm
    exact (reads_byteAt _ 2).bind hm
  | float f =>
    have hm := (reads_eight f.ordered).map (fun raw => Value.float (F64.ofOrdered raw))
    rw [F64.ofOrdered_ordered] at hm
    exact (reads_byteAt _ 3).bind hm
  | str s =>
    refine (reads_byteAt _ 4).bind ?_
    intro rest
    show (readText ((utf8 s).flatMap escapeByte ++ [0, 0] ++ rest) >>= fun x => _) = _
    rw [reads_text (utf8 s) rest]
    simp only [ok_bind, fromUTF8_utf8]
    rfl

theorem decodeValues_encodeKey {n : Nat} {key : Key} (h : key.length ≤ n) : decodeValues n (encodeKey key) = .ok key := by
  induction key generalizing n with
  | nil => cases n <;> rfl
  | cons v key ih =>
    cases n with
    | zero => simp at h
    | succ n =>
      obtain ⟨b, word, hword⟩ := exists_cons_of_ne_nil (orderedCode_encodeValue.ne_nil v)
      have hread := reads_decodeValue v (encodeKey key)
      rw [hword, cons_append] at hread
      rw [encodeKey, flatMap_cons, hword, cons_append]
      simp only [decodeValues]
      rw [← encodeKey, hread]
      simp only [ok_bind, ih (Nat.le_of_succ_le_succ h)]
      rfl

theorem decodeKey_encodeKey (key : Key) : decodeKey (encodeKey key) = .ok key := by
  apply decodeValues_encodeKey
  exact length_le_length_flatMap (fun v _ => length_pos_of_ne_nil (orderedCode_encodeValue.ne_nil v))

/-- Byte order is key order, byte prefixes are key prefixes, and keys read back. -/
theorem codec_keeps_keys (a b : Key) :
    (encodeKey a < encodeKey b ↔ a < b) ∧ (encodeKey a <+: encodeKey b ↔ a <+: b) ∧ decodeKey (encodeKey a) = .ok a :=
  ⟨orderedCode_encodeValue.strictMono.lt_iff_lt, orderedCode_encodeValue.flatMap_prefix_iff, decodeKey_encodeKey a⟩

end Mutiny.Schweep
