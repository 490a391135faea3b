import Mutiny.Lib.Framed
import Mutiny.Schweep.Batch

/- The log's records and their bytes (`schweep-log`: `record.rs`, `error.rs`).

   A payload is a tag and fixed-width big-endian numbers; strings are a length
   and their UTF-8 bytes, a float is its bits. A frame is the payload's length
   (its low 32 bits, as the cast in the source has it), a CRC-32 and the payload.
   `Record.reads` says that every payload reads back as its record, as long as
   the lengths in it fit their fields, and `recordFraming` that frames read back
   and cut frames read as the end of the segment.

   Offsets into a payload are `usize`; `take` reads past the end as short, which
   is also what the wrapped range of a hostile length gives. -/
namespace Mutiny.Schweep
open Mutiny.Lib

inductive LogError where
  | corrupt (what : String)
  | unknownTable (name : String)
  | zset (e : ZSetError)
  | tokenReused (sourceId token : String)
  | epochOutOfRange (requested sealed : Nat)

structure LogBatch where
  sourceId : String
  dedupToken : String
  table : String
  entries : Entries
  deriving DecidableEq

inductive Record where
  | append (batch : LogBatch)
  | sealEpoch (epoch : UInt64)
  deriving DecidableEq

/-! Writers. -/

def putU64 (n : Nat) : Bytes := beBytes 8 n

/-- `v as u64`: the two's-complement bits. -/
def putI64 (i : I64) : Bytes := putU64 (i.val % 2 ^ 64).toNat

def putStr (s : String) : Bytes := putU64 (utf8 s).length ++ utf8 s

def putValue : Value → Bytes
  | .null => [0]
  | .bool b => [1, if b then 1 else 0]
  | .int i => 2 :: putI64 i
  | .float f => 3 :: putU64 f.bits.toNat
  | .str s => 4 :: putStr s

def putEntry (e : Row × I64) : Bytes := putU64 e.1.length ++ e.1.flatMap putValue ++ putI64 e.2

/-- The record's payload bytes, without the frame. -/
def Record.encode : Record → Bytes
  | .append b => 1 :: (putStr b.sourceId ++ putStr b.dedupToken ++ putStr b.table ++
      putU64 b.entries.length ++ b.entries.flatMap putEntry)
  | .sealEpoch epoch => 2 :: putU64 epoch.toNat

/-! Readers. -/

def LogError.short : LogError := .corrupt "record payload is short"

def readU8 : Reader LogError Nat := do
  let bs ← takeBytes .short 1
  return beNat bs

def readU64 : Reader LogError Nat := do
  let bs ← takeBytes .short 8
  return beNat bs

/-- `as i64`: the number the two's-complement bits stand for. -/
def readI64 : Reader LogError I64 := do
  let n ← readU64
  return I64.wrap n

def readString : Reader LogError String := do
  let len ← readU64
  let bs ← takeBytes .short len
  match String.fromUTF8? ⟨bs.toArray⟩ with
  | some s => return s
  | none => throw (.corrupt "string is not UTF-8")

def readValue : Reader LogError Value := do
  match ← readU8 with
  | 0 => return .null
  | 1 => do
    let b ← readU8
    return .bool (b != 0)
  | 2 => do
    let i ← readI64
    return .int i
  | 3 => do
    let bits ← readU64
    return .float ⟨BitVec.ofNat 64 bits⟩
  | 4 => do
    let s ← readString
    return .str s
  | _ => throw (.corrupt "unknown value tag")

def readEntry : Reader LogError (Row × I64) := do
  let width ← readU64
  let values ← readMany readValue width
  let weight ← readI64
  return (values, weight)

def readRecord : Reader LogError Record := do
  match ← readU8 with
  | 1 => do
    let sourceId ← readString
    let dedupToken ← readString
    let table ← readString
    let count ← readU64
    let entries ← readMany readEntry count
    return .append ⟨sourceId, dedupToken, table, entries⟩
  | 2 => do
    let epoch ← readU64
    return .sealEpoch (UInt64.ofNat epoch)
  | _ => throw (.corrupt "unknown record tag")

/-- Bytes after the record are not looked at. -/
def Record.decode (payload : Bytes) : Except LogError Record := (readRecord payload).map Prod.fst

/-! Frames. -/

/-- One bit of the CRC's register. -/
def crcBit (crc : UInt32) : UInt32 := (crc >>> 1) ^^^ (if crc &&& 1 != 0 then 0xEDB88320 else 0)

def crcByte (crc : UInt32) (byte : UInt8) : UInt32 := crcBit^[8] (crc ^^^ byte.toUInt32)

/-- CRC-32 (IEEE). -/
def crc32 (bytes : Bytes) : UInt32 := ~~~(bytes.foldl crcByte 0xFFFFFFFF)

/-- FNV-1a over the payload. -/
def Record.contentHash (r : Record) : UInt64 :=
  r.encode.foldl (fun hash byte => (hash ^^^ byte.toUInt64) * 0x00000100000001B3) 0xcbf29ce484222325

def frame (payload : Bytes) : Bytes := checkedFrame .be (fun bs => (crc32 bs).toNat) payload

example : crc32 (utf8 "123456789") = 0xCBF43926 := by decide +kernel

/-! Payloads read back. -/

variable {r : Record}

theorem reads_u8 {b : UInt8} : Reads readU8 [b] b.toNat := by
  have h := (Reads.take LogError.short (n := 1) (show [b].length = 1 from rfl)).map beNat
  rwa [show beNat [b] = b.toNat by simp [beNat]] at h

theorem reads_u64 {n : Nat} (h : n < 2 ^ 64) : Reads readU64 (putU64 n) n := by
  have hr := (Reads.take LogError.short (length_beBytes 8 n)).map beNat
  rwa [beNat_beBytes, Nat.mod_eq_of_lt (h.trans_eq (by norm_num))] at hr

/-- A signed number is read back from its bits. -/
theorem wrap_emod (i : I64) : I64.wrap ((i.val % 2 ^ 64).toNat : Int) = i := by
  obtain ⟨x, hx⟩ := i
  apply Subtype.ext
  unfold InI64 at hx
  simp only [I64.wrap]
  omega

theorem reads_i64 (i : I64) : Reads readI64 (putI64 i) i := by
  have hlt : (i.val % 2 ^ 64).toNat < 2 ^ 64 := by omega
  have hr := (reads_u64 hlt).map (fun n => I64.wrap n)
  rwa [wrap_emod] at hr

theorem reads_string {s : String} (h : (utf8 s).length < 2 ^ 64) : Reads readString (putStr s) s := by
  refine (reads_u64 h).bind ?_
  intro rest
  show (takeBytes LogError.short (utf8 s).length (utf8 s ++ rest) >>= fun x => _) = _
  rw [Reads.take LogError.short rfl rest]
  simp only [ok_bind, fromUTF8_utf8]
  rfl

theorem putValue_pos (v : Value) : 0 < (putValue v).length := by
  cases v <;> simp [putValue]

theorem putEntry_pos (e : Row × I64) : 0 < (putEntry e).length := by
  simp [putEntry, putU64]

theorem reads_value {v : Value} (h : (putValue v).length < 2 ^ 64) : Reads readValue (putValue v) v := by
  cases v with
  | null => exact (reads_u8 (b := 0)).bind (Reads.pure Value.null)
  | bool b =>
    have hb : Reads readU8 [if b then 1 else 0] (if b then (1 : UInt8) else 0).toNat := reads_u8
    have hm := hb.map (fun n => Value.bool (n != 0))
    cases b with
    | false | true => exact (reads_u8 (b := 1)).bind hm
  | int i => exact (reads_u8 (b := 2)).bind ((reads_i64 i).map Value.int)
  | float f =>
    have hf : (⟨BitVec.ofNat 64 f.bits.toNat⟩ : F64) = f := by simp
    have hm := (reads_u64 f.bits.isLt).map (fun n => Value.float ⟨BitVec.ofNat 64 n⟩)
    rw [hf] at hm
    exact (reads_u8 (b := 3)).bind hm
  | str s =>
    have hs : (utf8 s).length < 2 ^ 64 := by
      simp only [putValue, putStr, List.length_cons, List.length_append] at h
      omega
    exact (reads_u8 (b := 4)).bind ((reads_string hs).map Value.str)

theorem reads_entry {e : Row × I64} (h : (putEntry e).length < 2 ^ 64) : Reads readEntry (putEntry e) e := by
  obtain ⟨row, weight⟩ := e
  have hlen : (row.flatMap putValue).length ≤ (putEntry (row, weight)).length := by
    simp only [putEntry, List.length_append]
    omega
  have hrow : row.length < 2 ^ 64 :=
    (length_le_length_flatMap (fun v _ => putValue_pos v)).trans_lt (hlen.trans_lt h)
  have hvalues : ∀ v ∈ row, Reads readValue (putValue v) v := fun v hv =>
    reads_value ((length_le_of_mem_flatMap hv).trans_lt (hlen.trans_lt h))
  rw [putEntry, List.append_assoc]
  refine (reads_u64 hrow).bind ?_
  refine (Reads.many hvalues).bind ?_
  exact (reads_i64 weight).map (fun w => (row, w))

theorem Record.reads (h : r.encode.length < 2 ^ 64) : Reads readRecord r.encode r := by
  cases r with
  | sealEpoch epoch =>
    have hm := (reads_u64 epoch.toNat_lt).map (fun n => Record.sealEpoch (UInt64.ofNat n))
    rw [UInt64.ofNat_toNat] at hm
    exact (reads_u8 (b := 2)).bind hm
  | append b =>
    obtain ⟨sourceId, dedupToken, table, entries⟩ := b
    simp only [Record.encode, putStr, List.length_cons, List.length_append] at h
    have hcount : entries.length < 2 ^ 64 :=
      (length_le_length_flatMap (fun e _ => putEntry_pos e)).trans_lt (by omega)
    have hentries : ∀ e ∈ entries, Reads readEntry (putEntry e) e := fun e he =>
      reads_entry ((length_le_of_mem_flatMap he).trans_lt (by omega))
    simp only [Record.encode, List.append_assoc]
    refine (reads_u8 (b := 1)).bind ?_
    refine (reads_string (s := sourceId) (by omega)).bind ?_
    refine (reads_string (s := dedupToken) (by omega)).bind ?_
    refine (reads_string (s := table) (by omega)).bind ?_
    refine (reads_u64 hcount).bind ?_
    exact (Reads.many hentries).map (fun entries => Record.append ⟨sourceId, dedupToken, table, entries⟩)

theorem Record.decode_encode (h : r.encode.length < 2 ^ 64) : Record.decode r.encode = .ok r := by
  rw [Record.decode, (Record.reads h).run]
  rfl

/-- The segment's frame format. A record fits when its length is below 4 GiB. -/
def recordFraming : Framing Record LogError :=
  Framing.checked .be (fun bs => (crc32 bs).toNat) (fun _ => true) (fun bs => (crc32 bs).toNat_lt)
    Record.encode (fun payload => (Record.decode payload).map some)

theorem recordFraming_fits : recordFraming.Fits r ↔ r.encode.length < 2 ^ 32 := by
  constructor
  · exact fun h => h.1
  · intro h
    refine ⟨h, rfl, ?_⟩
    show (Record.decode r.encode).map some = .ok (some r)
    rw [Record.decode_encode (by omega)]
    rfl

end Mutiny.Schweep
