import Mutiny.Bridge.Capture

/- What LoomDB stores (`loom-core`: `value.rs`, `time.rs`, `ids.rs`).

   Equality of records is the derived `PartialEq`, which compares doubles as
   numbers: a record that holds a NaN is not equal to itself, and the two zeros
   are equal. `Record.eq` is that relation; equality of Lean terms is equality of
   the stored bits.

   Correspondence (Rust ↔ Lean) where names differ:
     `PartialEq for Record`                      ↔ `Record.eq` -/
namespace Mutiny.Loom
open Mutiny.Lib Mutiny.Substrate
open Mutiny.Schweep (F64)
open Mutiny.Bridge (SourceRef)

abbrev Key := Bytes

/-! Doubles as numbers. -/

def isNaN (f : F64) : Bool := f.bits.toNat % 2 ^ 63 > 2047 * 2 ^ 52

/-- `==` on doubles. -/
def floatEq (a b : F64) : Bool :=
  !isNaN a && !isNaN b && (a == b || (a.bits.toNat % 2 ^ 63 == 0 && b.bits.toNat % 2 ^ 63 == 0))

theorem floatEq_self {f : F64} : floatEq f f = !isNaN f := by
  simp [floatEq]

/-- `(value * 1_000_000.0) as u64`: the product rounded to a double, then
    truncated; below zero and for a NaN it is 0, above the range the largest. -/
def millionths (f : F64) : Nat :=
  let magnitude := f.bits.toNat % 2 ^ 63
  let exponent := magnitude / 2 ^ 52
  -- subnormal numbers are far below one millionth
  if isNaN f || f.bits.toNat ≥ 2 ^ 63 || exponent == 0 then 0
  else if exponent == 2047 then 2 ^ 64 - 1
  else
    let q := (magnitude % 2 ^ 52 + 2 ^ 52) * 1000000
    let e := Int.ofNat exponent - 1075
    let p := F64.round53 (q * 2 ^ e.toNat) (2 ^ (-e).toNat)
    min (p.1 * 2 ^ p.2.toNat / 2 ^ (-p.2).toNat) (2 ^ 64 - 1)

example : millionths ⟨0x3FE999999999999A⟩ = 800000 := by decide +kernel

/-! Trust and time. -/

/-- How much a source is trusted, the least restrictive first. -/
inductive TrustClass where
  | verifiedSystem
  | human
  | thirdParty
  | untrusted
  deriving DecidableEq

def TrustClass.rank : TrustClass → Nat
  | .verifiedSystem => 0
  | .human => 1
  | .thirdParty => 2
  | .untrusted => 3

theorem TrustClass.rank_injective : Function.Injective TrustClass.rank := by
  intro a b h
  cases a <;> cases b <;> first | rfl | cases h

instance : LinearOrder TrustClass := LinearOrder.lift' TrustClass.rank TrustClass.rank_injective

def TrustClass.mostRestrictive (a b : TrustClass) : TrustClass := max a b

def TrustClass.leastRestrictive : TrustClass := .verifiedSystem

abbrev Timestamp := U64

/-- A half-open interval; an unknown end does not constrain. -/
structure Interval where
  start : Option Timestamp
  stop : Option Timestamp
  deriving DecidableEq

namespace Interval

def contains (i : Interval) (t : Timestamp) : Bool :=
  (match i.start with
    | some s => decide (s ≤ t)
    | none => true) &&
  (match i.stop with
    | some e => decide (t < e)
    | none => true)

/-- One starts before the other ends, as far as both are known. -/
def startsBefore (start stop : Option Timestamp) : Bool :=
  match start, stop with
  | some s, some e => decide (s < e)
  | _, _ => true

def overlaps (a b : Interval) : Bool := startsBefore a.start b.stop && startsBefore b.start a.stop

def closedAt (i : Interval) (t : Timestamp) : Interval := ⟨i.start, some t⟩

end Interval

/-! Records. -/

structure Observation where
  id : Digest
  source : SourceRef
  trust : TrustClass
  observedAt : Option Timestamp
  ingestedAt : Timestamp
  payload : Bytes
  deriving DecidableEq

inductive Method where
  | direct
  | rule
  | statistical
  | languageModel
  | human
  | imported
  deriving DecidableEq

def Method.rank : Method → Nat
  | .direct => 5
  | .human => 4
  | .rule => 3
  | .statistical => 2
  | .imported => 1
  | .languageModel => 0

structure Confidence where
  value : F64
  method : Method
  calibration : String
  deriving DecidableEq

inductive ClaimStatus where
  | asserted
  | superseded
  | contradicted
  | stale
  | invalidated
  | expired
  deriving DecidableEq

inductive Value where
  | blob (bytes : Bytes)
  | counter (n : I64)
  | set (items : Finset Bytes)
  | bool (b : Bool)
  | text (s : String)
  | number (f : F64)
  deriving DecidableEq

structure Claim where
  id : Digest
  predicate : String
  subject : String
  object : Value
  valid : Interval
  known : Interval
  confidence : Confidence
  evidence : List SourceRef
  status : ClaimStatus
  policy : Option String
  actor : String
  deriving DecidableEq

inductive Record where
  | observation (o : Observation)
  | claim (c : Claim)
  | value (v : Value)
  deriving DecidableEq

abbrev Entries := List (Key × Record)

def Record.blob? : Record → Option Bytes
  | .value (.blob bytes) => some bytes
  | _ => none

def Record.counter? : Record → Option I64
  | .value (.counter n) => some n
  | _ => none

/-- The method, then the confidence in millionths. -/
def Claim.provenanceRank (c : Claim) : Nat × Nat := (c.confidence.method.rank, millionths c.confidence.value)

/-! Equality as the source has it. -/

def Value.eq : Value → Value → Bool
  | .number a, .number b => floatEq a b
  | a, b => a == b

def Claim.eq (a b : Claim) : Bool :=
  a.object.eq b.object && floatEq a.confidence.value b.confidence.value &&
    { a with object := b.object, confidence := { a.confidence with value := b.confidence.value } } == b

def Record.eq : Record → Record → Bool
  | .claim a, .claim b => a.eq b
  | .value a, .value b => a.eq b
  | a, b => a == b

/-- `==` on optional records. -/
def recordEq : Option Record → Option Record → Bool
  | some a, some b => a.eq b
  | none, none => true
  | _, _ => false

/-- No double in the record is a NaN. -/
def Value.regular : Value → Bool
  | .number f => !isNaN f
  | _ => true

def Record.regular : Record → Bool
  | .claim c => c.object.regular && !isNaN c.confidence.value
  | .value v => v.regular
  | .observation _ => true

theorem Value.eq_self (v : Value) : v.eq v = v.regular := by
  cases v <;> simp [Value.eq, Value.regular, floatEq_self]

theorem Record.eq_self (r : Record) : r.eq r = r.regular := by
  cases r with
  | observation o => simp [Record.eq, Record.regular]
  | claim c => simp [Record.eq, Record.regular, Claim.eq, Value.eq_self, floatEq_self]
  | value v => simp [Record.eq, Record.regular, Value.eq_self]

/-! Reserved keys. -/

/-- `RESERVED_PREFIX`: `\0loom/`. -/
def reservedPrefix : Bytes := [0x00, 0x6c, 0x6f, 0x6f, 0x6d, 0x2f]

/-- `PROV_PREFIX`: `\1prov/`. -/
def provPrefix : Bytes := [0x01, 0x70, 0x72, 0x6f, 0x76, 0x2f]

/-- `SRC_PREFIX`: `\1src/`. -/
def srcPrefix : Bytes := [0x01, 0x73, 0x72, 0x63, 0x2f]

def isReserved (key : Key) : Bool := reservedPrefix.isPrefixOf key

def isProvenance (key : Key) : Bool := provPrefix.isPrefixOf key || srcPrefix.isPrefixOf key

end Mutiny.Loom
