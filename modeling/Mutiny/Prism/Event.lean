import Mathlib
import Mutiny.Lib.Bytes
import Mutiny.Schweep.Value

/- Events (`prism-types`: `event.rs`, `attributes.rs`, `limits.rs`).

   An event is what a producer sent; `validate` is the check that needs nothing
   but the event. `contentHash` is a digest of its fields one after another, without
   the identity, the arrival time and without marks between the fields.

   Correspondence (Rust ↔ Lean) where names differ:
     `Event::content_hash`     ↔ `Event.contentHash`, over `Event.contentBytes`
   An attribute map is the list of its entries in key order, a time a number of
   milliseconds. `Hashing` stands for the digests and for the decimal text of a
   double. -/
namespace Mutiny.Prism
open Mutiny.Lib

/-! Numbers. -/

abbrev F64 := Schweep.F64

/-- `f64::is_finite`: the exponent is not all ones. -/
def isFinite (f : F64) : Bool := f.bits.toNat / 2 ^ 52 % 2 ^ 11 ≠ 2 ^ 11 - 1

/-- `f < 0.0`, for a number that is finite: minus zero is not below zero. -/
def isNegative (f : F64) : Bool := 2 ^ 63 < f.bits.toNat

/-- An IEEE-754 single, as its bits. -/
structure F32 where
  bits : BitVec 32
  deriving DecidableEq, Repr

/-! Attributes. -/

inductive AttrValue where
  | str (s : String)
  | int (i : Int)
  | double (d : F64)
  | bool (b : Bool)
  deriving DecidableEq

abbrev Attributes := List (String × AttrValue)

def AttrValue.typeTag : AttrValue → UInt8
  | .str _ => 1
  | .int _ => 2
  | .double _ => 3
  | .bool _ => 4

def AttrValue.byteSize : AttrValue → Nat
  | .str s => s.utf8ByteSize
  | .int _ => 8
  | .double _ => 8
  | .bool _ => 1

/-- Digests, and the text of a double. -/
structure Hashing where
  /-- The truncated SHA-256 of some bytes, in hexadecimal. -/
  contentId : Bytes → String
  /-- The first four bytes of the SHA-256 of a tenant's name, as a number. -/
  bucketHash : String → Nat
  /-- `Display` of a double. -/
  display : F64 → String

def AttrValue.asDisplay (H : Hashing) : AttrValue → String
  | .str s => s
  | .int i => toString i
  | .double d => H.display d
  | .bool b => toString b

inductive RejectReason where
  | missingEventId
  | missingTenantId
  | emptyBody
  | bodyTooLarge
  | invalidCost
  | tooManyAttributeKeys
  | attributeKeyTooLong
  | attributeValueTooLong
  | attributesTooLarge
  | attributeKeyCardinalityExceeded
  | eventTimeTooLate
  | eventTimeInFuture
  | invalidIdentifier
  | idempotencyConflict
  | quotaExceeded
  | embeddingFailed
  | modelPolicyDenied
  deriving DecidableEq

def maxAttributeKeys : Nat := 64
def maxAttributeKeyBytes : Nat := 128
def maxAttributeValueBytes : Nat := 4 * 1024
def maxAttributesBytes : Nat := 16 * 1024
def maxAttributeKeyCardinality : Nat := 512
def maxBodyBytes : Nat := 1048576
def maxEventIdBytes : Nat := 256
def maxTenantIdBytes : Nat := 128
def maxEventNameBytes : Nat := 256
def maxTraceIdBytes : Nat := 128
def maxSpanIdBytes : Nat := 64
def maxIdempotencyKeyBytes : Nat := 256

def Attributes.byteSize (attrs : Attributes) : Nat :=
  (attrs.map (fun a => a.1.utf8ByteSize + a.2.byteSize)).sum

/-- The characters of a key that fit into its first 32 bytes. The source slices the bytes, and panics where that cuts
    a character; only keys that are refused anyway get here. -/
def keyFront (k : String) : String :=
  String.ofList ((k.toList.foldl (fun (acc : List Char × Nat) c =>
    if acc.2 + c.utf8Size ≤ 32 then (acc.1 ++ [c], acc.2 + c.utf8Size) else (acc.1, 33)) ([], 0)).1)

/-- One attribute against the per-value caps. -/
def Attributes.checkEntry (H : Hashing) (k : String) (v : AttrValue) : Except (RejectReason × String) Unit :=
  if k = "" then .error (.attributeKeyTooLong, "attribute key is empty")
  else if maxAttributeKeyBytes < k.utf8ByteSize then
    let front := keyFront k
    let bytes := k.utf8ByteSize
    .error (.attributeKeyTooLong, s!"attribute key `{front}…` is {bytes} bytes, limit is {maxAttributeKeyBytes}")
  else if maxAttributeValueBytes < v.byteSize then
    let bytes := v.byteSize
    .error (.attributeValueTooLong,
      s!"attribute `{k}` has a {bytes}-byte value, limit is {maxAttributeValueBytes}")
  else match v with
    | .double d =>
      if isFinite d then .ok ()
      else
        let shown := H.display d
        .error (.attributeValueTooLong, s!"attribute `{k}` is not a finite number: {shown}")
    | _ => .ok ()

def Attributes.validate (H : Hashing) (attrs : Attributes) : Except (RejectReason × String) Unit := do
  let keys := attrs.length
  if maxAttributeKeys < keys then
    throw (.tooManyAttributeKeys, s!"{keys} attribute keys, limit is {maxAttributeKeys}")
  attrs.forM (fun a => checkEntry H a.1 a.2)
  let total := attrs.byteSize
  if maxAttributesBytes < total then
    throw (.attributesTooLarge, s!"attributes total {total} bytes, limit is {maxAttributesBytes}")

/-! Events. -/

structure Event where
  eventId : String
  tenantId : String
  eventTime : Int
  observedTime : Int
  eventName : String
  cost : F64
  error : Bool
  body : String
  traceId : String
  spanId : String
  attributes : Attributes
  idempotencyKey : Option String
  deriving DecidableEq

/-- White space as `str::trim` takes it. -/
def isWhite (c : Char) : Bool :=
  (9 ≤ c.toNat && c.toNat ≤ 13) || c.toNat == 32 || c.toNat == 0x85 || c.toNat == 0xA0 || c.toNat == 0x1680 ||
    (0x2000 ≤ c.toNat && c.toNat ≤ 0x200A) || c.toNat == 0x2028 || c.toNat == 0x2029 || c.toNat == 0x202F ||
    c.toNat == 0x205F || c.toNat == 0x3000

def isBlank (s : String) : Bool := s.toList.all isWhite

namespace Event

def contentBytes (H : Hashing) (e : Event) : Bytes :=
  utf8 e.tenantId ++ leBytes 8 (e.eventTime % 2 ^ 64).toNat ++ utf8 e.eventName ++ leBytes 8 e.cost.bits.toNat ++
    [if e.error then 1 else 0] ++ utf8 e.body ++ utf8 e.traceId ++ utf8 e.spanId ++
    e.attributes.flatMap (fun a => utf8 a.1 ++ [a.2.typeTag] ++ utf8 (a.2.asDisplay H))

def contentHash (H : Hashing) (e : Event) : String := H.contentId (e.contentBytes H)

def checkIdentifier (field value : String) (max : Nat) (mayBeEmpty : Bool) : Except (RejectReason × String) Unit :=
  if (!mayBeEmpty && value = "") || max < value.utf8ByteSize then
    .error (.invalidIdentifier, s!"{field} must contain 1..={max} bytes")
  else .ok ()

/-- Everything that can be checked without knowing the store. -/
def validate (H : Hashing) (e : Event) : Except (RejectReason × String) Unit := do
  if e.eventId = "" then
    throw (.missingEventId, "event_id is empty")
  if e.tenantId = "" then
    throw (.missingTenantId, "tenant_id is empty")
  checkIdentifier "event_id" e.eventId maxEventIdBytes false
  checkIdentifier "tenant_id" e.tenantId maxTenantIdBytes false
  checkIdentifier "event_name" e.eventName maxEventNameBytes false
  checkIdentifier "trace_id" e.traceId maxTraceIdBytes true
  checkIdentifier "span_id" e.spanId maxSpanIdBytes true
  match e.idempotencyKey with
  | some key => checkIdentifier "idempotency_key" key maxIdempotencyKeyBytes false
  | none => pure ()
  let shown := H.display e.cost
  if !isFinite e.cost then
    throw (.invalidCost, s!"cost is not finite: {shown}")
  if isNegative e.cost then
    throw (.invalidCost, s!"cost is negative: {shown}")
  let bytes := e.body.utf8ByteSize
  if maxBodyBytes < bytes then
    throw (.bodyTooLarge, s!"body is {bytes} bytes, limit is {maxBodyBytes}")
  if isBlank e.body then
    throw (.emptyBody, "body is empty; it would produce a zero-norm embedding")
  e.attributes.validate H

end Event

/-- An event that was refused, for the dead-letter log. -/
structure DeadLetter where
  reason : RejectReason
  detail : String
  stage : String
  event : Event
  deriving DecidableEq

end Mutiny.Prism
