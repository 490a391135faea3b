import Mathlib
import Mutiny.Lib.I64

/- Values, rows and schemas (`schweep-zset`: `value.rs`, `row.rs`, `schema.rs`).

   A `Float64` is its bit pattern: the code only orders floats (`total_cmp`),
   compares them by that order, and produces them by one division of two exact
   integers (`F64.ofRatio`). A `Schema` carries what `Schema::new` checks, so a
   schema with no column or two columns of one name cannot be built.

   Correspondence (Rust ↔ Lean) where names differ:
     `Ord for Value`         ↔ `Value.cmp`, which is `compare` of the instance
   `String` is ordered by code points, which is the byte order of UTF-8. -/
namespace Mutiny.Schweep
open Mutiny.Lib List

inductive DataType where
  | int64
  | utf8
  | boolean
  | float64
  deriving DecidableEq, Repr

/-- Whether a stored table column may have this type. -/
def DataType.isStorable : DataType → Bool
  | .float64 => false
  | _ => true

/-- An IEEE-754 double, as its bits. -/
structure F64 where
  bits : BitVec 64
  deriving DecidableEq, Repr

namespace F64

/-- The integer `f64::total_cmp` compares: the sign-magnitude bits as a signed
    integer with the magnitude of a negative number flipped. -/
def totalKey (f : F64) : Int :=
  if f.bits.toNat < 2 ^ 63 then f.bits.toNat else 2 ^ 63 - 1 - f.bits.toNat

theorem totalKey_injective : Function.Injective totalKey := by
  intro a b h
  have ha := a.bits.isLt
  have hb := b.bits.isLt
  have hn : a.bits.toNat = b.bits.toNat := by
    unfold totalKey at h
    split at h <;> split at h <;> omega
  cases a; cases b
  exact congrArg F64.mk (BitVec.eq_of_toNat_eq hn)

/-- A positive rational `num / den` to 53 significant bits, ties to even: the
    significand `q` and exponent `e` of the nearest `q * 2 ^ e`. The exponents
    met here are far from the subnormal and infinite ranges. -/
def round53 (num den : Nat) : Nat × Int :=
  let guess : Int := (num.log2 : Int) - (den.log2 : Int) - 52
  let scaled (e : Int) : Nat × Nat := (num * 2 ^ (-e).toNat, den * 2 ^ e.toNat)
  let e := if (scaled guess).1 / (scaled guess).2 < 2 ^ 52 then guess - 1 else guess
  let q := (scaled e).1 / (scaled e).2
  let r := (scaled e).1 % (scaled e).2
  let up := 2 * r > (scaled e).2 || (2 * r == (scaled e).2 && q % 2 == 1)
  (if up then q + 1 else q, e)

/-- The bits of `q * 2 ^ e` for `2 ^ 52 ≤ q ≤ 2 ^ 53`. -/
def encode (neg : Bool) (q : Nat) (e : Int) : F64 :=
  ⟨BitVec.ofInt 64 ((e + 52 + 1023) * 2 ^ 52 + ((q : Int) - 2 ^ 52) + (if neg then 2 ^ 63 else 0))⟩

/-- `sum as f64 / count as f64` for a positive count: each integer is rounded to
    a double, and the quotient of the two doubles is rounded once more. -/
def ofRatio (sum count : I64) : F64 :=
  if sum.val = 0 then ⟨0⟩
  else
    let a := round53 sum.val.natAbs 1
    let b := round53 count.val.natAbs 1
    let d := a.2 - b.2
    let q := round53 (a.1 * 2 ^ d.toNat) (b.1 * 2 ^ (-d).toNat)
    encode (sum.val < 0) q.1 q.2

end F64

inductive Value where
  | null
  | int (i : I64)
  | str (s : String)
  | bool (b : Bool)
  | float (f : F64)
  deriving DecidableEq

namespace Value

def dataType : Value → Option DataType
  | .null => none
  | .int _ => some .int64
  | .str _ => some .utf8
  | .bool _ => some .boolean
  | .float _ => some .float64

def isNull : Value → Bool
  | .null => true
  | _ => false

def typeRank : Value → Nat
  | .null => 0
  | .bool _ => 1
  | .int _ => 2
  | .float _ => 3
  | .str _ => 4

/-- The total order on values, as the source writes it. -/
def cmp : Value → Value → Ordering
  | .null, .null => .eq
  | .bool a, .bool b => compare a b
  | .int a, .int b => compare a.val b.val
  | .float a, .float b => compare a.totalKey b.totalKey
  | .str a, .str b => compare a b
  | a, b => compare a.typeRank b.typeRank

/-- Rank, then number, then text: the same order as one lexicographic key. -/
def orderKey : Value → ℕ ×ₗ ℤ ×ₗ String
  | .null => toLex (0, toLex (0, ""))
  | .bool b => toLex (1, toLex (if b then 1 else 0, ""))
  | .int i => toLex (2, toLex (i.val, ""))
  | .float f => toLex (3, toLex (f.totalKey, ""))
  | .str s => toLex (4, toLex (0, s))

theorem orderKey_injective : Function.Injective orderKey := by
  intro a b h
  cases a <;> cases b <;> simp [orderKey] at h <;> try rfl
  · exact congrArg Value.int (Subtype.ext h)
  · exact congrArg Value.str h
  · next b b' => cases b <;> cases b' <;> simp_all
  · exact congrArg Value.float (F64.totalKey_injective h)

instance : LinearOrder Value := LinearOrder.lift' orderKey orderKey_injective

theorem compare_toLex {α β : Type*} [Ord α] [Ord β] (a c : α) (b d : β) :
    compare (toLex (a, b)) (toLex (c, d)) = (compare a c).then (compare b d) := rfl

/-- The instance's order is the one the source writes out. -/
theorem cmp_eq_compare (a b : Value) : a.cmp b = compare a b := by
  have h : compare a b = compare a.orderKey b.orderKey := rfl
  rw [h]
  cases a <;> cases b <;>
    simp only [cmp, orderKey, typeRank, compare_toLex, Std.compare_self, Ordering.then_eq,
      Ordering.eq_then] <;> try rfl
  next a b => cases a <;> cases b <;> rfl

end Value

/-- One row: a value per schema column. Rows are ordered column by column. -/
abbrev Row := List Value

instance (priority := 2000) transCmpRow : Std.TransCmp (@compare Row LinearOrder.toOrd) := inferInstance

inductive ZSetError where
  | emptySchema
  | duplicateFieldName (name : String)
  | unknownColumn (name : String)
  | unstorableColumnType (name : String) (declared : DataType)
  | arityMismatch (expected found : Nat)
  | valueTypeMismatch (column : String) (expected found : DataType)
  | nullInNonNullable (column : String)
  | schemaMismatch
  | weightOverflow (whileDoing : String)
  deriving DecidableEq, Repr

structure Field where
  name : String
  dataType : DataType
  nullable : Bool
  deriving DecidableEq, Repr

/-- A value against one column: nullability for a null, the type otherwise. -/
def Field.check (f : Field) (v : Value) : Except ZSetError Unit :=
  match v.dataType with
  | none => if f.nullable then .ok () else .error (.nullInNonNullable f.name)
  | some actual =>
    if actual = f.dataType then .ok ()
    else .error (.valueTypeMismatch f.name f.dataType actual)

/-- The first column name that also names an earlier column. -/
def duplicateName (prior : List String) : List Field → Option String
  | [] => none
  | f :: rest => if f.name ∈ prior then some f.name else duplicateName (f.name :: prior) rest

theorem duplicateName_eq_none {prior : List String} {fields : List Field} :
    duplicateName prior fields = none ↔
      (fields.map Field.name).Nodup ∧ ∀ f ∈ fields, f.name ∉ prior := by
  induction fields generalizing prior with
  | nil => simp [duplicateName]
  | cons f rest ih =>
    simp only [duplicateName, map_cons, nodup_cons, mem_cons, forall_eq_or_imp]
    by_cases hf : f.name ∈ prior
    · simp [hf]
    · rw [if_neg hf, ih]
      constructor
      · rintro ⟨hnd, hout⟩
        refine ⟨⟨?_, hnd⟩, hf, fun g hg hp => hout g hg (mem_cons_of_mem _ hp)⟩
        intro hm
        obtain ⟨g, hg, hgf⟩ := mem_map.1 hm
        exact hout g hg (hgf ▸ mem_cons_self)
      · rintro ⟨⟨hnot, hnd⟩, _, hout⟩
        refine ⟨hnd, fun g hg hp => ?_⟩
        rcases mem_cons.1 hp with h | h
        · exact hnot (h ▸ mem_map_of_mem hg)
        · exact hout g hg h

/-- An ordered list of uniquely named columns, at least one. -/
structure Schema where
  fields : List Field
  nonempty : fields ≠ []
  nodup : (fields.map Field.name).Nodup

namespace Schema

theorem ext_fields {a b : Schema} (h : a.fields = b.fields) : a = b := by
  cases a; cases b; cases h; rfl

instance : DecidableEq Schema := fun a b =>
  decidable_of_iff (a.fields = b.fields) ⟨ext_fields, fun h => h ▸ rfl⟩

def new (fields : List Field) : Except ZSetError Schema :=
  if he : fields = [] then .error .emptySchema
  else match hd : duplicateName [] fields with
    | some name => .error (.duplicateFieldName name)
    | none => .ok ⟨fields, he, (duplicateName_eq_none.1 hd).1⟩

/-- A stored table's schema: a result-only column type is refused first. -/
def newTable (fields : List Field) : Except ZSetError Schema :=
  match fields.find? (fun f => !f.dataType.isStorable) with
  | some f => .error (.unstorableColumnType f.name f.dataType)
  | none => new fields

def len (s : Schema) : Nat := s.fields.length

def field (s : Schema) (index : Nat) : Option Field := s.fields[index]?

def indexOf (s : Schema) (name : String) : Option Nat := s.fields.findIdx? (fun f => f.name == name)

def checkValue (s : Schema) (index : Nat) (v : Value) : Except ZSetError Unit :=
  match s.field index with
  | none => .error (.arityMismatch s.len (index + 1))
  | some f => f.check v

/-- A row that fits the schema: as many values as columns, each accepted. -/
def Conforms (s : Schema) (row : Row) : Prop :=
  List.Forall₂ (fun f v => f.check v = .ok ()) s.fields row

end Schema
end Mutiny.Schweep
