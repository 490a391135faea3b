import Mathlib.Order.Basic
import Mathlib.Data.Int.Order.Basic
import Mathlib.Order.Lattice

/- Signed 64-bit integers as a subtype of `Int`. A value carries its own range,
   so sums and products are taken in `Int` and brought back by `ofInt?`, which
   is `none` outside the range. The checked operations are `ofInt?` of the exact
   result, the saturating ones its nearest number in the range. `plainAdd` is the unchecked `+`: where overflow checks are compiled in
   it stops, elsewhere it wraps modulo 2^64. -/
namespace Mutiny.Lib

def InI64 (x : Int) : Prop := -9223372036854775808 ≤ x ∧ x ≤ 9223372036854775807

instance (x : Int) : Decidable (InI64 x) := inferInstanceAs (Decidable (_ ∧ _))

abbrev I64 := {x : Int // InI64 x}

def InI128 (x : Int) : Prop :=
  -170141183460469231731687303715884105728 ≤ x ∧ x ≤ 170141183460469231731687303715884105727

instance (x : Int) : Decidable (InI128 x) := inferInstanceAs (Decidable (_ ∧ _))

namespace I64

/-- A literal, its range checked by evaluation. -/
def lit (x : Int) (h : InI64 x := by decide) : I64 := ⟨x, h⟩

def zero : I64 := lit 0
def one : I64 := lit 1
def negOne : I64 := lit (-1)

@[simp] theorem zero_val : zero.val = 0 := rfl
@[simp] theorem one_val : one.val = 1 := rfl
@[simp] theorem negOne_val : negOne.val = -1 := rfl

/-- Narrowing with a range check (`i64::try_from`). -/
def ofInt? (x : Int) : Option I64 := if h : InI64 x then some ⟨x, h⟩ else none

theorem ofInt?_eq_some {x : Int} {y : I64} : ofInt? x = some y ↔ y.val = x := by
  unfold ofInt?
  split
  · next h =>
    constructor
    · intro e; cases e; rfl
    · intro e; subst e; rfl
  · next h =>
    constructor
    · intro e; cases e
    · intro e; exact absurd (e ▸ y.property) h

def checkedAdd (a b : I64) : Option I64 := ofInt? (a.val + b.val)
def checkedSub (a b : I64) : Option I64 := ofInt? (a.val - b.val)
def checkedMul (a b : I64) : Option I64 := ofInt? (a.val * b.val)

/-- Division truncates toward zero; `MIN / -1` does not fit. -/
def checkedDiv (a b : I64) : Option I64 := if b.val = 0 then none else ofInt? (a.val.tdiv b.val)

/-- The remainder takes the dividend's sign; it overflows where the quotient does. -/
def checkedRem (a b : I64) : Option I64 :=
  if b.val = 0 then none
  else if InI64 (a.val.tdiv b.val) then ofInt? (a.val.tmod b.val) else none

theorem checkedAdd_eq_some {a b c : I64} : checkedAdd a b = some c ↔ c.val = a.val + b.val :=
  ofInt?_eq_some

theorem checkedMul_eq_some {a b c : I64} : checkedMul a b = some c ↔ c.val = a.val * b.val :=
  ofInt?_eq_some

/-- Two's-complement wrap into the range. -/
def wrap (x : Int) : I64 :=
  ⟨(x + 9223372036854775808) % 18446744073709551616 - 9223372036854775808, by
    unfold InI64; omega⟩

theorem wrap_val {x : Int} (h : InI64 x) : (wrap x).val = x := by
  unfold InI64 at h
  show (x + 9223372036854775808) % 18446744073709551616 - 9223372036854775808 = x
  omega

theorem wrap_toNat {n : Nat} (h : n < 18446744073709551616) : ((wrap n).val % 18446744073709551616).toNat = n := by
  unfold wrap
  show ((((n : Int) + 9223372036854775808) % 18446744073709551616 - 9223372036854775808) % 18446744073709551616).toNat = n
  omega

def clamp (x : Int) : I64 :=
  ⟨max (-9223372036854775808) (min x 9223372036854775807), by unfold InI64; omega⟩

def saturatingAdd (a b : I64) : I64 := clamp (a.val + b.val)
def saturatingSub (a b : I64) : I64 := clamp (a.val - b.val)

theorem clamp_val {x : Int} (h : InI64 x) : (clamp x).val = x := by
  unfold InI64 at h
  show max (-9223372036854775808) (min x 9223372036854775807) = x
  omega

end I64

/-- Whether the build compiles overflow checks into the plain operators. -/
inductive Build where
  | checked
  | wrapping
  deriving DecidableEq, Repr

/-- Plain `+` on `i64`: `none` is the overflow panic of a checked build. -/
def I64.plainAdd (b : Build) (x y : I64) : Option I64 :=
  match b with
  | .checked => checkedAdd x y
  | .wrapping => some (wrap (x.val + y.val))

end Mutiny.Lib
