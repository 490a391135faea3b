import Mutiny.Lib.Except
import Mutiny.Schweep.Plan

/- Expressions that bind evaluate without refusal.

   On a row that conforms to the schema, an expression of type `ty` evaluates to
   null, to a value of type `ty`, or to an evaluation error (`eval_sound`). The
   static rules and the evaluator are two separate recursions; the proof is one
   induction over the expression forms, with the branches of a CASE and its
   ELSE as two more statements beside it. -/
namespace Mutiny.Schweep
open Mutiny.Lib Value

/-- A value a column of type `ty` can hold, nullability aside. -/
def Value.Fits (v : Value) (ty : DataType) : Prop := v.dataType = none ∨ v.dataType = some ty

/-- A result whose value, if there is one, satisfies `P`, and whose error, if
    there is one, is a fact about the data. -/
def Sound {α : Type} (P : α → Prop) : Except PlanError α → Prop :=
  Sat P (fun e => e.isEvaluationError = true)

theorem Sound.bind {α β : Type} {P : α → Prop} {Q : β → Prop} {x : Except PlanError α}
    {f : α → Except PlanError β} (hx : Sound P x) (hf : ∀ a, P a → Sound Q (f a)) : Sound Q (x >>= f) :=
  Sat.bind hx (fun a _ => hf a)

theorem Sound.of_ok {α : Type} {P : α → Prop} {x : Except PlanError α} {a : α} (h : Sound P x)
    (hx : x = .ok a) : P a := Sat.of_ok h hx

theorem Sound.of_error {α : Type} {P : α → Prop} {x : Except PlanError α} {e : PlanError}
    (h : Sound P x) (hx : x = .error e) : e.isEvaluationError = true := by
  subst hx
  exact h

variable {f : Field}

/-- A column's value: what the schema says of the position the name resolves to. -/
theorem field_fits {s : Schema} {row : Row} (hrow : s.Conforms row) {index : Nat} (hf : s.field index = some f) :
    ∃ v, row[index]? = some v ∧ v.Fits f.dataType := by
  have hi : index < s.len := (List.getElem?_eq_some_iff.1 hf).1
  obtain ⟨v, hv, hc⟩ := (Schema.conforms_iff.1 hrow).2 index hi
  refine ⟨v, hv, ?_⟩
  simp only [Schema.checkValue, hf, Field.check] at hc
  split at hc
  · next hn => exact Or.inl hn
  · next ty hty =>
    split at hc
    · next heq => exact Or.inr (heq ▸ hty)
    · cases hc

variable {scope : Scope}

theorem resolve_ok {name : String} (h : scope.resolve name = .ok f) :
    ∃ index, scope.schema.indexOf name = some index ∧ scope.schema.field index = some f := by
  unfold Scope.resolve at h
  split at h
  · cases h
  · cases h
  · split at h
    · cases h
    · next index hi =>
      split at h
      · cases h
      · next g hg => cases h; exact ⟨index, hi, hg⟩

theorem orOverflow_sound (op : BinOp) (r : Option I64) :
    Sound (fun v => v.Fits .int64) ((orOverflow op r).map int) := by
  cases r with
  | none => rfl
  | some x => exact Or.inr rfl

theorem evalArithmetic_sound (op : BinOp) (a b : I64) :
    Sound (fun v => v.Fits .int64) ((evalArithmetic op a b).map int) := by
  unfold evalArithmetic
  cases op with
  | add | sub | mul => exact orOverflow_sound _ _
  | div | mod =>
    dsimp only
    split
    · rfl
    · exact orOverflow_sound _ _
  | _ => rfl

variable {op : BinOp}

theorem compareOp_isSome (h : op.isArithmetic = false) (o : Ordering) : ∃ b, compareOp op o = some b := by
  cases op <;> first | exact ⟨_, rfl⟩ | cases h

variable {lt rt ty : DataType}

theorem evalBinary_sound {l r : Value} (hl : l.Fits lt) (hr : r.Fits rt) (h : binaryType op lt rt = .ok ty) :
    Sound (fun v => v.Fits ty) (evalBinary op l r) := by
  unfold binaryType at h
  unfold evalBinary
  split
  · exact Or.inl rfl
  · next hnull =>
    split at h
    · next harith =>
      split at h
      · next hty =>
        cases h
        obtain ⟨rfl, rfl⟩ := hty
        rw [if_pos harith]
        -- two non-null values of type Int64 are two integers
        cases l <;> cases r <;>
          first
          | exact evalArithmetic_sound _ _ _
          | (exfalso; revert hl hr hnull; simp [Fits, dataType, isNull])
      · cases h
    · next harith =>
      split at h
      · cases h
        obtain ⟨b, hb⟩ := compareOp_isSome (by simpa using harith) (l.cmp r)
        rw [if_neg harith, hb]
        exact Or.inr rfl
      · cases h

theorem kleeneAnd_fits (a b : Option Bool) : (kleeneAnd a b).Fits .boolean := by
  rcases a with _ | _ | _ <;> rcases b with _ | _ | _ <;>
    simp [kleeneAnd, Fits, dataType]

theorem kleeneOr_fits (a b : Option Bool) : (kleeneOr a b).Fits .boolean := by
  rcases a with _ | _ | _ <;> rcases b with _ | _ | _ <;>
    simp [kleeneOr, Fits, dataType]

theorem logicType_ok {op : String} (h : logicType op lt rt = .ok ty) : ty = .boolean := by
  unfold logicType at h
  split at h
  · cases h; rfl
  · cases h

theorem literalType_fits {v : Value} (h : literalType v = .ok ty) : v.Fits ty := by
  cases v <;> simp only [literalType, reduceCtorEq, Except.ok.injEq] at h <;> subst h <;> exact Or.inr rfl

variable {branch : Option DataType}

theorem branchType_ok {out : DataType} (h : branchType branch ty = .ok out) :
    out = ty ∧ ∀ b, branch = some b → b = ty := by
  unfold branchType at h
  cases branch with
  | none => cases h; exact ⟨rfl, by simp⟩
  | some b =>
    dsimp only at h
    split at h
    · next hb => cases h; exact ⟨hb, by simpa using hb⟩
    · cases h

theorem typeOfWhens_cons {out : Option DataType} {condition result : Expr} {rest : List (Expr × Expr)}
    (h : typeOfWhens scope branch ((condition, result) :: rest) = .ok out) :
    ∃ rty, typeOf scope condition = .ok .boolean ∧ typeOf scope result = .ok rty ∧
      (∀ b, branch = some b → b = rty) ∧ typeOfWhens scope (some rty) rest = .ok out := by
  rw [typeOfWhens] at h
  obtain ⟨found, hc, h⟩ := bind_ok.1 h
  split at h
  · next hb =>
    subst hb
    obtain ⟨ty, hr, h⟩ := bind_ok.1 h
    obtain ⟨bty, hb, hrest⟩ := bind_ok.1 h
    obtain ⟨rfl, heq⟩ := branchType_ok hb
    exact ⟨bty, hc, hr, heq, hrest⟩
  · cases h

theorem typeOfWhens_branch : ∀ {whens : List (Expr × Expr)} {b ty : DataType},
    typeOfWhens scope (some b) whens = .ok (some ty) → b = ty
  | [], _, _, h => by rw [typeOfWhens] at h; cases h; rfl
  | (_, _) :: _, _, _, h => by
    obtain ⟨rty, _, _, hbr, hrest⟩ := typeOfWhens_cons h
    exact (hbr _ rfl).trans (typeOfWhens_branch hrest)

mutual

variable {scope : Scope} {row : Row}

theorem eval_sound (hrow : scope.schema.Conforms row) :
    ∀ (e : Expr) {ty : DataType}, typeOf scope e = .ok ty →
      Sound (fun v => v.Fits ty) (eval scope.schema row e)
  | .column name, ty, h => by
    rw [typeOf] at h
    obtain ⟨f, hf, h⟩ := bind_ok.1 h
    cases h
    obtain ⟨index, hi, hg⟩ := resolve_ok hf
    obtain ⟨v, hv, hfit⟩ := field_fits hrow hg
    rw [eval, hi, Option.bind_some, hv]
    exact hfit
  | .literal v, ty, h => by
    rw [typeOf] at h
    rw [eval]
    exact literalType_fits h
  | .null nty, ty, h => by
    rw [eval]
    exact Or.inl rfl
  | .binary op left right, ty, h => by
    rw [typeOf] at h
    obtain ⟨lt, hl, h⟩ := bind_ok.1 h
    obtain ⟨rt, hr, h⟩ := bind_ok.1 h
    rw [eval]
    refine (eval_sound hrow left hl).bind (fun l hlf => ?_)
    exact (eval_sound hrow right hr).bind (fun r hrf => evalBinary_sound hlf hrf h)
  | .not inner, ty, h => by
    rw [typeOf] at h
    obtain ⟨found, hi, h⟩ := bind_ok.1 h
    split at h
    · cases h
      rw [eval]
      refine (eval_sound hrow inner hi).bind (fun v _ => ?_)
      cases asBool v with
      | none => exact Or.inl rfl
      | some b => exact Or.inr rfl
    · cases h
  | .and left right, ty, h => by
    rw [typeOf] at h
    obtain ⟨lt, hl, h⟩ := bind_ok.1 h
    obtain ⟨rt, hr, h⟩ := bind_ok.1 h
    obtain rfl := logicType_ok h
    rw [eval]
    refine (eval_sound hrow left hl).bind (fun l _ => ?_)
    exact (eval_sound hrow right hr).bind (fun r _ => kleeneAnd_fits _ _)
  | .or left right, ty, h => by
    rw [typeOf] at h
    obtain ⟨lt, hl, h⟩ := bind_ok.1 h
    obtain ⟨rt, hr, h⟩ := bind_ok.1 h
    obtain rfl := logicType_ok h
    rw [eval]
    refine (eval_sound hrow left hl).bind (fun l _ => ?_)
    exact (eval_sound hrow right hr).bind (fun r _ => kleeneOr_fits _ _)
  | .isNull inner, ty, h => by
    rw [typeOf] at h
    obtain ⟨ity, hi, h⟩ := bind_ok.1 h
    cases h
    rw [eval]
    exact (eval_sound hrow inner hi).bind (fun v _ => Or.inr rfl)
  | .isNotNull inner, ty, h => by
    rw [typeOf] at h
    obtain ⟨ity, hi, h⟩ := bind_ok.1 h
    cases h
    rw [eval]
    exact (eval_sound hrow inner hi).bind (fun v _ => Or.inr rfl)
  | .case whens otherwise, ty, h => by
    rw [typeOf] at h
    obtain ⟨branch, hb, h⟩ := bind_ok.1 h
    cases branch with
    | none => cases h
    | some bty =>
      obtain ⟨rfl, helse⟩ := evalElse_sound hrow otherwise h
      rw [eval]
      refine (evalWhens_sound hrow whens hb).bind (fun r hr => ?_)
      cases r with
      | none => exact helse
      | some v => exact hr v rfl

theorem evalWhens_sound (hrow : scope.schema.Conforms row) :
    ∀ (whens : List (Expr × Expr)) {branch : Option DataType} {ty : DataType},
      typeOfWhens scope branch whens = .ok (some ty) →
      Sound (fun r => ∀ v, r = some v → v.Fits ty) (evalWhens scope.schema row whens)
  | [], _, _, _ => by rw [evalWhens]; intro v hv; cases hv
  | (condition, result) :: rest, branch, ty, h => by
    obtain ⟨rty, hc, hr, _, hrest⟩ := typeOfWhens_cons h
    rw [evalWhens]
    refine (eval_sound hrow condition hc).bind (fun v _ => ?_)
    split
    · obtain rfl := typeOfWhens_branch hrest
      refine (eval_sound hrow result hr).bind (fun r hrf => ?_)
      intro v hv
      cases hv
      exact hrf
    · exact evalWhens_sound hrow rest hrest

theorem evalElse_sound (hrow : scope.schema.Conforms row) :
    ∀ (otherwise : Option Expr) {branch ty : DataType},
      typeOfElse scope branch otherwise = .ok ty →
      branch = ty ∧ Sound (fun v => v.Fits ty) (evalElse scope.schema row otherwise)
  | none, _, _, h => by
    rw [typeOfElse] at h
    cases h
    rw [evalElse]
    exact ⟨rfl, Or.inl rfl⟩
  | some e, branch, ty, h => by
    rw [typeOfElse] at h
    obtain ⟨ety, he, h⟩ := bind_ok.1 h
    obtain ⟨rfl, hb⟩ := branchType_ok h
    rw [evalElse]
    exact ⟨hb branch rfl, eval_sound hrow e he⟩
end

theorem typed_expression_evaluates (scope : Scope) (row : Row) (e : Expr) (ty : DataType)
    (hrow : scope.schema.Conforms row) (hty : typeOf scope e = .ok ty) :
    (∃ v, eval scope.schema row e = .ok v ∧ (v.dataType = none ∨ v.dataType = some ty)) ∨
      ∃ err, eval scope.schema row e = .error err ∧ err.isEvaluationError = true := by
  have hsound := eval_sound hrow e hty
  cases hev : eval scope.schema row e with
  | ok v => exact .inl ⟨v, rfl, hsound.of_ok hev⟩
  | error err => exact .inr ⟨err, rfl, hsound.of_error hev⟩

theorem zero_by_zero_is_an_evaluation_error :
    let scope : Scope := ⟨⟨[⟨"x", .int64, false⟩], by decide, by decide⟩, .unqualified⟩
    let e : Expr := .binary .div (.column "x") (.column "x")
    ∃ err, eval scope.schema [.int I64.zero] e = .error err ∧ err.isEvaluationError = true := by
  intro scope e
  obtain ⟨v, hv, -⟩ | herr := typed_expression_evaluates scope [.int I64.zero] e .int64 (.cons rfl .nil) (by rfl)
  · cases hv
  · exact herr

end Mutiny.Schweep
