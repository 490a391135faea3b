import Mutiny.Schweep.Batch

/- The query IR, the binder and the scalar evaluator (`schweep-plan`).

   A query is FROM, WHERE, GROUP BY with HAVING, SELECT and DISTINCT, in that
   order. `bind` resolves every column and types every expression or refuses;
   `eval` is three-valued and shared by the oracle and the operators. Only the
   three evaluation errors are facts about data: they alone are rendered to a
   message, so `PlanError.message` spells out theirs and no other.

   Correspondence (Rust ↔ Lean): `bind` ↔ `bind`, `bind_source` ↔ `bindSource`,
   `type_of` ↔ `typeOf`, `eval` ↔ `eval`, `is_true` ↔ `isTrue`,
   `projection_schema` ↔ `projectionSchema`. -/
namespace Mutiny.Schweep
open Mutiny.Lib

inductive Source where
  | scan (table aliasName : String)
  | join (left right : Source) (on : List (String × String))
  deriving DecidableEq

/-- Every alias a source introduces, left to right. -/
def Source.aliases : Source → List String
  | .scan _ aliasName => [aliasName]
  | .join left right _ => left.aliases ++ right.aliases

inductive BinOp where
  | add | sub | mul | div | mod | eq | ne | lt | le | gt | ge
  deriving DecidableEq, Repr

def BinOp.name : BinOp → String
  | .add => "+"
  | .sub => "-"
  | .mul => "*"
  | .div => "/"
  | .mod => "%"
  | .eq => "="
  | .ne => "<>"
  | .lt => "<"
  | .le => "<="
  | .gt => ">"
  | .ge => ">="

def BinOp.isArithmetic : BinOp → Bool
  | .add | .sub | .mul | .div | .mod => true
  | _ => false

inductive Expr where
  | column (name : String)
  | literal (v : Value)
  | null (ty : DataType)
  | binary (op : BinOp) (left right : Expr)
  | not (inner : Expr)
  | and (left right : Expr)
  | or (left right : Expr)
  | isNull (inner : Expr)
  | isNotNull (inner : Expr)
  | case (whens : List (Expr × Expr)) (otherwise : Option Expr)

inductive AggFunc where
  | countStar
  | count (arg : Expr)
  | sum (arg : Expr)
  | min (arg : Expr)
  | max (arg : Expr)
  | avg (arg : Expr)

def AggFunc.name : AggFunc → String
  | .countStar => "COUNT(*)"
  | .count _ => "COUNT"
  | .sum _ => "SUM"
  | .min _ => "MIN"
  | .max _ => "MAX"
  | .avg _ => "AVG"

def AggFunc.argument : AggFunc → Option Expr
  | .countStar => none
  | .count e | .sum e | .min e | .max e | .avg e => some e

structure Named (α : Type) where
  name : String
  value : α

/-- Aggregates are numbered by position, and a vector's positions fit in `i64`. -/
structure GroupBy where
  keys : List (Named Expr)
  aggregates : List (Named AggFunc)
  having : Option Expr
  slots_lt : aggregates.length < 2 ^ 63 := by decide

structure Query where
  source : Source
  filter : Option Expr
  groupBy : Option GroupBy
  project : Option (List (Named Expr))
  distinct : Bool

inductive PlanError where
  | zset (e : ZSetError)
  | unknownTable (name : String)
  | notInDialect (construct : String)
  | duplicateAlias (name : String)
  | unqualifiedColumn (name : String)
  | qualifiedColumnAfterGroupBy (name : String)
  | unknownColumn (name : String) (scope : Schema)
  | duplicateOutputName (name : String)
  | untypedNullLiteral
  | typeMismatch (op : String) (left right : DataType)
  | unaryTypeMismatch (op : String) (found : DataType)
  | expectedBoolean (context : String) (found : DataType)
  | caseBranchTypeMismatch (expected found : DataType)
  | emptyCase
  | emptyGroupKeys
  | crossJoinNotSupported
  | aggregateTypeUnsupported (func : String) (ty : DataType)
  | arithmeticOverflow (op : String)
  | divisionByZero (op : String)
  | aggregateOverflow (func : String)
  deriving DecidableEq

/-- Errors that are facts about the data rather than about the query. -/
def PlanError.isEvaluationError : PlanError → Bool
  | .arithmeticOverflow _ | .divisionByZero _ | .aggregateOverflow _ => true
  | _ => false

/-- The text of an evaluation error. A refusal never reaches an error stream,
    so it has no text here. -/
def PlanError.message : PlanError → String
  | .arithmeticOverflow op => "arithmetic overflow in " ++ op ++ " (S-20)"
  | .divisionByZero op => "division by zero in " ++ op ++ " (S-21)"
  | .aggregateOverflow func => func ++ " overflowed the Int64 range (S-30)"
  | _ => ""

/-! Scalar evaluation. -/

def asBool : Value → Option Bool
  | .bool b => some b
  | _ => none

def kleeneAnd : Option Bool → Option Bool → Value
  | some false, _ => .bool false
  | _, some false => .bool false
  | some true, some true => .bool true
  | _, _ => .null

def kleeneOr : Option Bool → Option Bool → Value
  | some true, _ => .bool true
  | _, some true => .bool true
  | some false, some false => .bool false
  | _, _ => .null

def orOverflow (op : BinOp) : Option I64 → Except PlanError I64
  | some r => .ok r
  | none => .error (.arithmeticOverflow op.name)

/-- Checked integer arithmetic: nothing wraps, saturates or returns null. -/
def evalArithmetic (op : BinOp) (a b : I64) : Except PlanError I64 :=
  match op with
  | .add => orOverflow op (I64.checkedAdd a b)
  | .sub => orOverflow op (I64.checkedSub a b)
  | .mul => orOverflow op (I64.checkedMul a b)
  | .div => if b.val = 0 then .error (.divisionByZero op.name) else orOverflow op (I64.checkedDiv a b)
  | .mod => if b.val = 0 then .error (.divisionByZero op.name) else orOverflow op (I64.checkedRem a b)
  | _ => .error (.arithmeticOverflow op.name)

def compareOp (op : BinOp) (o : Ordering) : Option Bool :=
  match op with
  | .eq => some o.isEq
  | .ne => some o.isNe
  | .lt => some o.isLT
  | .le => some o.isLE
  | .gt => some o.isGT
  | .ge => some o.isGE
  | _ => none

/-- A null operand yields null before the operation is tried, so `NULL / 0` is
    null and not an error. -/
def evalBinary (op : BinOp) (l r : Value) : Except PlanError Value :=
  if l.isNull || r.isNull then .ok .null
  else if op.isArithmetic then
    match l, r with
    | .int a, .int b => (evalArithmetic op a b).map .int
    | _, _ => .error (.typeMismatch op.name (l.dataType.getD .int64) (r.dataType.getD .int64))
  else match compareOp op (l.cmp r) with
    | some b => .ok (.bool b)
    | none => .error (.arithmeticOverflow op.name)

mutual
/-- Both operands of AND and OR are always evaluated, so whether a row raises
    does not depend on evaluation order. -/
def eval (scope : Schema) (row : Row) : Expr → Except PlanError Value
  | .column name => match (scope.indexOf name).bind (row[·]?) with
    | none => .error (.unknownColumn name scope)
    | some v => .ok v
  | .literal v => .ok v
  | .null _ => .ok .null
  | .binary op left right => do
    let l ← eval scope row left
    let r ← eval scope row right
    evalBinary op l r
  | .not inner => do
    let v ← eval scope row inner
    return match asBool v with
      | none => .null
      | some b => .bool !b
  | .and left right => do
    let l ← eval scope row left
    let r ← eval scope row right
    return kleeneAnd (asBool l) (asBool r)
  | .or left right => do
    let l ← eval scope row left
    let r ← eval scope row right
    return kleeneOr (asBool l) (asBool r)
  | .isNull inner => do
    let v ← eval scope row inner
    return .bool v.isNull
  | .isNotNull inner => do
    let v ← eval scope row inner
    return .bool !v.isNull
  | .case whens otherwise => do
    let branch ← evalWhens scope row whens
    match branch with
    | some v => return v
    | none => evalElse scope row otherwise

/-- The first true condition selects its result, and only that result is
    evaluated; `none` when no condition is true. -/
def evalWhens (scope : Schema) (row : Row) : List (Expr × Expr) → Except PlanError (Option Value)
  | [] => .ok none
  | (condition, result) :: rest => do
    let v ← eval scope row condition
    if asBool v = some true then
      let r ← eval scope row result
      return some r
    else evalWhens scope row rest

def evalElse (scope : Schema) (row : Row) : Option Expr → Except PlanError Value
  | none => .ok .null
  | some e => eval scope row e
end

/-- WHERE and HAVING ask only whether a predicate is true. -/
def isTrue (scope : Schema) (row : Row) (predicate : Expr) : Except PlanError Bool := do
  let v ← eval scope row predicate
  return asBool v = some true

def filterRow (schema : Schema) (predicate : Expr) (row : Row) : Except PlanError (Option Row) := do
  let keep ← isTrue schema row predicate
  return if keep then some row else none

/-- Expressions in order, up to the first that raises. -/
def evalNamed (schema : Schema) (row : Row) : List (Named Expr) → Except PlanError (List Value)
  | [] => .ok []
  | item :: rest => do
    let v ← eval schema row item.value
    let values ← evalNamed schema row rest
    return v :: values

def projectRow (schema : Schema) (items : List (Named Expr)) (row : Row) : Except PlanError (Option Row) := do
  let values ← evalNamed schema row items
  return some values

/-! Binding. -/

abbrev Catalog := BTreeMap String Schema

/-- How columns are written: `alias.column` before a GROUP BY, the declared
    output names after one. -/
inductive Naming where
  | qualified
  | unqualified
  deriving DecidableEq, Repr

structure Scope where
  schema : Schema
  naming : Naming

def Scope.resolve (scope : Scope) (name : String) : Except PlanError Field :=
  match scope.naming, name.toList.contains '.' with
  | .qualified, false => .error (.unqualifiedColumn name)
  | .unqualified, true => .error (.qualifiedColumnAfterGroupBy name)
  | _, _ => match scope.schema.indexOf name with
    | none => .error (.unknownColumn name scope.schema)
    | some index => match scope.schema.field index with
      | none => .error (.unknownColumn name scope.schema)
      | some f => .ok f

def DataType.isComparable : DataType → Bool
  | .float64 => false
  | _ => true

def binaryType (op : BinOp) (lt rt : DataType) : Except PlanError DataType :=
  if op.isArithmetic then
    if lt = .int64 ∧ rt = .int64 then .ok .int64 else .error (.typeMismatch op.name lt rt)
  else if lt = rt ∧ lt.isComparable then .ok .boolean
  else .error (.typeMismatch op.name lt rt)

def logicType (op : String) (lt rt : DataType) : Except PlanError DataType :=
  if lt = .boolean ∧ rt = .boolean then .ok .boolean else .error (.typeMismatch op lt rt)

/-- A literal's type. A null carries no type, and floats are result-only. -/
def literalType : Value → Except PlanError DataType
  | .null => .error .untypedNullLiteral
  | .float _ => .error (.notInDialect "a FLOAT literal")
  | .int _ => .ok .int64
  | .str _ => .ok .utf8
  | .bool _ => .ok .boolean

/-- A CASE branch's type against the branches before it. -/
def branchType (branch : Option DataType) (ty : DataType) : Except PlanError DataType :=
  match branch with
  | none => .ok ty
  | some expected => if expected = ty then .ok expected else .error (.caseBranchTypeMismatch expected ty)

mutual
def typeOf (scope : Scope) : Expr → Except PlanError DataType
  | .column name => do
    let f ← scope.resolve name
    return f.dataType
  | .literal v => literalType v
  | .null ty => if ty = .float64 then .error (.notInDialect "a FLOAT null") else .ok ty
  | .binary op left right => do
    let lt ← typeOf scope left
    let rt ← typeOf scope right
    binaryType op lt rt
  | .not inner => do
    let found ← typeOf scope inner
    if found = .boolean then return .boolean else throw (.unaryTypeMismatch "NOT" found)
  | .and left right => do
    let lt ← typeOf scope left
    let rt ← typeOf scope right
    logicType "AND" lt rt
  | .or left right => do
    let lt ← typeOf scope left
    let rt ← typeOf scope right
    logicType "OR" lt rt
  | .isNull inner => do
    let _ ← typeOf scope inner
    return .boolean
  | .isNotNull inner => do
    let _ ← typeOf scope inner
    return .boolean
  | .case whens otherwise => do
    let branch ← typeOfWhens scope none whens
    match branch with
    | none => throw .emptyCase
    | some ty => typeOfElse scope ty otherwise

/-- Conditions are Boolean and all results have one type. -/
def typeOfWhens (scope : Scope) (branch : Option DataType) : List (Expr × Expr) → Except PlanError (Option DataType)
  | [] => .ok branch
  | (condition, result) :: rest => do
    let found ← typeOf scope condition
    if found = .boolean then
      let ty ← typeOf scope result
      let ty ← branchType branch ty
      typeOfWhens scope (some ty) rest
    else throw (.expectedBoolean "a CASE condition" found)

def typeOfElse (scope : Scope) (branch : DataType) : Option Expr → Except PlanError DataType
  | none => .ok branch
  | some e => do
    let ty ← typeOf scope e
    branchType (some branch) ty
end

def expectBoolean (scope : Scope) (context : String) (e : Expr) : Except PlanError Unit := do
  let found ← typeOf scope e
  if found = .boolean then return () else throw (.expectedBoolean context found)

def liftZSet {α : Type} : Except ZSetError α → Except PlanError α
  | .error e => .error (.zset e)
  | .ok a => .ok a

/-- An alias that also names an earlier scan. -/
def duplicateAlias (prior : List String) : List String → Option String
  | [] => none
  | a :: rest => if a ∈ prior then some a else duplicateAlias (a :: prior) rest

def checkAliasesUnique (source : Source) : Except PlanError Unit :=
  match duplicateAlias [] source.aliases with
  | some a => .error (.duplicateAlias a)
  | none => .ok ()

/-- A table's columns under `alias.column` names. -/
def qualify (aliasName : String) (fields : List Field) : List Field :=
  fields.map (fun f => { f with name := aliasName ++ "." ++ f.name })

/-- Each key pair names one column per side, of one type. -/
def checkJoinKeys (left right : Scope) : List (String × String) → Except PlanError Unit
  | [] => .ok ()
  | (l, r) :: rest => do
    let lf ← left.resolve l
    let rf ← right.resolve r
    if lf.dataType = rf.dataType then checkJoinKeys left right rest
    else throw (.typeMismatch "join key =" lf.dataType rf.dataType)

def bindSource (catalog : Catalog) : Source → Except PlanError Schema
  | .scan table aliasName => match catalog[table]? with
    | none => .error (.unknownTable table)
    | some schema => liftZSet (Schema.new (qualify aliasName schema.fields))
  | .join left right on =>
    if on = [] then .error .crossJoinNotSupported
    else do
      let ls ← bindSource catalog left
      let rs ← bindSource catalog right
      checkJoinKeys ⟨ls, .qualified⟩ ⟨rs, .qualified⟩ on
      liftZSet (Schema.new (ls.fields ++ rs.fields))

def outputField (name : String) (ty : DataType) : Field := ⟨name, ty, true⟩

def buildOutputSchema (fields : List Field) : Except PlanError Schema :=
  match duplicateName [] fields with
  | some name => .error (.duplicateOutputName name)
  | none => liftZSet (Schema.new fields)

/-- The declared fields of named items, typed in order. -/
def outputFields {α : Type} (ty : α → Except PlanError DataType) : List (Named α) → Except PlanError (List Field)
  | [] => .ok []
  | item :: rest => do
    let t ← ty item.value
    let fields ← outputFields ty rest
    return outputField item.name t :: fields

def projectionSchema (scope : Scope) (items : List (Named Expr)) : Except PlanError Schema := do
  let fields ← outputFields (typeOf scope) items
  buildOutputSchema fields

/-- COUNT takes any argument, SUM and AVG an integer, MIN and MAX what can be
    compared. AVG is the only source of a float. -/
def aggregateResultType (scope : Scope) (func : AggFunc) : Except PlanError DataType :=
  match func with
  | .countStar => .ok .int64
  | .count arg => do
    let _ ← typeOf scope arg
    return .int64
  | .sum arg => do
    let ty ← typeOf scope arg
    if ty = .int64 then return .int64 else throw (.aggregateTypeUnsupported func.name ty)
  | .avg arg => do
    let ty ← typeOf scope arg
    if ty = .int64 then return .float64 else throw (.aggregateTypeUnsupported func.name ty)
  | .min arg | .max arg => do
    let ty ← typeOf scope arg
    if ty.isComparable then return ty else throw (.aggregateTypeUnsupported func.name ty)

/-- Keys first, then aggregates. No keys is the grand total; no aggregates is refused. -/
def bindGroupBy (scope : Scope) (g : GroupBy) : Except PlanError Schema :=
  if g.aggregates.isEmpty then .error .emptyGroupKeys
  else do
    let keys ← outputFields (typeOf scope) g.keys
    let aggs ← outputFields (aggregateResultType scope) g.aggregates
    buildOutputSchema (keys ++ aggs)

/-- What binding proves of a query: the columns visible to WHERE and to group
    keys, those visible to HAVING and to the projection, and the answer's. -/
structure Bound where
  inputSchema : Schema
  groupedSchema : Schema
  outputSchema : Schema

def expectBooleanOpt (scope : Scope) (context : String) : Option Expr → Except PlanError Unit
  | none => .ok ()
  | some e => expectBoolean scope context e

/-- The naming in force after the GROUP BY stage. -/
def Query.groupedNaming (q : Query) : Naming := if q.groupBy.isSome then .unqualified else .qualified

def Query.bindGrouped (q : Query) (input : Schema) : Except PlanError Schema :=
  match q.groupBy with
  | none => .ok input
  | some g => bindGroupBy ⟨input, .qualified⟩ g

def Query.bindOutput (q : Query) (grouped : Schema) : Except PlanError Schema :=
  match q.project with
  | none => .ok grouped
  | some items => projectionSchema ⟨grouped, q.groupedNaming⟩ items

def bind (catalog : Catalog) (q : Query) : Except PlanError Bound := do
  checkAliasesUnique q.source
  let input ← bindSource catalog q.source
  expectBooleanOpt ⟨input, .qualified⟩ "WHERE" q.filter
  let grouped ← q.bindGrouped input
  expectBooleanOpt ⟨grouped, q.groupedNaming⟩ "HAVING" (q.groupBy.bind GroupBy.having)
  let output ← q.bindOutput grouped
  return ⟨input, grouped, output⟩

end Mutiny.Schweep
