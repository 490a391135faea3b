import Mutiny.Schweep.AggregateSpec

/- The value of an aggregate, from a multiset.

   An aggregate of a group is a function of the group's total weight and of the
   multiset of its argument's values (`AggFunc.valueOf`). The oracle reads that
   multiset member by member in arrival order (`evaluate_spec`); the aggregate
   operator reads it value by value in ascending order (`Aggregate.fold_spec`).
   Both arrive at the same value, because weights are positive and their sum is
   an `i64`: no partial count leaves the range, and no partial sum of `i64`
   values leaves `i128`. -/
namespace Mutiny.Schweep
open Mutiny.Lib ZSet Extremum AggFunc Aggregate List
open Finsupp (single)

/-- The integer in a value; zero where there is none. -/
def Value.intVal : Value → ℤ
  | .int i => i.val
  | _ => 0

/-- The number of values in a multiset. -/
noncomputable def mass (m : ZSet Value) : ℤ := ZSet.lin (fun _ => (1 : ℤ)) m

noncomputable def intSum (m : ZSet Value) : ℤ := ZSet.lin Value.intVal m

/-- Narrowing to `i64`, with the aggregate's overflow. -/
def AggFunc.narrow (func : AggFunc) (x : ℤ) : Except PlanError I64 :=
  orAggregateOverflow func.name (I64.ofInt? x)

/-- The least or the greatest value of a multiset; null when there is none. -/
noncomputable def Extremum.of (which : Extremum) (m : ZSet Value) : Value :=
  if h : m.support.Nonempty then
    match which with
    | .min => m.support.min' h
    | .max => m.support.max' h
  else .null

/-- An aggregate's value from the total weight of its group and the multiset of
    its argument's values. -/
noncomputable def AggFunc.valueOf (func : AggFunc) (total : ℤ) (m : ZSet Value) : Except PlanError Value :=
  match func with
  | .countStar => (func.narrow total).map .int
  | .count _ => (func.narrow (mass m)).map .int
  | .sum _ => if m = 0 then .ok .null else (func.narrow (intSum m)).map .int
  | .avg _ => if m = 0 then .ok .null else do
    let sum ← func.narrow (intSum m)
    let count ← func.narrow (mass m)
    return .float (F64.ofRatio sum count)
  | .min _ => .ok (Extremum.min.of m)
  | .max _ => .ok (Extremum.max.of m)

/-- SUM and AVG take integers. -/
def AggFunc.Takes (func : AggFunc) (v : Value) : Prop :=
  match func with
  | .sum _ | .avg _ => ∃ x, v = .int x
  | _ => True

/-! Multisets as lists of positive weights. -/

variable {l : List (Value × I64)} {v : Value}

/-- Values with positive weights that sum to an `i64`. -/
structure Counted (l : List (Value × I64)) : Prop where
  pos : ∀ e ∈ l, 0 < e.2.val
  total : InI64 (l.map (fun e => e.2.val)).sum

theorem mass_ofEntries (l : List (Value × I64)) : mass (ofEntries l) = (l.map (fun e => e.2.val)).sum := by
  rw [mass, lin_ofEntries]
  simp

theorem intSum_ofEntries (l : List (Value × I64)) :
    intSum (ofEntries l) = (l.map (fun e => e.2.val * e.1.intVal)).sum := by
  rw [intSum, lin_ofEntries]
  simp

theorem mem_support_ofEntries (h : ∀ e ∈ l, 0 < e.2.val) : v ∈ (ofEntries l).support ↔ ∃ e ∈ l, e.1 = v := by
  rw [Finsupp.mem_support_iff, ofEntries_ne_zero_iff h]

theorem ofEntries_eq_zero (h : ∀ e ∈ l, 0 < e.2.val) : ofEntries l = 0 ↔ l = [] := by
  constructor
  · intro hz
    cases l with
    | nil => rfl
    | cons e rest =>
      have := (mem_support_ofEntries h).2 ⟨e, mem_cons_self, rfl⟩
      rw [hz] at this
      simp at this
  · rintro rfl
    rfl

/-! Partial sums stay in range. -/

variable {w : I64}

theorem checkedAdd_of_le {a : I64} {rest : ℤ} (ha : 0 ≤ a.val) (hw : 0 < w.val) (hr : 0 ≤ rest)
    (ht : InI64 (a.val + (w.val + rest))) : ∃ c, I64.checkedAdd a w = some c ∧ c.val = a.val + w.val := by
  have hin : InI64 (a.val + w.val) := by
    unfold InI64 at ht ⊢
    omega
  exact ⟨⟨a.val + w.val, hin⟩, I64.checkedAdd_eq_some.2 rfl, rfl⟩

variable {α : Type}

theorem sum_nonneg_of_pos {l : List (α × I64)} (h : ∀ e ∈ l, 0 < e.2.val) : 0 ≤ (l.map (fun e => e.2.val)).sum := by
  apply sum_nonneg
  intro x hx
  obtain ⟨e, he, rfl⟩ := mem_map.1 hx
  exact (h e he).le

/-- A partial sum of `count` many `i64` values. -/
def Bounded (sum count : ℤ) : Prop := 0 ≤ count ∧ |sum| ≤ 9223372036854775808 * count

theorem Bounded.step {sum count : ℤ} (h : Bounded sum count) {x : I64} (hw : 0 < w.val)
    (ht : count + w.val ≤ 9223372036854775807) :
    Bounded (sum + w.val * x.val) (count + w.val) ∧ InI128 (w.val * x.val) ∧
      InI128 (sum + w.val * x.val) := by
  obtain ⟨hc, hs⟩ := h
  have hx : |x.val| ≤ 9223372036854775808 := by
    have := x.property
    unfold InI64 at this
    rw [abs_le]
    omega
  have hterm : |w.val * x.val| ≤ 9223372036854775808 * w.val := by
    rw [abs_mul, abs_of_pos hw, mul_comm]
    exact mul_le_mul_of_nonneg_right hx hw.le
  have hsum : |sum + w.val * x.val| ≤ 9223372036854775808 * (count + w.val) := by
    have := abs_add_le sum (w.val * x.val)
    linarith
  refine ⟨⟨by omega, hsum⟩, ?_, ?_⟩
  · rw [abs_le] at hterm
    unfold InI128
    omega
  · rw [abs_le] at hsum
    unfold InI128
    omega

/-! Extremes. -/

variable {which : Extremum}

/-- `a` is kept over `b`. -/
def Extremum.Le : Extremum → Value → Value → Prop
  | .min, a, b => a ≤ b
  | .max, a, b => b ≤ a

theorem Extremum.le_refl (which : Extremum) (a : Value) : which.Le a a := by
  cases which <;> exact le_rfl

theorem Extremum.le_trans {a b c : Value} (h : which.Le a b) (h' : which.Le b c) : which.Le a c := by
  cases which
  · exact h.trans h'
  · exact h'.trans h

theorem Extremum.better_some (which : Extremum) (b v : Value) :
    (which.better (some b) v = b ∨ which.better (some b) v = v) ∧
      which.Le (which.better (some b) v) b ∧ which.Le (which.better (some b) v) v := by
  cases which with
  | min | max =>
    simp only [better]
    split
    · next h => exact ⟨Or.inr rfl, h.le, le_rfl⟩
    · next h => exact ⟨Or.inl rfl, le_rfl, not_lt.1 h⟩

theorem Extremum.of_eq {m : ZSet Value} (hv : v ∈ m.support) (h : ∀ v' ∈ m.support, which.Le v v') :
    which.of m = v := by
  have hne : m.support.Nonempty := ⟨v, hv⟩
  rw [of, dif_pos hne]
  cases which with
  | min => exact le_antisymm (Finset.min'_le _ _ hv) (h _ (Finset.min'_mem _ _))
  | max => exact le_antisymm (h _ (Finset.max'_mem _ _)) (Finset.le_max' _ _ hv)

theorem Extremum.of_zero (which : Extremum) : which.of 0 = .null := by simp [of]

theorem Extremum.foldl_better (which : Extremum) (l : List (Value × I64)) (b : Value) :
    ∃ v, l.foldl (fun best e => some (which.better best e.1)) (some b) = some v ∧
      (v = b ∨ ∃ e ∈ l, e.1 = v) ∧ which.Le v b ∧ ∀ e ∈ l, which.Le v e.1 := by
  induction l generalizing b with
  | nil => exact ⟨b, rfl, Or.inl rfl, which.le_refl b, by simp⟩
  | cons e rest ih =>
    obtain ⟨hor, hb, he⟩ := which.better_some b e.1
    obtain ⟨v, hv, hmem, hle, hrest⟩ := ih (which.better (some b) e.1)
    refine ⟨v, hv, ?_, le_trans hle hb, ?_⟩
    · rcases hmem with rfl | ⟨x, hx, rfl⟩
      · rcases hor with h | h
        · exact Or.inl h
        · exact Or.inr ⟨e, mem_cons_self, h.symm⟩
      · exact Or.inr ⟨x, mem_cons_of_mem _ hx, rfl⟩
    · intro x hx
      rcases mem_cons.1 hx with rfl | hx
      · exact le_trans hle he
      · exact hrest x hx

theorem Extremum.foldl_eq_of (which : Extremum) (h : ∀ e ∈ l, 0 < e.2.val) :
    (l.foldl (fun best e => some (which.better best e.1)) none).getD .null = which.of (ofEntries l) := by
  cases l with
  | nil => exact which.of_zero.symm
  | cons e rest =>
    obtain ⟨v, hv, hmem, hle, hrest⟩ := which.foldl_better rest e.1
    have hall : ∀ x ∈ e :: rest, which.Le v x.1 := forall_mem_cons.2 ⟨hle, hrest⟩
    have hin : ∃ x ∈ e :: rest, x.1 = v := by
      rcases hmem with rfl | ⟨x, hx, rfl⟩
      · exact ⟨e, mem_cons_self, rfl⟩
      · exact ⟨x, mem_cons_of_mem _ hx, rfl⟩
    have hstep : (e :: rest).foldl (fun best e => some (which.better best e.1)) none = some v := hv
    rw [hstep, Option.getD_some, of_eq ((mem_support_ofEntries h).2 hin)]
    intro v' hv'
    obtain ⟨x, hx, rfl⟩ := (mem_support_ofEntries h).1 hv'
    exact hall x hx

/-! The oracle's passes over the members of a group. -/

variable {scope : Schema} {row : Row} {rest : Entries} {func : AggFunc} {members : Entries} {arg : Expr}

/-- The values the members put into an aggregate, in arrival order. -/
def inputsOf (scope : Schema) (func : AggFunc) (members : Entries) : List (Value × I64) :=
  members.filterMap (fun e => match Aggregate.slotInput scope e.1 func with
    | .ok (some v) => some (v, e.2)
    | _ => none)

noncomputable def rowInput (scope : Schema) (func : AggFunc) (row : Row) : ZSet Value :=
  match Aggregate.slotInput scope row func with
  | .ok (some v) => single v 1
  | _ => 0

theorem ofEntries_inputsOf (scope : Schema) (func : AggFunc) (members : Entries) :
    ofEntries (inputsOf scope func members) =
      lin (rowInput scope func) (ofEntries members) := by
  induction members with
  | nil => simp [inputsOf]
  | cons e rest ih =>
    unfold inputsOf at ih ⊢
    rw [filterMap_cons, ofEntries_cons, map_add, lin_single, rowInput]
    split
    · next hnone =>
      rw [ih]
      split
      · next v hv => rw [hv] at hnone; cases hnone
      · rw [smul_zero, zero_add]
    · next p hsome =>
      split at hsome
      · next v hv =>
        cases hsome
        simp [ih]
      · cases hsome

theorem inputsOf_mem {x : Value × I64} (h : x ∈ inputsOf scope func members) :
    ∃ e ∈ members, slotInput scope e.1 func = .ok (some x.1) ∧ e.2 = x.2 := by
  obtain ⟨e, he, hx⟩ := mem_filterMap.1 h
  split at hx
  · next v hv =>
    cases hx
    exact ⟨e, he, hv, rfl⟩
  · cases hx

theorem slotInput_ok {o : Option Value} (ha : func.argument = some arg)
    (h : slotInput scope row func = .ok o) :
    ∃ v, eval scope row arg = .ok v ∧ o = if v.isNull then none else some v := by
  simp only [slotInput, ha] at h
  obtain ⟨v, hv, h⟩ := bind_ok.1 h
  cases h
  exact ⟨v, hv, rfl⟩

theorem inputsOf_cons_none (h : slotInput scope row func = .ok none) :
    inputsOf scope func ((row, w) :: rest) = inputsOf scope func rest := by
  simp [inputsOf, h]

theorem inputsOf_cons_some (h : slotInput scope row func = .ok (some v)) :
    inputsOf scope func ((row, w) :: rest) = (v, w) :: inputsOf scope func rest := by
  simp [inputsOf, h]

theorem inputsOf_pos (hpos : ∀ e ∈ members, 0 < e.2.val) : ∀ x ∈ inputsOf scope func members, 0 < x.2.val := by
  intro x hx
  obtain ⟨e, he, _, hw⟩ := inputsOf_mem hx
  exact hw ▸ hpos e he

/-- A pass of the oracle over the members: one step for each value that is not null. -/
def pass {σ : Type} (arg : Expr) (scope : Schema) (step : σ → Value × I64 → Except PlanError σ) (acc : σ)
    (members : Entries) : Except PlanError σ :=
  members.foldlM (fun acc e => do
    let v ← eval scope e.1 arg
    if v.isNull then return acc else step acc (v, e.2)) acc

variable {scope : Schema} {σ : Type} {step : σ → Value × I64 → Except PlanError σ} {acc : σ}

/-- Where the argument evaluates on every member, a pass runs over the values put in. -/
theorem pass_eq_foldlM (ha : func.argument = some arg)
    (hok : ∀ e ∈ members, ∃ o, slotInput scope e.1 func = .ok o) :
    pass arg scope step acc members = (inputsOf scope func members).foldlM step acc := by
  induction members generalizing acc with
  | nil => rfl
  | cons e rest ih =>
    obtain ⟨row, w⟩ := e
    obtain ⟨⟨o, ho⟩, hokr⟩ := forall_mem_cons.1 hok
    obtain ⟨v, hv, rfl⟩ := slotInput_ok ha ho
    simp only [pass, foldlM_cons, hv, ok_bind]
    cases hn : v.isNull with
    | true =>
      rw [hn, if_pos rfl] at ho
      rw [inputsOf_cons_none ho]
      exact ih hokr
    | false =>
      rw [hn, if_neg (by simp)] at ho
      rw [inputsOf_cons_some ho, foldlM_cons]
      exact bind_congr fun _ => ih hokr

theorem pass_evaluates {r : σ} (h : pass arg scope step acc members = .ok r) :
    ∀ e ∈ members, ∃ v, eval scope e.1 arg = .ok v := by
  induction members generalizing acc with
  | nil => simp
  | cons e rest ih =>
    rw [pass, foldlM_cons] at h
    obtain ⟨acc', hstep, h⟩ := bind_ok.1 h
    obtain ⟨v, hv, -⟩ := bind_ok.1 hstep
    exact forall_mem_cons.2 ⟨⟨v, hv⟩, ih h⟩

theorem countWeights_eq_foldlM (name : String) (total : I64) (members : Entries) :
    countWeights name total members =
      members.foldlM (fun t e => orAggregateOverflow name (I64.checkedAdd t e.2)) total := by
  induction members generalizing total with
  | nil => rfl
  | cons e rest ih =>
    rw [countWeights, foldlM_cons]
    exact bind_congr ih

theorem countValues_eq_pass (name : String) (total : I64) (members : Entries) :
    countValues name arg scope total members =
      pass arg scope (fun t e => orAggregateOverflow name (I64.checkedAdd t e.2)) total members := by
  induction members generalizing total with
  | nil => rfl
  | cons e rest ih =>
    rw [countValues, pass, foldlM_cons, bind_assoc]
    refine bind_congr fun v => ?_
    split
    · exact ih total
    · exact bind_congr ih

/-- The step of SUM and AVG. -/
def SumCount.addValue (name : String) (acc : SumCount) (e : Value × I64) : Except PlanError SumCount :=
  match e.1 with
  | .int x => acc.add name x e.2
  | other => throw (.aggregateTypeUnsupported name (other.dataType.getD .int64))

theorem sumValues_eq_pass (name : String) (acc : SumCount) (members : Entries) :
    sumValues name arg scope acc members = pass arg scope (SumCount.addValue name) acc members := by
  induction members generalizing acc with
  | nil => rfl
  | cons e rest ih =>
    rw [sumValues, pass, foldlM_cons, bind_assoc]
    refine bind_congr fun v => ?_
    cases v with
    | null => exact ih acc
    | int x => exact bind_congr ih
    | _ => rfl

theorem extremum_eq_pass (which : Extremum) (best : Option Value) (hpos : ∀ e ∈ members, 0 < e.2.val) :
    extremum arg scope which best members =
      (pass arg scope (fun b e => .ok (some (which.better b e.1))) best members).map (·.getD .null) := by
  induction members generalizing best with
  | nil => rfl
  | cons e rest ih =>
    obtain ⟨(hw : 0 < e.2.val), hrest⟩ := forall_mem_cons.1 hpos
    have hw' : ¬ e.2.val < 1 := by omega
    rw [extremum, if_neg hw', pass, foldlM_cons]
    cases eval scope e.1 arg with
    | error err => rfl
    | ok v =>
      simp only [ok_bind]
      split
      · exact ih best hrest
      · exact ih _ hrest

/-! Passes over values whose weights add up. -/

section Passes

variable {ε : Type} {step : σ → Value × I64 → Except ε σ} {sum : σ → ℤ} {count : σ → I64} {any : σ → Bool}

theorem foldlM_counts {step : σ → α × I64 → Except ε σ} {l : List (α × I64)} (count : σ → I64)
    (hstep : ∀ acc e c, I64.checkedAdd (count acc) e.2 = some c → ∃ acc', step acc e = .ok acc' ∧ count acc' = c)
    (acc : σ) (h0 : 0 ≤ (count acc).val) (hpos : ∀ e ∈ l, 0 < e.2.val)
    (ht : InI64 ((count acc).val + (l.map (fun e => e.2.val)).sum)) :
    ∃ r, l.foldlM step acc = .ok r ∧ (count r).val = (count acc).val + (l.map (fun e => e.2.val)).sum := by
  induction l generalizing acc with
  | nil => exact ⟨acc, rfl, by simp⟩
  | cons e rest ih =>
    obtain ⟨hw, hrest⟩ := forall_mem_cons.1 hpos
    rw [map_cons, sum_cons] at ht ⊢
    obtain ⟨c, hc, hcv⟩ := checkedAdd_of_le h0 hw (sum_nonneg_of_pos hrest) ht
    obtain ⟨acc', hacc, rfl⟩ := hstep acc e c hc
    obtain ⟨r, hr, hrv⟩ := ih acc' (by omega) hrest (by rw [hcv, add_assoc]; exact ht)
    refine ⟨r, ?_, by rw [hrv, hcv, add_assoc]⟩
    rw [foldlM_cons, hacc, ok_bind, hr]

/-- A step that adds an integer with its weight to a sum and a count. -/
def Sums (step : σ → Value × I64 → Except ε σ) (sum : σ → ℤ) (count : σ → I64) (any : σ → Bool) : Prop :=
  ∀ acc x w c, InI128 (w.val * x.val) → InI128 (sum acc + w.val * x.val) →
    I64.checkedAdd (count acc) w = some c → ∃ acc', step acc (.int x, w) = .ok acc' ∧
      sum acc' = sum acc + w.val * x.val ∧ count acc' = c ∧ any acc' = true

theorem Sums.foldlM (hstep : Sums step sum count any) (hb : Bounded (sum acc) (count acc).val)
    (hpos : ∀ e ∈ l, 0 < e.2.val) (hint : ∀ e ∈ l, ∃ i, e.1 = .int i)
    (ht : InI64 ((count acc).val + (l.map (fun e => e.2.val)).sum)) :
    ∃ r, l.foldlM step acc = .ok r ∧ sum r = sum acc + (l.map (fun e => e.2.val * e.1.intVal)).sum ∧
      (count r).val = (count acc).val + (l.map (fun e => e.2.val)).sum ∧ any r = (any acc || !l.isEmpty) := by
  induction l generalizing acc with
  | nil => exact ⟨acc, rfl, by simp, by simp, by simp⟩
  | cons e rest ih =>
    obtain ⟨v, w⟩ := e
    obtain ⟨(hw : 0 < w.val), hrest⟩ := forall_mem_cons.1 hpos
    obtain ⟨⟨x, hx⟩, hintr⟩ := forall_mem_cons.1 hint
    cases hx
    have hr0 := sum_nonneg_of_pos hrest
    rw [map_cons, sum_cons] at ht
    obtain ⟨c, hc, hcv⟩ := checkedAdd_of_le hb.1 hw hr0 ht
    obtain ⟨hb', hterm, hsum⟩ := hb.step (x := x) hw (by unfold InI64 at ht; dsimp only at ht; omega)
    obtain ⟨acc', hacc, hs, rfl, hany⟩ := hstep acc x w c hterm hsum hc
    rw [← hs, ← hcv] at hb'
    obtain ⟨r, hr, hrs, hrc, hra⟩ := ih hb' hrest hintr (by rw [hcv, add_assoc]; exact ht)
    refine ⟨r, ?_, ?_, ?_, ?_⟩
    · rw [foldlM_cons, hacc, ok_bind, hr]
    · rw [hrs, hs]
      simp only [map_cons, sum_cons, Value.intVal, add_assoc]
    · rw [hrc, hcv]
      simp only [map_cons, sum_cons, add_assoc]
    · rw [hra, hany]
      simp

theorem Sums.run (hstep : Sums step sum count any) (hc : Counted l) (hint : ∀ e ∈ l, ∃ i, e.1 = .int i)
    (hsum : sum acc = 0) (hcount : count acc = I64.zero) (hany : any acc = false) :
    ∃ r, l.foldlM step acc = .ok r ∧ sum r = intSum (ofEntries l) ∧ (count r).val = mass (ofEntries l) ∧
      (any r = true ↔ ofEntries l ≠ 0) := by
  have hb : Bounded (sum acc) (count acc).val := by
    rw [hsum, hcount]
    exact ⟨le_rfl, by simp⟩
  obtain ⟨r, hr, hrs, hrc, hra⟩ := hstep.foldlM hb hc.pos hint (by rw [hcount]; simpa using hc.total)
  refine ⟨r, hr, ?_, ?_, ?_⟩
  · rw [hrs, hsum, intSum_ofEntries, zero_add]
  · rw [hrc, hcount, mass_ofEntries, I64.zero_val, zero_add]
  · rw [hra, hany, ne_eq, ofEntries_eq_zero hc.pos]
    simp

end Passes

theorem SumCount.addValue_sums (name : String) : Sums (addValue name) sum count any := by
  intro acc x w c hterm hsum hc
  refine ⟨⟨acc.sum + w.val * x.val, c, true⟩, ?_, rfl, rfl, rfl⟩
  simp [addValue, add, fitI128, orAggregateOverflow, hterm, hsum, hc]

theorem orAggregateOverflow_counts (name : String) (t : I64) (e : α × I64) (c : I64)
    (hc : I64.checkedAdd t e.2 = some c) : ∃ c', orAggregateOverflow name (I64.checkedAdd t e.2) = .ok c' ∧ c' = c :=
  ⟨c, by rw [hc]; rfl, rfl⟩

theorem inputsOf_counted (scope : Schema) (func : AggFunc) (hpos : ∀ e ∈ members, 0 < e.2.val)
    (ht : InI64 (members.map (fun e => e.2.val)).sum) :
    Counted (inputsOf scope func members) := by
  have hin : ∀ x ∈ inputsOf scope func members, 0 < x.2.val := inputsOf_pos hpos
  have hle : ((inputsOf scope func members).map (fun e => e.2.val)).sum ≤
      (members.map (fun e => e.2.val)).sum := by
    clear ht hin
    induction members with
    | nil => exact le_rfl
    | cons e rest ih =>
      obtain ⟨hw, hrest⟩ := forall_mem_cons.1 hpos
      have := ih hrest
      unfold inputsOf at this ⊢
      rw [filterMap_cons, map_cons, sum_cons]
      split
      · omega
      · next p hp =>
        split at hp
        · cases hp
          rw [map_cons, sum_cons]
          dsimp only
          omega
        · cases hp
  refine ⟨hin, ?_⟩
  have := sum_nonneg_of_pos hin
  unfold InI64 at ht ⊢
  omega

theorem AggFunc.narrow_val (func : AggFunc) {c : I64} {x : ℤ} (h : c.val = x) : func.narrow x = .ok c := by
  rw [narrow, I64.ofInt?_eq_some.2 h]
  rfl

/-- The oracle's value of an aggregate whose argument evaluates on every member. -/
theorem evaluate_spec (hpos : ∀ e ∈ members, 0 < e.2.val) (ht : InI64 (members.map (fun e => e.2.val)).sum)
    (hok : ∀ e ∈ members, ∃ o, slotInput scope e.1 func = .ok o)
    (htakes : ∀ x ∈ inputsOf scope func members, func.Takes x.1) :
    evaluate func members scope = func.valueOf (members.map (fun e => e.2.val)).sum
      (lin (rowInput scope func) (ofEntries members)) := by
  have hc := inputsOf_counted scope func hpos ht
  rw [← ofEntries_inputsOf]
  have hsum : ∀ {arg : Expr}, func.argument = some arg →
      (∀ x ∈ inputsOf scope func members, ∃ i, x.1 = .int i) →
      ∃ r, sumValues func.name arg scope ⟨0, I64.zero, false⟩ members = .ok r ∧
        r.sum = intSum (ofEntries (inputsOf scope func members)) ∧
        r.count.val = mass (ofEntries (inputsOf scope func members)) ∧
        (r.any = true ↔ ofEntries (inputsOf scope func members) ≠ 0) := by
    intro arg ha hint
    rw [sumValues_eq_pass, pass_eq_foldlM ha hok]
    exact (SumCount.addValue_sums func.name).run hc hint rfl rfl rfl
  cases func with
  | countStar =>
    obtain ⟨c, hcw, hcv⟩ := foldlM_counts id (orAggregateOverflow_counts countStar.name) I64.zero
      le_rfl hpos (by simpa using ht)
    rw [id, id, I64.zero_val, zero_add] at hcv
    simp only [evaluate, countWeights_eq_foldlM, hcw, valueOf, narrow_val _ hcv]
  | count arg =>
    obtain ⟨c, hcw, hcv⟩ := foldlM_counts id (orAggregateOverflow_counts (count arg).name) I64.zero
      le_rfl hc.pos (by simpa using hc.total)
    rw [id, id, I64.zero_val, zero_add, ← mass_ofEntries] at hcv
    rw [evaluate, countValues_eq_pass, pass_eq_foldlM rfl hok, hcw, valueOf, narrow_val _ hcv]
  | sum arg | avg arg =>
    obtain ⟨r, hr, hrs, hrc, hra⟩ := hsum rfl htakes
    simp only [evaluate, sumAndCount, hr, ok_bind, SumCount.finish, valueOf, narrow_val _ hrc, ← hrs]
    by_cases hany : r.any = true
    · rw [if_pos hany, if_neg (hra.1 hany), narrow]
      cases orAggregateOverflow _ (I64.ofInt? r.sum) <;> rfl
    · simp [hany, not_ne_iff.1 (mt hra.2 hany)]
  | min arg | max arg =>
    rw [evaluate, extremum_eq_pass _ _ hpos, pass_eq_foldlM rfl hok, valueOf, ← foldl_eq_of _ hc.pos]
    exact congrArg _ foldlM_pure
theorem evaluate_evaluates {r : Value} (hpos : ∀ e ∈ members, 0 < e.2.val) (h : evaluate func members scope = .ok r) :
    ∀ e ∈ members, ∃ o, slotInput scope e.1 func = .ok o := by
  have hslot : ∀ {arg : Expr}, func.argument = some arg →
      (∀ e ∈ members, ∃ v, eval scope e.1 arg = .ok v) →
      ∀ e ∈ members, ∃ o, slotInput scope e.1 func = .ok o := by
    intro arg ha hv e he
    obtain ⟨v, hv⟩ := hv e he
    simp [slotInput, ha, hv]
  unfold evaluate at h
  cases func with
  | countStar => exact fun e _ => ⟨none, rfl⟩
  | count arg =>
    obtain ⟨c, hc, _⟩ := map_ok.1 h
    rw [countValues_eq_pass] at hc
    exact hslot rfl (pass_evaluates hc)
  | sum arg | avg arg =>
    obtain ⟨r, hr, _⟩ := bind_ok.1 h
    obtain ⟨acc, hacc, _⟩ := bind_ok.1 hr
    rw [sumValues_eq_pass] at hacc
    exact hslot rfl (pass_evaluates hacc)
  | min arg | max arg =>
    dsimp only at h
    rw [extremum_eq_pass _ _ hpos] at h
    obtain ⟨best, hbest, _⟩ := map_ok.1 h
    exact hslot rfl (pass_evaluates hbest)

/-! The operator's pass over a group's multiset. -/

namespace Aggregate

/-- A slot's entries in the state: its values under the slot's key. -/
def slotEntries (keyPrefix : Key) (l : List (Value × I64)) : List (Key × I64) :=
  l.map (fun e => (keyPrefix ++ [e.1], e.2))

theorem getElem?_valueAt (keyPrefix : Key) (v : Value) : (keyPrefix ++ [v])[keyPrefix.length]? = some v := by
  simp

variable {l : List (Value × I64)}

/-- What one value does to the accumulators. -/
def visitStep (func : AggFunc) (acc : FoldAcc) (e : Value × I64) : Except OpError FoldAcc :=
  Prod.fst <$> visitValue func 0 acc [e.1] e.2

variable {func : AggFunc} {arg : Expr} {acc : FoldAcc}

theorem visit_eq_foldlM {keyPrefix : Key} (hf : func = .count arg ∨ func = .sum arg ∨ func = .avg arg) :
    visit func keyPrefix.length acc (slotEntries keyPrefix l) = l.foldlM (visitStep func) acc := by
  induction l generalizing acc with
  | nil => rfl
  | cons e rest ih =>
    have hstep : visitValue func keyPrefix.length acc (keyPrefix ++ [e.1]) e.2 =
        (fun acc => (acc, true)) <$> visitStep func acc e := by
      simp only [visitStep, visitValue, getElem?_valueAt, List.getElem?_cons_zero]
      rcases hf with rfl | rfl | rfl
      · simp
      all_goals cases e.1 <;> simp
    rw [slotEntries, map_cons, visit, hstep, foldlM_cons]
    cases visitStep func acc e with
    | error err => rfl
    | ok acc' => exact ih

theorem visitStep_counts (arg : Expr) (acc : FoldAcc) (e : Value × I64) (c : I64)
    (hc : I64.checkedAdd acc.count e.2 = some c) :
    ∃ acc', visitStep (.count arg) acc e = .ok acc' ∧ acc'.count = c :=
  ⟨{ acc with any := true, count := c }, by simp [visitStep, visitValue, overflow, hc], rfl⟩

theorem visitStep_sums (hf : func = .sum arg ∨ func = .avg arg) :
    Sums (visitStep func) FoldAcc.sum FoldAcc.count FoldAcc.any := by
  intro acc x w c hterm hsum hc
  refine ⟨{ acc with any := true, sum := acc.sum + w.val * x.val, count := c }, ?_, rfl, rfl, rfl⟩
  rcases hf with rfl | rfl <;> simp [visitStep, visitValue, overflow, fit, hterm, hsum, hc]

theorem visit_max (keyPrefix : Key) (arg : Expr) {b : Value} (hb : acc.extremum = some b)
    (hs : l.Pairwise (fun a c => a.1 < c.1)) (hlt : ∀ e ∈ l, b < e.1) :
    ∃ r v, visit (.max arg) keyPrefix.length acc (slotEntries keyPrefix l) = .ok r ∧
      r.extremum = some v ∧ (v = b ∨ ∃ e ∈ l, e.1 = v) ∧ b ≤ v ∧ ∀ e ∈ l, e.1 ≤ v := by
  induction l generalizing acc b with
  | nil => exact ⟨acc, b, rfl, hb, Or.inl rfl, le_rfl, by simp⟩
  | cons e rest ih =>
    obtain ⟨u, w⟩ := e
    obtain ⟨hu, hs'⟩ := pairwise_cons.1 hs
    obtain ⟨hbu, _⟩ := forall_mem_cons.1 hlt
    obtain ⟨r, v, hr, hrv, hmem, hle, hall⟩ :=
      @ih { acc with any := true, extremum := some u } u rfl hs' hu
    refine ⟨r, v, ?_, hrv, ?_, hbu.le.trans hle, forall_mem_cons.2 ⟨hle, hall⟩⟩
    · simp only [slotEntries, map_cons, visit, visitValue, getElem?_valueAt, ok_bind, if_true]
      exact hr
    · rcases hmem with rfl | ⟨x, hx, rfl⟩
      · exact Or.inr ⟨_, mem_cons_self, rfl⟩
      · exact Or.inr ⟨x, mem_cons_of_mem _ hx, rfl⟩

theorem overflow_eq (func : AggFunc) (o : Option α) : overflow func o = opPlan (orAggregateOverflow func.name o) := by
  cases o <;> rfl

/-- The operator's value of an aggregate, from the entries its slot holds. -/
theorem fold_spec {a : Aggregate} {slot : Nat} {g : List Value} (hl : IsCanonical l) (hc : Counted l)
    (hvisit : a.state.visitPrefix (valuesPrefix slot g) = slotEntries (valuesPrefix slot g) l)
    (htakes : ∀ e ∈ l, func.Takes e.1) :
    a.fold slot g func = opPlan (func.valueOf (a.total g).val (ofEntries l)) := by
  have hsum : ∀ arg : Expr, (func = .sum arg ∨ func = .avg arg) → (∀ e ∈ l, ∃ i, e.1 = .int i) →
      ∃ r, visit func (valuesPrefix slot g).length ⟨false, I64.zero, 0, none⟩
          (slotEntries (valuesPrefix slot g) l) = .ok r ∧ r.sum = intSum (ofEntries l) ∧
        r.count.val = mass (ofEntries l) ∧ (r.any = true ↔ ofEntries l ≠ 0) := by
    intro arg hf hint
    rw [visit_eq_foldlM (.inr hf)]
    exact (visitStep_sums hf).run hc hint rfl rfl rfl
  unfold fold
  dsimp only
  rw [hvisit]
  cases func with
  | countStar =>
    rw [valueOf, narrow_val _ rfl]
    rfl
  | count arg =>
    obtain ⟨r, hr, hrv⟩ := foldlM_counts FoldAcc.count (visitStep_counts arg) ⟨false, I64.zero, 0, none⟩ le_rfl hc.pos
      (by simpa using hc.total)
    rw [I64.zero_val, zero_add, ← mass_ofEntries] at hrv
    rw [visit_eq_foldlM (.inl rfl), hr, ok_bind, valueOf, narrow_val _ hrv]
    rfl
  | sum arg | avg arg =>
    obtain ⟨r, hr, hrs, hrc, hra⟩ := hsum arg (by simp) htakes
    simp only [hr, ok_bind, overflow_eq, valueOf, ← hrs, narrow_val _ hrc]
    by_cases hany : r.any = true
    · rw [if_pos hany, if_neg (hra.1 hany), narrow]
      cases orAggregateOverflow _ (I64.ofInt? r.sum) <;> rfl
    · simp [hany, not_ne_iff.1 (mt hra.2 hany), opPlan]
  | min arg =>
    cases l with
    | nil => simp [slotEntries, visit, valueOf, of_zero, opPlan]
    | cons e rest =>
      -- the scan is ascending, so the first value is the least
      have hmin : min.of (ofEntries (e :: rest)) = e.1 := by
        refine of_eq ((mem_support_ofEntries hc.pos).2 ⟨e, mem_cons_self, rfl⟩) (fun v hv => ?_)
        obtain ⟨x, hx, rfl⟩ := (mem_support_ofEntries hc.pos).1 hv
        rcases mem_cons.1 hx with rfl | hx
        · exact min.le_refl _
        · exact ((pairwise_cons.1 hl.sorted).1 x hx).le
      simp only [slotEntries, map_cons, visit, visitValue, getElem?_valueAt, ok_bind, pure_eq_ok,
        Bool.false_eq_true, if_false, valueOf, hmin]
      rfl
  | max arg =>
    cases l with
    | nil => simp [slotEntries, visit, valueOf, of_zero, opPlan]
    | cons e rest =>
      obtain ⟨hlt, hs⟩ := pairwise_cons.1 hl.sorted
      obtain ⟨r, v, hr, hrv, hmem, hle, hall⟩ := visit_max (valuesPrefix slot g) arg
        (rfl : (FoldAcc.mk true I64.zero 0 (some e.1)).extremum = some e.1) hs hlt
      have hmax : max.of (ofEntries (e :: rest)) = v := by
        refine of_eq ((mem_support_ofEntries hc.pos).2 ?_) (fun v' hv' => ?_)
        · rcases hmem with rfl | ⟨x, hx, rfl⟩
          · exact ⟨e, mem_cons_self, rfl⟩
          · exact ⟨x, mem_cons_of_mem _ hx, rfl⟩
        · obtain ⟨x, hx, rfl⟩ := (mem_support_ofEntries hc.pos).1 hv'
          rcases mem_cons.1 hx with rfl | hx
          · exact hle
          · exact hall x hx
      have hvis : visit (.max arg) (valuesPrefix slot g).length ⟨false, I64.zero, 0, none⟩
          (slotEntries (valuesPrefix slot g) (e :: rest)) = .ok r := by
        simp only [slotEntries, map_cons, visit, visitValue, getElem?_valueAt, ok_bind, if_true]
        exact hr
      simp only [hvis, ok_bind, hrv, valueOf, hmax]
      rfl

end Aggregate
end Mutiny.Schweep
