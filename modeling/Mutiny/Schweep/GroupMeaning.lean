import Mutiny.Schweep.GroupValue

/- What an aggregate means, as a function of its accumulated input.

   A group is the part of the input whose keys evaluate to it, and its row is
   read off the multisets of that part (`Aggregate.groupMeaning`). The state the
   operator keeps is those multisets under one key space, and the operator's
   emission of a group is the group's meaning (`Aggregate.groupStreams_eq`), so
   what it has emitted is a function of what it was fed (`Aggregate.Tracks.meaning_eq`). -/
namespace Mutiny.Schweep
open Mutiny.Lib ZSet List Finsupp
open Finsupp (single)

/-- The total weight of some rows. -/
noncomputable def rowsTotal (z : ZSet Row) : ℤ := ZSet.lin (fun _ => (1 : ℤ)) z

/-- A group's aggregates in order, up to the first that overflows. -/
noncomputable def valuesOf (schema : Schema) (rows : ZSet Row) : List (Named AggFunc) → Except PlanError (List Value)
  | [] => .ok []
  | agg :: rest => do
    let v ← agg.value.valueOf (rowsTotal rows) (ZSet.lin (rowInput schema agg.value) rows)
    let values ← valuesOf schema rows rest
    return v :: values

namespace Aggregate

open Classical in
noncomputable def groupRows (a : Aggregate) (z : ZSet Row) (g : List Value) : ZSet Row :=
  z.filter (fun row => evalNamed a.inputSchema row a.keys = .ok g)

/-- A group with keys exists while it has rows; the grand total always does. -/
def Exists (a : Aggregate) (z : ZSet Row) (g : List Value) : Prop :=
  g.length = a.keys.length ∧ (a.isGrandTotal = true ∨ 0 < rowsTotal (a.groupRows z g))

open Classical in
noncomputable def groupMeaning (a : Aggregate) (z : ZSet Row) (g : List Value) : Streams :=
  if a.Exists z g then
    match valuesOf a.inputSchema (a.groupRows z g) a.aggregates with
    | .ok values => (single (g ++ values) 1, 0)
    | .error e => (0, single (errorRow e) 1)
  else 0

/-- What the whole input contributes: its rows' errors, and its groups. -/
noncomputable def meaning (a : Aggregate) (z : ZSet Row) : Streams :=
  (0, ZSet.lin a.rowErrors z) + ∑ᶠ g, a.groupMeaning z g

/-- Every value an aggregate reads is one it takes. -/
def Typed (a : Aggregate) (z : ZSet Row) : Prop :=
  ∀ row, z row ≠ 0 → ∀ agg ∈ a.aggregates, ∀ v,
    slotInput a.inputSchema row agg.value = .ok (some v) → agg.value.Takes v

/-! The key space of the state. -/

variable {g : List Value} {aggs : List (Named AggFunc)} {slot : Nat} {agg : Named AggFunc}

theorem slotValue_injective {s t : Nat} (hs : s < 2 ^ 63) (ht : t < 2 ^ 63)
    (h : slotValue s = slotValue t) : s = t := by
  have hv := congrArg Subtype.val (Value.int.inj h)
  rw [I64.wrap_val (by unfold InI64; omega), I64.wrap_val (by unfold InI64; omega)] at hv
  omega

theorem valueKey_eq_iff {s t : Nat} (hs : s < 2 ^ 63) (ht : t < 2 ^ 63) {g' : List Value} {v v' : Value} :
    valueKey s g v = valueKey t g' v' ↔ s = t ∧ g = g' ∧ v = v' := by
  constructor
  · intro h
    obtain ⟨hp, hv⟩ := append_inj' h rfl
    obtain ⟨_, hp⟩ := List.cons.inj hp
    obtain ⟨hslot, hg⟩ := List.cons.inj hp
    exact ⟨slotValue_injective hs ht hslot, hg, by simpa using hv⟩
  · rintro ⟨rfl, rfl, rfl⟩
    rfl

section

variable (schema : Schema) (row : Row)
include schema row

theorem slotState_totalKey (group g : List Value) (slot : Nat)
    (aggs : List (Named AggFunc)) : slotState schema row group slot aggs (totalKey g) = 0 := by
  induction aggs generalizing slot with
  | nil => rfl
  | cons agg rest ih =>
    rw [slotState, Finsupp.add_apply, ih, add_zero]
    split
    · exact single_eq_of_ne (fun h => absurd (List.cons.inj h).1 (by simp))
    · rfl

theorem slotState_below (group g : List Value) (v : Value) {at' : Nat}
    (hlt : slot < at') (hb : at' + aggs.length < 2 ^ 63) :
    slotState schema row group at' aggs (valueKey slot g v) = 0 := by
  induction aggs generalizing at' with
  | nil => rfl
  | cons agg rest ih =>
    rw [length_cons] at hb
    rw [slotState, Finsupp.add_apply, ih (by omega) (by omega), add_zero]
    split
    · refine single_eq_of_ne (fun h => ?_)
      have := ((valueKey_eq_iff (by omega) (by omega)).1 h).1
      omega
    · rfl

theorem slotState_valueKey (g : List Value) (v : Value) {k start : Nat}
    (hk : aggs[k]? = some agg) (hb : start + aggs.length < 2 ^ 63) :
    slotState schema row g start aggs (valueKey (start + k) g v) = rowInput schema agg.value row v := by
  induction aggs generalizing k start with
  | nil => cases hk
  | cons head rest ih =>
    rw [length_cons] at hb
    rw [slotState, Finsupp.add_apply]
    cases k with
    | zero =>
      cases hk
      rw [Nat.add_zero, slotState_below _ _ _ _ _ (by omega) (by omega), add_zero, rowInput]
      rcases slotInput schema row agg.value with e | _ | value
      · rfl
      · rfl
      · simp only [single_apply, valueKey_eq_iff (show start < 2 ^ 63 by omega)
          (show start < 2 ^ 63 by omega), true_and]
    | succ k =>
      rw [List.getElem?_cons_succ] at hk
      have hlen : k < rest.length := (List.getElem?_eq_some_iff.1 hk).1
      have hrest := @ih k (start + 1) hk (by omega)
      rw [show start + (k + 1) = start + 1 + k by omega, hrest]
      rcases slotInput schema row head.value with e | _ | value
      · exact zero_add _
      · exact zero_add _
      · dsimp only
        rw [single_eq_of_ne, zero_add]
        intro h
        have := ((valueKey_eq_iff (by omega) (by omega)).1 h).1
        omega

theorem slotState_other_group {group : List Value} (hg : group ≠ g) (slot : Nat)
    (v : Value) {start : Nat} :
    slotState schema row group start aggs (valueKey slot g v) = 0 := by
  induction aggs generalizing start with
  | nil => rfl
  | cons head rest ih =>
    rw [slotState, Finsupp.add_apply, ih, add_zero]
    split
    · refine single_eq_of_ne (fun h => hg ?_)
      obtain ⟨hp, _⟩ := append_inj' h rfl
      exact ((List.cons.inj (List.cons.inj hp).2).2).symm
    · rfl

end

/-! What the state holds of one group. -/

variable {k : Key} {func : AggFunc} {e : PlanError}

theorem lin_groupRows {M : Type} [AddCommGroup M] (a : Aggregate) (z : ZSet Row) (g : List Value)
    (f : Row → M) [∀ row, Decidable (evalNamed a.inputSchema row a.keys = .ok g)] :
    lin f (a.groupRows z g) =
      lin (fun row => if evalNamed a.inputSchema row a.keys = .ok g then f row else 0) z := by
  classical
  rw [groupRows, lin_filter]
  exact lin_congr (fun row _ => by congr)

theorem groupRows_nonneg (a : Aggregate) {z : ZSet Row} (hz : 0 ≤ z) (g : List Value) : 0 ≤ a.groupRows z g := by
  classical
  intro row
  unfold groupRows
  rw [filter_apply]
  split
  · exact hz row
  · exact le_rfl

theorem lin_rowState_totalKey (a : Aggregate) (z : ZSet Row) (g : List Value) :
    lin a.rowState z (totalKey g) = rowsTotal (a.groupRows z g) := by
  classical
  rw [lin_apply_at, rowsTotal, lin_groupRows]
  refine lin_congr (fun row _ => ?_)
  unfold rowState
  split
  · next e he => simp [he]
  · next group hgroup =>
    rw [Finsupp.add_apply, slotState_totalKey, add_zero, hgroup, Finsupp.single_apply]
    simp only [totalKey_injective.eq_iff, Except.ok.injEq]

theorem lin_rowState_valueKey (a : Aggregate) (hb : a.aggregates.length < 2 ^ 63) (z : ZSet Row) (g : List Value)
    (hk : a.aggregates[slot]? = some agg) (v : Value) :
    lin a.rowState z (valueKey slot g v) =
      lin (rowInput a.inputSchema agg.value) (a.groupRows z g) v := by
  classical
  rw [lin_apply_at, lin_apply_at, lin_groupRows]
  refine lin_congr (fun row _ => ?_)
  unfold rowState
  split
  · next e he => simp [he]
  · next group hgroup =>
    have htot : single (totalKey group) (1 : ℤ) (valueKey slot g v) = 0 :=
      single_eq_of_ne (fun h => absurd (List.cons.inj h).1 (by simp))
    rw [Finsupp.add_apply, htot, zero_add, hgroup]
    by_cases hg : group = g
    · subst hg
      have := slotState_valueKey a.inputSchema row group v hk (by omega : 0 + a.aggregates.length < 2 ^ 63)
      rw [Nat.zero_add] at this
      rw [if_pos rfl, this]
    · rw [if_neg (fun h => hg (Except.ok.inj h)), slotState_other_group _ _ hg]

theorem slotState_shape {schema : Schema} {row : Row} {group : List Value}
    (h : slotState schema row group slot aggs k ≠ 0) :
    ∃ s v, k = valueKey s group v := by
  induction aggs generalizing slot with
  | nil => exact absurd rfl h
  | cons agg rest ih =>
    rw [slotState, Finsupp.add_apply] at h
    by_cases hr : slotState schema row group (slot + 1) rest k = 0
    · rw [hr, add_zero] at h
      split at h
      · next value _ =>
        refine ⟨slot, value, ?_⟩
        by_contra hne
        exact h (single_eq_of_ne hne)
      · exact absurd rfl h
    · exact ih hr

/-- Under a slot's prefix stand values of that slot and group, and nothing else. -/
theorem shape_of_prefix {a : Aggregate} {z : ZSet Row} (hg : g.length = a.keys.length)
    (hp : valuesPrefix slot g <+: k) (h : lin a.rowState z k ≠ 0) :
    ∃ v, k = valuesPrefix slot g ++ [v] := by
  obtain ⟨row, hrow⟩ : ∃ row, a.rowState row k ≠ 0 := by
    by_contra hno
    refine h ?_
    rw [lin_apply_at, lin_congr (fun row _ => not_not.1 (not_exists.1 hno row))]
    exact lin_zero_fun z
  unfold rowState at hrow
  split at hrow
  · exact absurd rfl hrow
  · next group hgroup =>
    by_cases ht : single (totalKey group) (1 : ℤ) k = 0
    · rw [Finsupp.add_apply, ht, zero_add] at hrow
      obtain ⟨s, v, rfl⟩ := slotState_shape hrow
      refine ⟨v, ?_⟩
      have hlen : (valuesPrefix slot g).length = (valuesPrefix s group).length := by
        simp [valuesPrefix, hg, evalNamed_length hgroup]
      rw [valueKey, (prefix_of_prefix_length_le hp (prefix_append _ _) hlen.le).eq_of_length hlen]
    · have hk : totalKey group = k := by
        by_contra hne
        exact ht (single_eq_of_ne (Ne.symm hne))
      subst hk
      exact absurd (cons_prefix_cons.1 hp).1 (by simp)

variable {a : Aggregate} {primed : Bool} {z : ZSet Row} {streams : Streams}

section

variable (h : a.Tracks .checked primed z streams)
include h

/-- But for the marker, the state is the sum of what the rows leave. -/
theorem Tracks.denote_eq (hk : primedKey ≠ k) : a.state.denote k = ZSet.lin a.rowState z k := by
  rw [Wraps.checked_iff.1 h.state, Finsupp.add_apply]
  split
  · rw [single_eq_of_ne hk.symm, add_zero]
  · exact add_zero _

theorem Tracks.atSlot (hb : a.aggregates.length < 2 ^ 63)
    (hg : g.length = a.keys.length) (hk : a.aggregates[slot]? = some agg) :
    ∃ l, IsCanonical l ∧
      a.state.visitPrefix (valuesPrefix slot g) = slotEntries (valuesPrefix slot g) l ∧
      ofEntries l = lin (rowInput a.inputSchema agg.value) (a.groupRows z g) := by
  have hden : ∀ k, valuesPrefix slot g <+: k → a.state.denote k = lin a.rowState z k := by
    intro k hp
    refine h.denote_eq ?_
    rintro rfl
    exact absurd (cons_prefix_cons.1 hp).1 (by simp)
  have hfilter := a.state.visitPrefix_eq_filter (valuesPrefix slot g)
  have hshape : ∀ e ∈ a.state.visitPrefix (valuesPrefix slot g), ∃ v, e.1 = valuesPrefix slot g ++ [v] := by
    intro e he
    rw [hfilter, mem_filter, isPrefixOf_iff_prefix] at he
    refine shape_of_prefix (z := z) hg he.2 ?_
    rw [← hden _ he.2]
    have hm := (h.reduced.getElem?_eq_some.1 (SortedMap.mem_toList.1 (show (e.1, e.2) ∈ _ from he.1)))
    rw [MemBackend.denote, hm.1]
    exact hm.2
  have hcanon : IsCanonical (a.state.visitPrefix (valuesPrefix slot g)) := by
    rw [hfilter]
    exact ⟨h.reduced.isCanonical.sorted.filter _,
      fun e he => h.reduced.isCanonical.nonzero e (mem_filter.1 he).1⟩
  have hlast : ∀ (v : Value), (valuesPrefix slot g ++ [v]).getLastD .null = v := by simp
  have hround : a.state.visitPrefix (valuesPrefix slot g) = slotEntries (valuesPrefix slot g)
      ((a.state.visitPrefix (valuesPrefix slot g)).map (fun e => (e.1.getLastD .null, e.2))) := by
    unfold slotEntries
    rw [map_map]
    refine (map_id _).symm.trans (map_congr_left (fun e he => ?_))
    obtain ⟨v, hv⟩ := hshape e he
    refine Prod.ext ?_ rfl
    show e.1 = valuesPrefix slot g ++ [e.1.getLastD .null]
    rw [hv, hlast]
  refine ⟨_, ⟨?_, ?_⟩, hround, ?_⟩
  · rw [pairwise_map]
    refine hcanon.sorted.imp_of_mem (fun {e e'} he he' hlt => ?_)
    obtain ⟨v, hv⟩ := hshape e he
    obtain ⟨v', hv'⟩ := hshape e' he'
    rw [hv, hv'] at hlt
    rw [hv, hv', hlast, hlast]
    exact append_singleton_lt hlt
  · intro e he
    obtain ⟨x, hx, rfl⟩ := mem_map.1 he
    exact hcanon.nonzero x hx
  · ext v
    have hpre : (valuesPrefix slot g).isPrefixOf (valueKey slot g v) = true := by
      rw [ isPrefixOf_iff_prefix]
      exact prefix_append _ _
    rw [← lin_rowState_valueKey a hb z g hk v, ← hden (valueKey slot g v) (prefix_append _ _), MemBackend.denote,
      WeightMap.denote, ← ofEntries_filter_apply hpre, ← hfilter]
    conv_rhs => rw [hround]
    have hkey : ∀ v', single (valuesPrefix slot g ++ [v']) (1 : ℤ) (valueKey slot g v) = single v' 1 v := by
      intro v'
      simp only [valueKey, single_apply, append_cancel_left_eq, List.cons.injEq, and_true]
    rw [slotEntries, ofEntries_map (fun v => valuesPrefix slot g ++ [v]), lin_apply_at,
      lin_congr (fun v' _ => hkey v'), ← lin_apply_at, lin_single_one]

theorem Tracks.total_val (g : List Value) : (a.total g).val = rowsTotal (a.groupRows z g) := by
  have hd : (a.total g).val = a.state.denote (totalKey g) := by
    rw [Aggregate.total, MemBackend.denote, WeightMap.denote_apply, WeightMap.weight_eq]
    rfl
  have hne : primedKey ≠ totalKey g := fun heq => absurd (List.cons.inj heq).1 (by simp)
  rw [hd, h.denote_eq hne, lin_rowState_totalKey]

end

theorem rowInput_nonneg (schema : Schema) (func : AggFunc) (row : Row) : 0 ≤ rowInput schema func row := by
  unfold rowInput
  split
  · exact single_nonneg.2 (by decide)
  · exact le_rfl

variable {rows : ZSet Row}

theorem mass_le_rowsTotal (schema : Schema) (func : AggFunc) (h : 0 ≤ rows) :
    mass (lin (rowInput schema func) rows) ≤ rowsTotal rows := by
  unfold mass rowsTotal
  rw [map_lin]
  refine lin_mono (fun row => ?_) h
  unfold rowInput
  split
  · simp
  · simp

theorem Tracks.counted (h : a.Tracks .checked primed z streams) (hz : 0 ≤ z) {l : List (Value × I64)}
    (hl : IsCanonical l) (hd : ofEntries l = lin (rowInput a.inputSchema func) (a.groupRows z g)) :
    Counted l := by
  have hnn : 0 ≤ ofEntries l := by
    rw [hd]
    exact lin_nonneg (rowInput_nonneg a.inputSchema func) (a.groupRows_nonneg hz g)
  have hpos : ∀ e ∈ l, 0 < e.2.val := by
    intro e he
    have hw := hl.mem_iff.1 (show (e.1, e.2) ∈ l from he)
    have := hnn e.1
    rw [hw.1] at this
    exact lt_of_le_of_ne this hw.2.symm
  refine ⟨hpos, ?_⟩
  have hle := mass_le_rowsTotal a.inputSchema func (a.groupRows_nonneg hz g)
  rw [← hd, mass_ofEntries, ← h.total_val g] at hle
  have hin := (a.total g).property
  have h0 := sum_nonneg_of_pos hpos
  unfold InI64 at hin ⊢
  omega

theorem narrow_evaluation {x : ℤ} (h : func.narrow x = .error e) : e.isEvaluationError = true := by
  unfold AggFunc.narrow at h
  cases hx : I64.ofInt? x with
  | none =>
    rw [hx] at h
    cases h
    rfl
  | some i =>
    rw [hx] at h
    cases h

theorem valueOf_evaluation {total : ℤ} {m : ZSet Value} (h : func.valueOf total m = .error e) :
    e.isEvaluationError = true := by
  have hmap : ∀ {x : ℤ} {f : I64 → Value}, (func.narrow x).map f = .error e → e.isEvaluationError = true := by
    intro x f hm
    cases hx : func.narrow x with
    | error e' =>
      rw [hx] at hm
      cases hm
      exact narrow_evaluation hx
    | ok i =>
      rw [hx] at hm
      cases hm
  cases func with
  | countStar | count arg => exact hmap h
  | sum arg =>
    simp only [AggFunc.valueOf] at h
    split at h
    · cases h
    · exact hmap h
  | avg arg =>
    simp only [AggFunc.valueOf] at h
    split at h
    · cases h
    · rcases bind_error.1 h with h | ⟨sum, _, h⟩
      · exact narrow_evaluation h
      · rcases bind_error.1 h with h | ⟨count, _, h⟩
        · exact narrow_evaluation h
        · cases h
  | min arg | max arg => cases h

theorem valuesOf_evaluation {schema : Schema} (h : valuesOf schema rows aggs = .error e) :
    e.isEvaluationError = true := by
  induction aggs with
  | nil => cases h
  | cons agg rest ih =>
    unfold valuesOf at h
    rcases bind_error.1 h with h | ⟨v, _, h⟩
    · exact valueOf_evaluation h
    · rcases bind_error.1 h with h | ⟨vs, _, h⟩
      · exact ih h
      · cases h

theorem foldAll_eq {a : Aggregate} {start : Nat} (h : ∀ (k : Nat) (agg : Named AggFunc), aggs[k]? = some agg →
      a.fold (start + k) g agg.value =
        opPlan (agg.value.valueOf (rowsTotal rows) (lin (rowInput a.inputSchema agg.value) rows))) :
    a.foldAll g start aggs = opPlan (valuesOf a.inputSchema rows aggs) := by
  induction aggs generalizing start with
  | nil => rfl
  | cons agg rest ih =>
    have hhead := h 0 agg rfl
    rw [Nat.add_zero] at hhead
    have htail := @ih (start + 1) (fun k agg' hk => by
      rw [show start + 1 + k = start + (k + 1) by omega]
      exact h (k + 1) agg' hk)
    rw [foldAll, valuesOf, hhead, htail]
    cases agg.value.valueOf (rowsTotal rows) (lin (rowInput a.inputSchema agg.value) rows) with
    | error e => rfl
    | ok v => cases valuesOf a.inputSchema rows rest <;> rfl

section

variable (h : a.Tracks .checked true z streams) (hz : 0 ≤ z) (hb : a.aggregates.length < 2 ^ 63) (ht : a.Typed z)
include h hz hb ht

/-- The operator's emission of a group is the group's meaning. -/
theorem Tracks.groupStreams_eq (g : List Value) : a.groupStreams true g = a.groupMeaning z g := by
  classical
  unfold groupStreams groupMeaning Exists
  by_cases hg : g.length = a.keys.length
  · rw [if_pos hg]
    have hfold : a.foldAll g 0 a.aggregates =
        opPlan (valuesOf a.inputSchema (a.groupRows z g) a.aggregates) := by
      refine foldAll_eq (fun slot agg hk => ?_)
      obtain ⟨l, hl, hvisit, hd⟩ := h.atSlot hb hg hk
      have hc := h.counted hz hl hd
      rw [Nat.zero_add, fold_spec hl hc hvisit (fun e he => ?_), h.total_val, hd]
      -- a value in the slot came from a row that is there
      have hmem := (mem_support_ofEntries hc.pos).2 ⟨e, he, rfl⟩
      rw [hd, mem_support_iff, lin_apply_at] at hmem
      by_contra hno
      refine hmem ((lin_congr (fun row hrow => ?_)).trans (lin_zero_fun _))
      have hrow' : z row ≠ 0 := by
        rw [groupRows, mem_support_iff, filter_apply] at hrow
        exact fun h0 => hrow (by split <;> simp [h0])
      rw [rowInput]
      split
      · next v hv =>
        refine single_eq_of_ne (fun hev => hno ?_)
        rw [hev]
        exact ht row hrow' agg (mem_of_getElem? hk) v hv
      · rfl
    have habsent : (if a.isGrandTotal = true then !true else decide ((a.total g).val ≤ 0)) = true ↔
        ¬ (a.isGrandTotal = true ∨ 0 < rowsTotal (a.groupRows z g)) := by
      rw [h.total_val]
      cases a.isGrandTotal <;> simp
    unfold emission
    by_cases hex : a.isGrandTotal = true ∨ 0 < rowsTotal (a.groupRows z g)
    · rw [if_neg (fun hab => habsent.1 hab hex), hfold, if_pos (And.intro hg hex)]
      cases hv : valuesOf a.inputSchema (a.groupRows z g) a.aggregates with
      | ok values => rfl
      | error e => simp [opPlan, valuesOf_evaluation hv, emissionStreams]
    · rw [if_pos (habsent.2 hex), if_neg (fun hboth => hex hboth.2)]
      rfl
  · rw [if_neg hg, if_neg (fun hex => hg hex.1)]

/-- What an aggregate has emitted is a function of what it was fed. -/
theorem Tracks.meaning_eq : streams = a.meaning z := by
  rw [h.streams, meaning, finsum_congr (h.groupStreams_eq hz hb ht)]

end

end Aggregate
end Mutiny.Schweep
