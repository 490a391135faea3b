import Mutiny.Schweep.OracleSpec

/- The oracle's GROUP BY.

   The oracle collects a group's members into a list and evaluates each
   aggregate over it; the plan's aggregate node reads multisets. Where every
   argument evaluates on every member, the two agree (`Agree.evalGroupBy`).
   Where one does not, the oracle records an error for that group, so its answer
   is an error (`evalGroupBy_evaluates`). -/
namespace Mutiny.Schweep
open Mutiny.Lib SortedMap ZSet Aggregate List Finsupp
open Finsupp (single)

/-- A row's key evaluates to the group. -/
def inGroup (schema : Schema) (keys : List (Named Expr)) (g : List Value) (row : Row) : Bool :=
  match evalNamed schema row keys with
  | .ok key => key = g
  | .error _ => false

variable {schema : Schema} {keys : List (Named Expr)} {row : Row}

theorem inGroup_iff {g : List Value} : inGroup schema keys g row = true ↔ evalNamed schema row keys = .ok g := by
  unfold inGroup
  split
  · next key hk => simp [hk]
  · next e he => simp [he]

/-- Every aggregate's argument evaluates on every row that is in a group. -/
def ArgumentsEvaluate (schema : Schema) (keys : List (Named Expr)) (aggregates : List (Named AggFunc))
    (entries : Entries) : Prop :=
  ∀ e ∈ entries, ∀ g, evalNamed schema e.1 keys = .ok g → ∀ agg ∈ aggregates, ∀ arg,
    agg.value.argument = some arg → ∃ v, eval schema e.1 arg = .ok v

instance decidableArgumentsEvaluate (schema : Schema) (keys : List (Named Expr))
    (aggregates : List (Named AggFunc)) (entries : Entries) :
    Decidable (ArgumentsEvaluate schema keys aggregates entries) :=
  decidable_of_iff
    (∀ e ∈ entries, (evalNamed schema e.1 keys).isOk = true → ∀ agg ∈ aggregates,
      ∀ arg ∈ agg.value.argument, (eval schema e.1 arg).isOk = true) <| by
    simp only [ArgumentsEvaluate, isOk_iff, Option.mem_def]
    constructor
    · exact fun h e he g hg => h e he ⟨g, hg⟩
    · exact fun h e he ⟨g, hg⟩ => h e he g hg

theorem slotInput_total {func : AggFunc} (h : ∀ arg, func.argument = some arg → ∃ v, eval schema row arg = .ok v) :
    ∃ o, slotInput schema row func = .ok o := by
  unfold slotInput
  cases ha : func.argument with
  | none => exact ⟨none, rfl⟩
  | some arg =>
    obtain ⟨v, hv⟩ := h arg ha
    exact ⟨_, by simp [hv]; rfl⟩

/-! Collecting the groups. -/

variable {live : LiveErrors} {l : Entries} {live' : LiveErrors} {schema : Schema}

theorem groupEntries_spec {groups groups' : Groups}
    (h : groupEntries keys schema groups live l = .ok (groups', live')) :
    (∀ g, groups'.getD g [] = groups.getD g [] ++ l.filter (fun e => inGroup schema keys g e.1)) ∧
      (∀ g, g ∈ groups' ↔ g ∈ groups ∨ ∃ e ∈ l, evalNamed schema e.1 keys = .ok g) ∧
      (live.Valid → live'.Valid) ∧
      ∀ m, m ∈ live' ↔ m ∈ live ∨ ∃ e ∈ l, ∃ err, evalNamed schema e.1 keys = .error err ∧ err.message = m := by
  induction l generalizing groups live with
  | nil => cases h; simp
  | cons e rest ih =>
    obtain ⟨row, w⟩ := e
    unfold groupEntries at h
    split at h
    · cases h
    · split at h
      · next err herr =>
        obtain ⟨live1, hrec, h⟩ := bind_ok.1 h
        obtain ⟨hv1, hm1⟩ := LiveErrors.record_spec hrec
        obtain ⟨hg, hmem, hv, hm⟩ := ih h
        have hno : ∀ g, inGroup schema keys g row = false := by
          intro g
          simp [inGroup, herr]
        refine ⟨fun g => by rw [hg, filter_cons]; simp [hno], fun g => ?_, fun hl => hv (hv1 hl), fun m => ?_⟩
        · rw [hmem]
          simp [herr]
        · rw [hm, hm1]
          simp [herr, or_assoc]
      · next key hkey =>
        obtain ⟨hg, hmem, hv, hm⟩ := ih h
        refine ⟨fun g => ?_, fun g => ?_, hv, fun m => ?_⟩
        · rw [hg, SortedMap.getD_eq, SortedMap.getElem?_insert]
          by_cases hk : key = g
          · subst hk
            have hin : inGroup schema keys key row = true := inGroup_iff.2 hkey
            rw [if_pos rfl, Option.getD_some, append_assoc, filter_cons]
            simp [hin]
          · have hout : inGroup schema keys g row = false := by
              simp [inGroup, hkey, hk]
            rw [if_neg hk, ← getD_eq, filter_cons]
            simp [hout]
        · rw [hmem, SortedMap.mem_iff, SortedMap.getElem?_insert]
          by_cases hk : key = g
          · subst hk
            simp [hkey]
          · rw [if_neg hk, ← mem_iff]
            simp [hkey, hk]
        · rw [hm]
          simp [hkey]

theorem groupEntries_total (groups : Groups) (live : LiveErrors) (hpos : ∀ e ∈ l, 0 < e.2.val)
    (hs : ∀ e ∈ l, ∀ err, evalNamed schema e.1 keys = .error err → err.isEvaluationError = true) :
    ∃ r, groupEntries keys schema groups live l = .ok r := by
  induction l generalizing groups live with
  | nil => exact ⟨_, rfl⟩
  | cons e rest ih =>
    obtain ⟨row, w⟩ := e
    obtain ⟨(hw : 0 < w.val), hposr⟩ := forall_mem_cons.1 hpos
    obtain ⟨hrow, hrest⟩ := forall_mem_cons.1 hs
    unfold groupEntries
    rw [if_neg (not_lt.2 hw.le)]
    cases hk : evalNamed schema row keys with
    | ok key => exact ih _ live hposr hrest
    | error err =>
      obtain ⟨live1, h1⟩ := live.record_total (hrow err hk)
      obtain ⟨r, hr⟩ := ih groups live1 hposr hrest
      exact ⟨r, by simp [h1, hr]⟩

/-! Evaluating the groups. -/

variable {m : String} {gs : List (List Value × Entries)} {members : Entries} {g : GroupBy}

theorem rowsTotal_ofEntries (members : Entries) :
    rowsTotal (ofEntries members) = (members.map (fun e => e.2.val)).sum := by
  rw [rowsTotal, lin_ofEntries]
  simp

/-- The conditions under which a group's aggregates are read off its multisets. -/
structure Evaluable (schema : Schema) (aggregates : List (Named AggFunc)) (members : Entries) : Prop where
  pos : ∀ e ∈ members, 0 < e.2.val
  evaluates : ∀ agg ∈ aggregates, ∀ e ∈ members, ∃ o, Aggregate.slotInput schema e.1 agg.value = .ok o
  takes : ∀ agg ∈ aggregates, ∀ e ∈ members, ∀ v,
    Aggregate.slotInput schema e.1 agg.value = .ok (some v) → agg.value.Takes v

theorem evaluateAll_spec {aggregates : List (Named AggFunc)} (h : Evaluable schema aggregates members)
    (ht : InI64 (members.map (fun e => e.2.val)).sum) :
    evaluateAll members schema aggregates = valuesOf schema (ofEntries members) aggregates := by
  obtain ⟨hpos, hev, htakes⟩ := h
  induction aggregates with
  | nil => rfl
  | cons agg rest ih =>
    obtain ⟨hev0, hevr⟩ := forall_mem_cons.1 hev
    obtain ⟨htk0, htkr⟩ := forall_mem_cons.1 htakes
    rw [evaluateAll, valuesOf, ih hevr htkr, rowsTotal_ofEntries, evaluate_spec hpos ht hev0 (fun x hx => ?_)]
    obtain ⟨e, he, hs, _⟩ := inputsOf_mem hx
    exact htk0 e he x.1 hs

noncomputable def groupOut (g : GroupBy) (schema : Schema) (x : List Value × Entries) : Streams :=
  if (x.2.map (fun e => e.2.val)).sum ≤ 0 ∧ g.keys ≠ [] then 0
  else match valuesOf schema (ZSet.ofEntries x.2) g.aggregates with
    | .ok values => (single (x.1 ++ values) 1, 0)
    | .error e => (0, single (errorRow e) 1)

theorem countWeights_outcome (total : I64) (h0 : 0 ≤ total.val) (hpos : ∀ e ∈ members, 0 < e.2.val) :
    Outcome (fun c => c.val = total.val + (members.map (fun e => e.2.val)).sum)
      (orPlan (countWeights "GROUP BY" total members)) := by
  induction members generalizing total with
  | nil => exact (add_zero total.val).symm
  | cons e rest ih =>
    obtain ⟨row, w⟩ := e
    obtain ⟨(hw : 0 < w.val), hrest⟩ := forall_mem_cons.1 hpos
    unfold countWeights
    cases hc : I64.checkedAdd total w with
    | none => exact rfl
    | some c =>
      have hcv := I64.checkedAdd_eq_some.1 hc
      have := ih c (by omega) hrest
      rw [hcv, add_assoc] at this
      exact this

theorem groupOut_nonneg (g : GroupBy) (schema : Schema) (x : List Value × Entries) : 0 ≤ groupOut g schema x := by
  unfold groupOut
  split
  · exact le_rfl
  · split
    · exact ⟨single_nonneg.2 (by decide), le_rfl⟩
    · exact ⟨le_rfl, single_nonneg.2 (by decide)⟩

theorem errorRow_single_ne_zero {e : PlanError} : single (errorRow e) (1 : ℤ) [.str m] ≠ 0 ↔ e.message = m := by
  rw [single_apply]
  simp [errorRow]

/-- The rows and the errors of the groups, in order. -/
theorem emitGroups_spec (live : LiveErrors) (h : ∀ x ∈ gs, Evaluable schema g.aggregates x.2) :
    Outcome (fun r => ZSet.ofEntries r.1 = (gs.map (fun x => (groupOut g schema x).1)).sum ∧
        (∀ e ∈ r.1, 0 < e.2.val) ∧ (live.Valid → r.2.Valid) ∧
        ∀ m, m ∈ r.2 ↔ m ∈ live ∨ ∃ x ∈ gs, (groupOut g schema x).2 [.str m] ≠ 0)
      (emitGroups g schema live gs) := by
  induction gs generalizing live with
  | nil => exact ⟨rfl, by simp, id, by simp⟩
  | cons x rest ih =>
    obtain ⟨key, members⟩ := x
    obtain ⟨hx, hrest⟩ := List.forall_mem_cons.1 h
    unfold emitGroups
    refine Outcome.bind (countWeights_outcome I64.zero le_rfl hx.pos) (fun total _ htotal => ?_)
    rw [I64.zero_val, zero_add] at htotal
    have hin : InI64 (members.map (fun e => e.2.val)).sum := htotal ▸ total.property
    by_cases habsent : total.val ≤ 0 ∧ g.keys ≠ []
    · rw [if_pos habsent]
      rw [htotal] at habsent
      have hout : groupOut g schema (key, members) = 0 := if_pos habsent
      simp only [List.map_cons, List.sum_cons, List.exists_mem_cons_iff, hout]
      refine (ih live hrest).mono (fun r hr => ⟨by rw [hr.1]; exact (zero_add _).symm, hr.2.1, hr.2.2.1, fun m => ?_⟩)
      rw [hr.2.2.2 m]
      simp
    · rw [if_neg habsent, evaluateAll_spec hx hin]
      rw [htotal] at habsent
      cases hv : valuesOf schema (ZSet.ofEntries members) g.aggregates with
      | ok values =>
        have hout : groupOut g schema (key, members) = (single (key ++ values) 1, 0) := by
          unfold groupOut
          rw [if_neg habsent, hv]
        simp only [List.map_cons, List.sum_cons, List.exists_mem_cons_iff, hout]
        refine Outcome.bind (ih live hrest) (fun r _ hr => ⟨?_, ?_, hr.2.2.1, fun m => ?_⟩)
        · rw [ZSet.ofEntries_cons, hr.1]
          rfl
        · exact List.forall_mem_cons.2 ⟨show (0 : ℤ) < 1 by decide, hr.2.1⟩
        · rw [hr.2.2.2 m]
          simp
      | error e =>
        have he := Aggregate.valuesOf_evaluation hv
        have hout : groupOut g schema (key, members) = (0, single (errorRow e) 1) := by
          unfold groupOut
          rw [if_neg habsent, hv]
        simp only [he, if_true, List.map_cons, List.sum_cons, List.exists_mem_cons_iff, hout]
        obtain ⟨live1, hrec⟩ := live.record_total he
        obtain ⟨hv1, hm1⟩ := LiveErrors.record_spec hrec
        rw [hrec, ok_bind]
        refine (ih live1 hrest).mono (fun r hr => ⟨by rw [hr.1, zero_add], hr.2.1, fun hl => hr.2.2.1 (hv1 hl),
          fun m => ?_⟩)
        rw [hr.2.2.2 m, hm1, errorRow_single_ne_zero, or_assoc]

/-! The groups together are the aggregate node. -/

variable {r : Relation} {grouped : Schema}

section Groups

variable {g : GroupBy} {input : Schema} {l : Entries} {groups : Groups}

structure Collected (g : GroupBy) (input : Schema) (l : Entries) (groups : Groups) : Prop where
  members : ∀ key, groups.getD key [] = l.filter (fun e => inGroup input g.keys key e.1)
  mem : ∀ key, key ∈ groups ↔ (g.keys = [] ∧ key = []) ∨ ∃ e ∈ l, evalNamed input e.1 g.keys = .ok key

variable {x : List Value × Entries}

section

variable (hc : Collected g input l groups)
include hc

theorem Collected.members_of_mem (hx : x ∈ groups.toList) : x.2 = l.filter (fun e => inGroup input g.keys x.1 e.1) := by
  rw [← hc.members, getD_eq, mem_toList.1 (show (x.1, x.2) ∈ groups.toList from hx)]
  rfl

theorem Collected.ofEntries_members (output : Schema) (hx : x ∈ groups.toList) :
    ofEntries x.2 =
      (aggregateOf input g.keys g.aggregates output).groupRows (ofEntries l) x.1 := by
  classical
  rw [hc.members_of_mem hx, ofEntries_filter, groupRows]
  ext row
  rw [filter_apply, filter_apply]
  simp only [inGroup_iff]
  rfl

theorem Collected.sum_pos (hpos : ∀ e ∈ l, 0 < e.2.val) (hx : x ∈ groups.toList)
    {e : Row × I64} (he : e ∈ l) (hkey : evalNamed input e.1 g.keys = .ok x.1) :
    e ∈ x.2 ∧ 0 < (x.2.map (fun e => e.2.val)).sum := by
  have hmem : e ∈ x.2 := by
    rw [hc.members_of_mem hx]
    exact List.mem_filter.2 ⟨he, inGroup_iff.2 hkey⟩
  have hxpos : ∀ e ∈ x.2, 0 < e.2.val := fun y hy => by
    rw [hc.members_of_mem hx] at hy
    exact hpos y (List.mem_filter.1 hy).1
  refine ⟨hmem, ?_⟩
  obtain ⟨l1, l2, hsplit⟩ := List.append_of_mem hmem
  have h1 := sum_nonneg_of_pos (l := l1) (fun y hy => hxpos y (by simp [hsplit, hy]))
  have h2 := sum_nonneg_of_pos (l := l2) (fun y hy => hxpos y (by simp [hsplit, hy]))
  have := hxpos e hmem
  rw [hsplit, List.map_append, List.sum_append, List.map_cons, List.sum_cons]
  omega

theorem Collected.groupOut_eq (output : Schema) (hpos : ∀ e ∈ l, 0 < e.2.val)
    (hx : x ∈ groups.toList) :
    groupOut g input x = (aggregateOf input g.keys g.aggregates output).groupMeaning (ofEntries l) x.1 := by
  have hrows := hc.ofEntries_members output hx
  have htotal : (x.2.map (fun e => e.2.val)).sum =
      rowsTotal ((aggregateOf input g.keys g.aggregates output).groupRows (ofEntries l) x.1) := by
    rw [← hrows, rowsTotal_ofEntries]
  -- a group is there because it was seeded, or because some row is in it
  have hexists : ¬ ((x.2.map (fun e => e.2.val)).sum ≤ 0 ∧ g.keys ≠ []) ∧
      (aggregateOf input g.keys g.aggregates output).Exists (ofEntries l) x.1 := by
    rcases (hc.mem x.1).1 (mem_of_mem_toList (show (x.1, x.2) ∈ groups.toList from hx)) with
      ⟨hk, hnil⟩ | ⟨e, he, hkey⟩
    · refine ⟨fun h => h.2 hk, ?_, Or.inl ?_⟩
      · rw [hnil, aggregateOf, hk]
        rfl
      · simp [isGrandTotal, aggregateOf, hk]
    · have hsum := (hc.sum_pos hpos hx he hkey).2
      exact ⟨fun h => absurd h.1 (not_le.2 hsum), evalNamed_length hkey, Or.inr (htotal ▸ hsum)⟩
  unfold groupOut groupMeaning
  rw [if_neg hexists.1, if_pos hexists.2, hrows]
  rfl

/-- Summed over the collected groups, that is every group of the aggregate. -/
theorem Collected.sum_groupOut (output : Schema)
    (hpos : ∀ e ∈ l, 0 < e.2.val) :
    (groups.toList.map (groupOut g input)).sum =
      ∑ᶠ key, (aggregateOf input g.keys g.aggregates output).groupMeaning (ofEntries l) key := by
  classical
  have hsupp : (Function.support fun key =>
      (aggregateOf input g.keys g.aggregates output).groupMeaning (ofEntries l) key) ⊆
      ((groups.toList.map Prod.fst).toFinset : Set (List Value)) := by
    intro key hkey
    by_contra hno
    refine hkey (if_neg (fun hex => hno ?_))
    rw [Finset.mem_coe, mem_toFinset, mem_map]
    have hin : key ∈ groups := by
      rw [hc.mem]
      rcases hex.2 with hgrand | htotal
      · have hk : g.keys = [] := isEmpty_iff.1 hgrand
        refine Or.inl ⟨hk, length_eq_zero_iff.1 ?_⟩
        rw [hex.1, aggregateOf, hk]
        rfl
      · refine Or.inr ?_
        by_contra hnone
        -- no row is in the group, so it has no weight
        refine absurd htotal (not_lt.2 (le_of_eq ?_))
        rw [rowsTotal, lin_groupRows, lin_congr (fun row hrow => if_neg (fun hk => hnone ?_))]
        · exact lin_zero_fun _
        · obtain ⟨e, he, rfl⟩ := (ofEntries_ne_zero_iff hpos).1 (mem_support_iff.1 hrow)
          exact ⟨e, he, hk⟩
    obtain ⟨members, hm⟩ := mem_iff.1 hin
    exact ⟨(key, members), mem_toList.2 hm, rfl⟩
  rw [finsum_eq_sum_of_support_subset _ hsupp, sum_toFinset _ (nodup_toList groups), map_map]
  exact congrArg List.sum (map_congr_left (fun x hx => hc.groupOut_eq output hpos hx))

end

theorem seedGroups_mem (g : GroupBy) (key : List Value) : key ∈ seedGroups g ↔ g.keys = [] ∧ key = [] := by
  unfold seedGroups
  split
  · next hk =>
    rw [SortedMap.mem_iff, SortedMap.getElem?_insert]
    by_cases hkey : [] = key
    · simp [hk, hkey.symm]
    · simp [hkey, hk, Ne.symm hkey]
  · next hk =>
    simp [hk]

theorem seedGroups_getD (g : GroupBy) (key : List Value) : (seedGroups g).getD key [] = [] := by
  unfold seedGroups
  split
  · rw [SortedMap.getD_eq, SortedMap.getElem?_insert, SortedMap.getElem?_empty]
    split <;> rfl
  · rw [getD_eq, getElem?_empty]
    rfl

theorem collected_of_groupEntries {live live' : LiveErrors}
    (h : groupEntries g.keys input (seedGroups g) live l = .ok (groups, live')) : Collected g input l groups := by
  obtain ⟨hmembers, hmem, _, _⟩ := groupEntries_spec h
  refine ⟨fun key => by rw [hmembers, seedGroups_getD, nil_append], fun key => ?_⟩
  rw [hmem, seedGroups_mem]

end Groups

theorem rowErrors_ne_zero_iff {a : Aggregate}
    (hok : ∀ key, evalNamed a.inputSchema row a.keys = .ok key → ∀ agg ∈ a.aggregates,
      ∃ o, slotInput a.inputSchema row agg.value = .ok o) :
    a.rowErrors row [.str m] ≠ 0 ↔
      ∃ err, evalNamed a.inputSchema row a.keys = .error err ∧ err.message = m := by
  unfold rowErrors
  cases hk : evalNamed a.inputSchema row a.keys with
  | error err =>
    rw [errorRow_single_ne_zero]
    simp
  | ok key =>
    have hzero : slotErrs a.inputSchema row a.aggregates = 0 := by
      have hall := hok key hk
      generalize a.aggregates = aggs at hall
      induction aggs with
      | nil => rfl
      | cons agg rest ih =>
        obtain ⟨⟨o, ho⟩, hrest⟩ := forall_mem_cons.1 hall
        rw [slotErrs, ih hrest, ho, add_zero]
    simp [hzero]

/-- GROUP BY over an agreeing relation whose aggregate arguments all evaluate. -/
theorem Agree.evalGroupBy {p : CircuitNode} {T : String → ZSet Row} (h : Agree r live p T)
    (hT : ∀ table, 0 ≤ T table) (hp : p.Fits T) (ht : (CircuitNode.aggregate p g.keys g.aggregates grouped).Typed)
    (hev : ArgumentsEvaluate r.schema g.keys g.aggregates r.entries) :
    Outcome (fun x => Agree x.1 x.2 (.aggregate p g.keys g.aggregates grouped) T)
      (Schweep.evalGroupBy g r grouped live) := by
  obtain ⟨_, _, ⟨kf, hkf⟩, af, haf⟩ := ht
  have hfits := h.fits hp
  rw [h.schema] at hev
  have hkeys : ∀ e ∈ r.entries, ∀ err, evalNamed p.schema e.1 g.keys = .error err →
      err.isEvaluationError = true := fun e he err herr =>
    (@evalNamed_sound e.1 ⟨p.schema, .qualified⟩ (hfits e he) _ _ hkf).of_error herr
  obtain ⟨⟨groups, live1⟩, hgroups⟩ := groupEntries_total (seedGroups g) live h.pos hkeys
  obtain ⟨_, _, hv1, hm1⟩ := groupEntries_spec hgroups
  have hc := collected_of_groupEntries hgroups
  have hslots : ∀ e ∈ r.entries, ∀ key, evalNamed p.schema e.1 g.keys = .ok key → ∀ agg ∈ g.aggregates,
      ∃ o, slotInput p.schema e.1 agg.value = .ok o :=
    fun e he key hkey agg hagg => slotInput_total (hev e he key hkey agg hagg)
  have hevaluable : ∀ x ∈ groups.toList, Evaluable p.schema g.aggregates x.2 := by
    intro x hx
    have hin : ∀ e ∈ x.2, e ∈ r.entries ∧ evalNamed p.schema e.1 g.keys = .ok x.1 := by
      intro e he
      rw [hc.members_of_mem hx] at he
      exact ⟨(mem_filter.1 he).1, inGroup_iff.1 (mem_filter.1 he).2⟩
    refine ⟨fun e he => h.pos e (hin e he).1, fun agg hagg e he => ?_, fun agg hagg e he v hv => ?_⟩
    · exact hslots e (hin e he).1 x.1 (hin e he).2 agg hagg
    · obtain ⟨ty, hty⟩ := outputFields_mem haf hagg
      exact slotInput_takes hty (hfits e (hin e he).1) hv
  unfold Schweep.evalGroupBy
  rw [h.schema, hgroups, ok_bind]
  refine Outcome.bind (emitGroups_spec live1 hevaluable) (fun x _ hx => ?_)
  obtain ⟨hdata, hpos, hvalid, hlive⟩ := hx
  have hsum := hc.sum_groupOut grouped h.pos
  have hmeaning : (CircuitNode.aggregate p g.keys g.aggregates grouped).meaning T =
      (0, (p.meaning T).2) + ((0, lin (aggregateOf p.schema g.keys g.aggregates grouped).rowErrors
        (ofEntries r.entries)) + (groups.toList.map (groupOut g p.schema)).sum) := by
    rw [hsum, h.data]
    rfl
  have hfst : ((groups.toList.map (groupOut g p.schema)).sum).1 =
      (groups.toList.map (fun x => (groupOut g p.schema x).1)).sum := by
    rw [← AddMonoidHom.coe_fst, map_list_sum, map_map]
    rfl
  have hsnd : ((groups.toList.map (groupOut g p.schema)).sum).2 =
      (groups.toList.map (fun x => (groupOut g p.schema x).2)).sum := by
    rw [← AddMonoidHom.coe_snd, map_list_sum, map_map]
    rfl
  refine ⟨rfl, ?_, hpos, hvalid (hv1 h.valid), fun m => ?_⟩
  · rw [hdata, hmeaning, Prod.fst_add, Prod.fst_add, hfst, zero_add, zero_add]
  · have hnn : ∀ x, 0 ≤ (groupOut g p.schema x).2 := fun x => (groupOut_nonneg g p.schema x).2
    have hsumnn : 0 ≤ (groups.toList.map (fun x => (groupOut g p.schema x).2)).sum :=
      List.sum_nonneg (List.forall_mem_map.2 (fun x _ => hnn x))
    have hrow := rowErrors_nonneg (aggregateOf p.schema g.keys g.aggregates grouped)
    have hlin := lin_nonneg hrow (ofEntries_nonneg (fun e he => (h.pos e he).le))
    rw [hmeaning, Prod.snd_add, Prod.snd_add, hsnd,
      add_ne_zero_iff (CircuitNode.meaning_nonneg hT p).2 (add_nonneg hlin hsumnn),
      add_ne_zero_iff hlin hsumnn, sum_ne_zero_iff (fun x _ => hnn x),
      lin_ofEntries_ne_zero_iff hrow h.pos, hlive, hm1, h.live, or_assoc]
    refine or_congr_right (or_congr_left (exists_congr (fun e => and_congr_right (fun he => ?_))))
    exact (rowErrors_ne_zero_iff (a := aggregateOf p.schema g.keys g.aggregates grouped) (hslots e he)).symm

/-! A group that evaluates has evaluated every argument. -/

theorem countWeights_val {name : String} {total c : I64} (h : countWeights name total members = .ok c) :
    c.val = total.val + (members.map (fun e => e.2.val)).sum := by
  induction members generalizing total with
  | nil => cases h; simp
  | cons e rest ih =>
    unfold countWeights at h
    obtain ⟨t, ht, h⟩ := bind_ok.1 h
    cases hc : I64.checkedAdd total e.2 with
    | none =>
      rw [hc] at ht
      cases ht
    | some t' =>
      rw [hc] at ht
      cases ht
      rw [ih h, I64.checkedAdd_eq_some.1 hc, List.map_cons, List.sum_cons, add_assoc]

theorem evaluateAll_ok {aggs : List (Named AggFunc)} {values : List Value}
    (h : evaluateAll members schema aggs = .ok values) :
    ∀ agg ∈ aggs, ∃ v, evaluate agg.value members schema = .ok v := by
  induction aggs generalizing values with
  | nil => simp
  | cons agg rest ih =>
    unfold evaluateAll at h
    obtain ⟨v, hv, h⟩ := bind_ok.1 h
    obtain ⟨vs, hvs, _⟩ := bind_ok.1 h
    exact forall_mem_cons.2 ⟨⟨v, hv⟩, ih hvs⟩

/-- Errors are only ever added; if there are none at the end, every group evaluated. -/
theorem emitGroups_evaluates {out : Entries} (h : emitGroups g schema live gs = .ok (out, live')) :
    (∀ m ∈ live, m ∈ live') ∧ ((∀ m, m ∉ live') → ∀ x ∈ gs, 0 < (x.2.map (fun e => e.2.val)).sum →
      ∃ values, evaluateAll x.2 schema g.aggregates = .ok values) := by
  induction gs generalizing live out with
  | nil =>
    cases h
    exact ⟨fun m hm => hm, by simp⟩
  | cons x rest ih =>
    obtain ⟨key, members⟩ := x
    unfold emitGroups at h
    obtain ⟨total, htotal, h⟩ := bind_ok.1 h
    have hsum : total.val = (members.map (fun e => e.2.val)).sum := by
      cases hc : countWeights "GROUP BY" I64.zero members with
      | error e =>
        rw [hc] at htotal
        cases htotal
      | ok c =>
        rw [hc] at htotal
        cases htotal
        simpa using countWeights_val hc
    split at h
    · next habsent =>
      obtain ⟨hmono, hall⟩ := ih h
      refine ⟨hmono, fun hempty => forall_mem_cons.2 ⟨fun hpos => ?_, hall hempty⟩⟩
      rw [hsum] at habsent
      exact absurd habsent.1 (not_le.2 hpos)
    · split at h
      · next e he =>
        split at h
        · next hev =>
          obtain ⟨live1, hrec, h⟩ := bind_ok.1 h
          obtain ⟨_, hm1⟩ := LiveErrors.record_spec hrec
          obtain ⟨hmono, _⟩ := ih h
          refine ⟨fun m hm => hmono m ((hm1 m).2 (Or.inl hm)), fun hempty => ?_⟩
          exact absurd (hmono _ ((hm1 _).2 (Or.inr rfl))) (hempty e.message)
        · cases h
      · next values hvalues =>
        obtain ⟨⟨tail, live1⟩, htail, h⟩ := bind_ok.1 h
        cases h
        obtain ⟨hmono, hall⟩ := ih htail
        exact ⟨hmono, fun hempty => forall_mem_cons.2 ⟨fun _ => ⟨values, hvalues⟩, hall hempty⟩⟩

theorem evalGroupBy_evaluates {r' : Relation} (hpos : ∀ e ∈ r.entries, 0 < e.2.val)
    (h : evalGroupBy g r grouped live = .ok (r', live')) (hempty : ∀ m, m ∉ live') :
    ArgumentsEvaluate r.schema g.keys g.aggregates r.entries := by
  unfold evalGroupBy at h
  obtain ⟨⟨groups, live1⟩, hgroups, h⟩ := bind_ok.1 h
  obtain ⟨⟨out, live2⟩, hemit, h⟩ := bind_ok.1 h
  cases h
  have hc := collected_of_groupEntries hgroups
  intro e he key hkey agg hagg arg harg
  obtain ⟨members, hmembers⟩ := mem_iff.1 ((hc.mem key).2 (Or.inr ⟨e, he, hkey⟩))
  have hx : (key, members) ∈ groups.toList := mem_toList.2 hmembers
  obtain ⟨hmem, hsum⟩ := hc.sum_pos hpos hx he hkey
  obtain ⟨values, hvalues⟩ := (emitGroups_evaluates hemit).2 hempty _ hx hsum
  obtain ⟨v, hv⟩ := evaluateAll_ok hvalues agg hagg
  have hxpos : ∀ y ∈ members, 0 < y.2.val := by
    intro y hy
    rw [show members = _ from hc.members_of_mem hx] at hy
    exact hpos y (mem_filter.1 hy).1
  obtain ⟨o, ho⟩ := evaluate_evaluates hxpos hv e hmem
  obtain ⟨v', hv', _⟩ := slotInput_ok harg ho
  exact ⟨v', hv'⟩

end Mutiny.Schweep
