import Mutiny.Lib.Wrap
import Mutiny.Schweep.LinearSpec

/- The aggregate's step.

   The state is a linear image of the accumulated input (`rowState`): each row
   adds to its group's total and to one value of each slot. What a group emits
   reads only that group's keys of the state, so an epoch changes the emission
   of the groups it touches and of no other (`emission_of_untouched`). The output
   is the sum of what the groups emit, and a step adds to it what the touched
   groups changed by (`Aggregate.track_step`). In a build without overflow checks
   the collected change is exact only up to wrapping, and so is the state; the
   rest of the step does not depend on the build. -/
namespace Mutiny.Schweep
open Mutiny.Lib SortedMap ZSet WeightMap
open Finsupp (single)

/-- Data and live errors together. -/
abbrev Streams := ZSet Row × ZSet Row

namespace Aggregate

/-- What a row puts into one slot's multiset: nothing for `COUNT(*)` and nothing
    for a null. -/
def slotInput (schema : Schema) (row : Row) (func : AggFunc) : Except PlanError (Option Value) :=
  match func.argument with
  | none => .ok none
  | some argument => do
    let v ← eval schema row argument
    return if v.isNull then none else some v

noncomputable def slotState (schema : Schema) (row : Row) (group : List Value) : Nat → List (Named AggFunc) → ZSet Key
  | _, [] => 0
  | slot, agg :: rest => (match slotInput schema row agg.value with
      | .ok (some value) => single (valueKey slot group value) 1
      | _ => 0) + slotState schema row group (slot + 1) rest

noncomputable def slotErrs (schema : Schema) (row : Row) : List (Named AggFunc) → ZSet Row
  | [] => 0
  | agg :: rest => (match slotInput schema row agg.value with
      | .error e => single (errorRow e) 1
      | _ => 0) + slotErrs schema row rest

/-- What one row adds to the state. -/
noncomputable def rowState (a : Aggregate) (row : Row) : ZSet Key :=
  match evalNamed a.inputSchema row a.keys with
  | .error _ => 0
  | .ok group => single (totalKey group) 1 + slotState a.inputSchema row group 0 a.aggregates

/-- The live errors one row adds. -/
noncomputable def rowErrors (a : Aggregate) (row : Row) : ZSet Row :=
  match evalNamed a.inputSchema row a.keys with
  | .error e => single (errorRow e) 1
  | .ok _ => slotErrs a.inputSchema row a.aggregates

/-! Collecting an epoch's change. -/

variable {build : Build} {w : I64} {schema : Schema} {row : Row} {d' : AggDelta} {d : AggDelta} {a : Aggregate}

/-- The state key of a slot, group and value. -/
def slotKey (k : ℕ ×ₗ List Value ×ₗ Value) : Key :=
  valueKey (ofLex k).1 (ofLex (ofLex k).2).1 (ofLex (ofLex k).2).2

def slotGroup (k : ℕ ×ₗ List Value ×ₗ Value) : List Value := (ofLex (ofLex k).2).1

/-- The change to the state that an epoch's delta describes. -/
noncomputable def deltaState (d : AggDelta) : ZSet Key :=
  ZSet.lin (fun g => single (totalKey g) 1) d.totals.denote +
    ZSet.lin (fun k => single (slotKey k) 1) d.values.denote

theorem addPlain_spec {α : Type} [LinearOrder α] {m m' : WeightMap α} {k : α} (h : addPlain build m k w = .ok m') :
    Wraps build (m.denote + single k w.val) m'.denote ∧ ∀ k', k' ∈ m' ↔ k = k' ∨ k' ∈ m := by
  unfold addPlain at h
  split at h
  · cases h
  · next sum hs =>
    cases h
    refine ⟨?_, fun k' => by simp [Std.ExtTreeMap.mem_insert]⟩
    cases build with
    | checked =>
      rw [denote_insert (I64.checkedAdd_eq_some.1 hs)]
      exact Wraps.refl _
    | wrapping =>
      cases hs
      -- the new weight is the exact sum up to a multiple of 2^64
      have hval : ∃ c : ℤ, (I64.wrap ((m.weight k).val + w.val)).val =
          (m.weight k).val + w.val + 18446744073709551616 * c := by
        refine ⟨-(((m.weight k).val + w.val + 9223372036854775808) / 18446744073709551616), ?_⟩
        show ((m.weight k).val + w.val + 9223372036854775808) % 18446744073709551616 - 9223372036854775808 = _
        omega
      obtain ⟨c, hc⟩ := hval
      refine ⟨single k c, ?_, fun hbuild => by cases hbuild⟩
      ext b
      rw [denote_apply, weight_insert, Finsupp.add_apply, Finsupp.add_apply,
        denote_apply, Finsupp.smul_apply, smul_eq_mul]
      by_cases hb : k = b
      · subst hb
        simp [hc]
      · simp [hb]

theorem collectSlots_spec {group : List Value} {aggs : List (Named AggFunc)} {slot n : Nat}
    (hn : slot + aggs.length ≤ n) (h : collectSlots build schema row w group slot d aggs = .ok d') :
    d'.totals = d.totals ∧
      Wraps build (deltaState d + w.val • slotState schema row group slot aggs) (deltaState d') ∧
      ofEntries d'.errors = ofEntries d.errors + w.val • slotErrs schema row aggs ∧
      ∀ k ∈ d'.values, k ∈ d.values ∨ slotGroup k = group ∧ (ofLex k).1 < n := by
  induction aggs generalizing slot d with
  | nil =>
    cases h
    refine ⟨rfl, ?_, ?_, fun k hk => Or.inl hk⟩
    · simpa [slotState] using Wraps.refl _
    · simp [slotErrs]
  | cons agg rest ih =>
    have hrest : slot + 1 + rest.length ≤ n := by
      rw [List.length_cons] at hn
      omega
    unfold collectSlots at h
    split at h
    · next harg =>
      have hin : slotInput schema row agg.value = .ok none := by simp [slotInput, harg]
      obtain ⟨ht, hs, he, hk⟩ := ih hrest h
      exact ⟨ht, by simpa [slotState, hin] using hs, by simp [he, slotErrs, hin], hk⟩
    · next argument harg =>
      split at h
      · next hv =>
        have hin : slotInput schema row agg.value = .ok none := by
          simp [slotInput, harg, hv, Value.isNull]
        obtain ⟨ht, hs, he, hk⟩ := ih hrest h
        exact ⟨ht, by simpa [slotState, hin] using hs, by simp [he, slotErrs, hin], hk⟩
      · next value hnn hv =>
        have hin : slotInput schema row agg.value = .ok (some value) := by
          cases value <;> simp_all [slotInput, Value.isNull]
        obtain ⟨values, hadd, h⟩ := bind_ok.1 h
        obtain ⟨hden, hmem⟩ := addPlain_spec hadd
        obtain ⟨ht, hs, he, hk⟩ := ih hrest h
        refine ⟨ht, ?_, by simp [he, slotErrs, hin], fun k hk' => ?_⟩
        · have hstep : Wraps build (deltaState d + w.val • single (valueKey slot group value) 1)
              (deltaState { d with values := values }) := by
            have := (Wraps.refl (lin (fun g => single (totalKey g) 1) d.totals.denote)).add
              (hden.lin (fun k => single (slotKey k) 1))
            simpa only [deltaState, map_add, lin_single, slotKey, ofLex_toLex, add_assoc] using this
          rw [slotState, hin, smul_add, ← add_assoc]
          exact (hstep.add (Wraps.refl _)).trans hs
        · rcases hk k hk' with hin | hg
          · rcases (hmem k).1 hin with rfl | hin
            · exact Or.inr ⟨rfl, (Nat.lt_succ_self slot).trans_le ((Nat.le_add_right _ _).trans hrest)⟩
            · exact Or.inl hin
          · exact Or.inr hg
      · next e hv =>
        have hin : slotInput schema row agg.value = .error e := by simp [slotInput, harg, hv]
        split at h
        · obtain ⟨ht, hs, he, hk⟩ := ih hrest h
          refine ⟨ht, ?_, ?_, hk⟩
          · simpa [deltaState, slotState, hin] using hs
          · rw [he]
            simp [slotErrs, hin, add_assoc]
        · cases h

/-- What holds of a collected change: values belong to slots and to touched
    groups, and groups have the keys' width. -/
structure Grouped (a : Aggregate) (d : AggDelta) : Prop where
  slots : ∀ k ∈ d.values, (ofLex k).1 < a.aggregates.length
  values : ∀ k ∈ d.values, slotGroup k ∈ d.totals
  width : ∀ g ∈ d.totals, g.length = a.keys.length

theorem evalNamed_length {items : List (Named Expr)} {values : List Value}
    (h : evalNamed schema row items = .ok values) : values.length = items.length := by
  induction items generalizing values with
  | nil => cases h; rfl
  | cons item rest ih =>
    unfold evalNamed at h
    obtain ⟨v, _, h⟩ := bind_ok.1 h
    obtain ⟨vs, hvs, h⟩ := bind_ok.1 h
    cases h
    simp [ih hvs]

theorem collect_spec {l : Entries} (h : a.collect build d l = .ok d') (hg : a.Grouped d) :
    a.Grouped d' ∧ Wraps build (deltaState d + lin a.rowState (ofEntries l)) (deltaState d') ∧
      ofEntries d'.errors = ofEntries d.errors + lin a.rowErrors (ofEntries l) := by
  induction l generalizing d with
  | nil => cases h; exact ⟨hg, by simpa using Wraps.refl _, by simp⟩
  | cons e rest ih =>
    obtain ⟨row, w⟩ := e
    rw [ofEntries_cons, map_add, map_add, lin_single, lin_single]
    unfold collect at h
    split at h
    · next e hk =>
      split at h
      · obtain ⟨hg', hs, he⟩ := ih h ⟨hg.slots, hg.values, hg.width⟩
        refine ⟨hg', ?_, ?_⟩
        · simpa [deltaState, rowState, hk] using hs
        · rw [he]
          simp [rowErrors, hk, add_assoc]
      · cases h
    · next group hk =>
      obtain ⟨totals, hadd, h⟩ := bind_ok.1 h
      obtain ⟨d1, hslots, h⟩ := bind_ok.1 h
      obtain ⟨hden, hmem⟩ := addPlain_spec hadd
      obtain ⟨ht, hs1, he1, hk1⟩ := collectSlots_spec (Nat.zero_add _).le hslots
      have hg1 : a.Grouped d1 := by
        refine ⟨fun k hkv => (hk1 k hkv).elim (hg.slots k) And.right, fun k hkv => ?_, fun g hgt => ?_⟩
        · rw [ht]
          rcases hk1 k hkv with hin | ⟨hgr, -⟩
          · exact (hmem _).2 (Or.inr (hg.values k hin))
          · exact (hmem _).2 (Or.inl hgr.symm)
        · rw [ht] at hgt
          rcases (hmem g).1 hgt with rfl | hin
          · exact evalNamed_length hk
          · exact hg.width g hin
      obtain ⟨hg', hs, he⟩ := ih h hg1
      refine ⟨hg', ?_, ?_⟩
      · have hstep : Wraps build (deltaState d + w.val • single (totalKey group) 1)
            (deltaState { d with totals := totals }) := by
          have := (hden.lin (fun g => single (totalKey g) 1)).add
            (Wraps.refl (lin (fun k => single (slotKey k) 1) d.values.denote))
          simp only [deltaState, map_add, lin_single] at this ⊢
          rwa [add_right_comm] at this
        rw [rowState, hk, smul_add, ← add_assoc, ← add_assoc]
        exact (((hstep.add (Wraps.refl _)).trans hs1).add (Wraps.refl _)).trans hs
      · rw [he, he1]
        simp only [rowErrors, hk, add_assoc]

theorem ofEntries_stateBatch (a : Aggregate) (d : AggDelta) (wasPrimed : Bool) :
    ofEntries (a.stateBatch d wasPrimed) =
      deltaState d + (if a.isGrandTotal && !wasPrimed then single primedKey 1 else 0) := by
  unfold stateBatch deltaState
  rw [ofEntries_append, ofEntries_append]
  congr 1
  · congr 1
    · exact ofEntries_map totalKey d.totals.toList
    · exact ofEntries_map slotKey d.values.toList
  · split <;> simp

/-! What a group emits. -/

variable {b b' state : MemBackend} {k : Key} {g : List Value}

noncomputable def emissionStreams : Emission → Streams
  | .absent => 0
  | .row r => (single r 1, 0)
  | .failed e => (0, single (errorRow e) 1)

/-- What one group contributes to the output, for groups of the keys' width. -/
noncomputable def groupStreams (a : Aggregate) (primed : Bool) (g : List Value) : Streams :=
  if g.length = a.keys.length then
    match a.emission g primed with
    | .ok e => emissionStreams e
    | .error _ => 0
  else 0

theorem totalKey_injective : Function.Injective totalKey := fun _ _ h => (List.cons.inj h).2

theorem visitPrefix_congr (h : b.entries.Reduced) (h' : b'.entries.Reduced) {p : Key}
    (hd : ∀ k, p <+: k → b'.denote k = b.denote k) : b'.visitPrefix p = b.visitPrefix p := by
  rw [MemBackend.visitPrefix_eq_filter, MemBackend.visitPrefix_eq_filter]
  have hsub : ∀ {m : WeightMap Key}, m.Reduced →
      IsCanonical (m.toList.filter (fun e => p.isPrefixOf e.1)) := fun hm =>
    ⟨hm.isCanonical.sorted.filter _, fun e he => hm.isCanonical.nonzero e (List.mem_filter.1 he).1⟩
  have hmem : ∀ {m : WeightMap Key}, m.Reduced → ∀ k w,
      (k, w) ∈ m.toList.filter (fun e => p.isPrefixOf e.1) ↔ p <+: k ∧ m.denote k = w.val ∧ w.val ≠ 0 := by
    intro m hm k w
    rw [List.mem_filter, hm.isCanonical.mem_iff, List.isPrefixOf_iff_prefix, and_comm]
    rfl
  have hperm : (b'.entries.toList.filter (fun e => p.isPrefixOf e.1)).Perm
      (b.entries.toList.filter (fun e => p.isPrefixOf e.1)) := by
    apply (List.perm_ext_iff_of_nodup (hsub h').nodup.of_map (hsub h).nodup.of_map).2
    rintro ⟨k, w⟩
    rw [hmem h', hmem h]
    refine and_congr_right (fun hk => ?_)
    have := hd k hk
    simp only [MemBackend.denote] at this
    rw [this]
  exact hperm.eq_of_pairwise (fun a b _ _ hab hba => absurd (hab.trans hba) (lt_irrefl _))
    (hsub h').sorted (hsub h).sorted

theorem get_congr (h : b.entries.Reduced) (h' : b'.entries.Reduced) (hd : b'.denote k = b.denote k) :
    b'.get k = b.get k := by
  apply Option.ext
  intro w
  unfold MemBackend.get
  rw [h'.getElem?_eq_some, h.getElem?_eq_some]
  simp only [MemBackend.denote] at hd
  rw [hd]

section

variable (ht : state.get (totalKey g) = a.state.get (totalKey g))
  (hv : ∀ slot, state.visitPrefix (valuesPrefix slot g) = a.state.visitPrefix (valuesPrefix slot g))
include ht hv

theorem fold_congr (slot : Nat) (func : AggFunc) :
    fold { a with state := state } slot g func = a.fold slot g func := by
  unfold fold total
  cases func <;> simp only [ht, hv]

theorem foldAll_congr (slot : Nat) (aggs : List (Named AggFunc)) :
    foldAll { a with state := state } g slot aggs = a.foldAll g slot aggs := by
  induction aggs generalizing slot with
  | nil => rfl
  | cons agg rest ih => rw [foldAll, foldAll, fold_congr ht hv, ih]

/-- A group's emission reads its total and its slots, and nothing else. -/
theorem emission_congr {before after : Bool} (hp : a.isGrandTotal = true → after = before) :
    emission { a with state := state } g after = a.emission g before := by
  have hgrand : isGrandTotal { a with state := state } = a.isGrandTotal := rfl
  have htotal : total { a with state := state } g = a.total g := by
    unfold total
    rw [← ht]
  unfold emission
  rw [foldAll_congr ht hv, hgrand, htotal]
  by_cases hg : a.isGrandTotal = true
  · rw [hp hg]
  · simp only [hg, Bool.false_eq_true, if_false]

end

theorem stateBatch_of_untouched {wasPrimed : Bool} (hd : a.Grouped d) (hw : g.length = a.keys.length)
    (hg : g ∉ d.totals) (hk : k = totalKey g ∨ ∃ slot, valuesPrefix slot g <+: k) :
    ofEntries (a.stateBatch d wasPrimed) k = 0 := by
  refine ofEntries_apply_eq_zero (fun e he hek => ?_)
  unfold stateBatch at he
  rw [List.mem_append, List.mem_append, List.mem_map, List.mem_map] at he
  rcases he with (⟨⟨g', w⟩, hm, rfl⟩ | ⟨⟨k', w⟩, hm, rfl⟩) | hprimed
  · -- another group's total
    have hin : g' ∈ d.totals := mem_of_mem_toList hm
    dsimp only at hek
    rcases hk with rfl | ⟨slot, hpre⟩
    · exact hg (totalKey_injective hek ▸ hin)
    · rw [← hek] at hpre
      exact absurd ((List.cons_prefix_cons.1 hpre).1) (by simp)
  · -- a value of another group
    have hin' := hd.values k' (mem_of_mem_toList hm)
    have hwidth := hd.width _ hin'
    dsimp only at hek
    rcases hk with rfl | ⟨slot, hpre⟩
    · exact absurd (List.cons.inj hek).1 (by simp)
    · rw [← hek] at hpre
      obtain ⟨_, hpre⟩ := List.cons_prefix_cons.1 hpre
      obtain ⟨_, hpre⟩ := List.cons_prefix_cons.1 hpre
      have hlen : g.length = (slotGroup k').length := by rw [hw, hwidth]
      have hgg := List.prefix_of_prefix_length_le hpre (List.prefix_append _ _) (le_of_eq hlen)
      exact hg (hgg.eq_of_length hlen ▸ hin')
  · -- the marker of a grand total
    split at hprimed
    · rw [List.mem_singleton] at hprimed
      subst hprimed
      rcases hk with rfl | ⟨slot, hpre⟩
      · exact absurd (List.cons.inj hek).1 (by simp)
      · rw [← hek] at hpre
        exact absurd ((List.cons_prefix_cons.1 hpre).1) (by simp)
    · cases hprimed

/-! The step. -/

variable {primed : Bool} {z : ZSet Row} {streams : Streams}

theorem slotState_primedKey (schema : Schema) (row : Row) (g : List Value) (slot : Nat)
    (aggs : List (Named AggFunc)) : slotState schema row g slot aggs primedKey = 0 := by
  induction aggs generalizing slot with
  | nil => rfl
  | cons agg rest ih =>
    rw [slotState, Finsupp.add_apply, ih, add_zero]
    split
    · exact Finsupp.single_eq_of_ne (fun h => absurd (List.cons.inj h).1 (by simp))
    · rfl

theorem lin_rowState_primedKey (a : Aggregate) (z : ZSet Row) : lin a.rowState z primedKey = 0 := by
  have hrow : ∀ row, a.rowState row primedKey = 0 := by
    intro row
    unfold rowState
    split
    · rfl
    · rw [Finsupp.add_apply, slotState_primedKey, add_zero]
      exact Finsupp.single_eq_of_ne (fun h => absurd (List.cons.inj h).1 (by simp))
  rw [lin_apply, Finsupp.sum_apply]
  exact Finset.sum_eq_zero (fun row _ => by simp [hrow])

/-- What an aggregate remembers of its input, in either build, and what it has
    emitted. A grand total emits from its first step on, and marks that it has. -/
structure Tracks (a : Aggregate) (build : Build) (primed : Bool) (z : ZSet Row) (streams : Streams) : Prop where
  reduced : a.state.entries.Reduced
  state : Wraps build (ZSet.lin a.rowState z + (if a.isGrandTotal && primed then single primedKey 1 else 0))
    a.state.denote
  streams : streams = (0, ZSet.lin a.rowErrors z) + ∑ᶠ g, a.groupStreams primed g

theorem Tracks.wasPrimed (h : a.Tracks build primed z streams) :
    (a.state.get primedKey).isSome = (a.isGrandTotal && primed) := by
  have hd : a.state.entries.denote primedKey = if a.isGrandTotal && primed then 1 else 0 := by
    have hexact : (lin a.rowState z + (if a.isGrandTotal && primed then single primedKey 1 else 0) :
        ZSet Key) primedKey = if a.isGrandTotal && primed then 1 else 0 := by
      rw [Finsupp.add_apply, lin_rowState_primedKey, zero_add]
      split <;> simp
    rw [← hexact]
    refine h.state.apply_eq ?_ ?_
    · rw [hexact]
      split <;> decide
    · exact denote_inI64 _ _
  cases hp : a.isGrandTotal && primed with
  | true =>
    have : a.state.get primedKey = some I64.one := by
      unfold MemBackend.get
      rw [h.reduced.getElem?_eq_some, hd, hp]
      exact ⟨rfl, by decide⟩
    rw [this]
    rfl
  | false =>
    cases hg : a.state.get primedKey with
    | none => rfl
    | some w =>
      unfold MemBackend.get at hg
      rw [h.reduced.getElem?_eq_some, hd, hp] at hg
      exact absurd hg.1.symm hg.2

theorem emission_of_not_grandTotal (h : a.isGrandTotal = false) (g : List Value) (p p' : Bool) :
    a.emission g p = a.emission g p' := by
  simp only [emission, h, Bool.false_eq_true, if_false]

/-- Only groups with a total, and the one group without a key, emit. -/
theorem groupStreams_finite (a : Aggregate) (primed : Bool) : (Function.support (a.groupStreams primed)).Finite := by
  have hkeys : {g | totalKey g ∈ a.state.entries}.Finite := by
    refine Set.Finite.subset (Set.Finite.preimage totalKey_injective.injOn
      (a.state.entries.keys.toFinset.finite_toSet)) (fun g hg => ?_)
    simpa [mem_keys] using hg
  refine (hkeys.union (Set.finite_singleton [])).subset (fun g hg => ?_)
  by_contra hno
  rw [Set.mem_union, not_or] at hno
  refine hg ?_
  unfold groupStreams
  split
  · next hw =>
    have hkeyed : a.isGrandTotal = false := by
      cases hk : a.keys with
      | nil => rw [hk] at hw; exact absurd (List.length_eq_zero_iff.1 hw) hno.2
      | cons k ks => simp [isGrandTotal, hk]
    have htotal : (a.total g).val = 0 := by
      have : a.state.get (totalKey g) = none := by
        unfold MemBackend.get
        rw [getElem?_eq_none_iff]
        exact hno.1
      simp [total, this]
    simp [emission, hkeyed, htotal, emissionStreams]
  · rfl

theorem touched_nodup (a : Aggregate) (d : AggDelta) : (a.touched d).Nodup := by
  unfold touched
  dsimp only
  split
  · next h =>
    refine List.Nodup.append (nodup_keys d.totals) (List.nodup_singleton []) ?_
    intro g hg hnil
    rw [List.mem_singleton] at hnil
    subst hnil
    simp only [Bool.and_eq_true, Bool.not_eq_true', List.any_eq_false] at h
    exact h.2 [] hg rfl
  · exact (nodup_keys d.totals)

theorem mem_touched (hd : a.Grouped d) :
    (g ∈ a.touched d → g.length = a.keys.length) ∧
      (g ∉ a.touched d → g.length = a.keys.length → a.isGrandTotal = false ∧ g ∉ d.totals) := by
  have hin : ∀ g ∈ d.totals.keys, g.length = a.keys.length :=
    fun g hg => hd.width g (mem_keys.1 hg)
  unfold touched
  dsimp only
  split
  · next h =>
    simp only [Bool.and_eq_true, isGrandTotal, List.isEmpty_iff] at h
    rw [List.mem_append, List.mem_singleton]
    refine ⟨fun hg => ?_, fun hg hw => ?_⟩
    · rcases hg with hg | rfl
      · exact hin g hg
      · rw [h.1]; rfl
    · rw [h.1, List.length_nil, List.length_eq_zero_iff] at hw
      exact absurd (Or.inr hw) hg
  · next h =>
    refine ⟨hin g, fun hg hw => ⟨?_, fun hm => hg (mem_keys.2 hm)⟩⟩
    cases hk : a.isGrandTotal with
    | false => rfl
    | true =>
      -- the group without a key is touched already
      simp only [hk, Bool.true_and, Bool.not_eq_true', Bool.not_eq_false, List.any_eq_true] at h
      obtain ⟨g', hg', hnil⟩ := h
      simp only [isGrandTotal, List.isEmpty_iff] at hk
      rw [hk, List.length_nil, List.length_eq_zero_iff] at hw
      rw [List.isEmpty_iff] at hnil
      exact absurd (hw ▸ hnil ▸ hg') hg

theorem ofEntries_emission (w : I64) (e : Emission) :
    (ofEntries (Emission.entries w e).1, ofEntries (Emission.entries w e).2) =
      w.val • emissionStreams e := by
  cases e <;> simp [Emission.entries, emissionStreams]

theorem changes_spec {pairs : List (List Value × Emission)} {out errors : Entries}
    (h : a.changes pairs = .ok (out, errors)) (hw : ∀ p ∈ pairs, p.1.length = a.keys.length) :
    (ofEntries out, ofEntries errors) =
      (pairs.map (fun p => a.groupStreams true p.1 - emissionStreams p.2)).sum := by
  induction pairs generalizing out errors with
  | nil => cases h; rfl
  | cons p rest ih =>
    obtain ⟨g, was⟩ := p
    unfold changes at h
    obtain ⟨now, hnow, h⟩ := bind_ok.1 h
    obtain ⟨⟨out', errors'⟩, hrest, h⟩ := bind_ok.1 h
    have ih' := ih hrest (fun p hp => hw p (List.mem_cons_of_mem _ hp))
    have hg : a.groupStreams true g = emissionStreams now := by
      rw [groupStreams, if_pos (hw (g, was) List.mem_cons_self), hnow]
    rw [List.map_cons, List.sum_cons, ← ih', hg]
    dsimp only at h
    split at h
    · next heq =>
      cases h
      rw [heq, sub_self, zero_add]
    · cases h
      have hb := ofEntries_emission I64.negOne was
      have ha := ofEntries_emission I64.one now
      rw [I64.negOne_val, neg_one_smul] at hb
      rw [I64.one_val, one_smul] at ha
      rw [← ha, sub_eq_add_neg, ← hb]
      simp only [ofEntries_append, Prod.mk_add_mk, Prod.mk.injEq]
      constructor <;> abel

theorem emissions_spec {groups : List (List Value)} {es : List Emission} (h : a.emissions primed groups = .ok es)
    (hw : ∀ g ∈ groups, g.length = a.keys.length) :
    es.length = groups.length ∧
      ∀ f : List Value → Streams, ((groups.zip es).map (fun p => f p.1 - emissionStreams p.2)).sum =
        (groups.map (fun g => f g - a.groupStreams primed g)).sum := by
  induction groups generalizing es with
  | nil => cases h; simp
  | cons g rest ih =>
    unfold emissions at h
    obtain ⟨e, he, h⟩ := bind_ok.1 h
    obtain ⟨es', hes, h⟩ := bind_ok.1 h
    cases h
    obtain ⟨hl, hs⟩ := ih hes (fun x hx => hw x (List.mem_cons_of_mem _ hx))
    refine ⟨by simp [hl], fun f => ?_⟩
    rw [List.zip_cons_cons, List.map_cons, List.sum_cons, List.map_cons, List.sum_cons, hs f]
    congr 2
    rw [groupStreams, if_pos (hw g List.mem_cons_self), he]

/-- The parts of an aggregate that no step changes. -/
structure SameShape (a a' : Aggregate) : Prop where
  inputSchema : a'.inputSchema = a.inputSchema
  outputSchema : a'.outputSchema = a.outputSchema
  keys : a'.keys = a.keys
  aggregates : a'.aggregates = a.aggregates

variable {inputs : List ZSetBatch}

theorem step_ok {a' : Aggregate} {out : StepOutput} (h : a.step build inputs = (.ok out, a')) :
    ∃ input d before state, inputs = [input] ∧ a.Grouped d ∧
      Wraps build (lin a.rowState input.denote) (deltaState d) ∧
      ofEntries d.errors = lin a.rowErrors input.denote ∧
      a.emissions (a.state.get primedKey).isSome (a.touched d) = .ok before ∧
      a.state.write (a.stateBatch d (a.state.get primedKey).isSome) = .ok state ∧ a' = { a with state := state } ∧
      ∃ entries errors, a'.changes ((a.touched d).zip before) = .ok (entries, errors) ∧
        a'.finish entries (d.errors ++ errors) = .ok out := by
  unfold step at h
  split at h
  · cases h
  · next d before hprep =>
    unfold prepare at hprep
    obtain ⟨input, hin, hprep⟩ := bind_ok.1 hprep
    obtain ⟨_, _, hprep⟩ := bind_ok.1 hprep
    obtain ⟨d', hcollect, hprep⟩ := bind_ok.1 hprep
    obtain ⟨before', hbefore, hprep⟩ := bind_ok.1 hprep
    cases hprep
    split at h
    · cases h
    · next state hwrite =>
      obtain ⟨hfin, rfl⟩ := Prod.mk.injEq .. ▸ h
      obtain ⟨⟨entries, errors⟩, hchanges, hfin⟩ := bind_ok.1 hfin
      obtain ⟨hgrouped, hdelta, herrs⟩ := collect_spec hcollect ⟨by simp, by simp, by simp⟩
      refine ⟨input, d, before, state, unary_ok hin, hgrouped, ?_, ?_, hbefore, hwrite, rfl, entries, errors, hchanges,
        hfin⟩
      · simpa only [deltaState, denote_empty, map_zero, zero_add, ZSetBatch.denote] using hdelta
      · rw [herrs, ofEntries_nil, zero_add, ZSetBatch.denote]

/-- A step folds the delta into the state and emits what the touched groups
    changed by; from then on a grand total has emitted. -/
theorem track_step {a' : Aggregate} (ha : a.Tracks build primed z streams) {out : StepOutput}
    (h : a.step build inputs = (.ok out, a')) :
    ∃ input, inputs = [input] ∧ a.SameShape a' ∧ out.data.schema = a.outputSchema ∧
      out.errors.schema = errorSchema ∧
      a'.Tracks build true (z + input.denote) (streams + (out.data.denote, out.errors.denote)) := by
  obtain ⟨input, d, before, state, hin, hgrouped, hdelta, herrs, hbefore, hwrite, rfl, entries, errors, hchanges, hfin⟩ :=
    step_ok h
  unfold finish at hfin
  obtain ⟨batch, hbatch, hfin⟩ := bind_ok.1 hfin
  obtain ⟨data, hdata, hfin⟩ := bind_ok.1 hfin
  obtain ⟨hbs, hbe⟩ := ZSetBatch.fromEntries_ok (opZSet_ok.1 hbatch)
  obtain ⟨hcs, _, hcd⟩ := ZSetBatch.consolidate_spec (opZSet_ok.1 hdata)
  obtain ⟨hd, hes, he⟩ := StepOutput.new_ok hfin
  obtain ⟨hwd, hwr⟩ := MemBackend.write_spec hwrite
  have hprimed := ha.wasPrimed
  have hwidth : ∀ g ∈ a.touched d, g.length = a.keys.length := fun g hg => (mem_touched hgrouped).1 hg
  refine ⟨input, hin, ⟨rfl, rfl, rfl, rfl⟩, hd ▸ hcs.trans hbs, hes, hwr ha.reduced, ?_, ?_⟩
  · -- the state is the linear image of the new input
    rw [hwd, ofEntries_stateBatch, hprimed]
    have hmark : lin a.rowState (z + input.denote) +
        (if a.isGrandTotal && true then single primedKey 1 else 0) =
          lin a.rowState z + (if a.isGrandTotal && primed then single primedKey 1 else 0) +
            (lin a.rowState input.denote +
              (if a.isGrandTotal && !(a.isGrandTotal && primed) then single primedKey 1 else 0)) := by
      rw [map_add]
      cases a.isGrandTotal <;> cases primed <;> simp <;> abel
    show Wraps build (lin a.rowState (z + input.denote) +
      (if a.isGrandTotal && true then single primedKey 1 else 0)) _
    rw [hmark]
    exact ha.state.add (hdelta.add (Wraps.refl _))
  · -- the output changes by what the touched groups changed by
    have hem := emissions_spec hbefore hwidth
    have hch := changes_spec hchanges (fun p hp => hwidth p.1 (List.of_mem_zip hp).1)
    rw [hem.2] at hch
    have hflag : ∀ g, a.groupStreams (a.state.get primedKey).isSome g = a.groupStreams primed g := by
      intro g
      rw [hprimed]
      unfold groupStreams
      cases hg : a.isGrandTotal with
      | true => rfl
      | false => rw [emission_of_not_grandTotal hg g (false && primed) primed]
    simp only [hflag] at hch
    have hsum := finsum_change (groupStreams_finite a primed)
      (groupStreams_finite { a with state := state } true) (touched_nodup a d) (fun g hg => by
        unfold groupStreams
        by_cases hw : g.length = a.keys.length
        · obtain ⟨hkeyed, hno⟩ := (mem_touched hgrouped).2 hg hw
          have hsame : ∀ k, (k = totalKey g ∨ ∃ slot, valuesPrefix slot g <+: k) →
              state.denote k = a.state.denote k := by
            intro k hk
            rw [hwd, Finsupp.add_apply, stateBatch_of_untouched hgrouped hw hno hk, add_zero]
          have hem : emission { a with state := state } g true = a.emission g primed :=
            emission_congr (get_congr ha.reduced (hwr ha.reduced) (hsame _ (Or.inl rfl)))
              (fun slot => visitPrefix_congr ha.reduced (hwr ha.reduced)
                (fun k hk => hsame k (Or.inr ⟨slot, hk⟩)))
              (fun hg' => by rw [hkeyed] at hg'; cases hg')
          rw [if_pos hw, if_pos hw, hem]
        · rw [if_neg hw, if_neg hw])
    rw [ha.streams, hsum, ← hch, hd, hcd, ZSetBatch.denote, hbe, he, ofEntries_append, herrs]
    show _ = (0, lin a.rowErrors (z + input.denote)) + _
    rw [map_add]
    ext1
    · simp only [Prod.fst_add, zero_add]
    · simp only [Prod.snd_add, ZSetBatch.denote]
      abel

end Aggregate
end Mutiny.Schweep
