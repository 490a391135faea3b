import Mutiny.Lib.Pointwise
import Mutiny.Schweep.AggregateSpec
import Mutiny.Schweep.Circuit
import Mutiny.Schweep.JoinSpec

/- What a circuit holds after any number of passes.

   Every operator holds a function of the accumulated inputs it was given
   (`Operator.Tracks`), and a step moves it along its input delta
   (`Operator.track_step`). A pass moves every node of a circuit at once, because
   index order is a topological order, and folds each node's deltas into the
   sinks (`Circuit.pass_spec`). What the circuit holds is stated against a
   function `S` from nodes to the data and errors they have emitted so far. -/
namespace Mutiny.Schweep
open Mutiny.Lib ZSet WeightMap List
open Finsupp (single)

/-! Distinct. -/

/-- One for a positive weight, zero otherwise. -/
def present (w : ℤ) : ℤ := if 0 < w then 1 else 0

noncomputable def presence {α : Type} (z : ZSet α) : ZSet α := z.mapRange present rfl

theorem presence_apply {α : Type} (z : ZSet α) (a : α) : presence z a = present (z a) :=
  Finsupp.mapRange_apply

theorem presence_zero {α : Type} : presence (0 : ZSet α) = 0 := by
  ext a
  rw [presence_apply]
  rfl

namespace Distinct

structure Holds (d : Distinct) (z : ZSet Row) : Prop where
  reduced : d.state.entries.Reduced
  state : d.state.denote = z

theorem sign_val (w : I64) : (sign w).val = present w.val := by
  unfold sign present
  split <;> rfl

theorem flips_spec {state : MemBackend} {l out : Entries} (hd : (l.map Prod.fst).Nodup)
    (h : flips state l = .ok out) :
    ofEntries out = presence (state.denote + ofEntries l) - presence state.denote := by
  induction l generalizing out with
  | nil => cases h; simp
  | cons e rest ih =>
    obtain ⟨row, delta⟩ := e
    rw [map_cons, nodup_cons] at hd
    simp only [flips] at h
    split at h
    · cases h
    · next after hafter =>
      obtain ⟨tail, htail, h⟩ := bind_ok.1 h
      split at h
      · cases h
      · next change hchange =>
        have hrest : ofEntries rest row = 0 :=
          ofEntries_apply_eq_zero (fun x hx hxr => hd.1 (mem_map.2 ⟨x, hx, hxr⟩))
        have hbefore : ((state.get row).getD I64.zero).val = state.denote row := by
          rw [MemBackend.denote, denote_apply, weight_eq]; rfl
        have hav := I64.checkedAdd_eq_some.1 hafter
        have hcv : change.val = (sign after).val - (sign ((state.get row).getD I64.zero)).val :=
          I64.ofInt?_eq_some.1 hchange
        rw [sign_val, sign_val, hav, hbefore] at hcv
        have hout : ofEntries out = single row change.val + ofEntries tail := by
          cases h
          split
          · rw [ofEntries_cons]
          · next h0 => rw [not_not.1 h0, Finsupp.single_zero, zero_add]
        rw [hout, ih hd.2 htail]
        ext r
        simp only [Finsupp.add_apply, Finsupp.sub_apply, presence_apply, ofEntries_cons]
        by_cases hr : row = r
        · subst hr
          rw [Finsupp.single_eq_same, Finsupp.single_eq_same, hrest, hcv, add_zero, add_zero]
          ring
        · rw [Finsupp.single_eq_of_ne (Ne.symm hr), Finsupp.single_eq_of_ne (Ne.symm hr)]
          simp

theorem step_spec {d d' : Distinct} {z : ZSet Row} (hd : d.Holds z) {inputs : List ZSetBatch}
    {out : StepOutput} (h : d.step inputs = (.ok out, d')) :
    ∃ input, inputs = [input] ∧ d'.schema = d.schema ∧ out.data.schema = d.schema ∧
      out.errors.schema = errorSchema ∧ out.errors.denote = 0 ∧ d'.Holds (z + input.denote) ∧
      presence z + out.data.denote = presence (z + input.denote) := by
  unfold step at h
  split at h
  · cases h
  · next entries batch hprep =>
    unfold prepare at hprep
    obtain ⟨input, hin, hprep⟩ := bind_ok.1 hprep
    obtain ⟨_, _, hprep⟩ := bind_ok.1 hprep
    obtain ⟨c, hc, hprep⟩ := bind_ok.1 hprep
    obtain ⟨entries', hflips, hprep⟩ := bind_ok.1 hprep
    cases hprep
    obtain ⟨_, hcanon, hcd⟩ := ZSetBatch.consolidate_spec (opZSet_ok.1 hc)
    split at h
    · cases h
    · next state hwrite =>
      obtain ⟨hfin, rfl⟩ := Prod.mk.injEq .. ▸ h
      obtain ⟨data, hdata, hfin⟩ := bind_ok.1 hfin
      obtain ⟨hs, he⟩ := ZSetBatch.fromEntries_ok (opZSet_ok.1 hdata)
      obtain ⟨hd', hes, hez⟩ := StepOutput.infallible_ok hfin
      obtain ⟨hwd, hwr⟩ := MemBackend.write_spec hwrite
      have hdelta : ofEntries c.entries = input.denote := hcd
      refine ⟨input, unary_ok hin, rfl, hd' ▸ hs, hes, hez, ⟨hwr hd.reduced, ?_⟩, ?_⟩
      · rw [hwd, hd.state, hdelta]
      · rw [hd', ZSetBatch.denote, he, flips_spec hcanon.nodup hflips, hd.state, hdelta]
        abel

end Distinct

/-! Any operator. -/

namespace Operator

/-- An operator with its state emptied: the part no step changes. -/
def reset : Operator → Operator
  | .filter f => .filter f
  | .project p => .project p
  | .join j => .join { j with leftIndex := MemBackend.new, rightIndex := MemBackend.new }
  | .aggregate a => .aggregate { a with state := MemBackend.new }
  | .distinct d => .distinct { d with state := MemBackend.new }

/-- What an operator holds of its accumulated inputs, in either build, and what it
    has emitted. No state is kept at weight zero. -/
def Tracks (build : Build) (primed : Bool) (ins : List (ZSet Row)) (streams : Streams) : Operator → Prop
  | .filter f => ∃ z, ins = [z] ∧
      streams = (ZSet.lin (rowData (filterRow f.inputSchema f.predicate)) z,
        ZSet.lin (rowErrs (filterRow f.inputSchema f.predicate)) z)
  | .project p => ∃ z, ins = [z] ∧
      streams = (ZSet.lin (rowData (projectRow p.inputSchema p.items)) z,
        ZSet.lin (rowErrs (projectRow p.inputSchema p.items)) z)
  | .join j => ∃ l r, ins = [l, r] ∧ j.Holds l r ∧ j.Reduced ∧
      streams = (ZSet.lin₂ (Join.matched j.leftKey j.rightKey) l r, 0)
  | .aggregate a => ∃ z, ins = [z] ∧ a.Tracks build primed z streams
  | .distinct d => ∃ z, ins = [z] ∧ d.Holds z ∧ streams = (presence z, 0)

theorem reset_outputSchema (op : Operator) : op.reset.outputSchema = op.outputSchema := by
  cases op <;> rfl

theorem of_pair {α β γ : Type} {x : α × β} {f : β → γ} {a : α} {c : γ} (h : (x.1, f x.2) = (a, c)) :
    ∃ b, x = (a, b) ∧ c = f b := by
  cases x
  cases h
  exact ⟨_, rfl, rfl⟩

theorem track_step {op op' : Operator} {build : Build} {primed : Bool} {ins : List (ZSet Row)}
    {streams : Streams} (hop : op.Tracks build primed ins streams) {batches : List ZSetBatch} {out : StepOutput}
    (h : op.step build batches = (.ok out, op')) :
    op'.reset = op.reset ∧ out.data.schema = op.outputSchema ∧ out.errors.schema = errorSchema ∧
      op'.Tracks build true (List.zipWith (· + ·) ins (batches.map ZSetBatch.denote))
        (streams + (out.data.denote, out.errors.denote)) := by
  cases op with
  | filter f =>
    obtain ⟨hstep, rfl⟩ := Prod.mk.injEq .. ▸ h
    obtain ⟨z, rfl, rfl⟩ := hop
    obtain ⟨input, rfl, hs, hes, hd, he⟩ := Filter.step_spec hstep
    exact ⟨rfl, hs, hes, z + input.denote, by simp, by simp [hd, he]⟩
  | project p =>
    obtain ⟨hstep, rfl⟩ := Prod.mk.injEq .. ▸ h
    obtain ⟨z, rfl, rfl⟩ := hop
    obtain ⟨input, rfl, hs, hes, hd, he⟩ := Project.step_spec hstep
    exact ⟨rfl, hs, hes, z + input.denote, by simp, by simp [hd, he]⟩
  | join j =>
    obtain ⟨l, r, rfl, hj, hred, rfl⟩ := hop
    obtain ⟨j', hstep, rfl⟩ := of_pair (x := j.step batches) (f := Operator.join) h
    obtain ⟨bl, br, rfl, hshape, hkeep, hholds, hs, hes, he, hd⟩ := Join.step_spec hj hstep
    refine ⟨?_, hs, hes, l + bl.denote, r + br.denote, by simp, hholds, hkeep hred, ?_⟩
    · simp [reset, hshape.leftSchema, hshape.rightSchema, hshape.outputSchema, hshape.leftKey,
        hshape.rightKey]
    · rw [hshape.leftKey, hshape.rightKey, ← hd, he]
      simp
  | aggregate a =>
    obtain ⟨z, rfl, ha⟩ := hop
    obtain ⟨a', hstep, rfl⟩ := of_pair (x := a.step build batches) (f := Operator.aggregate) h
    obtain ⟨input, rfl, hshape, hs, hes, hholds⟩ := Aggregate.track_step ha hstep
    refine ⟨?_, hs, hes, z + input.denote, by simp, hholds⟩
    simp [reset, hshape.inputSchema, hshape.outputSchema, hshape.keys, hshape.aggregates]
  | distinct d =>
    obtain ⟨z, rfl, hd, rfl⟩ := hop
    obtain ⟨d', hstep, rfl⟩ := of_pair (x := d.step batches) (f := Operator.distinct) h
    obtain ⟨input, rfl, hsch, hs, hes, he, hholds, hp⟩ := Distinct.step_spec hd hstep
    refine ⟨by simp [reset, hsch], hs, hes, z + input.denote, by simp, hholds, ?_⟩
    rw [← hp, he]
    simp

end Operator

/-! Result stores. -/

theorem ZSetBatch.conforms_of_denote (b : ZSetBatch) {row : Row} (h : b.denote row ≠ 0) : b.schema.Conforms row := by
  by_contra hno
  exact h (ofEntries_apply_eq_zero (fun e he her => hno (her ▸ b.valid e he)))

namespace ResultStore

/-- A store holds a Z-set of rows of its schema, with no row at weight zero. -/
structure Holds (s : ResultStore) (z : ZSet Row) : Prop where
  reduced : s.integral.Reduced
  denote : s.integral.denote = z
  conforms : ∀ row, z row ≠ 0 → s.schema.Conforms row

theorem holds_new (schema : Schema) : (new schema).Holds 0 :=
  ⟨reduced_empty, denote_empty, fun _ h => absurd rfl h⟩

theorem absorbEntries_spec {m m' : WeightMap Row} {l : Entries} (hm : m.Reduced)
    (h : absorbEntries m l = (.ok (), m')) : m'.Reduced ∧ m'.denote = m.denote + ofEntries l := by
  induction l generalizing m with
  | nil => cases h; exact ⟨hm, by simp⟩
  | cons e rest ih =>
    obtain ⟨row, w⟩ := e
    unfold absorbEntries at h
    split at h
    · next hnone =>
      have hw : (m.weight row).val = 0 := by rw [weight_eq, hnone]; rfl
      by_cases h0 : w.val = 0
      · rw [if_neg (not_not.2 h0)] at h
        obtain ⟨hr, hd⟩ := ih hm h
        exact ⟨hr, by rw [hd, ofEntries_cons, h0, Finsupp.single_zero, zero_add]⟩
      · rw [if_pos h0] at h
        obtain ⟨hr, hd⟩ := ih (hm.insert h0) h
        refine ⟨hr, ?_⟩
        rw [hd, denote_insert (d := w) (by rw [hw, zero_add]), ofEntries_cons, add_assoc]
    · next held hheld =>
      have hw : m.weight row = held := by rw [weight_eq, hheld]; rfl
      split at h
      · cases h
      · next sum hsum =>
        have hsv := I64.checkedAdd_eq_some.1 hsum
        by_cases h0 : sum.val = 0
        · rw [if_pos h0] at h
          obtain ⟨hr, hd⟩ := ih (hm.erase row) h
          refine ⟨hr, ?_⟩
          rw [hd, denote_erase (d := w) (by rw [hw, ← hsv, h0]), ofEntries_cons, add_assoc]
        · rw [if_neg h0] at h
          obtain ⟨hr, hd⟩ := ih (hm.insert h0) h
          refine ⟨hr, ?_⟩
          rw [hd, denote_insert (d := w) (by rw [hw, hsv]), ofEntries_cons, add_assoc]

theorem absorb_schema (s : ResultStore) (b : ZSetBatch) : (s.absorb b).2.schema = s.schema := by
  unfold absorb
  split <;> rfl

variable {s : ResultStore} {z : ZSet Row}

theorem absorb_spec {s' : ResultStore} (hs : s.Holds z) {b : ZSetBatch} (h : s.absorb b = (.ok (), s')) :
    s'.Holds (z + b.denote) := by
  unfold absorb at h
  split at h
  · cases h
  · next hschema =>
    obtain ⟨m, hm, rfl⟩ := Operator.of_pair (x := absorbEntries s.integral b.entries)
      (f := fun m => (⟨s.schema, m⟩ : ResultStore)) h
    obtain ⟨hr, hd⟩ := absorbEntries_spec hs.reduced hm
    refine ⟨hr, by rw [hd, hs.denote]; rfl, fun row hrow => ?_⟩
    by_cases hz : z row = 0
    · refine not_not.1 hschema ▸ b.conforms_of_denote (fun hb => hrow ?_)
      rw [Finsupp.add_apply, hz, hb, add_zero]
    · exact hs.conforms row hz

theorem canonical_spec (hs : s.Holds z) :
    s.canonical = .ok ⟨s.schema, s.integral.toList⟩ ∧ IsCanonical s.integral.toList ∧
      ofEntries s.integral.toList = z := by
  have hvalid : ∀ e ∈ s.integral.toList, s.schema.Conforms e.1 := by
    intro e he
    refine hs.conforms e.1 ?_
    rw [← hs.denote, (hs.reduced.getElem?_eq_some.1 (SortedMap.mem_toList.1 he)).1]
    exact hs.reduced.isCanonical.nonzero e he
  refine ⟨?_, hs.reduced.isCanonical, hs.denote⟩
  unfold canonical contents
  rw [ZSetBatch.fromEntries_of_conforms hvalid]
  simp only [circuitZSet, ok_bind, ZSetBatch.canonical]
  rw [ZSetBatch.consolidatedEntries_of_canonical hs.reduced.isCanonical]

theorem isEmpty_iff (hs : s.Holds z) : s.isEmpty = true ↔ z = 0 := by
  constructor
  · intro h
    rw [← hs.denote]
    unfold isEmpty at h
    rw [Std.ExtTreeMap.isEmpty_iff.1 h]
    exact denote_empty
  · intro h
    have : s.integral = ∅ := hs.reduced.ext reduced_empty (by
      rw [hs.denote, h, denote_empty])
    rw [isEmpty, this]
    exact Std.ExtTreeMap.isEmpty_empty

end ResultStore

/-! One pass over the nodes. -/

variable {deltas : EpochDeltas} {out : PassOutput} {i : Nat} {subset : Option (List Nat)}

/-- The part of a node no pass changes. -/
def Node.reset : Node → Node
  | .source table aliasName schema => .source table aliasName schema
  | .operator op inputs => .operator op.reset inputs

theorem gather_append {outputs more : List (Option ZSetBatch)} {inputs : List Nat}
    {batches : List ZSetBatch} (h : gather outputs inputs = .ok batches) :
    gather (outputs ++ more) inputs = .ok batches := by
  induction inputs generalizing batches with
  | nil => exact h
  | cons i rest ih =>
    unfold gather at h
    split at h
    · next b hb =>
      obtain ⟨bs, hbs, h⟩ := bind_ok.1 h
      cases h
      have hlt : i < outputs.length := (List.getElem?_eq_some_iff.1 hb).1
      rw [gather, List.getElem?_append_left hlt, hb]
      simp only [ih hbs, ok_bind, pure_eq_ok]
    · cases h

noncomputable def PassOutput.errorsAt (out : PassOutput) (i : Nat) : ZSet Row :=
  (out.errors.map (fun p => if p.1 = i then p.2.denote else 0)).sum

noncomputable def PassOutput.dataAt (out : PassOutput) (i : Nat) : ZSet Row :=
  match out.outputs[i]? with
  | some (some batch) => batch.denote
  | _ => 0

/-- One slot before and after a pass with the given output: stepped if it has a
    node and the pass includes it, and otherwise as it was. -/
def Stepped (build : Build) (deltas : EpochDeltas) (subset : Option (List Nat)) (out : PassOutput) (i : Nat)
    (before after : Option Node) : Prop :=
  match (if included subset i then before else none) with
  | none => after = before ∧ out.dataAt i = 0 ∧ out.errorsAt i = 0
  | some node => ∃ batch errors node', after = some node' ∧ out.outputs[i]? = some (some batch) ∧
      node.produce build deltas out.outputs = (.ok (batch, errors), node') ∧
      out.errorsAt i = errors.elim 0 ZSetBatch.denote

theorem produce_append {build : Build} {node node' : Node} {outputs more : List (Option ZSetBatch)}
    {r : ZSetBatch × Option ZSetBatch} (h : node.produce build deltas outputs = (.ok r, node')) :
    node.produce build deltas (outputs ++ more) = (.ok r, node') := by
  cases node with
  | source table aliasName schema => exact h
  | operator op inputs =>
    unfold Node.produce at h ⊢
    dsimp only at h ⊢
    split at h
    · cases h
    · next batches hb => rw [gather_append hb]; exact h

theorem errorsAt_eq_zero (h : ∀ p ∈ out.errors, p.1 ≠ i) : out.errorsAt i = 0 := by
  unfold PassOutput.errorsAt
  apply sum_eq_zero
  intro z hz
  obtain ⟨p, hp, rfl⟩ := mem_map.1 hz
  exact if_neg (h p hp)

theorem stepSlots_spec {build : Build} {slots slots' : List Slot} {index : Nat} {outputs : List (Option ZSetBatch)}
    (hlen : outputs.length = index) (h : stepSlots build deltas subset index outputs slots = (.ok out, slots')) :
    outputs <+: out.outputs ∧ (slots'.length = slots.length ∧ out.outputs.length = index + slots.length) ∧
      (∀ p ∈ out.errors, index ≤ p.1) ∧ ∀ k slot, slots[k]? = some slot → ∃ slot', slots'[k]? = some slot' ∧
        Stepped build deltas subset out (index + k) slot.node slot'.node := by
  induction slots generalizing index outputs out slots' with
  | nil =>
    cases h
    refine ⟨prefix_refl _, ⟨rfl, hlen⟩, by simp, by simp⟩
  | cons slot rest ih =>
    unfold stepSlots at h
    split at h
    · next hnode =>
      obtain ⟨rest', hrest, rfl⟩ := Operator.of_pair
        (x := stepSlots build deltas subset (index + 1) (outputs ++ [none]) rest) (f := fun r => slot :: r) h
      obtain ⟨hpre, hl, hidx, hk⟩ := ih (by simp [hlen]) hrest
      refine ⟨(prefix_append _ _).trans hpre, ⟨by simp [hl], by simp [hl]; omega⟩,
        fun p hp => by have := hidx p hp; omega, fun k s hks => ?_⟩
      cases k with
      | zero =>
        rw [List.getElem?_cons_zero, Option.some.injEq] at hks
        subst hks
        refine ⟨slot, rfl, ?_⟩
        unfold Stepped
        rw [Nat.add_zero, hnode]
        refine ⟨rfl, ?_, errorsAt_eq_zero (fun p hp => by have := hidx p hp; omega)⟩
        have : out.outputs[index]? = some none := by
          obtain ⟨t, ht⟩ := hpre
          rw [← ht, append_assoc, List.getElem?_append_right (by omega), hlen]
          simp
        rw [PassOutput.dataAt, this]
      | succ k =>
        obtain ⟨slot', hs', hstep⟩ := hk k s (by simpa using hks)
        refine ⟨slot', by simpa using hs', ?_⟩
        have : index + (k + 1) = index + 1 + k := by omega
        rw [this]
        exact hstep
    · next node hnode =>
      split at h
      · cases h
      · next batch errors node' hprod =>
        obtain ⟨hmap, rfl⟩ := Prod.mk.injEq .. ▸ h
        obtain ⟨o, ho, rfl⟩ := map_ok.1 hmap
        obtain ⟨hpre, hl, hidx, hk⟩ := @ih o _ (index + 1) (outputs ++ [some batch]) (by simp [hlen])
          (Prod.ext ho rfl)
        have hhere : o.outputs[index]? = some (some batch) := by
          obtain ⟨t, ht⟩ := hpre
          rw [← ht, append_assoc, List.getElem?_append_right (by omega), hlen]
          simp
        refine ⟨(prefix_append _ _).trans hpre, ⟨by simp [hl], by simp [hl]; omega⟩, fun p hp => ?_,
          fun k s hks => ?_⟩
        · rcases mem_append.1 hp with hp | hp
          · cases errors with
            | none => cases hp
            | some b =>
              rw [Option.map_some, Option.toList_some, mem_singleton] at hp
              exact le_of_eq (congrArg Prod.fst hp).symm
          · have := hidx p hp
            omega
        · cases k with
          | zero =>
            rw [List.getElem?_cons_zero, Option.some.injEq] at hks
            subst hks
            refine ⟨_, rfl, ?_⟩
            unfold Stepped
            rw [Nat.add_zero, hnode]
            refine ⟨batch, errors, node', rfl, by simpa using hhere, ?_, ?_⟩
            · obtain ⟨t, ht⟩ := (prefix_append outputs [some batch]).trans hpre
              rw [← ht]
              exact produce_append hprod
            · have hrest0 : o.errorsAt index = 0 := errorsAt_eq_zero (fun p hp => by have := hidx p hp; omega)
              unfold PassOutput.errorsAt at hrest0 ⊢
              rw [map_append, sum_append, hrest0, add_zero]
              cases errors <;> simp
          | succ k =>
            obtain ⟨slot', hs', hstep⟩ := hk k s (by simpa using hks)
            refine ⟨slot', by simpa using hs', ?_⟩
            have hi : index + (k + 1) = index + 1 + k := by omega
            rw [hi]
            have herr : PassOutput.errorsAt ⟨o.outputs, (errors.map (fun b => (index, b))).toList ++ o.errors⟩
                (index + 1 + k) = o.errorsAt (index + 1 + k) := by
              unfold PassOutput.errorsAt
              rw [map_append, sum_append]
              cases errors with
              | none => simp
              | some b => simp [show ¬ index = index + 1 + k by omega]
            unfold Stepped at hstep ⊢
            rw [herr]
            exact hstep

/-- A place that a pass leaves out has no data in it. -/
theorem dataAt_of_excluded {build : Build} {slots slots' : List Slot}
    (h : stepSlots build deltas subset 0 [] slots = (.ok out, slots')) (hi : included subset i = false) :
    out.dataAt i = 0 := by
  obtain ⟨_, ⟨_, hout⟩, _, hstep⟩ := stepSlots_spec (length_nil) h
  rcases Nat.lt_or_ge i slots.length with hlt | hge
  · obtain ⟨slot', _, hst⟩ := hstep i _ (List.getElem?_eq_getElem hlt)
    unfold Stepped at hst
    rw [Nat.zero_add, hi] at hst
    exact hst.2.1
  · have hnone : out.outputs[i]? = none := by
      rw [List.getElem?_eq_none_iff, hout]
      simpa using hge
    rw [PassOutput.dataAt, hnone]

/-! Whole passes. -/

variable {S : Nat → Streams} {sinks' : List (Option Sink)}

/-- What a node has emitted when the tables hold `T` and the nodes have emitted `S`. -/
def Node.TracksEmitted (build : Build) (primed : Bool) (T : String → ZSet Row) (S : Nat → Streams) (i : Nat) :
    Node → Prop
  | .source table _ _ => S i = (T table, 0)
  | .operator op inputs => op.Tracks build primed (inputs.map (fun j => (S j).1)) (S i)

/-- A node's data are what it emits, and they fit its schema. -/
structure Node.Tracks (node : Node) (build : Build) (primed : Bool) (T : String → ZSet Row) (S : Nat → Streams)
    (i : Nat) : Prop where
  emits : node.TracksEmitted build primed T S i
  conforms : ∀ row, (S i).1 row ≠ 0 → node.outputSchema.Conforms row

/-- A sink holds what its node has emitted and the errors of all its ancestors. -/
structure Sink.Holds (sink : Sink) (S : Nat → Streams) : Prop where
  result : sink.result.Holds (S sink.node).1
  errors : sink.errors.Holds (∑ j ∈ sink.ancestors.toFinset, (S j).2)

/-- A circuit in either build, each node with the tables it has been fed: nodes
    that are caught up later have been fed less until then. -/
structure Circuit.Tracks (c : Circuit) (build : Build) (primed : Nat → Bool) (T : Nat → String → ZSet Row)
    (S : Nat → Streams) : Prop where
  nodes : ∀ (i : Nat) (slot : Slot) (node : Node), c.slots[i]? = some slot → slot.node = some node →
    node.Tracks build (primed i) (T i) S i
  sinks : ∀ sink, some sink ∈ c.sinks → sink.Holds S

/-- What no pass changes: the nodes without their state, and where each sink reads. -/
def Circuit.shape (c : Circuit) : List (Option Node) × List (Option (Nat × List Nat × Schema × Schema)) :=
  (c.slots.map (fun s => s.node.map Node.reset),
    c.sinks.map (Option.map (fun s => (s.node, s.ancestors, s.result.schema, s.errors.schema))))

variable {T : Nat → String → ZSet Row} {primed : Nat → Bool}

theorem Circuit.Tracks.nodeOf {c : Circuit} {build : Build} (h : c.Tracks build primed T S) {node0 : Node}
    (hi : c.shape.1[i]? = some (some node0)) :
    ∃ slot node, c.slots[i]? = some slot ∧ slot.node = some node ∧ node.reset = node0 ∧
      node.Tracks build (primed i) (T i) S i := by
  rw [shape, List.getElem?_map] at hi
  obtain ⟨slot, hslot, hnode⟩ := Option.map_eq_some_iff.1 hi
  obtain ⟨node, hn, hr⟩ := Option.map_eq_some_iff.1 hnode
  exact ⟨slot, node, hslot, hn, hr, h.nodes i slot node hslot hn⟩

noncomputable def tablesAfter (T : String → ZSet Row) (deltas : EpochDeltas) (table : String) : ZSet Row :=
  T table + ZSet.ofEntries (deltas.entriesFor table)

noncomputable def streamsAfter (S : Nat → Streams) (out : PassOutput) (i : Nat) : Streams :=
  S i + (out.dataAt i, out.errorsAt i)

theorem gather_denote {inputs : List Nat} {batches : List ZSetBatch} (h : gather out.outputs inputs = .ok batches) :
    batches.map ZSetBatch.denote = inputs.map out.dataAt := by
  induction inputs generalizing batches with
  | nil => cases h; rfl
  | cons i rest ih =>
    unfold gather at h
    split at h
    · next b hb =>
      obtain ⟨bs, hbs, h⟩ := bind_ok.1 h
      cases h
      rw [map_cons, map_cons, ih hbs]
      simp [PassOutput.dataAt, hb]
    · cases h

/-- What the nodes of a pass have been fed after it. -/
noncomputable def fedAfter (T : Nat → String → ZSet Row) (subset : Option (List Nat)) (deltas : EpochDeltas)
    (i : Nat) : String → ZSet Row :=
  if included subset i then tablesAfter (T i) deltas else T i

def primedAfter (primed : Nat → Bool) (subset : Option (List Nat)) (i : Nat) : Bool :=
  included subset i || primed i

theorem primedAfter_all (primed : Nat → Bool) : primedAfter primed none = fun _ => true := rfl

theorem fedAfter_all (T : String → ZSet Row) (deltas : EpochDeltas) :
    fedAfter (fun _ => T) none deltas = fun _ => tablesAfter T deltas := rfl

/-- A node holds the new tables and the new streams after a pass. One that the
    pass leaves out must read nothing that it includes. -/
theorem Stepped.tracks {build : Build} {node : Node} {after : Option Node}
    (h : Stepped build deltas subset out i (some node) after) (hn : node.Tracks build (primed i) (T i) S i)
    (hout : included subset i = false → ∀ j ∈ node.inputs, out.dataAt j = 0) :
    ∃ node', after = some node' ∧ node'.reset = node.reset ∧
      node'.Tracks build (primedAfter primed subset i) (fedAfter T subset deltas i) (streamsAfter S out) i := by
  unfold Stepped at h
  cases hin : included subset i with
  | false =>
    -- nothing it reads was stepped, so neither its inputs nor its output moved
    rw [hin] at h
    obtain ⟨rfl, hdata, herr⟩ := h
    have hsame : streamsAfter S out i = S i := by
      rw [streamsAfter, hdata, herr]
      exact add_zero _
    refine ⟨node, rfl, rfl, ?_, by rw [hsame]; exact hn.conforms⟩
    rw [primedAfter, fedAfter, hin]
    cases node with
    | source table aliasName schema => exact hsame.trans hn.emits
    | operator op inputs =>
      have hins : inputs.map (fun j => (streamsAfter S out j).1) = inputs.map (fun j => (S j).1) := by
        refine map_congr_left (fun j hj => ?_)
        show (S j).1 + out.dataAt j = (S j).1
        rw [hout hin j hj, add_zero]
      show op.Tracks build _ (inputs.map (fun j => (streamsAfter S out j).1)) (streamsAfter S out i)
      rw [hins, hsame]
      exact hn.emits
  | true =>
  rw [hin] at h
  rw [primedAfter, fedAfter, hin]
  obtain ⟨batch, errors, node', rfl, hout, hprod, herr⟩ := h
  have hdata : out.dataAt i = batch.denote := by rw [PassOutput.dataAt, hout]
  -- a row with weight now had weight before, or is a row of the batch
  have hconf : batch.schema = node.outputSchema → ∀ row, (streamsAfter S out i).1 row ≠ 0 →
      node.outputSchema.Conforms row := by
    intro hs row hrow
    by_cases hz : (S i).1 row = 0
    · refine hs ▸ batch.conforms_of_denote (fun hb => hrow ?_)
      rw [streamsAfter, hdata]
      show (S i).1 row + batch.denote row = 0
      rw [hz, hb, add_zero]
    · exact hn.conforms row hz
  refine ⟨node', rfl, ?_⟩
  cases node with
  | source table aliasName schema =>
    unfold Node.produce at hprod
    obtain ⟨hb, rfl⟩ := Prod.mk.injEq .. ▸ hprod
    split at hb
    · cases hb
    · next b hfrom =>
      cases hb
      refine ⟨rfl, ?_, hconf (ZSetBatch.fromEntries_ok hfrom).1⟩
      have hS : S i = (T i table, 0) := hn.emits
      show streamsAfter S out i = (tablesAfter (T i) deltas table, 0)
      rw [streamsAfter, hS, hdata, herr, ZSetBatch.denote, (ZSetBatch.fromEntries_ok hfrom).2]
      simp [tablesAfter]
  | operator op inputs =>
    unfold Node.produce at hprod
    dsimp only at hprod
    split at hprod
    · cases hprod
    · next batches hb =>
      split at hprod
      · cases hprod
      · next o op' hstep =>
        cases hprod
        obtain ⟨hreset, hs, _, hholds⟩ := Operator.track_step hn.emits hstep
        have hschema : op'.outputSchema = op.outputSchema := by
          rw [← op'.reset_outputSchema, hreset, op.reset_outputSchema]
        refine ⟨by simp [Node.reset, hreset], ?_, fun row hrow => ?_⟩
        · have hins : List.zipWith (· + ·) (inputs.map (fun j => (S j).1)) (batches.map ZSetBatch.denote) =
              inputs.map (fun j => (streamsAfter S out j).1) := by
            rw [gather_denote hb, zipWith_map, zipWith_self]
            rfl
          rw [hins] at hholds
          show op'.Tracks build true _ (streamsAfter S out i)
          rw [streamsAfter, hdata, herr]
          exact hholds
        · show op'.outputSchema.Conforms row
          rw [hschema]
          exact hconf hs row hrow

variable {sinks : List (Option Sink)}

theorem absorbResults_spec (h : absorbResults out.outputs sinks = (.ok (), sinks')) :
    List.Forall₂ (fun s s' => match s with
      | none => s' = none
      | some sink => ∃ result, s' = some { sink with result := result } ∧
          result.schema = sink.result.schema ∧
          (sink.result.Holds (S sink.node).1 → result.Holds ((S sink.node).1 + out.dataAt sink.node)))
      sinks sinks' := by
  induction sinks generalizing sinks' with
  | nil => cases h; exact List.Forall₂.nil
  | cons s rest ih =>
    cases s with
    | none =>
      obtain ⟨rest', hrest, rfl⟩ := Operator.of_pair (x := absorbResults out.outputs rest)
        (f := fun r => none :: r) h
      exact List.Forall₂.cons rfl (ih hrest)
    | some sink =>
      unfold absorbResults at h
      split at h
      · next delta hdelta =>
        have hdata : out.dataAt sink.node = delta.denote := by rw [PassOutput.dataAt, hdelta]
        split at h
        · cases h
        · next result habs =>
          obtain ⟨rest', hrest, rfl⟩ := Operator.of_pair (x := absorbResults out.outputs rest)
            (f := fun r => some { sink with result := result } :: r) h
          refine List.Forall₂.cons ⟨result, rfl, ?_, fun hr => ?_⟩ (ih hrest)
          · have hs := ResultStore.absorb_schema sink.result delta
            rwa [habs] at hs
          · rw [hdata]
            exact ResultStore.absorb_spec hr habs
      · next hnone =>
        obtain ⟨rest', hrest, rfl⟩ := Operator.of_pair (x := absorbResults out.outputs rest)
          (f := fun r => some sink :: r) h
        have hdata : out.dataAt sink.node = 0 := by
          unfold PassOutput.dataAt
          split
          · next b hb => exact absurd hb (hnone b)
          · rfl
        exact List.Forall₂.cons ⟨sink.result, rfl, rfl, fun hr => by rw [hdata, add_zero]; exact hr⟩ (ih hrest)

/-- A sink whose errors moved by an amount that depends on its ancestors only. -/
def ErrorsMoved (d : List Nat → ZSet Row) (s s' : Option Sink) : Prop :=
  match s with
  | none => s' = none
  | some sink => ∃ errors, s' = some { sink with errors := errors } ∧
      errors.schema = sink.errors.schema ∧ ∀ z, sink.errors.Holds z → errors.Holds (z + d sink.ancestors)

theorem ErrorsMoved.trans {d d' : List Nat → ZSet Row} {s s' s'' : Option Sink}
    (h : ErrorsMoved d s s') (h' : ErrorsMoved d' s' s'') :
    ErrorsMoved (fun ancestors => d ancestors + d' ancestors) s s'' := by
  cases s with
  | none =>
    cases h
    exact h'
  | some sink =>
    obtain ⟨errors, rfl, hs, hz⟩ := h
    obtain ⟨errors', rfl, hs', hz'⟩ := h'
    refine ⟨errors', rfl, hs'.trans hs, fun z hold => ?_⟩
    rw [← add_assoc]
    exact hz' _ (hz z hold)

theorem absorbError_spec {node : Nat} {delta : ZSetBatch} (h : absorbError node delta sinks = (.ok (), sinks')) :
    List.Forall₂ (ErrorsMoved (fun ancestors => if node ∈ ancestors then delta.denote else 0)) sinks sinks' := by
  induction sinks generalizing sinks' with
  | nil => cases h; exact List.Forall₂.nil
  | cons s rest ih =>
    cases s with
    | none =>
      obtain ⟨rest', hrest, rfl⟩ := Operator.of_pair (x := absorbError node delta rest) (f := fun r => none :: r) h
      exact List.Forall₂.cons rfl (ih hrest)
    | some sink =>
      unfold absorbError at h
      split at h
      · next hin =>
        split at h
        · cases h
        · next errors habs =>
          obtain ⟨rest', hrest, rfl⟩ := Operator.of_pair (x := absorbError node delta rest)
            (f := fun r => some { sink with errors := errors } :: r) h
          refine List.Forall₂.cons ⟨errors, rfl, ?_, fun z hz => ?_⟩ (ih hrest)
          · have hs := ResultStore.absorb_schema sink.errors delta
            rwa [habs] at hs
          · dsimp only
            rw [if_pos (by simpa using hin)]
            exact ResultStore.absorb_spec hz habs
      · next hout =>
        obtain ⟨rest', hrest, rfl⟩ := Operator.of_pair (x := absorbError node delta rest)
          (f := fun r => some sink :: r) h
        refine List.Forall₂.cons ⟨sink.errors, rfl, rfl, fun z hz => ?_⟩ (ih hrest)
        dsimp only
        rw [if_neg (by simpa using hout), add_zero]
        exact hz

theorem absorbErrors_spec {errors : List (Nat × ZSetBatch)} (h : absorbErrors errors sinks = (.ok (), sinks')) :
    List.Forall₂ (ErrorsMoved (fun ancestors =>
      (errors.map (fun p => if p.1 ∈ ancestors then p.2.denote else 0)).sum)) sinks sinks' := by
  induction errors generalizing sinks with
  | nil =>
    cases h
    refine forall₂_same.2 (fun s _ => ?_)
    cases s with
    | none => rfl
    | some sink => exact ⟨sink.errors, rfl, rfl, fun z hz => by simpa using hz⟩
  | cons p rest ih =>
    obtain ⟨node, delta⟩ := p
    unfold absorbErrors at h
    split at h
    · cases h
    · next sinks1 h1 =>
      refine forall₂_comp (fun a b c hab hbc => ?_) (absorbError_spec h1) (ih h)
      simpa only [map_cons, sum_cons] using ErrorsMoved.trans hab hbc

theorem sum_errorsAt (out : PassOutput) (ancestors : List Nat) :
    ∑ j ∈ ancestors.toFinset, out.errorsAt j =
      (out.errors.map (fun p => if p.1 ∈ ancestors then p.2.denote else 0)).sum := by
  unfold PassOutput.errorsAt
  induction out.errors with
  | nil => simp
  | cons p rest ih =>
    simp only [map_cons, sum_cons, Finset.sum_add_distrib, ih]
    congr 1
    simp

/-- A sink that absorbed a pass. -/
def SinkMoved (S S' : Nat → Streams) (s s' : Option Sink) : Prop :=
  match s with
  | none => s' = none
  | some sink => ∃ result errors, s' = some { sink with result := result, errors := errors } ∧
      result.schema = sink.result.schema ∧ errors.schema = sink.errors.schema ∧
      (sink.Holds S → (Sink.mk sink.node result errors sink.ancestors).Holds S')

namespace Circuit

/-- The nodes a pass leaves out read none that it includes. -/
def ClosedOutside (c : Circuit) (subset : Option (List Nat)) : Prop :=
  ∀ (i : Nat) (slot : Slot) (node : Node), c.slots[i]? = some slot → slot.node = some node →
    included subset i = false → ∀ j ∈ node.inputs, included subset j = false

theorem closedOutside_all (c : Circuit) : c.ClosedOutside none := by
  intro i slot node _ _ hx
  cases hx

variable {subset : Option (List Nat)}

theorem slots_shape {c : Circuit} {slots : List Slot} {build : Build} {deltas : EpochDeltas} {out : PassOutput}
    {S : Nat → Streams} (hc : c.Tracks build primed T S) (hlen : slots.length = c.slots.length)
    (hout : ∀ (i : Nat) (slot : Slot) (node : Node), c.slots[i]? = some slot → slot.node = some node →
      included subset i = false → ∀ j ∈ node.inputs, out.dataAt j = 0)
    (hstep : ∀ k slot, c.slots[k]? = some slot → ∃ slot', slots[k]? = some slot' ∧
      Stepped build deltas subset out k slot.node slot'.node) :
    slots.map (fun s => s.node.map Node.reset) = c.slots.map (fun s => s.node.map Node.reset) := by
  apply ext_getElem?
  intro k
  rw [List.getElem?_map, List.getElem?_map]
  cases hk : c.slots[k]? with
  | none =>
    have : slots[k]? = none := by
      rw [List.getElem?_eq_none_iff] at hk ⊢
      omega
    rw [this]
  | some slot =>
    obtain ⟨slot', hs', hst⟩ := hstep k slot hk
    rw [hs', Option.map_some, Option.map_some]
    cases hn : slot.node with
    | none =>
      rw [hn] at hst
      unfold Stepped at hst
      rw [ite_self] at hst
      rw [hst.1]
    | some node =>
      rw [hn] at hst
      obtain ⟨node', hn', hreset, _⟩ := hst.tracks (hc.nodes k slot node hk hn) (hout k slot node hk hn)
      rw [hn', Option.map_some, Option.map_some, hreset]

/-- A successful pass keeps the circuit's shape and moves everything it includes
    by the deltas. -/
theorem pass_spec {c c' : Circuit} {build : Build} {deltas : EpochDeltas} {S : Nat → Streams}
    (hc : c.Tracks build primed T S) (hsub : c.ClosedOutside subset) (h : c.pass build deltas subset = (.ok (), c')) :
    c'.shape = c.shape ∧ c'.epoch = c.epoch ∧ ∃ S',
      (∀ i < c.slots.length, included subset i = false → S' i = S i) ∧
      c'.Tracks build (primedAfter primed subset) (fedAfter T subset deltas) S' := by
  unfold pass at h
  split at h
  · cases h
  · next out slots hslots =>
    dsimp only at h
    split at h
    · cases h
    · split at h
      · cases h
      · next sinks1 hresults =>
        obtain ⟨sinks2, herrors, rfl⟩ := Operator.of_pair (x := absorbErrors out.errors sinks1)
          (f := fun sinks => ({ c with slots := slots, sinks := sinks } : Circuit)) h
        obtain ⟨_, ⟨hlen, _⟩, _, hstep⟩ := stepSlots_spec (length_nil) hslots
        simp only [Nat.zero_add] at hstep
        have hout : ∀ (i : Nat) (slot : Slot) (node : Node), c.slots[i]? = some slot → slot.node = some node →
            included subset i = false → ∀ j ∈ node.inputs, out.dataAt j = 0 :=
          fun i slot node hi hn hx j hj => dataAt_of_excluded hslots (hsub i slot node hi hn hx j hj)
        have hsinks := forall₂_comp (P := SinkMoved S (streamsAfter S out)) (fun s s1 s2 h1 h2 => ?_)
          (absorbResults_spec (S := S) hresults) (absorbErrors_spec herrors)
        · refine ⟨Prod.ext (slots_shape hc hlen hout hstep) ?_, rfl, streamsAfter S out, ?_, ?_, ?_⟩
          · refine map_eq_of_forall₂ (hsinks.imp (fun s s' hs => ?_))
            cases s with
            | none => cases hs; rfl
            | some sink =>
              obtain ⟨result, errors, rfl, hrs, hes, _⟩ := hs
              simp [hrs, hes]
          · intro i hi hx
            obtain ⟨slot', _, hst⟩ := hstep i _ (List.getElem?_eq_getElem hi)
            unfold Stepped at hst
            rw [hx] at hst
            rw [streamsAfter, hst.2.1, hst.2.2]
            exact add_zero _
          · intro i slot' node' hi hnode'
            obtain ⟨slot, hslot⟩ : ∃ slot, c.slots[i]? = some slot :=
              ⟨_, List.getElem?_eq_getElem (hlen ▸ (List.getElem?_eq_some_iff.1 hi).1)⟩
            obtain ⟨slot1, hslot1, hst⟩ := hstep i slot hslot
            obtain rfl := Option.mem_unique hi hslot1
            cases hn : slot.node with
            | none =>
              unfold Stepped at hst
              rw [hn, ite_self, hnode'] at hst
              cases hst.1
            | some node =>
              rw [hn, hnode'] at hst
              obtain ⟨n', hn', _, hold⟩ := hst.tracks (hc.nodes i slot node hslot hn) (hout i slot node hslot hn)
              cases hn'
              exact hold
          · intro sink hsink
            obtain ⟨s, hs, hmoved⟩ := forall₂_right hsinks hsink
            cases s with
            | none => cases hmoved
            | some held =>
              obtain ⟨result, errors, he, _, _, hold⟩ := hmoved
              cases he
              exact hold (hc.sinks held hs)
        · -- one sink: its answer absorbs its node's data, its errors those of its ancestors
          cases s with
          | none =>
            cases h1
            exact h2
          | some sink =>
            obtain ⟨result, rfl, hrs, hr⟩ := h1
            obtain ⟨errors, rfl, hes, he⟩ := h2
            refine ⟨result, errors, rfl, hrs, hes, fun hold => ⟨hr hold.result, ?_⟩⟩
            have hsum : ∑ j ∈ sink.ancestors.toFinset, (streamsAfter S out j).2 =
                ∑ j ∈ sink.ancestors.toFinset, (S j).2 + ∑ j ∈ sink.ancestors.toFinset, out.errorsAt j := by
              rw [← Finset.sum_add_distrib]
              rfl
            show errors.Holds (∑ j ∈ sink.ancestors.toFinset, (streamsAfter S out j).2)
            rw [hsum, sum_errorsAt]
            exact he _ hold.errors

end Circuit
end Mutiny.Schweep
