import Mutiny.Schweep.PlanMeaning

/- Instantiated circuits and their runs.

   The ancestors of a sink's node are found depth first (`ancestorsLoop_spec`);
   in a circuit laid out from one plan they are all of its nodes. A circuit as
   instantiated holds empty tables (`instantiate_spec`), and a run of epochs
   moves it to the tables those epochs sum to (`Circuit.run_spec`). Its answer is
   then the plan's data in canonical form, or the least of the plan's live
   messages (`Instantiated.answer_spec`). -/
namespace Mutiny.Schweep
open Mutiny.Lib ZSet CircuitBuilder WeightMap MemBackend Value Circuit Aggregate Oracle List Finset
open Finsupp (single)

/-! Ancestors. -/

variable {lo hi : Nat} {c : Circuit} {p : CircuitNode}

namespace Circuit

def inputCount (c : Circuit) (id : Nat) : Nat :=
  match c.slots[id]? with
  | some ⟨some node, _, _⟩ => node.inputs.length
  | _ => 0

/-- The pops still to come: what is on the stack, and every edge out of a node
    not yet visited. -/
def pending (c : Circuit) (out stack : List Nat) : Nat :=
  stack.length + ∑ id ∈ Finset.range c.slots.length \ out.toFinset, c.inputCount id

theorem sum_slots (f : Slot → Nat) (slots : List Slot) :
    ∑ id ∈ Finset.range slots.length, (slots[id]?.map f).getD 0 = (slots.map f).sum := by
  induction slots with
  | nil => rfl
  | cons s rest ih =>
    rw [List.length_cons, Finset.sum_range_succ', List.map_cons, List.sum_cons, ← ih]
    simp [Nat.add_comm]

theorem edgeCount_eq (c : Circuit) : c.edgeCount = ∑ id ∈ Finset.range c.slots.length, c.inputCount id := by
  rw [edgeCount, ← sum_slots]
  refine sum_congr rfl (fun id _ => ?_)
  unfold inputCount
  cases h : c.slots[id]? with
  | none => rfl
  | some slot =>
    obtain ⟨node, _, _⟩ := slot
    cases node <;> rfl

variable {c : Circuit} {id : Nat} {node : Node}

theorem nodeAt_ok (h : c.nodeAt id = .ok node) : id < c.slots.length ∧ c.inputCount id = node.inputs.length := by
  unfold nodeAt at h
  split at h
  · next n _ _ hs =>
    cases h
    exact ⟨(List.getElem?_eq_some_iff.1 hs).1, by simp [inputCount, hs]⟩
  · cases h

variable {out stack : List Nat}

theorem pending_visit (hid : id ∉ out) (h : c.nodeAt id = .ok node) :
    c.pending (id :: out) (node.inputs.reverse ++ stack) + 1 = c.pending out (id :: stack) := by
  obtain ⟨hlt, hcount⟩ := nodeAt_ok h
  have hmem : id ∈ Finset.range c.slots.length \ out.toFinset := by
    simp [hlt, hid]
  unfold pending
  rw [toFinset_cons, sdiff_insert, length_append, length_reverse, length_cons,
    ← sum_erase_add _ _ hmem, hcount]
  omega

variable {found : List Nat}

/-- What a search that does not run out of fuel returns: the visited nodes and
    the stack are in it, and it is closed under inputs. -/
theorem ancestorsLoop_spec {fuel : Nat} (h : c.ancestorsLoop fuel out stack = .ok found)
    (hfuel : c.pending out stack ≤ fuel)
    (hclosed : ∀ id ∈ out, ∃ node, c.nodeAt id = .ok node ∧ ∀ i ∈ node.inputs, i ∈ out ∨ i ∈ stack) :
    (∀ id, id ∈ out ∨ id ∈ stack → id ∈ found) ∧
      ∀ id ∈ found, ∃ node, c.nodeAt id = .ok node ∧ ∀ i ∈ node.inputs, i ∈ found := by
  induction fuel generalizing out stack with
  | zero =>
    have hstack : stack = [] := by
      unfold pending at hfuel
      exact List.length_eq_zero_iff.1 (by omega)
    subst hstack
    cases h
    exact ⟨by simp, fun id hid => by simpa using hclosed id hid⟩
  | succ fuel ih =>
    cases stack with
    | nil =>
      cases h
      exact ⟨by simp, fun id hid => by simpa using hclosed id hid⟩
    | cons id stack =>
      unfold ancestorsLoop at h
      split at h
      · next hin =>
        have hin' : id ∈ out := by simpa using hin
        have hdrop : ∀ i, i ∈ out ∨ i ∈ id :: stack → i ∈ out ∨ i ∈ stack := by
          intro i hi
          rcases hi with hi | hi
          · exact Or.inl hi
          · rcases List.mem_cons.1 hi with rfl | hi
            · exact Or.inl hin'
            · exact Or.inr hi
        obtain ⟨hsub, hall⟩ := ih h (by unfold pending at hfuel ⊢; rw [List.length_cons] at hfuel; omega)
          (fun x hx => by
            obtain ⟨node, hn, hi⟩ := hclosed x hx
            exact ⟨node, hn, fun i hi' => hdrop i (hi i hi')⟩)
        exact ⟨fun i hi => hsub i (hdrop i hi), hall⟩
      · next hnotin =>
        have hnotin' : id ∉ out := by simpa using hnotin
        split at h
        · cases h
        · next node hnode =>
          have hp : c.pending (id :: out) (node.inputs.reverse ++ stack) + 1 = _ := pending_visit hnotin' hnode
          have hpush : ∀ i, i ∈ out ∨ i ∈ id :: stack → i ∈ id :: out ∨ i ∈ node.inputs.reverse ++ stack := by
            intro i hi
            simp only [List.mem_cons, List.mem_append] at hi ⊢
            tauto
          obtain ⟨hsub, hall⟩ := ih h (by omega) (fun x hx => by
            rcases List.mem_cons.1 hx with rfl | hx
            · exact ⟨node, hnode, fun i hi => Or.inr (by simp [hi])⟩
            · obtain ⟨n, hn, hi⟩ := hclosed x hx
              exact ⟨n, hn, fun i hi' => hpush i (hi i hi')⟩)
          exact ⟨fun i hi => hsub i (hpush i hi), hall⟩

theorem ancestorsOf_spec {node : Nat} (h : c.ancestorsOf node = .ok found) :
    node ∈ found ∧ ∀ id ∈ found, ∃ n, c.nodeAt id = .ok n ∧ ∀ i ∈ n.inputs, i ∈ found := by
  have hfuel : c.pending [] [node] ≤ c.edgeCount + 2 := by
    rw [edgeCount_eq]
    simp [pending]
    omega
  obtain ⟨hsub, hall⟩ := ancestorsLoop_spec h hfuel (by simp)
  exact ⟨hsub node (Or.inr (by simp)), hall⟩

theorem nodeAt_shape (h : c.nodeAt id = .ok node) : c.shape.1[id]? = some (some node.reset) := by
  unfold nodeAt at h
  split at h
  · next n _ _ hs =>
    cases h
    simp [shape, hs]
  · cases h

end Circuit

theorem Node.reset_inputs (node : Node) : node.reset.inputs = node.inputs := by
  cases node <;> rfl

theorem Placed.mem_ancestors (hp : Placed c.shape.1 lo p hi) {found : List Nat} (hroot : hi - 1 ∈ found)
    (hclosed : ∀ id ∈ found, ∃ n, c.nodeAt id = .ok n ∧ ∀ i ∈ n.inputs, i ∈ found) :
    ∀ j, lo ≤ j → j < hi → j ∈ found := by
  -- the inputs of a wired node that was found were found
  have hinputs : ∀ {q : CircuitNode} {inputs : List Nat} {i : Nat}, Wired c.shape.1 q inputs i → i ∈ found →
      ∀ j ∈ inputs, j ∈ found := by
    rintro q inputs i ⟨op, _, hi⟩ hf j hj
    obtain ⟨n, hn, hall⟩ := hclosed i hf
    have hr := nodeAt_shape hn
    rw [hi] at hr
    refine hall j ?_
    rw [← n.reset_inputs, ← Option.some.inj (Option.some.inj hr)]
    exact hj
  have hunary : ∀ {q : CircuitNode} {lo mid : Nat}, Wired c.shape.1 q [mid - 1] mid → mid + 1 - 1 ∈ found →
      (mid - 1 ∈ found → ∀ j, lo ≤ j → j < mid → j ∈ found) → ∀ j, lo ≤ j → j < mid + 1 → j ∈ found := by
    intro q lo mid hw hr ih j hlo hhi
    rw [Nat.add_sub_cancel] at hr
    rcases Nat.lt_or_ge j mid with hlt | hge
    · exact ih (hinputs hw hr _ (by simp)) j hlo hlt
    · rwa [show j = mid by omega]
  induction hp with
  | @source lo table aliasName schema h =>
    intro j hlo hhi
    rwa [show j = lo + 1 - 1 by omega]
  | filter _ hw ih | project _ hw ih | aggregate _ hw ih | distinct _ hw ih => exact hunary hw hroot ih
  | @join lo mid hi left right keys schema hl hr hw ihl ihr =>
    intro j hlo hhi
    rw [Nat.add_sub_cancel] at hroot
    have hin := hinputs hw hroot
    rcases Nat.lt_or_ge j mid with hlt | hge
    · exact ihl (hin _ (by simp)) j hlo hlt
    · rcases Nat.lt_or_ge j hi with hlt | hge'
      · exact ihr (hin _ (by simp)) j hge hlt
      · rwa [show j = hi by omega]

/-! A circuit as it is built. -/

variable {op : Operator} {b' : CircuitBuilder} {i : Nat} {build : Build} {plan : CircuitPlan} {b : CircuitBuilder}

theorem MemBackend.denote_new : new.denote = 0 := denote_empty

theorem Aggregate.groupStreams_fresh {a : Aggregate} (h : a.state = MemBackend.new) (g : List Value) :
    a.groupStreams false g = 0 := by
  have htotal : (a.total g).val = 0 := by
    rw [Aggregate.total, h, MemBackend.get, MemBackend.new]
    simp
  unfold groupStreams
  split
  · simp only [emission, htotal]
    cases a.isGrandTotal <;> rfl
  · rfl

theorem operatorFor_tracks (build : Build) (h : operatorFor p = .ok (some op)) :
    op.Tracks build false (List.replicate op.arity 0) 0 := by
  unfold operatorFor at h
  split at h
  · cases h
  · obtain ⟨f, _, h⟩ := bind_ok.1 h
    cases h
    exact ⟨0, rfl, by rw [map_zero, map_zero]; rfl⟩
  · obtain ⟨f, _, h⟩ := bind_ok.1 h
    cases h
    exact ⟨0, rfl, by rw [map_zero, map_zero]; rfl⟩
  · obtain ⟨j, hj, h⟩ := bind_ok.1 h
    cases h
    unfold Join.new at hj
    split at hj
    · cases hj
    · obtain ⟨_, _, hj⟩ := bind_ok.1 hj
      obtain ⟨_, _, hj⟩ := bind_ok.1 hj
      cases hj
      refine ⟨0, 0, rfl, ⟨by simp, ?_, ?_⟩, ⟨reduced_empty, reduced_empty⟩,
        by rw [lin₂_zero_left]; rfl⟩
      · simp [denote_new, Join.indexed]
      · simp [denote_new, Join.indexed]
  · obtain ⟨a, ha, h⟩ := bind_ok.1 h
    cases h
    unfold Aggregate.new at ha
    split at ha
    · cases ha
    · cases ha
      refine ⟨0, rfl, reduced_empty, ?_, ?_⟩
      · simpa [denote_new] using Wraps.refl (0 : ZSet Key)
      · rw [finsum_congr (fun g => groupStreams_fresh rfl g), finsum_zero, map_zero]
        rfl
  · cases h
    exact ⟨0, rfl, ⟨reduced_empty, denote_new⟩, by rw [presence_zero]; rfl⟩

theorem operatorFor_arity (h : operatorFor p = .ok (some op)) : op.arity = match p with | .join .. => 2 | _ => 1 := by
  cases p with
  | source table aliasName schema => cases h
  | distinct input =>
    cases h
    rfl
  | _ =>
    obtain ⟨x, _, h⟩ := bind_ok.1 h
    cases h
    rfl

theorem Placed.fresh {shape : List (Option Node)} (build : Build) (hp : Placed shape lo p hi) :
    ∀ i, lo ≤ i → i < hi → ∃ node : Node, shape[i]? = some (some node) ∧
      node.TracksEmitted build false (fun _ => 0) (fun _ => 0) i := by
  have hwired : ∀ {q : CircuitNode} {inputs : List Nat} {i : Nat}, Wired shape q inputs i →
      (∀ op, operatorFor q = .ok (some op) → op.arity = inputs.length) → ∃ node : Node,
        shape[i]? = some (some node) ∧ node.TracksEmitted build false (fun _ => 0) (fun _ => 0) i := by
    rintro q inputs i ⟨op, hop, hi⟩ harity
    refine ⟨_, hi, ?_⟩
    have hold := operatorFor_tracks build hop
    rw [harity op hop] at hold
    show op.Tracks build false (inputs.map (fun _ => 0)) 0
    rwa [map_const']
  have hunary : ∀ {q : CircuitNode} {lo mid : Nat}, Wired shape q [mid - 1] mid →
      (∀ op, operatorFor q = .ok (some op) → op.arity = 1) →
      (∀ i, lo ≤ i → i < mid → ∃ node : Node, shape[i]? = some (some node) ∧
        node.TracksEmitted build false (fun _ => 0) (fun _ => 0) i) →
      ∀ i, lo ≤ i → i < mid + 1 → ∃ node : Node, shape[i]? = some (some node) ∧
        node.TracksEmitted build false (fun _ => 0) (fun _ => 0) i := by
    intro q lo mid hw ha ih i hlo hhi
    rcases Nat.lt_or_ge i mid with hlt | hge
    · exact ih i hlo hlt
    · obtain rfl : i = mid := by omega
      exact hwired hw ha
  induction hp with
  | @source lo table aliasName schema h =>
    intro i hlo hhi
    obtain rfl : i = lo := by omega
    exact ⟨_, h, rfl⟩
  | filter _ hw ih | project _ hw ih | aggregate _ hw ih | distinct _ hw ih =>
      exact hunary hw (fun op hop => operatorFor_arity hop) ih
  | @join lo mid hi left right keys schema _ _ hw ihl ihr =>
    intro i hlo hhi
    rcases Nat.lt_or_ge i mid with hlt | hge
    · exact ihl i hlo hlt
    · rcases Nat.lt_or_ge i hi with hlt | hge'
      · exact ihr i hge hlt
      · obtain rfl : i = hi := by omega
        exact hwired hw (fun op hop => operatorFor_arity hop)

/-- Every node of a builder is as its operator was made. -/
def CircuitBuilder.Fresh (b : CircuitBuilder) : Prop := ∀ n ∈ b.nodes, n.reset = n

theorem addOperator_fresh {inputs : List Nat} (hb : b.Fresh) (h : addOperator b p inputs = .ok (i, b')) : b'.Fresh := by
  unfold addOperator at h
  obtain ⟨op, hop, h⟩ := bind_ok.1 h
  rw [sqlOps_ok] at hop
  cases op with
  | none => cases h
  | some op =>
    have hadd := sqlCircuit_ok.1 h
    unfold add at hadd
    obtain ⟨_, _, hadd⟩ := bind_ok.1 hadd
    cases hadd
    intro n hn
    rcases mem_append.1 hn with hn | hn
    · exact hb n hn
    · rw [List.mem_singleton.1 hn, Node.reset, operatorFor_reset hop]

theorem addNode_fresh (hb : b.Fresh) (h : addNode b p = .ok (i, b')) : b'.Fresh := by
  induction p generalizing b b' i with
  | source table aliasName schema =>
    have hs := sqlCircuit_ok.1 h
    unfold source at hs
    split at hs
    · cases hs
    · cases hs
      intro n hn
      rcases mem_append.1 hn with hn | hn
      · exact hb n hn
      · rw [List.mem_singleton.1 hn, Node.reset]
  | join left right keys schema ihl ihr =>
    obtain ⟨⟨l, b1⟩, h1, h⟩ := bind_ok.1 h
    obtain ⟨⟨r, b2⟩, h2, h3⟩ := bind_ok.1 h
    exact addOperator_fresh (ihr (ihl hb h1) h2) h3
  | filter _ _ _ ih | project _ _ _ _ ih | aggregate _ _ _ _ ih | distinct _ ih =>
    obtain ⟨⟨j, b1⟩, h1, h2⟩ := bind_ok.1 h
    exact addOperator_fresh (ih hb h1) h2

/-- What an instantiated circuit is: the plan laid out from place zero, with one
    sink at its root whose ancestors are all places. -/
structure Instantiated (plan : CircuitPlan) (c : Circuit) : Prop where
  placed : ∃ size, Placed c.shape.1 0 plan.root size ∧ ∃ ancestors,
    c.shape.2 = [some (size - 1, ancestors, plan.outputSchema, errorSchema)] ∧
    ancestors.toFinset = Finset.range size

theorem Circuit.sinkAt_ok {id : Nat} {sink : Sink} (h : c.sinkAt id = .ok sink) : c.sinks[id]? = some (some sink) := by
  unfold sinkAt at h
  split at h
  · next s hs => cases h; exact hs
  · cases h

/-- A builder's nodes as the slots of a circuit that has not run. -/
def CircuitBuilder.circuit (b : CircuitBuilder) (sinks : List (Option Sink)) : Circuit :=
  ⟨b.nodes.map (fun node => ⟨some node, 0, 0⟩), sinks, 0, []⟩

theorem CircuitBuilder.circuit_shape (b : CircuitBuilder) (sinks : List (Option Sink)) :
    (b.circuit sinks).shape.1 = b.shape := by
  simp [circuit, Circuit.shape, shape]

/-- Built but not primed, a circuit holds empty tables and has emitted nothing. -/
theorem CircuitBuilder.circuit_tracks (build : Build) (hb : b.Fresh) (hp : Placed b.shape 0 p b.shape.length)
    (node : Nat) (schema : Schema) (ancestors : List Nat) :
    (b.circuit [some ⟨node, ResultStore.new schema, ResultStore.new errorSchema, ancestors⟩]).Tracks build
      (fun _ => false) (fun _ _ => 0) (fun _ => 0) := by
  refine ⟨fun i slot n hi hn => ⟨?_, fun row h => absurd rfl h⟩, fun sink hsink => ?_⟩
  · obtain ⟨n', hn', rfl⟩ := mem_map.1 (mem_of_getElem? hi)
    rw [circuit, List.getElem?_map] at hi
    obtain ⟨m, hm, hslot⟩ := Option.map_eq_some_iff.1 hi
    cases hn
    obtain rfl : m = n := by simpa using hslot
    have hlt : i < b.shape.length := by
      rw [shape, length_map]
      exact (List.getElem?_eq_some_iff.1 hm).1
    obtain ⟨held, hheld, hemits⟩ := hp.fresh build i (Nat.zero_le i) hlt
    rw [shape, List.getElem?_map, hm] at hheld
    obtain rfl : m.reset = held := by simpa using hheld
    rwa [hb m hn'] at hemits
  · obtain rfl : sink = _ := Option.some.inj (List.mem_singleton.1 hsink)
    refine ⟨ResultStore.holds_new schema, ?_⟩
    simpa using ResultStore.holds_new errorSchema

/-- Instantiation gives a circuit of the plan that holds empty tables. -/
theorem instantiate_spec (h : instantiate build plan = .ok c) :
    Instantiated plan c ∧ Placed c.shape.1 0 plan.root c.shape.1.length ∧ c.epoch = 0 ∧
      ∃ S, c.Tracks build (fun _ => true) (fun _ _ => 0) S := by
  unfold instantiate at h
  obtain ⟨⟨root, b⟩, hadd, h⟩ := bind_ok.1 h
  obtain ⟨c', hbuild, h⟩ := bind_ok.1 h
  obtain ⟨sink, hsink, h⟩ := bind_ok.1 h
  rw [sqlCircuit_ok] at hbuild hsink
  split at h
  · cases h
  next hschema =>
  cases h
  obtain ⟨_, hroot, hplaced⟩ := addNode_spec hadd
  have hfresh : b.Fresh := addNode_fresh (by intro n hn; cases hn) hadd
  have hplaced' : Placed b.shape 0 plan.root b.shape.length := hplaced
  unfold CircuitBuilder.build at hbuild
  split at hbuild
  · cases hbuild
  obtain ⟨c1, hsinks, hbuild⟩ := bind_ok.1 hbuild
  unfold Circuit.addSink at hsinks
  obtain ⟨held, hheld, hsinks⟩ := bind_ok.1 hsinks
  obtain ⟨ancestors, hanc, hsinks⟩ := bind_ok.1 hsinks
  cases hsinks
  split at hbuild
  · cases hbuild
  next c'' hpass =>
  cases hbuild
  obtain ⟨hshape, hepoch, S, _, hold⟩ := Circuit.pass_spec
    (CircuitBuilder.circuit_tracks build hfresh hplaced' root held.outputSchema ancestors)
    (Circuit.closedOutside_all _) hpass
  have hnodes : c.shape.1 = b.shape := by
    rw [hshape]
    exact CircuitBuilder.circuit_shape b _
  refine ⟨⟨b.shape.length, ?_, ancestors, ?_, ?_⟩, ?_, hepoch, S, ?_⟩
  · rw [hnodes]
    exact hplaced'
  · have hs : c.shape.2 = [some (root, ancestors, held.outputSchema, errorSchema)] := by
      rw [hshape]
      rfl
    have hget := Circuit.sinkAt_ok hsink
    have hat : c.shape.2[0]? = some (some (sink.node, sink.ancestors, sink.result.schema, sink.errors.schema)) := by
      simp [Circuit.shape, hget]
    rw [hs] at hat
    have hout : held.outputSchema = plan.outputSchema := by
      have := congrArg (fun x => x.2.2.1) (Option.some.inj (Option.some.inj hat))
      exact this.trans (not_not.1 hschema)
    rw [hs, hout, ← hroot, Nat.add_sub_cancel]
  · obtain ⟨hmem, hclosed⟩ := Circuit.ancestorsOf_spec (c := b.circuit []) hanc
    ext j
    rw [List.mem_toFinset, Finset.mem_range]
    constructor
    · intro hj
      obtain ⟨n, hn, _⟩ := hclosed j hj
      have := (Circuit.nodeAt_ok hn).1
      simpa [CircuitBuilder.circuit, CircuitBuilder.shape] using this
    · intro hj
      have hplaced0 : Placed (b.circuit []).shape.1 0 plan.root b.shape.length := by
        rw [CircuitBuilder.circuit_shape]
        exact hplaced'
      refine hplaced0.mem_ancestors ?_ hclosed j (Nat.zero_le j) hj
      rwa [← hroot, Nat.add_sub_cancel]
  · rw [hnodes]
    exact hplaced'
  · have htables : fedAfter (fun _ _ => 0) none ∅ = fun _ _ => (0 : ZSet Row) := by
      funext i table
      simp [fedAfter, included, tablesAfter, EpochDeltas.entriesFor]
    rwa [htables, primedAfter_all] at hold

/-! Runs. -/

variable {c' : Circuit} {T : String → ZSet Row} {S : Nat → Streams}

/-- One step per epoch, as long as each succeeds. -/
def Circuit.run (mode : Build) : Circuit → List EpochDeltas → Except CircuitError Circuit
  | c, [] => .ok c
  | c, deltas :: rest => match c.step mode deltas with
    | (.error e, _) => .error e
    | (.ok _, c) => c.run mode rest

theorem Circuit.step_spec {deltas : EpochDeltas} {epoch : Nat} (hc : c.Tracks build (fun _ => true) (fun _ => T) S)
    (h : c.step build deltas = (.ok epoch, c')) :
    c'.shape = c.shape ∧ c'.epoch = c.epoch + 1 ∧
      ∃ S', c'.Tracks build (fun _ => true) (fun _ => tablesAfter T deltas) S' := by
  unfold step at h
  split at h
  · cases h
  · next c1 hpass =>
    cases h
    obtain ⟨hshape, hepoch, S', _, hold⟩ := pass_spec hc (closedOutside_all c) hpass
    rw [primedAfter_all, fedAfter_all] at hold
    exact ⟨hshape, by rw [hepoch], S', hold.nodes, hold.sinks⟩

theorem Circuit.run_spec {history : List EpochDeltas} (hc : c.Tracks build (fun _ => true) (fun _ => T) S)
    (h : c.run build history = .ok c') :
    c'.shape = c.shape ∧ c'.epoch = c.epoch + history.length ∧
      ∃ S', c'.Tracks build (fun _ => true)
        (fun _ table => T table + ofEntries (deltasOf table history)) S' := by
  induction history generalizing c T S with
  | nil =>
    cases h
    refine ⟨rfl, rfl, S, ?_⟩
    simpa [deltasOf] using hc
  | cons deltas rest ih =>
    unfold run at h
    split at h
    · cases h
    · next epoch c1 hstep =>
      obtain ⟨hshape1, hepoch1, S₁, hold1⟩ := step_spec hc hstep
      obtain ⟨hshape, hepoch, S', hold⟩ := ih hold1 h
      refine ⟨hshape.trans hshape1, by rw [hepoch, hepoch1, length_cons]; omega, S', ?_⟩
      have htables : (fun table => tablesAfter T deltas table + ofEntries (deltasOf table rest)) =
          fun table => T table + ofEntries (deltasOf table (deltas :: rest)) := by
        funext table
        simp [tablesAfter, deltasOf, add_assoc]
      rwa [htables] at hold

/-! Answers. -/

theorem errorSchema_row {row : Row} (h : errorSchema.Conforms row) : ∃ m, row = [.str m] := by
  unfold Schema.Conforms errorSchema at h
  cases h with
  | cons hv hrest =>
    cases hrest
    next v =>
    cases v with
    | str m => exact ⟨m, rfl⟩
    | _ => simp [Field.check, dataType] at hv

theorem str_row_lt {m m' : String} : ([str m] : Row) < [str m'] ↔ m < m' := by
  have hval : str m < str m' ↔ m < m' := by
    show orderKey _ < orderKey _ ↔ _
    simp only [orderKey, Prod.Lex.toLex_lt_toLex, lt_irrefl, true_and, false_or]
  rw [cons_lt_cons_iff, hval]
  simp

theorem Instantiated.answer_spec (hi : Instantiated plan c) (ht : plan.root.Typed)
    (hc : c.Tracks .checked (fun _ => true) (fun _ => T) S) (hT : ∀ table, 0 ≤ T table) :
    plan.root.Fits T ∧ (∀ row, (plan.root.meaning T).2 row ≠ 0 → ∃ m, row = [.str m]) ∧
      (((plan.root.meaning T).2 = 0 ∧ ∃ entries, c.answer = .ok ⟨plan.outputSchema, entries⟩ ∧
          IsCanonical entries ∧ ZSet.ofEntries entries = (plan.root.meaning T).1) ∨
        ∃ m, c.answer = .error (.liveEvaluationError m) ∧ (plan.root.meaning T).2 [.str m] ≠ 0 ∧
          ∀ m', (plan.root.meaning T).2 [.str m'] ≠ 0 → m ≤ m') := by
  obtain ⟨size, hplaced, ancestors, hsinks, hanc⟩ := hi.placed
  obtain ⟨hdata, herrs, hfits⟩ := hplaced.meaning hc hT ht
  -- the one sink reads the root, and its ancestors are all of the plan
  obtain ⟨sink, hsink, hnode, hsa, hrs, hes⟩ : ∃ sink, c.sinks[0]? = some (some sink) ∧
      sink.node = size - 1 ∧ sink.ancestors = ancestors ∧ sink.result.schema = plan.outputSchema ∧
      sink.errors.schema = errorSchema := by
    have h0 : c.shape.2[0]? = some (some (size - 1, ancestors, plan.outputSchema, errorSchema)) := by
      rw [hsinks]
      rfl
    rw [Circuit.shape, List.getElem?_map] at h0
    obtain ⟨s, hs, hmap⟩ := Option.map_eq_some_iff.1 h0
    obtain ⟨sink, rfl, heq⟩ := Option.map_eq_some_iff.1 hmap
    obtain ⟨h1, h2, h3, h4⟩ := by simpa only [Prod.mk.injEq] using heq
    exact ⟨sink, hs, h1, h2, h3, h4⟩
  have hold := hc.sinks sink (List.mem_of_getElem? hsink)
  have hresult : sink.result.Holds (plan.root.meaning T).1 := by
    rw [← hdata, ← hnode]
    exact hold.result
  have herrors : sink.errors.Holds (plan.root.meaning T).2 := by
    rw [← herrs, ← Finset.range_eq_Ico, ← hanc, ← hsa]
    exact hold.errors
  have hmsg : ∀ row, (plan.root.meaning T).2 row ≠ 0 → ∃ m, row = [.str m] := fun row hrow =>
    errorSchema_row (hes ▸ herrors.conforms row hrow)
  have hanswer : c.answer = (if sink.errors.isEmpty then sink.result.canonical else do
      let live ← sink.errors.canonical
      let least ← Circuit.leastMessage live
      throw (.liveEvaluationError least)) := by
    unfold Circuit.answer Circuit.answerOf Circuit.sinkAt
    rw [hsink]
    rfl
  refine ⟨hfits, hmsg, ?_⟩
  rw [hanswer]
  by_cases hz : (plan.root.meaning T).2 = 0
  · refine Or.inl ⟨hz, ?_⟩
    obtain ⟨hcan, hcanon, hden⟩ := ResultStore.canonical_spec hresult
    rw [if_pos ((ResultStore.isEmpty_iff herrors).2 hz), hcan, hrs]
    exact ⟨_, rfl, hcanon, hden⟩
  · refine Or.inr ?_
    obtain ⟨hcan, hcanon, hden⟩ := ResultStore.canonical_spec herrors
    rw [if_neg (fun h => hz ((ResultStore.isEmpty_iff herrors).1 h)), hcan]
    simp only [ok_bind]
    cases hl : sink.errors.integral.toList with
    | nil =>
      rw [hl] at hden
      exact absurd hden.symm hz
    | cons e rest =>
      rw [hl] at hcanon hden
      have hin := hcanon.mem_iff.1 (show (e.1, e.2) ∈ e :: rest from List.mem_cons_self)
      rw [hden] at hin
      obtain ⟨m, hm⟩ := hmsg e.1 (by rw [hin.1]; exact hin.2)
      obtain ⟨row, w⟩ := e
      dsimp only at hm hin
      subst hm
      refine ⟨m, rfl, by rw [hin.1]; exact hin.2, fun m' hm' => ?_⟩
      -- the first row of a sorted list is the least one
      by_contra hlt
      rw [← hden] at hm'
      refine hm' (ZSet.ofEntries_apply_eq_zero (fun x hx hxm => ?_))
      rcases List.mem_cons.1 hx with rfl | hx
      · cases hxm
        exact hlt le_rfl
      · have := (List.pairwise_cons.1 hcanon.sorted).1 x hx
        rw [hxm] at this
        exact hlt (str_row_lt.1 this).le

end Mutiny.Schweep
