import Mutiny.Schweep.Agreement
import Mutiny.Schweep.LogRecord

/- Batching independence (`schweep-circuit`: `Circuit::catch_up`, `Circuit::step`,
   `Circuit::pass`; `schweep-zset`: `EpochDeltas::extend`; `schweep-batch`: `hydrate.rs`).

   What a circuit holds is a function of what it has been fed. An operator's
   state and everything it has emitted are determined by its accumulated inputs
   (`Operator.Tracks.unique`), so in a circuit whose nodes read earlier nodes the
   streams are determined node by node, and with them every state and every sink
   (`Circuit.Tracks.unique`). How the input was divided into passes is then no
   part of it: epochs one at a time, their concatenation as one epoch, and any
   catch-up that sums to the same tables leave the same circuit
   (`batching_independent`), also where only the late nodes catch up. All of it holds in either build; without overflow
   checks two sums that both stay in range cannot differ by a multiple of 2^64.

   Correspondence (Rust ↔ Lean) where names differ:
     a stream of chunks       ↔ `Circuit.catchUpAll`
     the log's epochs         ↔ lists of `LogBatch` -/
namespace Mutiny.Schweep
open Mutiny.Lib SortedMap ZSet MemBackend Operator Oracle List Option

/-! Operators. -/

variable {build : Build} {primed : Bool} {z : ZSet Row} {streams streams' : Streams}

theorem MemBackend.eq_of_denote {b b' : MemBackend} (h : b.entries.Reduced) (h' : b'.entries.Reduced)
    (hd : b.denote = b'.denote) : b = b' := by
  obtain ⟨m⟩ := b
  obtain ⟨m'⟩ := b'
  exact congrArg mk (h.ext h' hd)

theorem Join.Holds.unique {j j' : Join} {left right : ZSet Row} (h : j.Holds left right) (h' : j'.Holds left right)
    (hr : j.Reduced) (hr' : j'.Reduced)
    (hs : (join j).reset = (join j').reset) : j = j' := by
  obtain ⟨ls, rs, os, lk, rk, li, ri⟩ := j
  obtain ⟨ls', rs', os', lk', rk', li', ri'⟩ := j'
  simp only [reset, join.injEq, Join.mk.injEq] at hs
  obtain ⟨rfl, rfl, rfl, rfl, rfl, _⟩ := hs
  obtain rfl := eq_of_denote hr.1 hr'.1 (h.leftIndex.trans h'.leftIndex.symm)
  obtain rfl := eq_of_denote hr.2 hr'.2 (h.rightIndex.trans h'.rightIndex.symm)
  rfl

theorem Aggregate.Tracks.unique {a a' : Aggregate} (h : a.Tracks build primed z streams)
    (h' : a'.Tracks build primed z streams') (hs : (aggregate a).reset = (aggregate a').reset) :
    a = a' ∧ streams = streams' := by
  obtain ⟨is, os, ks, aggs, st⟩ := a
  obtain ⟨is', os', ks', aggs', st'⟩ := a'
  simp only [reset, aggregate.injEq, Aggregate.mk.injEq] at hs
  obtain ⟨rfl, rfl, rfl, rfl, _⟩ := hs
  -- both states are the same sum up to wrapping, and both are in range
  obtain rfl : st = st' := eq_of_denote h.reduced h'.reduced
    (h.state.unique h'.state (WeightMap.denote_inI64 _) (WeightMap.denote_inI64 _))
  exact ⟨rfl, h.streams.trans h'.streams.symm⟩

theorem Distinct.Holds.unique {d d' : Distinct} (h : d.Holds z) (h' : d'.Holds z)
    (hs : (distinct d).reset = (distinct d').reset) : d = d' := by
  obtain ⟨schema, st⟩ := d
  obtain ⟨schema', st'⟩ := d'
  simp only [reset, distinct.injEq, Distinct.mk.injEq] at hs
  obtain ⟨rfl, _⟩ := hs
  obtain rfl := eq_of_denote h.reduced h'.reduced (h.state.trans h'.state.symm)
  rfl

/-- An operator's state and its emissions are a function of its accumulated inputs. -/
theorem Operator.Tracks.unique {op op' : Operator} {ins : List (ZSet Row)} (h : op.Tracks build primed ins streams)
    (h' : op'.Tracks build primed ins streams') (hs : op.reset = op'.reset) : op = op' ∧ streams = streams' := by
  cases op with
  | filter f =>
    cases op' with
    | filter f' =>
      cases hs
      obtain ⟨z, rfl, rfl⟩ := h
      obtain ⟨z', hz, rfl⟩ := h'
      cases hz
      exact ⟨rfl, rfl⟩
    | _ => cases hs
  | project p =>
    cases op' with
    | project p' =>
      cases hs
      obtain ⟨z, rfl, rfl⟩ := h
      obtain ⟨z', hz, rfl⟩ := h'
      cases hz
      exact ⟨rfl, rfl⟩
    | _ => cases hs
  | join j =>
    cases op' with
    | join j' =>
      obtain ⟨l, r, rfl, hj, hred, rfl⟩ := h
      obtain ⟨l', r', hz, hj', hred', rfl⟩ := h'
      cases hz
      obtain rfl := hj.unique hj' hred hred' hs
      exact ⟨rfl, rfl⟩
    | _ => cases hs
  | aggregate a =>
    cases op' with
    | aggregate a' =>
      obtain ⟨z, rfl, ha⟩ := h
      obtain ⟨z', hz, ha'⟩ := h'
      cases hz
      obtain ⟨rfl, hstreams⟩ := ha.unique ha' hs
      exact ⟨rfl, hstreams⟩
    | _ => cases hs
  | distinct d =>
    cases op' with
    | distinct d' =>
      obtain ⟨z, rfl, hd, rfl⟩ := h
      obtain ⟨z', hz, hd', rfl⟩ := h'
      cases hz
      obtain rfl := hd.unique hd' hs
      exact ⟨rfl, rfl⟩
    | _ => cases hs

/-! Circuits. -/

/-- A place of a shape that has a node. -/
def LiveAt (shape : List (Option Node)) (i : Nat) : Prop := ∃ node, shape[i]? = some (some node)

namespace Circuit

/-- Nodes read earlier nodes, and sinks read nodes that are there. -/
structure Ordered (c : Circuit) : Prop where
  inputs : ∀ (i : Nat) (node : Node), c.shape.1[i]? = some (some node) →
    ∀ j ∈ node.inputs, j < i ∧ LiveAt c.shape.1 j
  sinks : ∀ sink, some sink ∈ c.sinks → LiveAt c.shape.1 sink.node ∧ ∀ j ∈ sink.ancestors, LiveAt c.shape.1 j

/-- Every node with its state, and every sink with its stores. -/
def contents (c : Circuit) : List (Option Node) × List (Option Sink) := (c.slots.map Slot.node, c.sinks)

variable {c c' : Circuit} {build : Build} {primed : Nat → Bool} {T : Nat → String → ZSet Row} {S S' : Nat → Streams}

theorem Tracks.node_unique (h : c.Tracks build primed T S) (h' : c'.Tracks build primed T S')
    (hshape : c'.shape = c.shape) (hord : c.Ordered) (i : Nat) (hi : LiveAt c.shape.1 i) :
    S i = S' i ∧ c.slots[i]?.map Slot.node = c'.slots[i]?.map Slot.node := by
  induction i using Nat.strong_induction_on with
  | _ i ih =>
    obtain ⟨node0, hnode0⟩ := hi
    obtain ⟨slot, node, hslot, hnode, hr, hn⟩ := h.nodeOf hnode0
    obtain ⟨slot', node', hslot', hnode', hr', hn'⟩ := h'.nodeOf (hshape ▸ hnode0)
    rw [hslot, hslot', map_some, map_some, hnode, hnode']
    cases node with
    | source table aliasName schema =>
      subst hr
      cases node' with
      | operator op inputs => cases hr'
      | source table' aliasName' schema' =>
        cases hr'
        have he : S i = (T i table, 0) := hn.emits
        have he' : S' i = (T i table, 0) := hn'.emits
        exact ⟨he.trans he'.symm, rfl⟩
    | operator op inputs =>
      subst hr
      cases node' with
      | source table' aliasName' schema' => cases hr'
      | operator op' inputs' =>
        obtain ⟨hop, rfl⟩ := Node.operator.inj hr'
        -- the inputs come earlier, so they have emitted the same
        have hins : inputs'.map (fun j => (S j).1) = inputs'.map (fun j => (S' j).1) := by
          refine map_congr_left (fun j hj => ?_)
          obtain ⟨hlt, hlive⟩ := hord.inputs i _ hnode0 j hj
          rw [(ih j hlt hlive).1]
        have he : op.Tracks build (primed i) (inputs'.map (fun j => (S j).1)) (S i) := hn.emits
        have he' : op'.Tracks build (primed i) (inputs'.map (fun j => (S' j).1)) (S' i) := hn'.emits
        rw [hins] at he
        obtain ⟨rfl, hstreams⟩ := he.unique he' hop.symm
        exact ⟨hstreams, rfl⟩

theorem ResultStore.Holds.unique {s s' : ResultStore} {z : ZSet Row} (h : s.Holds z) (h' : s'.Holds z)
    (hs : s'.schema = s.schema) : s = s' := by
  obtain ⟨schema, m⟩ := s
  obtain ⟨schema', m'⟩ := s'
  obtain rfl : schema' = schema := hs
  obtain rfl : m = m' := h.reduced.ext h'.reduced (h.denote.trans h'.denote.symm)
  rfl

section

variable (h : c.Tracks build primed T S) (h' : c'.Tracks build primed T S') (hshape : c'.shape = c.shape) (hord : c.Ordered)
include h h' hshape hord

theorem Tracks.sink_unique {sink sink' : Sink} (hs : some sink ∈ c.sinks) (hs' : some sink' ∈ c'.sinks)
    (heq : (sink'.node, sink'.ancestors, sink'.result.schema, sink'.errors.schema) =
      (sink.node, sink.ancestors, sink.result.schema, sink.errors.schema)) : sink = sink' := by
  obtain ⟨node, result, errors, ancestors⟩ := sink
  obtain ⟨node', result', errors', ancestors'⟩ := sink'
  simp only [Prod.mk.injEq] at heq
  obtain ⟨rfl, rfl, hres, herr⟩ := heq
  obtain ⟨hlive, hanc⟩ := hord.sinks _ hs
  have hr := (h.sinks _ hs).result
  have he := (h.sinks _ hs).errors
  have hdata : S node' = S' node' := (h.node_unique h' hshape hord node' hlive).1
  have hsum : ∑ j ∈ ancestors'.toFinset, (S j).2 = ∑ j ∈ ancestors'.toFinset, (S' j).2 := by
    refine Finset.sum_congr rfl (fun j hj => ?_)
    rw [(h.node_unique h' hshape hord j (hanc j (mem_toFinset.1 hj))).1]
  simp only [hdata] at hr
  simp only [hsum] at he
  obtain rfl : result = result' := ResultStore.Holds.unique hr (h'.sinks _ hs').result hres
  obtain rfl : errors = errors' := ResultStore.Holds.unique he (h'.sinks _ hs').errors herr
  rfl

/-- What an ordered circuit holds is a function of what it was fed. -/
theorem Tracks.unique : c.contents = c'.contents := by
  refine Prod.ext (ext_getElem? (fun i => ?_)) (ext_getElem? (fun i => ?_))
  · have hi : c'.shape.1[i]? = c.shape.1[i]? := by rw [hshape]
    simp only [contents, shape, List.getElem?_map] at hi ⊢
    cases hslot : c.slots[i]? with
    | none =>
      rw [hslot] at hi
      rw [map_eq_none_iff.1 hi]
    | some slot =>
      cases hnode : slot.node with
      | none =>
        -- a hole stays a hole
        rw [hslot] at hi
        obtain ⟨slot', hslot', hmap⟩ := map_eq_some_iff.1 hi
        have hnone : slot'.node.map Node.reset = none := by simpa only [hnode, map_none] using hmap
        rw [hslot', map_some, map_some, hnode, map_eq_none_iff.1 hnone]
      | some node =>
        have hlive : LiveAt c.shape.1 i := ⟨node.reset, by simp [shape, hslot, hnode]⟩
        rw [← hslot]
        exact (h.node_unique h' hshape hord i hlive).2
  · have hi : c'.shape.2[i]? = c.shape.2[i]? := by rw [hshape]
    simp only [contents, shape, List.getElem?_map] at hi ⊢
    cases hs : c.sinks[i]? with
    | none =>
      rw [hs] at hi
      exact (map_eq_none_iff.1 hi).symm
    | some held =>
      rw [hs] at hi
      obtain ⟨held', hs', hmap⟩ := map_eq_some_iff.1 hi
      rw [hs', Option.some.injEq]
      cases held with
      | none => exact (map_eq_none_iff.1 hmap).symm
      | some sink =>
        obtain ⟨sink', rfl, heq⟩ := map_eq_some_iff.1 hmap
        rw [h.sink_unique h' hshape hord (mem_of_getElem? hs) (mem_of_getElem? hs') heq]

end

theorem answer_of_contents (h : c.contents = c'.contents) : c.answer = c'.answer := by
  have hs : c.sinks = c'.sinks := congrArg Prod.snd h
  unfold answer answerOf sinkAt
  rw [hs]

end Circuit

/-! Circuits of one plan. -/

variable {shape : List (Option Node)} {lo hi : Nat} {p : CircuitNode} {plan : CircuitPlan}

theorem Placed.inputs_lt (hp : Placed shape lo p hi) :
    ∀ i node, lo ≤ i → i < hi → shape[i]? = some (some node) → ∀ j ∈ node.inputs, lo ≤ j ∧ j < i := by
  have hwired : ∀ {q : CircuitNode} {inputs : List Nat} {i : Nat} {node : Node}, Wired shape q inputs i →
      shape[i]? = some (some node) → node.inputs = inputs := by
    rintro q inputs i node ⟨op, _, hi⟩ hnode
    rw [hi] at hnode
    cases hnode
    rfl
  have hunary : ∀ {q : CircuitNode} {lo mid : Nat}, lo < mid → Wired shape q [mid - 1] mid →
      (∀ i node, lo ≤ i → i < mid → shape[i]? = some (some node) → ∀ j ∈ node.inputs, lo ≤ j ∧ j < i) →
      ∀ i node, lo ≤ i → i < mid + 1 → shape[i]? = some (some node) → ∀ j ∈ node.inputs, lo ≤ j ∧ j < i := by
    intro q lo mid hlt hw ih i node hlo hhi hnode j hj
    rcases Nat.lt_or_ge i mid with hi | hi
    · exact ih i node hlo hi hnode j hj
    · obtain rfl : i = mid := by omega
      rw [hwired hw hnode, mem_singleton] at hj
      omega
  induction hp with
  | @source lo table aliasName schema h =>
    intro i node hlo hhi hnode j hj
    obtain rfl : i = lo := by omega
    rw [h] at hnode
    cases hnode
    cases hj
  | filter hp hw ih | project hp hw ih | aggregate hp hw ih | distinct hp hw ih => exact hunary hp.lt hw ih
  | @join lo mid hi left right keys schema hl hr hw ihl ihr =>
    intro i node hlo hhi hnode j hj
    have h1 := hl.lt
    have h2 := hr.lt
    rcases Nat.lt_or_ge i mid with hi' | hi'
    · exact ihl i node hlo hi' hnode j hj
    · rcases Nat.lt_or_ge i hi with hi'' | hi''
      · have := ihr i node hi' hi'' hnode j hj
        omega
      · obtain rfl : i = hi := by omega
        rw [hwired hw hnode] at hj
        simp only [mem_cons, not_mem_nil, or_false] at hj
        omega

theorem Placed.size_unique {hi' : Nat} (h : Placed shape lo p hi) (h' : Placed shape lo p hi') : hi = hi' := by
  induction h generalizing hi' with
  | source _ => cases h'; rfl
  | filter _ _ ih =>
    cases h' with
    | filter h' _ => rw [ih h']
  | project _ _ ih =>
    cases h' with
    | project h' _ => rw [ih h']
  | join _ _ _ ihl ihr =>
    cases h' with
    | join hl' hr' _ =>
      obtain rfl := ihl hl'
      rw [ihr hr']
  | aggregate _ _ ih =>
    cases h' with
    | aggregate h' _ => rw [ih h']
  | distinct _ _ ih =>
    cases h' with
    | distinct h' _ => rw [ih h']

theorem Instantiated.ordered {c : Circuit} (h : Instantiated plan c)
    (hall : Placed c.shape.1 0 plan.root c.shape.1.length) : c.Ordered := by
  obtain ⟨size, hplaced, ancestors, hsinks, hanc⟩ := h.placed
  have hlive : ∀ i < size, LiveAt c.shape.1 i := by
    intro i hi
    obtain ⟨node, hnode, _⟩ := hplaced.fresh .checked i (Nat.zero_le i) hi
    exact ⟨node, hnode⟩
  refine ⟨fun i node hnode j hj => ?_, fun sink hsink => ?_⟩
  · have hi : i < size := by
      rw [hplaced.size_unique hall]
      exact (List.getElem?_eq_some_iff.1 hnode).1
    obtain ⟨_, hlt⟩ := hplaced.inputs_lt i node (Nat.zero_le i) hi hnode j hj
    exact ⟨hlt, hlive j (hlt.trans hi)⟩
  · have hmem : some (sink.node, sink.ancestors, sink.result.schema, sink.errors.schema) ∈ c.shape.2 :=
      mem_map.2 ⟨some sink, hsink, rfl⟩
    rw [hsinks, mem_singleton, Option.some.injEq] at hmem
    simp only [Prod.mk.injEq] at hmem
    obtain ⟨hnode, hancestors, _⟩ := hmem
    refine ⟨hlive _ ?_, fun j hj => hlive j ?_⟩
    · have := hplaced.lt
      omega
    · rw [hancestors, ← List.mem_toFinset, hanc, Finset.mem_range] at hj
      exact hj

/-! Deltas put together. -/

namespace EpochDeltas

/-- `extend`: more entries for a table, after those it has. -/
def extend (d : EpochDeltas) (table : String) (entries : Entries) : EpochDeltas :=
  d.insert table (d.entriesFor table ++ entries)

def extendAll (d : EpochDeltas) (tables : List (String × Entries)) : EpochDeltas :=
  tables.foldl (fun d e => d.extend e.1 e.2) d

/-- Epochs as one delta, their entries in arrival order. -/
def concat (epochs : List EpochDeltas) : EpochDeltas :=
  epochs.foldl (fun d epoch => d.extendAll epoch.toList) ∅

variable (d : EpochDeltas) (table : String)

theorem ofEntries_extend (other : String) (entries : Entries) :
    ofEntries ((d.extend other entries).entriesFor table) =
      ofEntries (d.entriesFor table) + if other = table then ofEntries entries else 0 := by
  unfold extend entriesFor
  rw [SortedMap.getD_eq, SortedMap.getElem?_insert]
  split
  · next h =>
    subst h
    exact ofEntries_append _ _
  · rw [SortedMap.getD_eq, add_zero]

theorem ofEntries_extendAll (tables : List (String × Entries)) :
    ofEntries ((d.extendAll tables).entriesFor table) =
      ofEntries (d.entriesFor table) + (tables.map (fun e => if e.1 = table then ofEntries e.2 else 0)).sum :=
  foldl_sum (φ := fun d => ofEntries (EpochDeltas.entriesFor d table)) (fun d e => d.ofEntries_extend table e.1 e.2)

theorem ofEntries_extendMap (epoch : EpochDeltas) :
    ofEntries ((d.extendAll epoch.toList).entriesFor table) =
      ofEntries (d.entriesFor table) + ofEntries (epoch.entriesFor table) := by
  rw [ofEntries_extendAll, sum_toList_key, entriesFor, entriesFor, getD_eq epoch]
  cases epoch[table]? with
  | none => simp
  | some entries => rfl

theorem ofEntries_deltasOf (epochs : List EpochDeltas) :
    ofEntries (deltasOf table epochs) = (epochs.map (fun d => ofEntries (d.entriesFor table))).sum := by
  induction epochs with
  | nil => simp [deltasOf]
  | cons d rest ih =>
    rw [map_cons, sum_cons, ← ih, ← ofEntries_append]
    rfl

theorem ofEntries_concat (epochs : List EpochDeltas) :
    ofEntries ((concat epochs).entriesFor table) = ofEntries (deltasOf table epochs) := by
  rw [concat, foldl_sum (φ := fun d => ofEntries (EpochDeltas.entriesFor d table))
    (fun d epoch => d.ofEntries_extendMap table epoch), ofEntries_deltasOf]
  simp [entriesFor]

end EpochDeltas

/-! Catching up. -/

/-- What epochs sum to, table by table. -/
noncomputable def totalsOf (ds : List EpochDeltas) (table : String) : ZSet Row := ofEntries (deltasOf table ds)

namespace Circuit

/-- One pass over some of the nodes; the epoch does not move. -/
def catchUp (c : Circuit) (build : Build) (deltas : EpochDeltas) (subset : List Nat) :
    Except CircuitError Unit × Circuit :=
  c.pass build deltas (some subset)

def allNodes (c : Circuit) : List Nat := List.range c.slots.length

/-- A stream of chunks, each one pass over the nodes. -/
def catchUpAll (build : Build) (nodes : List Nat) : Circuit → List EpochDeltas → Except CircuitError Circuit
  | c, [] => .ok c
  | c, chunk :: rest => match c.catchUp build chunk nodes with
    | (.error e, _) => .error e
    | (.ok _, c) => catchUpAll build nodes c rest

/-- A circuit that has been fed the tables, but for its late nodes, which are as they were built and not primed. -/
def Fed (c : Circuit) (build : Build) (late : List Nat) (T : String → ZSet Row) : Prop :=
  ∃ S, c.Tracks build (fun i => !late.contains i) (fun i => if late.contains i then 0 else T) S

variable {c c' : Circuit} {build : Build} {T : String → ZSet Row} {S : Nat → Streams} {late : List Nat}

theorem Tracks.congr {primed primed' : Nat → Bool} {T T' : Nat → String → ZSet Row}
    (h : c.Tracks build primed T S) (hp : ∀ i < c.slots.length, primed' i = primed i)
    (hT : ∀ i < c.slots.length, T' i = T i) : c.Tracks build primed' T' S := by
  refine ⟨fun i slot node hi hnode => ?_, h.sinks⟩
  have hlt : i < c.slots.length := (List.getElem?_eq_some_iff.1 hi).1
  rw [hp i hlt, hT i hlt]
  exact h.nodes i slot node hi hnode

theorem slots_length_of_shape (h : c'.shape = c.shape) : c'.slots.length = c.slots.length := by
  have := congrArg (fun s => s.1.length) h
  simpa [shape] using this

theorem ClosedOutside.of_shape {subset : Option (List Nat)} (h : c.ClosedOutside subset) (hshape : c'.shape = c.shape) :
    c'.ClosedOutside subset := by
  intro i slot' node' hi hn hx j hj
  have hat : c.shape.1[i]? = some (some node'.reset) := by
    rw [← hshape]
    simp [shape, hi, hn]
  rw [shape, List.getElem?_map] at hat
  obtain ⟨slot, hslot, hnode⟩ := map_eq_some_iff.1 hat
  obtain ⟨node, hn', hr⟩ := map_eq_some_iff.1 hnode
  refine h i slot node hslot hn' hx j ?_
  rwa [← node.reset_inputs, hr, node'.reset_inputs]

/-- A catch-up primes its nodes and moves them by what its chunks sum to. -/
theorem catchUpAll_spec {primed : Nat → Bool} {T : Nat → String → ZSet Row} {nodes : List Nat}
    {chunks : List EpochDeltas} (hc : c.Tracks build primed T S) (hsub : c.ClosedOutside (some nodes))
    (h : c.catchUpAll build nodes chunks = .ok c') :
    c'.shape = c.shape ∧ ∃ S', c'.Tracks build (fun i => (nodes.contains i && !chunks.isEmpty) || primed i)
      (fun i table => T i table + if nodes.contains i then ofEntries (deltasOf table chunks) else 0) S' := by
  induction chunks generalizing c primed T S with
  | nil =>
    cases h
    refine ⟨rfl, S, ?_⟩
    simpa [deltasOf] using hc
  | cons chunk rest ih =>
    unfold catchUpAll at h
    split at h
    · cases h
    · next c₁ hstep =>
      obtain ⟨hshape1, _, S₁, _, hold1⟩ := pass_spec hc hsub hstep
      obtain ⟨hshape, S', hold⟩ := ih hold1 (hsub.of_shape hshape1) h
      refine ⟨hshape.trans hshape1, S', hold.congr (fun i _ => ?_) (fun i _ => ?_)⟩
      · simp only [primedAfter, included, isEmpty_cons, Bool.not_false, Bool.and_true]
        cases nodes.contains i <;> simp
      · funext table
        cases hi : nodes.contains i with
        | true => simp only [fedAfter, included, hi, if_true, tablesAfter, deltasOf, flatMap_cons, ofEntries_append, add_assoc]
        | false => simp only [fedAfter, included, hi, Bool.false_eq_true, if_false]

theorem Fed.unique (h : c.Fed build [] T) (h' : c'.Fed build [] T) (hshape : c'.shape = c.shape) (hord : c.Ordered) :
    c.contents = c'.contents ∧ c.answer = c'.answer := by
  obtain ⟨S, hold⟩ := h
  obtain ⟨S', hold'⟩ := h'
  have heq := hold.unique hold' hshape hord
  exact ⟨heq, answer_of_contents heq⟩

theorem Fed.run {history : List EpochDeltas} (hc : c.Fed build [] 0) (h : c.run build history = .ok c') :
    c'.shape = c.shape ∧ c'.Fed build [] (totalsOf history) := by
  obtain ⟨S, hold⟩ := hc
  obtain ⟨hshape, _, S', hold'⟩ := run_spec (T := 0) hold h
  refine ⟨hshape, S', hold'.congr (fun i _ => rfl) (fun i _ => ?_)⟩
  funext table
  simp [totalsOf]

/-- Late nodes that catch up by what the others have been fed are late no more. -/
theorem Fed.catchUp {chunks : List EpochDeltas} (hc : c.Fed build late T) (hsub : c.ClosedOutside (some late))
    (hne : chunks ≠ []) (htotal : totalsOf chunks = T)
    (h : c.catchUpAll build late chunks = .ok c') : c'.shape = c.shape ∧ c'.Fed build [] T := by
  obtain ⟨S, hold⟩ := hc
  obtain ⟨hshape, S', hold'⟩ := catchUpAll_spec hold hsub h
  refine ⟨hshape, S', hold'.congr (fun i _ => ?_) (fun i _ => ?_)⟩
  · cases hi : late.contains i <;> simp [hne]
  · funext table
    cases hi : late.contains i with
    | true => simp [← htotal, totalsOf]
    | false => simp

/-- So does a circuit that holds nothing and is primed, in a catch-up of all its nodes. -/
theorem Fed.catchUp_allNodes {chunks : List EpochDeltas} (hc : c.Fed build [] 0)
    (h : c.catchUpAll build c.allNodes chunks = .ok c') :
    c'.shape = c.shape ∧ c'.Fed build [] (totalsOf chunks) := by
  obtain ⟨S, hold⟩ := hc
  have hin : ∀ i < c.slots.length, i ∈ c.allNodes := fun i hi => List.mem_range.2 hi
  have hsub : c.ClosedOutside (some c.allNodes) := by
    intro i slot node hi _ hx
    simp [included, hin i (List.getElem?_eq_some_iff.1 hi).1] at hx
  obtain ⟨hshape, S', hold'⟩ := catchUpAll_spec hold hsub h
  have hlen := slots_length_of_shape hshape
  refine ⟨hshape, S', hold'.congr (fun i _ => ?_) (fun i hi => ?_)⟩
  · simp
  · funext table
    simp [totalsOf, hin i (hlen ▸ hi)]

end Circuit

/-! Hydration. -/

inductive BatchError where
  | unknownTable (table : String)
  | zset (e : ZSetError)

/-- `epoch_deltas`: one sealed epoch's input. -/
def epochDeltas (batches : List LogBatch) : EpochDeltas :=
  EpochDeltas.extendAll ∅ (batches.map (fun batch => (batch.table, batch.entries)))

/-- The body of `accumulated_upto`: one batch joins the integral of its table. -/
def accumulate (catalog : Catalog) (integrals : BTreeMap String ZSetBatch) (batch : LogBatch) :
    Except BatchError (BTreeMap String ZSetBatch) :=
  match catalog[batch.table]? with
  | none => .error (.unknownTable batch.table)
  | some schema => Except.mapError .zset do
    let delta ← ZSetBatch.fromEntries schema batch.entries
    let merged ← integrals[batch.table]?.elim (.ok delta) (fun held => held.add delta)
    let merged ← merged.consolidate
    return integrals.insert batch.table merged

/-- The epochs are those the log holds, up to the one that is asked for; `integrals` is what the
    live snapshot has of those before. -/
def accumulatedUpto (catalog : Catalog) (integrals : BTreeMap String ZSetBatch) (epochs : List (List LogBatch)) :
    Except BatchError (BTreeMap String ZSetBatch) :=
  epochs.flatten.foldlM (accumulate catalog) integrals

def asOneDelta (integrals : BTreeMap String ZSetBatch) : Except BatchError EpochDeltas :=
  integrals.toList.foldlM (fun deltas e =>
    (e.2.canonical.mapError .zset).map (fun canonical => deltas.extend e.1 canonical.entries)) ∅

/-- What the integrals hold of a table. -/
noncomputable def heldOf (integrals : BTreeMap String ZSetBatch) (table : String) : ZSet Row :=
  (integrals[table]?).elim 0 ZSetBatch.denote

section Hydrate

variable {catalog : Catalog} {integrals integrals' : BTreeMap String ZSetBatch}

theorem accumulate_spec {batch : LogBatch} (h : accumulate catalog integrals batch = .ok integrals') (table : String) :
    heldOf integrals' table =
      heldOf integrals table + if batch.table = table then ofEntries batch.entries else 0 := by
  unfold accumulate at h
  split at h
  · cases h
  · obtain ⟨delta, hdelta, h⟩ := bind_ok.1 (mapError_ok.1 h)
    obtain ⟨merged, hmerged, h⟩ := bind_ok.1 h
    obtain ⟨out, hout, h⟩ := bind_ok.1 h
    cases h
    have hbatch : delta.denote = ofEntries batch.entries := by rw [ZSetBatch.denote, (ZSetBatch.fromEntries_ok hdelta).2]
    have hsum : merged.denote = heldOf integrals batch.table + ofEntries batch.entries := by
      unfold heldOf
      cases hheld : integrals[batch.table]? with
      | some held =>
        rw [hheld] at hmerged
        rw [elim_some, ZSetBatch.add_denote hmerged, hbatch]
      | none =>
        rw [hheld] at hmerged
        cases hmerged
        rw [elim_none, zero_add, hbatch]
    rw [heldOf, SortedMap.getElem?_insert]
    by_cases ht : batch.table = table
    · rw [if_pos ht, if_pos ht, elim_some, (ZSetBatch.consolidate_spec hout).2.2, hsum, ht]
    · rw [if_neg ht, if_neg ht, add_zero, heldOf]

/-- The epochs one batch after another sum to what they sum to as deltas. -/
theorem sum_flatten_epochs (table : String) (epochs : List (List LogBatch)) :
    (epochs.flatten.map (fun b => if b.table = table then ofEntries b.entries else 0)).sum =
      ofEntries (deltasOf table (epochs.map epochDeltas)) := by
  have hepoch : ∀ batches : List LogBatch, ofEntries ((epochDeltas batches).entriesFor table) =
      (batches.map (fun b => if b.table = table then ofEntries b.entries else 0)).sum := by
    intro batches
    rw [epochDeltas, EpochDeltas.ofEntries_extendAll, List.map_map]
    simp [EpochDeltas.entriesFor, Function.comp_def]
  rw [EpochDeltas.ofEntries_deltasOf, map_flatten, sum_flatten, List.map_map, List.map_map]
  congr 2
  funext batches
  exact (hepoch batches).symm

theorem accumulatedUpto_spec {epochs : List (List LogBatch)}
    (h : accumulatedUpto catalog integrals epochs = .ok integrals') (table : String) :
    heldOf integrals' table = heldOf integrals table + ofEntries (deltasOf table (epochs.map epochDeltas)) := by
  rw [← sum_flatten_epochs]
  exact foldlM_sum (φ := fun integrals => heldOf integrals table) (fun _ _ _ h => accumulate_spec h table) h

theorem asOneDelta_spec {d : EpochDeltas} (h : asOneDelta integrals = .ok d) (table : String) :
    ofEntries (d.entriesFor table) = heldOf integrals table := by
  have hstep : ∀ (deltas : EpochDeltas) (e : String × ZSetBatch) (deltas' : EpochDeltas),
      (e.2.canonical.mapError BatchError.zset).map (fun canonical => deltas.extend e.1 canonical.entries) = .ok deltas' →
        ofEntries (deltas'.entriesFor table) =
          ofEntries (deltas.entriesFor table) + if e.1 = table then e.2.denote else 0 := by
    intro deltas e deltas' h
    obtain ⟨canonical, hcanonical, rfl⟩ := map_ok.1 h
    rw [EpochDeltas.ofEntries_extend, ZSetBatch.canonical_denote (mapError_ok.1 hcanonical)]
  rw [foldlM_sum (φ := fun deltas => ofEntries (EpochDeltas.entriesFor deltas table)) hstep h, sum_toList_key]
  simp [EpochDeltas.entriesFor, heldOf]

end Hydrate

/-! Batching independence. -/

/-- Epochs and chunks that sum to the same tables. -/
def SameTotals (ds ds' : List EpochDeltas) : Prop :=
  ∀ table, ZSet.ofEntries (Oracle.deltasOf table ds) = ZSet.ofEntries (Oracle.deltasOf table ds')

theorem sameTotals_iff {ds ds' : List EpochDeltas} : SameTotals ds ds' ↔ totalsOf ds = totalsOf ds' := funext_iff.symm

theorem sameTotals_concat (ds : List EpochDeltas) : SameTotals ds [EpochDeltas.concat ds] := by
  intro table
  rw [← EpochDeltas.ofEntries_concat]
  simp [deltasOf]

/-- From one freshly built circuit, epochs stepped one at a time and their
    concatenation stepped at once leave the same state in every operator and the
    same answer and live errors in every sink; so does a catch-up by any chunks
    that sum to the same tables. In a circuit of several queries nodes that came
    late and catch up are as those of a circuit that had them all along. The log's
    epochs on what a snapshot holds, as one delta, are chunks of that kind. -/
theorem batching_independent {build : Build} {plan : CircuitPlan} {c₀ c₁ : Circuit} {ds : List EpochDeltas}
    (hbuild : instantiate build plan = .ok c₀) (hsteps : c₀.run build ds = .ok c₁) :
    (∀ c₂, c₀.run build [EpochDeltas.concat ds] = .ok c₂ →
      c₁.contents = c₂.contents ∧ c₁.answer = c₂.answer) ∧
    (∀ chunks c₂, SameTotals ds chunks → c₀.catchUpAll build c₀.allNodes chunks = .ok c₂ →
      c₁.contents = c₂.contents ∧ c₁.answer = c₂.answer) ∧
    (∀ (c c' c₂ : Circuit) (late : List Nat) (chunks : List EpochDeltas),
      c.Fed build [] (totalsOf ds) → c.Ordered → c'.shape = c.shape → c'.Fed build late (totalsOf ds) →
      c'.ClosedOutside (some late) → chunks ≠ [] → SameTotals ds chunks →
      c'.catchUpAll build late chunks = .ok c₂ → c.contents = c₂.contents ∧ c.answer = c₂.answer) ∧
    ∀ (catalog : Catalog) (snapshot integrals : BTreeMap String ZSetBatch) (before : List EpochDeltas)
      (epochs : List (List LogBatch)) (d : EpochDeltas),
      (∀ table, heldOf snapshot table = totalsOf before table) → ds = before ++ epochs.map epochDeltas →
      accumulatedUpto catalog snapshot epochs = .ok integrals → asOneDelta integrals = .ok d → SameTotals ds [d] := by
  obtain ⟨hinst, hplaced, _, S₀, hold0⟩ := instantiate_spec hbuild
  have hfed0 : c₀.Fed build [] 0 := ⟨S₀, hold0⟩
  obtain ⟨hshape1, hfed1⟩ := hfed0.run hsteps
  have hord : c₁.Ordered := by
    have hinst1 : Instantiated plan c₁ := ⟨by rw [hshape1]; exact hinst.placed⟩
    refine hinst1.ordered ?_
    rw [hshape1]
    exact hplaced
  refine ⟨fun c₂ hone => ?_, fun chunks c₂ htotals hcatch => ?_, ?_, ?_⟩
  · obtain ⟨hshape2, hfed2⟩ := hfed0.run hone
    rw [← sameTotals_iff.1 (sameTotals_concat ds)] at hfed2
    exact hfed1.unique hfed2 (hshape2.trans hshape1.symm) hord
  · obtain ⟨hshape2, hfed2⟩ := hfed0.catchUp_allNodes hcatch
    rw [← sameTotals_iff.1 htotals] at hfed2
    exact hfed1.unique hfed2 (hshape2.trans hshape1.symm) hord
  · intro c c' c₂ late chunks hc hordered hshape hc' hsub hne htotals hcatch
    obtain ⟨hshape2, hfed2⟩ := hc'.catchUp hsub hne (sameTotals_iff.1 htotals).symm hcatch
    exact hc.unique hfed2 (hshape2.trans hshape) hordered
  · intro catalog snapshot integrals before epochs d hsnapshot hds hintegrals hd table
    have hone : ofEntries (deltasOf table [d]) = ofEntries (d.entriesFor table) := by simp [deltasOf]
    rw [hone, asOneDelta_spec hd, accumulatedUpto_spec hintegrals, hsnapshot, hds, totalsOf, deltasOf, flatMap_append,
      ofEntries_append]
    rfl

/-- A group that divides by zero after the first epoch and recovers in the second. -/
def failThenRecover : List EpochDeltas :=
  zeroAndOne ++ [(∅ : EpochDeltas).insert "t" [([.int I64.one], I64.one)]]

/-- The same rows, later ones first and one of them taken back on the way. -/
def recoverChunks : List EpochDeltas :=
  [(∅ : EpochDeltas).insert "t" [([.int I64.one], I64.lit 3)],
    (∅ : EpochDeltas).insert "t" [([.int I64.zero], I64.one), ([.int I64.one], I64.negOne)]]

/-- One plan, built and then fed the same rows three ways. -/
def threeWays (build : Build) (query : Query) (ds chunks : List EpochDeltas) :
    Option (CircuitPlan × Circuit × Circuit × Circuit × Circuit) := do
  let o ← (Oracle.new singleColumn).toOption
  let bound ← (bind o.catalog query).toOption
  let plan ← (planOf query bound o.catalog).toOption
  let c₀ ← (instantiate build plan).toOption
  let c₁ ← (c₀.run build ds).toOption
  let c₂ ← (c₀.run build [EpochDeltas.concat ds]).toOption
  let c₃ ← (c₀.catchUpAll build c₀.allNodes chunks).toOption
  return (plan, c₀, c₁, c₂, c₃)

theorem threeWays_spec {query : Query} {ds chunks : List EpochDeltas} {c₀ c₁ c₂ c₃ : Circuit}
    (h : threeWays build query ds chunks = some (plan, c₀, c₁, c₂, c₃)) :
    instantiate build plan = .ok c₀ ∧ c₀.run build ds = .ok c₁ ∧
      c₀.run build [EpochDeltas.concat ds] = .ok c₂ ∧ c₀.catchUpAll build c₀.allNodes chunks = .ok c₃ := by
  simp only [threeWays, Option.bind_eq_bind, bind_eq_some_iff, Option.pure_def, Option.some.injEq, toOption_eq_some,
    Prod.mk.injEq] at h
  obtain ⟨_, _, _, _, _, _, _, h0, _, h1, _, h2, _, h3, rfl, rfl, rfl, rfl, rfl⟩ := h
  exact ⟨h0, h1, h2, h3⟩

/-- In the build without overflow checks, over a grand total that fails and recovers. -/
theorem batching_independent_divideSum : ∃ plan c₀ c₁ c₂ c₃,
    instantiate .wrapping plan = .ok c₀ ∧ c₀.run .wrapping failThenRecover = .ok c₁ ∧
    c₀.run .wrapping [EpochDeltas.concat failThenRecover] = .ok c₂ ∧
    SameTotals failThenRecover recoverChunks ∧ c₀.catchUpAll .wrapping c₀.allNodes recoverChunks = .ok c₃ ∧
    c₁.contents = c₂.contents ∧ c₁.answer = c₂.answer ∧ c₁.contents = c₃.contents ∧ c₁.answer = c₃.answer := by
  have hsome : (threeWays .wrapping divideSumQuery failThenRecover recoverChunks).isSome = true := by
    decide +kernel
  obtain ⟨⟨plan, c₀, c₁, c₂, c₃⟩, hways⟩ := isSome_iff_exists.1 hsome
  obtain ⟨hbuild, hsteps, hone, hcatch⟩ := threeWays_spec hways
  have htotals : SameTotals failThenRecover recoverChunks := by
    intro table
    by_cases ht : table = "t"
    · subst ht
      have h1 : deltasOf "t" failThenRecover =
        [([.int I64.zero], I64.one), ([.int I64.one], I64.one), ([.int I64.one], I64.one)] := by decide +kernel
      have h2 : deltasOf "t" recoverChunks =
        [([.int I64.one], I64.lit 3), ([.int I64.zero], I64.one), ([.int I64.one], I64.negOne)] := by decide +kernel
      rw [h1, h2]
      ext row
      simp only [ofEntries_cons, ofEntries_nil, Finsupp.add_apply, Finsupp.single_apply]
      have hthree : (I64.lit 3).val = 3 := rfl
      have hneg : I64.negOne.val = -1 := rfl
      rw [hthree, hneg, I64.one_val]
      split <;> split <;> simp
    · have hnone : ∀ entries : Entries, EpochDeltas.entriesFor ((∅ : EpochDeltas).insert "t" entries) table = [] := by
        intro entries
        rw [EpochDeltas.entriesFor, SortedMap.getD_eq, SortedMap.getElem?_insert, if_neg (Ne.symm ht)]
        simp
      simp [deltasOf, failThenRecover, zeroAndOne, recoverChunks, hnone]
  obtain ⟨hconcat, hchunks, _⟩ := batching_independent hbuild hsteps
  obtain ⟨h2, ha2⟩ := hconcat c₂ hone
  obtain ⟨h3, ha3⟩ := hchunks recoverChunks c₃ htotals hcatch
  exact ⟨plan, c₀, c₁, c₂, c₃, hbuild, hsteps, hone, htotals, hcatch, h2, ha2, h3, ha3⟩

end Mutiny.Schweep
