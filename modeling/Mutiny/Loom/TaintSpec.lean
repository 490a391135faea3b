import Mutiny.Loom.Taint

/- What the walk from a source finds.

   Nodes are looked up by their ids, so two stored nodes with one id count as one:
   where ids tell nodes apart (`IdsApart`) the walk goes along every stored edge
   (`mem_childrenOf_nodesIn`). A walk that stays within its limit finds exactly what
   can be reached (`mem_floodDownstream`), so that it finds no less where more is
   stored (`flood_mono`). -/
namespace Mutiny.Loom
open Mutiny.Lib Mutiny.Substrate SortedMap List
open Mutiny.Bridge (SourceRef)

variable {id : NodeId}

theorem mem_sortedNodes {nodes : List NodeId} : id ∈ sortedNodes nodes ↔ id ∈ nodes := by
  rw [sortedNodes, mem_dedup, mem_insertionSort]

variable {nodes : NodeMap}

theorem mem_childrenOf {parent child : NodeId} :
    child ∈ childrenOf nodes parent ↔
      ∃ (key : NodeId) (node : DerivationNode), nodes[key]? = some node ∧ parent ∈ node.derivedFrom ∧ node.id = child := by
  simp only [childrenOf, mem_flatMap, mem_map, mem_filter, decide_eq_true_iff, Prod.exists,
    mem_toList]
  constructor
  · rintro ⟨key, node, hnode, p, ⟨hp, rfl⟩, hid⟩
    exact ⟨key, node, hnode, hp, hid⟩
  · rintro ⟨key, node, hnode, hp, hid⟩
    exact ⟨key, node, hnode, parent, ⟨hp, rfl⟩, hid⟩

/-- What the walk goes along. -/
def Derives (nodes : NodeMap) (parent child : NodeId) : Prop := child ∈ childrenOf nodes parent

theorem mem_floodDownstream {seeds found : List NodeId} (h : floodDownstream nodes seeds = .ok found) :
    id ∈ found ↔ ∃ seed ∈ seeds, Relation.ReflTransGen (Derives nodes) seed id := by
  unfold floodDownstream at h
  cases hwalk : deepWalk (childrenOf nodes) mem_parentIds maxDerivationDepth [] (seeds.reverse.map (fun id => (id, 0))) with
  | error depth =>
    rw [hwalk] at h
    cases h
  | ok out =>
    rw [hwalk] at h
    cases h
    rw [mem_sortedNodes, mem_deepWalk hwalk]
    simp only [mem_map, mem_reverse]
    constructor
    · rintro ⟨e, ⟨seed, hseed, rfl⟩, hreach⟩
      exact ⟨seed, hseed, hreach⟩
    · rintro ⟨seed, hseed, hreach⟩
      exact ⟨(seed, 0), ⟨seed, hseed, rfl⟩, hreach⟩

/-- Every walk ends. What it finds is exactly what can be reached; it finds it where no
    chain of derivations from a seed is longer than the limit, and fails only where one is. -/
theorem flood_reaches_within_limit (nodes : NodeMap) (seeds : List NodeId) :
    (∀ found, floodDownstream nodes seeds = .ok found →
      ∀ id, id ∈ found ↔ ∃ seed ∈ seeds, Relation.ReflTransGen (Derives nodes) seed id) ∧
    ((∀ seed ∈ seeds, ∀ rest, (seed :: rest).IsChain (Derives nodes) → rest.length ≤ maxDerivationDepth) →
      ∃ found, floodDownstream nodes seeds = .ok found) ∧
    ∀ e, floodDownstream nodes seeds = .error e → e = .derivationCycle maxDerivationDepth ∧
      ∃ seed ∈ seeds, ∃ rest, (seed :: rest).IsChain (Derives nodes) ∧ maxDerivationDepth < rest.length := by
  have herror : ∀ e, floodDownstream nodes seeds = .error e → e = .derivationCycle maxDerivationDepth ∧
      ∃ seed ∈ seeds, ∃ rest, (seed :: rest).IsChain (Derives nodes) ∧ maxDerivationDepth < rest.length := by
    intro e he
    unfold floodDownstream at he
    split at he
    · cases he
    · next d hwalk =>
      cases he
      obtain ⟨rfl, e, hmem, rest, hchain, hlt⟩ := deepWalk_error hwalk
      obtain ⟨seed, hseed, rfl⟩ := mem_map.1 hmem
      exact ⟨rfl, seed, mem_reverse.1 hseed, rest, hchain, by simpa using hlt⟩
  refine ⟨fun found hflood id => mem_floodDownstream hflood, fun hshort => ?_, herror⟩
  cases hflood : floodDownstream nodes seeds with
  | error e =>
    obtain ⟨-, seed, hseed, rest, hchain, hlt⟩ := herror e hflood
    exact absurd (hshort seed hseed rest hchain) (by omega)
  | ok found => exact ⟨found, rfl⟩

/-- Nodes 0 to 65, each derived from the one before. -/
def longChain : NodeMap :=
  (List.range 66).foldl (fun nodes i =>
    nodes.insert (Fin.ofNat _ i) ⟨Fin.ofNat _ i, "main", 0, [], "", [], "", if i = 0 then [] else [Fin.ofNat _ (i - 1)], []⟩) ∅

/-- No cycle: every node comes after those it is derived from. -/
theorem flood_refuses_long_chain :
    longChain.toList.all (fun e => e.2.derivedFrom.all (fun p => p < e.2.id)) = true ∧
      floodDownstream longChain [0] = .error (.derivationCycle 64) := by
  decide +kernel

namespace LoomDb

variable {E : Engine} {m m' : Entries}

def StoredNode (E : Engine) (m : Entries) (node : DerivationNode) : Prop :=
  ∃ e ∈ m, provPrefix.isPrefixOf e.1 = true ∧ e.2.blob?.bind E.codec.decodeNode = some node

/-- No two stored nodes share an id. -/
def IdsApart (E : Engine) (m : Entries) : Prop :=
  ∀ node node', StoredNode E m node → StoredNode E m node' → node.id = node'.id → node = node'

variable {nodes : List DerivationNode} {start : NodeMap} {id : NodeId} {node : DerivationNode}

theorem getElem?_insertNodes (h : (nodes.foldl (fun map node => map.insert node.id node) start)[id]? = some node) :
    (node ∈ nodes ∧ node.id = id) ∨ start[id]? = some node := by
  induction nodes generalizing start with
  | nil => exact .inr h
  | cons first nodes ih =>
    rcases ih h with ⟨hmem, hid⟩ | h
    · exact .inl ⟨mem_cons_of_mem _ hmem, hid⟩
    · rw [SortedMap.getElem?_insert] at h
      by_cases heq : first.id = id
      · rw [if_pos heq] at h
        cases h
        exact .inl ⟨mem_cons_self, heq⟩
      · rw [if_neg heq] at h
        exact .inr h

theorem mem_insertNodes (h : id ∈ start ∨ ∃ node ∈ nodes, node.id = id) :
    id ∈ nodes.foldl (fun map node => map.insert node.id node) start := by
  induction nodes generalizing start with
  | nil => exact h.resolve_right (by simp)
  | cons first nodes ih =>
    refine ih ?_
    rw [mem_insert]
    rcases h with h | ⟨node, hnode, hid⟩
    · exact .inl (.inr h)
    · rcases mem_cons.1 hnode with rfl | hnode
      · exact .inl (.inl hid)
      · exact .inr ⟨node, hnode, hid⟩

theorem mem_storedNodes : node ∈ m.filterMap (fun e =>
    if provPrefix.isPrefixOf e.1 then e.2.blob?.bind E.codec.decodeNode else none) ↔ StoredNode E m node := by
  rw [mem_filterMap]
  refine exists_congr (fun e => and_congr_right (fun _ => ?_))
  by_cases hpre : provPrefix.isPrefixOf e.1 = true
  · rw [if_pos hpre]
    exact (and_iff_right hpre).symm
  · rw [if_neg hpre]
    exact ⟨(fun h => by cases h), fun h => absurd h.1 hpre⟩

theorem storedNode_of_nodesIn (h : (nodesIn E m)[id]? = some node) : StoredNode E m node ∧ node.id = id := by
  rcases getElem?_insertNodes h with ⟨hmem, hid⟩ | h
  · exact ⟨mem_storedNodes.1 hmem, hid⟩
  · rw [getElem?_empty] at h
    cases h

theorem nodesIn_of_storedNode (hapart : IdsApart E m) (h : StoredNode E m node) :
    (nodesIn E m)[node.id]? = some node := by
  have hmem : node.id ∈ nodesIn E m := mem_insertNodes (.inr ⟨node, mem_storedNodes.2 h, rfl⟩)
  obtain ⟨node', hnode'⟩ := mem_iff.1 hmem
  obtain ⟨hstored, hid⟩ := storedNode_of_nodesIn hnode'
  rw [hnode', hapart node' node hstored h hid]

theorem derives_mono (hapart : IdsApart E m') (hsub : ∀ node, StoredNode E m node → StoredNode E m' node)
    {parent child : NodeId} (h : Derives (nodesIn E m) parent child) : Derives (nodesIn E m') parent child := by
  obtain ⟨key, node, hnode, hparent, rfl⟩ := mem_childrenOf.1 h
  obtain ⟨hstored, -⟩ := storedNode_of_nodesIn hnode
  exact mem_childrenOf.2 ⟨node.id, node, nodesIn_of_storedNode hapart (hsub node hstored), hparent, rfl⟩

variable {source : SourceRef}

theorem mem_seedsIn : id ∈ seedsIn source m ↔
    ∃ e ∈ m, (sourceIndexPrefix source).isPrefixOf e.1 = true ∧ e.2.blob?.bind nodeOfBytes = some id := by
  rw [seedsIn, mem_sortedNodes, mem_filterMap]
  refine exists_congr (fun e => and_congr_right (fun _ => ?_))
  by_cases hpre : (sourceIndexPrefix source).isPrefixOf e.1 = true
  · rw [if_pos hpre]
    exact (and_iff_right hpre).symm
  · rw [if_neg hpre]
    exact ⟨(fun h => by cases h), fun h => absurd h.1 hpre⟩

theorem isProvenance_of_sourceIndexPrefix {key : Key} (h : (sourceIndexPrefix source).isPrefixOf key = true) :
    isProvenance key = true := by
  obtain ⟨rest, rfl⟩ := isPrefixOf_iff_prefix.1 h
  rw [isProvenance, Bool.or_eq_true]
  refine .inr ( isPrefixOf_iff_prefix.2 ?_)
  rw [sourceIndexPrefix, append_assoc, append_assoc]
  exact prefix_append _ _

/-- A tree with more provenance has a walk that finds more. -/
theorem flood_mono (hapart : IdsApart E m') (hsub : ∀ e ∈ m, isProvenance e.1 = true → e ∈ m')
    {found found' : List NodeId} (h : floodDownstream (nodesIn E m) (seedsIn source m) = .ok found)
    (h' : floodDownstream (nodesIn E m') (seedsIn source m') = .ok found') : ∀ id ∈ found, id ∈ found' := by
  have hstored : ∀ node, StoredNode E m node → StoredNode E m' node := by
    rintro node ⟨e, he, hpre, hnode⟩
    exact ⟨e, hsub e he (by rw [isProvenance, hpre, Bool.true_or]), hpre, hnode⟩
  intro id hid
  obtain ⟨seed, hseed, hreach⟩ := (mem_floodDownstream h).1 hid
  obtain ⟨e, he, hpre, hread⟩ := mem_seedsIn.1 hseed
  refine (mem_floodDownstream h').2 ⟨seed, mem_seedsIn.2 ⟨e, ?_, hpre, hread⟩, ?_⟩
  · exact hsub e he (isProvenance_of_sourceIndexPrefix hpre)
  · exact hreach.lift (fun x => x) (fun _ _ hstep => derives_mono hapart hstored hstep)

end LoomDb

end Mutiny.Loom
