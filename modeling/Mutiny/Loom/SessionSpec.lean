import Mutiny.Lib.Ancestry
import Mutiny.Loom.MergeSpec
import Mutiny.Loom.Session

/- What the operations of a session do to the commits, the refs and the trees.

   A tree is built by insertions only, so what a write leaves of the records is
   the list with the caller's records and then the engine's own put into it
   (`engineWrites`, `buildWrite_puts`). The engine's keys are none of the caller's
   and none of those a merge keeps its memory at (`EngineKey`).

   The recorded parents of the commits are a history in the sense of `Lib.Anc`:
   `fullAncestors` computes its ancestors and `mergeBases` its lowest common
   ones. A write adds one commit to it, built on the head, or none. -/
namespace Mutiny.Loom
open Mutiny.Lib Mutiny.Substrate SortedMap LoomDb List
open Mutiny.Bridge (SourceRef WriteEnvelope)

/-! Records put one after the other. -/

variable {key : Key} {e : Key × Record} {m ws : Entries}

def puts (m ws : Entries) : Entries := ws.foldl (fun m w => putEntry w.1 w.2 m) m

theorem puts_append (m ws ws' : Entries) : puts m (ws ++ ws') = puts (puts m ws) ws' := foldl_append

theorem findEntry_puts_of_not_mem (h : ∀ w ∈ ws, w.1 ≠ key) : findEntry key (puts m ws) = findEntry key m := by
  induction ws generalizing m with
  | nil => rfl
  | cons w ws ih =>
    obtain ⟨hw, hws⟩ := forall_mem_cons.1 h
    rw [puts, foldl_cons, ← puts, ih hws, findEntry_putEntry, if_neg hw]

theorem findEntry_puts_of_unique {record : Record} (hall : ∀ w ∈ ws, w.1 = key → w.2 = record)
    (hex : ∃ w ∈ ws, w.1 = key) :
    findEntry key (puts m ws) = some record := by
  induction ws generalizing m with
  | nil =>
    obtain ⟨w, hw, -⟩ := hex
    cases hw
  | cons w ws ih =>
    obtain ⟨hw, hws⟩ := forall_mem_cons.1 hall
    rw [puts, foldl_cons, ← puts]
    by_cases hlater : ∃ w ∈ ws, w.1 = key
    · exact ih hws hlater
    · push Not at hlater
      obtain ⟨w', hw', hkey⟩ := hex
      have hwkey : w.1 = key := by
        rcases mem_cons.1 hw' with rfl | hmem
        · exact hkey
        · exact absurd hkey (hlater w' hmem)
      rw [findEntry_puts_of_not_mem hlater, findEntry_putEntry, if_pos hwkey, hw hwkey]

theorem sorted_puts (h : Sorted m) (ws : Entries) : Sorted (puts m ws) := by
  induction ws generalizing m with
  | nil => exact h
  | cons w ws ih => exact ih (sorted_putEntry h w.1 w.2)

theorem mem_puts_of_not (h : Sorted m) (hne : ∀ w ∈ ws, w.1 ≠ e.1) : e ∈ puts m ws ↔ e ∈ m := by
  rw [← findEntry_eq_some (sorted_puts h ws), ← findEntry_eq_some h, findEntry_puts_of_not_mem hne]

theorem mem_puts (h : Sorted m) (hone : ∀ w ∈ ws, ∀ w' ∈ ws, w.1 = w'.1 → w.2 = w'.2) :
    e ∈ puts m ws ↔ e ∈ ws ∨ e ∈ m ∧ ∀ w ∈ ws, w.1 ≠ e.1 := by
  by_cases hex : ∃ w ∈ ws, w.1 = e.1
  · obtain ⟨w, hw, hkey⟩ := hex
    have hfind : findEntry e.1 (puts m ws) = some w.2 :=
      findEntry_puts_of_unique (fun w' hw' hkey' => hone w' hw' w hw (hkey'.trans hkey.symm)) ⟨w, hw, hkey⟩
    have hnot : ¬ ∀ w ∈ ws, w.1 ≠ e.1 := fun hall => hall w hw hkey
    rw [← findEntry_eq_some (sorted_puts h ws), hfind]
    refine ⟨fun heq => .inl ?_, fun he => ?_⟩
    · have hwe : w = e := Prod.ext hkey (Option.some.inj heq)
      exact hwe ▸ hw
    · have hmem : e ∈ ws := he.resolve_right (fun hm => hnot hm.2)
      rw [hone w hw e hmem hkey]
  · have hne : ∀ w ∈ ws, w.1 ≠ e.1 := fun w hw hkey => hex ⟨w, hw, hkey⟩
    rw [mem_puts_of_not h hne]
    exact ⟨fun he => .inr ⟨he, hne⟩, fun he => he.elim (fun hmem => absurd rfl (hne e hmem)) And.left⟩

/-! The engine's keys. -/

/-- Where the engine puts the records of a write: the provenance layer and the
    reserved keys of these kinds. -/
def EngineKey (key : Key) : Prop :=
  isProvenance key = true ∨
    ∃ kind ∈ ["provseq/", "latest/", "idx/", "annbuf/", "clmhist/"], ∃ rest, key = reservedKey kind rest

theorem EngineKey.not_caller (h : EngineKey key) : isCallerKey key = false := by
  rcases h with h | ⟨kind, -, rest, rfl⟩
  · simp [isCallerKey, h]
  · simp [isCallerKey, isReserved_reservedKey]

theorem EngineKey.ne_of_caller {key' : Key} (h : EngineKey key) (hkey : isCallerKey key' = true) : key ≠ key' := by
  rintro rfl
  rw [h.not_caller] at hkey
  cases hkey

theorem not_isProvenance_reservedKey (kind : String) (rest : Bytes) : isProvenance (reservedKey kind rest) = false := by
  simp [isProvenance, reservedKey, reservedPrefix, provPrefix, srcPrefix, List.isPrefixOf]

theorem EngineKey.ne_mergedFromKey (h : EngineKey key) (source : BranchId) : key ≠ mergedFromKey source := by
  rcases h with h | ⟨kind, hkind, rest, rfl⟩
  · rintro rfl
    rw [mergedFromKey, not_isProvenance_reservedKey] at h
    cases h
  · intro heq
    have happ : utf8 kind ++ rest = utf8 "merged-from/" ++ utf8 source := by
      rw [mergedFromKey, reservedKey, reservedKey, append_assoc, append_assoc] at heq
      exact append_cancel_left heq
    have hfirst : (utf8 kind ++ rest).head? = some 109 := by
      rw [happ]
      rfl
    simp only [mem_cons, not_mem_nil, or_false] at hkind
    rcases hkind with rfl | rfl | rfl | rfl | rfl
    all_goals
      rw [List.head?_append_of_ne_nil _ (by decide)] at hfirst
      revert hfirst
      decide

theorem mergedFromKey_injective : Function.Injective mergedFromKey := by
  intro a b heq
  exact utf8_inj (append_cancel_left heq)

theorem findEntry_merged_memory {t writes : Entries} (hwrites : ∀ e ∈ writes, isReserved e.1 = false)
    (source source' : BranchId) (memory : Record) (hws : ∀ e ∈ ws, EngineKey e.1) :
    findEntry (mergedFromKey source') (puts t (writes ++ [(mergedFromKey source, memory)] ++ ws)) =
      if source = source' then some memory else findEntry (mergedFromKey source') t := by
  have hnot : ∀ e ∈ writes, e.1 ≠ mergedFromKey source' := by
    intro e he heq
    have hreserved := hwrites e he
    rw [heq, mergedFromKey, isReserved_reservedKey] at hreserved
    cases hreserved
  rw [puts_append, findEntry_puts_of_not_mem (fun e he => (hws e he).ne_mergedFromKey source'), puts_append]
  show findEntry (mergedFromKey source') (putEntry (mergedFromKey source) memory (puts t writes)) = _
  rw [findEntry_putEntry, findEntry_puts_of_not_mem hnot]
  by_cases heq : source = source'
  · rw [if_pos heq, if_pos (congrArg _ heq)]
  · rw [if_neg heq, if_neg (fun hkeys => heq (mergedFromKey_injective hkeys))]

theorem engineKey_reserved {kind : String} (hkind : kind ∈ ["provseq/", "latest/", "idx/", "annbuf/", "clmhist/"])
    (rest : Bytes) : EngineKey (reservedKey kind rest) := .inr ⟨kind, hkind, rest, rfl⟩

/-! What a write puts, as a list. -/

section Writes

variable (E : Engine)

def seqIn (m : Entries) (branch : BranchId) : Nat :=
  ((findEntry (provSeqKey branch) m).bind Record.counter?).elim 0 (fun n => (n.val % 2 ^ 64).toNat)

def nodeWrites (branch : BranchId) (seq : Nat) (node : DerivationNode) : Entries :=
  let id : Record := .value (.blob (digestBytes node.id))
  (nodeStorageKey branch seq, .value (.blob (E.codec.encodeNode node))) :: (latestNodeKey node.key, id) ::
    node.sources.map (fun source => (sourceIndexKey source branch seq, id))

def nodesWrites (branch : BranchId) : Nat → List DerivationNode → Entries
  | seq, [] => [(provSeqKey branch, .value (.counter (I64.wrap seq)))]
  | seq, node :: nodes => nodeWrites E branch seq node ++ nodesWrites branch (seq + 1) nodes

def provenanceWrites (branch : BranchId) (head : CommitId) (written : Entries) (envelope : WriteEnvelope)
    (captured : ReadSet) (extraParents : List (Key × List NodeId)) (m : Entries) : Entries :=
  if written.any (fun e => !isProvenance e.1 && !isReserved e.1) then
    nodesWrites E branch (seqIn m branch) (derivationNodes E branch head written envelope captured extraParents)
  else []

def entryOf? (captured : ReadSet) (hints : List (Key × IndexHint)) (e : Key × Record) : Option IndexEntry := do
  let (_, hint) ← hints.find? (fun h => h.1 = e.1)
  IndexEntry.new e.1 hint.text hint.embedding (citationsOf e.2) (isStale e.2)
    (captured.minLabel.mostRestrictive (ownTrust e.2))

def entryWrites (captured : ReadSet) (hints : List (Key × IndexHint)) (e : Key × Record) : Entries :=
  match entryOf? captured hints e with
  | none => []
  | some entry =>
    (indexKey e.1, .value (.blob (E.codec.encodeEntry entry))) ::
      entry.embedding.toList.map (fun vector => (annBufferKey e.1, .value (.blob (E.codec.encodeVector vector))))

def versionWrites (m : Entries) (claim : Claim) : Entries :=
  let versions := claimVersions E claim.subject claim.predicate m
  let seq := versions.foldl (fun n v => max n (v.2.seq + 1)) 0
  (versions.filter (fun v => v.2.claim.known.stop.isNone)).map (fun v =>
    (v.1, .value (.blob (E.codec.encodeVersion (closeVersion claim.known.start v.2))))) ++
  [(versionKey claim.subject claim.predicate seq, .value (.blob (E.codec.encodeVersion ⟨claim, seq⟩)))]

def versionsWrites : Entries → List Claim → Entries
  | _, [] => []
  | m, claim :: claims => versionWrites E m claim ++ versionsWrites (puts m (versionWrites E m claim)) claims

def claimsIn (written : Entries) : List Claim :=
  written.filterMap (fun e => match e.2 with
    | .claim claim => some claim
    | _ => none)

def engineWrites (branch : BranchId) (head : CommitId) (written : Entries) (envelope : WriteEnvelope)
    (captured : ReadSet) (extraParents : List (Key × List NodeId)) (hints : List (Key × IndexHint))
    (m : Entries) : Entries :=
  let nodes := provenanceWrites E branch head written envelope captured extraParents m
  let entries := written.flatMap (entryWrites E captured hints)
  nodes ++ entries ++ versionsWrites E (puts m (nodes ++ entries)) (claimsIn written)

end Writes

variable {E : Engine} {branch : BranchId}

section Engine

variable {w : Key × Record} {head : CommitId}
  {extraParents : List (Key × List NodeId)} {hints : List (Key × IndexHint)} {captured : ReadSet}
  {envelope : WriteEnvelope}

theorem nodeKey_of_nodesWrites {seq : Nat} {nodes : List DerivationNode} (h : w ∈ nodesWrites E branch seq nodes) :
    isProvenance w.1 = true ∨ ∃ kind ∈ ["provseq/", "latest/"], ∃ rest, w.1 = reservedKey kind rest := by
  induction nodes generalizing seq with
  | nil =>
    obtain rfl := mem_singleton.1 h
    exact .inr ⟨_, by simp, _, rfl⟩
  | cons node nodes ih =>
    rcases mem_append.1 h with h | h
    · simp only [nodeWrites, mem_cons, mem_map] at h
      rcases h with rfl | rfl | ⟨source, -, rfl⟩
      · exact .inl (isProvenance_nodeStorageKey branch seq)
      · exact .inr ⟨_, mem_cons_of_mem _ (by simp), _, rfl⟩
      · exact .inl (isProvenance_sourceIndexKey source branch seq)
    · exact ih h

variable {written : Entries}

theorem mem_provenanceWrites (h : w ∈ provenanceWrites E branch head written envelope captured extraParents m) :
    w ∈ nodesWrites E branch (seqIn m branch)
      (derivationNodes E branch head written envelope captured extraParents) := by
  unfold provenanceWrites at h
  split_ifs at h
  · exact h
  · cases h

theorem mem_entryWrites (h : w ∈ entryWrites E captured hints e) : w.1 = indexKey e.1 ∨ w.1 = annBufferKey e.1 := by
  unfold entryWrites at h
  cases hentry : entryOf? captured hints e with
  | none =>
    rw [hentry] at h
    cases h
  | some entry =>
    rw [hentry] at h
    rcases mem_cons.1 h with rfl | h
    · exact .inl rfl
    · obtain ⟨vector, -, rfl⟩ := mem_map.1 h
      exact .inr rfl

theorem mem_claimVersions {subject predicate : String} {v : Key × ClaimVersion} :
    v ∈ claimVersions E subject predicate m ↔ ∃ e ∈ m, (historyPrefix subject predicate).isPrefixOf e.1 = true ∧
      e.1 = v.1 ∧ e.2.blob?.bind E.codec.decodeVersion = some v.2 := by
  rw [claimVersions, mem_filterMap]
  refine exists_congr (fun e => and_congr_right (fun _ => ?_))
  by_cases hpre : (historyPrefix subject predicate).isPrefixOf e.1 = true
  · rw [if_pos hpre, Option.map_eq_some_iff]
    constructor
    · rintro ⟨version, hversion, rfl⟩
      exact ⟨hpre, rfl, hversion⟩
    · rintro ⟨-, hkey, hversion⟩
      exact ⟨v.2, hversion, by rw [hkey]⟩
  · rw [if_neg hpre]
    refine ⟨fun h => ?_, fun h => absurd h.1 hpre⟩
    cases h

theorem mem_versionWrites {claim : Claim} (h : w ∈ versionWrites E m claim) :
    ∃ rest, w.1 = historyPrefix claim.subject claim.predicate ++ rest := by
  rcases mem_append.1 h with h | h
  · obtain ⟨v, hv, rfl⟩ := mem_map.1 h
    obtain ⟨e, -, hpre, hkey, -⟩ := mem_claimVersions.1 (mem_of_mem_filter hv)
    obtain ⟨rest, hrest⟩ := isPrefixOf_iff_prefix.1 hpre
    exact ⟨rest, hkey ▸ hrest.symm⟩
  · obtain rfl := mem_singleton.1 h
    exact ⟨_, rfl⟩

theorem mem_versionsWrites {claims : List Claim} (h : w ∈ versionsWrites E m claims) :
    ∃ claim ∈ claims, ∃ rest, w.1 = historyPrefix claim.subject claim.predicate ++ rest := by
  induction claims generalizing m with
  | nil => cases h
  | cons claim claims ih =>
    rcases mem_append.1 h with h | h
    · exact ⟨claim, by simp, mem_versionWrites h⟩
    · obtain ⟨claim', hmem, hrest⟩ := ih h
      exact ⟨claim', by simp [hmem], hrest⟩

theorem engineKey_historyPrefix (subject predicate : String) (rest : Bytes) :
    EngineKey (historyPrefix subject predicate ++ rest) := by
  rw [historyPrefix, reservedKey, append_assoc, ← reservedKey]
  exact engineKey_reserved (by simp) _

theorem engineKey_of_engineWrites (h : w ∈ engineWrites E branch head written envelope captured extraParents hints m) :
    EngineKey w.1 := by
  simp only [engineWrites, mem_append] at h
  rcases h with (h | h) | h
  · refine (nodeKey_of_nodesWrites (mem_provenanceWrites h)).imp_right ?_
    rintro ⟨kind, hkind, hkey⟩
    exact ⟨kind, mem_append_left _ hkind, hkey⟩
  · obtain ⟨e, -, hw⟩ := mem_flatMap.1 h
    rcases mem_entryWrites hw with hkey | hkey
    · exact hkey ▸ engineKey_reserved (by simp) _
    · exact hkey ▸ engineKey_reserved (by simp) _
  · obtain ⟨claim, -, rest, hkey⟩ := mem_versionsWrites h
    exact hkey ▸ engineKey_historyPrefix _ _ rest

end Engine

/-! Trees that hold what was put. -/

section Holds

variable {t : Tree Key Record} {pages : List PageNo}

/-- The result is a tree that holds these records. -/
def Leaves (r : Except LoomError (Tree Key Record)) (m : Entries) : Prop :=
  ∃ t pages, r = .ok t ∧ TreeHolds t pages m

theorem Leaves.bind {r : Except LoomError (Tree Key Record)} {f : Tree Key Record → Except LoomError (Tree Key Record)}
    {m' : Entries} (h : Leaves r m) (hf : ∀ t pages, TreeHolds t pages m → Leaves (f t) m') :
    Leaves (r >>= f) m' := by
  obtain ⟨t, pages, rfl, ht⟩ := h
  exact hf t pages ht

theorem liftTree_ok {α : Type} {x : Except TreeError α} {a : α} (h : x = .ok a) : liftTree x = .ok a := by
  rw [h]
  rfl

section

variable (h : TreeHolds t pages m)
include h

theorem treeInsert_leaves (key : Key) (record : Record) :
    Leaves (treeInsert E t key record) (putEntry key record m) := by
  obtain ⟨t', pages', hins, ht'⟩ := h.insert (Z := E.sizing) key record
  exact ⟨t', pages', by rw [treeInsert, hins]; rfl, ht'⟩

theorem insertAll_leaves (ws : Entries) : Leaves (insertAll E t ws) (puts m ws) := by
  induction ws generalizing t pages m with
  | nil => exact ⟨t, pages, rfl, h⟩
  | cons w ws ih =>
    rw [insertAll, foldlM_cons]
    exact (treeInsert_leaves h w.1 w.2).bind (fun t pages ht => ih ht)

theorem flushTree_ok {result : RecordPages} (hflush : flushTree E t = .ok result) : result.Holds m := by
  unfold flushTree at hflush
  cases hfind : t.dirty.toList.find? (fun e => E.sizing.nodeLen e.2 > E.pageSize) with
  | none =>
    rw [hfind] at hflush
    cases hflush
    exact ⟨pages, h.flush⟩
  | some e =>
    rw [hfind] at hflush
    cases hflush

theorem nextSeq_eq (branch : BranchId) : nextSeq t branch = .ok (seqIn m branch) := by
  unfold nextSeq
  rw [liftTree_ok (h.get (provSeqKey branch)), ok_bind]
  rfl

theorem putNode_leaves (branch : BranchId) (seq : Nat) (node : DerivationNode) :
    ∃ t' pages', putNode E branch (t, seq) node = .ok (t', seq + 1) ∧
      TreeHolds t' pages' (puts m (nodeWrites E branch seq node)) := by
  obtain ⟨t1, pages1, hnode, h1⟩ := treeInsert_leaves (E := E) h (nodeStorageKey branch seq)
    (.value (.blob (E.codec.encodeNode node)))
  obtain ⟨t2, pages2, hlatest, h2⟩ := treeInsert_leaves (E := E) h1 (latestNodeKey node.key)
    (.value (.blob (digestBytes node.id)))
  obtain ⟨t3, pages3, hsources, h3⟩ := insertAll_leaves (E := E) h2 (node.sources.map (fun source =>
    (sourceIndexKey source branch seq, .value (.blob (digestBytes node.id)))))
  refine ⟨t3, pages3, ?_, h3⟩
  simp only [putNode, hnode, hlatest, hsources, ok_bind]
  rfl

theorem putNodes_leaves (branch : BranchId) (nodes : List DerivationNode) :
    Leaves (putNodes E branch t nodes) (puts m (nodesWrites E branch (seqIn m branch) nodes)) := by
  unfold putNodes
  rw [nextSeq_eq h, ok_bind]
  -- the numbers go up with the nodes, the last is stored after them
  generalize seqIn m branch = seq
  induction nodes generalizing t pages m seq with
  | nil => exact treeInsert_leaves h _ _
  | cons node nodes ih =>
    obtain ⟨t1, pages1, hput, h1⟩ := putNode_leaves (E := E) h branch seq node
    rw [foldlM_cons, hput, ok_bind, nodesWrites, puts_append]
    exact ih h1 (seq + 1)

end

theorem putRecord?_eq (captured : ReadSet) (hints : List (Key × IndexHint)) (t : Tree Key Record) (e : Key × Record) :
    putRecord? E captured hints t e = insertAll E t (entryWrites E captured hints e) := by
  unfold putRecord? entryWrites entryOf?
  cases hints.find? (fun hint => hint.1 = e.1) with
  | none => rfl
  | some hint =>
    obtain ⟨_, hint⟩ := hint
    simp only [Option.bind_eq_bind, Option.bind_some, IndexEntry.new]
    by_cases hcites : (citationsOf e.2).isEmpty = true
    · simp only [if_pos hcites]
      rfl
    · simp only [if_neg hcites, insertAll, foldlM_cons]
      refine congrArg (treeInsert E t _ _ >>= ·) (funext fun t => ?_)
      cases hint.embedding with
      | none => rfl
      | some vector =>
        simp only [Option.toList_some, map_cons, map_nil, foldlM_cons, foldlM_nil]
        exact (bind_pure _).symm

section

variable (h : TreeHolds t pages m)
include h

theorem putEntries_leaves (captured : ReadSet) (hints : List (Key × IndexHint))
    (written : Entries) :
    Leaves (written.foldlM (putRecord? E captured hints) t) (puts m (written.flatMap (entryWrites E captured hints))) := by
  induction written generalizing t pages m with
  | nil => exact ⟨t, pages, rfl, h⟩
  | cons e written ih =>
    rw [foldlM_cons, flatMap_cons, puts_append, putRecord?_eq]
    exact (insertAll_leaves h _).bind (fun t pages ht => ih ht)

theorem appendClaimVersion_leaves (claim : Claim) :
    Leaves (appendClaimVersion E t claim) (puts m (versionWrites E m claim)) := by
  unfold appendClaimVersion
  rw [liftTree_ok h.scan, ok_bind, versionWrites, puts_append]
  exact (insertAll_leaves h _).bind (fun t pages ht => treeInsert_leaves ht _ _)

theorem putVersions_leaves (written : Entries) :
    Leaves (written.foldlM (putVersion E) t) (puts m (versionsWrites E m (claimsIn written))) := by
  induction written generalizing t pages m with
  | nil => exact ⟨t, pages, rfl, h⟩
  | cons e written ih =>
    obtain ⟨key, record⟩ := e
    rw [foldlM_cons]
    cases record with
    | observation o => exact ih h
    | value v => exact ih h
    | claim c =>
      show Leaves _ (puts m (versionWrites E m c ++ versionsWrites E (puts m (versionWrites E m c)) (claimsIn written)))
      rw [puts_append]
      exact (appendClaimVersion_leaves h c).bind (fun t pages ht => ih ht)

theorem putEngine_leaves (branch : BranchId) (head : CommitId) (written : Entries)
    (envelope : WriteEnvelope) (captured : ReadSet) (extraParents : List (Key × List NodeId))
    (hints : List (Key × IndexHint)) :
    Leaves (putEngine E branch head written envelope captured extraParents hints t)
      (puts m (engineWrites E branch head written envelope captured extraParents hints m)) := by
  have hprov : Leaves (putProvenance E branch head written envelope captured extraParents t)
      (puts m (provenanceWrites E branch head written envelope captured extraParents m)) := by
    unfold putProvenance provenanceWrites
    by_cases hany : (written.any (fun e => !isProvenance e.1 && !isReserved e.1)) = true
    · rw [if_pos hany, if_pos hany]
      exact putNodes_leaves h branch _
    · rw [if_neg hany, if_neg hany]
      exact ⟨t, pages, rfl, h⟩
  rw [engineWrites, puts_append, puts_append]
  exact hprov.bind (fun t pages ht => (putEntries_leaves ht captured hints written).bind
    (fun t pages ht => putVersions_leaves ht written))

end

end Holds

namespace LoomDb

variable {db db' : LoomDb} {id fresh : CommitId}

theorem head_ok : db.head branch = .ok id ↔ db.refs.branches[branch]? = some id := by
  unfold head
  cases db.refs.branches[branch]? with
  | none => simp
  | some id' => simp

variable {c : Commit}

theorem fork_ok : db.fork id = .ok c ↔ db.commits[id]? = some c := by
  unfold fork
  cases db.commits[id]? with
  | none => simp
  | some c' => simp

/-! Writes. -/

variable {head : CommitId} {base : Commit} {pages : RecordPages}

/-- A write leaves the caller's records and then the engine's own. -/
theorem buildWrite_puts {records : Entries} {envelope : WriteEnvelope} {captured : ReadSet}
    {extraParents : List (Key × List NodeId)} {hints : List (Key × IndexHint)}
    (h : db.buildWrite E branch records envelope captured extraParents hints = .ok (head, base, pages)) :
    db.refs.branches[branch]? = some head ∧ db.commits[head]? = some base ∧
      ∀ m, base.pages.Holds m → pages.Holds (puts m
        (records ++ engineWrites E branch head records envelope captured extraParents hints (puts m records))) := by
  obtain ⟨head', hhead, h⟩ := bind_ok.1 h
  obtain ⟨base', hbase, h⟩ := bind_ok.1 h
  obtain ⟨t1, ht1, h⟩ := bind_ok.1 h
  obtain ⟨t2, ht2, h⟩ := bind_ok.1 h
  obtain ⟨pages', hflush, heq⟩ := bind_ok.1 h
  cases heq
  refine ⟨head_ok.1 hhead, fork_ok.1 hbase, ?_⟩
  rintro m ⟨ps, hm⟩
  obtain ⟨_, ps1, hins, h1⟩ := insertAll_leaves (E := E) hm records
  cases hins.symm.trans ht1
  obtain ⟨_, ps2, hput, h2⟩ := putEngine_leaves (E := E) h1 branch head records envelope captured extraParents hints
  cases hput.symm.trans ht2
  rw [puts_append]
  exact flushTree_ok h2 hflush

/-- The database before its edits are written: nothing was committed, or a new
    commit built on the head. -/
inductive Published (db : LoomDb) (branch : BranchId) (head : CommitId) (base : Commit) (pages : RecordPages)
    (fresh : CommitId) : CommitId → LoomDb → Prop
  | noop (hsame : pages = base.pages) :
      Published db branch head base pages fresh head
        { db with
          refs := { db.refs with branches := db.refs.branches.insert branch head }
          edits := db.edits ++ [.setHead branch head] }
  | new (hdiffers : pages ≠ base.pages) :
      Published db branch head base pages fresh fresh
        { db with
          commits := db.commits.insert fresh ⟨some head, pages⟩
          refs := { db.refs with
            branches := db.refs.branches.insert branch fresh
            commits := db.refs.commits.insert fresh [head] }
          edits := db.edits ++ [.recordCommit fresh [head]] ++ [.setHead branch fresh] }

theorem publish_published (base : Commit) (pages : RecordPages) (hbranch : branch ∈ db.refs.branches)
    (hfresh : fresh ∉ db.refs.commits) (hne : head ≠ fresh) :
    ∃ commit db', db.publish branch head base pages fresh = (commit, .ok db') ∧
      Published db branch head base pages fresh commit db' := by
  by_cases hsame : pages = base.pages
  · refine ⟨head, _, ?_, .noop hsame⟩
    simp only [publish, commitPages, if_pos hsame, recordCommit, ne_eq, not_true_eq_false, decide_false, filter_cons,
      Bool.false_eq_true, if_false, filter_nil, isEmpty_nil, Bool.true_or, if_true, moveHead, if_pos hbranch,
      pushEdit]
  · refine ⟨fresh, _, ?_, .new hsame⟩
    simp only [publish, commitPages, if_neg hsame, recordCommit, ne_eq, hne, not_false_eq_true, decide_true,
      filter_cons, if_true, filter_nil, isEmpty_cons, hfresh, decide_false, Bool.or_self,
      Bool.false_eq_true, if_false, moveHead, if_pos hbranch, pushEdit]

/-- An id no commit has and nothing is recorded of. -/
def Unused (db : LoomDb) (id : CommitId) : Prop := id ∉ db.commits ∧ id ∉ db.refs.commits

instance (db : LoomDb) (id : CommitId) : Decidable (db.Unused id) := inferInstanceAs (Decidable (_ ∧ _))

/-- A write that fails leaves the database but for the read set it took; one that
    succeeds publishes what it built. -/
theorem writeAll_cases (E : Engine) (token : CapabilityToken) (branch : BranchId) (records : Entries)
    (envelope : WriteEnvelope) (extraParents : List (Key × List NodeId)) (hints : List (Key × IndexHint)) (now : Nat)
    (hunused : db.Unused fresh) :
    (∃ e sets, db.writeAll E token branch records envelope extraParents hints now fresh =
      (.error e, { db with readSets := sets })) ∨
    ∃ head base pages commit db1, db.refs.branches[branch]? = some head ∧ db.commits[head]? = some base ∧
      Published (db.takeReadSet envelope.session).2 branch head base pages fresh commit db1 ∧
      (∀ m, base.pages.Holds m → pages.Holds (puts m (records ++ engineWrites E branch head records envelope
        (db.takeReadSet envelope.session).1 extraParents hints (puts m records)))) ∧
      db.writeAll E token branch records envelope extraParents hints now fresh = (.ok commit, db1.persist) := by
  unfold writeAll
  cases hadm : admitted E token branch envelope now with
  | error e => exact .inl ⟨e, db.readSets, rfl⟩
  | ok u =>
    cases hbuild : (db.takeReadSet envelope.session).2.buildWrite E branch records envelope
        (db.takeReadSet envelope.session).1 extraParents hints with
    | error e =>
      refine .inl ⟨e, (db.takeReadSet envelope.session).2.readSets, ?_⟩
      simp only [hbuild]
      rfl
    | ok built =>
      right
      obtain ⟨head, base, pages⟩ := built
      obtain ⟨hhead, hbase, hpages⟩ := buildWrite_puts hbuild
      have hne : head ≠ fresh := fun heq => hunused.1 (heq ▸ mem_iff.2 ⟨base, hbase⟩)
      obtain ⟨commit, db1, hpub, hpublished⟩ :=
        publish_published base pages (mem_iff.2 ⟨head, hhead⟩) hunused.2 hne
      refine ⟨head, base, pages, commit, db1, hhead, hbase, hpublished, hpages, ?_⟩
      simp only [hbuild, hpub]

/-! What the head of a branch holds. -/

variable {commit : CommitId}

def HeadHolds (db : LoomDb) (branch : BranchId) (m : Entries) : Prop :=
  ∃ head c, db.refs.branches[branch]? = some head ∧ db.commits[head]? = some c ∧ c.pages.Holds m

theorem HeadHolds.sorted (h : db.HeadHolds branch m) : Sorted m := by
  obtain ⟨head, c, -, -, pages, hm⟩ := h
  exact hm.sorted

theorem HeadHolds.headTree (h : db.HeadHolds branch m) :
    ∃ t pages, db.headTree branch = .ok t ∧ TreeHolds t pages m := by
  obtain ⟨head, c, hhead, hc, pages, hm⟩ := h
  refine ⟨_, pages, ?_, hm⟩
  unfold LoomDb.headTree
  rw [head_ok.2 hhead, ok_bind, fork_ok.2 hc]
  rfl

theorem HeadHolds.congr (h : db.HeadHolds branch m) (hrefs : db'.refs.branches[branch]? = db.refs.branches[branch]?)
    (hcommits : db'.commits = db.commits) :
    db'.HeadHolds branch m := by
  obtain ⟨head, c, hhead, hc, hm⟩ := h
  exact ⟨head, c, hrefs.trans hhead, by rw [hcommits]; exact hc, hm⟩

section

variable (h : Published db branch head base pages fresh commit db')
include h

theorem Published.headHolds (hbase : db.commits[head]? = some base) (hm : pages.Holds m) :
    db'.persist.HeadHolds branch m := by
  cases h with
  | noop hsame => exact ⟨head, base, Std.ExtTreeMap.getElem?_insert_self, hbase, hsame ▸ hm⟩
  | new _ => exact ⟨fresh, _, Std.ExtTreeMap.getElem?_insert_self, Std.ExtTreeMap.getElem?_insert_self, hm⟩

end

/-! Reads and branches. -/

theorem captureRead_snd (db : LoomDb) (E : Engine) (session : SessionId) (branch : BranchId) (key : Key) (record : Record) :
    ∃ sets, (db.captureRead E session branch key record).2 = { db with readSets := sets } := by
  unfold captureRead
  by_cases hprov : isProvenance key = true
  · rw [if_pos hprov]
    exact ⟨db.readSets, rfl⟩
  · rw [if_neg hprov]
    cases db.nodeForKey branch key with
    | error e => exact ⟨_, rfl⟩
    | ok node =>
      cases db.indexEntryFor E branch key with
      | error e | ok entry => exact ⟨_, rfl⟩

theorem read_cases (db : LoomDb) (E : Engine) (token : CapabilityToken) (branch : BranchId) (key : Key) (now : Nat) :
    (∃ sets, (db.read E token branch key now).2 = { db with readSets := sets }) ∧
      ∀ found, (db.read E token branch key now).1 = .ok found → ∃ head c, db.refs.branches[branch]? = some head ∧
        db.commits[head]? = some c ∧ (Tree.openAt c.pages).get key = .ok found := by
  unfold read
  cases hfound : (do
      authorize E token branch now
      let t ← db.headTree branch
      liftTree (t.get key) : Except LoomError (Option Record)) with
  | error e => exact ⟨⟨db.readSets, rfl⟩, by simp⟩
  | ok found =>
    obtain ⟨_, -, hrest⟩ := bind_ok.1 hfound
    obtain ⟨t, htree, hget⟩ := bind_ok.1 hrest
    obtain ⟨head, hhead, htree⟩ := bind_ok.1 htree
    obtain ⟨c, hc, htree⟩ := bind_ok.1 htree
    cases htree
    have hval := mapError_ok.1 hget
    cases found with
    | none =>
      refine ⟨⟨db.readSets, rfl⟩, fun found hres => ?_⟩
      cases hres
      exact ⟨head, c, head_ok.1 hhead, fork_ok.1 hc, hval⟩
    | some record =>
      obtain ⟨sets, hsets⟩ := db.captureRead_snd E token.claims.session branch key record
      cases hcap : db.captureRead E token.claims.session branch key record with
      | mk r db' =>
        rw [hcap] at hsets
        cases r with
        | error e =>
          simp only [hcap]
          exact ⟨⟨sets, hsets⟩, by simp⟩
        | ok u =>
          simp only [hcap]
          refine ⟨⟨sets, hsets⟩, fun found hres => ?_⟩
          cases hres
          exact ⟨head, c, head_ok.1 hhead, fork_ok.1 hc, hval⟩

/-- A branch set to a commit, with the edit that says so written. -/
def pointed (db : LoomDb) (branch : BranchId) (id : CommitId) (edit : RefEdit) : LoomDb :=
  { db with
    refs := { db.refs with branches := db.refs.branches.insert branch id }
    durable := db.durable.replay (db.edits ++ [edit])
    edits := [] }

theorem createBranch_ok {name : String} (h : db.createBranch name head = .ok db') :
    name ∉ db.refs.branches ∧ db' = db.pointed name head (.createBranch name head) := by
  unfold createBranch at h
  by_cases hname : name ∈ db.refs.branches
  · rw [if_pos hname] at h
    cases h
  · rw [if_neg hname] at h
    cases h
    exact ⟨hname, rfl⟩

/-! The commit graph. -/

variable {b a : CommitId} {parents : List CommitId}

theorem mem_graphIds {p : CommitId} (h : p ∈ db.parentsOf id) : p ∈ db.graphIds := by
  unfold parentsOf at h
  unfold graphIds
  rw [mem_append]
  cases hrec : db.refs.commits[id]? with
  | some parents =>
    rw [hrec] at h
    exact .inl (mem_flatMap.2 ⟨(id, parents), mem_toList.2 hrec, h⟩)
  | none =>
    rw [hrec] at h
    cases hget : db.commits[id]? with
    | none =>
      rw [hget] at h
      cases h
    | some c =>
      rw [hget] at h
      exact .inr (mem_flatMap.2 ⟨(id, c), mem_toList.2 hget, h⟩)

theorem mem_fullAncestors : b ∈ db.fullAncestors id ↔ Anc db.parentsOf id b := by
  rw [fullAncestors, mem_reach (fun a _ p hp => mem_cons_of_mem id (mem_graphIds hp)) (by simp)]
  simp [Anc]

theorem mem_mergeBases {source target : CommitId} :
    b ∈ db.mergeBases source target ↔ Lowest db.parentsOf source target b := by
  simp only [mergeBases, mem_insertionSort, mem_filter, decide_eq_true_iff, all_eq_true, Bool.or_eq_true,
    Lowest, mem_fullAncestors]
  refine and_congr_right (fun _ => ⟨fun h c hs ht hb => ?_, fun h c hc => ?_⟩)
  · exact (h c ⟨hs, ht⟩).resolve_right (fun hnot => hnot hb)
  · by_cases hb : Anc db.parentsOf c b
    · exact .inl (h c hc.1 hc.2 hb)
    · exact .inr hb

/-- The parents of every commit are there, the heads are, and parents come first. -/
structure GraphOk (db : LoomDb) : Prop where
  known : ∀ id, ∀ p ∈ db.parentsOf id, p ∈ db.commits
  recorded : ∀ id, id ∈ db.refs.commits → id ∈ db.commits
  heads : ∀ (b : BranchId) (id : CommitId), db.refs.branches[b]? = some id → id ∈ db.commits
  ranked : Ranked db.parentsOf

/-- One more commit, with its parents recorded, and heads that name it or what they did. -/
structure Committed (db : LoomDb) (fresh : CommitId) (parents : List CommitId) (c : Commit) (db' : LoomDb) : Prop where
  refs : db'.refs.commits = db.refs.commits.insert fresh parents
  commits : db'.commits = db.commits.insert fresh c
  heads : ∀ (b : BranchId) (id : CommitId), db'.refs.branches[b]? = some id → id = fresh ∨ db.refs.branches[b]? = some id

theorem Committed.parentsOf (hnew : Committed db fresh parents c db') (id : CommitId) :
    db'.parentsOf id = if id = fresh then parents else db.parentsOf id := by
  rw [LoomDb.parentsOf, hnew.refs, hnew.commits, SortedMap.getElem?_insert, SortedMap.getElem?_insert]
  by_cases heq : id = fresh
  · rw [if_pos heq.symm, if_pos heq]
  · rw [if_neg (Ne.symm heq), if_neg (Ne.symm heq), if_neg heq, LoomDb.parentsOf]

section

variable (h : db.GraphOk) (hunused : db.Unused fresh) (hparents : ∀ p ∈ parents, p ∈ db.commits)
  (hnew : Committed db fresh parents c db')
include h hunused hparents hnew

theorem GraphOk.extends : Extends db.parentsOf db'.parentsOf (· ∈ db.commits) fresh where
  fresh := hunused.1
  same x hx := by rw [hnew.parentsOf, if_neg hx]
  closed := h.known
  born p hp := by
    rw [hnew.parentsOf, if_pos rfl] at hp
    exact hparents p hp

theorem GraphOk.made : db'.GraphOk where
  known id p hp := by
    rw [hnew.commits, mem_insert]
    rw [hnew.parentsOf] at hp
    by_cases heq : id = fresh
    · rw [if_pos heq] at hp
      exact .inr (hparents p hp)
    · rw [if_neg heq] at hp
      exact .inr (h.known id p hp)
  recorded id hid := by
    rw [hnew.refs, mem_insert] at hid
    rw [hnew.commits, mem_insert]
    exact hid.imp_right (h.recorded id)
  heads b id hid := by
    rw [hnew.commits, mem_insert]
    exact (hnew.heads b id hid).imp Eq.symm (h.heads b id)
  ranked := (h.extends hunused hparents hnew).ranked h.ranked

end

/-- The same commits under heads that are among them, and perhaps more edges between them. -/
structure Rewired (db db' : LoomDb) : Prop where
  commits : db'.commits = db.commits
  heads : ∀ (b : BranchId) (id : CommitId), db'.refs.branches[b]? = some id → id ∈ db.commits
  recorded : ∀ id, id ∈ db'.refs.commits ↔ id ∈ db.refs.commits
  edges : Denser db.parentsOf db'.parentsOf

theorem rewired_heads (hrefs : db'.refs.commits = db.refs.commits) (hcommits : db'.commits = db.commits)
    (hheads : ∀ (b : BranchId) (id : CommitId), db'.refs.branches[b]? = some id → id ∈ db.commits) : Rewired db db' where
  commits := hcommits
  heads := hheads
  recorded id := by rw [hrefs]
  edges := by
    have hsame : db'.parentsOf = db.parentsOf := by
      funext id
      rw [parentsOf, parentsOf, hrefs, hcommits]
    rw [hsame]
    exact ⟨fun _ _ hp => hp, fun _ _ hp => .inl hp⟩

theorem rewired_edge (hold : db.refs.commits[id]? = some parents) (hanc : Anc db.parentsOf id a) (hne : id ≠ a)
    (hrefs : db'.refs.commits = db.refs.commits.insert id (parents ++ [a])) (hcommits : db'.commits = db.commits)
    (hheads : ∀ (b : BranchId) (id : CommitId), db'.refs.branches[b]? = some id → id ∈ db.commits) : Rewired db db' := by
  have hparents : ∀ x, db'.parentsOf x = if id = x then parents ++ [a] else db.parentsOf x := by
    intro x
    rw [parentsOf, hrefs, SortedMap.getElem?_insert, hcommits]
    by_cases hx : id = x
    · rw [if_pos hx, if_pos hx]
    · rw [if_neg hx, if_neg hx, parentsOf]
  have hsame : db.parentsOf id = parents := by rw [parentsOf, hold]
  refine ⟨hcommits, hheads, fun x => ?_, fun x p hp => ?_, fun x p hp => ?_⟩
  · rw [hrefs, mem_insert]
    refine ⟨?_, .inr⟩
    rintro (rfl | hx)
    · exact mem_iff.2 ⟨parents, hold⟩
    · exact hx
  · rw [hparents]
    by_cases hx : id = x
    · rw [if_pos hx, mem_append]
      rw [← hx, hsame] at hp
      exact .inl hp
    · rw [if_neg hx]
      exact hp
  · rw [hparents] at hp
    by_cases hx : id = x
    · rw [if_pos hx, mem_append, mem_singleton] at hp
      rw [← hx, hsame]
      rcases hp with hp | rfl
      · exact .inl hp
      · exact .inr ⟨hanc, hne⟩
    · rw [if_neg hx] at hp
      exact .inl hp

theorem GraphOk.rewired (h : db.GraphOk) (hsame : Rewired db db') : db'.GraphOk where
  known x p hp := by
    rw [hsame.commits]
    rcases hsame.edges.added x p hp with hp | ⟨hanc, hne⟩
    · exact h.known x p hp
    · obtain heq | ⟨y, -, hp⟩ := Relation.ReflTransGen.cases_tail hanc
      · exact absurd heq.symm hne
      · exact h.known y p hp
  recorded x hx := by
    rw [hsame.commits]
    exact h.recorded x ((hsame.recorded x).1 hx)
  heads := by
    rw [hsame.commits]
    exact hsame.heads
  ranked := hsame.edges.ranked h.ranked

/-! A new database. -/

section Create

variable {tenant : String} {root : CommitId} {pages : RecordPages}

theorem create_commits {c : Commit} (h : (create tenant root pages).commits[id]? = some c) :
    id = root ∧ c = ⟨none, pages⟩ := by
  have h : ((∅ : BTreeMap CommitId Commit).insert root ⟨none, pages⟩)[id]? = some c := h
  rw [SortedMap.getElem?_insert] at h
  by_cases heq : root = id
  · rw [if_pos heq] at h
    exact ⟨heq.symm, (Option.some.inj h).symm⟩
  · rw [if_neg heq, SortedMap.getElem?_empty] at h
    cases h

theorem eq_of_mem_create (h : id ∈ (create tenant root pages).commits) : id = root := by
  obtain ⟨c, hc⟩ := mem_iff.1 h
  exact (create_commits hc).1

theorem not_mem_create_recorded : id ∉ (create tenant root pages).refs.commits := by
  intro hid
  obtain ⟨ps, hps⟩ := mem_iff.1 hid
  have hps : (∅ : BTreeMap CommitId (List CommitId))[id]? = some ps := hps
  rw [getElem?_empty] at hps
  cases hps

theorem create_parentsOf (id : CommitId) : (create tenant root pages).parentsOf id = [] := by
  rw [parentsOf, getElem?_eq_none.2 not_mem_create_recorded]
  cases hc : (create tenant root pages).commits[id]? with
  | none => rfl
  | some c =>
    rw [(create_commits hc).2]
    rfl

theorem create_branches {b : BranchId} (h : (create tenant root pages).refs.branches[b]? = some id) :
    b = mainBranch ∧ id = root := by
  have h : ((∅ : BTreeMap BranchId CommitId).insert mainBranch root)[b]? = some id := h
  rw [SortedMap.getElem?_insert] at h
  by_cases heq : mainBranch = b
  · rw [if_pos heq] at h
    exact ⟨heq.symm, (Option.some.inj h).symm⟩
  · rw [if_neg heq, SortedMap.getElem?_empty] at h
    cases h

theorem create_graphOk : (create tenant root pages).GraphOk where
  known id p hp := by
    rw [create_parentsOf] at hp
    cases hp
  recorded _ hid := absurd hid not_mem_create_recorded
  heads b id hid := by
    rw [(create_branches hid).2]
    exact mem_insert.2 (.inl rfl)
  ranked := ⟨fun _ => 0, fun x p hp => by rw [create_parentsOf] at hp; cases hp⟩

end Create

/-! Merges. -/

section Merge

variable {token : CapabilityToken} {source target : BranchId} {policy : MergePolicy} {envelope : WriteEnvelope}
  {forbids : Key → Record → Option String} {now : Nat}

/-- What a plan was made from. -/
structure Planned (db : LoomDb) (source target : BranchId) (policy : MergePolicy) (plan : MergePlan)
    (targetId baseId : CommitId) (b s t : Commit) (writes : Entries) : Prop where
  sourceHead : db.refs.branches[source]? = some plan.sourceHead
  targetHead : db.refs.branches[target]? = some targetId
  bases : db.mergeBase? plan.sourceHead targetId = .ok baseId
  baseTree : db.commits[baseId]? = some b
  sourceTree : db.commits[plan.sourceHead]? = some s
  targetTree : db.commits[targetId]? = some t
  planned : planMerge b.pages s.pages t.pages policy = .ok (.merged writes plan.automatic)
  written : plan.writes = writes ++ [(mergedFromKey source, .value (.blob (digestBytes plan.sourceHead)))]
  parents : plan.parents = (plan.writes.filter (fun e => isCallerKey e.1)).filterMap (fun e =>
    if (db.mergeParents source target e.1).isEmpty then none else some (e.1, db.mergeParents source target e.1))

/-- The conflicts of the three trees that two heads and their base hold. -/
def Reports (db : LoomDb) (source target : BranchId) (policy : MergePolicy) (report : List MergeConflict) : Prop :=
  ∃ (sourceId targetId baseId : CommitId) (b s t : Commit), db.refs.branches[source]? = some sourceId ∧
    db.refs.branches[target]? = some targetId ∧ db.mergeBase? sourceId targetId = .ok baseId ∧
    db.commits[baseId]? = some b ∧ db.commits[sourceId]? = some s ∧ db.commits[targetId]? = some t ∧
    planMerge b.pages s.pages t.pages policy = .ok (.conflict report)

/-- A merge that ends without a commit: it did not merge, and what it reports are conflicts. -/
def Stopped (db : LoomDb) (source target : BranchId) (policy : MergePolicy) (result : MergeResult) : Prop :=
  (∀ commit records automatic, result ≠ .merged commit records automatic) ∧
    ∀ report, result = .conflict report → Reports db source target policy report

theorem mergeBase?_cases (db : LoomDb) (source target : CommitId) :
    (∃ n, db.mergeBase? source target = .error (.ambiguousHistory n)) ∨
      ∃ baseId, db.mergeBase? source target = .ok baseId ∧
        (db.mergeBases source target = [baseId] ∨ db.mergeBases source target = [] ∧ baseId = source) := by
  unfold mergeBase?
  rcases db.mergeBases source target with _ | ⟨b, _ | ⟨b', rest⟩⟩
  · exact .inr ⟨source, rfl, .inr ⟨rfl, rfl⟩⟩
  · exact .inr ⟨b, rfl, .inl rfl⟩
  · exact .inl ⟨_, rfl⟩

theorem planBranches_cases {r : MergeResult ⊕ MergePlan}
    (h : db.planBranches E token source target policy envelope forbids now = .ok r) :
    (∃ result, r = .inl result ∧ Stopped db source target policy result) ∨
      ∃ plan targetId baseId b s t writes, r = .inr plan ∧
        Planned db source target policy plan targetId baseId b s t writes := by
  obtain ⟨_, -, h⟩ := bind_ok.1 h
  obtain ⟨sourceId, hsource, h⟩ := bind_ok.1 h
  obtain ⟨targetId, htarget, h⟩ := bind_ok.1 h
  rcases mergeBase?_cases db sourceId targetId with ⟨n, hbase⟩ | ⟨baseId, hbase, -⟩
  · rw [hbase] at h
    cases h
    exact .inl ⟨_, rfl, by simp, by simp⟩
  · rw [hbase] at h
    obtain ⟨outcome, hheads, h⟩ := bind_ok.1 h
    obtain ⟨b, hb, hheads⟩ := bind_ok.1 hheads
    obtain ⟨s, hs, hheads⟩ := bind_ok.1 hheads
    obtain ⟨t, ht, hplan⟩ := bind_ok.1 hheads
    obtain rfl := Except.ok.inj h
    cases outcome with
    | conflict found =>
      refine .inl ⟨_, rfl, by simp, fun report hreport => ?_⟩
      cases hreport
      exact ⟨sourceId, targetId, baseId, b, s, t, head_ok.1 hsource, head_ok.1 htarget, hbase, fork_ok.1 hb, fork_ok.1 hs,
        fork_ok.1 ht, mapError_ok.1 hplan⟩
    | merged writes automatic =>
      simp only [planOutcome]
      split
      · exact .inl ⟨_, rfl, by simp, by simp⟩
      · exact .inr ⟨_, targetId, baseId, b, s, t, writes, rfl, head_ok.1 hsource, head_ok.1 htarget, hbase, fork_ok.1 hb,
          fork_ok.1 hs, fork_ok.1 ht, mapError_ok.1 hplan, rfl, rfl⟩

/-- The merge edge changes what is recorded of commits, and nothing else that is
    read. -/
theorem addSecondParent_frame (db : LoomDb) (id before second : CommitId) :
    (db.addSecondParent id before second).commits = db.commits ∧
      (db.addSecondParent id before second).refs.branches = db.refs.branches := by
  have hrecord : ∀ parents, (db.recordCommit id parents).commits = db.commits ∧
      (db.recordCommit id parents).refs.branches = db.refs.branches := by
    intro parents
    unfold recordCommit
    simp only
    split_ifs
    · exact ⟨rfl, rfl⟩
    · exact ⟨rfl, rfl⟩
  obtain ⟨hcommits, hbranches⟩ := hrecord [before, second]
  unfold addSecondParent
  simp only
  cases (db.recordCommit id [before, second]).refs.commits[id]? with
  | none => exact ⟨hcommits, hbranches⟩
  | some parents =>
    by_cases hmem : second ∈ parents
    · simp only [if_pos hmem]
      exact ⟨hcommits, hbranches⟩
    · simp only [if_neg hmem]
      exact ⟨hcommits, hbranches⟩

theorem addSecondParent_recorded (parents : List CommitId) (before second : CommitId)
    (hrec : db.refs.commits[id]? = some parents) :
    db.addSecondParent id before second = if second ∈ parents then db else
      { db with
        refs := { db.refs with commits := db.refs.commits.insert id (parents ++ [second]) }
        edits := db.edits ++ [.addParent id second] } := by
  have hmem : id ∈ db.refs.commits := mem_iff.2 ⟨parents, hrec⟩
  have hsame : db.recordCommit id [before, second] = db := by
    simp [recordCommit, hmem]
  unfold addSecondParent
  simp only [hsame, hrec, pushEdit]

/-- A merge that writes: what was planned, and what the write published. -/
theorem mergeChecked_cases (E : Engine) (token : CapabilityToken) (source target : BranchId) (policy : MergePolicy)
    (envelope : WriteEnvelope) (forbids : Key → Record → Option String) (now : Nat) (hunused : db.Unused fresh) :
    (∃ r, db.mergeChecked E token source target policy envelope forbids now fresh = (r, db) ∧
      ∀ result, r = .ok result → Stopped db source target policy result) ∨
    (∃ e sets, db.mergeChecked E token source target policy envelope forbids now fresh =
      (.error e, { db with readSets := sets })) ∨
    ∃ plan targetId baseId b s t writes pages commit db1,
      Planned db source target policy plan targetId baseId b s t writes ∧
      Published (db.takeReadSet envelope.session).2 target targetId t pages fresh commit db1 ∧
      (∀ m, t.pages.Holds m → pages.Holds (puts m (plan.writes ++ engineWrites E target targetId plan.writes envelope
        (db.takeReadSet envelope.session).1 plan.parents [] (puts m plan.writes)))) ∧
      db.mergeChecked E token source target policy envelope forbids now fresh =
        (.ok (.merged commit plan.records plan.automatic),
          (db1.persist.addSecondParent commit targetId plan.sourceHead).persist) := by
  unfold mergeChecked
  cases hplan : db.planBranches E token source target policy envelope forbids now with
  | error e => exact .inl ⟨.error e, rfl, by simp⟩
  | ok planned =>
    rcases planBranches_cases hplan with ⟨result, rfl, hstop⟩ | ⟨plan, targetId, baseId, b, s, t, writes, rfl, hp⟩
    · refine .inl ⟨.ok result, rfl, fun result' heq => ?_⟩
      cases heq
      exact hstop
    · simp only [writeMerge, head_ok.2 hp.targetHead]
      rcases writeAll_cases E token target plan.writes envelope plan.parents [] now hunused with
        ⟨e, sets, hres⟩ | ⟨head, base, pages, commit, db1, hhead, hbase, hpub, hpages, hres⟩
      · exact .inr (.inl ⟨e, sets, by rw [hres]⟩)
      · obtain rfl := Option.mem_unique hp.targetHead hhead
        obtain rfl := Option.mem_unique hp.targetTree hbase
        refine .inr (.inr ⟨plan, targetId, baseId, b, s, t, writes, pages, commit, db1, hp, hpub, hpages, ?_⟩)
        rw [hres]

end Merge

end LoomDb

end Mutiny.Loom
