import Mutiny.Loom.HistoryRun
import Mutiny.Loom.Run

/- The engine's own keys.

   The records at keys that are no caller's (`enginePart`) are a state of their own:
   what a write of ordinary keys does to them depends on them and on the call, and
   not on what the caller has stored (`enginePart_write`). `Booked` is what the
   bookkeeping alone can have left, with no caller's record in it. The trees of
   every run in which callers keep to ordinary keys, and no merge policy puts a record
   at a provenance key, have engine parts of that kind (`engine_keys_are_booked`).

   Nothing refuses a write to an engine's key: its record is put like any other,
   and the bookkeeping goes on from it (`caller_resets_node_numbers`). -/
namespace Mutiny.Loom
open Mutiny.Lib Mutiny.Substrate LoomDb
open Mutiny.Bridge (SourceRef WriteEnvelope)
open List (filter_cons foldl_cons)
open LoomDb (isCallerKey)
open BeliefWorld (newDb feed)

/-! Parts of a list of records. -/

variable {m ws : Entries}

section Parts

variable {p : Key → Bool}

theorem filter_putEntry (h : Sorted m) (key : Key) (record : Record) :
    (putEntry key record m).filter (fun e => p e.1) =
      if p key then putEntry key record (m.filter (fun e => p e.1)) else m.filter (fun e => p e.1) := by
  induction m with
  | nil =>
    by_cases hp : p key = true
    · simp [putEntry, hp]
    · simp [putEntry, hp]
  | cons e m ih =>
    obtain ⟨hfirst, hrest⟩ := List.pairwise_cons.1 h
    have hlater : e.1 ≥ key → ∀ e' ∈ m.filter (fun e => p e.1), key < e'.1 :=
      fun hge e' he' => hge.trans_lt (hfirst e' (List.mem_of_mem_filter he'))
    have ih := ih hrest
    rw [putEntry]
    by_cases hlt : e.1 < key
    · rw [if_pos hlt]
      by_cases he : p e.1 = true
      · simp only [filter_cons, he, if_true, ih]
        by_cases hp : p key = true
        · rw [if_pos hp, if_pos hp, putEntry, if_pos hlt]
        · rw [if_neg hp, if_neg hp]
      · simp only [filter_cons, he, ih, Bool.false_eq_true, if_false]
    · rw [if_neg hlt]
      by_cases heq : e.1 = key
      · rw [if_pos heq]
        by_cases hp : p key = true
        · simp only [filter_cons, heq, hp, if_true, putEntry, lt_irrefl, if_false]
        · simp only [filter_cons, heq, hp, Bool.false_eq_true, if_false]
      · rw [if_neg heq]
        by_cases hp : p key = true
        · by_cases he : p e.1 = true
          · simp only [filter_cons, hp, he, if_true, putEntry, if_neg hlt, if_neg heq]
          · simp only [filter_cons, hp, he, if_true, Bool.false_eq_true, if_false]
            exact (putEntry_of_gt (hlater (not_lt.1 hlt))).symm
        · simp only [filter_cons, hp, Bool.false_eq_true, if_false]

theorem filter_puts (h : Sorted m) (ws : Entries) :
    (puts m ws).filter (fun e => p e.1) = puts (m.filter (fun e => p e.1)) (ws.filter (fun e => p e.1)) := by
  induction ws generalizing m with
  | nil => rfl
  | cons w ws ih =>
    rw [puts, foldl_cons, ← puts, ih (sorted_putEntry h w.1 w.2), filter_putEntry h]
    by_cases hp : p w.1 = true
    · rw [if_pos hp, filter_cons, if_pos hp]
      rfl
    · rw [if_neg hp, filter_cons, if_neg hp]

theorem findEntry_filter {key : Key} (hp : p key = true) : findEntry key (m.filter (fun e => p e.1)) = findEntry key m := by
  unfold findEntry
  rw [List.find?_filter]
  refine congrArg (Option.map Prod.snd) (List.find?_congr (fun e _ => ?_))
  by_cases heq : e.1 = key
  · simp [heq, hp]
  · simp [heq]

theorem puts_congr {ws' : Entries} (h : Sorted m) (hone : ∀ w ∈ ws, ∀ w' ∈ ws, w.1 = w'.1 → w.2 = w'.2)
    (hmem : ∀ w, w ∈ ws ↔ w ∈ ws') : puts m ws = puts m ws' := by
  have hone' : ∀ w ∈ ws', ∀ w' ∈ ws', w.1 = w'.1 → w.2 = w'.2 :=
    fun w hw w' hw' => hone w ((hmem w).2 hw) w' ((hmem w').2 hw')
  refine List.Pairwise.eq_of_mem_iff (sorted_puts h ws) (sorted_puts h ws') (fun e => ?_)
  rw [mem_puts h hone, mem_puts h hone', hmem]
  exact or_congr_right (and_congr_right fun _ => forall_congr' fun w => by rw [hmem])

end Parts

/-! The engine's part. -/

def enginePart (m : Entries) : Entries := m.filter (fun e => !isCallerKey e.1)

variable {E : Engine}

section EnginePart

variable {m' : Entries}

theorem mem_enginePart {e : Key × Record} : e ∈ enginePart m ↔ e ∈ m ∧ isCallerKey e.1 = false := by
  simp [enginePart]

theorem sorted_enginePart (h : Sorted m) : Sorted (enginePart m) := List.Pairwise.filter _ h

theorem enginePart_enginePart (m : Entries) : enginePart (enginePart m) = enginePart m := by
  simp [enginePart]

theorem enginePart_puts (h : Sorted m) (ws : Entries) : enginePart (puts m ws) = puts (enginePart m) (enginePart ws) :=
  filter_puts (p := fun key => !isCallerKey key) h ws

theorem enginePart_append (ws ws' : Entries) : enginePart (ws ++ ws') = enginePart ws ++ enginePart ws' :=
  List.filter_append _ _

theorem enginePart_of_caller (h : ∀ e ∈ ws, isCallerKey e.1 = true) : enginePart ws = [] :=
  List.filter_eq_nil_iff.2 (fun e he => by simp [h e he])

theorem enginePart_of_engine (h : ∀ e ∈ ws, isCallerKey e.1 = false) : enginePart ws = ws :=
  List.filter_eq_self.2 (fun e he => by simp [h e he])

theorem findEntry_enginePart {key : Key} (h : isCallerKey key = false) : findEntry key (enginePart m) = findEntry key m :=
  findEntry_filter (p := fun key => !isCallerKey key) (by simp [h])

theorem not_caller_reservedKey (kind : String) (rest : Bytes) : isCallerKey (reservedKey kind rest) = false := by
  simp [isCallerKey, isReserved_reservedKey]

theorem seqIn_enginePart (m : Entries) (branch : BranchId) : seqIn (enginePart m) branch = seqIn m branch := by
  rw [seqIn, seqIn, provSeqKey, findEntry_enginePart (not_caller_reservedKey _ _)]

theorem claimVersions_enginePart (subject predicate : String) (m : Entries) :
    claimVersions E subject predicate (enginePart m) = claimVersions E subject predicate m := by
  unfold claimVersions enginePart
  rw [List.filterMap_filter]
  refine List.filterMap_congr (fun e _ => ?_)
  by_cases hcaller : isCallerKey e.1 = true
  · -- a caller's key is in no history
    simp [hcaller, not_historyPrefix_of_caller hcaller]
  · simp [hcaller]

theorem versionWrites_enginePart (claim : Claim) (m : Entries) :
    versionWrites E (enginePart m) claim = versionWrites E m claim := by
  simp only [versionWrites, claimVersions_enginePart]

theorem not_caller_of_versionWrites {claim : Claim} {w : Key × Record} (h : w ∈ versionWrites E m claim) :
    isCallerKey w.1 = false := by
  obtain ⟨rest, hkey⟩ := mem_versionWrites h
  exact hkey ▸ (engineKey_historyPrefix _ _ rest).not_caller

theorem versionsWrites_enginePart (h : Sorted m) (claims : List Claim) :
    versionsWrites E (enginePart m) claims = versionsWrites E m claims := by
  induction claims generalizing m with
  | nil => rfl
  | cons claim claims ih =>
    have hpart : puts (enginePart m) (versionWrites E m claim) = enginePart (puts m (versionWrites E m claim)) := by
      rw [enginePart_puts h, enginePart_of_engine (fun w hw => not_caller_of_versionWrites hw)]
    rw [versionsWrites, versionsWrites, versionWrites_enginePart, hpart, ih (sorted_puts h _)]

/-- The bookkeeping reads the engine's part only. -/
theorem engineWrites_enginePart (h : Sorted m) (branch : BranchId) (head : CommitId) (written : Entries)
    (envelope : WriteEnvelope) (captured : ReadSet) (extraParents : List (Key × List NodeId))
    (hints : List (Key × IndexHint)) :
    engineWrites E branch head written envelope captured extraParents hints (enginePart m) =
      engineWrites E branch head written envelope captured extraParents hints m := by
  have hnodes : provenanceWrites E branch head written envelope captured extraParents (enginePart m) =
      provenanceWrites E branch head written envelope captured extraParents m := by
    rw [provenanceWrites, provenanceWrites, seqIn_enginePart]
  have hengine : enginePart (provenanceWrites E branch head written envelope captured extraParents m ++
      written.flatMap (entryWrites E captured hints)) = provenanceWrites E branch head written envelope captured
        extraParents m ++ written.flatMap (entryWrites E captured hints) := by
    refine enginePart_of_engine (fun w hw => EngineKey.not_caller ?_)
    have hmem : w ∈ engineWrites E branch head written envelope captured extraParents hints m :=
      List.mem_append_left _ hw
    exact engineKey_of_engineWrites hmem
  simp only [engineWrites, hnodes]
  rw [← versionsWrites_enginePart (sorted_puts (sorted_enginePart h) _), enginePart_puts (sorted_enginePart h),
    enginePart_enginePart, hengine, ← versionsWrites_enginePart (sorted_puts h _), enginePart_puts h, hengine]

/-- A write of ordinary keys: the engine's part goes on by itself. -/
theorem enginePart_write (h : Sorted m) {records : Entries} (hkeys : ∀ e ∈ records, isCallerKey e.1 = true)
    (branch : BranchId) (head : CommitId) (envelope : WriteEnvelope) (captured : ReadSet)
    (extraParents : List (Key × List NodeId)) (hints : List (Key × IndexHint)) :
    enginePart (puts m (records ++ engineWrites E branch head records envelope captured extraParents hints (puts m records))) =
      puts (enginePart m)
        (engineWrites E branch head records envelope captured extraParents hints (enginePart m)) := by
  have hrecords : enginePart (puts m records) = enginePart m := by
    rw [enginePart_puts h, enginePart_of_caller hkeys]
    rfl
  rw [enginePart_puts h, enginePart_append, enginePart_of_caller hkeys, List.nil_append,
    enginePart_of_engine (fun w hw => (engineKey_of_engineWrites hw).not_caller),
    ← engineWrites_enginePart (sorted_puts h _), hrecords]

end EnginePart

/-! Bookkeeping alone. -/

def latestIn (m : Entries) (key : Key) : Option NodeId :=
  ((findEntry (latestNodeKey key) m).bind Record.blob?).bind nodeOfBytes

/-- The nodes that merged records are derived from, on either side. -/
def parentsIn (s t records : Entries) : List (Key × List NodeId) :=
  records.filterMap (fun e =>
    let nodes := [s, t].filterMap (fun m => latestIn m e.1)
    if nodes.isEmpty then none else some (e.1, nodes))

/-- The target's memory of what it merged. -/
def mergeMemory (source : BranchId) (head : CommitId) : Key × Record :=
  (mergedFromKey source, .value (.blob (digestBytes head)))

/-- The provenance a merge takes over from the source. -/
def mergedProvenance (b s t : Entries) (policy : MergePolicy) : Entries :=
  s.filter (fun e => isProvenance e.1 && (decisionOf b s t policy e.1).record? = some e.2)

/-- What the engine's own records can be when no caller puts any: each of the
    operations makes them from those of the trees it starts from. -/
inductive Booked (E : Engine) (A : AnnGraph) : Entries → Prop
  | empty : Booked E A []
  | write {p : Entries} (h : Booked E A p) {records : Entries}
      (hkeys : ∀ e ∈ records, isCallerKey e.1 = true) (branch : BranchId) (head : CommitId) (envelope : WriteEnvelope)
      (captured : ReadSet) (hints : List (Key × IndexHint)) :
      Booked E A (puts p (engineWrites E branch head records envelope captured [] hints p))
  | forget {p : Entries} (h : Booked E A p) (keys : List Key) : Booked E A (dropAll p (keys.map indexKey))
  | build {p : Entries} (h : Booked E A p) {nodes : List (GraphKey × Bytes)}
      (hnodes : graphOf E A p = .ok nodes) : Booked E A (withGraph p nodes)
  | insert {p : Entries} (h : Booked E A p) {key : Key} {vector : Embedding}
      {nodes : List (GraphKey × Bytes)} (hnodes : A.insert (graphIn p) key vector = .ok nodes) :
      Booked E A (puts p (graphWrites nodes))
  | merge {b s t : Entries} (hb : Booked E A b) (hs : Booked E A s) (ht : Booked E A t)
      {records : Entries} (hkeys : ∀ e ∈ records, isCallerKey e.1 = true) (source target : BranchId)
      (sourceHead targetHead : CommitId) (policy : MergePolicy) (envelope : WriteEnvelope) (captured : ReadSet) :
      Booked E A (puts t (mergedProvenance b s t policy ++ [mergeMemory source sourceHead] ++
        engineWrites E target targetHead (records ++ [mergeMemory source sourceHead]) envelope captured
          (parentsIn s t records) [] (puts t (mergedProvenance b s t policy ++ [mergeMemory source sourceHead]))))

/-- A blob, or at a reserved key a counter. -/
def BookKept (e : Key × Record) : Prop :=
  (∃ bytes, e.2 = .value (.blob bytes)) ∨ isProvenance e.1 = false ∧ ∃ n, e.2 = .value (.counter n)

/-- Records at the engine's keys, in order, and of the engine's kinds. -/
structure Bookish (p : Entries) : Prop where
  sorted : Sorted p
  engine : ∀ e ∈ p, isCallerKey e.1 = false
  kept : ∀ e ∈ p, BookKept e

variable {A : AnnGraph} {e : Key × Record}

section Shape

variable {p : Entries}

theorem mem_of_mem_puts (h : e ∈ puts m ws) : e ∈ ws ∨ e ∈ m := by
  induction ws generalizing m with
  | nil => exact .inr h
  | cons w ws ih =>
    rcases ih h with h | h
    · exact .inl (List.mem_cons_of_mem w h)
    · rcases mem_putEntry h with rfl | h
      · exact .inl List.mem_cons_self
      · exact .inr h

theorem mem_dropAll {keys : List Key} : e ∈ dropAll m keys ↔ e ∈ m ∧ e.1 ∉ keys := by
  induction keys generalizing m with
  | nil => simp [dropAll]
  | cons key keys ih =>
    rw [dropAll, foldl_cons, ← dropAll, ih]
    simp only [dropEntry, List.mem_filter, decide_not, Bool.not_eq_true', decide_eq_false_iff_not, List.mem_cons, not_or,
      and_assoc]

theorem sorted_dropAll (h : Sorted m) (keys : List Key) : Sorted (dropAll m keys) := by
  induction keys generalizing m with
  | nil => exact h
  | cons key keys ih => exact ih (List.Pairwise.filter _ h)

theorem bookish_nil : Bookish [] := ⟨List.Pairwise.nil, by simp, by simp⟩

theorem Bookish.put (h : Bookish p) (hengine : ∀ w ∈ ws, isCallerKey w.1 = false) (hkept : ∀ w ∈ ws, BookKept w) :
    Bookish (puts p ws) where
  sorted := sorted_puts h.sorted ws
  engine e he := (mem_of_mem_puts he).elim (hengine e) (h.engine e)
  kept e he := (mem_of_mem_puts he).elim (hkept e) (h.kept e)

theorem Bookish.drop (h : Bookish p) (keys : List Key) : Bookish (dropAll p keys) where
  sorted := sorted_dropAll h.sorted keys
  engine e he := h.engine e (mem_dropAll.1 he).1
  kept e he := h.kept e (mem_dropAll.1 he).1

variable {w : Key × Record} {branch : BranchId}

theorem bookKept_nodesWrites {seq : Nat} {nodes : List DerivationNode} (h : w ∈ nodesWrites E branch seq nodes) :
    BookKept w := by
  induction nodes generalizing seq with
  | nil =>
    obtain rfl := List.mem_singleton.1 h
    exact .inr ⟨not_isProvenance_reservedKey _ _, _, rfl⟩
  | cons node nodes ih =>
    rcases List.mem_append.1 h with h | h
    · simp only [nodeWrites, List.mem_cons, List.mem_map] at h
      rcases h with rfl | rfl | ⟨source, -, rfl⟩
      · exact .inl ⟨_, rfl⟩
      · exact .inl ⟨_, rfl⟩
      · exact .inl ⟨_, rfl⟩
    · exact ih h

variable {captured : ReadSet} {hints : List (Key × IndexHint)}

theorem bookKept_entryWrites (h : w ∈ entryWrites E captured hints e) : BookKept w := by
  unfold entryWrites at h
  cases hentry : entryOf? captured hints e with
  | none =>
    rw [hentry] at h
    cases h
  | some entry =>
    rw [hentry] at h
    rcases List.mem_cons.1 h with rfl | h
    · exact .inl ⟨_, rfl⟩
    · obtain ⟨vector, -, rfl⟩ := List.mem_map.1 h
      exact .inl ⟨_, rfl⟩

theorem bookKept_versionsWrites {claims : List Claim} (h : w ∈ versionsWrites E m claims) : BookKept w := by
  induction claims generalizing m with
  | nil => cases h
  | cons claim claims ih =>
    rcases List.mem_append.1 h with h | h
    · rcases List.mem_append.1 h with h | h
      · obtain ⟨v, -, rfl⟩ := List.mem_map.1 h
        exact .inl ⟨_, rfl⟩
      · obtain rfl := List.mem_singleton.1 h
        exact .inl ⟨_, rfl⟩
    · exact ih h

theorem bookKept_engineWrites {head : CommitId} {written : Entries} {envelope : WriteEnvelope}
    {extraParents : List (Key × List NodeId)}
    (h : w ∈ engineWrites E branch head written envelope captured extraParents hints m) : BookKept w := by
  simp only [engineWrites, List.mem_append] at h
  rcases h with (h | h) | h
  · exact bookKept_nodesWrites (mem_provenanceWrites h)
  · obtain ⟨e, -, hw⟩ := List.mem_flatMap.1 h
    exact bookKept_entryWrites hw
  · exact bookKept_versionsWrites h

theorem not_caller_graphKey (k : GraphKey) : isCallerKey k.key = false := by
  cases k with
  | node id | graph => exact not_caller_reservedKey _ _

theorem Bookish.graph (h : Bookish p) (nodes : List (GraphKey × Bytes)) : Bookish (puts p (graphWrites nodes)) := by
  refine h.put (fun w hw => ?_) (fun w hw => ?_)
  · obtain ⟨n, -, rfl⟩ := List.mem_map.1 hw
    exact not_caller_graphKey n.1
  · obtain ⟨n, -, rfl⟩ := List.mem_map.1 hw
    exact .inl ⟨n.2, rfl⟩

theorem Bookish.write (h : Bookish p) (branch : BranchId) (head : CommitId) (written : Entries)
    (envelope : WriteEnvelope) (captured : ReadSet) (extraParents : List (Key × List NodeId))
    (hints : List (Key × IndexHint)) (m : Entries) :
    Bookish (puts p (engineWrites E branch head written envelope captured extraParents hints m)) :=
  h.put (fun _ hw => (engineKey_of_engineWrites hw).not_caller) (fun _ hw => bookKept_engineWrites hw)

theorem Bookish.merge {b s : Entries} (h : Bookish p) (hs : Bookish s) (policy : MergePolicy)
    (source : BranchId) (sourceHead : CommitId) :
    Bookish (puts p (mergedProvenance b s p policy ++ [mergeMemory source sourceHead])) := by
  refine h.put (fun w hw => ?_) (fun w hw => ?_)
  · rcases List.mem_append.1 hw with hw | hw
    · exact hs.engine w (List.mem_of_mem_filter hw)
    · obtain rfl := List.mem_singleton.1 hw
      exact not_caller_reservedKey _ _
  · rcases List.mem_append.1 hw with hw | hw
    · exact hs.kept w (List.mem_of_mem_filter hw)
    · obtain rfl := List.mem_singleton.1 hw
      exact .inl ⟨_, rfl⟩

theorem Booked.bookish (h : Booked E A p) : Bookish p := by
  induction h with
  | empty => exact bookish_nil
  | write h hkeys branch head envelope captured hints ih => exact ih.write _ _ _ _ _ _ _ _
  | forget h keys ih => exact ih.drop _
  | build h hnodes ih => exact (ih.graph _).drop _
  | insert h hnodes ih => exact ih.graph _
  | merge hb hs ht hkeys source target sourceHead targetHead policy envelope captured ihb ihs iht =>
    rw [puts_append]
    exact (iht.merge ihs _ _ _).write _ _ _ _ _ _ _ _

end Shape

/-! What each operation does to the engine's part. -/

section Steps

variable {branch : BranchId} {records : Entries} {source : SourceRef} {db : LoomDb}

theorem caller_of_claim (hm : Sorted m) (h : Bookish (enginePart m)) {key : Key} {claim : Claim}
    (hfind : findEntry key m = some (.claim claim)) : isCallerKey key = true := by
  by_contra hcaller
  have hmem : (key, Record.claim claim) ∈ enginePart m :=
    mem_enginePart.2 ⟨(findEntry_eq_some hm).1 hfind, by simpa using hcaller⟩
  rcases h.kept _ hmem with ⟨bytes, hbytes⟩ | ⟨-, n, hn⟩
  · cases hbytes
  · cases hn

theorem mem_staleWrites (hm : db.HeadHolds branch m) (h : db.staleWrites E branch source = .ok records)
    (he : e ∈ records) : ∃ claim, findEntry e.1 m = some (.claim claim) := by
  obtain ⟨⟨nodes, contaminated⟩, -, h⟩ := bind_ok.1 h
  obtain ⟨t, htree, h⟩ := bind_ok.1 h
  obtain ⟨writes, hwrites, heq⟩ := bind_ok.1 h
  cases heq
  obtain ⟨t', pages, htree', ht⟩ := hm.headTree
  obtain rfl := ok_unique htree' htree
  obtain ⟨id, -, hwrite⟩ := mem_of_mapM hwrites (List.reduceOption_mem_iff.1 he)
  unfold staleWrite? at hwrite
  cases hkey : recordKey? nodes id with
  | none =>
    rw [hkey] at hwrite
    cases hwrite
  | some key =>
    simp only [hkey, liftTree_ok (ht.get key), ok_bind] at hwrite
    obtain ⟨record, hstale, rfl⟩ := Option.map_eq_some_iff.1 (Except.ok.inj hwrite)
    cases hfind : findEntry key m with
    | none =>
      rw [hfind] at hstale
      cases hstale
    | some stored =>
      rw [hfind] at hstale
      cases stored with
      | claim claim => exact ⟨claim, rfl⟩
      | observation o | value v => cases hstale

theorem caller_of_staleWrites (hm : db.HeadHolds branch m) (hbook : Bookish (enginePart m))
    (h : db.staleWrites E branch source = .ok records) : ∀ e ∈ records, isCallerKey e.1 = true := by
  intro e he
  obtain ⟨claim, hfind⟩ := mem_staleWrites hm h he
  exact caller_of_claim hm.sorted hbook hfind

theorem enginePart_forgetEntry (hm : Sorted m) (h : Bookish (enginePart m)) (key : Key) :
    enginePart (forgetEntry m key) = dropEntry (indexKey key) (enginePart m) := by
  have hdrop : enginePart (dropEntry (indexKey key) m) = dropEntry (indexKey key) (enginePart m) := by
    rw [enginePart, dropEntry, List.filter_comm]
    rfl
  have hsorted : Sorted (dropEntry (indexKey key) m) := List.Pairwise.filter _ hm
  unfold forgetEntry
  cases hwithdrawn : withdrawn? (findEntry key (dropEntry (indexKey key) m)) with
  | none => simp only [hwithdrawn, hdrop]
  | some record =>
    have hclaim : ∃ claim, findEntry key (dropEntry (indexKey key) m) = some (.claim claim) := by
      cases hfind : findEntry key (dropEntry (indexKey key) m) with
      | none =>
        rw [hfind] at hwithdrawn
        cases hwithdrawn
      | some stored =>
        rw [hfind] at hwithdrawn
        cases stored with
        | claim claim => exact ⟨claim, rfl⟩
        | observation o | value v => cases hwithdrawn
    obtain ⟨claim, hfind⟩ := hclaim
    have hcaller : isCallerKey key = true := caller_of_claim hsorted (hdrop ▸ h.drop [indexKey key]) hfind
    simp only [hwithdrawn]
    rw [enginePart, filter_putEntry (p := fun key => !isCallerKey key) hsorted, hcaller, if_neg (by simp)]
    exact hdrop

theorem sorted_forgetEntry (hm : Sorted m) (key : Key) : Sorted (forgetEntry m key) := by
  have hsorted : Sorted (dropEntry (indexKey key) m) := List.Pairwise.filter _ hm
  unfold forgetEntry
  cases hwithdrawn : withdrawn? (findEntry key (dropEntry (indexKey key) m)) with
  | none => simpa only [hwithdrawn] using hsorted
  | some record =>
    simp only [hwithdrawn]
    exact sorted_putEntry hsorted key record

theorem enginePart_forget (hm : Sorted m) (h : Bookish (enginePart m)) (keys : List Key) :
    enginePart (keys.foldl forgetEntry m) = dropAll (enginePart m) (keys.map indexKey) := by
  induction keys generalizing m with
  | nil => rfl
  | cons key keys ih =>
    have hone : enginePart (forgetEntry m key) = dropAll (enginePart m) [indexKey key] := enginePart_forgetEntry hm h key
    rw [foldl_cons, ih (sorted_forgetEntry hm key) (hone ▸ h.drop _), hone]
    rfl

theorem filter_dropAll (p : Key → Bool) (keys : List Key) :
    (dropAll m keys).filter (fun e => p e.1) = dropAll (m.filter (fun e => p e.1)) keys := by
  induction keys generalizing m with
  | nil => rfl
  | cons key keys ih =>
    rw [dropAll, foldl_cons, ← dropAll, ih, dropEntry, List.filter_comm]
    rfl

theorem enginePart_graph (hm : Sorted m) (nodes : List (GraphKey × Bytes)) :
    enginePart (puts m (graphWrites nodes)) = puts (enginePart m) (graphWrites nodes) := by
  have hgraph : ∀ w ∈ graphWrites nodes, isCallerKey w.1 = false := by
    intro w hw
    obtain ⟨n, -, rfl⟩ := List.mem_map.1 hw
    exact not_caller_graphKey n.1
  rw [enginePart_puts hm, enginePart_of_engine hgraph]

theorem filter_annBuffer (m : Entries) : (enginePart m).filter (fun e => annBufferPrefix.isPrefixOf e.1) =
    m.filter (fun e => annBufferPrefix.isPrefixOf e.1) := by
  rw [enginePart, List.filter_filter]
  refine List.filter_congr (fun e _ => ?_)
  by_cases hpre : annBufferPrefix.isPrefixOf e.1 = true
  · have hcaller : isCallerKey e.1 = false := by
      obtain ⟨rest, hrest⟩ := List.isPrefixOf_iff_prefix.1 hpre
      rw [← hrest, annBufferPrefix, reservedKey, List.append_nil, ← reservedKey]
      exact not_caller_reservedKey _ rest
    simp [hpre, hcaller]
  · simp [hpre]

theorem enginePart_withGraph (hm : Sorted m) (nodes : List (GraphKey × Bytes)) :
    enginePart (withGraph m nodes) = withGraph (enginePart m) nodes := by
  simp only [withGraph]
  rw [← enginePart_graph hm, filter_annBuffer]
  exact filter_dropAll (fun key => !isCallerKey key) _

theorem indexedVector?_of_caller (h : isCallerKey e.1 = true) : indexedVector? E e = .ok none := by
  unfold indexedVector?
  rw [if_neg]
  intro hpre
  obtain ⟨rest, hrest⟩ := List.isPrefixOf_iff_prefix.1 hpre
  rw [← hrest, indexPrefix, reservedKey, List.append_nil, ← reservedKey, not_caller_reservedKey] at h
  cases h

theorem mapM_filter {α β ε : Type} {f : α → Except ε (Option β)} {p : α → Bool} {l : List α}
    (h : ∀ a ∈ l, p a = false → f a = .ok none) :
    ((l.filter p).mapM f).map List.reduceOption = (l.mapM f).map List.reduceOption := by
  induction l with
  | nil => rfl
  | cons a l ih =>
    obtain ⟨ha, hl⟩ := List.forall_mem_cons.1 h
    have ih := ih hl
    rw [List.mapM_cons]
    cases hp : p a with
    | false =>
      rw [filter_cons, hp, ha hp, ok_bind, if_neg (by simp), ih]
      cases l.mapM f with
      | error e => rfl
      | ok found => rfl
    | true =>
      rw [filter_cons, hp, if_pos rfl, List.mapM_cons]
      cases f a with
      | error e => rfl
      | ok b =>
        simp only [ok_bind]
        cases hfilter : (l.filter p).mapM f with
        | error e =>
          rw [hfilter] at ih
          cases hfound : l.mapM f with
          | error e' =>
            rw [hfound] at ih
            exact ih
          | ok found =>
            rw [hfound] at ih
            cases ih
        | ok found' =>
          rw [hfilter] at ih
          cases hfound : l.mapM f with
          | error e' =>
            rw [hfound] at ih
            cases ih
          | ok found =>
            rw [hfound] at ih
            have hsame : found'.reduceOption = found.reduceOption := Except.ok.inj ih
            cases b with
            | none => exact congrArg Except.ok hsame
            | some b => exact congrArg (fun bs => Except.ok (b :: bs)) hsame

theorem graphOf_enginePart (m : Entries) : graphOf E A (enginePart m) = graphOf E A m := by
  have hmap := mapM_filter (f := indexedVector? E) (p := fun e => !isCallerKey e.1) (l := m)
    (fun e _ he => indexedVector?_of_caller (by simpa using he))
  have hshape : ∀ found : Except LoomError (List (Option (Key × Embedding))),
      (found >>= fun found => pure (A.build found.reduceOption)) = (found.map List.reduceOption).map A.build := by
    rintro (e | found)
    · rfl
    · rfl
  rw [graphOf, graphOf, hshape, hshape, enginePart, hmap]

theorem graphIn_enginePart (m : Entries) : graphIn (enginePart m) = graphIn m := by
  funext k
  rw [graphIn, graphIn, findEntry_enginePart (not_caller_graphKey k)]

theorem latestIn_enginePart (m : Entries) (key : Key) : latestIn (enginePart m) key = latestIn m key := by
  rw [latestIn, latestIn, latestNodeKey, findEntry_enginePart (not_caller_reservedKey _ _)]

theorem parentsIn_enginePart (s t records : Entries) :
    parentsIn (enginePart s) (enginePart t) records = parentsIn s t records := by
  have hnodes : ∀ key, [enginePart s, enginePart t].filterMap (fun m => latestIn m key) =
      [s, t].filterMap (fun m => latestIn m key) := by
    intro key
    show ([s, t].map enginePart).filterMap (fun m => latestIn m key) = _
    rw [List.filterMap_map]
    exact List.filterMap_congr (fun m _ => latestIn_enginePart m key)
  simp only [parentsIn, hnodes]

end Steps

/-! Merges. -/

section Merges

variable {policy : MergePolicy} {writes : Entries} {key : Key} {automatic : Nat}

/-- A policy that puts no record of its own at a provenance key. -/
def LeavesProvenance (policy : MergePolicy) : Prop :=
  ∀ conflict : MergeConflict, isProvenance conflict.key = true → ∀ record, policy.resolve conflict ≠ .replace record

/-- No rule merges a blob: what is decided is the source's. -/
theorem source_of_decision {base source target : Option Record} {record : Record} (hpolicy : LeavesProvenance policy)
    (hkey : isProvenance key = true) (hblob : ∀ r, source = some r → ∃ bytes, r = .value (.blob bytes))
    (h : (decideMerge key base source target policy).record? = some record) : source = some record := by
  unfold decideMerge at h
  by_cases hst : recordEq source target = true
  · rw [if_pos hst] at h
    cases h
  rw [if_neg hst] at h
  by_cases hsb : recordEq source base = true
  · rw [if_pos hsb] at h
    cases h
  rw [if_neg hsb] at h
  by_cases htb : recordEq target base = true
  · rw [if_pos htb] at h
    cases source with
    | none => cases h
    | some r => exact h
  rw [if_neg htb] at h
  have hnone : mergeBoth base source target = none := by
    cases source with
    | none => rfl
    | some r =>
      obtain ⟨bytes, rfl⟩ := hblob r rfl
      cases target with
      | none => rfl
      | some r' => rfl
  simp only [hnone, decideConflict] at h
  cases hres : policy.resolve ⟨key, reasonFor source target, ⟨base, source, target⟩⟩ with
  | source =>
    simp only [hres] at h
    cases source with
    | none => cases h
    | some r => exact h
  | target | unresolved =>
    simp only [hres] at h
    cases h
  | replace r => exact absurd hres (hpolicy _ hkey r)

theorem not_record_of_same {b s t : Entries} {bytes : Bytes}
    (hs : findEntry key s = some (.value (.blob bytes))) (hsame : findEntry key s = findEntry key b) :
    (decisionOf b s t policy key).record? = none := by
  have heq : recordEq (findEntry key s) (findEntry key b) = true := by
    rw [← hsame, hs, recordEq_self]
    rfl
  unfold decisionOf decideMerge
  by_cases hst : recordEq (findEntry key s) (findEntry key t) = true
  · rw [if_pos hst]
    rfl
  · rw [if_neg hst, if_pos heq]
    rfl

variable {base source target : RecordPages} {b s t : Entries}

theorem mem_mergedProvenance {e : Key × Record} : e ∈ mergedProvenance b s t policy ↔
    e ∈ s ∧ isProvenance e.1 = true ∧ (decisionOf b s t policy e.1).record? = some e.2 := by
  simp [mergedProvenance]

theorem not_reserved_of_provenance (h : isProvenance key = true) : isReserved key = false := by
  rw [Bool.eq_false_iff]
  intro hreserved
  obtain ⟨rest, rfl⟩ := List.isPrefixOf_iff_prefix.1 hreserved
  simp [isProvenance, reservedPrefix, provPrefix, srcPrefix, List.isPrefixOf] at h

theorem decisionOf_enginePart (policy : MergePolicy) (hkey : isCallerKey key = false) :
    decisionOf (enginePart b) (enginePart s) (enginePart t) policy key = decisionOf b s t policy key := by
  rw [decisionOf, decisionOf, findEntry_enginePart hkey, findEntry_enginePart hkey, findEntry_enginePart hkey]

/-- What a merge decides at the provenance keys is the source's. -/
def TakesSource (b s t : Entries) (policy : MergePolicy) : Prop :=
  ∀ key record, isProvenance key = true → (decisionOf b s t policy key).record? = some record →
    findEntry key s = some record

theorem Bookish.blob (hs : Sorted s) (h : Bookish (enginePart s)) (hkey : isProvenance key = true) {r : Record}
    (hfind : findEntry key s = some r) : ∃ bytes, r = .value (.blob bytes) := by
  have hmem : (key, r) ∈ enginePart s :=
    mem_enginePart.2 ⟨(findEntry_eq_some hs).1 hfind, by simp [isCallerKey, hkey]⟩
  exact (h.kept _ hmem).resolve_right (fun hnot => by simp [hkey] at hnot)

theorem LeavesProvenance.takesSource (hpolicy : LeavesProvenance policy) (hs : Sorted s) (h : Bookish (enginePart s)) :
    TakesSource b s t policy :=
  fun _ _ hkey hdecided => source_of_decision hpolicy hkey (fun _ hfind => h.blob hs hkey hfind) hdecided

theorem mem_enginePart_writes (hb : base.Holds b) (hs : source.Holds s) (ht : target.Holds t)
    (htakes : TakesSource b s t policy) (hkept : Bookish (enginePart s))
    (h : planMerge base source target policy = .ok (.merged writes automatic)) (e : Key × Record) :
    e ∈ enginePart writes ↔ e ∈ mergedProvenance (enginePart b) (enginePart s) (enginePart t) policy := by
  rw [mem_enginePart, mem_mergedProvenance, mem_enginePart, mem_writes_planMerge hb hs ht h]
  constructor
  · rintro ⟨⟨hcand, hdecided⟩, hcaller⟩
    have hreserved : isReserved e.1 = false := (mem_callerKeys.1 hcand).2
    have hprov : isProvenance e.1 = true := by simpa [isCallerKey, hreserved] using hcaller
    have hfind : findEntry e.1 s = some e.2 := htakes e.1 e.2 hprov hdecided
    exact ⟨⟨(findEntry_eq_some hs.sorted).1 hfind, hcaller⟩, hprov,
      (congrArg Decision.record? (decisionOf_enginePart policy hcaller)).trans hdecided⟩
  · rintro ⟨⟨hmem, hcaller⟩, hprov, hdecided⟩
    have hdecided : (decisionOf b s t policy e.1).record? = some e.2 :=
      (congrArg Decision.record? (decisionOf_enginePart policy hcaller)).symm.trans hdecided
    have hfind : findEntry e.1 s = some e.2 := (findEntry_eq_some hs.sorted).2 hmem
    have hreserved : isReserved e.1 = false := not_reserved_of_provenance hprov
    refine ⟨⟨?_, hdecided⟩, hcaller⟩
    by_contra hcand
    -- a key no page shows is the same on both sides, and nothing is decided for it
    obtain ⟨hsame, -⟩ := same_of_not_candidate hb hs ht hreserved hcand
    obtain ⟨bytes, hbytes⟩ := hkept.blob hs.sorted hprov hfind
    rw [not_record_of_same (hbytes ▸ hfind) hsame] at hdecided
    cases hdecided

theorem engineWrites_of_provenance {branch : BranchId} {head : CommitId} {written : Entries}
    {envelope : WriteEnvelope} {captured : ReadSet} {extraParents : List (Key × List NodeId)} {m : Entries}
    (hblob : ∀ e ∈ written, isProvenance e.1 = true → ∃ bytes, e.2 = .value (.blob bytes)) :
    engineWrites E branch head written envelope captured extraParents [] m =
      engineWrites E branch head (written.filter (fun e => !isProvenance e.1)) envelope captured extraParents [] m := by
  have hentries : ∀ records : Entries, records.flatMap (entryWrites E captured []) = [] :=
    fun records => List.flatMap_eq_nil_iff.2 (fun e _ => rfl)
  have hnodes : provenanceWrites E branch head written envelope captured extraParents m =
      provenanceWrites E branch head (written.filter (fun e => !isProvenance e.1)) envelope captured extraParents m := by
    have hany : (written.filter (fun e => !isProvenance e.1)).any (fun e => !isProvenance e.1 && !isReserved e.1) =
        written.any (fun e => !isProvenance e.1 && !isReserved e.1) := by
      rw [List.any_filter]
      simp only [← Bool.and_assoc, Bool.and_self]
    simp only [provenanceWrites, hany, derivationNodes, List.filter_filter, Bool.and_self]
  have hclaims : claimsIn (written.filter (fun e => !isProvenance e.1)) = claimsIn written := by
    unfold claimsIn
    rw [List.filterMap_filter]
    refine List.filterMap_congr (fun e he => ?_)
    by_cases hprov : isProvenance e.1 = true
    · obtain ⟨bytes, hbytes⟩ := hblob e he hprov
      simp [hprov, hbytes]
    · simp [hprov]
  simp only [engineWrites, hentries, ← hnodes, hclaims]

/-- What a merge puts into the engine's part of its target before its own nodes. -/
abbrev takenOver (b s t : Entries) (policy : MergePolicy) (origin : BranchId) (sourceHead : CommitId) : Entries :=
  mergedProvenance (enginePart b) (enginePart s) (enginePart t) policy ++ [mergeMemory origin sourceHead]

/-- A merge: the engine's part comes from the engine's parts of the three trees, the
    caller's records and the call. -/
theorem enginePart_merge (hb : base.Holds b) (hs : source.Holds s) (ht : target.Holds t)
    (htakes : TakesSource b s t policy) (hkept : Bookish (enginePart s))
    (h : planMerge base source target policy = .ok (.merged writes automatic)) (origin into : BranchId)
    (sourceHead targetHead : CommitId) (envelope : WriteEnvelope) (captured : ReadSet)
    (parents : List (Key × List NodeId)) : enginePart (puts t (writes ++ [mergeMemory origin sourceHead] ++
      engineWrites E into targetHead (writes ++ [mergeMemory origin sourceHead]) envelope captured parents []
        (puts t (writes ++ [mergeMemory origin sourceHead])))) =
    puts (enginePart t) (takenOver b s t policy origin sourceHead ++
      engineWrites E into targetHead (writes.filter (fun e => isCallerKey e.1) ++ [mergeMemory origin sourceHead]) envelope
        captured parents [] (puts (enginePart t) (takenOver b s t policy origin sourceHead))) := by
  have hmem := mem_enginePart_writes hb hs ht htakes hkept h
  have hone : ∀ w ∈ enginePart writes, ∀ w' ∈ enginePart writes, w.1 = w'.1 → w.2 = w'.2 := by
    intro w hw w' hw' hkey
    have hw := ((mem_writes_planMerge hb hs ht h).1 (mem_enginePart.1 hw).1).2
    have hw' := ((mem_writes_planMerge hb hs ht h).1 (mem_enginePart.1 hw').1).2
    exact Option.mem_unique hw (hkey ▸ hw')
  have hmemory : enginePart (writes ++ [mergeMemory origin sourceHead]) =
      enginePart writes ++ [mergeMemory origin sourceHead] := by
    have hengine : enginePart [mergeMemory origin sourceHead] = [mergeMemory origin sourceHead] := by
      refine enginePart_of_engine (fun e he => ?_)
      obtain rfl := List.mem_singleton.1 he
      exact not_caller_reservedKey _ _
    rw [enginePart_append, hengine]
  have hput : puts (enginePart t) (enginePart (writes ++ [mergeMemory origin sourceHead])) =
      puts (enginePart t) (takenOver b s t policy origin sourceHead) := by
    rw [hmemory, puts_append, puts_append, puts_congr (sorted_enginePart ht.sorted) hone hmem]
  have hfilter : (writes ++ [mergeMemory origin sourceHead]).filter (fun e => !isProvenance e.1) =
      writes.filter (fun e => isCallerKey e.1) ++ [mergeMemory origin sourceHead] := by
    rw [List.filter_append]
    refine congrArg₂ (· ++ ·) (List.filter_congr (fun e he => ?_)) ?_
    · simp [isCallerKey, not_reserved_of_writes hb hs ht h e he]
    · rw [filter_cons, mergeMemory, mergedFromKey, not_isProvenance_reservedKey]
      rfl
  have hblob : ∀ e ∈ writes ++ [mergeMemory origin sourceHead], isProvenance e.1 = true →
      ∃ bytes, e.2 = .value (.blob bytes) := by
    intro e he hprov
    rcases List.mem_append.1 he with he | he
    · have hs := ((mem_mergedProvenance.1 ((hmem e).1 (mem_enginePart.2 ⟨he, by simp [isCallerKey, hprov]⟩)))).1
      exact (hkept.kept e hs).resolve_right (fun hnot => by simp [hprov] at hnot)
    · obtain rfl := List.mem_singleton.1 he
      exact ⟨_, rfl⟩
  rw [enginePart_puts ht.sorted, enginePart_append,
    enginePart_of_engine (fun w hw => (engineKey_of_engineWrites hw).not_caller), puts_append, hput, ← puts_append,
    ← engineWrites_enginePart (sorted_puts ht.sorted _), enginePart_puts ht.sorted, hput, engineWrites_of_provenance hblob,
    hfilter]

end Merges

/-! Runs. -/

/-- Callers write ordinary keys, and no policy puts a record at a provenance key. -/
def LoomEvent.Ordinary : LoomEvent → Prop
  | .write _ _ records _ _ _ _ => ∀ e ∈ records, isCallerKey e.1 = true
  | .merge _ _ _ policy _ _ _ _ => LeavesProvenance policy
  | _ => True

namespace LoomDb

variable {db : LoomDb} {branch : BranchId}

theorem HeadHolds.headEntries (h : db.HeadHolds branch m) : db.headEntries branch = .ok m := by
  obtain ⟨t, pages, htree, ht⟩ := h.headTree
  rw [LoomDb.headEntries, htree, ok_bind, liftTree_ok ht.scan]

theorem headHolds_of_headEntries (hsound : db.Sound) (h : db.headEntries branch = .ok m) : db.HeadHolds branch m := by
  obtain ⟨t, htree, hscan⟩ := bind_ok.1 h
  obtain ⟨head, hhead, htree⟩ := bind_ok.1 htree
  obtain ⟨c, hc, htree⟩ := bind_ok.1 htree
  cases htree
  obtain ⟨m', pages, hm'⟩ := hsound head c (fork_ok.1 hc)
  obtain rfl := ok_unique (liftTree_ok hm'.scan) hscan
  exact ⟨head, c, head_ok.1 hhead, fork_ok.1 hc, pages, hm'⟩

theorem HeadHolds.nodeForKey (h : db.HeadHolds branch m) (key : Key) :
    db.nodeForKey branch key = .ok (latestIn m key) := by
  obtain ⟨t, pages, htree, ht⟩ := h.headTree
  rw [LoomDb.nodeForKey, htree, ok_bind, liftTree_ok (ht.get (latestNodeKey key)), ok_bind]
  rfl

theorem Planned.parentsIn {source target : BranchId} {policy : MergePolicy} {plan : MergePlan}
    {targetId baseId : CommitId} {cb cs ct : Commit} {s t writes : Entries}
    (h : Planned db source target policy plan targetId baseId cb cs ct writes) (hs : cs.pages.Holds s)
    (ht : ct.pages.Holds t) : plan.parents = Loom.parentsIn s t (writes.filter (fun e => isCallerKey e.1)) := by
  have hsource : db.HeadHolds source s := ⟨_, cs, h.sourceHead, h.sourceTree, hs⟩
  have htarget : db.HeadHolds target t := ⟨_, ct, h.targetHead, h.targetTree, ht⟩
  have hparents : ∀ key, db.mergeParents source target key = [s, t].filterMap (fun m => latestIn m key) := by
    intro key
    rw [mergeParents, List.filterMap_cons, hsource.nodeForKey, List.filterMap_cons, htarget.nodeForKey]
    rfl
  have hmemory : plan.writes.filter (fun e => isCallerKey e.1) = writes.filter (fun e => isCallerKey e.1) := by
    rw [h.written, List.filter_append, filter_cons, mergedFromKey, not_caller_reservedKey]
    simp
  rw [h.parents, hmemory, Loom.parentsIn]
  simp only [hparents]

/-- One event: bookkeeping of bookkeeping. -/
theorem booked_of_makes (h : Holding (fun m => Booked E A (enginePart m)) db) {event : LoomEvent}
    (hok : event.Ordinary) (hmakes : Makes E A db event branch m) : Booked E A (enginePart m) := by
  cases hmakes with
  | write hhead hm =>
    rw [enginePart_write hm.sorted hok]
    exact (h.head hm).write hok _ _ _ _ _
  | markStale hhead hm hrecords =>
    have hcaller := caller_of_staleWrites hm (h.head hm).bookish hrecords
    rw [enginePart_write hm.sorted hcaller]
    exact (h.head hm).write hcaller _ _ _ _ _
  | forget hm =>
    rw [enginePart_forget hm.sorted (h.head hm).bookish]
    exact (h.head hm).forget _
  | buildIndex hm hnodes =>
    rw [enginePart_withGraph hm.sorted]
    exact (h.head hm).build ((graphOf_enginePart _).trans hnodes)
  | insertVector hm hnodes =>
    rw [enginePart_graph hm.sorted]
    exact (h.head hm).insert ((congrArg (A.insert · _ _) (graphIn_enginePart _)).trans hnodes)
  | @merge token source target policy envelope forbids now fresh targetId baseId plan cb cs ct b s t writes hplan hb hs ht =>
    have hbook : ∀ {id : CommitId} {c : Commit} {m : Entries}, db.commits[id]? = some c → c.pages.Holds m →
        Booked E A (enginePart m) := by
      intro id c m hc hm
      obtain ⟨m', hm', hbooked⟩ := h id c hc
      exact Pages.Holds.unique hm hm' ▸ hbooked
    have hwritten : plan.writes = writes ++ [mergeMemory source plan.sourceHead] := hplan.written
    have hparents : plan.parents = Loom.parentsIn (enginePart s) (enginePart t)
        (writes.filter (fun e => isCallerKey e.1)) := by
      rw [hplan.parentsIn hs ht, parentsIn_enginePart]
    have hkept := (hbook hplan.sourceTree hs).bookish
    rw [hwritten, hparents, enginePart_merge hb hs ht (LeavesProvenance.takesSource hok hs.sorted hkept) hkept hplan.planned]
    exact .merge (hbook hplan.baseTree hb) (hbook hplan.sourceTree hs) (hbook hplan.targetTree ht)
      (fun e he => (List.mem_filter.1 he).2) _ _ _ _ _ _ _

/-- In a run of ordinary events on a new database the engine's keys hold what the bookkeeping put there,
    in the tree of every commit. -/
theorem engine_keys_are_booked (E : Engine) (A : AnnGraph) (tenant : String) (root : CommitId) (events : List LoomEvent)
    (hrun : RunOf E A (fun _ event => event.Ordinary) (create tenant root Pages.empty) events) :
    Holding (fun m => Booked E A (enginePart m)) ((create tenant root Pages.empty).run E A events) := by
  refine Holding.run (fun id c hc => ?_) hrun (fun db event branch m h hok hmakes => booked_of_makes h hok hmakes)
  rcases SortedMap.getElem?_insert_some hc with rfl | hnone
  · exact ⟨[], Pages.Holds.empty, .empty⟩
  · simp at hnone

end LoomDb

/-! Runs on a new database. -/

def noGraph : AnnGraph := ⟨fun _ => [], fun _ _ _ => .ok []⟩

def mainEntries (events : List LoomEvent) : Entries :=
  ((newDb.run plainEngine noGraph events).headEntries mainBranch).toOption.getD []

def putAt (branch : BranchId) (key : Key) (record : Record) (fresh : CommitId) : LoomEvent :=
  .write mainToken branch [(key, record)] [] (citing [feed]) 0 fresh

def flag : Record := .value (.bool true)

/-- Writes on two branches, a merge, and a key forgotten. -/
def busyEvents : List LoomEvent :=
  [putAt "main" [97] flag 2, .branch mainToken "main" "a" 0, putAt "a" [98] flag 3, putAt "main" [99] flag 4,
    .merge mainToken "a" "main" .conflict (citing []) (fun _ _ => none) 0 5,
    .forget mainToken "main" [[97]] (citing []) 0 6]

theorem mainEntries_holds {events : List LoomEvent} (hsound : (newDb.run plainEngine noGraph events).Sound)
    (hok : ((newDb.run plainEngine noGraph events).headEntries mainBranch).isOk = true) :
    (newDb.run plainEngine noGraph events).HeadHolds mainBranch (mainEntries events) := by
  obtain ⟨m, hm⟩ := isOk_iff.1 hok
  have heq : mainEntries events = m := by
    rw [mainEntries, hm]
    rfl
  exact heq ▸ headHolds_of_headEntries hsound hm

theorem busy_events_are_booked :
    findEntry [98] (mainEntries busyEvents) = some flag ∧ seqIn (mainEntries busyEvents) mainBranch = 4 ∧
      Booked plainEngine noGraph (enginePart (mainEntries busyEvents)) := by
  have hnames : RunOf plainEngine noGraph (fun _ _ => True) newDb busyEvents := by decide +kernel
  have hkeys : isCallerKey [97] = true ∧ isCallerKey [98] = true ∧ isCallerKey [99] = true := by decide
  have hordinary : ∀ event ∈ busyEvents, event.Ordinary := by
    simp [busyEvents, putAt, LoomEvent.Ordinary, LeavesProvenance, MergePolicy.resolve, hkeys]
  have hholding := engine_keys_are_booked plainEngine noGraph "t" 1 busyEvents
    (hnames.mem.imp (I := fun _ => True) trivial (fun _ event he _ => ⟨⟨he.1.1, hordinary event he.2⟩, trivial⟩))
  exact ⟨by decide +kernel, by decide +kernel,
    hholding.head (mainEntries_holds hholding.sound (by decide +kernel))⟩

/-- The number of the next node, overwritten by a caller. -/
def resetNumbers : LoomEvent := putAt "main" (provSeqKey mainBranch) flag 3

/-- The caller's record stays, and the next node would be put over the first. -/
theorem caller_resets_node_numbers :
    seqIn (mainEntries [putAt "main" [97] flag 2]) mainBranch = 1 ∧
      findEntry (provSeqKey mainBranch) (mainEntries [putAt "main" [97] flag 2, resetNumbers]) = some flag ∧
      seqIn (mainEntries [putAt "main" [97] flag 2, resetNumbers]) mainBranch = 0 ∧
      ¬ LoomDb.Holding (fun m => Booked plainEngine noGraph (enginePart m))
        (newDb.run plainEngine noGraph [putAt "main" [97] flag 2, resetNumbers]) := by
  have hfind : findEntry (provSeqKey mainBranch) (mainEntries [putAt "main" [97] flag 2, resetNumbers]) = some flag := by
    decide +kernel
  refine ⟨by decide +kernel, hfind, by decide +kernel, fun hholding => ?_⟩
  have hm := mainEntries_holds hholding.sound (by decide +kernel)
  have hmem : (provSeqKey mainBranch, flag) ∈ enginePart (mainEntries [putAt "main" [97] flag 2, resetNumbers]) :=
    mem_enginePart.2 ⟨(findEntry_eq_some hm.sorted).1 hfind, not_caller_reservedKey _ _⟩
  -- the bookkeeping leaves blobs and counters only
  rcases (hholding.head hm).bookish.kept _ hmem with ⟨bytes, hbytes⟩ | ⟨-, n, hn⟩
  · cases hbytes
  · cases hn

end Mutiny.Loom
