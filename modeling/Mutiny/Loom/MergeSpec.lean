import Mutiny.Loom.Merge
import Mutiny.Loom.TreeSpec

/- The merge by pages is the merge by records, but for doubles that are not
   equal to themselves.

   A record is in a tree exactly when it is in a leaf at one of its pages, so a
   page that is the same in two trees holds the same records of both. A key at no
   page that differs therefore has the same record on all three sides, and the
   merge by pages leaves it out (`same_of_not_candidate`). Deciding such a key
   gives nothing when its record equals itself. A record with a NaN does not:
   decided on its own it is a record both sides changed. So the two merges agree,
   whatever the policy, exactly when no record at a page that does not differ has
   a NaN in it (`planMerge_eq_recordMerge_iff`). -/
namespace Mutiny.Loom
open Mutiny.Lib Loom.Tree List

/-! One record against itself. -/

variable {c : MergeConflict}

theorem recordEq_self (x : Option Record) : recordEq x x = x.all Record.regular := by
  cases x with
  | none => rfl
  | some r => exact r.eq_self

theorem decideMerge_same {x : Option Record} (h : x.all Record.regular = true) (key : Key) (policy : MergePolicy) :
    decideMerge key x x x policy = .nothing := by
  unfold decideMerge
  rw [recordEq_self, if_pos h]

/-- The policy that puts a record wherever the rules do not decide. -/
def replacing (record : Record) : MergePolicy := .custom (fun _ => .replace record)

theorem decideConflict_replacing (record : Record) (conflict : MergeConflict) :
    decideConflict (replacing record) conflict = .resolved record := rfl

def Decision.record? : Decision → Option Record
  | .write record => some record
  | .resolved record => some record
  | _ => none

def Decision.conflict? : Decision → Option MergeConflict
  | .conflict c => some c
  | _ => none

theorem decideMerge_irregular {r : Record} (h : r.regular = false) (key : Key) (record : Record) :
    (decideMerge key (some r) (some r) (some r) (replacing record)).record?.isSome := by
  have hne : recordEq (some r) (some r) = false := (recordEq_self (some r)).trans h
  unfold decideMerge
  simp only [hne, Bool.false_eq_true, if_false, decideConflict_replacing]
  cases mergeBoth (some r) (some r) (some r) with
  | none => rfl
  | some merged => rfl

theorem decideMerge_replacing (key : Key) (base source target : Option Record) (record : Record) :
    (decideMerge key base source target (replacing record)).conflict? = none := by
  unfold decideMerge
  by_cases hst : recordEq source target = true
  · rw [if_pos hst]
    rfl
  rw [if_neg hst]
  by_cases hsb : recordEq source base = true
  · rw [if_pos hsb]
    rfl
  rw [if_neg hsb]
  by_cases htb : recordEq target base = true
  · rw [if_pos htb]
    cases source with
    | none => rfl
    | some s => rfl
  · rw [if_neg htb, decideConflict_replacing]
    cases mergeBoth base source target with
    | none => rfl
    | some merged => rfl

theorem conflict_key {key : Key} {base source target : Option Record} {policy : MergePolicy}
    (h : (decideMerge key base source target policy).conflict? = some c) : c.key = key := by
  unfold decideMerge at h
  split_ifs at h with hst hsb htb
  · cases h
  · cases h
  · cases source with
    | none => cases h
    | some r => cases h
  · cases hboth : mergeBoth base source target with
    | some merged =>
      rw [hboth] at h
      cases h
    | none =>
      simp only [hboth, decideConflict] at h
      cases hres : policy.resolve ⟨key, reasonFor source target, ⟨base, source, target⟩⟩ with
      | source =>
        simp only [hres] at h
        cases source with
        | none =>
          cases h
          rfl
        | some r => cases h
      | target | replace r =>
        simp only [hres] at h
        cases h
      | unresolved =>
        simp only [hres] at h
        cases h
        rfl

/-! Plans. -/

variable {d : Key → Decision} {keys : List Key} {key : Key}

/-- Planning a list of keys whose decisions are known. -/
def planWith (d : Key → Decision) (keys : List Key) : Plan :=
  keys.foldl (fun plan key => plan.add key (d key)) Plan.empty

theorem Plan.add_writes (plan : Plan) (key : Key) (d : Decision) :
    (plan.add key d).writes = plan.writes ++ (d.record?.map (fun record => (key, record))).toList := by
  cases d with
  | nothing => simp [Plan.add, Decision.record?]
  | write record => rfl
  | resolved record => rfl
  | conflict c => simp [Plan.add, Decision.record?]

theorem Plan.add_conflicts (plan : Plan) (key : Key) (d : Decision) :
    (plan.add key d).conflicts = plan.conflicts ++ d.conflict?.toList := by
  cases d with
  | nothing | write record | resolved record => simp [Plan.add, Decision.conflict?]
  | conflict c => rfl

theorem mem_writes_planWith {e : Key × Record} :
    e ∈ (planWith d keys).writes ↔ e.1 ∈ keys ∧ (d e.1).record? = some e.2 := by
  have hfold : ∀ plan : Plan, e ∈ (keys.foldl (fun plan key => plan.add key (d key)) plan).writes ↔
      e ∈ plan.writes ∨ e.1 ∈ keys ∧ (d e.1).record? = some e.2 := by
    induction keys with
    | nil => simp
    | cons key keys ih =>
      intro plan
      have hone : e ∈ ((d key).record?.map (fun record => (key, record))).toList ↔
          e.1 = key ∧ (d e.1).record? = some e.2 := by
        obtain ⟨k, r⟩ := e
        simp only [Option.mem_toList, Option.map_eq_some_iff, Prod.mk.injEq]
        constructor
        · rintro ⟨r', hr, rfl, rfl⟩
          exact ⟨rfl, hr⟩
        · rintro ⟨rfl, hr⟩
          exact ⟨r, hr, rfl, rfl⟩
      rw [foldl_cons, ih, Plan.add_writes, mem_append, hone, mem_cons, or_and_right, or_assoc]
  rw [planWith, hfold]
  simp [Plan.empty]

theorem mem_conflicts_planWith : c ∈ (planWith d keys).conflicts ↔ ∃ key ∈ keys, (d key).conflict? = some c := by
  have hfold : ∀ plan : Plan, c ∈ (keys.foldl (fun plan key => plan.add key (d key)) plan).conflicts ↔
      c ∈ plan.conflicts ∨ ∃ key ∈ keys, (d key).conflict? = some c := by
    induction keys with
    | nil => simp
    | cons key keys ih =>
      intro plan
      rw [foldl_cons, ih, Plan.add_conflicts, mem_append, Option.mem_toList, exists_mem_cons_iff, or_assoc]
  rw [planWith, hfold]
  simp [Plan.empty]

theorem conflicts_planWith (h : ∀ key, (d key).conflict? = none) : (planWith d keys).conflicts = [] := by
  refine List.foldlRecOn keys _ (motive := fun plan : Plan => plan.conflicts = []) rfl (fun plan hplan key _ => ?_)
  rw [Plan.add_conflicts, hplan, h]
  rfl

/-- Keys that decide nothing may be left out. -/
theorem planWith_filter (keys : List Key) (p : Key → Bool) (h : ∀ key ∈ keys, p key = false → d key = .nothing) :
    planWith d (keys.filter p) = planWith d keys := by
  unfold planWith
  rw [foldl_filter]
  refine foldl_ext _ _ _ (fun plan key hkey => ?_)
  by_cases hp : p key = true
  · rw [if_pos hp]
  · rw [if_neg hp, h key hkey (by simpa using hp)]
    rfl

/-! Keys. -/

theorem mem_callerKeys : key ∈ callerKeys keys ↔ key ∈ keys ∧ isReserved key = false := by
  simp [callerKeys]

theorem pairwise_callerKeys (keys : List Key) : (callerKeys keys).Pairwise (· < ·) := by
  have hsorted : ((keys.insertionSort (· ≤ ·)).dedup).Pairwise (· ≤ ·) :=
    (pairwise_insertionSort (· ≤ ·) keys).sublist (dedup_sublist _)
  have hstrict : ((keys.insertionSort (· ≤ ·)).dedup).Pairwise (· < ·) :=
    (hsorted.and (nodup_dedup _)).imp (fun h => lt_of_le_of_ne h.1 h.2)
  exact hstrict.filter _

theorem callerKeys_eq_filter {keys' : List Key} (h : ∀ key ∈ callerKeys keys, key ∈ callerKeys keys') :
    callerKeys keys = (callerKeys keys').filter (fun key => key ∈ callerKeys keys) := by
  refine Pairwise.eq_of_mem_iff (pairwise_callerKeys keys) ((pairwise_callerKeys keys').filter _) (fun key => ?_)
  rw [mem_filter, decide_eq_true_iff]
  exact ⟨fun hkey => ⟨h key hkey, hkey⟩, fun hkey => hkey.2⟩

theorem mem_leafKeys {n : Node Key Record} : key ∈ n.leafKeys ↔ ∃ es, n = .leaf es ∧ ∃ record, (key, record) ∈ es := by
  cases n with
  | leaf es | internal keys children => simp [Node.leafKeys]

theorem mem_keysInPages {t : Tree Key Record} {pages : List PageNo} : key ∈ t.keysInPages pages ↔
      ∃ q ∈ pages, q ≠ metaPageNo ∧ ∃ es, t.node q = .leaf es ∧ ∃ record, (key, record) ∈ es := by
  simp only [keysInPages, mem_dedup, mem_insertionSort, mem_flatMap, mem_filter,
    decide_eq_true_iff, mem_leafKeys, and_assoc]

theorem same_of_not_mem_changedPages {base source target : RecordPages} {q : PageNo}
    (h : q ∉ changedPages base source target) :
    source.nodes[q]? = base.nodes[q]? ∧ target.nodes[q]? = base.nodes[q]? := by
  by_cases hmem : q ∈ base.nodes.keys ++ source.nodes.keys ++ target.nodes.keys
  · simp only [changedPages, mem_append, not_or, mem_filter, mem_dedup, not_and] at h hmem
    have hsame := h.2 hmem
    simp only [Bool.or_eq_true, decide_eq_true_iff, ne_eq, not_or, not_not] at hsame
    exact ⟨hsame.1.symm, hsame.2.symm⟩
  · simp only [mem_append, SortedMap.mem_keys, not_or, ← SortedMap.getElem?_eq_none] at hmem
    obtain ⟨⟨hb, hs⟩, ht⟩ := hmem
    exact ⟨hs.trans hb.symm, ht.trans hb.symm⟩

/-! Trees. -/

section Trees

variable {base source target : RecordPages} {b s t : Entries} {policy : MergePolicy} {p : RecordPages}
  {m : Entries} {e : Key × Record}

theorem mem_of_same_page {p' : RecordPages} {m' : Entries} (h : p.Holds m) (h' : p'.Holds m')
    (he : e ∈ m) :
    ∃ q, q ≠ metaPageNo ∧ (∃ es, (openAt p).node q = .leaf es ∧ e ∈ es) ∧
      (p'.nodes[q]? = p.nodes[q]? → e ∈ m') := by
  obtain ⟨pages, h⟩ := h
  obtain ⟨pages', h'⟩ := h'
  obtain ⟨q, hq, es, hnode, hes⟩ := h.leaf_mem.1 he
  refine ⟨q, ne_of_gt (h.bound q hq).1, ⟨es, hnode, hes⟩, fun hsame => ?_⟩
  have hnode' : (openAt p').node q = .leaf es := by
    rw [← hnode]
    simp only [node, openAt, hsame]
  refine h'.leaf_mem.2 ⟨q, ?_, es, hnode', hes⟩
  -- the leaf is not empty, so its page was written, and every written page is one of the tree's
  by_contra hout
  obtain ⟨hdirty, hstore⟩ := h'.written q hout
  rw [node, hdirty, hstore] at hnode'
  cases hnode'
  cases hes

/-- A record at a key that is not a candidate is in all three trees. -/
theorem mem_of_not_candidate (hb : base.Holds b) (hs : source.Holds s) (ht : target.Holds t)
    (hkey : isReserved key = false) (hnot : key ∉ candidates base source target) (record : Record) :
    ((key, record) ∈ s ↔ (key, record) ∈ b) ∧ ((key, record) ∈ t ↔ (key, record) ∈ b) := by
  simp only [candidates, mem_callerKeys, mem_append, hkey, and_true, not_or, mem_keysInPages] at hnot
  obtain ⟨⟨hsource, htarget⟩, hbase⟩ := hnot
  have hout : ∀ {p : RecordPages}, (¬ ∃ q ∈ changedPages base source target, q ≠ metaPageNo ∧
      ∃ es, (openAt p).node q = .leaf es ∧ ∃ record, (key, record) ∈ es) → ∀ {q es}, q ≠ metaPageNo →
      (openAt p).node q = .leaf es → (key, record) ∈ es → q ∉ changedPages base source target :=
    fun hp q es hq hnode hes hmem => hp ⟨q, hmem, hq, es, hnode, record, hes⟩
  refine ⟨⟨fun hmem => ?_, fun hmem => ?_⟩, fun hmem => ?_, fun hmem => ?_⟩
  · obtain ⟨q, hq, ⟨es, hnode, hes⟩, hgoal⟩ := mem_of_same_page hs hb hmem
    exact hgoal (same_of_not_mem_changedPages (hout hsource hq hnode hes)).1.symm
  · obtain ⟨q, hq, ⟨es, hnode, hes⟩, hgoal⟩ := mem_of_same_page hb hs hmem
    exact hgoal (same_of_not_mem_changedPages (hout hbase hq hnode hes)).1
  · obtain ⟨q, hq, ⟨es, hnode, hes⟩, hgoal⟩ := mem_of_same_page ht hb hmem
    exact hgoal (same_of_not_mem_changedPages (hout htarget hq hnode hes)).2.symm
  · obtain ⟨q, hq, ⟨es, hnode, hes⟩, hgoal⟩ := mem_of_same_page hb ht hmem
    exact hgoal (same_of_not_mem_changedPages (hout hbase hq hnode hes)).2

theorem Pages.Holds.sorted (h : p.Holds m) : Sorted m := by
  obtain ⟨pages, h⟩ := h
  exact h.sorted

theorem same_of_not_candidate (hb : base.Holds b) (hs : source.Holds s) (ht : target.Holds t)
    (hkey : isReserved key = false) (hnot : key ∉ candidates base source target) :
    findEntry key s = findEntry key b ∧ findEntry key t = findEntry key b := by
  have hiff := mem_of_not_candidate hb hs ht hkey hnot
  constructor
  · refine Option.ext (fun record => ?_)
    rw [findEntry_eq_some hs.sorted, findEntry_eq_some hb.sorted]
    exact (hiff record).1
  · refine Option.ext (fun record => ?_)
    rw [findEntry_eq_some ht.sorted, findEntry_eq_some hb.sorted]
    exact (hiff record).2

/-- What is decided for a key, given what the three trees hold. -/
def decisionOf (b s t : Entries) (policy : MergePolicy) (key : Key) : Decision :=
  decideMerge key (findEntry key b) (findEntry key s) (findEntry key t) policy

theorem planKeys_eq (hb : base.Holds b) (hs : source.Holds s) (ht : target.Holds t) (policy : MergePolicy)
    (keys : List Key) :
    planKeys base source target policy keys = .ok (planWith (decisionOf b s t policy) keys).outcome := by
  obtain ⟨_, hb⟩ := hb
  obtain ⟨_, hs⟩ := hs
  obtain ⟨_, ht⟩ := ht
  have hkey : ∀ plan key, planKey (openAt base) (openAt source) (openAt target) policy plan key =
      .ok (plan.add key (decisionOf b s t policy key)) := by
    intro plan key
    simp only [planKey, hb.get, hs.get, ht.get, ok_bind]
    rfl
  have hfold : ∀ (keys : List Key) (plan : Plan),
      keys.foldlM (planKey (openAt base) (openAt source) (openAt target) policy) plan =
      .ok (keys.foldl (fun plan key => plan.add key (decisionOf b s t policy key)) plan) := by
    intro keys
    induction keys with
    | nil => exact fun plan => rfl
    | cons key keys ih =>
      intro plan
      rw [foldlM_cons, hkey, ok_bind, ih, foldl_cons]
  rw [planKeys, hfold]
  rfl

variable {writes : Entries} {automatic : Nat}

section

variable (hb : base.Holds b) (hs : source.Holds s) (ht : target.Holds t)
include hb hs ht

theorem mem_writes_planMerge (h : planMerge base source target policy = .ok (.merged writes automatic)) :
    e ∈ writes ↔ e.1 ∈ candidates base source target ∧ (decisionOf b s t policy e.1).record? = some e.2 := by
  rw [planMerge, planKeys_eq hb hs ht, Except.ok.injEq, Plan.outcome] at h
  rw [← mem_writes_planWith]
  by_cases hnone : (planWith (decisionOf b s t policy) (candidates base source target)).conflicts.isEmpty = true
  · rw [if_pos hnone, MergeOutcome.merged.injEq] at h
    rw [h.1]
  · rw [if_neg hnone] at h
    cases h

theorem mem_report_planMerge {report : List MergeConflict}
    (h : planMerge base source target policy = .ok (.conflict report)) {c : MergeConflict} (hc : c ∈ report) :
    (decisionOf b s t policy c.key).conflict? = some c := by
  rw [planMerge, planKeys_eq hb hs ht, Except.ok.injEq, Plan.outcome] at h
  by_cases hnone : (planWith (decisionOf b s t policy) (candidates base source target)).conflicts.isEmpty = true
  · rw [if_pos hnone] at h
    cases h
  · rw [if_neg hnone, MergeOutcome.conflict.injEq] at h
    rw [← h, mem_conflicts_planWith] at hc
    obtain ⟨key, -, hdecided⟩ := hc
    have hkey : c.key = key := conflict_key hdecided
    rw [hkey]
    exact hdecided

theorem recordMerge_eq (policy : MergePolicy) :
    recordMerge base source target policy =
      .ok (planWith (decisionOf b s t policy) (callerKeys ((s ++ t ++ b).map Prod.fst))).outcome := by
  rw [← planKeys_eq hb hs ht]
  obtain ⟨_, hb⟩ := hb
  obtain ⟨_, hs⟩ := hs
  obtain ⟨_, ht⟩ := ht
  simp only [recordMerge, hb.scan, hs.scan, ht.scan, ok_bind]

theorem not_reserved_of_writes (h : planMerge base source target policy = .ok (.merged writes automatic)) :
    ∀ e ∈ writes, isReserved e.1 = false :=
  fun _ he => (mem_callerKeys.1 ((mem_writes_planMerge hb hs ht h).1 he).1).2

theorem mem_of_candidate (h : key ∈ candidates base source target) : key ∈ callerKeys ((s ++ t ++ b).map Prod.fst) := by
  have hmem : ∀ {p : RecordPages} {m : Entries}, p.Holds m →
      key ∈ (openAt p).keysInPages (changedPages base source target) → key ∈ m.map Prod.fst := by
    intro p m hp hkey
    obtain ⟨pages, hp⟩ := hp
    obtain ⟨q, -, -, es, hnode, record, hes⟩ := mem_keysInPages.1 hkey
    have hq : q ∈ pages := by
      by_contra hout
      obtain ⟨hdirty, hstore⟩ := hp.written q hout
      rw [node, hdirty, hstore] at hnode
      cases hnode
      cases hes
    exact mem_map.2 ⟨(key, record), hp.leaf_mem.2 ⟨q, hq, es, hnode, hes⟩, rfl⟩
  rw [candidates, mem_callerKeys] at h
  rw [mem_callerKeys]
  refine ⟨?_, h.2⟩
  simp only [map_append, mem_append] at h ⊢
  exact h.1.imp (Or.imp (hmem hs) (hmem ht)) (hmem hb)

end

/-- No record the merge by pages leaves out has a NaN. -/
def SkipsRegular (base source target : RecordPages) : Prop :=
  ∀ key record, isReserved key = false → key ∉ candidates base source target →
    (Tree.openAt base).get key = .ok (some record) → record.regular = true

theorem planMerge_eq_of_skips (hb : base.Holds b) (hs : source.Holds s) (ht : target.Holds t)
    (h : SkipsRegular base source target) (policy : MergePolicy) :
    planMerge base source target policy = recordMerge base source target policy := by
  rw [planMerge, planKeys_eq hb hs ht, recordMerge_eq hb hs ht]
  have hsub := callerKeys_eq_filter (fun key hkey => mem_of_candidate hb hs ht hkey)
  have hplan : planWith (decisionOf b s t policy) (candidates base source target) =
      planWith (decisionOf b s t policy) (callerKeys ((s ++ t ++ b).map Prod.fst)) := by
    have hfilter : candidates base source target = (callerKeys ((s ++ t ++ b).map Prod.fst)).filter
        (fun key => key ∈ candidates base source target) := hsub
    rw [hfilter]
    refine planWith_filter _ _ (fun key hkey hnot => ?_)
    have hnot : key ∉ candidates base source target := of_decide_eq_false hnot
    have hreserved := (mem_callerKeys.1 hkey).2
    obtain ⟨hsb, htb⟩ := same_of_not_candidate hb hs ht hreserved hnot
    rw [decisionOf, hsb, htb]
    refine decideMerge_same ?_ key policy
    cases hfind : findEntry key b with
    | none => rfl
    | some record =>
      obtain ⟨_, hb⟩ := hb
      exact h key record hreserved hnot (by rw [hb.get, hfind])
  rw [hplan]

theorem skips_of_planMerge_eq (hb : base.Holds b) (hs : source.Holds s) (ht : target.Holds t)
    (h : ∀ policy, planMerge base source target policy = recordMerge base source target policy) :
    SkipsRegular base source target := by
  intro key record hreserved hnot hget
  have hfind : findEntry key b = some record := by
    obtain ⟨_, hb⟩ := hb
    rw [hb.get] at hget
    exact Except.ok.inj hget
  obtain ⟨hsb, htb⟩ := same_of_not_candidate hb hs ht hreserved hnot
  by_contra hirregular
  rw [Bool.not_eq_true] at hirregular
  -- under a policy that resolves every conflict, the key is written by the one merge only
  have hout := h (replacing record)
  rw [planMerge, planKeys_eq hb hs ht, recordMerge_eq hb hs ht] at hout
  have hnone : ∀ key, (decisionOf b s t (replacing record) key).conflict? = none :=
    fun key => decideMerge_replacing key _ _ _ record
  simp only [Plan.outcome, conflicts_planWith hnone, isEmpty_nil, if_true, Except.ok.injEq,
    MergeOutcome.merged.injEq] at hout
  have hputs : (decisionOf b s t (replacing record) key).record?.isSome := by
    rw [decisionOf, hsb, htb, hfind]
    exact decideMerge_irregular hirregular key record
  obtain ⟨put, hput⟩ := Option.isSome_iff_exists.1 hputs
  have hkey : key ∈ callerKeys ((s ++ t ++ b).map Prod.fst) := by
    have hmem := (findEntry_eq_some hb.sorted).1 hfind
    refine mem_callerKeys.2 ⟨mem_map.2 ⟨(key, record), mem_append_right _ hmem, rfl⟩, hreserved⟩
  have hwrite : (key, put) ∈ (planWith (decisionOf b s t (replacing record)) (candidates base source target)).writes := by
    rw [hout.1]
    exact mem_writes_planWith.2 ⟨hkey, hput⟩
  exact hnot (mem_writes_planWith.1 hwrite).1

end Trees

/-- The merge by pages is the merge by records under every policy exactly when no
    record it leaves out has a NaN in it. -/
theorem planMerge_eq_recordMerge_iff (Z : Sizing Key Record) (ops opsSource opsTarget : List (TreeOp Key Record)) :
    ∃ base source target, Pages.empty.after Z ops = .ok base ∧ base.after Z opsSource = .ok source ∧
      base.after Z opsTarget = .ok target ∧
      ((∀ policy, planMerge base source target policy = recordMerge base source target policy) ↔
        SkipsRegular base source target) := by
  obtain ⟨base, hbase, hb⟩ := Pages.Holds.empty.after Z ops
  obtain ⟨source, hsource, hs⟩ := hb.after Z opsSource
  obtain ⟨target, htarget, ht⟩ := hb.after Z opsTarget
  refine ⟨base, source, target, hbase, hsource, htarget, skips_of_planMerge_eq hb hs ht, fun hskips policy => ?_⟩
  exact planMerge_eq_of_skips hb hs ht hskips policy

/-- A leaf as long as it has entries, four to a page. -/
def fourToAPage : Sizing Key Record where
  nodeLen
    | .leaf entries => entries.length
    | .internal keys _ => keys.length
  entryCost _ _ := 1
  limit := 4

def nanRecord : Record := .value (.number ⟨0x7ff8000000000000⟩)

/-- A tree with one record, a NaN, merged into itself: the merge by pages has
    nothing to decide, the record on its own is a conflict. -/
theorem planMerge_skips_nan :
    ((Pages.empty.after fourToAPage [.insert [0x61] nanRecord]).bind (fun base => planMerge base base base .conflict),
      (Pages.empty.after fourToAPage [.insert [0x61] nanRecord]).bind (fun base => recordMerge base base base .conflict)) =
    (.ok (.merged [] 0),
      .ok (.conflict [⟨[0x61], .noRule, ⟨some nanRecord, some nanRecord, some nanRecord⟩⟩])) := by
  decide +kernel

end Mutiny.Loom
