import Mutiny.Lib.Run
import Mutiny.Loom.Index
import Mutiny.Loom.SessionSpec
import Mutiny.Loom.Taint
import Mutiny.Loom.TreeMap

/- Runs of a database: every operation that changes one.

   What a step can do is said once (`step_cases`). It publishes one commit on the
   head of a branch, or moves a name, or changes what is not a tree. The records of
   the commit are the head's with some put in and some taken out (`Makes`). Trees of
   a sound database hold lists of records, and stay so (`Sound`). -/
namespace Mutiny.Loom
open Mutiny.Lib Mutiny.Substrate SortedMap List
open Mutiny.Bridge (SourceRef WriteEnvelope)

/-! Records without some. -/

def dropAll (m : Entries) (keys : List Key) : Entries := keys.foldl (fun m key => dropEntry key m) m

def forgetEntry (m : Entries) (key : Key) : Entries :=
  let m := dropEntry (indexKey key) m
  match withdrawn? (findEntry key m) with
  | none => m
  | some record => putEntry key record m

def graphOf (E : Engine) (A : AnnGraph) (m : Entries) : Except LoomError (List (GraphKey × Bytes)) := do
  let found ← m.mapM (indexedVector? E)
  return A.build found.reduceOption

def graphIn (m : Entries) (k : GraphKey) : Option Bytes := (findEntry k.key m).bind Record.blob?

/-- A graph put in, and the buffer emptied. -/
def withGraph (m : Entries) (nodes : List (GraphKey × Bytes)) : Entries :=
  let m := puts m (graphWrites nodes)
  dropAll m ((m.filter (fun e => annBufferPrefix.isPrefixOf e.1)).map Prod.fst)

section Trees

variable {E : Engine} {t : Tree Key Record} {pages : List PageNo} {m : Entries}

theorem removeAll_leaves (h : TreeHolds t pages m) (keys : List Key) : Leaves (removeAll t keys) (dropAll m keys) := by
  induction keys generalizing t m with
  | nil => exact ⟨t, pages, rfl, h⟩
  | cons key keys ih =>
    obtain ⟨t', hremove, ht'⟩ := h.remove key
    have hstep : (liftTree (t.remove key)).map Prod.snd = .ok t' := by
      rw [liftTree_ok hremove]
      rfl
    rw [removeAll, foldlM_cons, hstep]
    exact ih ht'

theorem forgetKeys_leaves (h : TreeHolds t pages m) (keys : List Key) (counts : Forgotten) :
    ∃ counts' t' pages', keys.foldlM (forgetKey E) (counts, t) = .ok (counts', t') ∧
      TreeHolds t' pages' (keys.foldl forgetEntry m) := by
  induction keys generalizing t pages m counts with
  | nil => exact ⟨counts, t, pages, rfl, h⟩
  | cons key keys ih =>
    obtain ⟨t1, hremove, h1⟩ := h.remove (indexKey key)
    have hstep : ∃ counts' t' pages', forgetKey E (counts, t) key = .ok (counts', t') ∧
        TreeHolds t' pages' (forgetEntry m key) := by
      simp only [forgetKey, liftTree_ok hremove, ok_bind, liftTree_ok (h1.get key), forgetEntry]
      cases withdrawn? (findEntry key (dropEntry (indexKey key) m)) with
      | none => exact ⟨_, t1, pages, rfl, h1⟩
      | some record =>
        obtain ⟨t2, pages2, hput, h2⟩ := treeInsert_leaves (E := E) h1 key record
        simp only [hput, ok_bind]
        exact ⟨_, t2, pages2, rfl, h2⟩
    obtain ⟨counts', t', pages', hres, ht'⟩ := hstep
    rw [foldlM_cons, hres]
    exact ih ht' counts'

variable {A : AnnGraph} {base : Commit} {result : RecordPages}

theorem rebuildGraph_ok {n : Nat} (h : rebuildGraph E A base = .ok (result, n)) (hm : base.pages.Holds m) :
    ∃ nodes, graphOf E A m = .ok nodes ∧ result.Holds (withGraph m nodes) := by
  obtain ⟨ps, hm⟩ := hm
  obtain ⟨entries, hscan, h⟩ := bind_ok.1 h
  obtain rfl := ok_unique (liftTree_ok hm.scan) hscan
  obtain ⟨found, hfound, h⟩ := bind_ok.1 h
  obtain ⟨t1, hput, h⟩ := bind_ok.1 h
  obtain ⟨_, ps1, hput', h1⟩ := insertAll_leaves (E := E) hm (graphWrites (A.build found.reduceOption))
  cases hput'.symm.trans hput
  rw [liftTree_ok (h1.scanPrefix annBufferPrefix), ok_bind] at h
  obtain ⟨t2, hremove, h⟩ := bind_ok.1 h
  obtain ⟨_, ps2, hremove', h2⟩ := removeAll_leaves h1 (((puts m (graphWrites (A.build found.reduceOption))).filter
    (fun e => annBufferPrefix.isPrefixOf e.1)).map Prod.fst)
  cases hremove'.symm.trans hremove
  obtain ⟨pages', hflush, heq⟩ := bind_ok.1 h
  cases heq
  refine ⟨_, ?_, flushTree_ok h2 hflush⟩
  rw [graphOf, hfound]
  rfl

theorem insertVector_ok {key : Key} {vector : Embedding} (h : insertVector E A base key vector = .ok result)
    (hm : base.pages.Holds m) :
    ∃ nodes, A.insert (graphIn m) key vector = .ok nodes ∧ result.Holds (puts m (graphWrites nodes)) := by
  obtain ⟨ps, hm⟩ := hm
  obtain ⟨nodes, hnodes, h⟩ := bind_ok.1 h
  obtain ⟨t1, hput, hflush⟩ := bind_ok.1 h
  obtain ⟨_, ps1, hput', h1⟩ := insertAll_leaves (E := E) hm (graphWrites nodes)
  cases hput'.symm.trans hput
  refine ⟨nodes, ?_, flushTree_ok h1 hflush⟩
  have hstored : graphIn m = fun k => ((Tree.openAt base.pages).get k.key).toOption.join.bind Record.blob? := by
    funext k
    rw [hm.get]
    rfl
  rw [hstored]
  exact hnodes

theorem forgetPages_ok {keys : List Key} {counts : Forgotten} (h : forgetPages E base keys = .ok (result, counts))
    (hm : base.pages.Holds m) :
    result.Holds (keys.foldl forgetEntry m) := by
  obtain ⟨ps, hm⟩ := hm
  obtain ⟨counts', t', ps', hres, ht'⟩ := forgetKeys_leaves (E := E) hm keys ⟨0, 0⟩
  unfold forgetPages at h
  rw [hres, ok_bind] at h
  obtain ⟨pages', hflush, heq⟩ := bind_ok.1 h
  cases heq
  exact flushTree_ok ht' hflush

end Trees

theorem Pages.Holds.unique {p : RecordPages} {m m' : Entries} (h : p.Holds m) (h' : p.Holds m') : m = m' := by
  obtain ⟨pages, h⟩ := h
  obtain ⟨pages', h'⟩ := h'
  exact ok_unique h.scan h'.scan

/-! Events. -/

inductive LoomEvent where
  | openSession (session : SessionId) (now : Nat)
  | branch (token : CapabilityToken) (source : BranchId) (name : String) (now : Nat)
  | read (token : CapabilityToken) (branch : BranchId) (key : Key) (now : Nat)
  | write (token : CapabilityToken) (branch : BranchId) (records : Entries) (hints : List (Key × IndexHint))
      (envelope : WriteEnvelope) (now : Nat) (fresh : CommitId)
  | markStale (token : CapabilityToken) (branch : BranchId) (source : SourceRef) (envelope : WriteEnvelope) (now : Nat)
      (fresh : CommitId)
  | forget (token : CapabilityToken) (branch : BranchId) (keys : List Key) (envelope : WriteEnvelope) (now : Nat)
      (fresh : CommitId)
  | buildIndex (token : CapabilityToken) (branch : BranchId) (now : Nat) (fresh : CommitId)
  | insertVector (token : CapabilityToken) (branch : BranchId) (key : Key) (vector : Embedding) (now : Nat)
      (fresh : CommitId)
  | merge (token : CapabilityToken) (source target : BranchId) (policy : MergePolicy) (envelope : WriteEnvelope)
      (forbids : Key → Record → Option String) (now : Nat) (fresh : CommitId)
  | rewind (token : CapabilityToken) (branch : BranchId) (id : CommitId) (now : Nat)
  | gc
  | reopen

namespace LoomDb

/-- What the caller gets is left out. -/
def step (E : Engine) (A : AnnGraph) (db : LoomDb) : LoomEvent → LoomDb
  | .openSession session now => (db.openSession E session now).2
  | .branch token source name now => (db.branch E token source name now).2
  | .read token branch key now => (db.read E token branch key now).2
  | .write token branch records hints envelope now fresh =>
    (db.writeAll E token branch records envelope [] hints now fresh).2
  | .markStale token branch source envelope now fresh => (db.markStale E branch source token envelope now fresh).2
  | .forget token branch keys envelope now fresh => (db.invalidateAndDeindex E token branch keys envelope now fresh).2
  | .buildIndex token branch now fresh => (db.buildAnnIndex E A token branch now fresh).2
  | .insertVector token branch key vector now fresh => (db.annInsert E A token branch key vector now fresh).2
  | .merge token source target policy envelope forbids now fresh =>
    (db.mergeChecked E token source target policy envelope forbids now fresh).2
  | .rewind token branch id now => (db.rewind E token branch id now).2
  | .gc => db.gc.toOption.getD db
  | .reopen => db.reopen

end LoomDb

def LoomEvent.fresh? : LoomEvent → Option CommitId
  | .write _ _ _ _ _ _ fresh => some fresh
  | .markStale _ _ _ _ _ fresh => some fresh
  | .forget _ _ _ _ _ fresh => some fresh
  | .buildIndex _ _ _ fresh => some fresh
  | .insertVector _ _ _ _ _ fresh => some fresh
  | .merge _ _ _ _ _ _ _ fresh => some fresh
  | _ => none

def LoomEvent.isMerge : LoomEvent → Bool
  | .merge _ _ _ _ _ _ _ _ => true
  | _ => false

/-- The records of a commit an event makes on a branch. -/
inductive Makes (E : Engine) (A : AnnGraph) (db : LoomDb) : LoomEvent → BranchId → Entries → Prop
  | write {token : CapabilityToken} {branch : BranchId} {records : Entries} {hints : List (Key × IndexHint)}
      {envelope : WriteEnvelope} {now : Nat} {fresh head : CommitId} {m : Entries}
      (hhead : db.refs.branches[branch]? = some head) (hm : db.HeadHolds branch m) :
      Makes E A db (.write token branch records hints envelope now fresh) branch
        (puts m (records ++ engineWrites E branch head records envelope (db.takeReadSet envelope.session).1 [] hints
          (puts m records)))
  | markStale {token : CapabilityToken} {branch : BranchId} {source : SourceRef} {records : Entries}
      {envelope : WriteEnvelope} {now : Nat} {fresh head : CommitId} {m : Entries}
      (hhead : db.refs.branches[branch]? = some head) (hm : db.HeadHolds branch m)
      (hrecords : db.staleWrites E branch source = .ok records) :
      Makes E A db (.markStale token branch source envelope now fresh) branch
        (puts m (records ++ engineWrites E branch head records envelope (db.takeReadSet envelope.session).1 [] []
          (puts m records)))
  | forget {token : CapabilityToken} {branch : BranchId} {keys : List Key} {envelope : WriteEnvelope} {now : Nat}
      {fresh : CommitId} {m : Entries} (hm : db.HeadHolds branch m) :
      Makes E A db (.forget token branch keys envelope now fresh) branch (keys.foldl forgetEntry m)
  | buildIndex {token : CapabilityToken} {branch : BranchId} {now : Nat} {fresh : CommitId} {m : Entries}
      {nodes : List (GraphKey × Bytes)} (hm : db.HeadHolds branch m) (hnodes : graphOf E A m = .ok nodes) :
      Makes E A db (.buildIndex token branch now fresh) branch (withGraph m nodes)
  | insertVector {token : CapabilityToken} {branch : BranchId} {key : Key} {vector : Embedding} {now : Nat}
      {fresh : CommitId} {m : Entries} {nodes : List (GraphKey × Bytes)} (hm : db.HeadHolds branch m)
      (hnodes : A.insert (graphIn m) key vector = .ok nodes) :
      Makes E A db (.insertVector token branch key vector now fresh) branch (puts m (graphWrites nodes))
  | merge {token : CapabilityToken} {source target : BranchId} {policy : MergePolicy} {envelope : WriteEnvelope}
      {forbids : Key → Record → Option String} {now : Nat} {fresh targetId baseId : CommitId} {plan : LoomDb.MergePlan}
      {cb cs ct : Commit} {b s t writes : Entries}
      (hplan : LoomDb.Planned db source target policy plan targetId baseId cb cs ct writes) (hb : cb.pages.Holds b)
      (hs : cs.pages.Holds s) (ht : ct.pages.Holds t) :
      Makes E A db (.merge token source target policy envelope forbids now fresh) target
        (puts t (plan.writes ++ engineWrites E target targetId plan.writes envelope
          (db.takeReadSet envelope.session).1 plan.parents [] (puts t plan.writes)))

namespace LoomDb

variable {E : Engine} {A : AnnGraph} {db db' : LoomDb}

def Sound (db : LoomDb) : Prop := ∀ (id : CommitId) (c : Commit), db.commits[id]? = some c → ∃ m, c.pages.Holds m

/-- The edits not yet written lead to the refs in memory. -/
def Synced (db : LoomDb) : Prop := db.durable.replay db.edits = db.refs

/-- A commit on the head of a branch that holds the records the event makes. -/
structure Publishes (E : Engine) (A : AnnGraph) (db : LoomDb) (event : LoomEvent) (branch : BranchId) (fresh head commit : CommitId)
    (db₁ : LoomDb) : Prop where
  headed : db.refs.branches[branch]? = some head
  published : ∃ base pages sets m, db.commits[head]? = some base ∧
    Published { db with readSets := sets } branch head base pages fresh commit db₁ ∧ pages.Holds m ∧ Makes E A db event branch m

/-- What a step can leave. -/
inductive Stepped (E : Engine) (A : AnnGraph) (db : LoomDb) (event : LoomEvent) : LoomDb → Prop
  | same (sets : BTreeMap SessionId ReadSet) : Stepped E A db event { db with readSets := sets }
  | published {branch : BranchId} {fresh head commit : CommitId} {db₁ : LoomDb} (hfresh : event.fresh? = some fresh)
      (hkind : event.isMerge = false) (h : Publishes E A db event branch fresh head commit db₁) : Stepped E A db event db₁.persist
  | merged {token : CapabilityToken} {source target : BranchId} {policy : MergePolicy} {envelope : WriteEnvelope}
      {forbids : Key → Record → Option String} {now : Nat} {fresh head second commit : CommitId} {db₁ : LoomDb}
      (hevent : event = .merge token source target policy envelope forbids now fresh)
      (h : Publishes E A db event target fresh head commit db₁) (hsecond : db.refs.branches[source]? = some second) :
      Stepped E A db event (db₁.persist.addSecondParent commit head second).persist
  | created {source : BranchId} {name : String} {head : CommitId}
      (hevent : (∃ token now, event = .branch token source name now) ∨
        source = mainBranch ∧ ∃ now, event = .openSession name now)
      (hsource : db.refs.branches[source]? = some head) (hname : name ∉ db.refs.branches) :
      Stepped E A db event (db.pointed name head (.createBranch name head))
  | moved {token : CapabilityToken} {branch : BranchId} {id : CommitId} {now : Nat}
      (hevent : event = .rewind token branch id now) (hbranch : branch ∈ db.refs.branches) :
      Stepped E A db event (db.pointed branch id (.setHead branch id))
  | collected (live : List CommitId) (hevent : event = .gc) :
      Stepped E A db event { db with commits := db.commits.filter (fun id _ => id ∈ live) }
  | reopened (hevent : event = .reopen) : Stepped E A db event db.reopen

variable {fresh : CommitId}

section Steps

variable {event : LoomEvent} {token : CapabilityToken} {now : Nat}

/-- An event that builds pages on a head leaves the database or publishes. -/
theorem stepped_advance {α : Type} (branch : BranchId) (built : Commit → Except LoomError (RecordPages × α))
    (hsound : db.Sound) (hunused : db.Unused fresh) (hfresh : event.fresh? = some fresh) (hkind : event.isMerge = false)
    (hmakes : ∀ base pages a m, built base = .ok (pages, a) → base.pages.Holds m → db.HeadHolds branch m →
      ∃ m', pages.Holds m' ∧ Makes E A db event branch m') :
    Stepped E A db event (db.advance branch built fresh).2 := by
  unfold advance
  dsimp only
  split
  · exact .same db.readSets
  · next head base _ _ hfound =>
    obtain ⟨_, hhead, h⟩ := bind_ok.1 hfound
    obtain ⟨_, hbase, h⟩ := bind_ok.1 h
    obtain ⟨⟨pages, a⟩, hbuilt, heq⟩ := bind_ok.1 h
    cases heq
    rw [head_ok] at hhead
    rw [fork_ok] at hbase
    obtain ⟨m, hm⟩ := hsound head base hbase
    have hne : head ≠ fresh := fun heq => hunused.1 (heq ▸ mem_iff.2 ⟨base, hbase⟩)
    obtain ⟨commit, db₁, hpub, hpublished⟩ := publish_published base pages (mem_iff.2 ⟨head, hhead⟩) hunused.2 hne
    obtain ⟨m', hpages, hmade⟩ := hmakes base pages a m hbuilt hm ⟨head, base, hhead, hbase, hm⟩
    simp only [hpub]
    exact .published hfresh hkind ⟨hhead, base, pages, db.readSets, m', hbase, hpublished, hpages, hmade⟩

theorem stepped_openSession (session : SessionId) (now : Nat) :
    Stepped E A db (.openSession session now) (db.openSession E session now).2 := by
  unfold openSession
  dsimp only
  split
  · exact .same db.readSets
  · next hcreated =>
    obtain ⟨head, hhead, hcreate⟩ := bind_ok.1 hcreated
    obtain ⟨hname, rfl⟩ := createBranch_ok hcreate
    exact .created (.inr ⟨rfl, now, rfl⟩) (head_ok.1 hhead) hname

theorem stepped_branch (source : BranchId) (name : String) :
    Stepped E A db (.branch token source name now) (db.branch E token source name now).2 := by
  unfold branch
  dsimp only
  split
  · exact .same db.readSets
  · next hcreated =>
    obtain ⟨_, -, hrest⟩ := bind_ok.1 hcreated
    obtain ⟨head, hhead, hcreate⟩ := bind_ok.1 hrest
    obtain ⟨hname, rfl⟩ := createBranch_ok hcreate
    exact .created (.inl ⟨token, now, rfl⟩) (head_ok.1 hhead) hname

theorem stepped_rewind (branch : BranchId) (id : CommitId) :
    Stepped E A db (.rewind token branch id now) (db.rewind E token branch id now).2 := by
  unfold rewind
  dsimp only
  split
  · exact .same db.readSets
  · next previous _ hmoved =>
    obtain ⟨_, -, h⟩ := bind_ok.1 hmoved
    obtain ⟨_, hprevious, h⟩ := bind_ok.1 h
    obtain ⟨_, hset, heq⟩ := bind_ok.1 h
    cases heq
    have hbranch : branch ∈ db.refs.branches := mem_iff.2 ⟨previous, head_ok.1 hprevious⟩
    obtain ⟨db₁, hmove, rfl⟩ := map_ok.1 hset
    rw [moveHead, if_pos hbranch] at hmove
    cases hmove
    exact .moved rfl hbranch

theorem stepped_gc : Stepped E A db .gc (db.gc.toOption.getD db) := by
  cases hgc : db.gc with
  | error e => exact .same db.readSets
  | ok db' =>
    obtain ⟨live, -, heq⟩ := bind_ok.1 hgc
    cases heq
    exact .collected live rfl

end Steps

theorem step_cases (E : Engine) (A : AnnGraph) (hsound : db.Sound) (event : LoomEvent)
    (hunused : ∀ fresh, event.fresh? = some fresh → db.Unused fresh) : Stepped E A db event (db.step E A event) := by
  cases event with
  | openSession session now => exact stepped_openSession session now
  | branch token source name now => exact stepped_branch source name
  | read token branch key now =>
    simp only [step]
    obtain ⟨⟨sets, hres⟩, -⟩ := db.read_cases E token branch key now
    rw [hres]
    exact .same sets
  | write token branch records hints envelope now fresh =>
    simp only [step]
    rcases writeAll_cases E token branch records envelope [] hints now (hunused fresh rfl) with
      ⟨e, sets, hres⟩ | ⟨head, base, pages, commit, db₁, hhead, hbase, hpub, hpages, hres⟩
    · rw [hres]
      exact .same sets
    · rw [hres]
      obtain ⟨m, hm⟩ := hsound head base hbase
      exact .published rfl rfl
        ⟨hhead, base, pages, _, _, hbase, hpub, hpages m hm, .write hhead ⟨head, base, hhead, hbase, hm⟩⟩
  | markStale token branch source envelope now fresh =>
    simp only [step, markStale]
    cases hstale : db.staleWrites E branch source with
    | error e => exact .same db.readSets
    | ok records =>
      cases records with
      | nil => exact .same db.readSets
      | cons first rest =>
        rcases writeAll_cases E token branch (first :: rest) envelope [] [] now (hunused fresh rfl) with
          ⟨e, sets, hres⟩ | ⟨head, base, pages, commit, db₁, hhead, hbase, hpub, hpages, hres⟩
        · simp only [hres]
          exact .same sets
        · simp only [hres]
          obtain ⟨m, hm⟩ := hsound head base hbase
          exact .published rfl rfl ⟨hhead, base, pages, _, _, hbase, hpub, hpages m hm,
            .markStale hhead ⟨head, base, hhead, hbase, hm⟩ hstale⟩
  | forget token branch keys envelope now fresh =>
    simp only [step, invalidateAndDeindex, whenAllowed]
    cases admitted E token branch envelope now with
    | error e => exact .same db.readSets
    | ok u =>
      refine stepped_advance branch _ hsound (hunused fresh rfl) rfl rfl (fun base pages a m hbuilt hm hhead => ?_)
      exact ⟨_, forgetPages_ok hbuilt hm, .forget hhead⟩
  | buildIndex token branch now fresh =>
    simp only [step, buildAnnIndex, whenAllowed]
    cases authorize E token branch now with
    | error e => exact .same db.readSets
    | ok u =>
      refine stepped_advance branch _ hsound (hunused fresh rfl) rfl rfl (fun base pages a m hbuilt hm hhead => ?_)
      obtain ⟨nodes, hnodes, hpages⟩ := rebuildGraph_ok hbuilt hm
      exact ⟨_, hpages, .buildIndex hhead hnodes⟩
  | insertVector token branch key vector now fresh =>
    simp only [step, annInsert, whenAllowed]
    cases authorize E token branch now with
    | error e => exact .same db.readSets
    | ok u =>
      refine stepped_advance branch _ hsound (hunused fresh rfl) rfl rfl (fun base pages a m hbuilt hm hhead => ?_)
      obtain ⟨pages', hinsert, heq⟩ := map_ok.1 hbuilt
      cases heq
      obtain ⟨nodes, hnodes, hpages⟩ := insertVector_ok hinsert hm
      exact ⟨_, hpages, .insertVector hhead hnodes⟩
  | merge token source target policy envelope forbids now fresh =>
    simp only [step]
    rcases mergeChecked_cases E token source target policy envelope forbids now (hunused fresh rfl) with
      ⟨r, hres, -⟩ | ⟨e, sets, hres⟩ |
      ⟨plan, targetId, baseId, cb, cs, ct, writes, pages, commit, db₁, hplan, hpub, hpages, hres⟩
    · rw [hres]
      exact .same db.readSets
    · rw [hres]
      exact .same sets
    · rw [hres]
      obtain ⟨b, hb⟩ := hsound baseId cb hplan.baseTree
      obtain ⟨s, hs⟩ := hsound plan.sourceHead cs hplan.sourceTree
      obtain ⟨t, ht⟩ := hsound targetId ct hplan.targetTree
      exact .merged rfl ⟨hplan.targetHead, ct, pages, _, _, hplan.targetTree, hpub, hpages t ht, .merge hplan hb hs ht⟩
        hplan.sourceHead
  | rewind token branch id now => exact stepped_rewind branch id
  | gc => exact stepped_gc
  | reopen => exact .reopened rfl

/-! What a step leaves of the commits and the heads. -/

variable {branch : BranchId} {P : Entries → Prop} {event : LoomEvent} {id : CommitId} {c : Commit}

theorem Publishes.commits {head commit : CommitId} {db₁ : LoomDb}
    (h : Publishes E A db event branch fresh head commit db₁) (hc : db₁.commits[id]? = some c) :
    db.commits[id]? = some c ∨ id = fresh ∧ ∃ m, c.pages.Holds m ∧ Makes E A db event branch m := by
  obtain ⟨base, pages, sets, m, hbase, hpub, hm, hmakes⟩ := h.published
  cases hpub with
  | noop hsame => exact .inl hc
  | new hdiffers =>
    have hins := hc
    rw [SortedMap.getElem?_insert] at hins
    by_cases heq : fresh = id
    · rw [if_pos heq] at hins
      obtain rfl := Option.some.inj hins
      exact .inr ⟨heq.symm, m, hm, hmakes⟩
    · rw [if_neg heq] at hins
      exact .inl hins

/-- A commit was there, or is the one the event makes. -/
theorem Stepped.commits (h : Stepped E A db event db') (hc : db'.commits[id]? = some c) :
    db.commits[id]? = some c ∨ event.fresh? = some id ∧ ∃ branch m, c.pages.Holds m ∧ Makes E A db event branch m := by
  cases h with
  | same sets => exact .inl hc
  | published hfresh hkind hpub =>
    rcases hpub.commits hc with hold | ⟨rfl, m, hm, hmakes⟩
    · exact .inl hold
    · exact .inr ⟨hfresh, _, m, hm, hmakes⟩
  | merged hevent hpub hsecond =>
    have hframe := (addSecondParent_frame (persist _) _ _ _).1 ▸ hc
    rcases hpub.commits hframe with hold | ⟨rfl, m, hm, hmakes⟩
    · exact .inl hold
    · exact .inr ⟨hevent ▸ rfl, _, m, hm, hmakes⟩
  | created hevent hsource hname => exact .inl hc
  | moved hevent hbranch => exact .inl hc
  | collected live hevent =>
    rw [Std.ExtTreeMap.getElem?_filter] at hc
    obtain ⟨hold, -⟩ := Option.pfilter_eq_some_iff.1 hc
    exact .inl hold
  | reopened hevent => exact .inl hc

/-- Every commit holds records with `P`. -/
def Holding (P : Entries → Prop) (db : LoomDb) : Prop :=
  ∀ (id : CommitId) (c : Commit), db.commits[id]? = some c → ∃ m, c.pages.Holds m ∧ P m

theorem Holding.sound (h : Holding P db) : db.Sound :=
  fun id c hc => (h id c hc).imp fun _ hm => hm.1

theorem Holding.head (h : Holding P db) {m : Entries} (hm : db.HeadHolds branch m) : P m := by
  obtain ⟨head, c, -, hc, hm⟩ := hm
  obtain ⟨m', hm', hP⟩ := h head c hc
  exact Pages.Holds.unique hm hm' ▸ hP

theorem Holding.stepped (h : Holding P db) (hstep : Stepped E A db event db')
    (hmakes : ∀ branch m, Makes E A db event branch m → P m) : Holding P db' := by
  intro id c hc
  rcases hstep.commits hc with hold | ⟨-, branch, m, hm, hmade⟩
  · exact h id c hold
  · exact ⟨m, hm, hmakes branch m hmade⟩

end LoomDb

/-! Runs. -/

namespace LoomDb

def run (E : Engine) (A : AnnGraph) (db : LoomDb) (events : List LoomEvent) : LoomDb := events.foldl (step E A) db

/-- An event gets a name for its commit that was not used. -/
def Names (db : LoomDb) (event : LoomEvent) : Prop := ∀ fresh, event.fresh? = some fresh → db.Unused fresh

instance (db : LoomDb) (event : LoomEvent) : Decidable (db.Names event) :=
  match h : event.fresh? with
  | none => isTrue (fun fresh hfresh => by rw [h] at hfresh; cases hfresh)
  | some fresh =>
    decidable_of_iff (db.Unused fresh)
      ⟨fun hunused fresh' hfresh => Option.mem_unique h hfresh ▸ hunused, fun hnames => hnames fresh h⟩

/-- Every event gets its name, and meets a condition. -/
abbrev RunOf (E : Engine) (A : AnnGraph) (ok : LoomDb → LoomEvent → Prop) : LoomDb → List LoomEvent → Prop :=
  Along (step E A) (fun db event => db.Names event ∧ ok db event)

variable {E : Engine} {A : AnnGraph} {db : LoomDb} {ok : LoomDb → LoomEvent → Prop} {events : List LoomEvent}

theorem Holding.run {P : Entries → Prop} (h : Holding P db) (hrun : RunOf E A ok db events)
    (hmakes : ∀ db event branch m, Holding P db → ok db event → Makes E A db event branch m → P m) :
    Holding P (db.run E A events) := by
  refine Along.keeps hrun h (fun db event he h => h.stepped (step_cases E A h.sound event he.1) ?_)
  exact fun branch m hmade => hmakes db event branch m h he.2 hmade

end LoomDb

end Mutiny.Loom
