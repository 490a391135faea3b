import Mutiny.Loom.Keyspace

/- What a crash takes, and what becomes of old commits.

   Every operation writes out the edits it makes to the refs before it returns, so
   a database opened again between two operations has lost what its sessions had
   read and nothing else (`reopen_keeps_all_but_read_sets`). The tree of a commit
   never changes: reads at it find the same records for good, until a collection
   has taken the commit away (`commits_answer_for_good`). What a branch or a tag is
   built on is never taken (`gc_keeps_what_is_built_on`). -/
namespace Mutiny.Loom
open Mutiny.Lib Mutiny.Substrate List
open BeliefWorld (newDb)

namespace LoomDb

variable {E : Engine} {A : AnnGraph} {db db' : LoomDb} {event : LoomEvent} {events later : List LoomEvent}
  {ok : LoomDb → LoomEvent → Prop} {id : CommitId} {c : Commit}

/-! Edits. -/

theorem Synced.push (h : db.Synced) (edit : RefEdit) : ({ db with refs := db.refs.applyEdit edit }.pushEdit edit).Synced := by
  unfold Synced Refs.replay at h
  simp only [Synced, Refs.replay, pushEdit, foldl_append, h, foldl_cons, foldl_nil]

theorem Synced.recordCommit (h : db.Synced) (commit : CommitId) (parents : List CommitId) :
    (db.recordCommit commit parents).Synced := by
  unfold LoomDb.recordCommit
  dsimp only
  split
  · exact h
  · exact h.push _

/-- The second parent of a merge is added in memory as its edit adds it on replay. -/
theorem Synced.addSecondParent (h : db.Synced) (commit before second : CommitId) :
    (db.addSecondParent commit before second).Synced := by
  have hrecorded := h.recordCommit commit [before, second]
  unfold LoomDb.addSecondParent
  dsimp only
  split
  · exact hrecorded
  · next parents hparents =>
    split
    · exact hrecorded
    · next hnew =>
      have hpush := hrecorded.push (.addParent commit second)
      simp only [Refs.applyEdit, hparents, withParent, Option.getD_some, if_neg hnew] at hpush
      exact hpush

theorem Publishes.synced {branch : BranchId} {fresh head commit : CommitId} {db₁ : LoomDb}
    (h : Publishes E A db event branch fresh head commit db₁) (hdb : db.Synced) : db₁.Synced := by
  obtain ⟨base, pages, sets, m, -, hpub, -⟩ := h.published
  cases hpub with
  | noop hsame => exact hdb.push (.setHead branch head)
  | new hdiffers => exact (hdb.push (.recordCommit fresh [head])).push (.setHead branch fresh)

theorem Stepped.synced (h : Stepped E A db event db') (hdb : db.Synced ∧ db.edits = []) :
    db'.Synced ∧ db'.edits = [] := by
  cases h with
  | same sets => exact hdb
  | published hfresh hkind hpub => exact ⟨hpub.synced hdb.1, rfl⟩
  | merged hevent hpub hsecond =>
    have hwritten : (persist _).Synced := hpub.synced hdb.1
    exact ⟨hwritten.addSecondParent _ _ _, rfl⟩
  | created hevent hsource hname => exact ⟨hdb.1.push (.createBranch _ _), rfl⟩
  | moved hevent hbranch => exact ⟨hdb.1.push (.setHead _ _), rfl⟩
  | collected live hevent => exact hdb
  | reopened hevent => exact ⟨rfl, rfl⟩

/-! Commits. -/

theorem Publishes.kept {branch : BranchId} {fresh head commit : CommitId} {db₁ : LoomDb}
    (h : Publishes E A db event branch fresh head commit db₁) (hne : fresh ≠ id) (hc : db.commits[id]? = some c) :
    db₁.commits[id]? = some c := by
  obtain ⟨base, pages, sets, m, -, hpub, -⟩ := h.published
  cases hpub with
  | noop hsame => exact hc
  | new hdiffers =>
    show (db.commits.insert fresh _)[id]? = some c
    rw [SortedMap.getElem?_insert, if_neg hne, hc]

theorem Stepped.kept (h : Stepped E A db event db') (hfresh : event.fresh? ≠ some id) (hc : db.commits[id]? = some c) :
    db'.commits[id]? = some c ∨ event = .gc ∧ db'.commits[id]? = none := by
  cases h with
  | same sets => exact .inl hc
  | published hname hkind hpub => exact .inl (hpub.kept (fun heq => hfresh (heq ▸ hname)) hc)
  | merged hevent hpub hsecond =>
    left
    rw [persist, (addSecondParent_frame (persist _) _ _ _).1]
    exact hpub.kept (fun heq => hfresh (by rw [hevent, ← heq]; rfl)) hc
  | created hevent hsource hname => exact .inl hc
  | moved hevent hbranch => exact .inl hc
  | collected live hevent =>
    by_cases hlive : id ∈ live
    · left
      simp [Std.ExtTreeMap.getElem?_filter, hc, hlive]
    · right
      simp [Std.ExtTreeMap.getElem?_filter, hc, hlive, hevent]
  | reopened hevent => exact .inl hc

/-! Runs. -/

theorem sound_create (tenant : String) (root : CommitId) : (create tenant root Pages.empty).Sound := by
  intro id c hc
  obtain ⟨-, rfl⟩ := create_commits hc
  exact ⟨[], Pages.Holds.empty⟩

/-- What every step keeps holds after a run, whose trees stay sound. -/
theorem keeps_of_steps {I : LoomDb → Prop} (hrun : Along (step E A) ok db events)
    (hnames : ∀ db event, ok db event → db.Names event) (hsound : db.Sound) (hdb : I db)
    (hstep : ∀ db db' event, ok db event → Stepped E A db event db' → I db → I db') :
    (db.run E A events).Sound ∧ I (db.run E A events) := by
  refine Along.keeps (I := fun db => db.Sound ∧ I db) hrun ⟨hsound, hdb⟩ (fun db event he ⟨hsound, hdb⟩ => ?_)
  have hstepped := step_cases E A hsound event (hnames db event he)
  refine ⟨fun id c hc => ?_, hstep db _ event he hstepped hdb⟩
  obtain hold | ⟨-, branch, m, hm, -⟩ := hstepped.commits hc
  · exact hsound id c hold
  · exact ⟨m, hm⟩

theorem reopen_keeps_all_but_read_sets (E : Engine) (A : AnnGraph) (tenant : String) (root : CommitId)
    (events : List LoomEvent) (hrun : RunOf E A (fun _ _ => True) (create tenant root Pages.empty) events) :
    let db := (create tenant root Pages.empty).run E A events
    db.reopen = { db with readSets := ∅ } := by
  intro db
  obtain ⟨-, hsynced, hedits⟩ := keeps_of_steps (I := fun db => db.Synced ∧ db.edits = []) hrun (fun _ _ => And.left)
    (sound_create tenant root) ⟨rfl, rfl⟩ (fun _ _ _ _ hstep hdb => hstep.synced hdb)
  unfold Synced at hsynced
  rw [hedits] at hsynced
  unfold reopen
  rw [show db.durable = db.refs from hsynced, ← hedits]

theorem busy_events_survive_a_crash : let db := newDb.run plainEngine noGraph busyEvents
    db.refs.branches["main"]? = some 5 ∧ db.reopen = { db with readSets := ∅ } :=
  ⟨by decide +kernel, reopen_keeps_all_but_read_sets plainEngine noGraph "t" 1 busyEvents (by decide +kernel)⟩

/-- A read at a commit of an earlier state finds what its tree held then, unless a collection took the commit. -/
theorem commits_answer_for_good (E : Engine) (A : AnnGraph) (tenant : String) (root : CommitId)
    (events later : List LoomEvent)
    (hrun : RunOf E A (fun _ _ => True) (create tenant root Pages.empty) (events ++ later)) (id : CommitId)
    (hfresh : ∀ event ∈ later, event.fresh? ≠ some id) :
    let db := (create tenant root Pages.empty).run E A events
    let db' := db.run E A later
    ∀ c, db.commits[id]? = some c → ∃ m, c.pages.Holds m ∧
      ∀ token branch now, authorize E token branch now = .ok () →
        (∀ key, db'.readAt E token branch id key now = .ok (findEntry key m)) ∨
        .gc ∈ later ∧ ∀ key, db'.readAt E token branch id key now = .error (.missingManifest id) := by
  intro db db' c hc
  obtain ⟨hbefore, hafter⟩ := along_append.1 hrun
  obtain ⟨hsound, -⟩ := keeps_of_steps (I := fun _ => True) hbefore (fun _ _ => And.left) (sound_create tenant root) trivial
    (fun _ _ _ _ _ _ => trivial)
  obtain ⟨m, pages, hm⟩ := hsound id c hc
  -- once a collection has taken the commit no step brings it back
  have hkept : db'.commits[id]? = some c ∨ .gc ∈ later ∧ db'.commits[id]? = none := by
    refine (keeps_of_steps (I := fun db => db.commits[id]? = some c ∨ .gc ∈ later ∧ db.commits[id]? = none) hafter.mem
      (fun _ _ he => he.1.1) hsound (.inl hc) ?_).2
    rintro db₁ db₂ event ⟨-, hevent⟩ hstep hdb
    obtain hthere | ⟨hgc, hgone⟩ := hdb
    · obtain hstill | ⟨rfl, hgone⟩ := hstep.kept (hfresh event hevent) hthere
      · exact .inl hstill
      · exact .inr ⟨hevent, hgone⟩
    · refine .inr ⟨hgc, Option.eq_none_iff_forall_ne_some.2 (fun c' hc' => ?_)⟩
      obtain hold | ⟨hname, -⟩ := hstep.commits hc'
      · simp [hgone] at hold
      · exact hfresh event hevent hname
  refine ⟨m, ⟨pages, hm⟩, fun token branch now hauth => ?_⟩
  unfold readAt fork
  rw [hauth]
  obtain hthere | ⟨hgc, hgone⟩ := hkept
  · simp only [hthere, ok_bind]
    exact .inl (fun key => liftTree_ok (hm.get key))
  · simp only [hgone]
    exact .inr ⟨hgc, fun _ => rfl⟩

/-- The first record is overwritten, and the branch turned back to before both writes. -/
theorem overwritten_record_is_still_read : let db := newDb.run plainEngine noGraph [putAt "main" [97] flag 2]
    let db' := db.run plainEngine noGraph [putAt "main" [97] (.value (.bool false)) 3, .rewind mainToken "main" 1 0]
    ∃ c m, db.commits[(2 : CommitId)]? = some c ∧ c.pages.Holds m ∧
      ∀ key, db'.readAt plainEngine mainToken "main" 2 key 0 = .ok (findEntry key m) := by
  intro db db'
  obtain ⟨c, hc⟩ := SortedMap.mem_iff.1 (show (2 : CommitId) ∈ db.commits by decide +kernel)
  obtain ⟨m, hm, hread⟩ := commits_answer_for_good plainEngine noGraph "t" 1 [putAt "main" [97] flag 2]
    [putAt "main" [97] (.value (.bool false)) 3, .rewind mainToken "main" 1 0] (by decide +kernel) 2 (by decide) c hc
  exact ⟨c, m, hc, hm, (hread mainToken "main" 0 (by decide +kernel)).resolve_right (by simp [putAt])⟩

/-! Collection. -/

/-- A collection keeps what the branches and tags are built on, and nothing else. -/
theorem gc_keeps_what_is_built_on (db db' : LoomDb) (h : db.gc = .ok db') (id : CommitId) :
    id ∈ db'.commits ↔ ∃ root ∈ db.refs.roots,
      Relation.ReflTransGen (fun a b => ∃ es, db.builtOn a = .ok es ∧ b ∈ es) root id := by
  obtain ⟨live, hwalk, heq⟩ := bind_ok.1 h
  cases heq
  obtain ⟨-, hroots, hclosed⟩ := walk_closed hwalk
  have hkept : ∀ a, a ∈ db.commits.filter (fun id _ => id ∈ live) ↔ a ∈ live := by
    intro a
    simp only [Std.ExtTreeMap.mem_filter, Std.ExtTreeMap.getKey_eq, decide_eq_true_eq, exists_prop,
      and_iff_right_iff_imp]
    intro hlive
    obtain ⟨es, hes, -⟩ := hclosed a hlive not_mem_nil
    obtain ⟨c, hfork, -⟩ := bind_ok.1 hes
    exact SortedMap.mem_iff.2 ⟨c, fork_ok.1 hfork⟩
  refine (hkept id).trans ⟨fun hlive => ?_, fun hreached => ?_⟩
  · obtain hnil | ⟨root, hroot, hpath⟩ := walk_reached hwalk id hlive
    · cases hnil
    · exact ⟨root, mem_reverse.1 hroot, hpath⟩
  · obtain ⟨root, hroot, hpath⟩ := hreached
    induction hpath with
    | refl => exact hroots root (mem_reverse.2 hroot)
    | tail _ hstep ih =>
      obtain ⟨es, hes, hnext⟩ := hstep
      obtain ⟨es', hes', hall⟩ := hclosed _ ih not_mem_nil
      exact hall _ (ok_unique hes hes' ▸ hnext)

theorem busy_head_is_not_collected : let db := newDb.run plainEngine noGraph busyEvents
    ∃ db', db.gc = .ok db' ∧ (5 : CommitId) ∈ db'.commits := by
  intro db
  obtain ⟨db', h⟩ := isOk_iff.1 (show db.gc.isOk = true by decide +kernel)
  exact ⟨db', h, (gc_keeps_what_is_built_on db db' h 5).2 ⟨5, by decide +kernel, .refl⟩⟩

end LoomDb

end Mutiny.Loom
