import Mutiny.Loom.Keyspace

/- The history behind the commits of a database, over whole runs.

   Every commit descends from the root, every commit but the root is recorded, and a
   branch remembers of its merges only what it descends from. So two heads have a
   common history, and a merge that changes no page adds an edge to a commit that
   already is an ancestor: the history stays ranked. Along its edges a relation `R`
   holds between the records of a commit and those of its parents.

   This holds for runs that collect nothing and are not cut off, whose rewinds go to
   commits that are there (`Onward`). -/
namespace Mutiny.Loom
open Mutiny.Lib Mutiny.Substrate SortedMap List
open Mutiny.Bridge (WriteEnvelope)
open LoomDb (isCallerKey)

/-- The memory of a merge: which head of a branch was merged. -/
def Remembered (m : Entries) (source : BranchId) (id : CommitId) : Prop :=
  findEntry (mergedFromKey source) m = some (mergeMemory source id).2

/-- Nothing is collected and nothing cut off, and a rewind goes to a commit. -/
def LoomDb.Onward (db : LoomDb) : LoomEvent → Prop
  | .rewind _ _ id _ => id ∈ db.commits
  | .gc => False
  | .reopen => False
  | _ => True

namespace LoomDb

variable {E : Engine} {A : AnnGraph} {R : Entries → Entries → Prop} {root : CommitId}
  {db db' : LoomDb} {event : LoomEvent} {id fresh : CommitId}

def Keeping (db : LoomDb) (id : CommitId) (m : Entries) : Prop := ∃ c, db.commits[id]? = some c ∧ c.pages.Holds m

variable {m m' : Entries}

theorem Keeping.unique (h : db.Keeping id m) (h' : db.Keeping id m') : m = m' := by
  obtain ⟨c, hc, hm⟩ := h
  obtain ⟨c', hc', hm'⟩ := h'
  obtain rfl := Option.mem_unique hc hc'
  exact Pages.Holds.unique hm hm'

theorem Keeping.mem (h : db.Keeping id m) : id ∈ db.commits := by
  obtain ⟨c, hc, -⟩ := h
  exact mem_iff.2 ⟨c, hc⟩

variable {branch : BranchId}

theorem HeadHolds.keeping (h : db.HeadHolds branch m) (hhead : db.refs.branches[branch]? = some id) :
    db.Keeping id m := by
  obtain ⟨head, c, hhead', hc, hm⟩ := h
  obtain rfl := Option.mem_unique hhead' hhead
  exact ⟨c, hc, hm⟩

/-- One branch is at new records, and nothing else has changed. -/
structure Advanced (db : LoomDb) (branch : BranchId) (m' : Entries) (db' : LoomDb) : Prop where
  head : db'.HeadHolds branch m'
  others : ∀ b m, b ≠ branch → (db'.HeadHolds b m ↔ db.HeadHolds b m)
  names : ∀ b, b ∈ db'.refs.branches ↔ b ∈ db.refs.branches
  trees : ∀ id m, db'.Keeping id m → db.Keeping id m ∨ m = m'

theorem HeadHolds.unique (h : db.HeadHolds branch m) (h' : db.HeadHolds branch m') : m = m' :=
  ok_unique h.headEntries h'.headEntries

theorem HeadHolds.mem (h : db.HeadHolds branch m) : branch ∈ db.refs.branches := by
  obtain ⟨head, c, hhead, -⟩ := h
  exact mem_iff.2 ⟨head, hhead⟩

variable {b : BranchId}

theorem headHolds_congr (hhead : db'.refs.branches[b]? = db.refs.branches[b]?)
    (hcommits : ∀ id, db.refs.branches[b]? = some id → db'.commits[id]? = db.commits[id]?) :
    db'.HeadHolds b m ↔ db.HeadHolds b m := by
  constructor
  · rintro ⟨head, c, hb, hc, hm⟩
    rw [hhead] at hb
    exact ⟨head, c, hb, hcommits head hb ▸ hc, hm⟩
  · rintro ⟨head, c, hb, hc, hm⟩
    exact ⟨head, c, hhead ▸ hb, (hcommits head hb).symm ▸ hc, hm⟩

theorem headHolds_same (hhead : db'.refs.branches[b]? = db.refs.branches[b]?) (hcommits : db'.commits = db.commits) :
    db'.HeadHolds b m ↔ db.HeadHolds b m :=
  headHolds_congr hhead (fun _ _ => by rw [hcommits])

variable {db1 : LoomDb}

theorem Advanced.congr (h : Advanced db branch m' db1) (hbranches : db'.refs.branches = db1.refs.branches)
    (hcommits : db'.commits = db1.commits) :
    Advanced db branch m' db' where
  head := (headHolds_same (by rw [hbranches]) hcommits).2 h.head
  others b m hne := (headHolds_same (by rw [hbranches]) hcommits).trans (h.others b m hne)
  names b := by
    rw [hbranches]
    exact h.names b
  trees id m hm := h.trees id m (by rwa [Keeping, hcommits] at hm)

variable {head : CommitId}

theorem Publishes.advanced {commit : CommitId} (h : Publishes E A db event branch fresh head commit db1)
    (hfresh : fresh ∉ db.commits)
    (hheads : ∀ (b : BranchId) (id : CommitId), db.refs.branches[b]? = some id → id ∈ db.commits) :
    ∃ m', Makes E A db event branch m' ∧ Advanced db branch m' db1 := by
  obtain ⟨base, pages, sets, m', hbase, hpub, hm', hmade⟩ := h.published
  have hother : ∀ {b : BranchId} {x : CommitId}, b ≠ branch →
      (db.refs.branches.insert branch x)[b]? = db.refs.branches[b]? := by
    intro b x hne
    rw [SortedMap.getElem?_insert, if_neg (Ne.symm hne)]
  have hname : ∀ {b : BranchId} {x : CommitId}, b ∈ db.refs.branches.insert branch x ↔ b ∈ db.refs.branches := by
    intro b x
    have hbranch : branch ∈ db.refs.branches := mem_iff.2 ⟨head, h.headed⟩
    rw [mem_insert]
    refine ⟨?_, .inr⟩
    rintro (rfl | hb)
    · exact hbranch
    · exact hb
  refine ⟨m', hmade, ?_⟩
  cases hpub with
  | noop hsame =>
    refine ⟨⟨head, base, Std.ExtTreeMap.getElem?_insert_self, hbase, hsame ▸ hm'⟩, fun b m hne => ?_, fun b => hname,
      fun id m hm => .inl hm⟩
    exact headHolds_same (hother hne) rfl
  | new hdiffers =>
    have hkeep : ∀ {x : CommitId}, x ∈ db.commits → ∀ {c : Commit}, (db.commits.insert fresh c)[x]? = db.commits[x]? := by
      intro x hx c
      have hne : fresh ≠ x := fun heq => hfresh (heq ▸ hx)
      rw [SortedMap.getElem?_insert, if_neg hne]
    refine ⟨⟨fresh, _, Std.ExtTreeMap.getElem?_insert_self, Std.ExtTreeMap.getElem?_insert_self, hm'⟩,
      fun b m hne => headHolds_congr (hother hne) (fun x hx => hkeep (hheads b x hx)), fun b => hname, ?_⟩
    rintro x m ⟨c, hc, hm⟩
    rcases getElem?_insert_some hc with rfl | hc
    · exact .inr (Pages.Holds.unique hm hm')
    · exact .inl ⟨c, hc, hm⟩

/-- What a step does to the heads and the trees. -/
inductive Effect (E : Engine) (A : AnnGraph) (db : LoomDb) (event : LoomEvent) (db' : LoomDb) : Prop
  | same (hbranches : db'.refs.branches = db.refs.branches) (hcommits : db'.commits = db.commits)
  | advanced {branch : BranchId} {m' : Entries} (hmakes : Makes E A db event branch m')
      (hadvanced : Advanced db branch m' db')
  | created {source : BranchId} {name : String} {head : CommitId}
      (hevent : (∃ token now, event = .branch token source name now) ∨
        source = mainBranch ∧ ∃ now, event = .openSession name now)
      (hsource : db.refs.branches[source]? = some head) (hname : name ∉ db.refs.branches)
      (hbranches : db'.refs.branches = db.refs.branches.insert name head) (hcommits : db'.commits = db.commits)
  | moved {token : CapabilityToken} {branch : BranchId} {id : CommitId} {now : Nat}
      (hevent : event = .rewind token branch id now) (hbranch : branch ∈ db.refs.branches)
      (hbranches : db'.refs.branches = db.refs.branches.insert branch id) (hcommits : db'.commits = db.commits)

theorem Stepped.effect (hstep : Stepped E A db event db') (hnames : db.Names event) (honward : db.Onward event)
    (hheads : ∀ (b : BranchId) (id : CommitId), db.refs.branches[b]? = some id → id ∈ db.commits) :
    Effect E A db event db' := by
  cases hstep with
  | same sets => exact .same rfl rfl
  | created hevent hsource hname => exact .created hevent hsource hname rfl rfl
  | moved hevent hbranch => exact .moved hevent hbranch rfl rfl
  | collected live hevent | reopened hevent =>
    subst hevent
    exact honward.elim
  | published hfresh hkind hpub =>
    obtain ⟨m', hmakes, hadvanced⟩ := hpub.advanced (hnames _ hfresh).1 hheads
    exact .advanced hmakes (hadvanced.congr rfl rfl)
  | merged hevent hpub hsecond =>
    obtain ⟨m', hmakes, hadvanced⟩ := hpub.advanced (hnames _ (hevent ▸ rfl)).1 hheads
    obtain ⟨hcommits, hbranches⟩ := addSecondParent_frame (persist _) _ _ _
    exact .advanced hmakes (hadvanced.congr hbranches hcommits)

structure Lineage (R : Entries → Entries → Prop) (root : CommitId) (db : LoomDb) : Prop where
  graph : db.GraphOk
  rooted : ∀ id, id ∈ db.commits → Anc db.parentsOf id root
  recorded : ∀ id, id ∈ db.commits → id ≠ root → id ∈ db.refs.commits
  sound : db.Sound
  /-- A branch remembers only what it descends from, and the root nothing. -/
  memory : ∀ id m, db.Keeping id m → ∀ source a, Remembered m source a → Anc db.parentsOf id a ∧ id ≠ a ∧ id ≠ root
  grows : ∀ id p, p ∈ db.parentsOf id → ∀ m m', db.Keeping p m → db.Keeping id m' → R m m'

theorem Lineage.keeping (h : Lineage R root db) (hid : id ∈ db.commits) : ∃ m, db.Keeping id m := by
  obtain ⟨c, hc⟩ := mem_iff.1 hid
  obtain ⟨m, hm⟩ := h.sound id c hc
  exact ⟨m, c, hc, hm⟩

theorem Lineage.headHolds (h : Lineage R root db) (hbranch : branch ∈ db.refs.branches) :
    ∃ m, db.HeadHolds branch m := by
  obtain ⟨head, hhead⟩ := mem_iff.1 hbranch
  obtain ⟨m, c, hc, hm⟩ := h.keeping (h.graph.heads branch head hhead)
  exact ⟨m, head, c, hhead, hc, hm⟩

variable {a : CommitId}

theorem Lineage.of_anc (h : Lineage R root db) (hrefl : ∀ m, R m m)
    (htrans : ∀ m m' m'', R m m' → R m' m'' → R m m'') (hanc : Anc db.parentsOf id a) (ha : db.Keeping a m)
    (hid : db.Keeping id m') : R m m' := by
  induction hanc generalizing m with
  | refl =>
    rw [ha.unique hid]
    exact hrefl m'
  | tail hxy hstep ih =>
    obtain ⟨mx, hx⟩ := h.keeping (Anc.mem_of_closed (fun x _ => h.graph.known x) hxy hid.mem)
    exact htrans _ _ _ (h.grows _ _ hstep _ _ ha hx) (ih hx)

variable {baseId targetId : CommitId}

/-- Two commits share the root, so a base is the only lowest common ancestor. -/
theorem Lineage.lowest (h : Lineage R root db) {sourceId : CommitId} (hs : sourceId ∈ db.commits)
    (ht : targetId ∈ db.commits) (hbase : db.mergeBase? sourceId targetId = .ok baseId) :
    Lowest db.parentsOf sourceId targetId baseId ∧ ∀ c, Lowest db.parentsOf sourceId targetId c → c = baseId := by
  have hone : db.mergeBases sourceId targetId = [baseId] := by
    rcases mergeBase?_cases db sourceId targetId with ⟨n, herror⟩ | ⟨b, hok, hone | ⟨hnil, -⟩⟩
    · rw [herror] at hbase
      cases hbase
    · obtain rfl := ok_unique hok hbase
      exact hone
    · obtain ⟨x, hx, -⟩ := exists_lowest h.graph.ranked (h.rooted sourceId hs) (h.rooted targetId ht)
      have hmem := mem_mergeBases.2 hx
      rw [hnil] at hmem
      cases hmem
  refine ⟨mem_mergeBases.1 (by rw [hone]; simp), fun c hc => ?_⟩
  have hmem := mem_mergeBases.2 hc
  rw [hone] at hmem
  exact mem_singleton.1 hmem

/-! What keeps it: heads that move, edges that add no ancestor, a new commit. -/

variable {parents : List CommitId}

theorem Keeping.congr (hcommits : db'.commits = db.commits) : db'.Keeping id m ↔ db.Keeping id m := by
  rw [Keeping, Keeping, hcommits]

theorem Lineage.rewired (h : Lineage R root db) (hrefl : ∀ m, R m m)
    (htrans : ∀ m m' m'', R m m' → R m' m'' → R m m'') (hsame : Rewired db db') : Lineage R root db' where
  graph := h.graph.rewired hsame
  rooted x hx := by
    rw [hsame.commits] at hx
    exact hsame.edges.anc.2 (h.rooted x hx)
  recorded x hx hroot := by
    rw [hsame.commits] at hx
    exact (hsame.recorded x).2 (h.recorded x hx hroot)
  sound := by
    rw [Sound, hsame.commits]
    exact h.sound
  memory x m hm source y hrem := by
    obtain ⟨hy, hrest⟩ := h.memory x m ((Keeping.congr hsame.commits).1 hm) source y hrem
    exact ⟨hsame.edges.anc.2 hy, hrest⟩
  grows x p hp m m' hm hm' := by
    rw [Keeping.congr hsame.commits] at hm hm'
    rcases hsame.edges.added x p hp with hp | ⟨hanc, -⟩
    · exact h.grows x p hp m m' hm hm'
    · exact h.of_anc hrefl htrans hanc hm hm'

/-- What is known of a new commit. -/
structure Born (R : Entries → Entries → Prop) (db : LoomDb) (parents : List CommitId)
    (m : Entries) : Prop where
  nonempty : parents ≠ []
  known : ∀ p ∈ parents, p ∈ db.commits
  memory : ∀ source a, Remembered m source a → ∃ p ∈ parents, Anc db.parentsOf p a
  grows : ∀ p ∈ parents, ∀ mp, db.Keeping p mp → R mp m

theorem Lineage.made (h : Lineage R root db) {c : Commit} (hunused : db.Unused fresh) (hborn : Born R db parents m)
    (hm : c.pages.Holds m) (hcommitted : Committed db fresh parents c db') : Lineage R root db' := by
  have hext := h.graph.extends hunused hborn.known hcommitted
  have hparents := hcommitted.parentsOf
  have hcommits := hcommitted.commits
  have hne : ∀ {x}, x ∈ db.commits → x ≠ fresh := fun hx heq => hunused.1 (heq ▸ hx)
  have hold : ∀ {x m}, x ≠ fresh → db'.Keeping x m → db.Keeping x m := by
    rintro x m hx ⟨c', hc', hm'⟩
    rw [hcommits, SortedMap.getElem?_insert, if_neg (Ne.symm hx)] at hc'
    exact ⟨c', hc', hm'⟩
  have hnew : ∀ {m'}, db'.Keeping fresh m' → m' = m := by
    rintro m' ⟨c', hc', hm'⟩
    rw [hcommits, SortedMap.getElem?_insert, if_pos rfl] at hc'
    obtain rfl := Option.some.inj hc'
    exact Pages.Holds.unique hm' hm
  have hroot : fresh ≠ root := by
    obtain ⟨p, hp⟩ := exists_mem_of_ne_nil parents hborn.nonempty
    have hmem := (h.rooted p (hborn.known p hp)).mem_of_closed (fun x _ => h.graph.known x) (hborn.known p hp)
    exact (hne hmem).symm
  refine ⟨h.graph.made hunused hborn.known hcommitted, ?_, ?_, ?_, ?_, ?_⟩
  · intro x hx
    rw [hcommits, mem_insert] at hx
    rcases hx with rfl | hx
    · obtain ⟨p, hp⟩ := exists_mem_of_ne_nil parents hborn.nonempty
      exact hext.anc_new.2 (.inr ⟨p, by rwa [hparents, if_pos rfl], h.rooted p (hborn.known p hp)⟩)
    · exact (hext.anc_old hx).2 (h.rooted x hx)
  · intro x hx hxroot
    rw [hcommits, mem_insert] at hx
    rw [hcommitted.refs, mem_insert]
    exact hx.imp_right (fun hx => h.recorded x hx hxroot)
  · intro x c' hc'
    rw [hcommits] at hc'
    rcases getElem?_insert_some hc' with rfl | hc'
    · exact ⟨m, hm⟩
    · exact h.sound x c' hc'
  · intro x mx hx source a hrem
    by_cases hxf : x = fresh
    · subst hxf
      rw [hnew hx] at hrem
      obtain ⟨p, hp, hanc⟩ := hborn.memory source a hrem
      have ha : a ∈ db.commits := hanc.mem_of_closed (fun x _ => h.graph.known x) (hborn.known p hp)
      exact ⟨hext.anc_new.2 (.inr ⟨p, by rwa [hparents, if_pos rfl], hanc⟩), (hne ha).symm, hroot⟩
    · obtain ⟨hanc, hrest⟩ := h.memory x mx (hold hxf hx) source a hrem
      exact ⟨(hext.anc_old (hold hxf hx).mem).2 hanc, hrest⟩
  · intro x p hp mp mx hmp hmx
    rw [hparents] at hp
    by_cases hxf : x = fresh
    · rw [if_pos hxf] at hp
      subst hxf
      rw [hnew hmx]
      exact hborn.grows p hp mp (hold (hne (hborn.known p hp)) hmp)
    · rw [if_neg hxf] at hp
      exact h.grows x p hp mp mx (hold (hne (h.graph.known x p hp)) hmp) (hold hxf hmx)

/-! One step. -/

variable {ws : Entries} {source : BranchId}

/-- What an event makes of the records of a branch: they grow, and so do those of a
    branch that is merged, and no other merge is remembered. -/
structure Furthers (R : Entries → Entries → Prop) (db : LoomDb) (event : LoomEvent)
    (branch : BranchId) (m' : Entries) : Prop where
  head : ∀ m, db.HeadHolds branch m → R m m'
  kept : event.isMerge = false → ∀ m, db.HeadHolds branch m → ∀ source a, Remembered m' source a → Remembered m source a
  second : ∀ token source target policy envelope forbids now fresh,
    event = .merge token source target policy envelope forbids now fresh → ∀ h, db.refs.branches[source]? = some h →
      Remembered m' source h ∧ (∀ s, db.HeadHolds source s → R s m') ∧
      ∀ m, db.HeadHolds branch m → ∀ source' a, Remembered m' source' a → a = h ∨ Remembered m source' a

theorem memory_of_write {records : Entries} (hkeys : ∀ e ∈ records, isCallerKey e.1 = true)
    (hws : ∀ w ∈ ws, EngineKey w.1) (source : BranchId) :
    findEntry (mergedFromKey source) (puts m (records ++ ws)) = findEntry (mergedFromKey source) m := by
  refine findEntry_puts_of_not_mem (fun w hw heq => ?_)
  rcases mem_append.1 hw with hw | hw
  · have hcaller := hkeys w hw
    rw [heq, mergedFromKey, not_caller_reservedKey] at hcaller
    cases hcaller
  · exact (hws w hw).ne_mergedFromKey source heq

theorem furthers_kept (hm : db.HeadHolds branch m) (hgrows : R m m')
    (hkept : ∀ source, findEntry (mergedFromKey source) m' = findEntry (mergedFromKey source) m)
    (hkind : event.isMerge = false) : Furthers R db event branch m' where
  head m0 hm0 := hm0.unique hm ▸ hgrows
  kept _ m0 hm0 source a hrem := by
    rw [Remembered, hkept] at hrem
    exact hm0.unique hm ▸ hrem
  second _ _ _ _ _ _ _ _ hevent := by
    rw [hevent] at hkind
    cases hkind

theorem mergeMemory_inj {a' : CommitId} (h : (mergeMemory source a).2 = (mergeMemory source a').2) : a = a' := by
  have hbytes : digestBytes a = digestBytes a' := by simpa [mergeMemory] using h
  have hread := nodeOfBytes_digestBytes a
  rw [hbytes, nodeOfBytes_digestBytes] at hread
  exact (Option.some.inj hread).symm

/-- A merge remembers the head it merged beside what the target did. -/
theorem Planned.furthers {token : CapabilityToken} {target : BranchId} {policy : MergePolicy}
    {envelope : WriteEnvelope} {forbids : Key → Record → Option String} {now : Nat} {plan : MergePlan}
    {cb cs ct : Commit} {b s t writes : Entries}
    (hplan : Planned db source target policy plan targetId baseId cb cs ct writes) (hb : cb.pages.Holds b)
    (hs : cs.pages.Holds s) (ht : ct.pages.Holds t) (hws : ∀ w ∈ ws, EngineKey w.1)
    (htarget : R t (puts t (plan.writes ++ ws))) (hsource : R s (puts t (plan.writes ++ ws))) :
    Furthers R db (.merge token source target policy envelope forbids now fresh) target (puts t (plan.writes ++ ws)) := by
  have hheads : db.HeadHolds source s := ⟨_, cs, hplan.sourceHead, hplan.sourceTree, hs⟩
  have hheadt : db.HeadHolds target t := ⟨_, ct, hplan.targetHead, hplan.targetTree, ht⟩
  have hmemory : ∀ source', findEntry (mergedFromKey source') (puts t (plan.writes ++ ws)) =
      if source = source' then some (mergeMemory source plan.sourceHead).2 else findEntry (mergedFromKey source') t := by
    intro source'
    rw [hplan.written]
    exact findEntry_merged_memory (not_reserved_of_writes hb hs ht hplan.planned) source source' _ hws
  refine ⟨fun m hm => hm.unique hheadt ▸ htarget, (fun hkind => by cases hkind), ?_⟩
  intro token' source1 target' policy' envelope' forbids' now' fresh' hevent h hh
  cases hevent
  obtain rfl := Option.mem_unique hplan.sourceHead hh
  refine ⟨(hmemory source).trans (if_pos rfl), fun s' hs' => hs'.unique hheads ▸ hsource, ?_⟩
  intro m hm source' a hrem
  rw [Remembered, hmemory] at hrem
  by_cases heq : source = source'
  · subst heq
    rw [if_pos rfl] at hrem
    exact .inl (mergeMemory_inj (Option.some.inj hrem)).symm
  · rw [if_neg heq] at hrem
    exact .inr (hm.unique hheadt ▸ hrem)

/-- The parents of an event's commit: the head it moves, and the one it merges. -/
def Parents (db : LoomDb) (event : LoomEvent) (head : CommitId) (parents : List CommitId) : Prop :=
  event.isMerge = false ∧ parents = [head] ∨
    ∃ token source target policy envelope forbids now fresh second,
      event = .merge token source target policy envelope forbids now fresh ∧
        db.refs.branches[source]? = some second ∧ ∀ p, p ∈ parents ↔ p = head ∨ p = second

/-- What a step does to the recorded history: nothing, one more edge, a new commit. -/
inductive Grown (E : Engine) (A : AnnGraph) (db : LoomDb) (event : LoomEvent) (db' : LoomDb) : Prop
  | rewired (hsame : Rewired db db')
  | made {branch : BranchId} {fresh head : CommitId} {parents : List CommitId} {c : Commit} {m' : Entries}
      (hfresh : event.fresh? = some fresh) (hhead : db.refs.branches[branch]? = some head)
      (hparents : Parents db event head parents) (hmakes : Makes E A db event branch m') (hm' : c.pages.Holds m')
      (hcommitted : Committed db fresh parents c db')

theorem Grown.mem (h : Grown E A db event db') (hid : id ∈ db.commits) : id ∈ db'.commits := by
  cases h with
  | rewired hsame => rwa [hsame.commits]
  | made hfresh hhead hparents hmakes hm' hcommitted =>
    rw [hcommitted.commits, mem_insert]
    exact .inr hid

section

variable (h : Lineage R root db)
include h

theorem Lineage.heads {x : CommitId} (hx : x ∈ db.commits) (b : BranchId) (y : CommitId)
    (hy : (db.refs.branches.insert branch x)[b]? = some y) : y ∈ db.commits := by
  rcases getElem?_insert_some hy with rfl | hy
  · exact hx
  · exact h.graph.heads b y hy

/-- Only a merge that changes no page links two commits that are there. -/
theorem Lineage.grown (hstep : Stepped E A db event db') (honward : db.Onward event)
    (hmakes : ∀ branch m', Makes E A db event branch m' → Furthers R db event branch m') : Grown E A db event db' := by
  cases hstep with
  | same sets => exact .rewired (rewired_heads rfl rfl h.graph.heads)
  | created hevent hsource hname => exact .rewired (rewired_heads rfl rfl (h.heads (h.graph.heads _ _ hsource)))
  | moved hevent hbranch =>
    subst hevent
    exact .rewired (rewired_heads rfl rfl (h.heads honward))
  | collected live hevent | reopened hevent =>
    subst hevent
    exact honward.elim
  | published hfresh hkind hpub =>
    obtain ⟨base, pages, sets, m', hbase, hpub', hm', hmade⟩ := hpub.published
    cases hpub' with
    | noop hsame => exact .rewired (rewired_heads rfl rfl (h.heads (h.graph.heads _ _ hpub.headed)))
    | new hdiffers =>
      exact .made hfresh hpub.headed (.inl ⟨hkind, rfl⟩) hmade hm' ⟨rfl, rfl, fun b y => getElem?_insert_some⟩
  | @merged token source target policy envelope forbids now fresh head second commit db1 hevent hpub hsecond =>
    obtain ⟨base, pages, sets, m', hbase, hpub', hm', hmade⟩ := hpub.published
    have hhead := hpub.headed
    have hheadmem : head ∈ db.commits := h.graph.heads _ _ hhead
    cases hpub' with
    | noop hsame =>
      -- the target remembers the source's head already, and has it in its history
      obtain ⟨hrem, -⟩ := (hmakes target m' hmade).second _ _ _ _ _ _ _ _ hevent second hsecond
      obtain ⟨hanc, hne, hroot⟩ := h.memory head m' ⟨base, hbase, hsame ▸ hm'⟩ source second hrem
      obtain ⟨parents, hparents⟩ := mem_iff.1 (h.recorded head hheadmem hroot)
      rw [addSecondParent_recorded parents head second]
      · by_cases hmem : second ∈ parents
        · rw [if_pos hmem]
          exact .rewired (rewired_heads rfl rfl (h.heads hheadmem))
        · rw [if_neg hmem]
          exact .rewired (rewired_edge hparents hanc hne rfl rfl (h.heads hheadmem))
      · exact hparents
    | new hdiffers =>
      have hparents : ∀ parents : List CommitId, (∀ p, p ∈ parents ↔ p = head ∨ p = second) → Parents db event head parents :=
        fun parents hall => .inr ⟨_, _, _, _, _, _, _, _, second, hevent, hsecond, hall⟩
      have hrec : (db.refs.commits.insert fresh [head])[fresh]? = some [head] := by
        rw [SortedMap.getElem?_insert, if_pos rfl]
      rw [addSecondParent_recorded [head] head second]
      · by_cases hmem : second ∈ [head]
        · rw [if_pos hmem]
          refine .made (hevent ▸ rfl) hhead (hparents [head] fun p => ?_) hmade hm'
            ⟨rfl, rfl, fun b y => getElem?_insert_some⟩
          rw [mem_singleton, mem_singleton.1 hmem, or_self]
        · rw [if_neg hmem]
          exact .made (hevent ▸ rfl) hhead (hparents ([head] ++ [second]) (by simp)) hmade hm'
            ⟨insert_insert _ _ _ _, rfl, fun b y => getElem?_insert_some⟩
      · exact hrec

theorem Lineage.born (hhead : db.refs.branches[branch]? = some head)
    (hparents : Parents db event head parents) (hf : Furthers R db event branch m') : Born R db parents m' := by
  have hheadmem : head ∈ db.commits := h.graph.heads _ _ hhead
  obtain ⟨m, hm⟩ := h.headHolds (mem_iff.2 ⟨head, hhead⟩)
  have hgrows : ∀ mp, db.Keeping head mp → R mp m' := fun mp ⟨c, hc, hmp⟩ => hf.head mp ⟨head, c, hhead, hc, hmp⟩
  have hanc : ∀ {source a}, Remembered m source a → Anc db.parentsOf head a :=
    fun hrem => (h.memory head m (hm.keeping hhead) _ _ hrem).1
  rcases hparents with ⟨hkind, rfl⟩ | ⟨_, _, _, _, _, _, _, _, second, hevent, hsecond, hparents⟩
  · exact ⟨by simp, by simpa using hheadmem,
      fun source a hrem => ⟨head, by simp, hanc (hf.kept hkind m hm source a hrem)⟩, by simpa using hgrows⟩
  · obtain ⟨-, hsource, hkept⟩ := hf.second _ _ _ _ _ _ _ _ hevent second hsecond
    refine ⟨ne_nil_of_mem ((hparents head).2 (.inl rfl)), ?_, ?_, ?_⟩
    · intro p hp
      rcases (hparents p).1 hp with rfl | rfl
      · exact hheadmem
      · exact h.graph.heads _ _ hsecond
    · intro source' a hrem
      rcases hkept m hm source' a hrem with rfl | hold
      · exact ⟨a, (hparents a).2 (.inr rfl), .refl _ _⟩
      · exact ⟨head, (hparents head).2 (.inl rfl), hanc hold⟩
    · intro p hp mp hmp
      rcases (hparents p).1 hp with rfl | rfl
      · exact hgrows mp hmp
      · obtain ⟨c, hc, hcm⟩ := hmp
        exact hsource mp ⟨p, c, hsecond, hc, hcm⟩

theorem Lineage.grow (hrefl : ∀ m, R m m) (htrans : ∀ m m' m'', R m m' → R m' m'' → R m m'')
    (hgrown : Grown E A db event db') (hnames : db.Names event)
    (hmakes : ∀ branch m', Makes E A db event branch m' → Furthers R db event branch m') : Lineage R root db' := by
  cases hgrown with
  | rewired hsame => exact h.rewired hrefl htrans hsame
  | made hfresh hhead hparents hmade hm' hcommitted =>
    exact h.made (hnames _ hfresh) (h.born hhead hparents (hmakes _ _ hmade)) hm' hcommitted

end

theorem lineage_create (tenant : String) (root : CommitId) {pages : RecordPages} (hm : pages.Holds m)
    (hkeys : ∀ e ∈ m, isCallerKey e.1 = true) : Lineage R root (create tenant root pages) where
  graph := create_graphOk
  rooted id hid := by
    rw [eq_of_mem_create hid]
    exact .refl _ _
  recorded id hid hne := absurd (eq_of_mem_create hid) hne
  sound id c hc := by
    rw [(create_commits hc).2]
    exact ⟨m, hm⟩
  memory id m' hm' source a hrem := by
    -- the root's records are the caller's, and remember no merge
    obtain ⟨c, hc, hm'⟩ := hm'
    rw [(create_commits hc).2] at hm'
    obtain rfl := Pages.Holds.unique hm' hm
    have hcaller := hkeys _ ((findEntry_eq_some hm.sorted).1 hrem)
    rw [mergedFromKey, not_caller_reservedKey] at hcaller
    cases hcaller
  grows id p hp := by
    rw [create_parentsOf] at hp
    cases hp

end LoomDb

end Mutiny.Loom
