import Mutiny.Loom.Codec
import Mutiny.Loom.Lineage

/- Counters across branches and merges.

   A history creates branches, changes counters by reading a value and writing it
   with an increment added, and merges branches into one another. The increments
   are remembered beside the database, under the commit that made them.

   A merge adds to the base what each side added, unless two of the three values
   are equal: then it takes the other side's, or the target's when the sides
   agree. Of these only the last goes wrong, when both sides moved from the base by
   the same amount: one of the two is lost (`decideMerge_counter`,
   `counter_loses_equal_increments`). As long as no merge meets such a pair, and
   the differences to the base are numbers an `i64` holds, a counter is its initial
   value and the increments of all recorded ancestors of the head, each once
   (`counter_counts_once`): a unique base has exactly the history the two sides
   share. -/
namespace Mutiny.Loom
open Mutiny.Lib Mutiny.Substrate SortedMap LoomDb List Finset
open Mutiny.Bridge (WriteEnvelope)

def counterValue (found : Option Record) : Int := (found.bind Record.counter?).elim 0 Subtype.val

/-- Nothing but a counter is there. -/
def CounterLike (found : Option Record) : Prop := found = none ∨ ∃ n, found = some (.value (.counter n))

def mergedRecord (d : Decision) (target : Option Record) : Option Record := d.record?.or target

/-! One merge. -/

variable {s : Option Record}

theorem recordEq_counter (a c : I64) :
    recordEq (some (.value (.counter a))) (some (.value (.counter c))) = decide (a = c) := by
  have heq : (Value.counter a == Value.counter c) = decide (a = c) := by
    rw [Bool.eq_iff_iff]
    simp
  exact heq

theorem CounterLike.regular {found : Option Record} (h : CounterLike found) : found.all Record.regular = true := by
  rcases h with rfl | ⟨n, rfl⟩
  · rfl
  · rfl

theorem decideMerge_unchanged (h : s.all Record.regular = true) (key : Key) (t : Option Record)
    (policy : MergePolicy) : (decideMerge key s s t policy).record? = none := by
  unfold decideMerge
  rw [recordEq_self, h]
  by_cases hst : recordEq s t = true
  · rw [if_pos hst]
    rfl
  · rw [if_neg hst]
    rfl

theorem mergeTyped_counter {b s t : I64} (hs : InI64 (s.val - b.val)) (ht : InI64 (t.val - b.val))
    (hsum : InI64 (s.val + t.val - b.val)) :
    (I64.saturatingAdd (I64.saturatingAdd b (I64.saturatingSub s b)) (I64.saturatingSub t b)).val =
      s.val + t.val - b.val := by
  have hsub : (I64.saturatingSub s b).val = s.val - b.val := I64.clamp_val hs
  have hsub' : (I64.saturatingSub t b).val = t.val - b.val := I64.clamp_val ht
  have hadd : (I64.saturatingAdd b (I64.saturatingSub s b)).val = s.val := by
    rw [I64.saturatingAdd, hsub, add_sub_cancel]
    exact I64.clamp_val s.property
  rw [I64.saturatingAdd, hadd, hsub', ← add_sub_assoc]
  exact I64.clamp_val hsum

/-- A counter after a merge has what both sides added to the base. -/
theorem decideMerge_counter {b t : Option Record} (hb : CounterLike b) (hs : CounterLike s) (ht : CounterLike t)
    (hpresent : b.isSome → s.isSome ∧ t.isSome)
    (hequal : counterValue s = counterValue t → counterValue s = counterValue b)
    (hsb : InI64 (counterValue s - counterValue b)) (htb : InI64 (counterValue t - counterValue b))
    (hsum : InI64 (counterValue s + counterValue t - counterValue b)) (key : Key) (policy : MergePolicy) :
    CounterLike (mergedRecord (decideMerge key b s t policy) t) ∧
      counterValue (mergedRecord (decideMerge key b s t policy) t) =
        counterValue s + counterValue t - counterValue b ∧
      (s.isSome ∨ t.isSome → (mergedRecord (decideMerge key b s t policy) t).isSome) := by
  have hcounter : ∀ n : I64, CounterLike (some (.value (.counter n))) := fun n => .inr ⟨n, rfl⟩
  have hvalue : ∀ n : I64, counterValue (some (.value (.counter n))) = n.val := fun n => rfl
  have hnone : s = none ∨ t = none → b = none := by
    intro hmissing
    cases b with
    | none => rfl
    | some r => rcases hmissing with rfl | rfl <;> simp at hpresent
  unfold decideMerge
  rcases hs with rfl | ⟨s, rfl⟩
  · -- nothing at the source, so nothing at the base, and the target keeps what it has
    obtain rfl := hnone (.inl rfl)
    rcases ht with rfl | ⟨t, rfl⟩
    · exact ⟨.inl rfl, rfl, by simp⟩
    · refine ⟨hcounter t, ?_, fun _ => rfl⟩
      show t.val = 0 + t.val - 0
      omega
  · rcases ht with rfl | ⟨t, rfl⟩
    · obtain rfl := hnone (.inr rfl)
      refine ⟨hcounter s, ?_, fun _ => rfl⟩
      show s.val = s.val + 0 - 0
      omega
    · rw [recordEq_counter]
      by_cases hst : s = t
      · rw [if_pos (by simpa using hst)]
        subst hst
        have heq := hequal rfl
        refine ⟨hcounter s, ?_, fun _ => rfl⟩
        show s.val = _
        rw [hvalue] at heq ⊢
        omega
      · rw [if_neg (by simpa using hst)]
        rcases hb with rfl | ⟨b, rfl⟩
        · have htyped := mergeTyped_counter (b := I64.zero) hsb htb hsum
          exact ⟨hcounter _, htyped, fun _ => rfl⟩
        · rw [recordEq_counter, recordEq_counter]
          by_cases hsb' : s = b
          · rw [if_pos (by simpa using hsb')]
            subst hsb'
            refine ⟨hcounter t, ?_, fun _ => rfl⟩
            show t.val = s.val + t.val - s.val
            omega
          · rw [if_neg (by simpa using hsb')]
            by_cases htb' : t = b
            · rw [if_pos (by simpa using htb')]
              subst htb'
              refine ⟨hcounter s, ?_, fun _ => rfl⟩
              show s.val = s.val + t.val - t.val
              omega
            · rw [if_neg (by simpa using htb')]
              exact ⟨hcounter _, mergeTyped_counter hsb htb hsum, fun _ => rfl⟩

/-! Histories. -/

variable {m : Entries}

structure CounterWorld where
  db : LoomDb
  /-- Which commit added what to which counter, the newest first. -/
  increments : List (CommitId × Key × Int)

inductive CounterEvent where
  | branch (token : CapabilityToken) (source : BranchId) (name : String) (now : Nat)
  /-- Read a counter, write it with an increment added. -/
  | add (token : CapabilityToken) (branch : BranchId) (key : Key) (increment : Int) (envelope : WriteEnvelope) (now : Nat)
      (fresh : CommitId)
  | merge (token : CapabilityToken) (source target : BranchId) (policy : MergePolicy) (envelope : WriteEnvelope)
      (now : Nat) (fresh : CommitId)

namespace CounterWorld

/-- Write a counter and remember by how much, if a commit was made. -/
def write (E : Engine) (w : CounterWorld) (token : CapabilityToken) (branch : BranchId) (key : Key) (n : I64)
    (increment : Int) (envelope : WriteEnvelope) (now : Nat) (fresh : CommitId) : CounterWorld :=
  match w.db.writeAll E token branch [(key, .value (.counter n))] envelope [] [] now fresh with
  | (.error _, db) => { w with db := db }
  | (.ok commit, db) => ⟨db, if commit = fresh then (fresh, key, increment) :: w.increments else w.increments⟩

def add (E : Engine) (w : CounterWorld) (token : CapabilityToken) (branch : BranchId) (key : Key) (increment : Int)
    (envelope : WriteEnvelope) (now : Nat) (fresh : CommitId) : CounterWorld :=
  match w.db.read E token branch key now with
  | (.error _, db) => { w with db := db }
  | (.ok found, db) =>
    -- what is there must be a counter, and the sum one that can be written
    match found.all (fun r => r.counter?.isSome), I64.ofInt? (counterValue found + increment) with
    | true, some n => { w with db := db }.write E token branch key n increment envelope now fresh
    | _, _ => { w with db := db }

/-- One event; a commit is never named by an id in use. -/
def step (E : Engine) (w : CounterWorld) : CounterEvent → CounterWorld
  | .branch token source name now => { w with db := (w.db.branch E token source name now).2 }
  | .add token branch key increment envelope now fresh =>
    if w.db.Unused fresh then w.add E token branch key increment envelope now fresh else w
  | .merge token source target policy envelope now fresh =>
    if w.db.Unused fresh then
      { w with db := (w.db.mergeChecked E token source target policy envelope (fun _ _ => none) now fresh).2 }
    else w

def run (E : Engine) (w : CounterWorld) (events : List CounterEvent) : CounterWorld := events.foldl (step E) w

def increment (w : CounterWorld) (key : Key) (id : CommitId) : Int :=
  ((w.increments.filter (fun x => x.1 = id ∧ x.2.1 = key)).map (fun x => x.2.2)).sum

/-- What all commits in the recorded history of a commit added to a counter. -/
def total (w : CounterWorld) (key : Key) (id : CommitId) : Int :=
  ∑ a ∈ (w.db.fullAncestors id).toFinset, w.increment key a

end CounterWorld

def Commit.entries (c : Commit) : Entries := ((Tree.openAt c.pages).scan).toOption.getD []

def LoomDb.counterAt (db : LoomDb) (id : CommitId) (key : Key) : Int :=
  counterValue ((db.commits[id]?.map Commit.entries).elim none (findEntry key))

theorem Commit.entries_of_holds {c : Commit} (h : c.pages.Holds m) : c.entries = m := by
  obtain ⟨pages, h⟩ := h
  rw [Commit.entries, h.scan]
  rfl

theorem LoomDb.Keeping.counterAt {db : LoomDb} {id : CommitId} (h : db.Keeping id m) (key : Key) :
    db.counterAt id key = counterValue (findEntry key m) := by
  obtain ⟨c, hc, hm⟩ := h
  rw [LoomDb.counterAt, hc, ← Commit.entries_of_holds hm]
  rfl

/-! When every increment counts. -/

/-- The sides of a merge agree on a counter only where neither moved it, and their
    differences to the base are in range. -/
def Apart (b s t : Int) : Prop := (s = t → s = b) ∧ InI64 (s - b) ∧ InI64 (t - b) ∧ InI64 (s + t - b)

instance (b s t : Int) : Decidable (Apart b s t) := inferInstanceAs (Decidable (_ ∧ _))

/-- A merge of two commits keeps the counters among `keys` apart. -/
def LoomDb.MergesApart (db : LoomDb) (keys : List Key) (source target : CommitId) : Prop :=
  match db.mergeBase? source target with
  | .error _ => True
  | .ok base => ∀ key ∈ keys, Apart (db.counterAt base key) (db.counterAt source key) (db.counterAt target key)

instance (db : LoomDb) (keys : List Key) (source target : CommitId) : Decidable (db.MergesApart keys source target) :=
  match h : db.mergeBase? source target with
  | .error _ => isTrue (by simp [LoomDb.MergesApart, h])
  | .ok base =>
    decidable_of_iff (∀ key ∈ keys, Apart (db.counterAt base key) (db.counterAt source key) (db.counterAt target key))
      (by simp [LoomDb.MergesApart, h])

namespace CounterWorld

/-- Counters are at the caller's keys, and merges keep those that were changed apart. -/
def Clean (w : CounterWorld) : CounterEvent → Prop
  | .branch _ _ _ _ => True
  | .add _ _ key _ _ _ _ => LoomDb.isCallerKey key = true
  | .merge _ source target _ _ _ _ =>
    match w.db.refs.branches[source]?, w.db.refs.branches[target]? with
    | some s, some t => w.db.MergesApart (w.increments.map (fun x => x.2.1)) s t
    | _, _ => True

instance (w : CounterWorld) (e : CounterEvent) : Decidable (w.Clean e) :=
  match e with
  | .branch _ _ _ _ => inferInstanceAs (Decidable True)
  | .add _ _ key _ _ _ _ => inferInstanceAs (Decidable (LoomDb.isCallerKey key = true))
  | .merge _ source target _ _ _ _ =>
    match h : w.db.refs.branches[source]?, h' : w.db.refs.branches[target]? with
    | some s, some t =>
      decidable_of_iff (w.db.MergesApart (w.increments.map (fun x => x.2.1)) s t) (by simp [Clean, h, h'])
    | some _, none => isTrue (by simp [Clean, h'])
    | none, _ => isTrue (by simp [Clean, h])

abbrev CleanRun (E : Engine) : CounterWorld → List CounterEvent → Prop := Along (step E) Clean

/-- What is there, stays there. -/
def StaysAt (key : Key) (m m' : Entries) : Prop := (findEntry key m).isSome → (findEntry key m').isSome

/-- What holds of one counter in every commit of a history from `root`. -/
structure Inv (root : CommitId) (key : Key) (init : Int) (w : CounterWorld) : Prop where
  lineage : LoomDb.Lineage (StaysAt key) root w.db
  counter : ∀ id m, w.db.Keeping id m →
    CounterLike (findEntry key m) ∧ counterValue (findEntry key m) = init + w.total key id
  born : ∀ x ∈ w.increments, x.1 ∈ w.db.commits

/-! Sums over histories. -/

section Inv

variable {w w' : CounterWorld} {root fresh id : CommitId} {key : Key} {init : Int} {a : CommitId}

theorem mem_ancestors : a ∈ (w.db.fullAncestors id).toFinset ↔ Anc w.db.parentsOf id a := by
  rw [mem_toFinset, mem_fullAncestors]

theorem total_congr (hanc : ∀ a, Anc w'.db.parentsOf id a ↔ Anc w.db.parentsOf id a)
    (hincr : ∀ a, Anc w.db.parentsOf id a → w'.increment key a = w.increment key a) :
    w'.total key id = w.total key id := by
  have hset : (w'.db.fullAncestors id).toFinset = (w.db.fullAncestors id).toFinset := by
    ext a
    rw [mem_ancestors, mem_ancestors, hanc]
  rw [total, total, hset]
  exact sum_congr rfl (fun a ha => hincr a (mem_ancestors.1 ha))

theorem total_new (hext : Extends w.db.parentsOf w'.db.parentsOf (· ∈ w.db.commits) fresh)
    (hknown : ∀ p ∈ w'.db.parentsOf fresh, p ∈ w.db.commits) {S : Finset CommitId}
    (hS : ∀ a, a ∈ S ↔ ∃ p ∈ w'.db.parentsOf fresh, Anc w.db.parentsOf p a)
    (hincr : ∀ a, a ≠ fresh → w'.increment key a = w.increment key a) :
    w'.total key fresh = w'.increment key fresh + ∑ a ∈ S, w.increment key a := by
  have hnew : fresh ∉ S := by
    rw [hS]
    rintro ⟨p, hp, hanc⟩
    exact hext.fresh (hanc.mem_of_closed (fun x _ => hext.closed x) (hknown p hp))
  have hset : (w'.db.fullAncestors fresh).toFinset = insert fresh S := by
    ext a
    rw [mem_ancestors, Finset.mem_insert, hS, hext.anc_new, eq_comm]
  rw [total, hset, sum_insert hnew]
  refine congrArg _ (sum_congr rfl (fun a ha => hincr a ?_))
  rintro rfl
  exact hnew ha

theorem total_of_parent {p : CommitId} (hext : Extends w.db.parentsOf w'.db.parentsOf (· ∈ w.db.commits) fresh)
    (hparents : w'.db.parentsOf fresh = [p]) (hp : p ∈ w.db.commits)
    (hincr : ∀ a, a ≠ fresh → w'.increment key a = w.increment key a) :
    w'.total key fresh = w.total key p + w'.increment key fresh := by
  rw [total_new hext (by simpa [hparents] using hp) (fun a => ?_) hincr, add_comm, total]
  rw [mem_ancestors, hparents]
  simp

/-- A merge commit has what its parents have, their common part once. -/
theorem total_of_merge {s t b : CommitId} (hranked : Ranked w.db.parentsOf)
    (hext : Extends w.db.parentsOf w'.db.parentsOf (· ∈ w.db.commits) fresh)
    (hparents : ∀ p, p ∈ w'.db.parentsOf fresh ↔ p = t ∨ p = s) (hs : s ∈ w.db.commits) (ht : t ∈ w.db.commits)
    (hb : Lowest w.db.parentsOf s t b) (hunique : ∀ c, Lowest w.db.parentsOf s t c → c = b)
    (hincr : ∀ a, a ≠ fresh → w'.increment key a = w.increment key a) (hzero : w'.increment key fresh = 0) :
    w'.total key fresh = w.total key s + w.total key t - w.total key b := by
  have hset : ∀ a, a ∈ (w.db.fullAncestors s).toFinset ∪ (w.db.fullAncestors t).toFinset ↔
      ∃ p ∈ w'.db.parentsOf fresh, Anc w.db.parentsOf p a := by
    intro a
    simp [mem_union, mem_fullAncestors, hparents, or_comm]
  rw [total_new hext (by simp [hparents, hs, ht]) hset hincr, hzero, zero_add, total, total, total]
  exact sum_union_of_unique hranked hb hunique (fun _ => mem_ancestors) (fun _ => mem_ancestors)
    (fun _ => mem_ancestors) _

/-! What keeps the invariant. -/

variable {m : Entries} {E : Engine} {A : AnnGraph} {event : LoomEvent} {db' : LoomDb}
  {increments : List (CommitId × Key × Int)}

section

variable (h : Inv root key init w)
include h

theorem Inv.stays (hanc : Anc w.db.parentsOf id a) {m' : Entries}
    (ha : w.db.Keeping a m) (hid : w.db.Keeping id m') : StaysAt key m m' :=
  h.lineage.of_anc (fun _ hm => hm) (fun _ _ _ hm hm' hsome => hm' (hm hsome)) hanc ha hid

/-- The commits that were there keep their totals; of a new one the total is to be shown. -/
theorem Inv.grow (hgrown : LoomDb.Grown E A w.db event db') (hnames : w.db.Names event)
    (hmakes : ∀ branch m', Makes E A w.db event branch m' → LoomDb.Furthers (StaysAt key) w.db event branch m')
    (hborn : ∀ x ∈ increments, x ∈ w.increments ∨ x.1 ∈ db'.commits)
    (hincr : ∀ a ∈ w.db.commits, increment ⟨db', increments⟩ key a = w.increment key a)
    (hnew : ∀ branch fresh head parents m', event.fresh? = some fresh → fresh ∈ db'.commits →
      w.db.refs.branches[branch]? = some head → LoomDb.Parents w.db event head parents → Makes E A w.db event branch m' →
      db'.parentsOf fresh = parents → Extends w.db.parentsOf db'.parentsOf (· ∈ w.db.commits) fresh →
      CounterLike (findEntry key m') ∧ counterValue (findEntry key m') = init + total ⟨db', increments⟩ key fresh) :
    Inv root key init ⟨db', increments⟩ := by
  have hsame : ∀ {id m}, w.db.Keeping id m → (∀ a, Anc db'.parentsOf id a ↔ Anc w.db.parentsOf id a) →
      CounterLike (findEntry key m) ∧ counterValue (findEntry key m) = init + total ⟨db', increments⟩ key id := by
    intro id m hm hanc
    have htotal : total ⟨db', increments⟩ key id = w.total key id :=
      total_congr hanc (fun a ha => hincr a (ha.mem_of_closed (fun x _ => h.lineage.graph.known x) hm.mem))
    rw [htotal]
    exact h.counter id m hm
  refine ⟨h.lineage.grow (fun _ hm => hm) (fun _ _ _ hm hm' hsome => hm' (hm hsome)) hgrown hnames hmakes, ?_,
    fun x hx => (hborn x hx).elim (fun hx => hgrown.mem (h.born x hx)) id⟩
  intro id m hm
  cases hgrown with
  | rewired hrewired =>
    exact hsame ((LoomDb.Keeping.congr hrewired.commits).1 hm) (fun a => hrewired.edges.anc)
  | @made branch fresh head parents c m' hfresh hhead hparents hmade hm' hcommitted =>
    have hknown := (h.lineage.born hhead hparents (hmakes branch m' hmade)).known
    have hext := h.lineage.graph.extends (hnames fresh hfresh) hknown hcommitted
    obtain ⟨c', hc', hm⟩ := hm
    have hins := hc'
    simp only [hcommitted.commits, SortedMap.getElem?_insert] at hins
    by_cases heq : fresh = id
    · rw [if_pos heq] at hins
      cases hins
      subst heq
      obtain rfl := Pages.Holds.unique hm hm'
      exact hnew branch fresh head parents m hfresh (SortedMap.mem_iff.2 ⟨c, hc'⟩) hhead hparents hmade
        (by rw [hcommitted.parentsOf, if_pos rfl]) hext
    · rw [if_neg heq] at hins
      exact hsame ⟨c', hins, hm⟩ (fun a => hext.anc_old (SortedMap.mem_iff.2 ⟨c', hins⟩))

theorem Inv.unmade (hstep : LoomDb.Stepped E A w.db event db') (honward : w.db.Onward event)
    (hnone : event.fresh? = none) : Inv root key init ⟨db', w.increments⟩ := by
  have hmakes : ∀ branch m', Makes E A w.db event branch m' → Furthers (StaysAt key) w.db event branch m' := by
    intro branch m' hmade
    cases hmade <;> cases hnone
  refine h.grow (h.lineage.grown hstep honward hmakes) (fun fresh hfresh => ?_) hmakes (fun x hx => .inl hx) (fun _ _ => rfl) ?_
  · rw [hnone] at hfresh
    cases hfresh
  · intro branch fresh head parents m' hfresh
    rw [hnone] at hfresh
    cases hfresh

theorem Inv.withReadSets (sets : BTreeMap SessionId ReadSet) :
    Inv root key init { w with db := { w.db with readSets := sets } } := by
  have hstep : LoomDb.Stepped plainEngine noGraph w.db (.openSession "" 0) { w.db with readSets := sets } := .same sets
  exact h.unmade hstep trivial rfl

end

/-! One event. -/

variable {n : I64} {ws : Entries} {key' : Key}

theorem Inv.increment_unused (h : Inv root key init w) (hunused : w.db.Unused fresh) : w.increment key fresh = 0 := by
  have hnil : w.increments.filter (fun x => x.1 = fresh ∧ x.2.1 = key) = [] := by
    refine filter_eq_nil_iff.2 (fun x hx hboth => ?_)
    have heq : x.1 = fresh := (of_decide_eq_true hboth).1
    exact hunused.1 (heq ▸ h.born x hx)
  rw [increment, hnil]
  rfl

theorem increment_cons (db' : LoomDb) (key' : Key) (n : Int) (a : CommitId) :
    increment ⟨db', (fresh, key', n) :: w.increments⟩ key a =
      (if fresh = a ∧ key' = key then n else 0) + w.increment key a := by
  unfold increment
  by_cases hboth : fresh = a ∧ key' = key
  · rw [if_pos hboth, List.filter_cons_of_pos (by simpa using hboth), List.map_cons, List.sum_cons]
  · rw [if_neg hboth, List.filter_cons_of_neg (by simpa using hboth), zero_add]

theorem findEntry_engine {k : Key} (hk : isCallerKey k = true) (hws : ∀ e ∈ ws, EngineKey e.1) :
    findEntry k (puts m ws) = findEntry k m :=
  findEntry_puts_of_not_mem (fun e he => (hws e he).ne_of_caller hk)

theorem findEntry_counter_write (hkey : isCallerKey key = true) (hws : ∀ e ∈ ws, EngineKey e.1) :
    findEntry key (puts m ([(key', .value (.counter n))] ++ ws)) =
      if key' = key then some (.value (.counter n)) else findEntry key m := by
  rw [puts_append, findEntry_engine hkey hws]
  refine (findEntry_putEntry key' key _ m).trans ?_
  split_ifs <;> rfl

theorem Inv.write (h : Inv root key init w) (E : Engine) (token : CapabilityToken) {branch : BranchId}
    {increment : Int} (envelope : WriteEnvelope) (now : Nat) (hkey : isCallerKey key = true)
    (hkey' : isCallerKey key' = true) (hunused : w.db.Unused fresh)
    (hn : ∀ m, w.db.HeadHolds branch m → n.val = counterValue (findEntry key' m) + increment) :
    Inv root key init (w.write E token branch key' n increment envelope now fresh) := by
  have hnames : w.db.Names (.write token branch [(key', .value (.counter n))] [] envelope now fresh) :=
    fun _ hfresh => Option.some.inj hfresh ▸ hunused
  have hfurthers : ∀ b m', Makes E noGraph w.db (.write token branch [(key', .value (.counter n))] [] envelope now fresh) b m' →
      Furthers (StaysAt key) w.db (.write token branch [(key', .value (.counter n))] [] envelope now fresh) b m' := by
    intro b m' hmade
    cases hmade with
    | write hhead hm =>
      refine furthers_kept hm (fun hsome => ?_)
        (memory_of_write (by simpa using hkey') (fun _ => engineKey_of_engineWrites)) rfl
      rw [findEntry_counter_write hkey (fun _ => engineKey_of_engineWrites)]
      split_ifs
      · rfl
      · exact hsome
  unfold CounterWorld.write
  rcases writeAll_cases E token branch [(key', .value (.counter n))] envelope [] [] now hunused with
    ⟨e, sets, hres⟩ | ⟨head, base, pages, commit, db1, hhead, hbase, hpub, hpages, hres⟩
  · rw [hres]
    exact h.withReadSets sets
  · rw [hres]
    obtain ⟨m, hm⟩ := h.lineage.sound head base hbase
    have hmem : head ∈ w.db.commits := h.lineage.graph.heads _ _ hhead
    have hne : ∀ {a}, a ∈ w.db.commits → a ≠ fresh := fun ha heq => hunused.1 (heq ▸ ha)
    cases hpub with
    | noop hsame =>
      simp only [if_neg (hne hmem)]
      refine h.grow (.rewired (LoomDb.rewired_heads rfl rfl (h.lineage.heads hmem))) hnames hfurthers
        (fun x hx => .inl hx) (fun _ _ => rfl) ?_
      intro _ _ _ _ _ hfresh hin
      exact absurd (Option.some.inj hfresh ▸ hin) hunused.1
    | new hdiffers =>
      simp only [if_true]
      have hmade : Makes E noGraph w.db (.write token branch [(key', .value (.counter n))] [] envelope now fresh) branch _ :=
        .write hhead ⟨head, base, hhead, hbase, hm⟩
      refine h.grow (.made rfl hhead (.inl ⟨rfl, rfl⟩) hmade (hpages m hm) ⟨rfl, rfl, fun b y => getElem?_insert_some⟩)
        hnames hfurthers (fun x hx => ?_) (fun a ha => ?_) ?_
      · rcases mem_cons.1 hx with rfl | hx
        · exact .inr (mem_insert.2 (.inl rfl))
        · exact .inl hx
      · rw [increment_cons, if_neg (fun hboth => hne ha hboth.1.symm), zero_add]
      · intro _ _ head' parents m' hfresh _ hhead' hparents hmade hpar hext
        cases hfresh
        obtain ⟨-, rfl⟩ | ⟨_, _, _, _, _, _, _, _, _, hevent, -⟩ := hparents
        · cases hmade with
          | write _ hm' =>
            obtain rfl := Option.mem_unique hhead hhead'
            obtain ⟨hlike, hvalue⟩ := h.counter head _ (hm'.keeping hhead)
            rw [total_of_parent hext hpar hmem (fun a ha => by
              rw [increment_cons, if_neg (fun hboth => ha hboth.1.symm), zero_add]), increment_cons, h.increment_unused hunused,
              findEntry_counter_write hkey (fun _ => engineKey_of_engineWrites)]
            by_cases heq : key' = key
            · have hsum := hn _ hm'
              rw [heq] at hsum
              rw [if_pos heq, if_pos ⟨rfl, heq⟩]
              refine ⟨.inr ⟨n, rfl⟩, ?_⟩
              show n.val = _
              omega
            · rw [if_neg heq, if_neg (fun hboth => heq hboth.2)]
              exact ⟨hlike, by omega⟩
        · cases hevent

theorem Inv.add (h : Inv root key init w) (E : Engine) (token : CapabilityToken) (branch : BranchId)
    (increment : Int) (envelope : WriteEnvelope) (now : Nat) (hkey : isCallerKey key = true)
    (hkey' : isCallerKey key' = true) (hunused : w.db.Unused fresh) :
    Inv root key init (w.add E token branch key' increment envelope now fresh) := by
  obtain ⟨⟨sets, hsets⟩, hfound⟩ := w.db.read_cases E token branch key' now
  have hread : Inv root key init { w with db := { w.db with readSets := sets } } :=
    h.withReadSets sets
  unfold CounterWorld.add
  rcases hres : w.db.read E token branch key' now with ⟨_ | found, db'⟩
  · rw [hres] at hsets
    cases hsets
    exact hread
  · rw [hres] at hsets hfound
    cases hsets
    obtain ⟨head, c, hhead, hc, hget⟩ := hfound found rfl
    have hvalue : ∀ m, w.db.HeadHolds branch m → findEntry key' m = found := by
      intro m hm
      obtain ⟨c', hc', ps, hholds⟩ := hm.keeping hhead
      obtain rfl := Option.mem_unique hc hc'
      exact ok_unique (hholds.get key') hget
    simp only
    cases found.all (fun r => r.counter?.isSome) with
    | false => exact hread
    | true =>
      cases hsum : I64.ofInt? (counterValue found + increment) with
      | none => exact hread
      | some n =>
        refine hread.write E token envelope now hkey hkey' hunused (fun m hm => ?_)
        rw [hvalue m hm]
        exact I64.ofInt?_eq_some.1 hsum

/-! A merge. -/

variable {sourceId : CommitId} {baseId targetId : CommitId} {cb cs ct : Commit} {b s t writes : Entries}
  {policy : MergePolicy} {source target : BranchId} {plan : LoomDb.MergePlan}

theorem findEntry_merged_counter {base side other : RecordPages} (hb : base.Holds b) (hs : side.Holds s) (ht : other.Holds t)
    {automatic : Nat} (hplan : planMerge base side other policy = .ok (.merged writes automatic)) (source : BranchId)
    (memory : Record) (hkey : isCallerKey key = true) (hcounter : CounterLike (findEntry key b))
    (hws : ∀ e ∈ ws, EngineKey e.1) :
    findEntry key (puts t (writes ++ [(mergedFromKey source, memory)] ++ ws)) =
      mergedRecord (decisionOf b s t policy key) (findEntry key t) := by
  have hmem : mergedFromKey source ≠ key := by
    rintro rfl
    simp [isCallerKey, mergedFromKey, isReserved_reservedKey] at hkey
  have hwrites := fun record => mem_writes_planMerge hb hs ht hplan (e := (key, record))
  rw [puts_append, findEntry_engine hkey hws, puts_append]
  rw [findEntry_puts_of_not_mem (by simpa using hmem), mergedRecord]
  cases hrecord : (decisionOf b s t policy key).record? with
  | none =>
    rw [Option.none_or]
    refine findEntry_puts_of_not_mem (fun e he heq => ?_)
    have hput := ((mem_writes_planMerge hb hs ht hplan).1 he).2
    rw [heq, hrecord] at hput
    cases hput
  | some record =>
    by_cases hcand : key ∈ candidates base side other
    · refine findEntry_puts_of_unique (fun e he heq => ?_) ⟨(key, record), (hwrites record).2 ⟨hcand, hrecord⟩, rfl⟩
      have hput := ((mem_writes_planMerge hb hs ht hplan).1 he).2
      rw [heq, hrecord] at hput
      exact (Option.some.inj hput).symm
    · -- a key at no page that differs has one record, and a counter equals itself
      have hreserved : isReserved key = false := by
        simp only [isCallerKey, Bool.and_eq_true, Bool.not_eq_true'] at hkey
        exact hkey.1
      obtain ⟨hsb, htb⟩ := same_of_not_candidate hb hs ht hreserved hcand
      rw [decisionOf, hsb, htb, decideMerge_same hcounter.regular] at hrecord
      cases hrecord

theorem total_of_untouched (hkey : key ∉ w.increments.map (fun x => x.2.1)) (id : CommitId) : w.total key id = 0 := by
  refine Finset.sum_eq_zero (fun a _ => ?_)
  have hnil : w.increments.filter (fun x => x.1 = a ∧ x.2.1 = key) = [] := by
    refine List.filter_eq_nil_iff.2 (fun x hx hboth => hkey ?_)
    exact List.mem_map.2 ⟨x, hx, (of_decide_eq_true hboth).2⟩
  rw [increment, hnil]
  rfl

theorem counterValue_inI64 (found : Option Record) : InI64 (counterValue found) := by
  unfold counterValue
  cases found.bind Record.counter? with
  | none => exact ⟨by decide, by decide⟩
  | some n => exact n.property

theorem Inv.apart (h : Inv root key init w) (hb : w.db.Keeping baseId b) (hs : w.db.Keeping sourceId s)
    (ht : w.db.Keeping targetId t) (hbase : w.db.mergeBase? sourceId targetId = .ok baseId)
    (hclean : w.db.MergesApart (w.increments.map (fun x => x.2.1)) sourceId targetId) :
    Apart (counterValue (findEntry key b)) (counterValue (findEntry key s)) (counterValue (findEntry key t)) := by
  by_cases hkey : key ∈ w.increments.map (fun x => x.2.1)
  · rw [MergesApart, hbase] at hclean
    have hkeys := hclean key hkey
    rwa [hb.counterAt, hs.counterAt, ht.counterAt] at hkeys
  · have hall : ∀ {id m}, w.db.Keeping id m → counterValue (findEntry key m) = init := by
      intro id m hm
      rw [(h.counter id m hm).2, total_of_untouched hkey, add_zero]
    have hrange := counterValue_inI64 (findEntry key b)
    rw [hall hb] at hrange
    rw [hall hb, hall hs, hall ht]
    have hzero : InI64 (init - init) := by
      rw [sub_self]
      exact ⟨by decide, by decide⟩
    exact ⟨fun _ => rfl, hzero, hzero, by rwa [add_sub_cancel_right]⟩

/-- The counter that a merge leaves: what both sides added to the base. -/
theorem Inv.merged_counter (h : Inv root key init w)
    (hplan : w.db.Planned source target policy plan targetId baseId cb cs ct writes) (hb : cb.pages.Holds b)
    (hs : cs.pages.Holds s) (ht : ct.pages.Holds t) (hkey : isCallerKey key = true)
    (hclean : w.db.MergesApart (w.increments.map (fun x => x.2.1)) plan.sourceHead targetId)
    (hws : ∀ e ∈ ws, EngineKey e.1) :
    CounterLike (findEntry key (puts t (plan.writes ++ ws))) ∧
      counterValue (findEntry key (puts t (plan.writes ++ ws))) =
        init + (w.total key plan.sourceHead + w.total key targetId - w.total key baseId) ∧
      StaysAt key t (puts t (plan.writes ++ ws)) ∧ StaysAt key s (puts t (plan.writes ++ ws)) := by
  have hkb : w.db.Keeping baseId b := ⟨cb, hplan.baseTree, hb⟩
  have hks : w.db.Keeping plan.sourceHead s := ⟨cs, hplan.sourceTree, hs⟩
  have hkt : w.db.Keeping targetId t := ⟨ct, hplan.targetTree, ht⟩
  obtain ⟨hlow, -⟩ := h.lineage.lowest hks.mem hkt.mem hplan.bases
  obtain ⟨hblike, hbvalue⟩ := h.counter baseId b hkb
  obtain ⟨hslike, hsvalue⟩ := h.counter plan.sourceHead s hks
  obtain ⟨htlike, htvalue⟩ := h.counter targetId t hkt
  obtain ⟨hequal, hsb, htb, hsum⟩ := h.apart hkb hks hkt hplan.bases hclean
  obtain ⟨hlike, hvalue, hsome⟩ := decideMerge_counter hblike hslike htlike
    (fun hsome => ⟨h.stays hlow.1.1 hkb hks hsome, h.stays hlow.1.2 hkb hkt hsome⟩) hequal hsb htb hsum key policy
  have hfind : findEntry key (puts t (plan.writes ++ ws)) = mergedRecord (decisionOf b s t policy key) (findEntry key t) := by
    rw [hplan.written]
    exact findEntry_merged_counter hb hs ht hplan.planned source _ hkey hblike hws
  unfold StaysAt
  rw [hfind, decisionOf]
  exact ⟨hlike, by omega, fun ht => hsome (.inr ht), fun hs => hsome (.inl hs)⟩

theorem Inv.merge (h : Inv root key init w) (E : Engine) (token : CapabilityToken) (policy : MergePolicy)
    (envelope : WriteEnvelope) (now : Nat) (hkey : isCallerKey key = true)
    (hclean : w.Clean (.merge token source target policy envelope now fresh)) (hunused : w.db.Unused fresh) :
    Inv root key init
      { w with db := (w.db.mergeChecked E token source target policy envelope (fun _ _ => none) now fresh).2 } := by
  have hnames : w.db.Names (.merge token source target policy envelope (fun _ _ => none) now fresh) :=
    fun _ hfresh => Option.some.inj hfresh ▸ hunused
  have hapart : ∀ {plan targetId baseId cb cs ct writes}, w.db.Planned source target policy plan targetId baseId cb cs ct writes →
      w.db.MergesApart (w.increments.map (fun x => x.2.1)) plan.sourceHead targetId := by
    intro plan targetId baseId cb cs ct writes hplan
    simpa only [Clean, hplan.sourceHead, hplan.targetHead] using hclean
  have hfurthers : ∀ b m', Makes E noGraph w.db (.merge token source target policy envelope (fun _ _ => none) now fresh) b m' →
      Furthers (StaysAt key) w.db (.merge token source target policy envelope (fun _ _ => none) now fresh) b m' := by
    intro b m' hmade
    cases hmade with
    | merge hplan hb hs ht =>
      obtain ⟨-, -, htarget, hsource⟩ := h.merged_counter hplan hb hs ht hkey (hapart hplan) (fun _ => engineKey_of_engineWrites)
      exact hplan.furthers hb hs ht (fun _ => engineKey_of_engineWrites) htarget hsource
  have hstep := step_cases E noGraph h.lineage.sound _ hnames
  refine h.grow (h.lineage.grown hstep trivial hfurthers) hnames hfurthers (fun x hx => .inl hx) (fun _ _ => rfl) ?_
  intro _ _ head parents m' hfresh _ hhead hparents hmade hpar hext
  cases hfresh
  cases hmade with
  | merge hplan hb hs ht =>
    obtain ⟨hkind, -⟩ | ⟨_, _, _, _, _, _, _, _, second, hevent, hsecond, hall⟩ := hparents
    · cases hkind
    · cases hevent
      obtain rfl := Option.mem_unique hplan.targetHead hhead
      obtain rfl := Option.mem_unique hplan.sourceHead hsecond
      obtain ⟨hlike, hvalue, -⟩ := h.merged_counter hplan hb hs ht hkey (hapart hplan) (fun _ => engineKey_of_engineWrites)
      have hsmem := h.lineage.graph.heads _ _ hsecond
      have htmem := h.lineage.graph.heads _ _ hhead
      obtain ⟨hlow, hunique⟩ := h.lineage.lowest hsmem htmem hplan.bases
      refine ⟨hlike, hvalue.trans (congrArg (init + ·) (total_of_merge h.lineage.graph.ranked hext ?_ hsmem htmem hlow
        hunique (fun _ _ => ?_) ?_).symm)⟩
      · rw [hpar]
        exact hall
      · rfl
      · exact h.increment_unused hunused

/-- Merging what was merged leaves the counter. -/
theorem Inv.merge_again (h : Inv root key init w) (E : Engine) (token : CapabilityToken) (policy : MergePolicy)
    (envelope : WriteEnvelope) (now : Nat) (hkey : isCallerKey key = true) {head : CommitId}
    (hunused : w.db.Unused fresh) (hsource : w.db.refs.branches[source]? = some sourceId)
    (htarget : w.db.refs.branches[target]? = some targetId) (hanc : Anc w.db.parentsOf targetId sourceId)
    (hhead : (w.db.mergeChecked E token source target policy envelope (fun _ _ => none) now fresh).2.refs.branches[target]? =
      some head) :
    (w.db.mergeChecked E token source target policy envelope (fun _ _ => none) now fresh).2.counterAt head key =
      w.db.counterAt targetId key := by
  have hnames : w.db.Names (.merge token source target policy envelope (fun _ _ => none) now fresh) :=
    fun _ hfresh => Option.some.inj hfresh ▸ hunused
  have hstep := step_cases E noGraph h.lineage.sound _ hnames
  have heffect := hstep.effect hnames trivial h.lineage.graph.heads
  cases heffect with
  | same hbranches hcommits =>
    obtain rfl := Option.some.inj (htarget.symm.trans ((congrArg (·[target]?) hbranches).symm.trans hhead))
    exact congrArg counterValue (congrArg (fun m => (m[targetId]?.map Commit.entries).elim none (findEntry key)) hcommits)
  | advanced hmakes hadvanced =>
    cases hmakes with
    | merge hplan hb hs ht =>
      obtain rfl := Option.mem_unique hplan.sourceHead hsource
      obtain rfl := Option.mem_unique hplan.targetHead htarget
      have hks : w.db.Keeping _ _ := ⟨_, hplan.sourceTree, hs⟩
      have hkt : w.db.Keeping _ _ := ⟨_, hplan.targetTree, ht⟩
      obtain ⟨hlow, -⟩ := h.lineage.lowest hks.mem hkt.mem hplan.bases
      -- the source is the base, so it has nothing the target has not
      obtain rfl := hlow.2 _ (.refl _ _) hanc hlow.1.1
      obtain rfl := hks.unique ⟨_, hplan.baseTree, hb⟩
      obtain ⟨hlike, -⟩ := h.counter _ _ hks
      refine ((hadvanced.head.keeping hhead).counterAt key).trans ?_
      rw [hkt.counterAt, hplan.written, findEntry_merged_counter hb hs ht hplan.planned source _ hkey hlike
        (fun _ => engineKey_of_engineWrites), mergedRecord, decisionOf, decideMerge_unchanged hlike.regular, Option.none_or]
  | created hevent => rcases hevent with ⟨_, _, hevent⟩ | ⟨-, _, hevent⟩ <;> cases hevent
  | moved hevent => cases hevent

/-! Runs. -/

theorem Inv.step (h : Inv root key init w) (E : Engine) (hkey : isCallerKey key = true) {e : CounterEvent}
    (hclean : w.Clean e) : Inv root key init (w.step E e) := by
  cases e with
  | branch token source name now =>
    exact h.unmade (step_cases E noGraph h.lineage.sound (.branch token source name now) (fun _ hfresh => by cases hfresh))
      trivial rfl
  | add token branch key' increment envelope now fresh =>
    simp only [CounterWorld.step]
    by_cases hunused : w.db.Unused fresh
    · rw [if_pos hunused]
      exact h.add E token branch increment envelope now hkey hclean hunused
    · rw [if_neg hunused]
      exact h
  | merge token source target policy envelope now fresh =>
    simp only [CounterWorld.step]
    by_cases hunused : w.db.Unused fresh
    · rw [if_pos hunused]
      exact h.merge E token policy envelope now hkey hclean hunused
    · rw [if_neg hunused]
      exact h

theorem Inv.run (h : Inv root key init w) (E : Engine) (hkey : isCallerKey key = true)
    {events : List CounterEvent} (hclean : CleanRun E w events) : Inv root key init (w.run E events) :=
  Along.keeps hclean h (fun _ _ he h => h.step E hkey he)

def start (tenant : String) (root : CommitId) (pages : RecordPages) : CounterWorld :=
  ⟨LoomDb.create tenant root pages, []⟩

theorem inv_start (tenant : String) (root : CommitId) {pages : RecordPages} (hm : pages.Holds m)
    (hkeys : ∀ e ∈ m, isCallerKey e.1 = true) (hcounter : CounterLike (findEntry key m)) :
    Inv root key (counterValue (findEntry key m)) (start tenant root pages) := by
  refine ⟨lineage_create tenant root hm hkeys, ?_, fun x hx => by cases hx⟩
  rintro id m' ⟨c, hc, hm'⟩
  rw [(create_commits hc).2] at hm'
  obtain rfl := Pages.Holds.unique hm' hm
  refine ⟨hcounter, ?_⟩
  rw [total_of_untouched (by simp [CounterWorld.start]), add_zero]

end Inv

/-- On a branch of any clean history a counter is its initial value and what the
    recorded ancestors of the head added, each once; and merging a branch again,
    whose head is among them, does not change it. -/
theorem counter_counts_once (E : Engine) (tenant : String) (root : CommitId) (pages : RecordPages)
    (m : Entries) (hm : pages.Holds m) (hkeys : ∀ e ∈ m, LoomDb.isCallerKey e.1 = true)
    (events : List CounterEvent) (hclean : CleanRun E (start tenant root pages) events) (key : Key)
    (hkey : LoomDb.isCallerKey key = true) (hcounter : CounterLike (findEntry key m)) (branch : BranchId)
    (head : CommitId) (hhead : ((start tenant root pages).run E events).db.refs.branches[branch]? = some head) :
    let w := (start tenant root pages).run E events
    w.db.counterAt head key = counterValue (findEntry key m) + w.total key head ∧
      ∀ token source policy envelope now fresh sourceHead head',
        w.db.refs.branches[source]? = some sourceHead → sourceHead ∈ w.db.fullAncestors head →
        (w.step E (.merge token source branch policy envelope now fresh)).db.refs.branches[branch]? = some head' →
        (w.step E (.merge token source branch policy envelope now fresh)).db.counterAt head' key =
          w.db.counterAt head key := by
  intro w
  have hinv : Inv root key (counterValue (findEntry key m)) w := (inv_start tenant root hm hkeys hcounter).run E hkey hclean
  obtain ⟨m', hm'⟩ := hinv.lineage.keeping (hinv.lineage.graph.heads branch head hhead)
  refine ⟨?_, ?_⟩
  · rw [hm'.counterAt]
    exact (hinv.counter head m' hm').2
  · intro token source policy envelope now fresh sourceHead head' hsource hanc hhead'
    simp only [step] at hhead' ⊢
    by_cases hunused : w.db.Unused fresh
    · rw [if_pos hunused] at hhead' ⊢
      exact hinv.merge_again E token policy envelope now hkey hunused hsource hhead (mem_fullAncestors.1 hanc) hhead'
    · rw [if_neg hunused] at hhead' ⊢
      rw [Option.mem_unique hhead hhead']

/-! Two histories. -/

def counterKey : Key := [0x61]

def tenRecord : Record := .value (.counter (I64.lit 10))

def tenPages : RecordPages := (Pages.empty.after plainSizing [.insert counterKey tenRecord]).toOption.getD Pages.empty

theorem tenPages_holds : tenPages.Holds [(counterKey, tenRecord)] := by
  obtain ⟨pages, hpages, hholds⟩ := Pages.Holds.empty.after plainSizing [.insert counterKey tenRecord]
  rw [tenPages, hpages]
  exact hholds

def plainToken : CapabilityToken := issue plainEngine "t" "s" ["a", "main"] 100

def plainEnvelope : WriteEnvelope := ⟨"u", "s", "main", 1, [], [], "count", none, [0]⟩

/-- A branch adds one number, `main` another, and the branch is merged. -/
def twoIncrements (n n' : Int) : List CounterEvent :=
  [.branch plainToken "main" "a" 0, .add plainToken "a" counterKey n plainEnvelope 0 2,
    .add plainToken "main" counterKey n' plainEnvelope 0 3, .merge plainToken "a" "main" .conflict plainEnvelope 0 4]

/-- 3 and 4 added to 10 on two branches are 17 after the merge. -/
theorem counter_counts_unequal_increments : let w := (start "t" 1 tenPages).run plainEngine (twoIncrements 3 4)
    w.total counterKey 4 = 7 ∧ w.db.counterAt 4 counterKey = counterValue (some tenRecord) + w.total counterKey 4 := by
  have hclean : CleanRun plainEngine (start "t" 1 tenPages) (twoIncrements 3 4) := by decide +kernel
  have hhead : ((start "t" 1 tenPages).run plainEngine (twoIncrements 3 4)).db.refs.branches["main"]? = some 4 := by
    decide +kernel
  refine ⟨by decide +kernel, ?_⟩
  exact (counter_counts_once plainEngine "t" 1 tenPages _ tenPages_holds (by decide) _ hclean counterKey (by decide)
    (.inr ⟨_, rfl⟩) "main" 4 hhead).1

/-- 3 added on each of two branches is 3 after the merge. -/
theorem counter_loses_equal_increments : let w := (start "t" 1 tenPages).run plainEngine (twoIncrements 3 3)
    (w.db.refs.branches["main"]?, w.db.counterAt 4 counterKey, w.total counterKey 4) = (some 4, 13, 6) := by
  decide +kernel

end CounterWorld

end Mutiny.Loom
