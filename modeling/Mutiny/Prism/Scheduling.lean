import Mutiny.Prism.Engine

/- The merge scheduler over a cycle, and over runs of cycles.

   Admission loses no ripe merge: the ops admitted, those still queued and those
   turned away are the ripe ones in another order (`Admission.Holds`), and one is
   turned away only when the ripe ones together overrun a budget. The cheapest op of
   a bucket is admitted if it fits with the cheapest of the buckets before it (`turn`),
   whatever else these hold. So over a run of cycles a ripe tier waits for those of
   its own bucket that are cheaper, and for a cycle in which the cheapest of the
   buckets up to it fit (`merges_bounded_and_fair`).
   Nothing makes such a cycle come: the admission starts at the same bucket every
   time, and a tier of more rows than the budget is turned away by itself. -/
namespace Mutiny.Prism.Engine
open Mutiny.Lib SortedMap PartRef Admission List

/-! Ripe tiers. -/

variable (parts : List PartRef) (key : PartitionKey) (tier : Nat)

def tierParts : List PartRef :=
  (parts.filter (fun p => p.partition = key)).filter (fun p => tierOf p.rows = tier)

def tierOp : MergeOp :=
  ⟨describe key, tier, ((tierParts parts key tier).map PartRef.partId).insertionSort (· ≤ ·),
    ((tierParts parts key tier).map PartRef.rows).sum, mergeReason tier (tierParts parts key tier).length⟩

def Ripe : Prop :=
  mergeTierFanout ≤ (tierParts parts key tier).length

def Selected : Prop :=
  tierOp parts key tier ∈ (planMerges parts).ops

/-- The merges of the ripe tiers, each with its bucket. -/
def tagged : List (Nat × MergeOp) :=
  (SortedMap.group PartRef.partition parts).toList.flatMap
    (fun kp => (ripeOps kp.1 kp.2).map (fun op => (kp.1.bucket.id, op)))

def ripe : List MergeOp := (tagged parts).map Prod.snd

/-- The ripe tiers of a bucket, the cheapest first. -/
def bucketQueue (bucket : Nat) : List MergeOp :=
  (((tagged parts).filter (fun t => t.1 = bucket)).map Prod.snd).insertionSort
    (fun a b => toLex (a.inputRows, a.partition) ≤ toLex (b.inputRows, b.partition))

/-- The buckets that have a ripe tier, in their order. -/
def buckets : List Nat := (SortedMap.group Prod.fst (tagged parts)).keys

/-- What has its turn up to the first op of a bucket: the first op of each bucket before it as well. -/
def turn (bucket : Nat) : List MergeOp :=
  ((buckets parts).filter (· ≤ bucket)).flatMap (fun b => (bucketQueue parts b).take 1)

/-- The tier whose merge is first in its bucket. -/
def First : Prop :=
  (bucketQueue parts key.bucket.id).head? = some (tierOp parts key tier)

theorem ripe_eq :
    ripe parts = (SortedMap.group PartRef.partition parts).toList.flatMap (fun kp => ripeOps kp.1 kp.2) := by
  simp [ripe, tagged, List.map_flatMap, Function.comp_def]

variable {parts key tier} {op : MergeOp}

theorem mem_tagged {bucket : Nat} : (bucket, op) ∈ tagged parts ↔
    ∃ key tier, Ripe parts key tier ∧ key.bucket.id = bucket ∧ op = tierOp parts key tier := by
  unfold tagged ripeOps
  simp only [List.mem_flatMap, List.mem_map, List.mem_filterMap, Prod.exists, SortedMap.mem_toList,
    Option.ite_none_right_eq_some, Option.some.injEq, Prod.mk.injEq]
  constructor
  · rintro ⟨key, members, hkey, _, ⟨tier, refs, htier, hripe, rfl⟩, rfl, rfl⟩
    obtain ⟨hrefs, -⟩ := SortedMap.getElem?_group.1 htier
    obtain ⟨hmembers, -⟩ := SortedMap.getElem?_group.1 hkey
    obtain rfl : tierParts parts key tier = refs := by
      rw [hrefs, hmembers, tierParts]
      congr!
    exact ⟨key, tier, hripe, rfl, rfl⟩
  · rintro ⟨key, tier, hripe, rfl, rfl⟩
    have hne : tierParts parts key tier ≠ [] := by
      intro hnil
      rw [Ripe, hnil] at hripe
      exact absurd hripe (by decide)
    have hkey : parts.filter (fun p => p.partition = key) ≠ [] := fun hnil => hne (by rw [tierParts, hnil]; rfl)
    exact ⟨key, _, SortedMap.getElem?_group.2 ⟨by congr!, hkey⟩, _, ⟨tier, _,
      SortedMap.getElem?_group.2 ⟨rfl, hne⟩, hripe, rfl⟩, rfl, rfl⟩

theorem mem_ripe : op ∈ ripe parts ↔ ∃ key tier, Ripe parts key tier ∧ op = tierOp parts key tier := by
  simp only [ripe, mem_map, Prod.exists, exists_eq_right, mem_tagged]
  exact ⟨fun ⟨_, key, tier, hripe, _, hop⟩ => ⟨key, tier, hripe, hop⟩,
    fun ⟨key, tier, hripe, hop⟩ => ⟨_, key, tier, hripe, rfl, hop⟩⟩

theorem mem_tierOp {id : PartId} :
    id ∈ (tierOp parts key tier).partIds ↔ ∃ r ∈ tierParts parts key tier, r.partId = id := by
  rw [tierOp, (perm_insertionSort _ _).mem_iff, mem_map]

theorem mem_tierParts {r : PartRef} :
    r ∈ tierParts parts key tier ↔ r ∈ parts ∧ r.partition = key ∧ tierOf r.rows = tier := by
  rw [tierParts, mem_filter, mem_filter, decide_eq_true_iff, decide_eq_true_iff, and_assoc]

/-- A list cut into groups of which only some are taken has all that was taken. -/
theorem subperm_groups {α κ δ : Type} [LinearOrder κ] (f : α → κ) (xs : List α) (id : α → δ)
    (take : κ × List α → List δ) (htake : ∀ g, (take g).Subperm (g.2.map id)) :
    ((group f xs).toList.flatMap take).Subperm (xs.map id) := by
  have hall : ∀ gs : List (κ × List α), (gs.flatMap take).Subperm ((gs.flatMap Prod.snd).map id) := by
    intro gs
    induction gs with
    | nil => exact List.Subperm.refl _
    | cons g gs ih =>
      rw [flatMap_cons, flatMap_cons, map_append]
      exact (htake g).append ih
  exact (hall _).trans ((perm_group f xs).map id).subperm

theorem ripe_subperm (parts : List PartRef) : ((ripe parts).flatMap MergeOp.partIds).Subperm (parts.map partId) := by
  rw [ripe_eq, flatMap_assoc]
  refine subperm_groups _ parts partId _ (fun kp => ?_)
  rw [ripeOps, filterMap_eq_flatMap_toList, flatMap_assoc]
  refine subperm_groups _ kp.2 partId _ (fun tp => ?_)
  split
  · simpa using (perm_insertionSort (· ≤ ·) (tp.2.map partId)).subperm
  · exact nil_subperm

/-! Admission. -/

variable {n : Nat}

def Fits (ops : List MergeOp) : Prop :=
  ops.length ≤ mergeMaxOps ∧ (ops.map MergeOp.inputRows).sum ≤ mergeIoBudgetRows

theorem Fits.subperm {ops ops' : List MergeOp} (h : Fits ops) (hsub : ops'.Subperm ops) : Fits ops' := by
  obtain ⟨l, hperm, hl⟩ := hsub
  obtain ⟨hlen, hrows⟩ := h
  refine ⟨hperm.length_eq ▸ hl.length_le.trans hlen, ?_⟩
  rw [← (hperm.map _).sum_eq]
  exact (List.Sublist.sum_le_sum (hl.map _) (by simp)).trans hrows

theorem Fits.perm {ops ops' : List MergeOp} (h : Fits ops) (hperm : ops.Perm ops') : Fits ops' :=
  h.subperm hperm.symm.subperm

/-- All that was ripe is admitted, still queued or turned away, and nothing is
    turned away that would have fitted. -/
structure Admission.Holds (all left dropped : List MergeOp) (a : Admission) : Prop where
  perm : (a.ops ++ left ++ dropped).Perm all
  fits : Fits a.ops
  spent : a.ioSpent = (a.ops.map MergeOp.inputRows).sum
  deferred : a.deferred = dropped.length
  full : dropped ≠ [] → ¬ Fits all

variable {all left left' dropped q : List MergeOp} {a : Admission}

theorem Admission.Holds.reorder (h : a.Holds all left dropped) (hperm : left'.Perm left) : a.Holds all left' dropped :=
  ⟨((hperm.append_left _).append_right _).trans h.perm, h.fits, h.spent, h.deferred, h.full⟩

theorem Admission.Holds.take (h : a.Holds all (op :: left) dropped)
    (hroom : ¬ (mergeMaxOps ≤ a.ops.length ∨ mergeIoBudgetRows < a.ioSpent + op.inputRows)) :
    Holds all left dropped ⟨a.ops ++ [op], a.ioSpent + op.inputRows, a.deferred⟩ := by
  have hspent := h.spent
  refine ⟨by simpa using h.perm, ⟨?_, ?_⟩, ?_, h.deferred, h.full⟩
  · rw [length_append, length_singleton]
    omega
  · rw [map_append, sum_append, map_singleton, sum_singleton]
    omega
  · simp [hspent]

theorem Admission.Holds.drop (h : a.Holds all (op :: q ++ left) dropped)
    (hfull : mergeMaxOps ≤ a.ops.length ∨ mergeIoBudgetRows < a.ioSpent + op.inputRows) :
    Holds all left (op :: q ++ dropped) { a with deferred := a.deferred + 1 + q.length } := by
  refine ⟨?_, h.fits, h.spent, ?_, fun _ hfits => ?_⟩
  · refine List.Perm.trans ?_ h.perm
    rw [append_assoc, append_assoc, append_assoc]
    exact (perm_append_comm_assoc left (op :: q) dropped).append_left _
  · simp only [h.deferred, length_append, length_cons]
    omega
  · obtain ⟨hlen, hrows⟩ := hfits.perm h.perm.symm
    have hspent := h.spent
    simp only [length_append, length_cons, map_append, map_cons, sum_append,
      sum_cons] at hlen hrows
    omega

/-- A round moves ops from the queues to the admitted or the turned away. -/
theorem Admission.Holds.round (queues : List (List MergeOp)) (a : Admission) (others : List MergeOp)
    (h : a.Holds all (others ++ queues.flatten) dropped) :
    ∃ dropped', (admitRound queues a).2.Holds all (others ++ (admitRound queues a).1.flatten) dropped' := by
  fun_induction admitRound queues a generalizing others dropped with
  | case1 a => exact ⟨dropped, h⟩
  | case2 queues a rest a' hrec ih =>
    rw [hrec] at ih
    exact ih others h
  | case3 op q queues a hfull rest a' hrec ih =>
    rw [hrec] at ih
    refine ih others (Holds.drop (h.reorder ?_) hfull)
    exact perm_append_comm_assoc (op :: q) others queues.flatten
  | case4 op q queues a hroom rest a' hrec ih =>
    rw [hrec] at ih
    have hnext : (op :: (others ++ q ++ queues.flatten)).Perm (others ++ List.flatten ((op :: q) :: queues)) := by
      simpa using perm_middle.symm
    obtain ⟨dropped', hholds⟩ := ih (others ++ q) ((h.reorder hnext).take hroom)
    exact ⟨dropped', by simpa using hholds⟩

theorem length_admitRound (queues : List (List MergeOp)) (a : Admission) (h : ∀ q ∈ queues, q.length ≤ n + 1) :
    ∀ q ∈ (admitRound queues a).1, q.length ≤ n := by
  fun_induction admitRound queues a with
  | case1 a => simp
  | case2 queues a rest a' hrec ih | case3 op q queues a hfull rest a' hrec ih =>
    rw [hrec] at ih
    exact forall_mem_cons.2 ⟨Nat.zero_le n, ih (forall_mem_cons.1 h).2⟩
  | case4 op q queues a hroom rest a' hrec ih =>
    rw [hrec] at ih
    exact forall_mem_cons.2 ⟨Nat.le_of_succ_le_succ (forall_mem_cons.1 h).1, ih (forall_mem_cons.1 h).2⟩

theorem Admission.Holds.rounds {fuel : Nat} {queues : List (List MergeOp)} (h : a.Holds all queues.flatten dropped)
    (hfuel : ∀ q ∈ queues, q.length ≤ fuel) : ∃ dropped', (admitRounds fuel queues a).Holds all [] dropped' := by
  induction fuel generalizing queues a dropped with
  | zero =>
    have hnil : queues.flatten = [] := by simpa using hfuel
    exact ⟨dropped, hnil ▸ h⟩
  | succ fuel ih =>
    rw [admitRounds]
    split
    · next hempty =>
      have hnil : queues.flatten = [] := by simpa using hempty
      exact ⟨dropped, hnil ▸ h⟩
    · obtain ⟨dropped', hround⟩ := Holds.round queues a [] h
      exact ih hround (length_admitRound queues a hfuel)

/-! The order of the rounds. -/

variable {queues front back : List (List MergeOp)}

theorem mem_admitRound (h : op ∈ a.ops) : op ∈ (admitRound queues a).2.ops := by
  fun_induction admitRound queues a with
  | case1 a => exact h
  | case2 queues a rest a' hrec ih | case3 op' q queues a hfull rest a' hrec ih =>
    rw [hrec] at ih
    exact ih h
  | case4 op' q queues a hroom rest a' hrec ih =>
    rw [hrec] at ih
    exact ih (mem_append_left _ h)

theorem mem_admitRounds {fuel : Nat} (h : op ∈ a.ops) : op ∈ (admitRounds fuel queues a).ops := by
  induction fuel generalizing queues a with
  | zero => exact h
  | succ fuel ih =>
    rw [admitRounds]
    split
    · exact h
    · exact ih (mem_admitRound h)

/-- A queue whose first op has room. -/
theorem admitRound_take (hspent : a.ioSpent = (a.ops.map MergeOp.inputRows).sum) (hfits : Fits (a.ops ++ [op])) :
    admitRound ((op :: q) :: queues) a =
      (q :: (admitRound queues ⟨a.ops ++ [op], a.ioSpent + op.inputRows, a.deferred⟩).1,
        (admitRound queues ⟨a.ops ++ [op], a.ioSpent + op.inputRows, a.deferred⟩).2) := by
  have hroom : ¬ (mergeMaxOps ≤ a.ops.length ∨ mergeIoBudgetRows < a.ioSpent + op.inputRows) := by
    obtain ⟨hlen, hrows⟩ := hfits
    simp only [length_append, length_singleton, map_append, map_singleton, sum_append, sum_singleton] at hlen hrows
    omega
  rw [admitRound, if_neg hroom]

theorem mem_admitRound_of_fits (hspent : a.ioSpent = (a.ops.map MergeOp.inputRows).sum)
    (hfits : Fits (a.ops ++ front.flatMap (take 1) ++ [op])) :
    op ∈ (admitRound (front ++ (op :: q) :: back) a).2.ops := by
  induction front generalizing a with
  | nil =>
    rw [nil_append, admitRound_take hspent (by simpa using hfits)]
    exact mem_admitRound (by simp)
  | cons f front ih =>
    cases f with
    | nil =>
      rw [cons_append, admitRound]
      exact ih hspent hfits
    | cons first f =>
      rw [flatMap_cons, take_succ_cons, take_zero, ← append_assoc] at hfits
      rw [cons_append, admitRound_take hspent (hfits.subperm ?_)]
      · exact ih (by simp [hspent]) hfits
      · rw [append_assoc]
        exact (sublist_append_left _ _).subperm

/-- The queues the rounds start from. -/
theorem queues_eq (parts : List PartRef) :
    (group Prod.fst (tagged parts)).toList.map (fun bucket => (bucket.2.map Prod.snd).insertionSort
        (fun a b => toLex (a.inputRows, a.partition) ≤ toLex (b.inputRows, b.partition))) =
      (buckets parts).map (bucketQueue parts) := by
  rw [buckets, ← Std.ExtTreeMap.map_fst_toList_eq_keys, map_map]
  refine map_congr_left (fun bucket hbucket => ?_)
  obtain ⟨heq, -⟩ := getElem?_group.1 (SortedMap.mem_toList.1 hbucket)
  rw [heq]
  rfl

theorem planMerges_eq (parts : List PartRef) :
    let a := admitRounds (tagged parts).length ((buckets parts).map (bucketQueue parts)) ⟨[], 0, 0⟩
    (planMerges parts).ops = a.ops ∧ (planMerges parts).deferredOps = a.deferred := by
  rw [← queues_eq]
  exact ⟨rfl, rfl⟩

theorem queues_perm (parts : List PartRef) : ((buckets parts).map (bucketQueue parts)).flatten.Perm (ripe parts) := by
  rw [← queues_eq, ← flatMap_def]
  refine (Perm.flatMap_left _ (fun bucket _ => perm_insertionSort _ _)).trans ?_
  rw [← map_flatMap]
  exact (perm_group Prod.fst (tagged parts)).map Prod.snd

theorem length_queue (parts : List PartRef) :
    ∀ q ∈ (buckets parts).map (bucketQueue parts), q.length ≤ (tagged parts).length := by
  intro q hq
  rw [← length_map Prod.snd, ← ripe, ← (queues_perm parts).length_eq]
  exact (sublist_flatten_of_mem hq).length_le

/-- What a plan is: merges that fit, taken from the ripe ones, and the count of
    the others, of which there are none if the ripe ones fit together. -/
theorem planMerges_holds (parts : List PartRef) : ∃ dropped, ((planMerges parts).ops ++ dropped).Perm (ripe parts) ∧
    Fits (planMerges parts).ops ∧ (planMerges parts).deferredOps = dropped.length ∧
    (dropped ≠ [] → ¬ Fits (ripe parts)) := by
  have hperm := queues_perm parts
  have hstart : Holds (ripe parts) ((buckets parts).map (bucketQueue parts)).flatten [] ⟨[], 0, 0⟩ :=
    ⟨by simpa using hperm, ⟨Nat.zero_le _, Nat.zero_le _⟩, rfl, rfl, by simp⟩
  obtain ⟨dropped, h⟩ := hstart.rounds (length_queue parts)
  have hall := h.perm
  rw [append_nil] at hall
  obtain ⟨hops, hdeferred⟩ := planMerges_eq parts
  rw [hops, hdeferred]
  exact ⟨dropped, hall, h.fits, h.deferred, h.full⟩

theorem mem_buckets {bucket : Nat} (h : op ∈ bucketQueue parts bucket) : bucket ∈ buckets parts := by
  rw [bucketQueue, mem_insertionSort, mem_map] at h
  obtain ⟨t, ht, -⟩ := h
  rw [buckets, Std.ExtTreeMap.mem_keys, mem_iff]
  exact ⟨_, getElem?_group.2 ⟨rfl, ne_nil_of_mem ht⟩⟩

/-- The first op of a bucket is selected if it has its turn while everything fits. -/
theorem planned_of_turn {bucket : Nat} (hop : (bucketQueue parts bucket).head? = some op)
    (hfits : Fits (turn parts bucket)) : op ∈ (planMerges parts).ops := by
  obtain ⟨q, hq⟩ := head?_eq_some_iff.1 hop
  have hmem : bucket ∈ buckets parts := mem_buckets (hq ▸ mem_cons_self)
  have hfuel := length_queue parts _ (mem_map_of_mem hmem)
  rw [hq, length_cons] at hfuel
  have hsorted : (buckets parts).Pairwise (· < ·) := by
    rw [buckets, ← Std.ExtTreeMap.map_fst_toList_eq_keys, pairwise_map]
    exact sorted_toList _
  obtain ⟨front, back, heq⟩ := append_of_mem hmem
  rw [heq, pairwise_append, pairwise_cons] at hsorted
  obtain ⟨-, ⟨hback, -⟩, hfront⟩ := hsorted
  have hturn : turn parts bucket = (front.map (bucketQueue parts)).flatMap (take 1) ++ [op] := by
    have hbefore : front.filter (· ≤ bucket) = front :=
      filter_eq_self.2 (fun b hb => by simpa using (hfront b hb bucket mem_cons_self).le)
    have hbehind : back.filter (· ≤ bucket) = [] := filter_eq_nil_iff.2 (fun b hb => by simpa using hback b hb)
    rw [turn, heq, filter_append, filter_cons_of_pos (by simp), hbefore, hbehind, flatMap_append, flatMap_map]
    simp [hq]
  rw [(planMerges_eq parts).1, heq, map_append, map_cons, hq]
  obtain ⟨fuel, hfuel⟩ := Nat.exists_eq_add_of_le' hfuel
  rw [hfuel, ← Nat.add_assoc, admitRounds, if_neg (by simp)]
  exact mem_admitRounds (mem_admitRound_of_fits rfl (by simpa [hturn] using hfits))

theorem ripe_of_planned (h : op ∈ (planMerges parts).ops) :
    ∃ key tier, Ripe parts key tier ∧ op = tierOp parts key tier := by
  obtain ⟨dropped, hperm, -⟩ := planMerges_holds parts
  exact mem_ripe.1 (hperm.subset (mem_append_left dropped h))

theorem planMerges_partition (h : op ∈ (planMerges parts).ops) :
    ∃ key, ∀ id ∈ op.partIds, ∃ r ∈ parts, r.partId = id ∧ r.partition = key := by
  obtain ⟨key, tier, -, rfl⟩ := ripe_of_planned h
  refine ⟨key, fun id hid => ?_⟩
  obtain ⟨r, hr, rfl⟩ := mem_tierOp.1 hid
  obtain ⟨hpart, hkey, -⟩ := mem_tierParts.1 hr
  exact ⟨r, hpart, rfl, hkey⟩

/-! Runs of cycles. -/

variable {run : Nat → List PartRef}

def surviving (parts : List PartRef) : List PartRef :=
  parts.filter (fun p => p.partId ∉ (planMerges parts).ops.flatMap MergeOp.partIds)

/-- The live parts cycle by cycle: the merges of the plan are made, and what they
    write and what arrives comes on top. -/
def IsRun (run : Nat → List PartRef) : Prop :=
  ∀ n, ((run n).map PartRef.partId).Nodup ∧ ∃ new, run (n + 1) = surviving (run n) ++ new

theorem tierParts_surviving (hnodup : (parts.map partId).Nodup) (h : ¬ Selected parts key tier) :
    tierParts (surviving parts) key tier = tierParts parts key tier := by
  have hkeep : ∀ p ∈ tierParts parts key tier, p.partId ∉ (planMerges parts).ops.flatMap MergeOp.partIds := by
    intro p hp hmem
    obtain ⟨op, hop, hid⟩ := mem_flatMap.1 hmem
    obtain ⟨key', tier', -, rfl⟩ := ripe_of_planned hop
    obtain ⟨r, hr, hsame⟩ := mem_tierOp.1 hid
    obtain ⟨hpin, rfl, rfl⟩ := mem_tierParts.1 hp
    obtain ⟨hrin, rfl, rfl⟩ := mem_tierParts.1 hr
    cases inj_on_of_nodup_map hnodup hrin hpin hsame
    exact h hop
  rw [← filter_eq_self.2 (fun p hp => decide_eq_true (hkeep p hp))]
  simp only [tierParts, surviving, filter_filter, Bool.and_comm, Bool.and_left_comm, Bool.and_assoc]

theorem Ripe.next (hrun : IsRun run) (h : Ripe (run n) key tier) (hnot : ¬ Selected (run n) key tier) :
    Ripe (run (n + 1)) key tier := by
  obtain ⟨hnodup, new, hnext⟩ := hrun n
  have hparts : tierParts (run (n + 1)) key tier = tierParts (run n) key tier ++ tierParts new key tier := by
    rw [← tierParts_surviving hnodup hnot, hnext]
    simp only [tierParts, filter_append]
  rw [Ripe, hparts, length_append]
  exact h.trans (Nat.le_add_right _ _)

theorem Ripe.wait (hrun : IsRun run) {m : Nat} (h : Ripe (run n) key tier) (hle : n ≤ m) :
    Ripe (run m) key tier ∨ ∃ m', n ≤ m' ∧ m' < m ∧ Selected (run m') key tier := by
  induction m, hle using Nat.le_induction with
  | base => exact .inl h
  | succ m hle ih =>
    rcases ih with hripe | ⟨m', hle', hlt, hsel⟩
    · by_cases hsel : Selected (run m) key tier
      · exact .inr ⟨m, hle, Nat.lt_succ_self m, hsel⟩
      · exact .inl (hripe.next hrun hsel)
    · exact .inr ⟨m', hle', Nat.lt_succ_of_lt hlt, hsel⟩

/-- A ripe tier with another of its bucket before it. -/
def Behind (parts : List PartRef) (key : PartitionKey) (tier : Nat) : Prop := Ripe parts key tier ∧ ¬ First parts key tier

instance decidableBehind : Decidable (Behind parts key tier) :=
  inferInstanceAs (Decidable (mergeTierFanout ≤ _ ∧ ¬ _ = _))

/-- In every `k` cycles there is one in which a tier that is not selected is behind another. -/
theorem selected_of_behind {k r : Nat} (hrun : IsRun run) (hripe : Ripe (run n) key tier)
    (hfits : ∀ m, n ≤ m → ∃ m', m ≤ m' ∧ m' < m + k ∧ Fits (turn (run m') key.bucket.id))
    (hbehind : ((Finset.Ico n (n + k * (r + 1))).filter (fun m => Behind (run m) key tier)).card ≤ r) :
    ∃ m, n ≤ m ∧ m < n + k * (r + 1) ∧ Selected (run m) key tier := by
  by_contra hnone
  -- of every block of `k` cycles one in which the first tiers up to the bucket fit
  choose! cycle hle hlt hturn using fun j : Nat => hfits (n + k * j) (Nat.le_add_right _ _)
  have hmono : ∀ j j', j < j' → cycle j < cycle j' := by
    intro j j' hjj
    have hmul : k * (j + 1) ≤ k * j' := Nat.mul_le_mul_left k hjj
    have h1 := hlt j
    have h2 := hle j'
    rw [Nat.mul_succ] at hmul
    omega
  -- there the tier is still ripe, and if it were first it would be selected
  have hmaps : ∀ j ∈ Finset.range (r + 1),
      cycle j ∈ (Finset.Ico n (n + k * (r + 1))).filter (fun m => Behind (run m) key tier) := by
    intro j hj
    have hmul : k * (j + 1) ≤ k * (r + 1) := Nat.mul_le_mul_left k (Finset.mem_range.1 hj)
    rw [Nat.mul_succ] at hmul
    have h1 := hlt j
    have h2 := hle j
    have hrange : n ≤ cycle j ∧ cycle j < n + k * (r + 1) := by omega
    rw [Finset.mem_filter, Finset.mem_Ico]
    refine ⟨hrange, ?_, fun hfirst => hnone ⟨cycle j, hrange.1, hrange.2, planned_of_turn hfirst (hturn j)⟩⟩
    refine (hripe.wait hrun hrange.1).resolve_right fun ⟨m, hfrom, huntil, hsel⟩ => ?_
    exact hnone ⟨m, hfrom, huntil.trans hrange.2, hsel⟩
  have hcard := Finset.card_le_card_of_injOn cycle hmaps
    (fun j _ j' _ heq => by_contra fun hne => (Nat.lt_or_gt_of_ne hne).elim
      (fun h => (hmono j j' h).ne heq) (fun h => (hmono j' j h).ne' heq))
  rw [Finset.card_range] at hcard
  omega

/-- A plan keeps to both budgets, puts no part in two merges and counts the ripe
    tiers it leaves; it leaves none exactly when all fit the budgets together, and
    takes the first of a bucket if it fits with the first of those before it. Over a
    run in which these fit in one of every `k` cycles, a ripe tier with another of its
    bucket before it in at most `r` cycles is merged within `k * (r + 1)`, whatever
    else the buckets hold and whatever arrives. -/
theorem merges_bounded_and_fair (parts : List PartRef) (run : Nat → List PartRef) :
    (Fits (planMerges parts).ops ∧
      ((planMerges parts).ops.flatMap MergeOp.partIds).Subperm (parts.map PartRef.partId) ∧
      (planMerges parts).ops.length + (planMerges parts).deferredOps = (ripe parts).length ∧
      ((planMerges parts).deferredOps = 0 ↔ Fits (ripe parts))) ∧
    (∀ key tier, First parts key tier → Fits (turn parts key.bucket.id) → Selected parts key tier) ∧
    (IsRun run → ∀ n k r key tier, Ripe (run n) key tier →
      (∀ m, n ≤ m → ∃ m', m ≤ m' ∧ m' < m + k ∧ Fits (turn (run m') key.bucket.id)) →
      ((Finset.Ico n (n + k * (r + 1))).filter (fun m => Behind (run m) key tier)).card ≤ r →
      ∃ m, n ≤ m ∧ m < n + k * (r + 1) ∧ Selected (run m) key tier) := by
  refine ⟨?_, fun key tier => planned_of_turn,
    fun hrun n k r key tier hripe hfits hbehind => selected_of_behind hrun hripe hfits hbehind⟩
  obtain ⟨dropped, hperm, hplan, hdeferred, hfull⟩ := planMerges_holds parts
  refine ⟨hplan, ?_, ?_, ?_⟩
  · refine List.Subperm.trans ?_ (ripe_subperm parts)
    refine List.Subperm.trans ?_ (hperm.flatMap_right MergeOp.partIds).subperm
    rw [flatMap_append]
    exact (sublist_append_left _ _).subperm
  · rw [hdeferred, ← length_append, hperm.length_eq]
  · rw [hdeferred, length_eq_zero_iff]
    constructor
    · rintro rfl
      exact hplan.perm (by simpa using hperm)
    · exact fun hfits => by_contra fun hne => hfull hne hfits

/-- Parts of one size, four to a bucket. -/
def fours (n rows : Nat) : List PartRef :=
  (List.range n).map (fun i => ⟨⟨i, ""⟩, ⟨.shared (i / 4), 0, "g"⟩, rows, ["t"], 0, 0⟩)

/-- A bucket with more ripe tiers than a cycle merges, and behind it one with a single
    ripe tier, which is selected. -/
theorem quiet_bucket_is_served :
    let loud := (List.range 68).map (fun i => ⟨⟨i, ""⟩, ⟨.shared 0, i / 4, "g"⟩, 1, ["t"], 0, 0⟩)
    let quiet := (List.range 4).map (fun i => ⟨⟨68 + i, ""⟩, ⟨.shared 1, 0, "g"⟩, 1, ["t"], 0, 0⟩)
    mergeMaxOps < (bucketQueue (loud ++ quiet) 0).length ∧ Selected (loud ++ quiet) ⟨.shared 1, 0, "g"⟩ 0 := by
  intro loud quiet
  have hfits : Fits (turn (loud ++ quiet) 1) := by
    unfold Fits
    decide +kernel
  exact ⟨by decide +kernel,
    (merges_bounded_and_fair (loud ++ quiet) (fun _ => [])).2.1 _ _ (by unfold First; decide +kernel) hfits⟩

/-- A tier a little larger than the row budget is never merged, though nothing else
    is to do; and of seventeen buckets with a ripe tier the last is left out. -/
theorem ripe_tier_never_merged :
    (IsRun (fun _ => fours 4 250001) ∧ Ripe (fours 4 250001) ⟨.shared 0, 0, "g"⟩ 5 ∧
      (planMerges (fours 4 250001)).ops = []) ∧
    Ripe (fours 68 1) ⟨.shared 16, 0, "g"⟩ 0 ∧ ¬ Selected (fours 68 1) ⟨.shared 16, 0, "g"⟩ 0 := by
  have hplan : (planMerges (fours 4 250001)).ops = [] := by decide +kernel
  have hids : ((fours 4 250001).map partId).Nodup := by decide
  unfold Ripe Selected
  refine ⟨⟨fun _ => ⟨hids, [], ?_⟩, by decide +kernel, hplan⟩, by decide +kernel, by decide +kernel⟩
  rw [surviving, hplan]
  rfl

end Mutiny.Prism.Engine
