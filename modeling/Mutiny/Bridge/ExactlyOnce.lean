import Mutiny.Bridge.OutboxSpec
import Mutiny.Lib.Run

/- Every commit becomes one epoch, whatever the deaths of the consumer.

   A world is a store with one writer and the compute log. The consumer recovers
   the captures behind the sealed epoch and applies them in order; it dies after
   any number of durable writes and starts over. The sealed epochs are at all
   times the prepared batches of the first commits, and what waits is a prefix of
   the batches of the next one (`Fed`): the batches are appended in table order
   even over several attempts, since those known from an earlier attempt are the
   first ones. -/
namespace Mutiny.Bridge
open Mutiny.Lib Mutiny.Schweep Mutiny.Substrate SortedMap Store List

/-- The store, the log, and what is not the code's: the captures of the commits
    that returned, and what the run hashed. -/
structure BridgeWorld where
  store : Store
  log : ComputeLog
  commits : List CommitCapture
  hashedPages : List Bytes
  hashedManifests : List Manifest

inductive BridgeEvent where
  /-- A transaction of the writer: its writes and removals, and its draft. -/
  | commit (writes : List (LogicalPageNo × Option Bytes)) (draft : CommitDraft) (now : U64)
  /-- The consumer runs for that many durable writes at most. -/
  | consume (budget : Nat)

namespace BridgeWorld

variable (S : Setup)

def initial : BridgeWorld :=
  let root := Manifest.empty S.config.pageSize
  ⟨⟨∅, Manifests.put S.hashing ∅ root, S.hashing.manifest root⟩, .fresh S.catalog, [], [], [root]⟩

/-- Stage writes and removals. Pages written before a refused one stay in the store. -/
def stageAll (st : Store) : List (LogicalPageNo × Option Bytes) → Txn → Store × Except PagerError Txn
  | [], txn => (st, .ok txn)
  | (pageNo, none) :: rest, txn => stageAll st rest (txn.remove pageNo)
  | (pageNo, some bytes) :: rest, txn =>
    match st.stage S txn pageNo bytes with
    | .error e => (st, .error e)
    | .ok (st, txn) => stageAll st rest txn

def contents (writes : List (LogicalPageNo × Option Bytes)) : List Bytes := writes.filterMap Prod.snd

/-- One transaction. A refused one leaves pages behind that nothing names. -/
def commit (w : BridgeWorld) (writes : List (LogicalPageNo × Option Bytes)) (draft : CommitDraft) (now : U64) :
    BridgeWorld :=
  let hashedPages := w.hashedPages ++ contents writes ++ encoded S draft
  match stageAll S w.store writes (.begin w.store.head) with
  | (st, .error _) => { w with store := st, hashedPages := hashedPages }
  | (st, .ok txn) =>
    let hashedManifests := w.hashedManifests ++ st.derived S txn draft now
    match st.commitWithCapture S txn draft now with
    | .error _ => { w with store := st, hashedPages := hashedPages, hashedManifests := hashedManifests }
    | .ok (st, capture) =>
      { w with
        store := st
        commits := w.commits ++ [capture]
        hashedPages := hashedPages
        hashedManifests := hashedManifests }

def consume (w : BridgeWorld) (budget : Nat) : BridgeWorld :=
  match w.store.recoverPendingCaptures S w.store.head w.log.sealedEpoch with
  | .error _ => w
  | .ok pending => { w with log := applyAll S.hashing S.authority pending budget w.log }

def step (w : BridgeWorld) : BridgeEvent → BridgeWorld
  | .commit writes draft now => w.commit S writes draft now
  | .consume budget => w.consume S budget

def run : BridgeWorld → List BridgeEvent → BridgeWorld := List.foldl (step S)

end BridgeWorld

variable {S : Setup}

/-! Tokens. -/

variable {l : List LogBatch}

def tokensOf (l : List LogBatch) : BTreeMap String UInt64 :=
  l.foldl (fun m b => m.insert b.dedupToken (Record.append b).contentHash) ∅

theorem tokensOf_concat (l : List LogBatch) (b : LogBatch) :
    tokensOf (l ++ [b]) = (tokensOf l).insert b.dedupToken (Record.append b).contentHash := by
  simp [tokensOf, foldl_append]

theorem tokensOf_none {token : String} (h : ∀ b ∈ l, b.dedupToken ≠ token) : (tokensOf l)[token]? = none := by
  induction l using List.reverseRecOn with
  | nil => simp [tokensOf]
  | append_singleton l b ih =>
    rw [forall_mem_append] at h
    rw [tokensOf_concat, SortedMap.getElem?_insert, if_neg (h.2 b (List.mem_singleton_self b)), ih h.1]

theorem tokensOf_some (hinj : ∀ b ∈ l, ∀ b' ∈ l, b.dedupToken = b'.dedupToken → b = b') {b : LogBatch} (hb : b ∈ l) :
    (tokensOf l)[b.dedupToken]? = some (Record.append b).contentHash := by
  induction l using List.reverseRecOn with
  | nil => cases hb
  | append_singleton l b' ih =>
    rw [tokensOf_concat, SortedMap.getElem?_insert]
    split
    · next heq =>
      have : b' = b := hinj b' (by simp) b hb heq
      rw [this]
    · next hne =>
      rcases mem_append.1 hb with hb | hb
      · exact ih (fun x hx y hy => hinj x (mem_append_left _ hx) y (mem_append_left _ hy)) hb
      · exact absurd (by rw [mem_singleton.1 hb]) hne

/-! One capture. -/

/-- The log when `done` epochs are sealed and the first `appended` batches of the
    next capture wait. -/
structure Fed (S : Setup) (commits : List CommitCapture) (done appended : Nat) (log : ComputeLog) : Prop where
  catalog : log.catalog = S.catalog
  epochs : log.epochs = (commits.take done).map (batchesOf S)
  pending : log.pending = (commits[done]?.map (fun c => (batchesOf S c).take appended)).getD []
  dedup : log.dedup = tokensOf (log.epochs.flatten ++ log.pending)
  within : done ≤ commits.length
  fits : appended ≤ (commits[done]?.map (fun c => (batchesOf S c).length)).getD 0

/-- Captures that are all ready and are told apart by their commits. -/
structure Queue (S : Setup) (commits : List CommitCapture) : Prop where
  ready : ∀ c ∈ commits, Ready S c
  seq : ∀ i c, commits[i]? = some c → c.commitSeq = i + 1
  distinct : ∀ c ∈ commits, ∀ c' ∈ commits, c.commit = c'.commit → c = c'

section

variable {commits : List CommitCapture} {done appended : Nat} {log : ComputeLog} {c : CommitCapture}

theorem Fed.sealedEpoch (h : Fed S commits done appended log) : log.sealedEpoch = done := by
  rw [ComputeLog.sealedEpoch, h.epochs, length_map, length_take, Nat.min_eq_left h.within]

theorem Fed.pending_eq (h : Fed S commits done appended log) (hc : commits[done]? = some c) :
    log.pending = (batchesOf S c).take appended := by
  rw [h.pending, hc]
  rfl

variable {b : LogBatch}

theorem Fed.known (h : Fed S commits done appended log) (hc : commits[done]? = some c)
    (hb : b ∈ log.epochs.flatten ++ log.pending) :
    (∃ c' ∈ commits.take done, b ∈ batchesOf S c') ∨ b ∈ (batchesOf S c).take appended := by
  rcases mem_append.1 hb with hb | hb
  · rw [h.epochs] at hb
    obtain ⟨l, hl, hb⟩ := mem_flatten.1 hb
    obtain ⟨c', hc', rfl⟩ := mem_map.1 hl
    exact Or.inl ⟨c', hc', hb⟩
  · rw [h.pending_eq hc] at hb
    exact Or.inr hb

variable {c' : CommitCapture}

theorem Queue.not_before (hq : Queue S commits) (hc : commits[done]? = some c) (hc' : c' ∈ commits.take done) :
    c' ≠ c := by
  rintro rfl
  obtain ⟨i, hi, hget⟩ := mem_iff_getElem.1 hc'
  rw [length_take] at hi
  rw [getElem_take] at hget
  have h1 := hq.seq i c' (by rw [List.getElem?_eq_getElem (by omega), hget])
  have h2 := hq.seq done c' hc
  omega

theorem Queue.tokens_inj (hq : Queue S commits) {c : CommitCapture} (hc : c ∈ commits) (hc' : c' ∈ commits)
    {b' : LogBatch} (hb : b ∈ batchesOf S c) (hb' : b' ∈ batchesOf S c') (htoken : b.dedupToken = b'.dedupToken) :
    c = c' ∧ b = b' := by
  obtain ⟨hcommit, htable⟩ := token_inj hb hb' htoken
  have hcc : c = c' := hq.distinct c hc c' hc' hcommit
  subst hcc
  exact ⟨rfl, batch_eq_of_table hb hb' htable⟩

section

variable (h : Fed S commits done appended log) (hq : Queue S commits) (hc : commits[done]? = some c)
include h hq hc

theorem Fed.admit_known (hb : b ∈ (batchesOf S c).take appended) :
    b.dedupToken ∈ log.dedup ∧ log.append b = .ok (.droppedAsReplay, log) := by
  have hmem := mem_of_getElem? hc
  have hbatch := mem_of_mem_take hb
  have hinj : ∀ b ∈ log.epochs.flatten ++ log.pending, ∀ b' ∈ log.epochs.flatten ++ log.pending,
      b.dedupToken = b'.dedupToken → b = b' := by
    intro b hb b' hb' htoken
    have hof : ∀ {b}, b ∈ log.epochs.flatten ++ log.pending → ∃ c' ∈ commits, b ∈ batchesOf S c' := by
      intro b hb
      rcases h.known hc hb with ⟨c', hc', hb⟩ | hb
      · exact ⟨c', mem_of_mem_take hc', hb⟩
      · exact ⟨c, hmem, mem_of_mem_take hb⟩
    obtain ⟨c1, hc1, hb1⟩ := hof hb
    obtain ⟨c2, hc2, hb2⟩ := hof hb'
    exact (hq.tokens_inj hc1 hc2 hb1 hb2 htoken).2
  have hget : log.dedup[b.dedupToken]? = some (Record.append b).contentHash := by
    rw [h.dedup]
    refine tokensOf_some hinj (mem_append_right _ ?_)
    rwa [h.pending_eq hc]
  refine ⟨mem_iff.2 ⟨_, hget⟩, ?_⟩
  obtain ⟨schema, hschema, hrows⟩ := (hq.ready c hmem).rows b hbatch
  rw [← h.catalog] at hschema
  simp [ComputeLog.append, Log.admitBatch, ComputeLog.index, hschema, hrows, hget]

theorem Fed.unknown {k : Nat} (hb : (batchesOf S c)[k]? = some b) (hle : appended ≤ k) :
    log.dedup[b.dedupToken]? = none := by
  have hmem := mem_of_getElem? hc
  have hbatch := mem_of_getElem? hb
  rw [h.dedup]
  refine tokensOf_none ?_
  intro b' hb' htoken
  rcases h.known hc hb' with ⟨c', hc', hb'⟩ | hb'
  · exact hq.not_before hc hc' (hq.tokens_inj (mem_of_mem_take hc') hmem hb' hbatch htoken).1
  · have heq := (hq.tokens_inj hmem hmem (mem_of_mem_take hb') hbatch htoken).2
    subst heq
    -- a batch does not stand at two places of a strictly sorted list
    obtain ⟨i, hi, hget⟩ := mem_take_iff_getElem.1 hb'
    obtain ⟨hlt, hgetK⟩ := List.getElem?_eq_some_iff.1 hb
    have hsorted := pairwise_iff_getElem.1 (batchesOf_sorted S c) i k (by omega) hlt (by omega)
    rw [hget, hgetK] at hsorted
    exact absurd hsorted (lt_irrefl _)

theorem Fed.admit_next (hb : (batchesOf S c)[appended]? = some b) :
    ∃ log', log.append b = .ok (.appended, log') ∧ Fed S commits done (appended + 1) log' := by
  have hmem := mem_of_getElem? hc
  have hnone := h.unknown hq hc hb le_rfl
  obtain ⟨schema, hschema, hrows⟩ := (hq.ready c hmem).rows b (mem_of_getElem? hb)
  rw [← h.catalog] at hschema
  refine ⟨{ log with dedup := log.dedup.insert b.dedupToken (Record.append b).contentHash
                     pending := log.pending ++ [b] }, ?_, ?_⟩
  · simp [ComputeLog.append, Log.admitBatch, ComputeLog.index, hschema, hrows, hnone]
  · refine ⟨h.catalog, h.epochs, ?_, ?_, h.within, ?_⟩
    · rw [hc]
      show log.pending ++ [b] = (batchesOf S c).take (appended + 1)
      rw [h.pending_eq hc, take_add_one, hb]
      rfl
    · show log.dedup.insert b.dedupToken _ = tokensOf (log.epochs.flatten ++ (log.pending ++ [b]))
      rw [← append_assoc, tokensOf_concat, h.dedup]
    · rw [hc]
      exact (List.getElem?_eq_some_iff.1 hb).1

end

theorem Fed.length_le (h : Fed S commits done appended log) (hc : commits[done]? = some c) :
    appended ≤ (batchesOf S c).length := by
  have := h.fits
  rwa [hc] at this

section

variable (h : Fed S commits done appended log) (hq : Queue S commits) (hc : commits[done]? = some c)
include h hq hc

/-- The batches are appended in table order: the known ones are the first. -/
theorem Fed.appendOrder_eq : appendOrder log (batchesOf S c) = batchesOf S c := by
  refine Pairwise.insertionSort_eq ?_
  rw [pairwise_iff_getElem]
  intro i j hi hj hij
  have htable := pairwise_iff_getElem.1 (batchesOf_sorted S c) i j hi hj hij
  by_cases hknown : i < appended
  · have hin : (batchesOf S c)[i] ∈ (batchesOf S c).take appended :=
      mem_take_iff_getElem.2 ⟨i, by omega, rfl⟩
    have hk := (h.admit_known hq hc hin).1
    by_cases hkj : ((batchesOf S c)[j]).dedupToken ∈ log.dedup
    · exact Or.inr ⟨iff_of_true hk hkj, le_of_lt htable⟩
    · exact Or.inl ⟨hk, hkj⟩
  · -- behind the first unknown batch all are unknown
    have hnew : ∀ k (hk : k < (batchesOf S c).length), appended ≤ k → ((batchesOf S c)[k]).dedupToken ∉ log.dedup := by
      intro k hk hle
      exact getElem?_eq_none.1 (h.unknown hq hc (List.getElem?_eq_getElem hk) hle)
    exact Or.inr ⟨iff_of_false (hnew i hi (by omega)) (hnew j hj (by omega)), le_of_lt htable⟩

theorem appendAll_known {l : List LogBatch} (hl : ∀ b ∈ l, b ∈ (batchesOf S c).take appended) (rest : List LogBatch)
    (counts : Nat × Nat) (budget : Nat) :
    appendAll (l ++ rest) counts budget log = appendAll rest (counts.1, counts.2 + l.length) budget log := by
  induction l generalizing counts with
  | nil => rfl
  | cons b l ih =>
    obtain ⟨hb, hl⟩ := forall_mem_cons.1 hl
    rw [cons_append, appendAll, (h.admit_known hq hc hb).2]
    simp only
    rw [ih hl, length_cons]
    congr 2
    omega

theorem appendAll_new (counts : Nat × Nat) (budget : Nat) :
    ∃ log', (budget < (batchesOf S c).length - appended ∧ Fed S commits done (appended + budget) log' ∧
        appendAll ((batchesOf S c).drop appended) counts budget log = (.died, log', 0)) ∨
      ((batchesOf S c).length - appended ≤ budget ∧ Fed S commits done (batchesOf S c).length log' ∧
        ∃ counts', appendAll ((batchesOf S c).drop appended) counts budget log =
          (.ok counts', log', budget - ((batchesOf S c).length - appended))) := by
  obtain ⟨left, hleft⟩ : ∃ left, (batchesOf S c).length - appended = left := ⟨_, rfl⟩
  induction left generalizing appended log counts budget with
  | zero =>
    have hle := h.length_le hc
    have heq : appended = (batchesOf S c).length := by omega
    refine ⟨log, Or.inr ⟨by omega, heq ▸ h, counts, ?_⟩⟩
    rw [heq, drop_length, appendAll, Nat.sub_self, Nat.sub_zero]
  | succ left ih =>
    have hlt : appended < (batchesOf S c).length := by omega
    have hb : (batchesOf S c)[appended]? = some (batchesOf S c)[appended] := List.getElem?_eq_getElem hlt
    obtain ⟨log1, happ, hfed⟩ := h.admit_next hq hc hb
    rw [drop_eq_getElem_cons hlt, appendAll, happ]
    cases budget with
    | zero => exact ⟨log, Or.inl ⟨by omega, h, rfl⟩⟩
    | succ budget =>
      obtain ⟨log', hdied | hdone⟩ := ih hfed (counts.1 + 1, counts.2) budget (by omega)
      · obtain ⟨hlt', hfed', heq⟩ := hdied
        refine ⟨log', Or.inl ⟨by omega, ?_, heq⟩⟩
        rwa [show appended + (budget + 1) = appended + 1 + budget by omega]
      · obtain ⟨hle', hfed', counts', heq⟩ := hdone
        refine ⟨log', Or.inr ⟨by omega, hfed', counts', ?_⟩⟩
        simp only
        rw [heq, show budget + 1 - ((batchesOf S c).length - appended) =
          budget - ((batchesOf S c).length - (appended + 1)) by omega]

theorem Fed.admitCapture_ok (envelope : Digest) : admitCapture log c ⟨envelope, batchesOf S c⟩ = .ok () := by
  have hmem := mem_of_getElem? hc
  have hrows : validateRows log.catalog ((batchesOf S c).map (fun b => (b.table, b.entries))) = .ok () := by
    rw [validateRows_ok, h.catalog]
    intro t ht
    obtain ⟨b, hb, rfl⟩ := mem_map.1 ht
    exact (hq.ready c hmem).rows b hb
  have hpending : (log.pending.any fun b => decide (b ∉ batchesOf S c)) = false := by
    rw [any_eq_false]
    intro b hb
    rw [h.pending_eq hc] at hb
    simp [mem_of_mem_take hb]
  unfold admitCapture
  rw [h.sealedEpoch, hq.seq done c hc]
  simp only [ne_eq, not_true_eq_false, if_false, hrows, ok_bind, hpending, Bool.false_eq_true]
  rfl

/-- Applying the next capture: it is sealed, or the process dies on the way. -/
theorem applyCommit_next (budget : Nat) :
    ∃ out log' budget', applyCommit S.hashing S.authority log c budget = (out, log', budget') ∧
      ((budget' + ((batchesOf S c).length - appended) + 1 = budget ∧ (∃ r, out = .ok r) ∧
          Fed S commits (done + 1) 0 log') ∨
        (budget ≤ (batchesOf S c).length - appended ∧ out = .died ∧ ∃ n, Fed S commits done n log')) := by
  have hready := hq.ready c (mem_of_getElem? hc)
  have hnot : ¬ c.commitSeq ≤ log.sealedEpoch := by
    rw [hq.seq done c hc, h.sealedEpoch]
    omega
  unfold applyCommit
  rw [hready.prepares]
  simp only [hnot, if_false, h.admitCapture_ok hq hc, h.appendOrder_eq hq hc]
  have hknown := appendAll_known h hq hc (l := (batchesOf S c).take appended) (fun b hb => hb)
    ((batchesOf S c).drop appended) (0, 0) budget
  rw [take_append_drop] at hknown
  rw [hknown]
  obtain ⟨log', hdied | hdone⟩ := appendAll_new h hq hc (0, 0 + ((batchesOf S c).take appended).length) budget
  · obtain ⟨hlt, hfed, heq⟩ := hdied
    rw [heq]
    exact ⟨_, _, _, rfl, Or.inr ⟨by omega, rfl, _, hfed⟩⟩
  · obtain ⟨hle, hfed, counts', heq⟩ := hdone
    rw [heq]
    cases hleft : budget - ((batchesOf S c).length - appended) with
    | zero => exact ⟨_, _, _, rfl, Or.inr ⟨by omega, rfl, _, hfed⟩⟩
    | succ left =>
      refine ⟨_, _, _, rfl, Or.inl ⟨by omega, ⟨_, rfl⟩, ?_⟩⟩
      have hlen : done < commits.length := (List.getElem?_eq_some_iff.1 hc).1
      have hpend : log'.pending = batchesOf S c := by rw [hfed.pending_eq hc, take_length]
      refine ⟨hfed.catalog, ?_, ?_, ?_, hlen, Nat.zero_le _⟩
      · show log'.epochs ++ [log'.pending] = _
        rw [hfed.epochs, hpend, take_add_one, hc]
        simp
      · show ([] : List LogBatch) = _
        cases commits[done + 1]? <;> simp
      · show log'.dedup = tokensOf ((log'.epochs ++ [log'.pending]).flatten ++ [])
        rw [hfed.dedup]
        simp

end

/-- Durable writes that applying a list of captures takes. -/
def writesOf (S : Setup) (cs : List CommitCapture) : Nat := (cs.map (fun c => (batchesOf S c).length + 1)).sum

/-- Applying what is left keeps the log a prefix of the commits, and all of them
    are sealed when the budget suffices. -/
theorem applyAll_rest (h : Fed S commits done appended log) (hq : Queue S commits) (budget : Nat) :
    ∃ done' appended', Fed S commits done' appended'
        (applyAll S.hashing S.authority (commits.drop done) budget log) ∧ done ≤ done' ∧
      (writesOf S (commits.drop done) ≤ budget → done' = commits.length) := by
  obtain ⟨left, hleft⟩ : ∃ left, commits.length - done = left := ⟨_, rfl⟩
  induction left generalizing done appended log budget with
  | zero =>
    have hle := h.within
    have heq : done = commits.length := by omega
    have hdrop : commits.drop done = [] := by rw [heq, drop_length]
    rw [hdrop, applyAll]
    exact ⟨done, appended, h, le_refl _, fun _ => heq⟩
  | succ left ih =>
    have hlt : done < commits.length := by omega
    have hc : commits[done]? = some commits[done] := List.getElem?_eq_getElem hlt
    rw [drop_eq_getElem_cons hlt, applyAll]
    obtain ⟨out, log', budget', happ, hcase⟩ := applyCommit_next h hq hc budget
    rw [happ]
    rcases hcase with ⟨hbudget, ⟨r, rfl⟩, hfed⟩ | ⟨hbudget, rfl, n, hfed⟩
    · obtain ⟨done', appended', hfed', hle, hall⟩ := ih hfed budget' (by omega)
      refine ⟨done', appended', hfed', by omega, ?_⟩
      intro hwrites
      refine hall ?_
      rw [writesOf, map_cons, sum_cons, ← writesOf] at hwrites
      omega
    · refine ⟨done, n, hfed, le_refl _, ?_⟩
      intro hwrites
      rw [writesOf, map_cons, sum_cons] at hwrites
      omega

end

/-! Runs. -/

variable {st : Store} {log : ComputeLog}

structure Bridged (S : Setup) (w : BridgeWorld) : Prop where
  store : Store.Sound S w.hashedPages w.hashedManifests w.store
  history : ∃ ids, History S w.store 0 0 w.commits ids w.store.head
  ready : ∀ c ∈ w.commits, Ready S c
  log : ∃ done appended, Fed S w.commits done appended w.log

variable {w : BridgeWorld}

theorem Bridged.queue (h : Bridged S w) : Queue S w.commits := by
  obtain ⟨ids, hhist⟩ := h.history
  refine ⟨h.ready, ?_, ?_⟩
  · intro i c hc
    rw [hhist.seq i c hc]
    omega
  · intro c hc c' hc' heq
    have hrec := hhist.recovers c hc
    rw [heq, hhist.recovers c' hc'] at hrec
    exact (Except.ok.inj hrec).symm

theorem Store.Sound.mono {hp hp' : List Bytes} {hm hm' : List Manifest} (h : Sound S hp hm st)
    (hpages : ∀ b ∈ hp, b ∈ hp') (hmans : ∀ m ∈ hm, m ∈ hm') : Sound S hp' hm' st :=
  ⟨h.manifests.mono hmans, h.pages.mono hpages, h.head⟩

theorem stageAll_grows {hashedPages : List Bytes} {hashedManifests : List Manifest}
    (hst : Sound S hashedPages hashedManifests st) (writes : List (LogicalPageNo × Option Bytes)) (txn : Txn)
    (hinj : TellsApart (S.config.hasher.hash S.hashing) (hashedPages ++ BridgeWorld.contents writes)) :
    Sound S (hashedPages ++ BridgeWorld.contents writes) hashedManifests (BridgeWorld.stageAll S st writes txn).1 ∧
      Grows S st (BridgeWorld.stageAll S st writes txn).1 ∧
      (BridgeWorld.stageAll S st writes txn).1.head = st.head ∧
      ∀ txn', (BridgeWorld.stageAll S st writes txn).2 = .ok txn' → txn'.base = txn.base := by
  induction writes generalizing hashedPages st txn with
  | nil =>
    refine ⟨hst.mono (fun b hb => mem_append_left _ hb) (fun _ hm => hm), ⟨fun _ _ h => h, fun _ _ h => h⟩, rfl, ?_⟩
    intro txn' h
    cases h
    rfl
  | cons write rest ih =>
    obtain ⟨pageNo, content⟩ := write
    cases content with
    | none => exact ih hst (txn.remove pageNo) hinj
    | some bytes =>
      have hcontents : hashedPages ++ BridgeWorld.contents ((pageNo, some bytes) :: rest) =
          hashedPages ++ [bytes] ++ BridgeWorld.contents rest := by
        simp [BridgeWorld.contents]
      rw [hcontents] at hinj ⊢
      unfold BridgeWorld.stageAll
      cases hstage : st.stage S txn pageNo bytes with
      | error e =>
        refine ⟨hst.mono (fun b hb => by simp [hb]) (fun _ hm => hm), ⟨fun _ _ h => h, fun _ _ h => h⟩, rfl, ?_⟩
        intro txn' h
        cases h
      | ok staged =>
        obtain ⟨⟨pages, txn1, _⟩, hwrite, hok⟩ := bind_ok.1 hstage
        obtain ⟨page, hpage, hwrite⟩ := bind_ok.1 hwrite
        cases hwrite
        cases hok
        obtain rfl := Page.eq_of_new hpage
        obtain ⟨hnamed, _, hold⟩ := put_page hst.pages (hinj.mono (fun b hb => mem_append_left _ hb))
        have hput : Sound S (hashedPages ++ [bytes]) hashedManifests
            { st with pages := st.pages.put ⟨S.config.hasher.hash S.hashing bytes, bytes⟩ } :=
          ⟨hst.manifests, hnamed, hst.head⟩
        obtain ⟨hsound, hgrows, hhead, hbase⟩ := ih hput { txn with
            writes := txn.writes.insert pageNo (some (S.config.hasher.hash S.hashing bytes))
            pinned := txn.pinned ++ [S.config.hasher.hash S.hashing bytes] } hinj
        exact ⟨hsound, ⟨hgrows.manifests, fun id b hb => hgrows.pages id b (hold id b hb)⟩, hhead, hbase⟩

theorem Fed.more {commits : List CommitCapture} {done appended : Nat} (h : Fed S commits done appended log)
    (c : CommitCapture) : Fed S (commits ++ [c]) done appended log := by
  -- nothing waits when all is sealed
  have hzero (hge : commits.length ≤ done) : appended = 0 := by
    have := h.fits
    rw [List.getElem?_eq_none hge] at this
    exact Nat.le_zero.1 this
  refine ⟨h.catalog, ?_, ?_, h.dedup, ?_, ?_⟩
  · rw [h.epochs, take_append_of_le_length h.within]
  · rcases Nat.lt_or_ge done commits.length with hlt | hge
    · rw [h.pending, List.getElem?_append_left hlt]
    · rw [h.pending, hzero hge, List.getElem?_eq_none hge]
      cases (commits ++ [c])[done]? <;> simp
  · rw [length_append]
    exact Nat.le_add_right_of_le h.within
  · rcases Nat.lt_or_ge done commits.length with hlt | hge
    · rw [List.getElem?_append_left hlt]
      exact h.fits
    · rw [hzero hge]
      exact Nat.zero_le _

theorem Bridged.commit (h : Bridged S w) (writes : List (LogicalPageNo × Option Bytes)) (draft : CommitDraft) (now : U64)
    (hpages : TellsApart (S.config.hasher.hash S.hashing) (w.commit S writes draft now).hashedPages)
    (hmans : TellsApart S.hashing.manifest (w.commit S writes draft now).hashedManifests) :
    Bridged S (w.commit S writes draft now) := by
  have hhashed : (w.commit S writes draft now).hashedPages =
      w.hashedPages ++ BridgeWorld.contents writes ++ encoded S draft := by
    unfold BridgeWorld.commit
    dsimp only
    split
    · rfl
    · split <;> rfl
  rw [hhashed] at hpages
  obtain ⟨hsound, hgrows, hhead, hbase⟩ := stageAll_grows h.store writes (.begin w.store.head)
    (hpages.mono (fun b hb => mem_append_left _ hb))
  obtain ⟨ids, hhist⟩ := h.history
  have hhist' : History S (BridgeWorld.stageAll S w.store writes (.begin w.store.head)).1 0 0 w.commits ids
      (BridgeWorld.stageAll S w.store writes (.begin w.store.head)).1.head := by
    rw [hhead]
    exact hhist.grow hgrows
  have hleft : ∀ b ∈ w.hashedPages ++ BridgeWorld.contents writes,
      b ∈ w.hashedPages ++ BridgeWorld.contents writes ++ encoded S draft := fun b hb => mem_append_left _ hb
  unfold BridgeWorld.commit at hmans ⊢
  dsimp only at hmans ⊢
  cases hstage : BridgeWorld.stageAll S w.store writes (.begin w.store.head) with
  | mk st r =>
    rw [hstage] at hsound hgrows hhead hbase hhist' hmans
    cases r with
    | error e => exact ⟨hsound.mono hleft (fun m hm => hm), ⟨ids, hhist'⟩, h.ready, h.log⟩
    | ok txn =>
      dsimp only at hmans ⊢
      cases hcommit : st.commitWithCapture S txn draft now with
      | error e => exact ⟨hsound.mono hleft (fun m hm => mem_append_left _ hm), ⟨ids, hhist'⟩, h.ready, h.log⟩
      | ok result =>
        obtain ⟨st', c⟩ := result
        rw [hcommit] at hmans
        dsimp only at hmans ⊢
        have hon : txn.base = st.head := by rw [hbase txn rfl, hhead]; rfl
        obtain ⟨hsound', hhist'', hready, hgrows'⟩ := commit_extends hsound hhist' hon hcommit hpages hmans
        obtain ⟨done, appended, hfed⟩ := h.log
        refine ⟨hsound', ⟨_, hhist''⟩, ?_, ⟨done, appended, hfed.more c⟩⟩
        rw [forall_mem_append, forall_mem_singleton]
        exact ⟨h.ready, hready⟩

theorem Bridged.recovers (h : Bridged S w) {s : Nat} (hs : s ≤ w.commits.length) :
    w.store.recoverPendingCaptures S w.store.head s = .ok (w.commits.drop s) := by
  obtain ⟨ids, hhist⟩ := h.history
  rw [recoverPending_of_history hhist (Nat.zero_le s) (by omega), Nat.sub_zero]

theorem Bridged.consume (h : Bridged S w) (budget : Nat) :
    Bridged S (w.consume S budget) ∧
      (writesOf S (w.commits.drop w.log.sealedEpoch) ≤ budget →
        (w.consume S budget).log.epochs = w.commits.map (batchesOf S)) := by
  obtain ⟨done, appended, hfed⟩ := h.log
  have hdone := hfed.sealedEpoch
  have hrec := h.recovers (hdone ▸ hfed.within)
  obtain ⟨done', appended', hfed', _, hall⟩ := applyAll_rest hfed h.queue budget
  unfold BridgeWorld.consume
  rw [hrec, hdone]
  refine ⟨⟨h.store, h.history, h.ready, ⟨done', appended', hfed'⟩⟩, ?_⟩
  intro hbudget
  rw [hfed'.epochs, hall hbudget, take_length]

theorem bridged_initial (S : Setup) : Bridged S (.initial S) := by
  have hres : Resolves S.hashing (Manifests.put S.hashing ∅ (.empty S.config.pageSize)) _ ∅ := resolves_empty
  have hlook := lookupPage_of_resolves hres capturePage
  rw [getElem?_empty] at hlook
  refine ⟨⟨?_, .empty _ _, _, hres⟩, ⟨[_], .root (Manifests.get_put_self (by simp)) rfl hlook⟩,
    by simp [BridgeWorld.initial], 0, 0, ?_⟩
  · exact (WriteOnce.Named.empty _ _).put (by simp [BridgeWorld.initial])
  · exact ⟨rfl, rfl, rfl, rfl, Nat.zero_le _, Nat.zero_le _⟩

theorem hashed_step (w : BridgeWorld) (e : BridgeEvent) :
    (∀ b ∈ w.hashedPages, b ∈ (w.step S e).hashedPages) ∧ ∀ m ∈ w.hashedManifests, m ∈ (w.step S e).hashedManifests := by
  cases e with
  | commit writes draft now =>
    simp only [BridgeWorld.step, BridgeWorld.commit]
    split
    · exact ⟨fun b hb => by simp [hb], fun m hm => hm⟩
    · split
      · exact ⟨fun b hb => by simp [hb], fun m hm => mem_append_left _ hm⟩
      · exact ⟨fun b hb => by simp [hb], fun m hm => mem_append_left _ hm⟩
  | consume budget =>
    simp only [BridgeWorld.step, BridgeWorld.consume]
    split
    · exact ⟨fun _ h => h, fun _ h => h⟩
    · exact ⟨fun _ h => h, fun _ h => h⟩

theorem Bridged.run (h : Bridged S w) {es : List BridgeEvent}
    (hpages : TellsApart (S.config.hasher.hash S.hashing) (w.run S es).hashedPages)
    (hmans : TellsApart S.hashing.manifest (w.run S es).hashedManifests) : Bridged S (w.run S es) := by
  have hall : Along (BridgeWorld.step S) (fun _ _ => True) w es := along_of_forall (fun _ _ _ => trivial)
  refine hall.keeps_below (F := fun w => TellsApart (S.config.hasher.hash S.hashing) w.hashedPages ∧
    TellsApart S.hashing.manifest w.hashedManifests) h (fun w e hnext => ?_) ⟨hpages, hmans⟩
    (fun w e _ hnext h => ?_)
  · obtain ⟨hp, hm⟩ := hashed_step (S := S) w e
    exact ⟨hnext.1.mono hp, hnext.2.mono hm⟩
  · cases e with
    | commit writes draft now => exact h.commit writes draft now hnext.1 hnext.2
    | consume budget => exact (h.consume budget).1

/-! Results. -/

theorem admitCapture_foreign {c : CommitCapture} {p : Prepared} (h : ∃ b ∈ log.pending, b ∉ p.batches) :
    ∃ e, admitCapture log c p = .error e := by
  have hany : (log.pending.any fun b => decide (b ∉ p.batches)) = true := by
    obtain ⟨b, hb, hnot⟩ := h
    exact any_eq_true.2 ⟨b, hb, by simpa using hnot⟩
  unfold admitCapture
  by_cases hseq : c.commitSeq = log.sealedEpoch + 1
  · simp only [hseq, ne_eq, not_true_eq_false, if_false, hany, if_true]
    cases validateRows log.catalog (p.batches.map fun b => (b.table, b.entries)) with
    | error e => exact ⟨e, rfl⟩
    | ok u => exact ⟨_, rfl⟩
  · simp only [hseq, ne_eq, not_false_eq_true, if_true]
    exact ⟨_, rfl⟩

/-- After any run: recovery returns the commits behind the sealed epoch in order;
    each sealed epoch is what its commit prepares, in table order; a consumer that
    lives long enough seals them all; a sealed capture is recognised and nothing is
    written; and a capture that is not what was sealed, or that does not hold what
    waits, is refused and nothing is written. -/
theorem bridge_exactly_once (es : List BridgeEvent) {w : BridgeWorld} (hw : w = (BridgeWorld.initial S).run S es)
    (hpages : TellsApart (S.config.hasher.hash S.hashing) w.hashedPages)
    (hmans : TellsApart S.hashing.manifest w.hashedManifests) :
    (w.log.sealedEpoch ≤ w.commits.length ∧ w.store.recoverPendingCaptures S w.store.head w.log.sealedEpoch =
      .ok (w.commits.drop w.log.sealedEpoch)) ∧
    (∀ n < w.log.sealedEpoch, ∃ c p, w.commits[n]? = some c ∧ c.commitSeq = n + 1 ∧
      prepare S.hashing S.authority c = .ok p ∧ w.log.epochs[n]? = some p.batches ∧
      p.batches.Pairwise (fun a b => a.table < b.table)) ∧
    (∃ needed, ∀ budget ≥ needed, (w.consume S budget).log.sealedEpoch = w.commits.length) ∧
    (∀ n < w.log.sealedEpoch, ∀ c, w.commits[n]? = some c → ∀ budget, ∃ r,
      applyCommit S.hashing S.authority w.log c budget = (.ok r, w.log, budget) ∧ r.disposition = .replayed ∧
        r.appendedBatches = 0) ∧
    (∀ c p, prepare S.hashing S.authority c = .ok p →
      (c.commitSeq ≤ w.log.sealedEpoch ∧ w.log.epochs[c.commitSeq - 1]? ≠ some p.batches ∨
        w.log.sealedEpoch < c.commitSeq ∧ ∃ b ∈ w.log.pending, b ∉ p.batches) →
      ∀ budget, ∃ e, applyCommit S.hashing S.authority w.log c budget = (.error e, w.log, budget)) := by
  have h : Bridged S w := by
    subst hw
    exact (bridged_initial S).run hpages hmans
  have hq := h.queue
  obtain ⟨done, appended, hfed⟩ := h.log
  have hdone := hfed.sealedEpoch
  have hepoch : ∀ n < done, ∃ c, w.commits[n]? = some c ∧ w.log.epochs[n]? = some (batchesOf S c) := by
    intro n hn
    have hlt : n < w.commits.length := Nat.lt_of_lt_of_le hn hfed.within
    refine ⟨w.commits[n], List.getElem?_eq_getElem hlt, ?_⟩
    rw [hfed.epochs, List.getElem?_map, List.getElem?_take_of_lt hn, List.getElem?_eq_getElem hlt]
    rfl
  rw [hdone]
  refine ⟨⟨hfed.within, h.recovers hfed.within⟩, ?_, ?_, ?_, ?_⟩
  · intro n hn
    obtain ⟨c, hc, hget⟩ := hepoch n hn
    exact ⟨c, _, hc, hq.seq n c hc, (hq.ready c (mem_of_getElem? hc)).prepares, hget, batchesOf_sorted S c⟩
  · refine ⟨writesOf S (w.commits.drop w.log.sealedEpoch), ?_⟩
    intro budget hbudget
    rw [ComputeLog.sealedEpoch, (h.consume budget).2 hbudget, length_map]
  · intro n hn c hc budget
    obtain ⟨c', hc', hget⟩ := hepoch n hn
    rw [hc] at hc'
    cases hc'
    have hseq := hq.seq n c hc
    refine ⟨⟨c.commit, c.commitSeq, S.authority.envelopeId c.envelope, .replayed, 0, (batchesOf S c).length⟩, ?_, rfl, rfl⟩
    unfold applyCommit
    rw [(hq.ready c (mem_of_getElem? hc)).prepares]
    simp only [hdone, show c.commitSeq ≤ done by omega, if_true, replaySealed, show c.commitSeq - 1 = n by omega, hget,
      ne_eq, not_true_eq_false, if_false]
  · intro c p hp hcase budget
    unfold applyCommit
    rw [hp, hdone]
    rcases hcase with ⟨hle, hne⟩ | ⟨hlt, hforeign⟩
    · simp only [hle, if_true, replaySealed]
      cases hget : w.log.epochs[c.commitSeq - 1]? with
      | none => exact ⟨_, rfl⟩
      | some existing =>
        have hdiff : existing ≠ p.batches := fun heq => hne (by rw [hget, heq])
        simp only [hdiff, ne_eq, not_false_eq_true, if_true]
        exact ⟨_, rfl⟩
    · obtain ⟨e, he⟩ := admitCapture_foreign (c := c) hforeign
      simp only [Nat.not_le.2 hlt, if_false, he]
      exact ⟨e, rfl⟩

/-! A concrete run. -/

/-- An encoding of a list of drafts: the number of bytes is the place in the list. -/
def listCodec (drafts : List CommitDraft) : CaptureCodec where
  encode d := if d ∈ drafts then .ok (List.replicate (drafts.idxOf d) 1) else .error "unknown draft"
  decode bytes :=
    match drafts[bytes.length]? with
    | some d => .ok d
    | none => .error "unknown draft"
  decode_encode d bytes h := by
    by_cases hmem : d ∈ drafts
    · rw [if_pos hmem] at h
      cases h
      simp [List.getElem?_idxOf hmem]
    · rw [if_neg hmem] at h
      cases h

def sampleEnvelope (branch system : String) : WriteEnvelope :=
  ⟨"agent", "session", branch, 0, [], [⟨system, "r1"⟩], "note", none, []⟩

def sampleChange (text : String) (weight : I64) (key : Bytes) (page : LogicalPageNo) : CapturedChange :=
  ⟨[.str text], weight, key, {page}⟩

def sampleDraft (seq : Nat) (system : String) (changes : List CapturedChange) : CommitDraft :=
  ⟨"tenant", "plane", seq, "main", sampleEnvelope "main" system,
    (∅ : CapturedTables).insert "notes" changes⟩

def sampleCatalog : Catalog :=
  ((∅ : Catalog).insert derivationTable derivationSchema).insert "notes" ⟨[⟨"text", .utf8, false⟩], by decide, by decide⟩

def sampleSetup (drafts : List CommitDraft) : Setup :=
  ⟨sampleHashing, sampleConfig, ⟨fun _ => 1, fun _ _ => .ok ()⟩, listCodec drafts, sampleCatalog⟩

def firstDraft : CommitDraft := sampleDraft 1 "mail" [sampleChange "a" I64.one [1] 1]

def secondDraft : CommitDraft := sampleDraft 2 "web" [sampleChange "b" I64.one [2] 2]

/-- Two commits and a consumer that dies inside the first, and again in front of the
    seal of the second. -/
def dyingRun : List BridgeEvent :=
  [.commit [(1, some [7])] firstDraft 5, .consume 1, .commit [(2, some [8])] secondDraft 6, .consume 4, .consume 9]

abbrev dyingSetup : Setup := sampleSetup [firstDraft, secondDraft]

abbrev dyingWorld : BridgeWorld := (BridgeWorld.initial dyingSetup).run dyingSetup dyingRun

theorem bridge_exactly_once_dying : dyingWorld.log.sealedEpoch = 2 ∧
    ∃ c p, dyingWorld.commits[1]? = some c ∧ prepare dyingSetup.hashing dyingSetup.authority c = .ok p ∧
      dyingWorld.log.epochs[1]? = some p.batches := by
  obtain ⟨w, hw⟩ : ∃ w, w = dyingWorld := ⟨_, rfl⟩
  have hpages : TellsApart (dyingSetup.config.hasher.hash dyingSetup.hashing) dyingWorld.hashedPages := by decide +kernel
  have hmans : TellsApart dyingSetup.hashing.manifest dyingWorld.hashedManifests := by decide +kernel
  have hsealed : dyingWorld.log.sealedEpoch = 2 := by decide +kernel
  rw [← hw] at hpages hmans hsealed ⊢
  obtain ⟨_, hepochs, _⟩ := bridge_exactly_once dyingRun hw hpages hmans
  obtain ⟨c, p, hc, _, hp, hget, _⟩ := hepochs 1 (by omega)
  exact ⟨hsealed, c, p, hc, hp, hget⟩

end Mutiny.Bridge
