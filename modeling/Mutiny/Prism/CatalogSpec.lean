import Mutiny.Lib.Group
import Mutiny.Prism.Catalog

/- What commits and reclamation do to the catalog.

   The snapshot that was committed last is the live one and has the highest number
   (`Catalogued`). A snapshot survives a collection exactly when it is retained
   (`sweep_snapshot`), and the parts of a retained snapshot survive with it
   (`retained_parts`). -/
namespace Mutiny.Prism
open Mutiny.Lib SortedMap Store

/-! Reading. -/

variable {db : Store} {p : Part}

theorem Store.openManifest_ok {id : PartId} : db.openManifest id = .ok p ↔ db.parts[id]? = some p := by
  unfold openManifest
  cases db.parts[id]? <;> simp

theorem Store.getGeneration_ok {id : GenerationId} {g : Generation} :
    db.getGeneration id = .ok g ↔ db.generations[id]? = some g := by
  unfold getGeneration
  cases db.generations[id]? <;> simp

theorem Part.readAll_ok {cipher : Option Dek} {rows : List Row} (h : p.readAll cipher = .ok rows) : rows = p.rows := by
  unfold Part.readAll at h
  split at h
  · cases h
  · unfold Part.rows
    cases hc : p.columns with
    | clear rs =>
      simp only [hc] at h
      cases h
      rfl
    | sealed dek rs =>
      cases cipher with
      | none => simp [hc] at h
      | some k =>
        simp only [hc] at h
        split at h
        · cases h
          rfl
        · cases h

/-! Effects one by one. -/

variable {parts : List PartEntry} {w : World}

theorem Store.checkEntry_ok {e : PartEntry} : db.checkEntry e = .ok () ↔ e.valid = true ∧ e.partId ∈ db.parts := by
  unfold checkEntry
  cases e.valid <;> by_cases h : e.partId ∈ db.parts <;> simp [h]

theorem exec_checkParts {w' : World} :
    exec (.checkParts parts) w = .ok w' ↔ w' = w ∧ ∀ e ∈ parts, e.valid = true ∧ e.partId ∈ w.store.parts := by
  simp only [exec, map_ok, ← checkEntry_ok]
  constructor
  · rintro ⟨u, h, rfl⟩
    exact ⟨rfl, forM_ok.1 h⟩
  · rintro ⟨rfl, h⟩
    exact ⟨(), forM_ok.2 h, rfl⟩

theorem Store.addPart_eq (db : Store) (p : Part) : db.addPart p = { db with parts := (db.addPart p).parts } := by
  unfold addPart
  split <;> rfl

theorem Store.addPart_keeps {id : PartId} {q : Part} (h : db.parts[id]? = some q) :
    (db.addPart p).parts[id]? = some q := by
  unfold addPart
  split
  · exact h
  · next hp =>
    rw [getElem?_insert, if_neg, h]
    rintro rfl
    exact hp (mem_iff.2 ⟨q, h⟩)

/-! Commits. -/

variable {id : Nat} {s : Snapshot} {extra : SnapshotMeta}

def World.committed (w : World) (snap : Snapshot) : World :=
  { w with store := { w.store with
      snapshots := w.store.snapshots.insert snap.snapshotId snap
      current? := some snap.snapshotId } }

theorem Store.current_of (hcur : db.current? = some id) (hfile : db.snapshots[id]? = some s) : db.current = .ok s := by
  simp [current, loadSnapshot, hcur, hfile]

theorem World.committed_current (w : World) (snap : Snapshot) : (w.committed snap).store.current = .ok snap := by
  simp [current, loadSnapshot, World.committed]

/-! The order of snapshots. -/

variable {now : Int}

/-- `CURRENT` names the newest snapshot, and each snapshot is filed under its own id. -/
structure Catalogued (db : Store) : Prop where
  live : ∀ n, db.current? = some n → n ∈ db.snapshots
  newest : ∀ id, id ∈ db.snapshots → ∃ n, db.current? = some n ∧ id ≤ n
  named : ∀ (id : Nat) (s : Snapshot), db.snapshots[id]? = some s → s.snapshotId = id

theorem catalogued_blank : Catalogued .blank where
  live n h := by cases h
  newest id h := by simp [blank] at h
  named id s h := by simp [blank] at h

/-- The live snapshot has the number `CURRENT` names, and is the empty one without a `CURRENT`. -/
theorem Catalogued.current (h : Catalogued db) (hs : db.current = .ok s) :
    (db.current? = none ∧ s = .empty) ∨
      (db.current? = some s.snapshotId ∧ db.snapshots[s.snapshotId]? = some s) := by
  unfold Store.current at hs
  cases hcur : db.current? with
  | none =>
    rw [hcur] at hs
    cases hs
    exact .inl ⟨rfl, rfl⟩
  | some n =>
    rw [hcur] at hs
    unfold loadSnapshot at hs
    cases hget : db.snapshots[n]? with
    | none => simp [hget] at hs
    | some s' =>
      simp only [hget, Except.ok.injEq] at hs
      subst hs
      have hid := h.named n s' hget
      rw [hid]
      exact .inr ⟨rfl, hget⟩

theorem Catalogued.le_current (h : Catalogued db) (hs : db.current = .ok s) (hid : id ∈ db.snapshots) :
    id ≤ s.snapshotId := by
  obtain ⟨n, hn, hle⟩ := h.newest id hid
  rcases h.current hs with ⟨hnone, -⟩ | ⟨hsome, -⟩
  · rw [hnone] at hn
    cases hn
  · rw [hsome] at hn
    cases hn
    exact hle

theorem Catalogued.committed (h : Catalogued w.store) {parent : Snapshot} (hparent : w.store.current = .ok parent)
    {nextSeq : Nat} {active : Option GenerationId} :
    Catalogued (w.committed (parent.child parts nextSeq active extra now)).store where
  live n hn := by
    cases hn
    exact mem_insert.2 (.inl rfl)
  newest id hid := by
    refine ⟨_, rfl, ?_⟩
    rcases mem_insert.1 hid with rfl | hid
    · exact le_rfl
    · exact le_trans (h.le_current hparent hid) (Nat.le_succ _)
  named id s hs := by
    have hget : (w.store.snapshots.insert (parent.snapshotId + 1)
        (parent.child parts nextSeq active extra now))[id]? = some s := hs
    rw [getElem?_insert] at hget
    split at hget
    · next heq =>
      cases hget
      exact heq
    · exact h.named id s hget

/-! Reclamation. -/

variable {live : Retained} {db' : Store} {dryRun : Bool} {retain : Nat}

theorem mem_listSnapshots : id ∈ db.listSnapshots ↔ id ∈ db.snapshots := by
  rw [listSnapshots, (List.perm_insertionSort _ _).mem_iff, mem_keys]

theorem mem_retained_current (db : Store) (current retain : Nat) (now : Int) :
    current ∈ db.retainedSnapshots current retain now := by
  simp [retainedSnapshots]

theorem mem_retained_young (hs : db.snapshots[id]? = some s) (current retain : Nat)
    (hyoung : saturatingSub now gcHorizonMs < s.createdAtMs) :
    id ∈ db.retainedSnapshots current retain now := by
  refine List.mem_append_right _ (List.mem_filter.2 ⟨mem_listSnapshots.2 (mem_iff.2 ⟨s, hs⟩), ?_⟩)
  simp [hs, hyoung]

theorem sweep_snapshot :
    (db.sweep live).snapshots[id]? = some s ↔ db.snapshots[id]? = some s ∧ id ∈ live.snapshots := by
  have hget : (db.sweep live).snapshots[id]? = (db.snapshots[id]?).filter (fun _ => decide (id ∈ live.snapshots)) :=
    getElem?_filter _ _ _
  rw [hget, Option.filter_eq_some_iff, decide_eq_true_eq]

theorem sweep_part {id : PartId} : (db.sweep live).parts[id]? = some p ↔ db.parts[id]? = some p ∧ id ∈ live.parts := by
  have hget : (db.sweep live).parts[id]? = (db.parts[id]?).filter (fun _ => decide (id ∈ live.parts)) :=
    getElem?_filter _ _ _
  rw [hget, Option.filter_eq_some_iff, decide_eq_true_eq]

/-- What a collection does: nothing, or it sweeps what is not retained. -/
theorem gcAt_ok (h : db.gcAt retain now dryRun = .ok db') :
    db' = db ∨ ∃ current live, db.current = .ok current ∧ db.retained retain now = .ok live ∧
      live.snapshots = db.retainedSnapshots current.snapshotId retain now ∧ db' = db.sweep live := by
  unfold gcAt at h
  obtain ⟨live, hlive, h⟩ := bind_ok.1 h
  have hlive' := hlive
  unfold retained at hlive'
  obtain ⟨current, hcur, hlive'⟩ := bind_ok.1 hlive'
  cases hlive'
  cases dryRun with
  | true =>
    cases h
    exact .inl rfl
  | false =>
    cases h
    exact .inr ⟨current, _, hcur, hlive, rfl, rfl⟩

theorem retained_parts (h : db.retained retain now = .ok live) (hs : db.snapshots[id]? = some s)
    (hid : id ∈ live.snapshots) {p : PartId} (hp : p ∈ s.partIds) :
    p ∈ live.parts := by
  unfold retained at h
  obtain ⟨current, -, h⟩ := bind_ok.1 h
  cases h
  exact List.mem_flatMap.2 ⟨id, hid, by simpa [hs] using hp⟩

theorem Catalogued.gcAt (hdb : Catalogued db) (h : db.gcAt retain now dryRun = .ok db') : Catalogued db' := by
  rcases gcAt_ok h with rfl | ⟨current, live, hcur, -, hkept, rfl⟩
  · exact hdb
  refine ⟨?_, ?_, ?_⟩
  · intro n hn
    obtain ⟨s, hs⟩ := mem_iff.1 (hdb.live n hn)
    refine mem_iff.2 ⟨s, sweep_snapshot.2 ⟨hs, ?_⟩⟩
    rcases hdb.current hcur with ⟨hnone, -⟩ | ⟨hsome, -⟩
    · have hn' : db.current? = some n := hn
      rw [hnone] at hn'
      cases hn'
    · have hn' : db.current? = some n := hn
      rw [hsome] at hn'
      cases hn'
      rw [hkept]
      exact mem_retained_current db _ retain now
  · intro id hid
    obtain ⟨s, hs⟩ := mem_iff.1 hid
    exact hdb.newest id (mem_iff.2 ⟨s, (sweep_snapshot.1 hs).1⟩)
  · intro id s hs
    exact hdb.named id s (sweep_snapshot.1 hs).1

end Mutiny.Prism
