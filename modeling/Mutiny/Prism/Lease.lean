import Mutiny.Prism.EngineSpec

/- Readers and the collector (`catalog.rs`: `LEASE_TTL_MS`, `retained`, `gc_at`).

   A reader pins the snapshot that is live when it starts and may use it for one
   lease. The collector does not know the readers: it keeps a snapshot for twice
   the lease after the snapshot was *created*. So a pinned snapshot is safe for the
   lease when it was created less than one lease before it was pinned
   (`pinned_snapshot_outlives_lease`), whatever is committed and collected
   meanwhile. A store that was idle for longer gives its next reader a snapshot
   that one commit and one collection take away at once
   (`idle_store_loses_pinned_snapshot`).

   Correspondence (Rust ↔ Lean) where names differ:
     a writer: `PartWriter::write` of some parts, then `commit_meta` over the live snapshot
                                   ↔ `CatalogEvent.commit` -/
namespace Mutiny.Prism
open Mutiny.Lib SortedMap

/-- What happens to a catalog: a writer commits, or the collector runs. -/
inductive CatalogEvent where
  | commit (written : List Part) (parts : List PartEntry) (nextSeq : Nat) (active : Option GenerationId)
      (extra : SnapshotMeta) (now : Int)
  | gcAt (retain : Nat) (now : Int) (dryRun : Bool)

def CatalogEvent.now : CatalogEvent → Int
  | .commit _ _ _ _ _ now => now
  | .gcAt _ now _ => now

def CatalogEvent.isGc : CatalogEvent → Bool
  | .commit .. => false
  | .gcAt .. => true

def writeThenCommit (written : List Part) (parent : Snapshot) (parts : List PartEntry) (nextSeq : Nat)
    (active : Option GenerationId) (extra : SnapshotMeta) (now : Int) : Work Snapshot := do
  Script.mk (written.map .writePart) (.ok ())
  commitMeta parent parts nextSeq active extra now

def catalogStep (w : World) : CatalogEvent → World
  | .commit written parts nextSeq active extra now =>
    match w.store.current with
    | .ok parent => (w.run (writeThenCommit written parent parts nextSeq active extra now)).1
    | .error _ => w
  | .gcAt retain now dryRun =>
    match w.store.gcAt retain now dryRun with
    | .ok db => { w with store := db }
    | .error _ => w

def catalogRun (w : World) (events : List CatalogEvent) : World := events.foldl catalogStep w

/-- A snapshot can be read: its file is there and so are the parts it names. -/
structure Readable (db : Store) (s : Snapshot) : Prop where
  file : db.snapshots[s.snapshotId]? = some s
  parts : ∀ p ∈ s.partIds, p ∈ db.parts

instance (db : Store) (s : Snapshot) : Decidable (Readable db s) :=
  decidable_of_iff (db.snapshots[s.snapshotId]? = some s ∧ ∀ p ∈ s.partIds, p ∈ db.parts)
    ⟨fun h => ⟨h.1, h.2⟩, fun h => ⟨h.1, h.2⟩⟩

/-! One step. -/

variable {db' : Store} {w : World} {s : Snapshot}

/-- What a commit event does: it may add parts, and either commits over the live snapshot or not. -/
theorem catalogStep_commit (w : World) (written : List Part) (parts : List PartEntry) (nextSeq : Nat)
    (active : Option GenerationId) (extra : SnapshotMeta) (now : Int) :
    let after := catalogStep w (.commit written parts nextSeq active extra now)
    let placed : World := { w with store := w.store.addParts written }
    after = w ∨ ∃ parent, w.store.current = .ok parent ∧ (after = placed ∨
      (∀ e ∈ parts, e.partId ∈ placed.store.parts) ∧ after = placed.committed (parent.child parts nextSeq active extra now)) := by
  intro after placed
  cases hcur : w.store.current with
  | error e => exact .inl (by simp only [after, catalogStep, hcur])
  | ok parent =>
    refine .inr ⟨parent, rfl, ?_⟩
    have hafter : after = (Script.perform exec (written.map .writePart ++
        commitEffects (parent.child parts nextSeq active extra now)) w).1 := by
      simp only [after, catalogStep, hcur]
      exact Script.run_fst _ _
    rw [hafter]
    exact (rewrite_cases written _ w).imp id (fun h => ⟨fun e he => (h.1 e he).2, h.2⟩)

variable {db : Store}

theorem Catalogued.addParts (h : Catalogued db) (ps : List Part) : Catalogued (db.addParts ps) := by
  rw [db.addParts_eq ps]
  exact ⟨h.live, h.newest, h.named⟩

theorem Store.addParts_mem {id : PartId} (h : id ∈ db.parts) (ps : List Part) : id ∈ (db.addParts ps).parts := by
  obtain ⟨q, hq⟩ := mem_iff.1 h
  exact mem_iff.2 ⟨q, Store.addParts_keeps hq ps⟩

theorem catalogued_step (h : Catalogued w.store) (e : CatalogEvent) : Catalogued (catalogStep w e).store := by
  cases e with
  | commit written parts nextSeq active extra now =>
    rcases catalogStep_commit w written parts nextSeq active extra now with hsame | ⟨parent, hparent, hstep | ⟨-, hstep⟩⟩
    · rw [hsame]
      exact h
    · rw [hstep]
      exact h.addParts written
    · rw [hstep]
      exact (h.addParts written).committed (w := { w with store := w.store.addParts written })
        ((w.store.addParts_current written).trans hparent)
  | gcAt retain now dryRun =>
    rw [catalogStep]
    cases hgc : w.store.gcAt retain now dryRun with
    | error e => exact h
    | ok db => exact h.gcAt hgc

theorem catalogued_run (h : Catalogued w.store) (events : List CatalogEvent) : Catalogued (catalogRun w events).store :=
  List.foldlRecOn (motive := fun w => Catalogued w.store) events catalogStep h (fun _ h e _ => catalogued_step h e)

/-- A commit takes nothing from a reader: it adds parts and a snapshot with a new number. -/
theorem Readable.commit (hw : Catalogued w.store) (h : Readable w.store s) (written : List Part)
    (parts : List PartEntry) (nextSeq : Nat) (active : Option GenerationId) (extra : SnapshotMeta) (now : Int) :
    Readable (catalogStep w (.commit written parts nextSeq active extra now)).store s := by
  have hdb : Readable (w.store.addParts written) s :=
    ⟨(w.store.addParts_snapshots written).symm ▸ h.file, fun p hp => Store.addParts_mem (h.parts p hp) written⟩
  rcases catalogStep_commit w written parts nextSeq active extra now with hsame | ⟨parent, hparent, hstep | ⟨-, hstep⟩⟩
  · rw [hsame]
    exact h
  · rw [hstep]
    exact hdb
  · rw [hstep]
    refine ⟨?_, hdb.parts⟩
    have hle := hw.le_current hparent (mem_iff.2 ⟨s, h.file⟩)
    have hne : parent.snapshotId + 1 ≠ s.snapshotId := by omega
    have hget : ((w.store.addParts written).snapshots.insert (parent.snapshotId + 1)
        (parent.child parts nextSeq active extra now))[s.snapshotId]? = some s := by
      rw [getElem?_insert, if_neg hne]
      exact hdb.file
    exact hget

/-- A collection leaves a snapshot alone that is younger than the horizon. -/
theorem Readable.gcAt (h : Readable db s) {retain : Nat} {now : Int} {dryRun : Bool}
    (hgc : db.gcAt retain now dryRun = .ok db') (hyoung : saturatingSub now gcHorizonMs < s.createdAtMs) :
    Readable db' s := by
  rcases gcAt_ok hgc with rfl | ⟨current, live, -, hlive, hkept, rfl⟩
  · exact h
  have hid : s.snapshotId ∈ live.snapshots := by
    rw [hkept]
    exact mem_retained_young h.file current.snapshotId retain hyoung
  refine ⟨sweep_snapshot.2 ⟨h.file, hid⟩, ?_⟩
  intro p hp
  obtain ⟨part, hpart⟩ := mem_iff.1 (h.parts p hp)
  exact mem_iff.2 ⟨part, sweep_part.2 ⟨hpart, retained_parts hlive h.file hid hp⟩⟩

theorem Readable.step (hw : Catalogued w.store) (h : Readable w.store s) (e : CatalogEvent)
    (hyoung : e.isGc = true → saturatingSub e.now gcHorizonMs < s.createdAtMs) :
    Readable (catalogStep w e).store s := by
  cases e with
  | commit written parts nextSeq active extra now => exact h.commit hw written parts nextSeq active extra now
  | gcAt retain now dryRun =>
    rw [catalogStep]
    cases hgc : w.store.gcAt retain now dryRun with
    | error e => exact h
    | ok db => exact h.gcAt hgc (hyoung rfl)

/-! Whole runs. -/

theorem Readable.run (hw : Catalogued w.store) (h : Readable w.store s) (events : List CatalogEvent)
    (hyoung : ∀ e ∈ events, e.isGc = true → saturatingSub e.now gcHorizonMs < s.createdAtMs) :
    Readable (catalogRun w events).store s :=
  (List.foldlRecOn (motive := fun w => Catalogued w.store ∧ Readable w.store s) events catalogStep ⟨hw, h⟩
    (fun _ h e he => ⟨catalogued_step h.1 e, h.2.step h.1 e (hyoung e he)⟩)).2

def LiveParts (db : Store) : Prop := ∀ s, db.current = .ok s → ∀ p ∈ s.partIds, p ∈ db.parts

theorem liveParts_step (hw : Catalogued w.store) (h : LiveParts w.store) (e : CatalogEvent) :
    LiveParts (catalogStep w e).store := by
  cases e with
  | commit written parts nextSeq active extra now =>
    rcases catalogStep_commit w written parts nextSeq active extra now with hsame | ⟨parent, -, hstep | ⟨hcheck, hstep⟩⟩
    · rw [hsame]
      exact h
    · rw [hstep]
      intro s hs p hp
      exact Store.addParts_mem (h s ((w.store.addParts_current written).symm.trans hs) p hp) written
    · rw [hstep]
      intro s hs p hp
      rw [World.committed_current] at hs
      cases hs
      obtain ⟨e, he, rfl⟩ := List.mem_map.1 hp
      exact hcheck e he
  | gcAt retain now dryRun =>
    rw [catalogStep]
    cases hgc : w.store.gcAt retain now dryRun with
    | error e => exact h
    | ok db =>
      intro s hs p hp
      rcases gcAt_ok hgc with rfl | ⟨current, live, hcur, hlive, hkept, rfl⟩
      · exact h s hs p hp
      have hsweep : Catalogued (w.store.sweep live) := hw.gcAt hgc
      rcases hsweep.current hs with ⟨-, rfl⟩ | ⟨hcur?, hfile⟩
      · cases hp
      obtain ⟨hfile, hid⟩ := sweep_snapshot.1 hfile
      obtain ⟨part, hpart⟩ := mem_iff.1 (h s (Store.current_of hcur? hfile) p hp)
      exact mem_iff.2 ⟨part, sweep_part.2 ⟨hpart, retained_parts hlive hfile hid hp⟩⟩

theorem liveParts_run (hw : Catalogued w.store) (h : LiveParts w.store) (events : List CatalogEvent) :
    LiveParts (catalogRun w events).store :=
  (List.foldlRecOn (motive := fun w => Catalogued w.store ∧ LiveParts w.store) events catalogStep ⟨hw, h⟩
    (fun _ h e _ => ⟨catalogued_step h.1 e, liveParts_step h.1 h.2 e⟩)).2

/-- Whatever was committed and collected, at any clocks, a reader that starts now finds a snapshot with every
    part it names, and no snapshot is newer. -/
theorem live_snapshot_survives (events : List CatalogEvent) : let db := (catalogRun .blank events).store
    ∃ s, db.current = .ok s ∧ ((db.current? = none ∧ s = .empty) ∨ Readable db s) ∧
      ∀ id ∈ db.snapshots, id ≤ s.snapshotId := by
  intro db
  have hcat : Catalogued db := catalogued_run catalogued_blank events
  have hparts : LiveParts db := liveParts_run catalogued_blank (by intro s hs p hp; cases hs; cases hp) events
  have hlive : ∃ s, db.current = .ok s := by
    cases hcur : db.current? with
    | none => exact ⟨.empty, by simp [Store.current, hcur]⟩
    | some n =>
      obtain ⟨s, hfile⟩ := mem_iff.1 (hcat.live n hcur)
      exact ⟨s, Store.current_of hcur hfile⟩
  obtain ⟨s, hs⟩ := hlive
  exact ⟨s, hs, (hcat.current hs).imp_right (fun h => ⟨h.2, hparts s hs⟩), fun id hid => hcat.le_current hs hid⟩

theorem young_within_lease {t now created : Int} (hyoung : t - leaseTtlMs < created) (hmin : i64Min < created)
    (hnow : now ≤ t + leaseTtlMs) : saturatingSub now gcHorizonMs < created := by
  unfold saturatingSub
  refine max_lt hmin ?_
  have hgrace : gcHorizonMs = leaseTtlMs + leaseTtlMs := rfl
  rw [hgrace]
  omega

/-- A reader that pinned the live snapshot at `t` can use it for a lease, through any commits and
    collections, if the snapshot was created less than a lease before `t`. -/
theorem pinned_snapshot_outlives_lease (before after : List CatalogEvent) (t : Int) (s : Snapshot)
    (hlive : (catalogRun .blank before).store.current? = some s.snapshotId ∧
      (catalogRun .blank before).store.current = .ok s)
    (hyoung : t - leaseTtlMs < s.createdAtMs ∧ i64Min < s.createdAtMs)
    (hlease : ∀ e ∈ after, e.isGc = true → e.now ≤ t + leaseTtlMs) :
    Readable (catalogRun .blank (before ++ after)).store s := by
  have hcat : Catalogued (catalogRun .blank before).store := catalogued_run catalogued_blank before
  have hparts : LiveParts (catalogRun .blank before).store :=
    liveParts_run catalogued_blank (by rintro s' hs' p hp; cases hs'; cases hp) before
  have hread : Readable (catalogRun .blank before).store s := by
    rcases hcat.current hlive.2 with ⟨hnone, -⟩ | ⟨-, hfile⟩
    · rw [hnone] at hlive
      cases hlive.1
    · exact ⟨hfile, hparts s hlive.2⟩
  have happend : catalogRun .blank (before ++ after) = catalogRun (catalogRun .blank before) after := List.foldl_append
  rw [happend]
  exact hread.run hcat after (fun e he hgc => young_within_lease hyoung.1 hyoung.2 (hlease e he hgc))

/-! An idle store. -/

def idlePart : Part where
  manifest :=
    { formatVersion := formatVersion, partId := ⟨1, "d"⟩, generationId := "g", modelId := "m", modelVersion := "1"
      rowCount := 1, timeMin := 0, timeMax := 0, tenants := ["t"], encryption := false, tenantTokens := false
      partition := some ⟨.shared 0, 0, "g"⟩, tenantStats := [], lineage := .default, envelope := none }
  columns := .clear []

def idleEntry : PartEntry := .located ⟨⟨1, "d"⟩, ⟨.shared 0, 0, "g"⟩, 1, ["t"], 0, 0⟩

/-- The snapshot with that part, committed at time 0. -/
def idleSnapshot : Snapshot :=
  Snapshot.empty.child [idleEntry] 2 (some "g") Snapshot.empty.toSnapshotMeta 0

def firstCommit : CatalogEvent :=
  .commit [idlePart] [idleEntry] 2 (some "g") Snapshot.empty.toSnapshotMeta 0

def droppingCommit (now : Int) : CatalogEvent := .commit [] [] 2 (some "g") Snapshot.empty.toSnapshotMeta now

theorem firstCommit_live : (catalogRun .blank [firstCommit]).store.current? = some 1 ∧
    (catalogRun .blank [firstCommit]).store.snapshots[1]? = some idleSnapshot := by
  decide +kernel

/-- Pinned half an hour after it was written, the snapshot is there at the end of the lease. -/
theorem fresh_snapshot_outlives_lease :
    Readable (catalogRun .blank ([firstCommit] ++ [droppingCommit 1800000, .gcAt 1 5400000 false])).store idleSnapshot :=
  pinned_snapshot_outlives_lease [firstCommit] [droppingCommit 1800000, .gcAt 1 5400000 false] 1800000 idleSnapshot
    ⟨firstCommit_live.1, Store.current_of firstCommit_live.1 firstCommit_live.2⟩ (by decide)
    (by decide)

/-- Three hours after the last commit a reader pins the live snapshot; a commit and a collection at
    that same moment take the snapshot's file and its part away. -/
theorem idle_store_loses_pinned_snapshot : let t : Int := 3 * leaseTtlMs
    let before := [firstCommit]
    let after := [droppingCommit t, .gcAt 1 t false]
    ((before ++ after).map CatalogEvent.now).Pairwise (· ≤ ·) ∧
      ((catalogRun .blank before).store.current? = some 1 ∧
        (catalogRun .blank before).store.snapshots[1]? = some idleSnapshot) ∧
      (∀ e ∈ after, e.now ≤ t + leaseTtlMs) ∧
      1 ∉ (catalogRun .blank (before ++ after)).store.snapshots ∧
      (∀ p ∈ idleSnapshot.partIds, p ∉ (catalogRun .blank (before ++ after)).store.parts) := by
  decide +kernel

end Mutiny.Prism
