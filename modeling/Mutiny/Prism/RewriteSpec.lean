import Mutiny.Prism.EngineSpec

/- What merging, migration and redaction do to a store.

   Each of them is a number of parts and one commit over them: `merge_effects`,
   `mergeTiered_effects`, `reembedParts_effects` and `redactBodies_effects` say
   which parts and which snapshot. An operation that fails, or finds nothing to
   do, leaves parts behind at most. -/
namespace Mutiny.Prism
open Mutiny.Lib SortedMap Script List

namespace Engine

variable (E : Engine) (db : Store)

/-! One part at a time. -/

variable {p : Part} {snap : Snapshot} {m : Model} {g : Generation} {e : PartEntry}

theorem mergedPart_spec (seq : Nat) (group : PartitionKey × List Row) :
    (E.mergedPart db seq group).Clean (fun fs p => fs = [.writePart p] ∧
      ∃ g, db.getGeneration group.1.generation = .ok g ∧ Wrote E seq g group.1 .default none group.2 p) := by
  refine .lift_bind fun g hg => ?_
  exact (putPart_spec ..).mono fun fs p h => ⟨h.1, g, hg, h.2⟩

theorem mergedPart_writer : Writer (fun _ => 1) (E.mergedPart db) some := by
  intro k group
  refine (mergedPart_spec ..).mono ?_
  rintro fs p ⟨rfl, g, -, hw⟩
  refine ⟨rfl, fun q hq => ?_⟩
  cases hq
  exact ⟨hw.seq, Nat.one_pos⟩

def OpOutcome.part (o : OpOutcome) : Option Part := o.written.map (fun w => w.2.2)

theorem mergeOp_spec (snap : Snapshot) (seq : Nat) (op : MergeOp) :
    (E.mergeOp db snap seq op).Clean (fun fs o => fs = o.part.toList.map Effect.writePart ∧
      opRead db op = .ok o.read ∧ o.live = liveRows snap o.read ∧ ((o.live = [] ∧ o.written = none) ∨
        ∃ first rest p g, o.live = first :: rest ∧ db.getGeneration first.1 = .ok g ∧
          o.written = some (E.partitionOf first.1 first.2.event, E.reconcile (o.live.map Prod.snd), p) ∧
          Wrote E seq g (E.partitionOf first.1 first.2.event) .default none (E.reconcile (o.live.map Prod.snd)) p)) := by
  refine .lift_bind fun read hread => ?_
  cases hlive : liveRows snap read with
  | nil => exact ⟨rfl, hread, hlive.symm, .inl ⟨rfl, rfl⟩⟩
  | cons first rest =>
    refine .bind_pure ((mergedPart_spec ..).mono ?_)
    rintro fs p ⟨rfl, g, hg, hw⟩
    exact ⟨rfl, hread, hlive.symm, .inr ⟨first, rest, p, g, rfl, hg, rfl, hw⟩⟩

theorem mergeOp_writer (snap : Snapshot) : Writer OpOutcome.used (E.mergeOp db snap) OpOutcome.part := by
  intro k op
  refine (mergeOp_spec ..).mono ?_
  rintro fs o ⟨rfl, -, -, ⟨-, hnone⟩ | ⟨first, rest, q, g, -, -, hwritten, hw⟩⟩
  · exact ⟨rfl, fun p hp => by simp [OpOutcome.part, hnone] at hp⟩
  · refine ⟨rfl, fun p hp => ?_⟩
    simp only [OpOutcome.part, hwritten, Option.map_some, Option.some.injEq] at hp
    subst hp
    exact ⟨hw.seq, by simp [OpOutcome.used, hwritten]⟩

theorem migratePartition_spec (snap : Snapshot) (m : Model) (g : Generation) (seq : Nat)
    (group : PartitionKey × List PartRef) :
    (E.migratePartition db snap m g seq group).Clean (fun fs o => fs = o.written.toList.map Effect.writePart ∧
      ∃ rows, E.migratedRows db m g (group.2.map PartRef.partId) = .ok rows ∧
        ((rows = [] ∧ o = ⟨entriesNamed snap (group.2.map PartRef.partId), none⟩) ∨
          ∃ p, o = ⟨[entryOf p { group.1 with generation := g.generationId }], some p⟩ ∧
            Wrote E seq g { group.1 with generation := g.generationId }
              { Lineage.default with reembeddedFrom := some group.1.generation } none rows p)) := by
  refine .lift_bind fun rows hrows => ?_
  split
  · next hempty => exact ⟨rfl, rows, hrows, .inl ⟨isEmpty_iff.1 hempty, rfl⟩⟩
  · refine .bind_pure ((putPart_spec ..).mono ?_)
    rintro fs p ⟨rfl, hw⟩
    exact ⟨rfl, rows, hrows, .inr ⟨p, rfl, hw⟩⟩

theorem migratePartition_writer (snap : Snapshot) (m : Model) (g : Generation) :
    Writer Migrated.used (E.migratePartition db snap m g) Migrated.written := by
  intro k group
  refine (migratePartition_spec ..).mono ?_
  rintro fs o ⟨rfl, rows, -, ⟨-, rfl⟩ | ⟨q, rfl, hw⟩⟩
  · exact ⟨rfl, fun p hp => by cases hp⟩
  · refine ⟨rfl, fun p hp => ?_⟩
    cases hp
    exact ⟨hw.seq, by simp [Migrated.used]⟩

/-- An entry comes out as it was, or with a part in the place of its own. -/
theorem redactPart_spec (before : Int) (reason : String) (now : Int) (seq : Nat) (e : PartEntry) :
    (E.redactPart db before reason now seq e).Clean (fun fs o => fs = o.written.toList.map Effect.writePart ∧
      (o = ⟨e, none⟩ ∨ ∃ r p g p', e = .located r ∧ db.parts[r.partId]? = some p ∧
        p.manifest.lineage.bodiesRedacted = false ∧ db.getGeneration r.partition.generation = .ok g ∧
        o = ⟨entryOf p' r.partition, some p'⟩ ∧
        Wrote E seq g r.partition ⟨none, true, now, reason⟩ none (p.rows.map Row.redacted) p')) := by
  cases e with
  | legacy id => exact ⟨rfl, .inl rfl⟩
  | located r =>
    refine .lift_bind fun p hp => ?_
    split
    · exact ⟨rfl, .inl rfl⟩
    · next hskip =>
      refine .lift_bind fun rows hrows => .lift_bind fun g hg => .bind_pure ((putPart_spec ..).mono ?_)
      rintro fs p' ⟨rfl, hw⟩
      obtain rfl := Part.readAll_ok hrows
      have hbodies : p.manifest.lineage.bodiesRedacted = false := by simpa using (not_or.1 hskip).2
      exact ⟨rfl, .inr ⟨r, p, g, p', rfl, Store.openManifest_ok.1 hp, hbodies, hg, rfl, hw⟩⟩

theorem redactPart_writer (before : Int) (reason : String) (now : Int) :
    Writer Redacted.used (E.redactPart db before reason now) Redacted.written := by
  intro k e
  refine (redactPart_spec ..).mono ?_
  rintro fs o ⟨rfl, rfl | ⟨r, p, g, p', -, -, -, -, rfl, hw⟩⟩
  · exact ⟨rfl, fun q hq => by cases hq⟩
  · refine ⟨rfl, fun q hq => ?_⟩
    cases hq
    exact ⟨hw.seq, by simp [Redacted.used]⟩

/-! Whole operations. -/

theorem mapFrom_commit {α β γ : Type} {used : β → Nat} {f : Nat → α → Work β} {part : β → Option Part}
    (h : Writer used f part) (n : Nat) (xs : List α) (next : List β → Work γ) (snap : List β → Snapshot)
    (hnext : ∀ ys, (next ys).effects = commitEffects (snap ys)) :
    Writes (mapFrom used f n xs >>= next).effects ∨
      ∃ ys, (mapFrom used f n xs).result = .ok ys ∧
        (mapFrom used f n xs >>= next).effects =
          (ys.filterMap part).map Effect.writePart ++ commitEffects (snap ys) := by
  cases hys : (mapFrom used f n xs).result with
  | error e =>
    rw [bind_effects_error hys]
    exact .inl (h.writes n xs)
  | ok ys =>
    rw [bind_effects_ok hys, h.effects hys, hnext ys]
    exact .inr ⟨ys, rfl, rfl⟩

def readRows (readers : List (Part × Option Dek)) : Except PrismError (List (Part × List Row)) :=
  readers.mapM (fun r => (r.1.readAll r.2).map (fun rows => (r.1, rows)))

theorem merge_effects (free : Option Nat) (now : Int) : (E.merge db free now).Meets (fun fs _ => Writes fs ∨
      ∃ snap readers read parts, db.current = .ok snap ∧ E.openParts db snap = .ok readers ∧
        readRows readers = .ok read ∧
        (mapFrom (fun _ => 1) (E.mergedPart db) snap.nextSeq (E.mergeGroups (liveRows snap read))).result = .ok parts ∧
        fs = parts.map Effect.writePart ++ commitEffects
          (snap.child (entriesOf (E.mergeGroups (liveRows snap read)) parts)
            (snap.nextSeq + (E.mergeGroups (liveRows snap read)).length) snap.activeGeneration
            { snap.toSnapshotMeta with tombstones := [] } now)) := by
  refine .lift_bind (fun _ => .inl writes_nil) fun snap hsnap => ?_
  refine .lift_bind (fun _ => .inl writes_nil) fun readers hopen => ?_
  split
  · exact .inl writes_nil
  · dsimp only
    split
    · exact .inl writes_nil
    · refine .lift_bind (fun _ => .inl writes_nil) fun read hread => ?_
      rcases mapFrom_commit (mergedPart_writer E db) snap.nextSeq (E.mergeGroups (liveRows snap read)) _ _
        (fun ys => congrArg effects (commitMeta_bind ..)) with h | ⟨parts, hparts, h⟩
      · exact .inl h
      · refine .inr ⟨snap, readers, read, parts, hsnap, hopen, hread, hparts, h.trans ?_⟩
        rw [filterMap_some]

theorem mergeTiered_effects (free : Option Nat) (now : Int) : (E.mergeTiered db free now).Meets (fun fs _ =>
      (∃ snap, db.current = .ok snap ∧ (snap.parts.filterMap PartEntry.located?).length ≠ snap.parts.length) ∨
      Writes fs ∨ ∃ snap os, db.current = .ok snap ∧ (mapFrom OpOutcome.used (E.mergeOp db snap) snap.nextSeq
          (planMerges (snap.parts.filterMap PartEntry.located?)).ops).result = .ok os ∧
        fs = (os.filterMap OpOutcome.part).map Effect.writePart ++ commitEffects
          (snap.child (unconsumed snap (planMerges (snap.parts.filterMap PartEntry.located?)).ops ++ opEntries os)
            (snap.nextSeq + (opEntries os).length) snap.activeGeneration snap.toSnapshotMeta now)) := by
  refine .lift_bind (fun _ => .inr (.inl writes_nil)) fun snap hsnap => ?_
  dsimp only
  split
  · next hlegacy => exact .inl ⟨snap, hsnap, hlegacy⟩
  · split
    · exact .inr (.inl writes_nil)
    · rcases mapFrom_commit (mergeOp_writer E db snap) snap.nextSeq
        (planMerges (snap.parts.filterMap PartEntry.located?)).ops _ _
        (fun ys => congrArg effects (commitMeta_bind ..)) with h | ⟨os, hos, h⟩
      · exact .inr (.inl h)
      · exact .inr (.inr ⟨snap, os, hsnap, hos, h⟩)

theorem redactBodies_effects (before : Int) (reason : String) (now : Int) :
    (E.redactBodies db before reason now).Meets (fun fs _ => Writes fs ∨ ∃ snap os, db.current = .ok snap ∧
        (mapFrom Redacted.used (E.redactPart db before reason now) snap.nextSeq snap.parts).result = .ok os ∧
        fs = (os.filterMap Redacted.written).map Effect.writePart ++ commitEffects
          (snap.child (os.map Redacted.entry) (snap.nextSeq + (os.filterMap Redacted.written).length)
            snap.activeGeneration snap.toSnapshotMeta now)) := by
  unfold redactBodies
  split
  · exact .inl writes_nil
  · refine .lift_bind (fun _ => .inl writes_nil) fun snap hsnap => ?_
    rcases mapFrom_commit (redactPart_writer E db before reason now) snap.nextSeq snap.parts _ _
      (fun ys => congrArg effects (commitMeta_bind ..)) with h | ⟨os, hos, h⟩
    · exact .inl h
    · exact .inr ⟨snap, os, hsnap, hos, h⟩

def placements (g : Generation) (snap : Snapshot) : Except PrismError (List (PartEntry × Placement)) :=
  snap.parts.mapM (fun e => (placementOf db g e).map (fun pl => (e, pl)))

/-- The partitions a migration has to move, in the order of their keys. -/
def todoOf (placed : List (PartEntry × Placement)) : List (PartitionKey × List PartRef) :=
  (SortedMap.group PartRef.partition
    ((placed.filter (fun ep => ep.2 = .todo)).filterMap (fun ep => ep.1.located?))).toList

def migratedEntries (snap : Snapshot) (placed : List (PartEntry × Placement)) (maxPartitions : Option Nat)
    (moved : List Migrated) : List PartEntry :=
  (placed.filter (fun ep => ep.2 ≠ .todo)).map Prod.fst ++ moved.flatMap Migrated.entries ++
    (maxPartitions.elim [] (todoOf placed).drop).flatMap (fun group => entriesNamed snap (group.2.map PartRef.partId))

theorem reembedParts_effects (snap : Snapshot) (g : Generation) (maxPartitions : Option Nat)
    (state : GenerationState) (now : Int) :
    (E.reembedParts db snap g maxPartitions state now).Meets (fun fs _ => Writes fs ∨
      ∃ m placed moved, E.plane.embedder g.modelId g.modelVersion E.config.dim g.modelArtifacts = .ok m ∧
        placements db g snap = .ok placed ∧ (mapFrom Migrated.used (E.migratePartition db snap m g) snap.nextSeq
          (maxPartitions.elim (todoOf placed) (todoOf placed).take)).result = .ok moved ∧
        fs = (moved.filterMap Migrated.written).map Effect.writePart ++ commitEffects
          (snap.child (migratedEntries snap placed maxPartitions moved)
            (snap.nextSeq + (moved.filterMap Migrated.written).length)
            (if state = .active then some g.generationId else snap.activeGeneration)
            { snap.toSnapshotMeta with generations := migratedStates snap g.generationId state } now)) := by
  refine .lift_bind (fun _ => .inl writes_nil) fun m hm => ?_
  refine .lift_bind (fun _ => .inl writes_nil) fun placed hplaced => ?_
  rcases mapFrom_commit (migratePartition_writer E db snap m g) snap.nextSeq
    (maxPartitions.elim (todoOf placed) (todoOf placed).take) _ _
    (fun ys => congrArg effects (commitMeta_bind ..)) with h | ⟨moved, hmoved, h⟩
  · exact .inl h
  · exact .inr ⟨m, placed, moved, hm, hplaced, hmoved, h⟩

/-! What a migration finds. -/

variable {E db} {placed : List (PartEntry × Placement)} {ref : PartRef} {ids : List PartId}

theorem mem_placements (h : placements db g snap = .ok placed) {ep : PartEntry × Placement} (hep : ep ∈ placed) :
    ep.1 ∈ snap.parts ∧ placementOf db g ep.1 = .ok ep.2 := by
  obtain ⟨e, he, hmap⟩ := mem_of_mapM h hep
  obtain ⟨pl, hpl, rfl⟩ := map_ok.1 hmap
  exact ⟨he, hpl⟩

theorem placements_covers (h : placements db g snap = .ok placed) (he : e ∈ snap.parts) :
    ∃ pl, (e, pl) ∈ placed ∧ placementOf db g e = .ok pl := by
  obtain ⟨ep, hep, hmap⟩ := mem_mapM h he
  obtain ⟨pl, hpl, rfl⟩ := map_ok.1 hmap
  exact ⟨pl, hep, hpl⟩

theorem placementOf_todo (hp : db.parts[ref.partId]? = some p) :
    placementOf db g (.located ref) = .ok .todo ↔
      ref.partition.generation ≠ g.generationId ∧ p.manifest.lineage.bodiesRedacted = false := by
  have hopen := Store.openManifest_ok.2 hp
  by_cases hg : ref.partition.generation = g.generationId
  · simp [placementOf, hg]
  · cases hb : p.manifest.lineage.bodiesRedacted <;> simp [placementOf, hg, hb, hopen]

theorem mem_todoOf (h : (.located ref, .todo) ∈ placed) :
    ∃ refs, (ref.partition, refs) ∈ todoOf placed ∧ ref ∈ refs := by
  have hmem : ref ∈ (placed.filter (fun ep => ep.2 = .todo)).filterMap (fun ep => ep.1.located?) :=
    mem_filterMap.2 ⟨_, mem_filter.2 ⟨h, by simp⟩, rfl⟩
  obtain ⟨refs, hrefs, hin⟩ : ∃ refs, (group PartRef.partition _)[ref.partition]? = some refs ∧ ref ∈ refs :=
    mem_group hmem
  exact ⟨refs, mem_toList.2 hrefs, hin⟩

theorem of_mem_todoOf {group : PartitionKey × List PartRef} (h : group ∈ todoOf placed) (href : ref ∈ group.2) :
    (.located ref, .todo) ∈ placed ∧ ref.partition = group.1 := by
  obtain ⟨hmem, hkey⟩ := of_mem_group (mem_toList.1 h) href
  obtain ⟨⟨e, pl⟩, hep, hloc⟩ := mem_filterMap.1 hmem
  obtain ⟨hep, hpl⟩ := mem_filter.1 hep
  cases e with
  | legacy id => cases hloc
  | located ref' =>
    cases hloc
    have hpl : pl = .todo := by simpa using hpl
    subst hpl
    exact ⟨hep, hkey⟩

theorem entriesNamed_covers (he : e ∈ snap.parts) (hid : e.partId ∈ ids) :
    ∃ e' ∈ entriesNamed snap ids, e' ∈ snap.parts ∧ e'.partId = e.partId := by
  cases hfind : snap.parts.find? (fun e' => e'.partId = e.partId) with
  | none =>
    have := List.find?_eq_none.1 hfind e he
    simp at this
  | some e' =>
    refine ⟨e', mem_filterMap.2 ⟨_, hid, hfind⟩, mem_of_find?_eq_some hfind, ?_⟩
    simpa using List.find?_some hfind

theorem of_mem_entriesNamed (h : e ∈ entriesNamed snap ids) : e ∈ snap.parts := by
  obtain ⟨id, -, hfind⟩ := mem_filterMap.1 h
  exact mem_of_find?_eq_some hfind

/-- The event embeds under the model, for a migration. -/
def Embeds (E : Engine) (m : Model) (e : Event) : Prop := ∃ v, E.plane.embed m (inputOf .migration e) = .ok v

theorem migratedRow_some {e : Event} {r : Row} (h : E.migratedRow m g e = .ok (some r)) :
    r.event = e ∧ E.Embeds m e := by
  unfold migratedRow at h
  cases hv : E.plane.embed m (inputOf .migration e) with
  | error err => simp [hv] at h
  | ok v =>
    simp only [hv] at h
    obtain ⟨r', hr', heq⟩ := map_ok.1 h
    cases heq
    obtain ⟨code, -, hrow⟩ := bind_ok.1 hr'
    cases hrow
    exact ⟨rfl, v, hv⟩

theorem migratedRow_of_embeds {e : Event} (h : E.Embeds m e) {o : Option Row} (ho : E.migratedRow m g e = .ok o) :
    ∃ r, o = some r := by
  obtain ⟨v, hv⟩ := h
  unfold migratedRow at ho
  simp only [hv] at ho
  obtain ⟨r, -, heq⟩ := map_ok.1 ho
  exact ⟨r, heq.symm⟩

/-- The rows of a partition that embed are carried over, and no others. -/
theorem migratedRows_covers {rows : List Row} (h : E.migratedRows db m g ids = .ok rows) {id : PartId}
    (hid : id ∈ ids) (hp : db.parts[id]? = some p) {r : Row} (hr : r ∈ p.rows) (hemb : E.Embeds m r.event) :
    ∃ r' ∈ rows, r'.event = r.event := by
  obtain ⟨all, hall, heq⟩ := bind_ok.1 h
  cases heq
  obtain ⟨os, hos, hpart⟩ := mem_mapM hall hid
  obtain ⟨q, hq, hrest⟩ := bind_ok.1 hpart
  obtain ⟨rs, hrs, hmap⟩ := bind_ok.1 hrest
  rw [Store.openManifest_ok.1 hq] at hp
  cases hp
  rw [Part.readAll_ok hrs] at hmap
  obtain ⟨o, ho, hrow⟩ := mem_mapM hmap hr
  obtain ⟨r', rfl⟩ := migratedRow_of_embeds hemb hrow
  exact ⟨r', reduceOption_mem_iff.2 (mem_flatten.2 ⟨os, hos, ho⟩), (migratedRow_some hrow).1⟩

theorem of_mem_migratedRows {rows : List Row} (h : E.migratedRows db m g ids = .ok rows) {r' : Row} (hr' : r' ∈ rows) :
    ∃ id ∈ ids, ∃ p, db.parts[id]? = some p ∧ ∃ r ∈ p.rows, r'.event = r.event ∧ E.Embeds m r.event := by
  obtain ⟨all, hall, heq⟩ := bind_ok.1 h
  cases heq
  obtain ⟨os, hos, hin⟩ := mem_flatten.1 (reduceOption_mem_iff.1 hr')
  obtain ⟨id, hid, hpart⟩ := mem_of_mapM hall hos
  obtain ⟨p, hp, hrest⟩ := bind_ok.1 hpart
  obtain ⟨rs, hrs, hmap⟩ := bind_ok.1 hrest
  rw [Part.readAll_ok hrs] at hmap
  obtain ⟨r, hr, hrow⟩ := mem_of_mapM hmap hin
  obtain ⟨hevent, hemb⟩ := migratedRow_some hrow
  exact ⟨id, hid, p, Store.openManifest_ok.1 hp, r, hr, hevent, hemb⟩

end Engine

end Mutiny.Prism
