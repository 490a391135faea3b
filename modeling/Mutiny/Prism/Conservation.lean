import Mutiny.Lib.Run
import Mutiny.Prism.MergeSpec

/- Rows through migration, retention and merging.

   A row is visible when the live snapshot lists the part that holds it and its
   event is not deleted (`Visible`). The maintenance operations (canary, migration,
   redaction and the two merges) rewrite parts; what each of them must find so that
   no visible row is lost is its `Op.Spares`. -/
namespace Mutiny.Prism
open Mutiny.Lib SortedMap Script Engine World Store List

def Part.bodiesRedacted (p : Part) : Bool := p.manifest.lineage.bodiesRedacted

/-- The rows of a part that are not deleted as of a snapshot. -/
def Snapshot.rowsIn (snap : Snapshot) (p : Part) : List (Part × Row) :=
  (p.rows.filter (fun r => !snap.isTombstoned r.event.eventId)).map (fun r => (p, r))

/-- The rows of the live snapshot that are not deleted, each with the part that holds it. -/
def visibleRows (db : Store) : List (Part × Row) :=
  match db.current with
  | .error _ => []
  | .ok snap => snap.parts.flatMap (fun e => (db.parts[e.partId]?).elim [] snap.rowsIn)

def Visible (db : Store) (p : Part) (r : Row) : Prop := (p, r) ∈ visibleRows db

variable {p : Part} {r : Row} {db : Store}

theorem visible_iff :
    Visible db p r ↔ ∃ snap e, db.current = .ok snap ∧ e ∈ snap.parts ∧ db.parts[e.partId]? = some p ∧ r ∈ p.rows ∧
      snap.isTombstoned r.event.eventId = false := by
  unfold Visible visibleRows
  cases hcur : db.current with
  | error e => simp
  | ok snap =>
    simp only [mem_flatMap, Except.ok.injEq]
    constructor
    · rintro ⟨e, he, hmem⟩
      cases hp : db.parts[e.partId]? with
      | none => simp [hp] at hmem
      | some q =>
        obtain ⟨h, rfl⟩ : (r ∈ q.rows ∧ snap.isTombstoned r.event.eventId = false) ∧ q = p := by
          simpa [hp, Snapshot.rowsIn] using hmem
        exact ⟨snap, e, rfl, he, hp, h⟩
    · rintro ⟨snap', e, rfl, he, hp, hr, hlive⟩
      refine ⟨e, he, ?_⟩
      simp [hp, Snapshot.rowsIn, hr, hlive]

/-- How a row may come out of an operation: with the same event, or, from a redaction, without its body and
    in a part that says so; a row of a redacted part stays in one. -/
structure Kept (redacting : Prop) (p : Part) (r : Row) (p' : Part) (r' : Row) : Prop where
  event : r'.event = r.event ∨ (redacting ∧ r'.event = r.redacted.event ∧ p'.bodiesRedacted = true)
  marked : p.bodiesRedacted = true → p'.bodiesRedacted = true ∧ r'.event = r.event

theorem Kept.refl (redacting : Prop) (p : Part) (r : Row) : Kept redacting p r p r := ⟨.inl rfl, fun h => ⟨h, rfl⟩⟩

variable {redacting : Prop}

theorem Kept.plain {p p' : Part} {r r' : Row} (hevent : r'.event = r.event) (hp : p.bodiesRedacted = false) :
    Kept redacting p r p' r' :=
  ⟨.inl hevent, fun h => absurd (hp.symm.trans h) Bool.false_ne_true⟩

def Conserves (redacting : Prop) (db db' : Store) : Prop :=
  ∀ p r, Visible db p r → ∃ p' r', Visible db' p' r' ∧ Kept redacting p r p' r'

/-- A part filed under the key its rows belong to. -/
def FiledAs (E : Engine) (p : Part) (key : PartitionKey) : Prop :=
  p.manifest.generationId = key.generation ∧ ∀ r ∈ p.rows, E.partitionOf p.manifest.generationId r.event = key

/-- The catalog files parts where their rows belong. -/
structure Orderly (E : Engine) (db : Store) : Prop where
  named : ∀ (id : GenerationId) (g : Generation), db.generations[id]? = some g → g.generationId = id
  located : ∀ snap, db.current = .ok snap → ∀ e ∈ snap.parts, ∃ r, e = .located r
  held : ∀ snap, db.current = .ok snap → ∀ e ∈ snap.parts, e.partId ∈ db.parts
  filed : ∀ snap, db.current = .ok snap → ∀ ref, .located ref ∈ snap.parts → ∀ p, db.parts[ref.partId]? = some p →
    FiledAs E p ref.partition
  active : ∀ snap, db.current = .ok snap → ∀ e ∈ snap.parts, snap.activeGeneration ≠ none

/-- A step that loses no row and leaves the catalog orderly. -/
abbrev Keeps (E : Engine) (redacting : Prop) (db db' : Store) : Prop := Conserves redacting db db' ∧ Orderly E db'

/-! Parts and one commit. -/

section Rewrite

variable {E : Engine} {w : World} {snap child : Snapshot} {ps : List Part}

/-- A part that an entry of a new snapshot names: one that was just written, or one that was there. -/
def Named (db : Store) (ps : List Part) (e : PartEntry) (p : Part) : Prop :=
  (p ∈ ps ∧ e.partId = p.id) ∨ db.parts[e.partId]? = some p

variable {db : Store} {p : Part}

theorem Named.placed (hps : ps.Pairwise (fun p q => p.id.seq < q.id.seq)) (hfree : Unclashed db ps) {e : PartEntry}
    (h : Named db ps e p) : (db.addParts ps).parts[e.partId]? = some p := by
  rcases h with ⟨hp, hid⟩ | h
  · rw [hid]
    exact addParts_placed hps hfree hp
  · exact addParts_keeps h ps

theorem Visible.addParts {r : Row} (h : Visible db p r) (ps : List Part) : Visible (db.addParts ps) p r := by
  obtain ⟨snap, e, hcur, he, hp, hr, hlive⟩ := visible_iff.1 h
  exact visible_iff.2 ⟨snap, e, (db.addParts_current ps).trans hcur, he, addParts_keeps hp ps, hr, hlive⟩

variable {x : Work Unit}

theorem Orderly.addParts (h : Orderly E db) (ps : List Part) : Orderly E (db.addParts ps) where
  named id g hg := by
    rw [db.addParts_eq ps] at hg
    exact h.named id g hg
  located snap hcur := h.located snap ((db.addParts_current ps).symm.trans hcur)
  held snap hcur e he := by
    obtain ⟨p, hp⟩ := mem_iff.1 (h.held snap ((db.addParts_current ps).symm.trans hcur) e he)
    exact mem_iff.2 ⟨p, addParts_keeps hp ps⟩
  filed snap hcur ref href p hp := by
    have hcur' := (db.addParts_current ps).symm.trans hcur
    obtain ⟨q, hq⟩ := mem_iff.1 (h.held snap hcur' _ href)
    obtain rfl := Option.mem_unique (addParts_keeps hq ps) hp
    exact h.filed snap hcur' ref href q hq
  active snap hcur := h.active snap ((db.addParts_current ps).symm.trans hcur)

variable {redacting : Prop}

/-- A rewrite keeps the rows if its snapshot names parts for them, and the catalog orderly if it files its parts where
    their rows belong. -/
theorem rewrite_keeps (hx : x.effects = ps.map Effect.writePart ++ commitEffects child) (hw : Orderly E w.store)
    (hcur : w.store.current = .ok snap) (hps : ps.Pairwise (fun p q => p.id.seq < q.id.seq))
    (hfree : Unclashed w.store ps) (hrows : ∀ e ∈ snap.parts, ∀ p, w.store.parts[e.partId]? = some p → ∀ r ∈ p.rows,
      snap.isTombstoned r.event.eventId = false → ∃ e' ∈ child.parts, ∃ p' r', Named w.store ps e' p' ∧ r' ∈ p'.rows ∧
        child.isTombstoned r'.event.eventId = false ∧ Kept redacting p r p' r')
    (hnew : ∀ e ∈ child.parts, e ∈ snap.parts ∨
      ∃ p ∈ ps, ∃ key, e = Engine.entryOf p key ∧ FiledAs E p key ∧ snap.parts ≠ [])
    (hactive : snap.activeGeneration ≠ none → child.activeGeneration ≠ none) :
    Keeps E redacting w.store (w.run x).1.store := by
  rw [World.run, Script.run_fst x w, hx]
  have hplaced := hw.addParts ps
  rcases rewrite_cases ps child w with h | ⟨hchecked, h⟩
  · rw [h]
    exact ⟨fun p r hvis => ⟨p, r, hvis.addParts ps, .refl redacting p r⟩, hplaced⟩
  rw [h]
  have hlive : ∀ s, (World.committed { w with store := w.store.addParts ps } child).store.current = .ok s → s = child := by
    intro s hs
    exact ok_unique hs (World.committed_current _ _)
  refine ⟨?_, hplaced.named, ?_, ?_, ?_, ?_⟩
  · intro p r hvis
    obtain ⟨snap', e, hcur', he, hp, hr, hlive⟩ := visible_iff.1 hvis
    obtain rfl := ok_unique hcur hcur'
    obtain ⟨e', he', p', r', hname, hr', hlive', hkept⟩ := hrows e he p hp r hr hlive
    exact ⟨p', r', visible_iff.2 ⟨child, e', World.committed_current _ _, he', hname.placed hps hfree, hr', hlive'⟩,
      hkept⟩
  · intro s hs e he
    obtain rfl := hlive s hs
    rcases hnew e he with hold | ⟨p, -, key, rfl, -⟩
    · exact hw.located snap hcur e hold
    · exact ⟨_, rfl⟩
  · intro s hs e he
    obtain rfl := hlive s hs
    exact (hchecked e he).2
  · intro s hs ref href p hp
    obtain rfl := hlive s hs
    rcases hnew _ href with hold | ⟨q, hq, key, heq, hfiled, -⟩
    · exact hplaced.filed snap ((w.store.addParts_current ps).trans hcur) ref hold p hp
    · cases heq
      obtain rfl := Option.mem_unique (Store.addParts_placed hps hfree hq) hp
      exact hfiled
  · intro s hs e he
    obtain rfl := hlive s hs
    refine hactive ?_
    rcases hnew e he with hold | ⟨-, -, -, -, -, hparts⟩
    · exact hw.active snap hcur e hold
    · obtain ⟨e0, he0⟩ := List.exists_mem_of_ne_nil _ hparts
      exact hw.active snap hcur e0 he0

theorem kept_writes (hx : Writes x.effects) (hw : Orderly E w.store) :
    Keeps E redacting w.store (w.run x).1.store := by
  obtain ⟨ps, hps⟩ := hx
  have hrun : (w.run x).1 = { w with store := w.store.addParts ps } := by
    refine (run_fst x w).trans ?_
    rw [hps, perform_writes]
  rw [hrun]
  exact ⟨fun p r hvis => ⟨p, r, hvis.addParts ps, .refl redacting p r⟩, hw.addParts ps⟩

end Rewrite

/-! The merges. -/

variable {op : Op} {read : List (Part × List Row)} {free : Option Nat} {snap : Snapshot}

/-- A part to be written does not find another one under its name. -/
def Effect.fits (db : Store) : Effect → Bool
  | .writePart p => (db.parts[p.id]?).all (fun q => q = p)
  | _ => true

/-- No part is written under a name that another part has. -/
def Op.Unclashed (E : Engine) (db : Store) (now : Int) (op : Op) : Prop :=
  ∀ f ∈ (op.work E db now).effects, f.fits db = true

/-- Two visible rows of one partition with one event id are the same event. -/
def Unambiguous (E : Engine) (db : Store) : Prop :=
  ∀ x ∈ visibleRows db, ∀ y ∈ visibleRows db,
    E.partitionOf x.1.manifest.generationId x.2.event = E.partitionOf y.1.manifest.generationId y.2.event →
    x.2.event.eventId = y.2.event.eventId → y.2.event = x.2.event

def plannedOps (snap : Snapshot) : List Engine.MergeOp :=
  (Engine.planMerges (snap.parts.filterMap PartEntry.located?)).ops

/-- Of each partition that is to be moved: if one of its rows embeds, those of them that are not deleted all do. -/
def EmbedsAlike (E : Engine) (db : Store) (m : Model) (g : Generation) (maxPartitions : Option Nat) : Prop :=
  ∀ snap placed, db.current = .ok snap → placements db g snap = .ok placed →
    ∀ group ∈ maxPartitions.elim (todoOf placed) (todoOf placed).take, ∀ ref ∈ group.2, ∀ ref' ∈ group.2,
    ∀ p p', db.parts[ref.partId]? = some p → db.parts[ref'.partId]? = some p' →
    ∀ r ∈ p.rows, snap.isTombstoned r.event.eventId = false → ∀ r' ∈ p'.rows, E.Embeds m r'.event → E.Embeds m r.event

/-- The rows of a partition embed together or not at all; a merge reads no event id twice with different contents and
    no part without its bodies. -/
def Op.Finds (E : Engine) (db : Store) : Op → Prop
  | .canary genId maxPartitions => ∀ g m, db.generations[genId]? = some g →
      E.plane.embedder g.modelId g.modelVersion E.config.dim g.modelArtifacts = .ok m →
      EmbedsAlike E db m g (some maxPartitions)
  | .migrate genId maxPartitions => ∀ g m, db.generations[genId]? = some g →
      E.plane.embedder g.modelId g.modelVersion E.config.dim g.modelArtifacts = .ok m → EmbedsAlike E db m g maxPartitions
  | .merge _ => Unambiguous E db ∧ ∀ x ∈ visibleRows db, x.1.bodiesRedacted = false
  | .mergeTiered _ => Unambiguous E db ∧ ∀ snap, db.current = .ok snap → ∀ op ∈ plannedOps snap, ∀ id ∈ op.partIds,
      ∀ p, db.parts[id]? = some p → p.bodiesRedacted = false
  | _ => True

/-- What an operation that gets as far as a commit has to find so that it loses nothing. A merge of fewer than two
    parts, or one that waits for room on the disk, stops before that. -/
def Op.Spares (E : Engine) (db : Store) (now : Int) (op : Op) : Prop :=
  (∃ child, commitEffects child <:+ (op.work E db now).effects) → op.Unclashed E db now ∧ op.Finds E db

variable {E : Engine} {w : World} {now : Int}

theorem Op.Spares.found (h : op.Spares E db now) {ps : List Part} {child : Snapshot}
    (hx : (op.work E db now).effects = ps.map Effect.writePart ++ commitEffects child) :
    Prism.Unclashed db ps ∧ op.Finds E db := by
  obtain ⟨hfree, hfinds⟩ := h ⟨child, _, hx.symm⟩
  refine ⟨fun p hp q hq => ?_, hfinds⟩
  have hmem : Effect.writePart p ∈ (op.work E db now).effects := by
    rw [hx]
    exact mem_append_left _ (mem_map_of_mem hp)
  have hfits := hfree _ hmem
  simpa [Effect.fits, hq] using hfits

theorem visible_of_read {readers : List (Part × Option Dek)} (hcur : w.store.current = .ok snap)
    (hopen : E.openParts w.store snap = .ok readers) (hread : readRows readers = .ok read)
    {gr : GenerationId × Row} (h : gr ∈ liveRows snap read) :
    ∃ p, Visible w.store p gr.2 ∧ gr.1 = p.manifest.generationId := by
  obtain ⟨pr, hpr, hgen, hrow, hlive⟩ := mem_liveRows.1 h
  obtain ⟨hrows, e, he, hp⟩ := mem_readRows hopen hread hpr
  rw [hrows] at hrow
  exact ⟨pr.1, visible_iff.2 ⟨snap, e, hcur, he, hp, hrow, hlive⟩, hgen⟩

theorem Visible.parts_ne_nil (h : Visible w.store p r) (hcur : w.store.current = .ok snap) : snap.parts ≠ [] := by
  obtain ⟨snap', e, hcur', he, -⟩ := visible_iff.1 h
  obtain rfl := ok_unique hcur hcur'
  exact ne_nil_of_mem he

theorem merge_keeps (hw : Orderly E w.store) (hspares : (Op.merge free).Spares E w.store now) :
    Keeps E redacting w.store (w.step E now (.merge free)).store := by
  have heff : ((Op.merge free).work E w.store now).effects = (E.merge w.store free now).effects :=
    bind_pure_effects _ _
  rcases merge_effects E w.store free now with h | ⟨snap, readers, read, parts, hcur, hopen, hread, hparts, h⟩
  · exact kept_writes (heff ▸ h) hw
  rw [← heff] at h
  have hrise := (mergedPart_writer E w.store).rising hparts
  rw [filterMap_some] at hrise
  have hwrote := mapFrom_forall₂ hparts
  obtain ⟨hclash, hone, hplain⟩ := hspares.found h
  refine rewrite_keeps h hw hcur hrise hclash ?_ ?_ id
  · intro e he p hp r hr hlive
    have hin : (p.manifest.generationId, r) ∈ liveRows snap read :=
      mem_liveRows.2 ⟨(p, p.rows), readRows_covers hopen hread he hp, rfl, hr, hlive⟩
    obtain ⟨group, hgroup, gr', hgr', hr', hid, hkey, hkey'⟩ := mergeGroups_covers hin
    obtain ⟨q, hq, ⟨k, hok⟩, hentry⟩ := entriesOf_covers hwrote hgroup
    obtain ⟨-, g, -, hwq⟩ := (mergedPart_spec ..).of_ok hok
    obtain ⟨p', hvis', hgen⟩ := visible_of_read hcur hopen hread hgr'
    have hvis : Visible w.store p r := visible_iff.2 ⟨snap, e, hcur, he, hp, hr, hlive⟩
    have hevent : gr'.2.event = r.event := hone (p, r) hvis (p', gr'.2) hvis' (by rw [← hgen, ← hkey', hkey]) hid.symm
    exact ⟨_, hentry, q, gr'.2, .inl ⟨hq, rfl⟩, (hwq.mem_rows _).2 hr', rfl, .plain hevent (hplain (p, r) hvis)⟩
  · intro e he
    obtain ⟨group, hgroup, q, hq, ⟨k, hok⟩, rfl⟩ := of_mem_entriesOf hwrote he
    obtain ⟨-, g, hg, hwq⟩ := (mergedPart_spec ..).of_ok hok
    have hgen : q.manifest.generationId = group.1.generation :=
      hwq.generation.trans (hw.named _ g (getGeneration_ok.1 hg))
    refine .inr ⟨q, hq, group.1, rfl, ⟨hgen, ?_⟩, ?_⟩
    · intro r hr
      obtain ⟨gen, -, hkey⟩ := of_mem_mergeGroups hgroup ((hwq.mem_rows r).1 hr)
      rw [hgen, ← hkey]
      rfl
    · obtain ⟨r, hr⟩ := exists_mem_of_ne_nil _ hwq.nonempty
      obtain ⟨gen, hin, -⟩ := of_mem_mergeGroups hgroup hr
      obtain ⟨p, hvis, -⟩ := visible_of_read hcur hopen hread hin
      exact hvis.parts_ne_nil hcur

theorem plannedOps_partition {op : MergeOp} (h : op ∈ plannedOps snap) :
    ∃ key, ∀ id ∈ op.partIds, ∃ ref, .located ref ∈ snap.parts ∧ ref.partId = id ∧ ref.partition = key := by
  obtain ⟨key, hkey⟩ := planMerges_partition h
  refine ⟨key, fun id hid => ?_⟩
  obtain ⟨ref, href, hpart, hk⟩ := hkey id hid
  obtain ⟨e, he, hloc⟩ := mem_filterMap.1 href
  cases e with
  | legacy id' => cases hloc
  | located ref' =>
    cases hloc
    exact ⟨ref, he, hpart, hk⟩

theorem filterMap_located {entries : List PartEntry} (h : ∀ e ∈ entries, ∃ r, e = .located r) :
    (entries.filterMap PartEntry.located?).length = entries.length := by
  rw [filterMap_length_eq_length]
  intro e he
  obtain ⟨r, rfl⟩ := h e he
  rfl

theorem visible_of_op (hw : Orderly E w.store) (hcur : w.store.current = .ok snap) {op : MergeOp}
    (hop : op ∈ plannedOps snap) (hread : opRead w.store op = .ok read) :
    ∃ key, ∀ gr ∈ liveRows snap read, E.partitionOf gr.1 gr.2.event = key ∧
      ∃ p, Visible w.store p gr.2 ∧ gr.1 = p.manifest.generationId := by
  obtain ⟨key, hkey⟩ := plannedOps_partition hop
  refine ⟨key, fun gr hgr => ?_⟩
  obtain ⟨pr, hpr, hgen, hrow, hlive⟩ := mem_liveRows.1 hgr
  obtain ⟨hrows, id, hid, hp⟩ := mem_opRead hread hpr
  obtain ⟨ref, href, rfl, hk⟩ := hkey id hid
  rw [hrows] at hrow
  refine ⟨?_, pr.1, visible_iff.2 ⟨snap, _, hcur, href, hp, hrow, hlive⟩, hgen⟩
  rw [hgen, (hw.filed snap hcur ref href pr.1 hp).2 gr.2 hrow, hk]

theorem mergeTiered_keeps (hw : Orderly E w.store) (hspares : (Op.mergeTiered free).Spares E w.store now) :
    Keeps E redacting w.store (w.step E now (.mergeTiered free)).store := by
  have heff : ((Op.mergeTiered free).work E w.store now).effects = (E.mergeTiered w.store free now).effects :=
    bind_pure_effects _ _
  rcases mergeTiered_effects E w.store free now with ⟨snap, hcur, hlegacy⟩ | h | ⟨snap, os, hcur, hos, h⟩
  · exact absurd (filterMap_located (hw.located snap hcur)) hlegacy
  · exact kept_writes (heff ▸ h) hw
  rw [← heff] at h
  have hrise := (mergeOp_writer E w.store snap).rising hos
  have hran := mapFrom_forall₂ hos
  obtain ⟨hclash, hone, hplain⟩ := hspares.found h
  refine rewrite_keeps h hw hcur hrise hclash ?_ ?_ id
  · intro e he p hp r hr hlive
    obtain ⟨ref, rfl⟩ := hw.located snap hcur e he
    by_cases hused : ∀ op ∈ plannedOps snap, ref.partId ∉ op.partIds
    · exact ⟨.located ref, mem_append_left _ (mem_unconsumed.2 ⟨he, hused⟩), p, r, .inr hp, hr, hlive,
        .refl redacting p r⟩
    push Not at hused
    obtain ⟨op, hop, hid⟩ := hused
    obtain ⟨o, ho, k, hok⟩ := forall₂_left hran hop
    obtain ⟨-, hread, hlv, hcase⟩ := (mergeOp_spec ..).of_ok hok
    have hin : (p.manifest.generationId, r) ∈ o.live := by
      rw [hlv]
      exact mem_liveRows.2 ⟨(p, p.rows), opRead_covers hread hid hp, rfl, hr, hlive⟩
    rcases hcase with ⟨hnone, -⟩ | ⟨first, rest, q, g, -, -, hwritten, hwq⟩
    · rw [hnone] at hin
      exact absurd hin not_mem_nil
    obtain ⟨r', hr', hmem, hid'⟩ := reconcile_covers (E := E) (mem_map_of_mem (f := Prod.snd) hin)
    obtain ⟨gr', hgr', rfl⟩ := mem_map.1 hmem
    obtain ⟨key, hkey⟩ := visible_of_op hw hcur hop hread
    rw [hlv] at hin hgr'
    obtain ⟨hpart', p', hvis', hgen'⟩ := hkey gr' hgr'
    have hevent : gr'.2.event = r.event := by
      refine hone (p, r) (visible_iff.2 ⟨snap, _, hcur, he, hp, hr, hlive⟩) (p', gr'.2) hvis' ?_ hid'.symm
      rw [← hgen', hpart']
      exact (hkey _ hin).1
    exact ⟨entryOf q (E.partitionOf first.1 first.2.event),
      mem_append_right _ (mem_opEntries.2 ⟨o, ho, _, _, q, hwritten, rfl⟩), q, gr'.2,
      .inl ⟨mem_filterMap.2 ⟨o, ho, by rw [OpOutcome.part, hwritten]; rfl⟩, rfl⟩,
      (hwq.mem_rows _).2 hr', by rw [hevent]; exact hlive, .plain hevent (hplain snap hcur op hop _ hid p hp)⟩
  · intro e he
    rcases mem_append.1 he with he | he
    · exact .inl (mem_filter.1 he).1
    -- an entry that was written is that of an op's part
    obtain ⟨o, ho, key, rows, q, hwritten, rfl⟩ := mem_opEntries.1 he
    obtain ⟨op, hop, k, hok⟩ := forall₂_right hran ho
    obtain ⟨-, hread, hlv, ⟨-, hnone⟩ | ⟨first, rest, q', g, hlive, hg, hwritten', hwq⟩⟩ := (mergeOp_spec ..).of_ok hok
    · rw [hwritten] at hnone
      cases hnone
    rw [hwritten] at hwritten'
    cases hwritten'
    rw [hlv] at hlive hwq
    have hgen : q.manifest.generationId = (E.partitionOf first.1 first.2.event).generation :=
      hwq.generation.trans (hw.named _ g (getGeneration_ok.1 hg))
    obtain ⟨key, hkey⟩ := visible_of_op hw hcur hop hread
    obtain ⟨hfirst, p, hvis, -⟩ := hkey first (by rw [hlive]; exact mem_cons_self)
    refine .inr ⟨q, mem_filterMap.2 ⟨o, ho, by rw [OpOutcome.part, hwritten]; rfl⟩, _, rfl, ⟨hgen, ?_⟩,
      hvis.parts_ne_nil hcur⟩
    intro r hr
    obtain ⟨gr, hgr, rfl⟩ := mem_map.1 (of_mem_reconcile ((hwq.mem_rows r).1 hr))
    rw [hgen, hfirst, ← (hkey gr hgr).1]
    rfl

/-! Retention. -/

theorem redact_keeps (hred : redacting) {before : Int} {reason : String} (hw : Orderly E w.store)
    (hspares : (Op.redact before reason).Spares E w.store now) :
    Keeps E redacting w.store (w.step E now (.redact before reason)).store := by
  have heff : ((Op.redact before reason).work E w.store now).effects = (E.redactBodies w.store before reason now).effects :=
    bind_pure_effects _ _
  rcases redactBodies_effects E w.store before reason now with h | ⟨snap, os, hcur, hos, h⟩
  · exact kept_writes (heff ▸ h) hw
  rw [← heff] at h
  have hrise := (redactPart_writer E w.store before reason now).rising hos
  have hran := mapFrom_forall₂ hos
  obtain ⟨hclash, -⟩ := hspares.found h
  refine rewrite_keeps h hw hcur hrise hclash ?_ ?_ id
  · intro e he p hp r hr hlive
    obtain ⟨o, ho, k, hok⟩ := forall₂_left hran he
    have hentry : o.entry ∈ os.map Redacted.entry := mem_map_of_mem ho
    obtain ⟨-, rfl | ⟨ref, q, g, p', rfl, hq, hbodies, -, rfl, hwp⟩⟩ := (redactPart_spec ..).of_ok hok
    · exact ⟨e, hentry, p, r, .inr hp, hr, hlive, .refl redacting p r⟩
    · rw [show w.store.parts[ref.partId]? = some p from hp] at hq
      cases hq
      have hmarked : p'.bodiesRedacted = true := by
        rw [Part.bodiesRedacted, hwp.lineage]
      refine ⟨_, hentry, p', r.redacted, .inl ⟨mem_filterMap.2 ⟨_, ho, rfl⟩, rfl⟩,
        (hwp.mem_rows _).2 (mem_map_of_mem hr), hlive, .inr ⟨hred, rfl, hmarked⟩, ?_⟩
      intro hmarked
      rw [Part.bodiesRedacted, hbodies] at hmarked
      cases hmarked
  · intro e' he'
    obtain ⟨o, ho, rfl⟩ := mem_map.1 he'
    obtain ⟨e, he, k, hok⟩ := forall₂_right hran ho
    obtain ⟨-, rfl | ⟨ref, q, g, p', rfl, hq, -, hg, rfl, hwp⟩⟩ := (redactPart_spec ..).of_ok hok
    · exact .inl he
    · have hgen : p'.manifest.generationId = ref.partition.generation :=
        hwp.generation.trans (hw.named _ g (getGeneration_ok.1 hg))
      refine .inr ⟨p', mem_filterMap.2 ⟨_, ho, rfl⟩, ref.partition, rfl, ⟨hgen, ?_⟩, ne_nil_of_mem he⟩
      intro r hr
      obtain ⟨r0, hr0, rfl⟩ := mem_map.1 ((hwp.mem_rows r).1 hr)
      obtain ⟨hgen0, hrows⟩ := hw.filed snap hcur ref he q hq
      rw [hgen, ← hgen0]
      exact hrows r0 hr0

/-! Migration. -/

variable {g : Generation}

theorem todo_part {placed : List (PartEntry × Placement)} (hplaced : placements w.store g snap = .ok placed)
    {group : PartitionKey × List PartRef} (hgroup : group ∈ todoOf placed) {ref : PartRef} (href : ref ∈ group.2) :
    .located ref ∈ snap.parts ∧ ref.partition = group.1 := by
  obtain ⟨hin, hkey⟩ := of_mem_todoOf hgroup href
  exact ⟨(mem_placements hplaced hin).1, hkey⟩

theorem reembedParts_keeps {maxPartitions : Option Nat} {state : GenerationState}
    (hop : (op.work E w.store now).effects = (E.reembedParts w.store snap g maxPartitions state now).effects)
    (hcur : w.store.current = .ok snap) (hw : Orderly E w.store) (hspares : op.Spares E w.store now)
    (hmoves : op.Finds E w.store → ∀ m, E.plane.embedder g.modelId g.modelVersion E.config.dim g.modelArtifacts = .ok m →
      EmbedsAlike E w.store m g maxPartitions) :
    Keeps E redacting w.store (w.step E now op).store := by
  rcases reembedParts_effects E w.store snap g maxPartitions state now with
    h | ⟨m, placed, moved, hm, hplaced, hmoved, h⟩
  · exact kept_writes (hop ▸ h) hw
  rw [← hop] at h
  have hrise := (migratePartition_writer E w.store snap m g).rising hmoved
  have hran := mapFrom_forall₂ hmoved
  obtain ⟨hclash, hfinds⟩ := hspares.found h
  have halike := hmoves hfinds m hm snap placed hcur hplaced
  have hsplit : ∀ group, group ∈ todoOf placed ↔
      group ∈ maxPartitions.elim (todoOf placed) (todoOf placed).take ∨
        group ∈ maxPartitions.elim [] (todoOf placed).drop := by
    intro group
    cases maxPartitions with
    | none => simp
    | some n =>
      rw [← mem_append]
      exact (take_append_drop n (todoOf placed)).symm ▸ Iff.rfl
  have hactive : snap.activeGeneration ≠ none →
      (if state = .active then some g.generationId else snap.activeGeneration) ≠ none := by
    intro hsome
    split
    · simp
    · exact hsome
  refine rewrite_keeps h hw hcur hrise hclash ?_ ?_ hactive
  · intro e he p hp r hr hlive
    obtain ⟨ref, rfl⟩ := hw.located snap hcur e he
    -- an entry under the part's name stands for the row as it is
    have hstays : ∀ e' ∈ migratedEntries snap placed maxPartitions moved, e'.partId = ref.partId →
        ∃ e' ∈ migratedEntries snap placed maxPartitions moved, ∃ p' r',
          Named w.store (moved.filterMap Migrated.written) e' p' ∧ r' ∈ p'.rows ∧
          snap.isTombstoned r'.event.eventId = false ∧ Kept redacting p r p' r' :=
      fun e' he' hid => ⟨e', he', p, r, .inr (by rw [hid]; exact hp), hr, hlive, .refl redacting p r⟩
    obtain ⟨pl, hin, hpl⟩ := placements_covers hplaced he
    by_cases htodo : pl = .todo
    · subst htodo
      obtain ⟨-, hbodies⟩ := (placementOf_todo hp).1 hpl
      obtain ⟨refs, hgroup, href⟩ := mem_todoOf hin
      have hid : ref.partId ∈ refs.map PartRef.partId := mem_map_of_mem href
      obtain ⟨e', he', -, hname⟩ := entriesNamed_covers he hid
      rcases (hsplit _).1 hgroup with hnow | hlater
      · obtain ⟨o, ho, k, hok⟩ := forall₂_left hran hnow
        obtain ⟨-, rows, hrows, ⟨-, rfl⟩ | ⟨q, rfl, hwq⟩⟩ := (migratePartition_spec ..).of_ok hok
        · refine hstays e' ?_ hname
          exact mem_append_left _ (mem_append_right _ (mem_flatMap.2 ⟨_, ho, he'⟩))
        · obtain ⟨r1, hr1⟩ := exists_mem_of_ne_nil _ hwq.nonempty
          obtain ⟨id0, hid0, p0, hp0, r0, hr0, -, hemb0⟩ := of_mem_migratedRows hrows hr1
          obtain ⟨ref0, href0, rfl⟩ := mem_map.1 hid0
          have hemb : E.Embeds m r.event :=
            halike _ hnow ref href ref0 href0 p p0 hp hp0 r hr hlive r0 hr0 hemb0
          obtain ⟨r', hr', hevent⟩ := migratedRows_covers hrows hid hp hr hemb
          refine ⟨_, mem_append_left _ (mem_append_right _ (mem_flatMap.2 ⟨_, ho, mem_singleton.2 rfl⟩)),
            q, r', .inl ⟨mem_filterMap.2 ⟨_, ho, rfl⟩, rfl⟩, (hwq.mem_rows r').2 hr', ?_, .plain hevent hbodies⟩
          rw [hevent]
          exact hlive
      · refine hstays e' ?_ hname
        exact mem_append_right _ (mem_flatMap.2 ⟨_, hlater, he'⟩)
    · refine hstays (.located ref) ?_ rfl
      refine mem_append_left _ (mem_append_left _ (mem_map.2 ⟨_, mem_filter.2 ⟨hin, ?_⟩, rfl⟩))
      simpa using htodo
  · intro e he
    rcases mem_append.1 he with he | he
    · rcases mem_append.1 he with he | he
      · obtain ⟨ep, hep, rfl⟩ := mem_map.1 he
        exact .inl (mem_placements hplaced (mem_filter.1 hep).1).1
      · obtain ⟨o, ho, he⟩ := mem_flatMap.1 he
        obtain ⟨group, hgroup, k, hok⟩ := forall₂_right hran ho
        obtain ⟨-, rows, hrows, ⟨-, rfl⟩ | ⟨q, rfl, hwq⟩⟩ := (migratePartition_spec ..).of_ok hok
        · exact .inl (of_mem_entriesNamed he)
        · obtain rfl := mem_singleton.1 he
          have hsource : ∀ r ∈ rows, ∃ ref0, .located ref0 ∈ snap.parts ∧ ref0.partition = group.1 ∧
              ∃ p0, w.store.parts[ref0.partId]? = some p0 ∧ ∃ r0 ∈ p0.rows, r.event = r0.event := by
            intro r hr
            obtain ⟨id0, hid0, p0, hp0, r0, hr0, hevent, -⟩ := of_mem_migratedRows hrows hr
            obtain ⟨ref0, href0, rfl⟩ := mem_map.1 hid0
            obtain ⟨he0, hkey0⟩ := todo_part hplaced ((hsplit _).2 (.inl hgroup)) href0
            exact ⟨ref0, he0, hkey0, p0, hp0, r0, hr0, hevent⟩
          obtain ⟨r1, hr1⟩ := exists_mem_of_ne_nil _ hwq.nonempty
          obtain ⟨ref1, he1, -⟩ := hsource r1 hr1
          refine .inr ⟨q, mem_filterMap.2 ⟨_, ho, rfl⟩, _, rfl, ⟨hwq.generation, ?_⟩, ne_nil_of_mem he1⟩
          intro r hr
          obtain ⟨ref0, he0, hkey0, p0, hp0, r0, hr0, hevent⟩ := hsource r ((hwq.mem_rows r).1 hr)
          have hfiled := (hw.filed snap hcur ref0 he0 p0 hp0).2 r0 hr0
          rw [hwq.generation, hevent, ← hkey0, ← hfiled]
          rfl
    · obtain ⟨group, -, he⟩ := mem_flatMap.1 he
      exact .inl (of_mem_entriesNamed he)

theorem canary_effects (E : Engine) (db : Store) (genId : GenerationId) (maxPartitions : Nat) (now : Int) :
    (E.generationCanary db genId maxPartitions now).Meets (fun fs _ => fs = [] ∨
      ∃ g snap, db.generations[genId]? = some g ∧ db.current = .ok snap ∧
        fs = (E.reembedParts db snap g (some maxPartitions) .canary now).effects) := by
  refine .lift_bind (fun _ => .inl rfl) fun g hg => .lift_bind (fun _ => .inl rfl) fun snap hcur => ?_
  split
  · exact .inr ⟨g, snap, getGeneration_ok.1 hg, hcur, rfl⟩
  · exact .inr ⟨g, snap, getGeneration_ok.1 hg, hcur, rfl⟩
  · exact .inl rfl
  · exact .inl rfl

theorem migrate_effects (E : Engine) (db : Store) (genId : GenerationId) (maxPartitions : Option Nat) (now : Int) :
    (E.generationMigrate db genId maxPartitions now).Meets (fun fs _ => fs = [] ∨
      ∃ g snap, db.generations[genId]? = some g ∧ db.current = .ok snap ∧
        fs = (E.reembedParts db snap g maxPartitions .active now).effects) := by
  refine .lift_bind (fun _ => .inl rfl) fun g hg => .lift_bind (fun _ => .inl rfl) fun snap hcur => ?_
  exact .inr ⟨g, snap, getGeneration_ok.1 hg, hcur, rfl⟩

/-! Maintenance as a whole. -/

def Op.maintains : Op → Bool
  | .canary .. => true
  | .migrate .. => true
  | .redact .. => true
  | .merge _ => true
  | .mergeTiered _ => true
  | _ => false

def Op.redacts : Op → Bool
  | .redact .. => true
  | _ => false

/-- One maintenance operation loses no row and leaves the catalog orderly. -/
theorem maintenance_step (hop : op.maintains = true) (hw : Orderly E w.store) (h : op.Spares E w.store now) :
    Keeps E (op.redacts = true) w.store (w.step E now op).store := by
  cases op with
  | canary genId maxPartitions =>
    have heff : ((Op.canary genId maxPartitions).work E w.store now).effects =
        (E.generationCanary w.store genId maxPartitions now).effects := bind_pure_effects _ _
    rcases canary_effects E w.store genId maxPartitions now with hnil | ⟨g, snap, hg, hcur, heq⟩
    · exact kept_writes (heff.trans hnil ▸ writes_nil) hw
    · exact reembedParts_keeps (heff.trans heq) hcur hw h (fun hfinds m => hfinds g m hg)
  | migrate genId maxPartitions =>
    have heff : ((Op.migrate genId maxPartitions).work E w.store now).effects =
        (E.generationMigrate w.store genId maxPartitions now).effects := bind_pure_effects _ _
    rcases migrate_effects E w.store genId maxPartitions now with hnil | ⟨g, snap, hg, hcur, heq⟩
    · exact kept_writes (heff.trans hnil ▸ writes_nil) hw
    · exact reembedParts_keeps (heff.trans heq) hcur hw h (fun hfinds m => hfinds g m hg)
  | redact before reason => exact redact_keeps rfl hw h
  | merge free => exact merge_keeps hw h
  | mergeTiered free => exact mergeTiered_keeps hw h
  | _ => cases hop

/-- A migration that says it is complete left no row under another generation. -/
theorem complete_means_encoded (hdb : Orderly E db) {st : MigrationStatus}
    (hst : migrationStatus db = .ok st) (hdone : st.complete = true) (hvis : Visible db p r) :
    ∃ snap, db.current = .ok snap ∧ snap.activeGeneration = some p.manifest.generationId := by
  obtain ⟨snap, e, hcur, he, hp, -⟩ := visible_iff.1 hvis
  obtain ⟨snap', hcur', hst⟩ := bind_ok.1 hst
  obtain rfl := ok_unique hcur hcur'
  cases hst
  refine ⟨snap, hcur, ?_⟩
  obtain ⟨ref, rfl⟩ := hdb.located snap hcur e he
  rw [(hdb.filed snap hcur ref he p hp).1]
  have hnone := isEmpty_iff.1 hdone
  unfold incompleteBecause at hnone
  cases hact : snap.activeGeneration with
  | none => exact absurd hact (hdb.active snap hcur _ he)
  | some a =>
    simp only [hact, append_eq_nil_iff, map_eq_nil_iff, filter_eq_nil_iff] at hnone
    have hin : ref.partition.generation ∈ sortedSet snap.generationsInUse := by
      rw [sortedSet, (perm_insertionSort _ _).mem_iff, mem_dedup]
      exact mem_filterMap.2 ⟨_, he, rfl⟩
    have := hnone.1 _ hin
    simp only [decide_eq_true_eq, ne_eq, not_not] at this
    rw [this]

theorem maintenance_orderly {steps : List (Int × Op)} (hw : Orderly E w.store)
    (hops : ∀ s ∈ steps, s.2.maintains = true)
    (hspares : Along (fun w s => w.step E s.1 s.2) (fun w s => s.2.Spares E w.store s.1) w steps) :
    Orderly E (w.runOps E steps).store := by
  refine hspares.mem.keeps (I := fun w => Orderly E w.store) hw ?_
  intro w s hs hw
  exact (maintenance_step (hops s hs.2) hw hs.1).2

/-- Over every sequence of migrations, redactions and merges that find what they need, each row that was visible
    before a step is visible after it, without its body only if the step redacts; a row of a redacted part stays in
    one; and a migration that is reported complete has left no row under another generation. -/
theorem maintenance_loses_no_row (E : Engine) (w : World) (steps : List (Int × Op)) (hw : Orderly E w.store)
    (hops : ∀ s ∈ steps, s.2.maintains = true)
    (hspares : Along (fun w s => w.step E s.1 s.2) (fun w s => s.2.Spares E w.store s.1) w steps) :
    (∀ pre s post, steps = pre ++ s :: post →
      Conserves (s.2.redacts = true) (w.runOps E pre).store (w.runOps E (pre ++ [s])).store) ∧
    (∀ pre post, steps = pre ++ post → ∀ st, Engine.migrationStatus (w.runOps E pre).store = .ok st →
      st.complete = true → ∀ p r, Visible (w.runOps E pre).store p r →
        ∃ snap, (w.runOps E pre).store.current = .ok snap ∧ snap.activeGeneration = some p.manifest.generationId) := by
  have horderly : ∀ pre post, steps = pre ++ post → Orderly E (w.runOps E pre).store := by
    rintro pre post rfl
    exact maintenance_orderly hw (fun s hs => hops s (mem_append_left post hs)) (along_append.1 hspares).1
  refine ⟨?_, ?_⟩
  · rintro pre s post rfl
    rw [runOps_append]
    have hs : s.2.maintains = true := hops s (by simp)
    exact (maintenance_step hs (horderly pre (s :: post) rfl) (along_append.1 hspares).2.1).1
  · intro pre post hsteps st hst hdone p r hvis
    exact complete_means_encoded (horderly pre post hsteps) hst hdone hvis

/-! A small engine. -/

/-- Digests that list the event ids, one bucket, and codebooks without content. -/
def tinyPlatform : Platform where
  hashing := ⟨fun _ => "", fun _ => 0, fun _ => "0"⟩
  fingerprint _ g rows := rows.foldl (fun s r => s ++ "," ++ r.event.eventId) g
  generationAddress modelId version _ _ _ _ := spaceOf modelId version
  assign _ _ := 0
  encode _ _ := .ok []
  logicalBytes _ := 0
  train _ _ rows := .ok ⟨⟨[]⟩, ⟨[]⟩, rows.length, 1⟩

/-- A plane whose models take every text but those listed with their version. -/
def tinyPlane (refused : List (String × String)) : Plane where
  defaultEmbedder _ := .ok ⟨"m", "1", none⟩
  embedder modelId version _ artifacts := .ok ⟨modelId, version, artifacts⟩
  candidateEmbedder modelId version _ := .ok ⟨modelId, version, none⟩
  embed m i := if (m.modelVersion, i.text) ∈ refused then .error (.other "refused") else .ok [⟨0⟩]
  preflight _ _ _ := .ok ()

def tinyEngine (refused : List (String × String)) : Engine where
  config := ⟨1, 0, 1, 0, ⟨1, 1000, [], by decide, by decide⟩, []⟩
  platform := tinyPlatform
  plane := tinyPlane refused
  keys := none
  freshDek n := ⟨n⟩
  epoch := 0

def tinyEvent (id body : String) : Event :=
  ⟨id, "t", 1, 1, "n", ⟨0⟩, false, body, "", "", [], none⟩

/-- Two events in one partition and a candidate for the second version of the model; the second event came after
    the candidate was trained. -/
def twoVersions (refused : List (String × String)) : World :=
  World.blank.runOps (tinyEngine refused)
    [(10, .ingest [tinyEvent "a" "x"]), (11, .create (some "2")), (12, .ingest [tinyEvent "b" "y"])]

/-- Both events in their own parts, with the bodies expired. -/
def twoRedacted : World :=
  World.blank.runOps (tinyEngine [])
    [(10, .ingest [tinyEvent "a" "x"]), (11, .ingest [tinyEvent "b" "y"]), (12, .redact 5000 "expired")]

/-- The second version does not take the second event's text: the migration moves the partition with the first event
    alone, and the second is gone. A merge writes expired rows into a part that no longer says so. -/
theorem maintenance_drops_row_and_mark : (let before := twoVersions [("2", "y")]
     let after := before.step (tinyEngine [("2", "y")]) 13 (.migrate "m:2" none)
     (visibleRows before.store).map (fun x => x.2.event) = [tinyEvent "a" "x", tinyEvent "b" "y"] ∧
       (visibleRows after.store).map (fun x => x.2.event) = [tinyEvent "a" "x"]) ∧
    (let before := twoRedacted
     let after := before.step (tinyEngine []) 13 (.merge none)
     (visibleRows before.store).map (fun x => (x.2.event.eventId, x.1.bodiesRedacted)) = [("a", true), ("b", true)] ∧
       (visibleRows after.store).map (fun x => (x.2.event.eventId, x.1.bodiesRedacted)) =
         [("a", false), ("b", false)]) := by
  decide +kernel

/-- Whether an entry names a part that is filed where its rows belong. -/
def PartEntry.isFiled (E : Engine) (db : Store) : PartEntry → Bool
  | .legacy _ => false
  | .located ref => (db.parts[ref.partId]?).any (fun p =>
      p.manifest.generationId = ref.partition.generation &&
        p.rows.all (fun r => E.partitionOf p.manifest.generationId r.event = ref.partition))

theorem orderly_of {id : Nat} {s : Snapshot} (hcur : db.current? = some id) (hfile : db.snapshots[id]? = some s)
    (hgens : ∀ kv ∈ db.generations.toList, kv.2.generationId = kv.1)
    (hentries : ∀ e ∈ s.parts, e.isFiled E db = true) (hactive : s.activeGeneration ≠ none) : Orderly E db := by
  have hlive := current_of hcur hfile
  have hfiled : ∀ e ∈ s.parts, ∃ ref p, e = .located ref ∧ db.parts[ref.partId]? = some p ∧
      p.manifest.generationId = ref.partition.generation ∧
      ∀ r ∈ p.rows, E.partitionOf p.manifest.generationId r.event = ref.partition := by
    intro e he
    have h := hentries e he
    cases e with
    | legacy id => cases h
    | located ref =>
      obtain ⟨p, hp, h⟩ : ∃ p, db.parts[ref.partId]? = some p ∧ _ := Option.any_eq_true _ _ |>.1 h
      rw [Bool.and_eq_true, decide_eq_true_eq, all_eq_true] at h
      exact ⟨ref, p, rfl, hp, h.1, fun r hr => of_decide_eq_true (h.2 r hr)⟩
  refine ⟨?_, ?_, ?_, ?_, ?_⟩
  · intro id g hg
    exact hgens (id, g) (mem_toList.2 hg)
  · intro snap hsnap e he
    obtain rfl := ok_unique hlive hsnap
    obtain ⟨ref, -, rfl, -⟩ := hfiled e he
    exact ⟨ref, rfl⟩
  · intro snap hsnap e he
    obtain rfl := ok_unique hlive hsnap
    obtain ⟨ref, p, rfl, hp, -⟩ := hfiled e he
    exact mem_iff.2 ⟨p, hp⟩
  · intro snap hsnap ref href p hp
    obtain rfl := ok_unique hlive hsnap
    obtain ⟨ref', p', heq, hp', h⟩ := hfiled _ href
    cases heq
    rw [hp] at hp'
    cases hp'
    exact h
  · intro snap hsnap e he
    obtain rfl := ok_unique hlive hsnap
    exact hactive

theorem tiny_embedsAlike (db : Store) (m : Model) (g : Generation) (maxPartitions : Option Nat) :
    EmbedsAlike (tinyEngine []) db m g maxPartitions := by
  intro snap placed hcur hplaced group hgroup ref href ref' href' p p' hp hp' r hr hlive r' hr' hemb
  exact ⟨[⟨0⟩], by simp [tinyEngine, tinyPlane]⟩

theorem twoVersions_orderly : Orderly (tinyEngine []) (twoVersions []).store := by
  have hlive : (twoVersions []).store.current? = some 3 ∧
      (twoVersions []).store.snapshots[3]? = some (((twoVersions []).store.snapshots[3]?).getD .empty) := by
    decide +kernel
  refine orderly_of hlive.1 hlive.2 ?_ ?_ ?_
  · decide +kernel
  · decide +kernel
  · decide +kernel

/-- A merge, a migration and a redaction of two events keep both. -/
theorem maintenance_keeps_two_rows : let world := fun ops => ((twoVersions []).runOps (tinyEngine []) ops).store
    Conserves False (world []) (world [(13, .merge none)]) ∧
    Conserves False (world [(13, .merge none)]) (world [(13, .merge none), (14, .migrate "m:2" none)]) ∧
    Conserves True (world [(13, .merge none), (14, .migrate "m:2" none)])
      (world [(13, .merge none), (14, .migrate "m:2" none), (15, .redact 5000 "expired")]) := by
  intro world
  have hkept := (maintenance_loses_no_row (tinyEngine []) (twoVersions [])
    [(13, .merge none), (14, .migrate "m:2" none), (15, .redact 5000 "expired")] twoVersions_orderly (by decide)
    ⟨fun _ => ⟨by unfold Op.Unclashed; decide +kernel, by unfold Unambiguous; decide +kernel, by decide +kernel⟩,
      fun _ => ⟨by unfold Op.Unclashed; decide +kernel, fun g m _ _ => tiny_embedsAlike _ m g none⟩,
      fun _ => ⟨by unfold Op.Unclashed; decide +kernel, trivial⟩, trivial⟩).1
  have hmerge := hkept [] _ _ rfl
  have hmigrate := hkept [_] _ _ rfl
  have hredact := hkept [_, _] _ [] rfl
  simp only [Op.redacts, Bool.false_eq_true] at hmerge hmigrate hredact
  exact ⟨hmerge, hmigrate, hredact⟩

end Mutiny.Prism
