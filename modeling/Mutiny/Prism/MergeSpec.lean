import Mutiny.Prism.RewriteSpec
import Mutiny.Prism.Scheduling

/- What reconciliation keeps, and what a cycle of the tiered merge reads.

   Of the rows with one event id, reconciliation keeps one (`mem_reconcile`,
   `reconcile_covers`). -/
namespace Mutiny.Prism
open Mutiny.Lib SortedMap List

namespace Engine

variable {E : Engine}

/-! Reconciliation. -/

variable {r : Row} {rows : List Row} {kept : BTreeMap String Row}

/-- A row takes its id's place, or stands back for the row that is there. -/
theorem keepWinner_cases (E : Engine) (kept : BTreeMap String Row) (r : Row) :
    E.keepWinner kept r = kept.insert r.event.eventId r ∨ (r.event.eventId ∈ kept ∧ E.keepWinner kept r = kept) := by
  unfold keepWinner
  split
  · next old hold =>
    split
    · exact .inl rfl
    · exact .inr ⟨mem_iff.2 ⟨old, hold⟩, rfl⟩
  · exact .inl rfl

theorem of_mem_winners {id : String} (h : (rows.foldl E.keepWinner kept)[id]? = some r) :
    kept[id]? = some r ∨ (r ∈ rows ∧ r.event.eventId = id) := by
  induction rows generalizing kept with
  | nil => exact .inl h
  | cons r0 rows ih =>
    rcases ih h with h | ⟨hmem, hid⟩
    · rcases keepWinner_cases E kept r0 with heq | ⟨-, heq⟩
      · rw [heq, SortedMap.getElem?_insert] at h
        split at h
        · next hid =>
          cases h
          exact .inr ⟨mem_cons_self, hid⟩
        · exact .inl h
      · exact .inl (heq ▸ h)
    · exact .inr ⟨mem_cons_of_mem r0 hmem, hid⟩

theorem mem_winners (hr : r ∈ rows) : r.event.eventId ∈ rows.foldl E.keepWinner kept := by
  refine foldl_of_mem (P := (r.event.eventId ∈ ·)) ?_ ?_ (.inr hr)
  · intro kept r0 h
    rcases keepWinner_cases E kept r0 with heq | ⟨-, heq⟩
    · rw [heq]
      exact mem_insert.2 (.inr h)
    · rwa [heq]
  · intro kept
    rcases keepWinner_cases E kept r with heq | ⟨hmem, heq⟩
    · rw [heq]
      exact mem_insert.2 (.inl rfl)
    · rwa [heq]

theorem mem_reconcile : r ∈ E.reconcile rows ↔ ∃ id : String, (rows.foldl E.keepWinner ∅)[id]? = some r := by
  unfold reconcile
  rw [mem_map]
  constructor
  · rintro ⟨⟨id, r'⟩, hmem, rfl⟩
    exact ⟨id, mem_toList.1 hmem⟩
  · rintro ⟨id, h⟩
    exact ⟨(id, r), mem_toList.2 h, rfl⟩

theorem of_mem_reconcile (h : r ∈ E.reconcile rows) : r ∈ rows := by
  obtain ⟨id, h⟩ := mem_reconcile.1 h
  rcases of_mem_winners h with h | ⟨hmem, -⟩
  · simp at h
  · exact hmem

theorem reconcile_covers (hr : r ∈ rows) : ∃ r' ∈ E.reconcile rows, r' ∈ rows ∧ r'.event.eventId = r.event.eventId := by
  have hkept : r.event.eventId ∈ rows.foldl E.keepWinner ∅ := mem_winners hr
  obtain ⟨r', hr'⟩ := mem_iff.1 hkept
  refine ⟨r', mem_reconcile.2 ⟨_, hr'⟩, ?_⟩
  rcases of_mem_winners hr' with h | h
  · simp at h
  · exact h

/-! What a merge reads and groups. -/

variable {snap : Snapshot} {e : PartEntry} {read : List (Part × List Row)} {pr : Part × List Row}
  {gr : GenerationId × Row} {live : List (GenerationId × Row)} {group : PartitionKey × List Row}
  {groups : List (PartitionKey × List Row)} {parts : List Part} {R : PartitionKey × List Row → Part → Prop}
  {db : Store} {readers : List (Part × Option Dek)} {op : MergeOp} {p : Part}

theorem mem_liveRows : gr ∈ liveRows snap read ↔ ∃ pr ∈ read, gr.1 = pr.1.manifest.generationId ∧ gr.2 ∈ pr.2 ∧
      snap.isTombstoned gr.2.event.eventId = false := by
  obtain ⟨g, r⟩ := gr
  unfold liveRows
  simp only [mem_flatMap, mem_map, mem_filter, Bool.not_eq_true', Prod.mk.injEq]
  constructor
  · rintro ⟨pr, hpr, r', ⟨hr', hlive⟩, rfl, rfl⟩
    exact ⟨pr, hpr, rfl, hr', hlive⟩
  · rintro ⟨pr, hpr, rfl, hr, hlive⟩
    exact ⟨pr, hpr, r, ⟨hr, hlive⟩, rfl, rfl⟩

theorem mem_mergeGroups :
    group ∈ E.mergeGroups live ↔ ∃ l, (SortedMap.group (fun gr => E.partitionOf gr.1 gr.2.event) live)[group.1]? = some l ∧
      group.2 = E.reconcile (l.map Prod.snd) := by
  obtain ⟨k, rows⟩ := group
  unfold mergeGroups
  rw [List.mem_map]
  constructor
  · rintro ⟨⟨k', l⟩, hmem, heq⟩
    cases heq
    exact ⟨l, SortedMap.mem_toList.1 hmem, rfl⟩
  · rintro ⟨l, hl, rfl⟩
    exact ⟨(k, l), SortedMap.mem_toList.2 hl, rfl⟩

/-- Every live row has one with its event id in the group of its partition. -/
theorem mergeGroups_covers (h : gr ∈ live) :
    ∃ group ∈ E.mergeGroups live, ∃ gr' ∈ live, gr'.2 ∈ group.2 ∧ gr'.2.event.eventId = gr.2.event.eventId ∧
      group.1 = E.partitionOf gr.1 gr.2.event ∧ group.1 = E.partitionOf gr'.1 gr'.2.event := by
  obtain ⟨l, hl, hmem⟩ : ∃ l, (group (fun gr => E.partitionOf gr.1 gr.2.event) live)[E.partitionOf gr.1
      gr.2.event]? = some l ∧ gr ∈ l := mem_group h
  obtain ⟨r', hr', hin, hid⟩ := reconcile_covers (E := E) (mem_map_of_mem (f := Prod.snd) hmem)
  obtain ⟨gr', hgr', rfl⟩ := mem_map.1 hin
  obtain ⟨hlive', hkey'⟩ := of_mem_group hl hgr'
  exact ⟨(E.partitionOf gr.1 gr.2.event, E.reconcile (l.map Prod.snd)), mem_mergeGroups.2 ⟨l, hl, rfl⟩, gr', hlive', hr',
    hid, rfl, hkey'.symm⟩

theorem of_mem_mergeGroups (h : group ∈ E.mergeGroups live) (hr : r ∈ group.2) :
    ∃ g, (g, r) ∈ live ∧ E.partitionOf g r.event = group.1 := by
  obtain ⟨l, hl, hrows⟩ := mem_mergeGroups.1 h
  rw [hrows] at hr
  obtain ⟨⟨g, r'⟩, hmem, rfl⟩ := mem_map.1 (of_mem_reconcile hr)
  obtain ⟨hlive, hkey⟩ := of_mem_group hl hmem
  exact ⟨g, hlive, hkey⟩

theorem entriesOf_covers (h : List.Forall₂ R groups parts) (hg : group ∈ groups) :
    ∃ p ∈ parts, R group p ∧ entryOf p group.1 ∈ entriesOf groups parts := by
  induction h with
  | nil => exact absurd hg not_mem_nil
  | cons hr _ ih =>
    rcases mem_cons.1 hg with rfl | hg
    · exact ⟨_, mem_cons_self, hr, mem_cons_self⟩
    · obtain ⟨p, hp, hrp, he⟩ := ih hg
      exact ⟨p, mem_cons_of_mem _ hp, hrp, mem_cons_of_mem _ he⟩

theorem of_mem_entriesOf (h : List.Forall₂ R groups parts) (he : e ∈ entriesOf groups parts) :
    ∃ group ∈ groups, ∃ p ∈ parts, R group p ∧ e = entryOf p group.1 := by
  induction h with
  | nil => exact absurd he not_mem_nil
  | cons hr _ ih =>
    rcases mem_cons.1 he with rfl | he
    · exact ⟨_, mem_cons_self, _, mem_cons_self, hr, rfl⟩
    · obtain ⟨group, hg, p, hp, hrp, heq⟩ := ih he
      exact ⟨group, mem_cons_of_mem _ hg, p, mem_cons_of_mem _ hp, hrp, heq⟩

section

variable (hopen : E.openParts db snap = .ok readers) (hread : readRows readers = .ok read)
include hopen hread

theorem mem_readRows (h : pr ∈ read) : pr.2 = pr.1.rows ∧ ∃ e ∈ snap.parts, db.parts[e.partId]? = some pr.1 := by
  obtain ⟨⟨p, c⟩, hmem, hpr⟩ := mem_of_mapM hread h
  obtain ⟨rows, hrows, rfl⟩ := map_ok.1 hpr
  obtain ⟨id, hid, hopened⟩ := mem_of_mapM hopen hmem
  obtain ⟨e, he, rfl⟩ := mem_map.1 hid
  obtain ⟨q, hq, hc⟩ := bind_ok.1 hopened
  obtain ⟨c', -, heq⟩ := bind_ok.1 hc
  cases heq
  exact ⟨Part.readAll_ok hrows, e, he, Store.openManifest_ok.1 hq⟩

theorem readRows_covers (he : e ∈ snap.parts) (hp : db.parts[e.partId]? = some p) : (p, p.rows) ∈ read := by
  obtain ⟨⟨q, c⟩, hmem, hopened⟩ := mem_mapM hopen (mem_map_of_mem (f := PartEntry.partId) he)
  obtain ⟨q', hq, hc⟩ := bind_ok.1 hopened
  obtain ⟨c', -, heq⟩ := bind_ok.1 hc
  cases heq
  rw [Store.openManifest_ok.1 hq] at hp
  cases hp
  obtain ⟨pr, hpr, hrd⟩ := mem_mapM hread hmem
  obtain ⟨rows, hrows, rfl⟩ := map_ok.1 hrd
  rw [Part.readAll_ok hrows] at hpr
  exact hpr

end

/-! One cycle of the tiered merge. -/

theorem mem_opRead (h : opRead db op = .ok read) (hpr : pr ∈ read) :
    pr.2 = pr.1.rows ∧ ∃ id ∈ op.partIds, db.parts[id]? = some pr.1 := by
  obtain ⟨id, hid, hopened⟩ := mem_of_mapM h hpr
  obtain ⟨p, hp, hrest⟩ := bind_ok.1 hopened
  obtain ⟨rows, hrows, heq⟩ := bind_ok.1 hrest
  cases heq
  exact ⟨Part.readAll_ok hrows, id, hid, Store.openManifest_ok.1 hp⟩

theorem opRead_covers (h : opRead db op = .ok read) {id : PartId} (hid : id ∈ op.partIds)
    (hp : db.parts[id]? = some p) : (p, p.rows) ∈ read := by
  obtain ⟨pr, hpr, hopened⟩ := mem_mapM h hid
  obtain ⟨q, hq, hrest⟩ := bind_ok.1 hopened
  obtain ⟨rows, hrows, heq⟩ := bind_ok.1 hrest
  cases heq
  rw [Store.openManifest_ok.1 hq] at hp
  cases hp
  rw [Part.readAll_ok hrows] at hpr
  exact hpr

theorem mem_unconsumed {ops : List MergeOp} {r : PartRef} :
    .located r ∈ unconsumed snap ops ↔ .located r ∈ snap.parts ∧ ∀ op ∈ ops, r.partId ∉ op.partIds := by
  simp [unconsumed, PartEntry.located?]

theorem mem_opEntries {os : List OpOutcome} :
    e ∈ opEntries os ↔ ∃ o ∈ os, ∃ key rows p, o.written = some (key, rows, p) ∧ e = entryOf p key := by
  unfold opEntries
  rw [mem_filterMap]
  constructor
  · rintro ⟨o, ho, h⟩
    obtain ⟨⟨key, rows, p⟩, hw, rfl⟩ := Option.map_eq_some_iff.1 h
    exact ⟨o, ho, key, rows, p, hw, rfl⟩
  · rintro ⟨o, ho, key, rows, p, hw, rfl⟩
    exact ⟨o, ho, by rw [hw]; rfl⟩

end Engine

end Mutiny.Prism
