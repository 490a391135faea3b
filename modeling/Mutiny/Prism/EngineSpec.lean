import Mutiny.Prism.CatalogSpec
import Mutiny.Prism.Lifecycle

/- What the engine's scripts leave behind.

   A part is written from its rows and from nothing else (`write_ok`). Parts that
   are written one after another take rising sequence numbers, so their names
   differ (`Writer.rising`). The operations that rewrite parts (merge, migration,
   redaction) first put parts in place and then commit one snapshot: whatever
   happens on the way, the store afterwards is the old one with more parts, or
   that one with the snapshot committed (`rewrite_cases`). -/
namespace Mutiny.Prism
open Mutiny.Lib Script List

/-! Written parts. -/

variable {rows : List Row} {p : Part}

theorem PartWriter.write_ok {P : Platform} {config : StoreConfig} {seq : Nat} {g : Generation} {spec : PartSpec}
    (h : PartWriter.write P config seq g spec rows = .ok p) :
    ∃ r rest, rows = r :: rest ∧ p = PartWriter.build P seq g spec r rest := by
  unfold PartWriter.write at h
  obtain ⟨-, -, h⟩ := bind_ok.1 h
  cases rows with
  | nil => cases h
  | cons r rest =>
    cases h
    exact ⟨r, rest, rfl, rfl⟩

theorem PartWriter.build_rows (P : Platform) (seq : Nat) (g : Generation) (spec : PartSpec) (r : Row) (rest : List Row) :
    (PartWriter.build P seq g spec r rest).rows = sortRows (r :: rest) := by
  unfold PartWriter.build Part.rows
  cases spec.encryption <;> rfl

theorem mem_sortRows {r : Row} : r ∈ sortRows rows ↔ r ∈ rows :=
  (perm_insertionSort _ rows).mem_iff

/-- What a part that the engine wrote holds. -/
structure Wrote (E : Engine) (seq : Nat) (g : Generation) (key : PartitionKey) (lineage : Lineage)
    (enc : Option PartEncryption) (rows : List Row) (p : Part) : Prop where
  seq : p.id.seq = seq
  mem_rows : ∀ r, r ∈ p.rows ↔ r ∈ rows
  nonempty : rows ≠ []
  generation : p.manifest.generationId = g.generationId
  space : p.manifest.space = g.space
  partition : p.manifest.partition = some key
  lineage : p.manifest.lineage = lineage
  encryption : p.manifest.encryption = enc.isSome
  envelope : p.manifest.envelope = enc.map PartEncryption.envelope
  columns : p.columns = match enc with
    | some e => .sealed e.cipher p.rows
    | none => .clear p.rows
  tokens : p.manifest.tenantTokens = E.tenantTokenizer.isSome
  current : p.isLegacy = false

namespace Engine

variable {E : Engine}

theorem putPart_spec (E : Engine) (seq : Nat) (g : Generation) (key : PartitionKey) (lineage : Lineage)
    (enc : Option PartEncryption) (rows : List Row) :
    (E.putPart seq g key lineage enc rows).Clean
      (fun fs p => fs = [.writePart p] ∧ Wrote E seq g key lineage enc rows p) := by
  refine .lift_bind fun p hp => ⟨rfl, ?_⟩
  obtain ⟨r, rest, rfl, rfl⟩ := PartWriter.write_ok hp
  have hrows := PartWriter.build_rows E.platform seq g ⟨some key, E.config.promote, lineage, enc, E.tenantTokenizer⟩ r rest
  refine ⟨rfl, ?_, by simp, rfl, rfl, rfl, rfl, rfl, rfl, ?_, rfl, rfl⟩
  · intro row
    rw [hrows]
    exact mem_sortRows
  · rw [hrows]
    cases enc <;> rfl

end Engine

/-! Parts written one after another. -/

/-- A numbered script that ends by writing at most one part, under its number. -/
def Writer {α β : Type} (used : β → Nat) (f : Nat → α → Work β) (part : β → Option Part) : Prop :=
  ∀ k x, (f k x).Clean (fun fs y => fs = (part y).toList.map Effect.writePart ∧
    ∀ p, part y = some p → p.id.seq = k ∧ 0 < used y)

/-- Effects that put parts in place and nothing else. -/
def Writes (fs : List Effect) : Prop := ∃ ps : List Part, fs = ps.map Effect.writePart

theorem writes_nil : Writes [] := ⟨[], rfl⟩

namespace Writer

variable {α β : Type} {used : β → Nat} {f : Nat → α → Work β} {part : β → Option Part}

theorem writes_one (h : Writer used f part) (k : Nat) (x : α) : ∀ e ∈ (f k x).effects, ∃ p, e = .writePart p := by
  intro e he
  cases hr : (f k x).result with
  | error err =>
    rw [(h k x).of_error hr] at he
    exact absurd he not_mem_nil
  | ok y =>
    rw [((h k x).of_ok hr).1] at he
    obtain ⟨p, -, rfl⟩ := mem_map.1 he
    exact ⟨p, rfl⟩

theorem writes (h : Writer used f part) (n : Nat) (xs : List α) : Writes (mapFrom used f n xs).effects := by
  have hall : ∀ e ∈ (mapFrom used f n xs).effects, ∃ p, e = Effect.writePart p := by
    intro e he
    obtain ⟨k, x, -, he⟩ := of_mem_mapFrom_effects he
    exact h.writes_one k x e he
  obtain ⟨ps, hps⟩ : ∃ ps : List Part, ps.map Effect.writePart = (mapFrom used f n xs).effects := by
    have hrange : (mapFrom used f n xs).effects ∈ Set.range (List.map Effect.writePart) := by
      rw [Set.range_list_map]
      intro e he
      obtain ⟨p, rfl⟩ := hall e he
      exact ⟨p, rfl⟩
    exact hrange
  exact ⟨ps, hps.symm⟩

variable {n : Nat}

theorem effects (h : Writer used f part) {xs : List α} {ys : List β}
    (hys : (mapFrom used f n xs).result = .ok ys) :
    (mapFrom used f n xs).effects = (ys.filterMap part).map Effect.writePart := by
  rw [mapFrom_effects (fun k x y hy => ((h k x).of_ok hy).1) hys, filterMap_eq_flatMap_toList, map_flatMap]

theorem rising (h : Writer used f part) {xs : List α} {ys : List β}
    (hys : (mapFrom used f n xs).result = .ok ys) :
    (ys.filterMap part).Pairwise (fun p q => p.id.seq < q.id.seq) := by
  have hmark : ∀ k x y m, (f k x).result = .ok y → (part y).map (fun p => p.id.seq) = some m → m = k ∧ 0 < used y := by
    intro k x y m hy hm
    obtain ⟨p, hp, rfl⟩ := Option.map_eq_some_iff.1 hm
    exact ((h k x).of_ok hy).2 p hp
  have hrise := (mapFrom_rising hmark hys).2
  rw [← map_filterMap] at hrise
  exact pairwise_map.1 hrise

end Writer

/-! Stores with more parts. -/

variable {db : Store} {id : PartId} {ps : List Part}

def Store.addParts (db : Store) (ps : List Part) : Store := ps.foldl Store.addPart db

theorem Store.addParts_eq (db : Store) (ps : List Part) : db.addParts ps = { db with parts := (db.addParts ps).parts } := by
  induction ps generalizing db with
  | nil => rfl
  | cons p ps ih =>
    have hrest : db.addParts (p :: ps) = (db.addPart p).addParts ps := rfl
    rw [hrest, ih (db.addPart p), db.addPart_eq p]

theorem Store.addParts_snapshots (db : Store) (ps : List Part) : (db.addParts ps).snapshots = db.snapshots := by
  rw [db.addParts_eq ps]

theorem Store.addParts_current (db : Store) (ps : List Part) : (db.addParts ps).current = db.current := by
  rw [db.addParts_eq ps]
  rfl

theorem Store.addParts_keeps {q : Part} (h : db.parts[id]? = some q) (ps : List Part) :
    (db.addParts ps).parts[id]? = some q := by
  induction ps generalizing db with
  | nil => exact h
  | cons p ps ih => exact ih (Store.addPart_keeps h)

theorem Store.addParts_other (h : ∀ p ∈ ps, p.id ≠ id) : (db.addParts ps).parts[id]? = db.parts[id]? := by
  induction ps generalizing db with
  | nil => rfl
  | cons p ps ih =>
    rw [forall_mem_cons] at h
    refine (ih h.2).trans ?_
    unfold Store.addPart
    split
    · rfl
    · exact (SortedMap.getElem?_insert ..).trans (if_neg h.1)

/-- No part is held up by another one under its name. -/
def Unclashed (db : Store) (ps : List Part) : Prop := ∀ p ∈ ps, ∀ q, db.parts[p.id]? = some q → q = p

theorem Store.addParts_placed (hps : ps.Pairwise (fun p q => p.id.seq < q.id.seq)) (hfree : Unclashed db ps)
    (hp : p ∈ ps) : (db.addParts ps).parts[p.id]? = some p := by
  induction ps generalizing db with
  | nil => exact absurd hp not_mem_nil
  | cons q ps ih =>
    rw [pairwise_cons] at hps
    have hnames : ∀ r ∈ ps, r.id ≠ q.id := by
      intro r hr heq
      have hlt := hps.1 r hr
      rw [heq] at hlt
      exact lt_irrefl _ hlt
    have hq : (db.addPart q).parts[q.id]? = some q := by
      unfold Store.addPart
      split
      · next hmem =>
        obtain ⟨q', hq'⟩ := SortedMap.mem_iff.1 hmem
        rw [hq', hfree q mem_cons_self q' hq']
      · exact (SortedMap.getElem?_insert ..).trans (if_pos rfl)
    rcases mem_cons.1 hp with rfl | hp
    · exact Store.addParts_keeps hq ps
    · refine ih hps.2 ?_ hp
      intro r hr s hs
      refine hfree r (mem_cons_of_mem q hr) s ?_
      have hother : (db.addParts [q]).parts[r.id]? = db.parts[r.id]? :=
        Store.addParts_other (by simpa using fun h => hnames r hr h.symm)
      exact hother.symm.trans hs

theorem perform_writes (ps : List Part) (w : World) :
    perform exec (ps.map Effect.writePart) w = ({ w with store := w.store.addParts ps }, .ok ()) := by
  induction ps generalizing w with
  | nil => rfl
  | cons p ps ih => exact ih { w with store := w.store.addPart p }

/-! Rewriting: parts, then a commit. -/

def commitEffects (s : Snapshot) : List Effect :=
  [.checkParts s.parts, .writeSnapshot s, .setCurrent s.snapshotId]

theorem commitMeta_bind {α : Type} (parent : Snapshot) (parts : List PartEntry) (nextSeq : Nat)
    (active : Option GenerationId) (extra : SnapshotMeta) (now : Int) (f : Snapshot → α) :
    (commitMeta parent parts nextSeq active extra now >>= fun s => pure (f s)) =
      ⟨commitEffects (parent.child parts nextSeq active extra now),
        .ok (f (parent.child parts nextSeq active extra now))⟩ := rfl

/-- The store afterwards has more parts, and perhaps a new live snapshot. -/
theorem rewrite_cases (ps : List Part) (s : Snapshot) (w : World) :
    let placed : World := { w with store := w.store.addParts ps }
    let after := (perform exec (ps.map Effect.writePart ++ commitEffects s) w).1
    after = placed ∨ ((∀ e ∈ s.parts, e.valid = true ∧ e.partId ∈ placed.store.parts) ∧ after = placed.committed s) := by
  intro placed after
  have hafter : after = (perform exec (commitEffects s) placed).1 := by
    show (perform exec (ps.map Effect.writePart ++ commitEffects s) w).1 = _
    rw [perform_append, perform_writes]
  rw [hafter, commitEffects, perform]
  cases hcheck : exec (.checkParts s.parts) placed with
  | error e => exact .inl rfl
  | ok w1 =>
    obtain ⟨rfl, hparts⟩ := exec_checkParts.1 hcheck
    exact .inr ⟨hparts, rfl⟩

/-! Runs. -/

variable {w : World}

theorem World.runOps_append (E : Engine) (w : World) (xs ys : List (Int × Op)) :
    w.runOps E (xs ++ ys) = (w.runOps E xs).runOps E ys := foldl_append

end Mutiny.Prism
