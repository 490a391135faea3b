import Mutiny.Loom.Taint

/- The texts of reports (`loom-core`: `value.rs`, `provenance.rs`; `loom-branch`:
   `merge.rs`; `loom-provenance`: `taint.rs`).

   A slice of a string ends at a byte, and Rust panics when that byte is inside a
   character; a text that panics is `none`. A description keeps 60 bytes, so it
   panics exactly when it has to cut and no character ends there (`Cuts`). How Rust
   prints strings, bytes, doubles and names of variants is a parameter.

   Correspondence (Rust ↔ Lean) where names differ:
     `&text[..n]`                               ↔ `sliceTo`
     the texts of a `MergeConflict`             ↔ `MergeConflict.describe` -/
namespace Mutiny.Loom
open Mutiny.Lib Mutiny.Substrate Value Record List Option
open Mutiny.Schweep (F64)
open Mutiny.Bridge (SourceRef)

/-! Slices. -/

def byteLen (cs : List Char) : Nat := (cs.map Char.utf8Size).sum

/-- The characters of the first `n` bytes, if one ends there. -/
def takeBytes : Nat → List Char → Option (List Char)
  | 0, _ => some []
  | _ + 1, [] => none
  | n + 1, c :: cs => if c.utf8Size ≤ n + 1 then (takeBytes (n + 1 - c.utf8Size) cs).map (c :: ·) else none

def sliceTo (t : String) (n : Nat) : Option String := (takeBytes n t.toList).map String.ofList

/-- The text is short, or a character ends at byte 60. -/
def Cuts (t : String) : Prop := byteLen t.toList ≤ 60 ∨ ∃ pre, pre <+: t.toList ∧ byteLen pre = 60

theorem takeBytes_eq_none {n : Nat} {cs : List Char} : takeBytes n cs = none ↔ ¬ ∃ pre, pre <+: cs ∧ byteLen pre = n := by
  induction cs generalizing n with
  | nil =>
    cases n with
    | zero => exact iff_of_false (by simp [takeBytes]) (not_not_intro ⟨[], nil_prefix, rfl⟩)
    | succ n => simp [takeBytes, byteLen]
  | cons c cs ih =>
    cases n with
    | zero => exact iff_of_false (by simp [takeBytes]) (not_not_intro ⟨[], nil_prefix, rfl⟩)
    | succ n =>
      -- a prefix of so many bytes starts with the character
      have hcons : (∃ pre, pre <+: c :: cs ∧ byteLen pre = n + 1) ↔
          c.utf8Size ≤ n + 1 ∧ ∃ pre, pre <+: cs ∧ byteLen pre = n + 1 - c.utf8Size := by
        constructor
        · rintro ⟨pre, hpre, hlen⟩
          rcases prefix_cons_iff.1 hpre with rfl | ⟨rest, rfl, hrest⟩
          · cases hlen
          · simp only [byteLen, map_cons, sum_cons] at hlen
            exact ⟨by omega, rest, hrest, by simp only [byteLen]; omega⟩
        · rintro ⟨hle, pre, hpre, hlen⟩
          refine ⟨c :: pre, (prefix_cons_inj c).2 hpre, ?_⟩
          simp only [byteLen, map_cons, sum_cons] at hlen ⊢
          omega
      rw [takeBytes, hcons]
      split
      · next hle => rw [map_eq_none_iff, ih, and_iff_right hle]
      · next hle => simp [hle]

theorem sliceTo_eq_none {t : String} (h : ¬ byteLen t.toList ≤ 60) : sliceTo t 60 = none ↔ ¬ Cuts t := by
  rw [sliceTo, map_eq_none_iff, takeBytes_eq_none, Cuts, or_iff_right h]

/-! Descriptions. -/

/-- How the standard library and the derived `Debug` forms print. -/
structure Wording where
  debug : String → String
  trust : TrustClass → String
  method : Method → String
  status : ClaimStatus → String
  lossy : Bytes → String
  number : F64 → String
  twoPlaces : F64 → String

def sourceName (s : SourceRef) : String := s!"{s.system}:{s.recordId}"

section Texts

variable (W : Wording)

def Value.describe : Value → Option String
  | .blob bytes => some s!"{bytes.length} bytes of opaque data"
  | .counter n => some s!"counter = {n.val}"
  | .set items => some s!"set of {items.card} items"
  | .bool b => some (toString b)
  | .text t =>
    if byteLen t.toList ≤ 60 then some (W.debug t)
    else (sliceTo t 60).map (fun cut => s!"{W.debug cut}… ({byteLen t.toList} chars)")
  | .number f => some (W.number f)

def Record.describe : Record → Option String
  | .observation o => some s!"observation from {sourceName o.source} (trust: {W.trust o.trust})"
  | .claim c => (c.object.describe W).map (fun object =>
      s!"claim {W.debug c.predicate} about {W.debug c.subject} = {object} (method: {W.method c.confidence.method}, " ++
      s!"confidence {W.twoPlaces c.confidence.value}, {c.evidence.length} evidence item(s), {W.status c.status})")
  | .value v => v.describe W

def DerivationNode.describe (node : DerivationNode) : Option String :=
  (if byteLen node.intent.toList > 60 then (sliceTo node.intent 60).map (fun cut => s!"{cut}…")
    else some node.intent).map
    (fun intent => s!"{node.actor} wrote {W.debug (W.lossy node.key)} — {W.debug intent}")

def describeKey (key : Key) : String :=
  (String.fromUTF8? ⟨key.toArray⟩).getD s!"<{key.length} bytes of binary key>"

/-- The key, and what the base, the source and the target held. -/
def MergeConflict.describe (c : MergeConflict) : Option (String × List (Option String)) :=
  ([c.records.base, c.records.source, c.records.target].mapM (Option.mapM (Record.describe W))).map (describeKey c.key, ·)

/-! Recall plans. -/

variable (E : Engine) (db : LoomDb) (source : SourceRef)

/-- From a node to the source, with so many hops left. -/
def pathFrom (nodes : NodeMap) : Nat → NodeId → List String
  | 0, _ => ["… (path truncated)"]
  | hops + 1, id =>
    match nodes[id]? with
    | none => []
    | some node => W.lossy node.key ::
      if source ∈ node.sources then [sourceName source] else node.derivedFrom.head?.elim [] (pathFrom nodes hops)

def pathToSource (nodes : NodeMap) (id : NodeId) : List String := (pathFrom W source nodes maxDerivationDepth id).reverse

/-- A write to be undone by a tombstone on its branch. -/
structure ReversibleItem where
  branch : BranchId
  commit : CommitId
  actor : ActorId
  description : String
  derivedVia : List String

structure ExecutedAction where
  actionId : String
  actionType : String
  target : String
  actor : ActorId
  justifiedBy : List Key
  receipt : Option String
  compensatingAction : Option String

/-- An action and what a person has to do about it. -/
structure IrreversibleItem where
  action : ExecutedAction
  escalation : String

structure RecallPlan where
  source : SourceRef
  irreversible : List IrreversibleItem
  reversible : List ReversibleItem

def reversibleItem? (nodes : NodeMap) (id : NodeId) : Option (Option ReversibleItem) :=
  match nodes[id]? with
  | none => some none
  | some node =>
    if isProvenance node.key then some none
    else (node.describe W).map (fun description =>
      some ⟨node.branch, node.commit, node.actor, description, pathToSource W source nodes id⟩)

/-- Branch after branch, up to the first that cannot be read. -/
def reversibleOn : List BranchId → Option (Except LoomError (List ReversibleItem))
  | [] => some (.ok [])
  | branch :: rest =>
    match db.contaminatedOn E branch source with
    | .error e => some (.error e)
    | .ok (nodes, contaminated) => do
      let items ← contaminated.mapM (reversibleItem? W source nodes)
      let later ← reversibleOn rest
      return later.map (items.reduceOption ++ ·)

def LoomDb.taint : Option (Except LoomError RecallPlan) :=
  (reversibleOn W E db source db.refs.branches.keys).map (fun found => found.map (fun items =>
    let sorted := items.insertionSort (fun a b => toLex (a.branch, a.description) ≤ toLex (b.branch, b.description))
    ⟨source, [], sorted.destutter (fun a b =>
      ¬ (a.branch = b.branch ∧ a.description = b.description ∧ a.commit = b.commit))⟩))

def ExecutedAction.escalation (a : ExecutedAction) : String :=
  let verb := (a.actionType.splitOn ".").getLastD a.actionType
  match a.compensatingAction with
  | some comp => s!"run the registered compensating action ({comp}) for {a.actionType} on {a.target}, then confirm " ++
      "with the affected party."
  | none => s!"there is NO registered compensating action for {a.actionType} on {a.target}. A human must decide how " ++
      s!"to make this right — rewinding the branch will not un-{verb} it."

def LoomDb.taintWithActions (actions : List ExecutedAction) : Option (Except LoomError RecallPlan) :=
  (db.taint W E source).map (fun planned => do
    let plan ← planned
    let contaminated ← db.refs.branches.keys.mapM (fun branch => db.contaminatedKeysOn E branch source)
    let downstream := actions.filter (fun a => a.justifiedBy.any (· ∈ contaminated.flatten))
    let sorted := downstream.insertionSort (fun a b =>
      toLex (a.actionType, toLex (a.target, a.actionId)) ≤ toLex (b.actionType, toLex (b.target, b.actionId)))
    return { plan with irreversible := sorted.map (fun a => ⟨a, a.escalation⟩) })

end Texts

/-! Panics. -/

def Value.Cuts : Value → Prop
  | .text t => Loom.Cuts t
  | _ => True

def Record.Cuts : Record → Prop
  | .observation _ => True
  | .claim c => c.object.Cuts
  | .value v => v.Cuts

section Panics

variable {W : Wording} {E : Engine} {db : LoomDb} {source : SourceRef}

theorem Value.describe_eq_none {v : Value} : v.describe W = none ↔ ¬ v.Cuts := by
  cases v with
  | text t =>
    simp only [describe, Cuts]
    split
    · next hshort => simp [Loom.Cuts, hshort]
    · next hlong => rw [map_eq_none_iff, sliceTo_eq_none hlong]
  | blob | counter | set | bool | number => simp [describe, Cuts]

theorem Record.describe_eq_none {r : Record} : r.describe W = none ↔ ¬ r.Cuts := by
  cases r with
  | observation o => simp [Record.describe, Record.Cuts]
  | claim c => rw [Record.describe, Option.map_eq_none_iff, Value.describe_eq_none, Record.Cuts]
  | value v => exact Value.describe_eq_none

theorem DerivationNode.describe_eq_none {node : DerivationNode} : node.describe W = none ↔ ¬ Cuts node.intent := by
  rw [DerivationNode.describe, map_eq_none_iff]
  split
  · next hlong => rw [map_eq_none_iff, sliceTo_eq_none (not_le.2 hlong)]
  · next hshort => simp [Cuts, not_lt.1 hshort]

theorem mapM_eq_none {α β : Type} {f : α → Option β} {xs : List α} : xs.mapM f = none ↔ ∃ x ∈ xs, f x = none := by
  induction xs with
  | nil => simp
  | cons x xs ih =>
    rw [mapM_cons, exists_mem_cons_iff, ← ih]
    cases f x with
    | none => simp
    | some y => cases xs.mapM f <;> simp

/-- The walk meets a record whose intent cannot be cut. -/
def MeetsUncut (E : Engine) (db : LoomDb) (source : SourceRef) (branch : BranchId) : Prop :=
  ∃ nodes ids, db.contaminatedOn E branch source = .ok (nodes, ids) ∧
    ∃ id ∈ ids, ∃ node, nodes[id]? = some node ∧ isProvenance node.key = false ∧ ¬ Cuts node.intent

theorem reversibleItem?_eq_none {nodes : NodeMap} {id : NodeId} : reversibleItem? W source nodes id = none ↔
    ∃ node, nodes[id]? = some node ∧ isProvenance node.key = false ∧ ¬ Cuts node.intent := by
  unfold reversibleItem?
  cases nodes[id]? with
  | none => simp
  | some node =>
    simp only [Option.some.injEq, exists_eq_left']
    split
    · next hprov => simp [hprov]
    · next hprov => simp [hprov, DerivationNode.describe_eq_none]

/-- Some element has `Q`, and all before it have `P`. -/
def Reaches {α : Type} (P Q : α → Prop) : List α → Prop
  | [] => False
  | x :: xs => Q x ∨ P x ∧ Reaches P Q xs

theorem reversibleOn_eq_none {branches : List BranchId} : reversibleOn W E db source branches = none ↔
    Reaches (fun branch => (db.contaminatedOn E branch source).isOk = true) (MeetsUncut E db source) branches := by
  induction branches with
  | nil => simp [reversibleOn, Reaches]
  | cons branch rest ih =>
    simp only [reversibleOn, Reaches, MeetsUncut, ← ih]
    cases db.contaminatedOn E branch source with
    | error e => simp [Except.isOk, Except.toBool]
    | ok found =>
      obtain ⟨nodes, ids⟩ := found
      have hitems : ids.mapM (reversibleItem? W source nodes) = none ↔ ∃ id ∈ ids, ∃ node, nodes[id]? = some node ∧
          isProvenance node.key = false ∧ ¬ Cuts node.intent := by
        rw [mapM_eq_none]
        simp only [reversibleItem?_eq_none]
      have hrest : (do
          let items ← ids.mapM (reversibleItem? W source nodes)
          let later ← reversibleOn W E db source rest
          return later.map (items.reduceOption ++ ·)) = none ↔
          ids.mapM (reversibleItem? W source nodes) = none ∨ reversibleOn W E db source rest = none := by
        cases ids.mapM (reversibleItem? W source nodes) with
        | none => simp
        | some items => cases reversibleOn W E db source rest <;> simp
      rw [hrest, hitems]
      simp [Except.isOk, Except.toBool]

theorem MergeConflict.describe_eq_none {c : MergeConflict} : c.describe W = none ↔
    ∃ r, some r ∈ [c.records.base, c.records.source, c.records.target] ∧ ¬ r.Cuts := by
  have hside : ∀ o : Option Record, o.mapM (Record.describe W) = none ↔ ∃ r, o = some r ∧ ¬ r.Cuts := by
    intro o
    cases o with
    | none => simp
    | some r => simp [Record.describe_eq_none]
  rw [MergeConflict.describe, Option.map_eq_none_iff, mapM_eq_none]
  simp only [hside]
  constructor
  · rintro ⟨-, hmem, r, rfl, hcut⟩
    exact ⟨r, hmem, hcut⟩
  · rintro ⟨r, hmem, hcut⟩
    exact ⟨some r, hmem, r, rfl, hcut⟩

end Panics

/-- A report panics where a text of more than 60 bytes has no character that ends at
    byte 60: a value's, a record's of a conflict, or the intent of a record that the walk
    of a recall plan meets. -/
theorem reports_panic_iff (W : Wording) (E : Engine) (db : LoomDb) (source : SourceRef) (actions : List ExecutedAction)
    (v : Value) (c : MergeConflict) :
    (v.describe W = none ↔ ¬ v.Cuts) ∧
      (c.describe W = none ↔ ∃ r, some r ∈ [c.records.base, c.records.source, c.records.target] ∧ ¬ r.Cuts) ∧
      (db.taint W E source = none ↔ Reaches (fun branch => (db.contaminatedOn E branch source).isOk = true)
        (MeetsUncut E db source) db.refs.branches.keys) ∧
      (db.taintWithActions W E source actions = none ↔ db.taint W E source = none) :=
  ⟨describe_eq_none, MergeConflict.describe_eq_none, map_eq_none_iff.trans reversibleOn_eq_none,
    map_eq_none_iff⟩

def plainWording : Wording where
  debug t := t
  trust _ := ""
  method _ := ""
  status _ := ""
  lossy _ := ""
  number _ := ""
  twoPlaces _ := ""

/-- A character of two bytes over byte 60. -/
theorem accent_at_sixty_panics :
    (Value.text (String.ofList (List.replicate 59 'a' ++ ['é']))).describe plainWording = none := by
  simp only [Value.describe, sliceTo, String.toList_ofList]
  decide

end Mutiny.Loom
