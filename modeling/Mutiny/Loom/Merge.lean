import Mutiny.Loom.Record
import Mutiny.Loom.Tree

/- The merge engine (`loom-branch`: `merge.rs`).

   `planMerge` asks which pages differ between the base, the source and the
   target (`diff3`), takes the keys in the leaves at those pages, and decides each
   of them by its three records. `recordMerge` is the same decision for every key
   of the three trees, which is what the pages are a shortcut for.

   Pages are compared by their content, for which the source compares its hash.
   The comparisons of records are the source's `==`, under which a double that is
   a NaN differs from itself. A conflict's texts for its key and its records are
   functions of them and left out; which of the reasons it gives is kept.

   Correspondence (Rust ↔ Lean) where names differ:
     `MergePolicy`, `Resolution`, `MergeConflict`  ↔ the types of those names
     `PageStore::diff3`                            ↔ `changedPages` -/
namespace Mutiny.Loom
open Mutiny.Lib

structure ConflictRecords where
  base : Option Record
  source : Option Record
  target : Option Record
  deriving DecidableEq

inductive ConflictReason where
  | sourceDeleted
  | targetDeleted
  /-- Overlapping validity and equal provenance rank. -/
  | equalClaims (subject : String) (confidence confidence' : Confidence)
  | noRule
  | bothDeleted
  deriving DecidableEq

structure MergeConflict where
  key : Key
  reason : ConflictReason
  records : ConflictRecords
  deriving DecidableEq

inductive Resolution where
  | source
  | target
  | replace (record : Record)
  | unresolved

inductive MergePolicy where
  | takeSource
  | takeTarget
  | conflict
  | custom (f : MergeConflict → Resolution)

inductive MergeOutcome where
  | merged (writes : Entries) (automatic : Nat)
  | conflict (report : List MergeConflict)
  deriving DecidableEq

inductive Decision where
  /-- The target already has the right answer. -/
  | nothing
  | write (record : Record)
  /-- The caller's policy decided. -/
  | resolved (record : Record)
  | conflict (conflict : MergeConflict)
  deriving DecidableEq

/-! One record. -/

/-- Claims that are not valid at the same time are a history, and the later one
    stays; else the better provenance does. -/
def mergeClaims (source target : Claim) : Option Record :=
  if !source.valid.overlaps target.valid then
    match source.valid.start, target.valid.start with
    | some s, some t => some (.claim (if s ≥ t then source else target))
    | _, _ => none
  else if source.provenanceRank = target.provenanceRank then none
  else
    let (method, confidence) := source.provenanceRank
    let (method', confidence') := target.provenanceRank
    some (.claim (if method > method' || (method == method' && confidence > confidence') then source else target))

/-- Counters add what each side added, sets unite. -/
def mergeTyped (base : Option Record) : Record → Record → Option Record
  | .value (.counter s), .value (.counter t) =>
    let b := match base with
      | some (.value (.counter b)) => b
      | _ => I64.zero
    some (.value (.counter (I64.saturatingAdd (I64.saturatingAdd b (I64.saturatingSub s b)) (I64.saturatingSub t b))))
  | .value (.set s), .value (.set t) => some (.value (.set (s ∪ t)))
  | .claim s, .claim t => mergeClaims s t
  | _, _ => none

/-- The typed rules apply when both sides have a record. -/
def mergeBoth (base : Option Record) : Option Record → Option Record → Option Record
  | some source, some target => mergeTyped base source target
  | _, _ => none

def reasonFor : Option Record → Option Record → ConflictReason
  | none, some _ => .sourceDeleted
  | some _, none => .targetDeleted
  | some (.claim s), some (.claim t) => .equalClaims s.subject s.confidence t.confidence
  | some _, some _ => .noRule
  | none, none => .bothDeleted

def MergePolicy.resolve (policy : MergePolicy) (conflict : MergeConflict) : Resolution :=
  match policy with
  | .takeSource => .source
  | .takeTarget => .target
  | .conflict => .unresolved
  | .custom f => f conflict

/-- What the caller makes of a record the rules do not decide. -/
def decideConflict (policy : MergePolicy) (conflict : MergeConflict) : Decision :=
  match policy.resolve conflict with
  | .source =>
    match conflict.records.source with
    | some record => .resolved record
    | none => .conflict conflict
  | .target => .nothing
  | .replace record => .resolved record
  | .unresolved => .conflict conflict

def decideMerge (key : Key) (base source target : Option Record) (policy : MergePolicy) : Decision :=
  if recordEq source target then .nothing
  else if recordEq source base then .nothing
  else if recordEq target base then
    match source with
    | some record => .write record
    | none => .nothing
  else
    match mergeBoth base source target with
    | some merged => .write merged
    | none => decideConflict policy ⟨key, reasonFor source target, ⟨base, source, target⟩⟩

/-! Whole trees. -/

abbrev RecordPages := Pages Key Record

/-- The pages that are not the same on all three sides. -/
def changedPages (base source target : RecordPages) : List PageNo :=
  let differs (page : PageNo) : Bool :=
    base.nodes[page]? ≠ source.nodes[page]? || base.nodes[page]? ≠ target.nodes[page]?
  let infoDiffers : Bool := base.metaPage ≠ source.metaPage || base.metaPage ≠ target.metaPage
  (if infoDiffers then [metaPageNo] else []) ++
    ((base.nodes.keys ++ source.nodes.keys ++ target.nodes.keys).dedup.filter differs)

structure Plan where
  writes : Entries
  automatic : Nat
  conflicts : List MergeConflict
  deriving DecidableEq

def Plan.empty : Plan := ⟨[], 0, []⟩

def Plan.add (plan : Plan) (key : Key) : Decision → Plan
  | .nothing => plan
  | .write record => { plan with automatic := plan.automatic + 1, writes := plan.writes ++ [(key, record)] }
  | .resolved record => { plan with writes := plan.writes ++ [(key, record)] }
  | .conflict conflict => { plan with conflicts := plan.conflicts ++ [conflict] }

def Plan.outcome (plan : Plan) : MergeOutcome :=
  if plan.conflicts.isEmpty then .merged plan.writes plan.automatic else .conflict plan.conflicts

/-- Decide one key by its records in the three trees. -/
def planKey (base source target : Tree Key Record) (policy : MergePolicy) (plan : Plan) (key : Key) :
    Except TreeError Plan := do
  let b ← base.get key
  let s ← source.get key
  let t ← target.get key
  return plan.add key (decideMerge key b s t policy)

/-- Keys as a `BTreeSet` of those the caller may see. -/
def callerKeys (keys : List Key) : List Key := (keys.insertionSort (· ≤ ·)).dedup.filter (fun key => !isReserved key)

/-- The keys the pages that differ let through. -/
def candidates (base source target : RecordPages) : List Key :=
  let changed := changedPages base source target
  callerKeys ((Tree.openAt source).keysInPages changed ++ (Tree.openAt target).keysInPages changed ++
    (Tree.openAt base).keysInPages changed)

def planKeys (base source target : RecordPages) (policy : MergePolicy) (keys : List Key) :
    Except TreeError MergeOutcome :=
  (keys.foldlM (planKey (Tree.openAt base) (Tree.openAt source) (Tree.openAt target) policy) Plan.empty).map
    Plan.outcome

def planMerge (base source target : RecordPages) (policy : MergePolicy) : Except TreeError MergeOutcome :=
  planKeys base source target policy (candidates base source target)

/-- The merge the prefilter stands for: every key of the three trees is decided. -/
def recordMerge (base source target : RecordPages) (policy : MergePolicy) : Except TreeError MergeOutcome := do
  let b ← (Tree.openAt base).scan
  let s ← (Tree.openAt source).scan
  let t ← (Tree.openAt target).scan
  planKeys base source target policy (callerKeys ((s ++ t ++ b).map Prod.fst))

end Mutiny.Loom
