import Mutiny.Lib.SortedMap
import Mutiny.Lib.ZSet
import Mutiny.Schweep.Value

/- Z-set batches (`schweep-zset`: `zset.rs`, `deltas.rs`).

   A batch is a schema and its entries in stored order; the Arrow columns are a
   lossless encoding of them. `fromEntries` is the only door in and validates
   every value, so a batch carries the proof that its rows conform.
   `consolidatedEntries` is the stable sort and in-place merge of the source;
   its result is the strictly sorted, zero-free list of the batch's own Z-set
   (`consolidatedEntries_spec`), and there is only one such list. -/
namespace Mutiny.Schweep
open Mutiny.Lib ZSet List

abbrev Entries := List (Row × I64)

/-- One epoch's input deltas per table. Entries are kept as they arrived. -/
abbrev EpochDeltas := BTreeMap String Entries

/-- The entries for one table; a table the epoch does not touch has none. -/
def EpochDeltas.entriesFor (d : EpochDeltas) (table : String) : Entries := d.getD table []

/-- One column of every entry against the schema, in entry order. -/
def Schema.checkColumn (s : Schema) (index : Nat) : Entries → Except ZSetError Unit
  | [] => .ok ()
  | (row, _) :: rest =>
    if row.length ≠ s.len then .error (.arityMismatch s.len row.length)
    else match row[index]? with
      | none => .error (.arityMismatch s.len row.length)
      | some v => match s.checkValue index v with
        | .error e => .error e
        | .ok () => s.checkColumn index rest

/-- Every column in turn, so the reported error is the first in column order. -/
def Schema.checkColumns (s : Schema) (entries : Entries) : List Nat → Except ZSetError Unit
  | [] => .ok ()
  | index :: rest => match s.checkColumn index entries with
    | .error e => .error e
    | .ok () => s.checkColumns entries rest

variable {s : Schema} {entries : Entries}

theorem Schema.checkColumn_ok {index : Nat} :
    s.checkColumn index entries = .ok () ↔
      ∀ e ∈ entries, e.1.length = s.len ∧ ∃ v, e.1[index]? = some v ∧ s.checkValue index v = .ok () := by
  induction entries with
  | nil => simp [checkColumn]
  | cons e rest ih =>
    obtain ⟨row, w⟩ := e
    simp only [checkColumn, mem_cons, forall_eq_or_imp]
    by_cases hl : row.length = s.len
    · cases hv : row[index]? with
      | none => simp [hl]
      | some v =>
        cases hc : s.checkValue index v with
        | error e => simp [hl, hc]
        | ok _ => simp [hl, hc, ih]
    · simp [hl]

theorem Schema.checkColumns_ok {indexes : List Nat} :
    s.checkColumns entries indexes = .ok () ↔ ∀ i ∈ indexes, s.checkColumn i entries = .ok () := by
  induction indexes with
  | nil => simp [checkColumns]
  | cons i rest ih =>
    simp only [checkColumns, mem_cons, forall_eq_or_imp]
    cases hc : s.checkColumn i entries with
    | error e => simp
    | ok _ => simpa using ih

theorem Schema.conforms_iff {row : Row} :
    s.Conforms row ↔ row.length = s.len ∧
      ∀ i < s.len, ∃ v, row[i]? = some v ∧ s.checkValue i v = .ok () := by
  unfold Conforms
  rw [forall₂_iff_get]
  constructor
  · rintro ⟨hl, h⟩
    refine ⟨hl.symm, fun i hi => ?_⟩
    have hr : i < row.length := by rw [← hl]; exact hi
    refine ⟨row[i], List.getElem?_eq_getElem hr, ?_⟩
    have hf : s.field i = some s.fields[i] := List.getElem?_eq_getElem hi
    rw [checkValue, hf]
    exact h i hi hr
  · rintro ⟨hl, h⟩
    refine ⟨hl.symm, fun i hi hr => ?_⟩
    obtain ⟨v, hv, hc⟩ := h i hi
    have hf : s.field i = some s.fields[i] := List.getElem?_eq_getElem hi
    rw [List.getElem?_eq_getElem hr] at hv
    cases hv
    simpa [checkValue, hf] using hc

theorem Schema.checkColumns_conforms :
    s.checkColumns entries (List.range s.len) = .ok () ↔ ∀ e ∈ entries, s.Conforms e.1 := by
  rw [checkColumns_ok]
  constructor
  · intro h e he
    have h0 : 0 < s.len := length_pos_of_ne_nil s.nonempty
    refine conforms_iff.2 ⟨(checkColumn_ok.1 (h 0 (mem_range.2 h0)) e he).1, fun i hi => ?_⟩
    exact (checkColumn_ok.1 (h i (mem_range.2 hi)) e he).2
  · intro h i hi
    refine checkColumn_ok.2 (fun e he => ?_)
    obtain ⟨hl, hc⟩ := conforms_iff.1 (h e he)
    exact ⟨hl, hc i (mem_range.1 hi)⟩

structure ZSetBatch where
  schema : Schema
  entries : Entries
  valid : ∀ e ∈ entries, schema.Conforms e.1

namespace ZSetBatch

def fromEntries (schema : Schema) (entries : Entries) : Except ZSetError ZSetBatch :=
  match h : schema.checkColumns entries (List.range schema.len) with
  | .error e => .error e
  | .ok () => .ok ⟨schema, entries, Schema.checkColumns_conforms.1 h⟩

def empty (schema : Schema) : ZSetBatch := ⟨schema, [], by simp⟩

variable {schema : Schema} {entries : Entries}

theorem fromEntries_ok {b : ZSetBatch} (h : fromEntries schema entries = .ok b) :
    b.schema = schema ∧ b.entries = entries := by
  unfold fromEntries at h
  split at h
  · cases h
  · cases h; exact ⟨rfl, rfl⟩

theorem fromEntries_of_conforms (h : ∀ e ∈ entries, schema.Conforms e.1) :
    fromEntries schema entries = .ok ⟨schema, entries, h⟩ := by
  unfold fromEntries
  split
  · next hc => rw [Schema.checkColumns_conforms.2 h] at hc; cases hc
  · rfl

noncomputable def denote (b : ZSetBatch) : ZSet Row := ZSet.ofEntries b.entries

end ZSetBatch

/-! Consolidation. -/

variable {rest merged out : Entries} {b : ZSetBatch}

/-- The merge pass over sorted entries. `merged` is the output so far, last
    entry first: a repeated row adds into the last entry and a sum of zero pops
    it. -/
def mergeEntries : Entries → Entries → Except ZSetError Entries
  | merged, [] => .ok merged.reverse
  | merged, (row, w) :: rest =>
    if w = I64.zero then mergeEntries merged rest
    else match merged with
      | [] => mergeEntries [(row, w)] rest
      | (previous, pw) :: below =>
        if previous = row then
          match I64.checkedAdd pw w with
          | none => .error (.weightOverflow "consolidating weights for equal rows")
          | some sum =>
            if sum = I64.zero then mergeEntries below rest
            else mergeEntries ((previous, sum) :: below) rest
        else mergeEntries ((row, w) :: (previous, pw) :: below) rest

/-- Rows in ascending order; equal rows keep their order. -/
def sortEntries (entries : Entries) : Entries :=
  entries.insertionSort (fun a b => a.1 ≤ b.1)

structure Canonical where
  schema : Schema
  entries : Entries
  deriving DecidableEq

namespace ZSetBatch

def consolidatedEntries (b : ZSetBatch) : Except ZSetError Entries :=
  mergeEntries [] (sortEntries b.entries)

def consolidate (b : ZSetBatch) : Except ZSetError ZSetBatch :=
  match b.consolidatedEntries with
  | .error e => .error e
  | .ok merged => fromEntries b.schema merged

def add (b other : ZSetBatch) : Except ZSetError ZSetBatch :=
  if b.schema ≠ other.schema then .error .schemaMismatch
  else fromEntries b.schema (b.entries ++ other.entries)

def canonical (b : ZSetBatch) : Except ZSetError Canonical :=
  match b.consolidatedEntries with
  | .error e => .error e
  | .ok merged => .ok ⟨b.schema, merged⟩

end ZSetBatch

/-- What the merge keeps true of its output so far, last entry first, against
    the entries still to come. -/
structure MergeInv (merged rest : Entries) : Prop where
  descending : merged.Pairwise (fun a b => b.1 < a.1)
  nonzero : ∀ e ∈ merged, e.2.val ≠ 0
  below : ∀ e ∈ merged, ∀ x ∈ rest, e.1 ≤ x.1
  ascending : rest.Pairwise (fun a b => a.1 ≤ b.1)

theorem ofEntries_merge_same (row : Row) (a b : I64) (l l' : Entries) :
    ofEntries ((row, a) :: l) + ofEntries ((row, b) :: l') =
      Finsupp.single row (a.val + b.val) + (ofEntries l + ofEntries l') := by
  rw [ofEntries_cons, ofEntries_cons, Finsupp.single_add]
  abel

theorem mergeEntries_spec (hi : MergeInv merged rest) (h : mergeEntries merged rest = .ok out) :
    IsCanonical out ∧ ofEntries out = ofEntries merged + ofEntries rest := by
  induction rest generalizing merged with
  | nil =>
    simp only [mergeEntries, Except.ok.injEq] at h
    subst h
    refine ⟨⟨pairwise_reverse.2 hi.descending, fun e he => hi.nonzero e (mem_reverse.1 he)⟩, ?_⟩
    simp [ofEntries_perm (reverse_perm merged)]
  | cons x rest ih =>
    obtain ⟨row, w⟩ := x
    obtain ⟨hrow, hasc⟩ := pairwise_cons.1 hi.ascending
    have hbelow : ∀ e ∈ merged, ∀ y ∈ rest, e.1 ≤ y.1 :=
      fun e he y hy => hi.below e he y (mem_cons_of_mem _ hy)
    unfold mergeEntries at h
    split at h
    · next hw =>
      obtain ⟨hc, hz⟩ := ih ⟨hi.descending, hi.nonzero, hbelow, hasc⟩ h
      exact ⟨hc, by rw [hz, hw]; simp⟩
    · next hw =>
      have hw0 : w.val ≠ 0 := fun h0 => hw (Subtype.ext h0)
      split at h
      · obtain ⟨hc, hz⟩ := @ih [(row, w)]
          ⟨pairwise_singleton _ _, by simpa using hw0, by simpa using hrow, hasc⟩ h
        exact ⟨hc, by rw [hz]; simp⟩
      · next previous pw under =>
        obtain ⟨hprev, hdesc⟩ := pairwise_cons.1 hi.descending
        split at h
        · next heq =>
          subst heq
          split at h
          · cases h
          · next sum hsum =>
            have hsv := I64.checkedAdd_eq_some.1 hsum
            split at h
            · next hs0 =>
              -- the row is drained: it leaves, and everything under it stays below the rest
              obtain ⟨hc, hz⟩ := ih ⟨hdesc, fun e he => hi.nonzero e (mem_cons_of_mem _ he),
                fun e he => hbelow e (mem_cons_of_mem _ he), hasc⟩ h
              refine ⟨hc, ?_⟩
              have hcancel : pw.val + w.val = 0 := by rw [← hsv, hs0]; rfl
              rw [hz, ofEntries_merge_same, hcancel, Finsupp.single_zero, zero_add]
            · next hs0 =>
              have hs0' : sum.val ≠ 0 := fun h0 => hs0 (Subtype.ext h0)
              obtain ⟨hc, hz⟩ := @ih ((previous, sum) :: under)
                ⟨pairwise_cons.2 ⟨hprev, hdesc⟩,
                 forall_mem_cons.2 ⟨hs0', fun e he => hi.nonzero e (mem_cons_of_mem _ he)⟩,
                 forall_mem_cons.2 ⟨hrow, fun e he => hbelow e (mem_cons_of_mem _ he)⟩, hasc⟩ h
              refine ⟨hc, ?_⟩
              rw [hz, ofEntries_merge_same, ofEntries_cons, hsv, add_assoc]
        · next hne =>
          have hlt : previous < row :=
            lt_of_le_of_ne (hi.below _ mem_cons_self _ mem_cons_self) hne
          have hrest : ∀ e ∈ (previous, pw) :: under, e.1 < row := by
            refine forall_mem_cons.2 ⟨hlt, fun e he => (hprev e he).trans hlt⟩
          obtain ⟨hc, hz⟩ := @ih ((row, w) :: (previous, pw) :: under)
            ⟨pairwise_cons.2 ⟨hrest, hi.descending⟩, forall_mem_cons.2 ⟨hw0, hi.nonzero⟩,
             forall_mem_cons.2 ⟨hrow, hbelow⟩, hasc⟩ h
          refine ⟨hc, ?_⟩
          rw [hz, ofEntries_cons (row, w), ofEntries_cons (row, w)]
          abel

theorem sortEntries_perm (entries : Entries) : (sortEntries entries).Perm entries :=
  perm_insertionSort _ _

theorem sortEntries_ascending (entries : Entries) : (sortEntries entries).Pairwise (fun a b => a.1 ≤ b.1) := by
  have ht : Std.Total (fun a b : Row × I64 => a.1 ≤ b.1) := ⟨fun a b => le_total a.1 b.1⟩
  have htr : IsTrans (Row × I64) (fun a b => a.1 ≤ b.1) := ⟨fun _ _ _ h h' => h.trans h'⟩
  exact pairwise_insertionSort _ _

/-- Consolidation computes the canonical list of the batch's Z-set. -/
theorem ZSetBatch.consolidatedEntries_spec (h : b.consolidatedEntries = .ok out) :
    IsCanonical out ∧ ofEntries out = b.denote := by
  obtain ⟨hc, hz⟩ := mergeEntries_spec
    ⟨List.Pairwise.nil, by simp, by simp, sortEntries_ascending b.entries⟩ h
  refine ⟨hc, ?_⟩
  rw [hz, ofEntries_nil, zero_add]
  exact ofEntries_perm (sortEntries_perm b.entries)

theorem ZSetBatch.consolidate_spec {c : ZSetBatch} (h : b.consolidate = .ok c) :
    c.schema = b.schema ∧ IsCanonical c.entries ∧ c.denote = b.denote := by
  unfold consolidate at h
  split at h
  · cases h
  · next out ho =>
    obtain ⟨hs, he⟩ := fromEntries_ok h
    obtain ⟨hc, hz⟩ := consolidatedEntries_spec ho
    exact ⟨hs, he ▸ hc, by rw [denote, he, hz]⟩

theorem ZSetBatch.canonical_denote {canonical : Canonical} (h : b.canonical = .ok canonical) :
    ofEntries canonical.entries = b.denote := by
  unfold ZSetBatch.canonical at h
  split at h
  · cases h
  · next merged hmerged =>
    cases h
    exact (consolidatedEntries_spec hmerged).2

theorem ZSetBatch.add_denote {other sum : ZSetBatch} (h : b.add other = .ok sum) :
    sum.denote = b.denote + other.denote := by
  unfold add at h
  split at h
  · cases h
  · rw [denote, (fromEntries_ok h).2, ofEntries_append]
    rfl

theorem mergeEntries_canonical (hs : rest.Pairwise (fun a b => a.1 < b.1)) (hn : ∀ e ∈ rest, e.2.val ≠ 0)
    (hb : ∀ e ∈ merged, ∀ x ∈ rest, e.1 < x.1) :
    mergeEntries merged rest = .ok (merged.reverse ++ rest) := by
  induction rest generalizing merged with
  | nil => simp [mergeEntries]
  | cons x rest ih =>
    obtain ⟨row, w⟩ := x
    obtain ⟨hrow, hs'⟩ := pairwise_cons.1 hs
    obtain ⟨hw, hn'⟩ := forall_mem_cons.1 hn
    have hw' : w ≠ I64.zero := fun h0 => hw (congrArg Subtype.val h0)
    have hstep : mergeEntries merged ((row, w) :: rest) = mergeEntries ((row, w) :: merged) rest := by
      conv_lhs => unfold mergeEntries
      rw [if_neg hw']
      cases merged with
      | nil => rfl
      | cons p below =>
        have hne : p.1 ≠ row := ne_of_lt (hb p mem_cons_self (row, w) mem_cons_self)
        simp [hne]
    rw [hstep, ih hs' hn' (forall_mem_cons.2 ⟨hrow,
      fun e he y hy => hb e he y (mem_cons_of_mem _ hy)⟩)]
    simp

theorem ZSetBatch.consolidatedEntries_of_canonical (h : IsCanonical b.entries) :
    b.consolidatedEntries = .ok b.entries := by
  have hsort : sortEntries b.entries = b.entries :=
    (h.sorted.imp (fun hab => le_of_lt hab)).insertionSort_eq
  rw [consolidatedEntries, hsort, mergeEntries_canonical h.sorted h.nonzero (by simp)]
  simp

end Mutiny.Schweep
