import Mutiny.Lib.WeightMap
import Mutiny.Schweep.Batch

/- Operator state (`schweep-state`: `backend.rs`, `mem.rs`).

   `MemBackend` is a sorted map from keys to weights. `write` stages a batch
   against the store and applies the staged sums, so a batch that overflows
   leaves the store as it was; a sum of zero removes its entry. A prefix scan is
   the contiguous range of keys that start with the prefix. -/
namespace Mutiny.Schweep
open Mutiny.Lib

abbrev Key := List Value

/-- The additions of one atomic write, in order. -/
abbrev WriteBatch := List (Key × I64)

inductive StateError where
  | weightOverflow (whileDoing : String)
  deriving DecidableEq, Repr

structure MemBackend where
  entries : WeightMap Key

namespace MemBackend

def new : MemBackend := ⟨∅⟩

def get (b : MemBackend) (key : Key) : Option I64 := b.entries[key]?

def len (b : MemBackend) : Nat := b.entries.size

/-- The sums a batch stages. A key staged already adds to its staged sum. -/
def stage (b : MemBackend) : WeightMap Key → WriteBatch → Option (WeightMap Key)
  | staged, [] => some staged
  | staged, (key, w) :: rest =>
    let base := staged[key]?.getD (b.entries.weight key)
    match I64.checkedAdd base w with
    | none => none
    | some sum => b.stage (staged.insert key sum) rest

def write (b : MemBackend) (batch : WriteBatch) : Except StateError MemBackend :=
  match b.stage ∅ batch with
  | none => .error (.weightOverflow "adding a weight to operator state")
  | some staged => .ok ⟨b.entries.overlay staged.toList⟩

/-- The entries a prefix visitor meets, in key order, if it never stops. -/
def visitPrefix (b : MemBackend) (keyPrefix : Key) : List (Key × I64) :=
  (b.entries.toList.dropWhile (fun e => e.1 < keyPrefix)).takeWhile (fun e => keyPrefix.isPrefixOf e.1)

/-! What a backend holds. -/

noncomputable def denote (b : MemBackend) : ZSet Key := b.entries.denote

theorem stage_spec {b : MemBackend} {batch : WriteBatch} {staged out : WeightMap Key}
    (h : b.stage staged batch = some out) (key : Key) :
    (out[key]?.getD (b.entries.weight key)).val =
      (staged[key]?.getD (b.entries.weight key)).val + ZSet.ofEntries batch key := by
  induction batch generalizing staged with
  | nil => cases h; simp
  | cons e rest ih =>
    obtain ⟨k, w⟩ := e
    simp only [stage] at h
    split at h
    · cases h
    · next sum hs =>
      rw [ih h, SortedMap.getElem?_insert, ZSet.ofEntries_cons, Finsupp.add_apply]
      have hv := I64.checkedAdd_eq_some.1 hs
      by_cases hk : k = key
      · subst hk
        simp only [if_true, Option.getD_some, Finsupp.single_eq_same]
        rw [hv]; ring
      · rw [if_neg hk, Finsupp.single_eq_of_ne (Ne.symm hk), zero_add]

/-- A write adds its batch to what the backend denotes and keeps it reduced. -/
theorem write_spec {b b' : MemBackend} {batch : WriteBatch} (h : b.write batch = .ok b') :
    b'.denote = b.denote + ZSet.ofEntries batch ∧ (b.entries.Reduced → b'.entries.Reduced) := by
  unfold write at h
  split at h
  · cases h
  · next staged hs =>
    cases h
    refine ⟨?_, fun hr => hr.overlay _⟩
    ext key
    have hk := stage_spec hs key
    simp only [Std.ExtTreeMap.getElem?_empty, Option.getD_none] at hk
    rw [denote, WeightMap.denote_apply, WeightMap.weight_overlay, Finsupp.add_apply, denote,
      WeightMap.denote_apply, hk]

theorem visitPrefix_eq_filter (b : MemBackend) (keyPrefix : Key) :
    b.visitPrefix keyPrefix = b.entries.toList.filter (fun e => keyPrefix.isPrefixOf e.1) := by
  unfold visitPrefix
  convert scan_eq_filter (p := keyPrefix) (SortedMap.sorted_toList b.entries)

end MemBackend
end Mutiny.Schweep
