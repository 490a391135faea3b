import Mutiny.Lib.Pointwise
import Mutiny.Lib.SortedMap

/- Stores that keep what they hold.

   `put` writes a value under its name once. A store is `Named` when each of its
   values is under its own name and was recorded; as long as the names tell the
   recorded values apart, what is put is found (`Named.put_new`). -/
namespace Mutiny.Lib

/-- No two values of a list have one name. -/
abbrev TellsApart {κ β : Type} (name : β → κ) (l : List β) : Prop := Set.InjOn name {v | v ∈ l}

instance {κ β : Type} [DecidableEq κ] [DecidableEq β] (name : β → κ) (l : List β) : Decidable (TellsApart name l) :=
  decidable_of_iff (∀ v ∈ l, ∀ w ∈ l, name v = name w → v = w)
    ⟨fun h v hv w hw => h v hv w hw, fun h v hv w hw => h hv hw⟩

namespace WriteOnce

variable {κ β : Type} [LinearOrder κ] {name : β → κ} {s : BTreeMap κ β} {v w : β} {k : κ} {l l' : List β}

/-- What is there already is left alone. -/
def put (name : β → κ) (s : BTreeMap κ β) (v : β) : BTreeMap κ β :=
  if name v ∈ s then s else s.insert (name v) v

theorem put_of_mem (h : name v ∈ s) : put name s v = s := if_pos h

theorem of_get_put (h : (put name s v)[k]? = some w) : (name v = k ∧ w = v) ∨ s[k]? = some w := by
  unfold put at h
  split at h
  · exact .inr h
  · rw [SortedMap.getElem?_insert] at h
    split at h
    · next hk => exact .inl ⟨hk, (Option.some.inj h).symm⟩
    · exact .inr h

theorem mem_put : k ∈ put name s v ↔ name v = k ∨ k ∈ s := by
  unfold put
  split
  · next h =>
    constructor
    · exact Or.inr
    · rintro (rfl | hk)
      · exact h
      · exact hk
  · exact SortedMap.mem_insert

theorem get_put_of_get (h : s[k]? = some w) (v : β) : (put name s v)[k]? = some w := by
  unfold put
  split
  · exact h
  · next hnot =>
    rw [SortedMap.getElem?_insert, if_neg, h]
    rintro rfl
    exact hnot (SortedMap.mem_iff.2 ⟨w, h⟩)

theorem get_put_self (h : ∀ w, s[name v]? = some w → w = v) : (put name s v)[name v]? = some v := by
  obtain ⟨w, hw⟩ := SortedMap.mem_iff.1 (mem_put (s := s).2 (.inl (rfl : name v = name v)))
  rcases of_get_put hw with ⟨-, rfl⟩ | hs
  · exact hw
  · rw [hw, h w hs]

theorem mem_foldl_put (h : name v ∈ s ∨ v ∈ l) : name v ∈ l.foldl (put name) s :=
  foldl_of_mem (P := (name v ∈ ·)) (fun _ _ h => mem_put.2 (.inr h)) (fun _ => mem_put.2 (.inl rfl)) h

/-- Every value is under its own name, and is one of the list. -/
def Named (name : β → κ) (l : List β) (s : BTreeMap κ β) : Prop :=
  ∀ k v, s[k]? = some v → name v = k ∧ v ∈ l

namespace Named

theorem empty (name : β → κ) (l : List β) : Named name l ∅ := by
  intro k v h
  simp at h

section

variable (h : Named name l s)
include h

theorem mono (hsub : ∀ v ∈ l, v ∈ l') : Named name l' s := fun k v hget =>
  ⟨(h k v hget).1, hsub v (h k v hget).2⟩

theorem append (l' : List β) : Named name (l ++ l') s :=
  h.mono (fun _ hv => List.mem_append_left l' hv)

theorem put (hv : v ∈ l) : Named name l (put name s v) := by
  intro k w hget
  rcases of_get_put hget with ⟨hk, rfl⟩ | hs
  · exact ⟨hk, hv⟩
  · exact h k w hs

theorem fresh (hinj : TellsApart name l) (hv : v ∈ l) : ∀ w, s[name v]? = some w → w = v := fun _ hget =>
  hinj (h _ _ hget).2 hv (h _ _ hget).1

theorem foldl_put (hl : ∀ v ∈ l', v ∈ l) : Named name l (l'.foldl (WriteOnce.put name) s) := by
  induction l' generalizing s with
  | nil => exact h
  | cons v l' ih =>
    obtain ⟨hv, hl⟩ := List.forall_mem_cons.1 hl
    exact ih (h.put hv) hl

theorem put_new (hinj : TellsApart name (l ++ [v])) :
    Named name (l ++ [v]) (WriteOnce.put name s v) ∧ (∀ w, s[name v]? = some w → w = v) ∧
      (WriteOnce.put name s v)[name v]? = some v ∧
      ∀ (k : κ) w, s[k]? = some w → (WriteOnce.put name s v)[k]? = some w := by
  have hv : v ∈ l ++ [v] := List.mem_append_right l (List.mem_singleton_self v)
  have hfresh := (h.append [v]).fresh hinj hv
  exact ⟨(h.append [v]).put hv, hfresh, get_put_self hfresh, fun _ _ hw => get_put_of_get hw v⟩

/-- The store of all of the list finds what any store of the list finds. -/
theorem get_all (hinj : TellsApart name l) (hget : s[k]? = some v) :
    (l.foldl (WriteOnce.put name) ∅)[k]? = some v := by
  obtain ⟨rfl, hv⟩ := h _ _ hget
  obtain ⟨w, hw⟩ := SortedMap.mem_iff.1 (mem_foldl_put (.inr hv : name v ∈ (∅ : BTreeMap κ β) ∨ v ∈ l))
  rw [hw, ((empty name l).foldl_put (fun _ hv => hv)).fresh hinj hv w hw]

end

end Named

end WriteOnce

end Mutiny.Lib
