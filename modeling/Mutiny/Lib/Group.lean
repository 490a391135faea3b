import Mutiny.Lib.SortedMap

/- Grouping a list under the keys of a sorted map.

   `group key xs` files each element under its key, in the order of the list: the
   group of a key is the elements with that key (`getElem?_group`), no group is
   empty, every element is in the group of its key (`mem_group`), and the groups
   side by side are the list again in another order (`perm_group`). -/
namespace Mutiny.Lib.SortedMap

variable {α κ : Type} [LinearOrder κ]

theorem getElem?_filter {β : Type} (m : BTreeMap κ β) (f : κ → β → Bool) (a : κ) :
    (m.filter f)[a]? = m[a]?.filter (f a) :=
  Std.ExtTreeMap.getElem?_filter'

def fileUnder (key : α → κ) (m : BTreeMap κ (List α)) (x : α) : BTreeMap κ (List α) :=
  m.insert (key x) (m.getD (key x) [] ++ [x])

def group (key : α → κ) (xs : List α) : BTreeMap κ (List α) := xs.foldl (fileUnder key) ∅

theorem getD_fileUnder (key : α → κ) (m : BTreeMap κ (List α)) (x : α) (k : κ) :
    (fileUnder key m x).getD k [] = m.getD k [] ++ [x].filter (fun x => key x = k) := by
  rw [fileUnder, getD_eq, getElem?_insert]
  by_cases h : key x = k
  · simp [h]
  · simp [h, getD_eq]

theorem getD_foldl_fileUnder (key : α → κ) (xs : List α) (m : BTreeMap κ (List α)) (k : κ) :
    (xs.foldl (fileUnder key) m).getD k [] = m.getD k [] ++ xs.filter (fun x => key x = k) := by
  induction xs generalizing m with
  | nil => simp
  | cons x xs ih =>
    rw [List.foldl_cons, ih, getD_fileUnder, List.append_assoc, ← List.filter_append]
    rfl

theorem getD_group (key : α → κ) (xs : List α) (k : κ) : (group key xs).getD k [] = xs.filter (fun x => key x = k) := by
  rw [group, getD_foldl_fileUnder, getD_eq, getElem?_empty]
  rfl

variable {key : α → κ} {xs : List α} {l : List α}

theorem ne_nil_foldl_fileUnder {m : BTreeMap κ (List α)} (hm : ∀ (k : κ) l, m[k]? = some l → l ≠ [])
    {k : κ} (h : (xs.foldl (fileUnder key) m)[k]? = some l) : l ≠ [] := by
  induction xs generalizing m with
  | nil => exact hm k l h
  | cons x xs ih =>
    refine ih (fun k' l' hl' => ?_) h
    rcases getElem?_insert_some hl' with rfl | hold
    · exact List.append_ne_nil_of_right_ne_nil _ (List.cons_ne_nil x [])
    · exact hm k' l' hold

/-- A key that has a group has an element, and its group is the elements with that key. -/
theorem getElem?_group {k : κ} : (group key xs)[k]? = some l ↔ l = xs.filter (fun x => key x = k) ∧ l ≠ [] := by
  have hget := getD_group key xs k
  rw [getD_eq] at hget
  constructor
  · intro h
    rw [h] at hget
    exact ⟨hget, ne_nil_foldl_fileUnder (by simp) h⟩
  · rintro ⟨rfl, hne⟩
    cases h : (group key xs)[k]? with
    | none =>
      rw [h] at hget
      exact absurd hget.symm hne
    | some l =>
      rw [h] at hget
      exact congrArg some hget

theorem mem_group {x : α} (hx : x ∈ xs) : ∃ l, (group key xs)[key x]? = some l ∧ x ∈ l := by
  have hmem : x ∈ xs.filter (fun y => key y = key x) := List.mem_filter.2 ⟨hx, by simp⟩
  exact ⟨_, getElem?_group.2 ⟨rfl, List.ne_nil_of_mem hmem⟩, hmem⟩

theorem of_mem_group {k : κ} (h : (group key xs)[k]? = some l) {x : α} (hx : x ∈ l) : x ∈ xs ∧ key x = k := by
  obtain ⟨rfl, -⟩ := getElem?_group.1 h
  simpa using hx

theorem perm_fileUnder (key : α → κ) (m : BTreeMap κ (List α)) (x : α) :
    ((fileUnder key m x).toList.flatMap Prod.snd).Perm (m.toList.flatMap Prod.snd ++ [x]) := by
  have hold : (m.toList.flatMap Prod.snd).Perm
      (m.getD (key x) [] ++ (m.erase (key x)).toList.flatMap Prod.snd) := by
    cases h : m[key x]? with
    | none =>
      rw [getD_eq, h, erase_of_none h]
      rfl
    | some l =>
      have hinsert := (perm_toList_insert m (key x) l).flatMap_right Prod.snd
      rw [insert_of_some h] at hinsert
      rw [getD_eq, h]
      exact hinsert
  refine ((perm_toList_insert m (key x) _).flatMap_right Prod.snd).trans ?_
  rw [List.flatMap_cons, List.append_assoc]
  refine (List.perm_append_comm.append_left _).trans ?_
  rw [← List.append_assoc]
  exact hold.symm.append_right [x]

/-- The groups side by side are the list in another order. -/
theorem perm_group (key : α → κ) (xs : List α) : ((group key xs).toList.flatMap Prod.snd).Perm xs := by
  have hfold : ∀ m : BTreeMap κ (List α),
      ((xs.foldl (fileUnder key) m).toList.flatMap Prod.snd).Perm (m.toList.flatMap Prod.snd ++ xs) := by
    induction xs with
    | nil => simp
    | cons x xs ih =>
      intro m
      refine (ih (fileUnder key m x)).trans (((perm_fileUnder key m x).append_right xs).trans ?_)
      simp
  simpa [group, toList_empty] using hfold ∅

end Mutiny.Lib.SortedMap
