import Mathlib

/- Sorted maps over a linear order: the lemmas of `Std.ExtTreeMap`, stated once
   for any key type with a linear order. -/
namespace Mutiny.Lib

abbrev BTreeMap (α β : Type) [LinearOrder α] := Std.ExtTreeMap α β compare

namespace SortedMap

/-- What a map asks of its keys, under one name. -/
instance transCmp {α : Type} [LinearOrder α] : Std.TransCmp (compare : α → α → Ordering) := inferInstance

variable {α β : Type} [LinearOrder α] {m m' : BTreeMap α β} {a b k : α} {v v' : β}

theorem sorted_toList (m : BTreeMap α β) : m.toList.Pairwise (fun a b => a.1 < b.1) :=
  Std.ExtTreeMap.ordered_keys_toList.imp (fun h => compare_lt_iff_lt.1 h)

theorem nodup_toList (m : BTreeMap α β) : (m.toList.map Prod.fst).Nodup := by
  rw [List.Nodup, List.pairwise_map]
  exact (sorted_toList m).imp (fun hab => ne_of_lt hab)

theorem mem_toList : (a, v) ∈ m.toList ↔ m[a]? = some v :=
  Std.ExtTreeMap.mem_toList_iff_getElem?_eq_some

theorem mem_iff : a ∈ m ↔ ∃ v, m[a]? = some v := by
  rw [← Std.ExtTreeMap.isSome_getElem?_iff_mem, Option.isSome_iff_exists]

theorem getElem?_eq_none : m[a]? = none ↔ a ∉ m := by
  rw [mem_iff, Option.eq_none_iff_forall_ne_some, not_exists]

theorem mem_of_mem_toList (h : (a, v) ∈ m.toList) : a ∈ m :=
  mem_iff.2 ⟨v, mem_toList.1 h⟩

theorem mem_keys : a ∈ m.keys ↔ a ∈ m := Std.ExtTreeMap.mem_keys

theorem nodup_keys (m : BTreeMap α β) : m.keys.Nodup :=
  Std.ExtTreeMap.ordered_keys.imp (fun h => ne_of_lt (compare_lt_iff_lt.1 h))

theorem toList_empty : (∅ : BTreeMap α β).toList = [] := by simp

theorem getElem?_insert (m : BTreeMap α β) (a b : α) (v : β) :
    (m.insert a v)[b]? = if a = b then some v else m[b]? := by
  simp [Std.ExtTreeMap.getElem?_insert]

theorem mem_insert : b ∈ m.insert a v ↔ a = b ∨ b ∈ m := by
  simp only [mem_iff, getElem?_insert]
  split
  · next h => simp [h]
  · next h => simp [h]

theorem getElem?_insert_some (h : (m.insert a v)[b]? = some v') : v' = v ∨ m[b]? = some v' := by
  rw [getElem?_insert] at h
  by_cases hab : a = b
  · rw [if_pos hab] at h
    exact .inl (Option.some.inj h).symm
  · rw [if_neg hab] at h
    exact .inr h

theorem getElem?_empty (a : α) : (∅ : BTreeMap α β)[a]? = none := by simp

theorem getD_eq (m : BTreeMap α β) (a : α) (d : β) : m.getD a d = m[a]?.getD d :=
  Std.ExtTreeMap.getD_eq_getD_getElem?

def change (m : BTreeMap α β) (c : α × Option β) : BTreeMap α β :=
  match c.2 with
  | some v => m.insert c.1 v
  | none => m.erase c.1

/-- Set or remove what a map of changes names. -/
def patch (m : BTreeMap α β) (changes : BTreeMap α (Option β)) : BTreeMap α β :=
  changes.toList.foldl change m

theorem getElem?_erase (m : BTreeMap α β) (a b : α) : (m.erase a)[b]? = if a = b then none else m[b]? := by
  simp [Std.ExtTreeMap.getElem?_erase]

theorem ext (h : ∀ a : α, m[a]? = m'[a]?) : m = m' :=
  Std.ExtTreeMap.ext_getElem? h

theorem insert_insert (m : BTreeMap α β) (a : α) (v v' : β) : (m.insert a v).insert a v' = m.insert a v' := by
  refine ext (fun b => ?_)
  rw [getElem?_insert, getElem?_insert, getElem?_insert]
  by_cases hab : a = b
  · rw [if_pos hab, if_pos hab]
  · rw [if_neg hab, if_neg hab, if_neg hab]

theorem getElem?_change (m : BTreeMap α β) (c : α × Option β) (a : α) :
    (change m c)[a]? = if c.1 = a then c.2 else m[a]? := by
  obtain ⟨k, v⟩ := c
  cases v with
  | none => exact getElem?_erase m k a
  | some v => simp [change, getElem?_insert]

theorem size_change (m : BTreeMap α β) (c : α × Option β) :
    ((change m c).size : Int) = m.size + (if c.2.isSome then 1 else 0) - (if m[c.1]?.isSome then 1 else 0) := by
  obtain ⟨k, v⟩ := c
  by_cases hk : k ∈ m
  · have hpos : m.size ≠ 0 := by
      intro h0
      rw [Std.ExtTreeMap.eq_empty_iff_size_eq_zero.2 h0] at hk
      exact Std.ExtTreeMap.not_mem_empty hk
    cases v <;> simp [change, Std.ExtTreeMap.size_erase, Std.ExtTreeMap.size_insert, hk]
    omega
  · cases v <;> simp [change, Std.ExtTreeMap.size_erase, Std.ExtTreeMap.size_insert, hk]

theorem eq_of_sorted {l l' : List (α × β)} (hl : l.Pairwise (fun a b => a.1 < b.1))
    (hl' : l'.Pairwise (fun a b => a.1 < b.1)) (h : ∀ e, e ∈ l ↔ e ∈ l') : l = l' := by
  have hnodup : ∀ {l : List (α × β)}, l.Pairwise (fun a b => a.1 < b.1) → l.Nodup := fun hp =>
    hp.imp (fun hlt heq => absurd hlt (by rw [heq]; exact lt_irrefl _))
  have hperm : l.Perm l' := (List.perm_ext_iff_of_nodup (hnodup hl) (hnodup hl')).2 h
  exact hperm.eq_of_pairwise (fun a b _ _ hab hba => absurd hba (lt_asymm hab)) hl hl'

theorem find?_toList (m : BTreeMap α β) (a : α) : m.toList.find? (fun c => c.1 = a) = m[a]?.map (fun v => (a, v)) := by
  cases hfind : m.toList.find? (fun c => c.1 = a) with
  | none =>
    cases hget : m[a]? with
    | none => rfl
    | some v => exact absurd (List.find?_eq_none.1 hfind (a, v) (mem_toList.2 hget)) (by simp)
  | some c =>
    obtain ⟨key, v⟩ := c
    have hkey : key = a := by simpa using List.find?_some hfind
    subst hkey
    rw [mem_toList.1 (List.mem_of_find?_eq_some hfind)]
    rfl

/-- A list of changes that names no key twice: a key's change decides. -/
theorem getElem?_foldl_change {l : List (α × Option β)} (hnodup : (l.map Prod.fst).Nodup)
    (m : BTreeMap α β) (a : α) :
    (l.foldl change m)[a]? = match l.find? (fun c => c.1 = a) with
      | some c => c.2
      | none => m[a]? := by
  induction l generalizing m with
  | nil => rfl
  | cons c l ih =>
    obtain ⟨hnot, hrest⟩ := List.nodup_cons.1 hnodup
    rw [List.foldl_cons, ih hrest]
    by_cases hc : c.1 = a
    · -- the later changes have other keys
      have hnone : l.find? (fun c => c.1 = a) = none := by
        rw [List.find?_eq_none]
        intro x hx hxa
        exact hnot (List.mem_map.2 ⟨x, hx, (of_decide_eq_true hxa).trans hc.symm⟩)
      rw [hnone, List.find?_cons_of_pos (by simpa using hc)]
      simp [getElem?_change, hc]
    · rw [List.find?_cons_of_neg (by simpa using hc)]
      cases l.find? (fun c => c.1 = a) with
      | some x => rfl
      | none => simp [getElem?_change, hc]

theorem getElem?_patch (m : BTreeMap α β) (changes : BTreeMap α (Option β))
    (a : α) :
    (patch m changes)[a]? = match changes[a]? with
      | some v => v
      | none => m[a]? := by
  rw [patch, getElem?_foldl_change (nodup_toList changes), find?_toList]
  cases changes[a]? <;> rfl

theorem getElem?_foldl_insert (m acc : BTreeMap α β) (a : α) :
    (m.toList.foldl (fun acc c => acc.insert c.1 c.2) acc)[a]? = m[a]?.or acc[a]? := by
  have hmap : m.toList.foldl (fun acc c => acc.insert c.1 c.2) acc =
      (m.toList.map (fun c => (c.1, some c.2))).foldl change acc := by
    rw [List.foldl_map]
    rfl
  have hnodup : ((m.toList.map (fun c => (c.1, some c.2))).map Prod.fst).Nodup := by
    rw [List.map_map]
    exact nodup_toList m
  have hfind : (m.toList.map (fun c => (c.1, some c.2))).find? (fun c => c.1 = a) =
      (m.toList.find? (fun c => c.1 = a)).map (fun c => (c.1, some c.2)) := List.find?_map ..
  rw [hmap, getElem?_foldl_change hnodup, hfind, find?_toList]
  cases m[a]? <;> rfl

theorem toList_erase (m : BTreeMap α β) (k : α) : (m.erase k).toList = m.toList.filter (fun e => e.1 ≠ k) := by
  refine eq_of_sorted (sorted_toList _) ((sorted_toList m).filter _) ?_
  rintro ⟨a, b⟩
  rw [mem_toList, List.mem_filter, mem_toList, getElem?_erase]
  by_cases hka : k = a
  · simp [hka]
  · simp [hka, Ne.symm hka]

theorem patch_eq_self_iff {changes : BTreeMap α (Option β)} :
    patch m changes = m ↔ ∀ c ∈ changes.toList, m[c.1]? = c.2 := by
  constructor
  · rintro h ⟨k, v⟩ hc
    have hk := getElem?_patch m changes k
    rw [h, mem_toList.1 hc] at hk
    exact hk
  · intro h
    refine ext (fun a => ?_)
    rw [getElem?_patch]
    cases hget : changes[a]? with
    | none => rfl
    | some v => exact (h (a, v) (mem_toList.2 hget)).symm

/-- Inserting at a key that is above all others, or there already, goes last. -/
theorem toList_insert_last (h : ∀ a ∈ m, a ≤ k) (v : β) : (m.insert k v).toList = (m.erase k).toList ++ [(k, v)] := by
  have hlast : ∀ e ∈ (m.erase k).toList, e.1 < k := by
    rintro ⟨a, b⟩ he
    have hget := mem_toList.1 he
    rw [getElem?_erase] at hget
    by_cases hka : k = a
    · simp [hka] at hget
    · rw [if_neg hka] at hget
      exact lt_of_le_of_ne (h a (mem_iff.2 ⟨b, hget⟩)) (Ne.symm hka)
  refine eq_of_sorted (sorted_toList _) ?_ ?_
  · refine List.pairwise_append.2 ⟨sorted_toList _, List.pairwise_singleton _ _, ?_⟩
    intro e he e' he'
    rw [List.mem_singleton.1 he']
    exact hlast e he
  · rintro ⟨a, b⟩
    rw [mem_toList, List.mem_append, mem_toList, getElem?_insert, getElem?_erase, List.mem_singleton]
    by_cases hka : k = a
    · simp [hka, eq_comm]
    · simp [hka, Ne.symm hka]

theorem erase_of_none (h : m[k]? = none) : m.erase k = m := by
  refine ext (fun a => ?_)
  rw [getElem?_erase]
  split
  · next ha => rw [← ha, h]
  · rfl

theorem insert_of_some (h : m[k]? = some v) : m.insert k v = m := by
  refine ext (fun a => ?_)
  rw [getElem?_insert]
  split
  · next ha => rw [← ha, h]
  · rfl

theorem toList_eq_erase_last (h : ∀ a ∈ m, a ≤ k) :
    m.toList = (m.erase k).toList ++ (m[k]?.map (fun v => (k, v))).toList := by
  cases hget : m[k]? with
  | none => simp [erase_of_none hget]
  | some v =>
    nth_rewrite 1 [← insert_of_some hget]
    exact toList_insert_last h v

theorem le_of_toList_eq_append {l : List (α × β)} (h : m.toList = l ++ [(k, v)]) : m[k]? = some v ∧ ∀ a ∈ m, a ≤ k := by
  have hget : m[k]? = some v := by
    rw [← mem_toList, h]
    simp
  refine ⟨hget, ?_⟩
  intro a ha
  obtain ⟨b, hb⟩ := mem_iff.1 ha
  have hmem := mem_toList.2 hb
  have hsorted := sorted_toList m
  rw [h] at hmem hsorted
  rcases List.mem_append.1 hmem with hl | hl
  · exact le_of_lt ((List.pairwise_append.1 hsorted).2.2 (a, b) hl (k, v) (by simp))
  · exact le_of_eq (congrArg Prod.fst (List.mem_singleton.1 hl))

/-! Maps related key by key. -/

/-- Two maps with the same keys and related values. -/
def Rel {γ : Type} (R : β → γ → Prop) (m : BTreeMap α β) (m' : BTreeMap α γ) : Prop :=
  ∀ k : α, Option.Rel R m[k]? m'[k]?

section Rel

variable {γ : Type} {R R' : β → γ → Prop} {m : BTreeMap α β} {m' : BTreeMap α γ}

section

variable (h : Rel R m m')
include h

theorem Rel.none_iff (k : α) : m[k]? = none ↔ m'[k]? = none := by
  have hk := h k
  cases hm : m[k]? <;> cases hm' : m'[k]? <;> rw [hm, hm'] at hk <;> cases hk <;> simp

theorem Rel.some_left {b : β} (hb : m[k]? = some b) : ∃ c, m'[k]? = some c ∧ R b c := by
  have hk := h k
  rw [hb] at hk
  cases hm' : m'[k]? with
  | none =>
    rw [hm'] at hk
    cases hk
  | some c =>
    rw [hm'] at hk
    cases hk with
    | some hr => exact ⟨c, rfl, hr⟩

theorem Rel.mem_iff (k : α) : k ∈ m ↔ k ∈ m' := by
  have hk := h.none_iff k
  rw [SortedMap.mem_iff, SortedMap.mem_iff]
  cases hm : m[k]? <;> cases hm' : m'[k]? <;> simp_all

theorem Rel.imp (himp : ∀ (k : α) b c, m[k]? = some b → R b c → R' b c) : Rel R' m m' := by
  intro k
  have hk := h k
  cases hm : m[k]? <;> cases hm' : m'[k]? <;> rw [hm, hm'] at hk <;> cases hk
  · exact .none
  · next hr => exact .some (himp k _ _ hm hr)

theorem Rel.mono (himp : ∀ b c, R b c → R' b c) : Rel R' m m' :=
  h.imp (fun _ _ _ _ hr => himp _ _ hr)

theorem Rel.insert (k : α) {b : β} {c : γ} (hr : R b c) : Rel R (m.insert k b) (m'.insert k c) := by
  intro a
  rw [getElem?_insert, getElem?_insert]
  split
  · exact .some hr
  · exact h a

theorem Rel.erase (k : α) : Rel R (m.erase k) (m'.erase k) := by
  intro a
  rw [getElem?_erase, getElem?_erase]
  split
  · exact .none
  · exact h a

end

theorem rel_empty : Rel R (∅ : BTreeMap α β) (∅ : BTreeMap α γ) := by
  intro k
  simp only [Std.ExtTreeMap.getElem?_empty]
  exact .none

end Rel

/-! Sums over a map's values. -/

def sumOf (f : β → Nat) (m : BTreeMap α β) : Nat := (m.toList.map (fun e => f e.2)).sum

theorem perm_toList_insert (m : BTreeMap α β) (k : α) (v : β) :
    (m.insert k v).toList.Perm ((k, v) :: (m.erase k).toList) := by
  have hnodup : ∀ m : BTreeMap α β, m.toList.Nodup := fun m =>
    List.Nodup.of_map Prod.fst (nodup_toList m)
  refine (List.perm_ext_iff_of_nodup (hnodup _) ?_).2 ?_
  · rw [List.nodup_cons]
    refine ⟨?_, hnodup _⟩
    rw [mem_toList, getElem?_erase]
    simp
  · rintro ⟨a, b⟩
    rw [mem_toList, List.mem_cons, mem_toList, getElem?_insert, getElem?_erase]
    by_cases hka : k = a
    · simp [hka, eq_comm]
    · simp [hka, Ne.symm hka]

/-- Of a sum over the entries of one key, the entry of that key is left. -/
theorem sum_toList_key {M : Type} [AddCommMonoid M] (m : BTreeMap α β) (a : α) (f : β → M) :
    (m.toList.map (fun e => if e.1 = a then f e.2 else 0)).sum = m[a]?.elim 0 f := by
  have hnone : ∀ m : BTreeMap α β, m[a]? = none → (m.toList.map (fun e => if e.1 = a then f e.2 else 0)).sum = 0 := by
    intro m hm
    refine List.sum_eq_zero (fun x hx => ?_)
    obtain ⟨e, he, rfl⟩ := List.mem_map.1 hx
    refine if_neg ?_
    rintro rfl
    rw [mem_toList.1 he] at hm
    cases hm
  cases h : m[a]? with
  | none => exact hnone m h
  | some v =>
    have hperm := perm_toList_insert m a v
    rw [insert_of_some h] at hperm
    rw [(hperm.map _).sum_eq, List.map_cons, List.sum_cons, hnone (m.erase a) (by simp)]
    simp

theorem sumOf_insert (f : β → Nat) (m : BTreeMap α β) (k : α) (v : β) :
    sumOf f (m.insert k v) = f v + sumOf f (m.erase k) := by
  rw [sumOf, ((perm_toList_insert m k v).map _).sum_eq]
  simp [sumOf]

theorem sumOf_erase {f : β → Nat} (h : m[k]? = some v) : sumOf f m = f v + sumOf f (m.erase k) := by
  rw [← sumOf_insert f m k v, insert_of_some h]

end SortedMap

end Mutiny.Lib
