import Mutiny.Lib.WeightMap
import Mutiny.Loom.TreeSpec

/- The tree is an ordered map.

   A tree is asked and changed call by call (`Tree.call`), across commits that
   write it out and open it again. Whatever the sizes of nodes, entries and pages,
   no call of any sequence fails, and the replies are those of an ordered map
   (`tree_refines_map`): a lookup gives the value put last, a scan all entries in
   key order, a scan by prefix those whose key starts with it, the count is the
   number of entries, and a removal says whether the key was there.

   What is new over `TreeHolds`: the range scan skips only children without keys
   in the range (`collectRange_sub`), and the range of a prefix is its keys
   (`prefixUpper_spec`). -/
namespace Mutiny.Loom
open Mutiny.Lib SortedMap Loom.Tree List

variable {κ ρ : Type} [LinearOrder κ]

/-! Ranges. -/

def inRange (lo : κ) (hi : Option κ) (k : κ) : Bool := lo ≤ k && hi.all (fun h => k < h)

theorem inRange_iff {lo : κ} {hi : Option κ} {k : κ} : inRange lo hi k = true ↔ lo ≤ k ∧ Below hi k := by
  simp [inRange, Below, Option.all_eq_true]

namespace Tree

variable {t : Tree κ ρ} {d fuel : Nat} {lo : κ} {hi : Option κ} {page : PageNo} {pages : List PageNo}
  {entries : List (κ × ρ)} {key : κ}

theorem filter_of_skipped {lower upper : Option κ} (hin : ∀ e ∈ entries, Within lower upper e.1)
    (hskip : visits lo hi lower upper = false) :
    entries.filter (fun e => inRange lo hi e.1) = [] := by
  refine filter_eq_nil_iff.2 (fun e he hrange => ?_)
  obtain ⟨hlo, hhi⟩ := inRange_iff.1 hrange
  obtain ⟨habove, hbelow⟩ := hin e he
  rcases Bool.and_eq_false_iff.1 hskip with hskip | hskip
  · -- the separator before the child is not below the end of the range
    cases lower with
    | none => cases hskip
    | some l =>
      cases hi with
      | none => cases hskip
      | some h => exact of_decide_eq_false hskip ((habove l rfl).trans_lt (hhi h rfl))
  · cases upper with
    | none => cases hskip
    | some u => exact of_decide_eq_false hskip (hlo.trans_lt (hbelow u rfl))

theorem overlapping_cons (lower : Option κ) (s : κ) (keys : List κ) (child : PageNo) (children : List PageNo) :
    overlapping lo hi lower (s :: keys) (child :: children) =
      if visits lo hi lower (some s) then child :: overlapping lo hi (some s) keys children
      else overlapping lo hi (some s) keys children := rfl

variable {children : List PageNo}

/-- The children of a chain that are visited give what is in the range. -/
theorem mapM_overlapping {P : SubPred κ ρ} {keys : List κ} {start stop lower : Option κ}
    {f : PageNo → Except TreeError (List (κ × ρ))} (hfine : ∀ lo hi page qs m, P lo hi page qs m → Fine lo hi m)
    (hf : ∀ a b page qs m, P a b page qs m → f page = .ok (m.filter (fun e => inRange lo hi e.1)))
    (h : Chain P start stop keys children pages entries) (hlower : lower = none ∨ lower = start) :
    ((overlapping lo hi lower keys children).mapM f).map List.flatten =
      .ok (entries.filter (fun e => inRange lo hi e.1)) := by
  -- a child is within the separator before it, or the range of the whole node if it is the first
  have hwithin : ∀ {lower start upper : Option κ} {m : List (κ × ρ)}, lower = none ∨ lower = start → Fine start upper m →
      ∀ e ∈ m, Within lower upper e.1 := by
    rintro lower start upper m (rfl | rfl) hm e he
    · exact ⟨fun l hl => absurd hl (by simp), (hm.2 e he).2⟩
    · exact hm.2 e he
  induction h generalizing lower with
  | @one start stop page pages entries hp =>
    unfold overlapping
    simp only [overlapping]
    by_cases hvisit : visits lo hi lower ([] : List κ).head? = true
    · rw [if_pos hvisit]
      simp [hf _ _ _ _ _ hp, Except.map, pure, Except.pure, bind, Except.bind]
    · have hskip : visits lo hi lower none = false := by simpa using hvisit
      have hin : Fine start none entries :=
        ⟨(hfine _ _ _ _ _ hp).1, fun e he => ⟨((hfine _ _ _ _ _ hp).2 e he).1, fun b hb => absurd hb (by simp)⟩⟩
      rw [if_neg hvisit, filter_of_skipped (hwithin hlower hin) hskip]
      rfl
  | @cons start stop s keys page children pages pages' entries entries' hp hs hrest ih =>
    obtain ⟨mss, hmss, hflat⟩ := map_ok.1 (ih (.inr rfl))
    rw [overlapping_cons]
    by_cases hvisit : visits lo hi lower (some s) = true
    · rw [if_pos hvisit]
      simp [hf _ _ _ _ _ hp, hmss, hflat, Except.map, pure, Except.pure, bind, Except.bind]
    · have hskip : visits lo hi lower (some s) = false := by simpa using hvisit
      rw [if_neg hvisit, filter_append, filter_of_skipped (hwithin hlower (hfine _ _ _ _ _ hp)) hskip,
        nil_append, hmss]
      exact congrArg Except.ok hflat

theorem collectRange_sub {a b : Option κ} (h : Sub t.node d a b page pages entries) (hfuel : d < fuel) :
    t.collectRange lo hi fuel page = .ok (entries.filter (fun e => inRange lo hi e.1)) := by
  induction d generalizing a b page pages entries fuel with
  | zero =>
    obtain ⟨fuel, rfl⟩ := Nat.exists_eq_add_one.2 hfuel
    obtain ⟨-, hnode, -⟩ := h
    simp only [collectRange, hnode]
    rfl
  | succ d ih =>
    obtain ⟨fuel, rfl⟩ := Nat.exists_eq_add_one.2 (by omega : 0 < fuel)
    obtain ⟨keys, children, below, hnode, -, hchain⟩ := h
    simp only [collectRange, hnode]
    exact mapM_overlapping (fun _ _ _ _ _ => Sub.fine) (fun _ _ _ _ _ hsub => ih hsub (by omega)) hchain (.inl rfl)

end Tree

/-! Prefixes. -/

theorem bumpLast_append (bs : Bytes) (b : UInt8) : bumpLast (bs ++ [b]) =
    match bumpLast bs with
    | some up => some (up ++ [b])
    | none => if b < 0xFF then some [b + 1] else none := by
  induction bs with
  | nil => rfl
  | cons last rest ih =>
    rw [cons_append]
    unfold bumpLast
    by_cases hlast : last < 0xFF
    · simp only [if_pos hlast, cons_append]
    · simp only [if_neg hlast]
      rw [ih]

theorem prefixUpper_cons (b : UInt8) (start : Bytes) : prefixUpper (b :: start) =
    match prefixUpper start with
    | some up => some (b :: up)
    | none => if b < 0xFF then some [b + 1] else none := by
  unfold prefixUpper
  rw [reverse_cons, bumpLast_append]
  cases bumpLast start.reverse with
  | some up => simp
  | none =>
    by_cases hb : b < 0xFF
    · simp [hb]
    · simp [hb]

theorem lt_bump {b c : UInt8} (h : b < 0xFF) : c < b + 1 ↔ c ≤ b := by
  rw [UInt8.lt_iff_toNat_lt] at h
  rw [UInt8.lt_iff_toNat_lt, UInt8.le_iff_toNat_le, UInt8.toNat_add]
  simp at h ⊢
  omega

/-- The keys of a prefix's range are those that start with it. -/
theorem prefixUpper_spec (start key : Bytes) : start ≤ key ∧ Below (prefixUpper start) key ↔ start <+: key := by
  induction start generalizing key with
  | nil =>
    refine ⟨fun _ => nil_prefix, fun _ => ⟨not_lt.1 (not_lt_nil key), ?_⟩⟩
    intro h hh
    cases hh
  | cons b start ih =>
    cases key with
    | nil =>
      constructor
      · rintro ⟨hle, -⟩
        exact absurd hle (not_le.2 (nil_lt_cons b start))
      · intro h
        exact absurd (prefix_nil.1 h) (by simp)
    | cons c key =>
      rw [cons_prefix_cons, Lib.cons_le_cons_iff, prefixUpper_cons, ← ih key]
      cases hup : prefixUpper start with
      | some up =>
        have hbelow : Below (some (b :: up)) (c :: key) ↔ c < b ∨ c = b ∧ Below (some up) key := by
          simp only [Below, Option.mem_some_iff, forall_eq', cons_lt_cons_iff]
        simp only [hbelow]
        constructor
        · rintro ⟨hlt | ⟨heq, hle⟩, hgt | ⟨heq', hkey⟩⟩
          · exact absurd hlt (lt_asymm hgt)
          · exact absurd heq'.symm (ne_of_lt hlt)
          · exact absurd heq.symm (ne_of_lt hgt)
          · exact ⟨heq, hle, hkey⟩
        · rintro ⟨rfl, hle, hkey⟩
          exact ⟨.inr ⟨rfl, hle⟩, .inr ⟨rfl, hkey⟩⟩
      | none =>
        have hnone : ∀ k : Bytes, Below none k := fun k h hh => absurd hh (by simp)
        by_cases hb : b < 0xFF
        · have hbelow : Below (some [b + 1]) (c :: key) ↔ c ≤ b := by
            simp only [Below, Option.mem_some_iff, forall_eq', cons_lt_cons_iff, lt_bump hb]
            exact ⟨fun h => h.resolve_right (fun h => not_lt_nil key h.2), .inl⟩
          simp only [if_pos hb, hbelow]
          constructor
          · rintro ⟨hlt | ⟨rfl, hle⟩, hcb⟩
            · exact absurd hlt (not_lt.2 hcb)
            · exact ⟨rfl, hle, hnone key⟩
          · rintro ⟨rfl, hle, -⟩
            exact ⟨.inr ⟨rfl, hle⟩, le_rfl⟩
        · -- nothing is above a first byte of 0xFF
          have hmax : ¬ b < c := by
            rw [UInt8.lt_iff_toNat_lt] at hb ⊢
            have := c.toNat_lt
            simp at hb
            omega
          simp only [if_neg hb]
          constructor
          · rintro ⟨hlt | ⟨rfl, hle⟩, -⟩
            · exact absurd hlt hmax
            · exact ⟨rfl, hle, hnone key⟩
          · rintro ⟨rfl, hle, -⟩
            exact ⟨.inr ⟨rfl, hle⟩, hnone _⟩

/-! Whole trees. -/

namespace TreeHolds

theorem scanPrefix {t : Tree Bytes ρ} {pages : List PageNo} {entries : List (Bytes × ρ)} (h : TreeHolds t pages entries)
    (start : Bytes) : t.scanPrefix start = .ok (entries.filter (fun e => start.isPrefixOf e.1)) := by
  obtain ⟨d, hsub⟩ := h.sub
  rw [Tree.scanPrefix, Tree.collectRange_sub hsub (h.depth_lt hsub)]
  refine congrArg Except.ok (filter_congr (fun e _ => ?_))
  rw [Bool.eq_iff_iff, inRange_iff, prefixUpper_spec, isPrefixOf_iff_prefix]

end TreeHolds

/-! The map. -/

/-- What the tree is for. -/
abbrev OrderedMap (κ ρ : Type) [LinearOrder κ] := BTreeMap κ ρ

section

variable (m : OrderedMap κ ρ) (key : κ)
include m key

theorem findEntry_toList : findEntry key m.toList = m[key]? := by
  rw [findEntry, find?_toList]
  cases m[key]? with
  | none => rfl
  | some record => rfl

theorem putEntry_toList (record : ρ) : putEntry key record m.toList = (m.insert key record).toList := by
  have hput : Sorted (putEntry key record m.toList) := sorted_putEntry (SortedMap.sorted_toList m) key record
  refine SortedMap.eq_of_sorted hput (SortedMap.sorted_toList _) ?_
  rintro ⟨k, r⟩
  rw [← findEntry_eq_some hput, findEntry_putEntry, findEntry_toList, SortedMap.mem_toList, SortedMap.getElem?_insert]

theorem dropEntry_toList : dropEntry key m.toList = (m.erase key).toList := by
  rw [toList_erase]
  rfl

end

/-! Calls. -/

inductive TreeCall (ρ : Type) where
  | insert (key : Bytes) (record : ρ)
  | remove (key : Bytes)
  | get (key : Bytes)
  | scan
  | scanPrefix (start : Bytes)
  | len
  /-- Flush and commit, then open the tree again. -/
  | commit

inductive TreeReply (ρ : Type) where
  | done
  | removed (found : Bool)
  | found (record : Option ρ)
  | entries (es : List (Bytes × ρ))
  | count (n : Nat)
  deriving DecidableEq

def Tree.call (Z : Sizing Bytes ρ) (t : Tree Bytes ρ) : TreeCall ρ → Except TreeError (TreeReply ρ × Tree Bytes ρ)
  | .insert key record => do
    let t ← t.insert Z key record
    return (.done, t)
  | .remove key => do
    let (found, t) ← t.remove key
    return (.removed found, t)
  | .get key => do
    let record ← t.get key
    return (.found record, t)
  | .scan => do
    let es ← t.scan
    return (.entries es, t)
  | .scanPrefix start => do
    let es ← t.scanPrefix start
    return (.entries es, t)
  | .len => .ok (.count t.len, t)
  | .commit => .ok (.done, Tree.openAt t.flush)

def Tree.calls (Z : Sizing Bytes ρ) (t : Tree Bytes ρ) : List (TreeCall ρ) → Except TreeError (List (TreeReply ρ))
  | [] => .ok []
  | c :: cs => do
    let (reply, t) ← t.call Z c
    let replies ← t.calls Z cs
    return reply :: replies

/-- What an ordered map replies, and the map after it. -/
def mapCall (m : OrderedMap Bytes ρ) : TreeCall ρ → TreeReply ρ × OrderedMap Bytes ρ
  | .insert key record => (.done, m.insert key record)
  | .remove key => (.removed (m[key]?.isSome), m.erase key)
  | .get key => (.found m[key]?, m)
  | .scan => (.entries m.toList, m)
  | .scanPrefix start => (.entries (m.toList.filter (fun e => start.isPrefixOf e.1)), m)
  | .len => (.count m.size, m)
  | .commit => (.done, m)

def mapCalls (m : OrderedMap Bytes ρ) : List (TreeCall ρ) → List (TreeReply ρ)
  | [] => []
  | c :: cs => (mapCall m c).1 :: mapCalls (mapCall m c).2 cs

/-- The tree holds the entries of the map. -/
def Represents (t : Tree Bytes ρ) (m : OrderedMap Bytes ρ) : Prop := ∃ pages, TreeHolds t pages m.toList

theorem Represents.call {t : Tree Bytes ρ} {m : OrderedMap Bytes ρ} (h : Represents t m)
    (Z : Sizing Bytes ρ) (c : TreeCall ρ) :
    ∃ t', t.call Z c = .ok ((mapCall m c).1, t') ∧ Represents t' (mapCall m c).2 := by
  obtain ⟨pages, hholds⟩ := h
  cases c with
  | insert key record =>
    obtain ⟨t', pages', hins, hholds'⟩ := hholds.insert (Z := Z) key record
    rw [putEntry_toList] at hholds'
    refine ⟨t', ?_, pages', hholds'⟩
    simp only [Tree.call, hins, ok_bind]
    rfl
  | remove key =>
    obtain ⟨t', hrem, hholds'⟩ := hholds.remove key
    rw [dropEntry_toList] at hholds'
    rw [findEntry_toList] at hrem
    refine ⟨t', ?_, pages, hholds'⟩
    simp only [Tree.call, hrem, ok_bind]
    rfl
  | get key =>
    refine ⟨t, ?_, pages, hholds⟩
    simp only [Tree.call, hholds.get, findEntry_toList, ok_bind]
    rfl
  | scan =>
    refine ⟨t, ?_, pages, hholds⟩
    simp only [Tree.call, hholds.scan, ok_bind]
    rfl
  | scanPrefix start =>
    refine ⟨t, ?_, pages, hholds⟩
    simp only [Tree.call, hholds.scanPrefix, ok_bind]
    rfl
  | len =>
    refine ⟨t, ?_, pages, hholds⟩
    rw [Tree.call, Tree.len, hholds.count, Std.ExtTreeMap.length_toList]
    rfl
  | commit => exact ⟨_, rfl, pages, hholds.flush⟩

/-- Whatever nodes, entries and pages cost, the replies of a tree are those of an
    ordered map. -/
theorem tree_refines_map (Z : Sizing Bytes ρ) (cs : List (TreeCall ρ)) :
    (Tree.openAt Pages.empty).calls Z cs = .ok (mapCalls ∅ cs) := by
  have hcalls : ∀ (cs : List (TreeCall ρ)) (t : Tree Bytes ρ) (m : OrderedMap Bytes ρ), Represents t m →
      t.calls Z cs = .ok (mapCalls m cs) := by
    intro cs
    induction cs with
    | nil => exact fun t m _ => rfl
    | cons c cs ih =>
      intro t m h
      obtain ⟨t', hcall, h'⟩ := h.call Z c
      rw [calls, hcall, ok_bind]
      simp only [ih t' _ h', ok_bind]
      rfl
  refine hcalls cs _ _ ⟨[1], ?_⟩
  rw [toList_empty]
  exact TreeHolds.empty

end Mutiny.Loom
