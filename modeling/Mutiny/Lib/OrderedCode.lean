import Mathlib.Data.List.Infix
import Mathlib.Data.String.Basic
import Mutiny.Lib.Bytes

/- Codes that keep an order.

   A code writes each letter of one order as a word over another. It is ordered if
   the word of a smaller letter is smaller at a place both words have
   (`Precedes`): no word is then a prefix of another, and what follows never
   decides. Lists of letters written one after the other keep their order
   (`strictMono`) and their prefixes (`flatMap_prefix_iff`), and a word that precedes
   every letter ends a list so that lists can be letters again (`precedes_stop`).
   Numbers of one width are such a code, and so are the characters in UTF-8. -/
namespace Mutiny.Lib
open List

variable {α β : Type} [LinearOrder α] [LinearOrder β] {x y : List β} {s t : List α} {code : α → List β}

/-- `x` is smaller at a place both have. -/
inductive Precedes : List β → List β → Prop
  | head {a b : β} (h : a < b) (x y : List β) : Precedes (a :: x) (b :: y)
  | tail (a : β) {x y : List β} (h : Precedes x y) : Precedes (a :: x) (a :: y)

theorem Precedes.append (h : Precedes x y) (u v : List β) : Precedes (x ++ u) (y ++ v) := by
  induction h with
  | head h x y => exact .head h _ _
  | tail a _ ih => exact .tail a ih

theorem Precedes.append_left (h : Precedes x y) (p : List β) : Precedes (p ++ x) (p ++ y) := by
  induction p with
  | nil => exact h
  | cons a p ih => exact .tail a ih

theorem Precedes.lt (h : Precedes x y) : x < y := by
  induction h with
  | head h x y => exact cons_lt_cons_iff.2 (.inl h)
  | tail a _ ih => exact cons_lt_cons_iff.2 (.inr ⟨rfl, ih⟩)

theorem Precedes.apart (h : Precedes x y) : ¬ x <+: y ∧ ¬ y <+: x := by
  induction h with
  | head h x y => simp [cons_prefix_cons, h.ne, h.ne']
  | tail a _ ih => simpa [cons_prefix_cons] using ih

structure OrderedCode (code : α → List β) : Prop where
  precedes : ∀ a b, a < b → Precedes (code a) (code b)
  ne_nil : ∀ a, code a ≠ []

namespace OrderedCode

/-- Lists that end in a word below every letter are letters. -/
theorem precedes_stop (h : OrderedCode code) {stop : List β} (hstop : ∀ a, Precedes stop (code a)) (hlt : s < t) :
    Precedes (s.flatMap code ++ stop) (t.flatMap code ++ stop) := by
  induction s generalizing t with
  | nil =>
    cases t with
    | nil => exact absurd hlt (lt_irrefl _)
    | cons b t =>
      have hfirst := (hstop b).append [] (t.flatMap code ++ stop)
      simpa using hfirst
  | cons a s ih =>
    cases t with
    | nil => exact absurd hlt (not_lt_nil _)
    | cons b t =>
      simp only [flatMap_cons, append_assoc]
      obtain hab | ⟨rfl, hst⟩ := cons_lt_cons_iff.1 hlt
      · exact (h.precedes a b hab).append _ _
      · exact (ih hst).append_left _

theorem strictMono (h : OrderedCode code) : StrictMono (fun s : List α => s.flatMap code) := by
  intro s t hlt
  induction s generalizing t with
  | nil =>
    cases t with
    | nil => exact absurd hlt (lt_irrefl _)
    | cons b t =>
      obtain ⟨c, u, hword⟩ := exists_cons_of_ne_nil (h.ne_nil b)
      simp only [flatMap_nil, flatMap_cons, hword, cons_append]
      exact nil_lt_cons _ _
  | cons a s ih =>
    cases t with
    | nil => exact absurd hlt (not_lt_nil _)
    | cons b t =>
      simp only [flatMap_cons]
      obtain hab | ⟨rfl, hst⟩ := cons_lt_cons_iff.1 hlt
      · exact ((h.precedes a b hab).append _ _).lt
      · exact Lex.append_left _ (ih hst) _

theorem flatMap_prefix_iff (h : OrderedCode code) : s.flatMap code <+: t.flatMap code ↔ s <+: t := by
  induction s generalizing t with
  | nil => simp
  | cons a s ih =>
    cases t with
    | nil => simp [h.ne_nil a]
    | cons b t =>
      simp only [flatMap_cons, cons_prefix_cons]
      -- two letters that differ differ at a place both words have
      have hdiffer : ∀ {a b : α} (s t : List α), a < b → ¬ (code a ++ s.flatMap code) <+: (code b ++ t.flatMap code) ∧
          ¬ (code b ++ t.flatMap code) <+: (code a ++ s.flatMap code) :=
        fun s t hab => ((h.precedes _ _ hab).append _ _).apart
      obtain hab | rfl | hba := lt_trichotomy a b
      · exact iff_of_false (hdiffer s t hab).1 (fun hp => hab.ne hp.1)
      · rw [prefix_append_right_inj, ih]
        simp
      · exact iff_of_false (hdiffer t s hba).2 (fun hp => hba.ne hp.1.symm)

end OrderedCode

/-- Numbers of one width compare at the first byte that differs. -/
theorem precedes_beBytes {w m n : Nat} (hlt : m < n) (hn : n < 256 ^ w) : Precedes (beBytes w m) (beBytes w n) := by
  induction w generalizing m n with
  | zero => omega
  | succ w ih =>
    rw [beBytes, beBytes]
    have hlast : ∀ k : Nat, (UInt8.ofNat (k % 256)).toNat = k % 256 := fun k => by simp
    obtain hdiv | hdiv := lt_or_eq_of_le (Nat.div_le_div_right (c := 256) hlt.le)
    · refine (ih hdiv ?_).append _ _
      rw [pow_succ] at hn
      exact Nat.div_lt_of_lt_mul (by omega)
    · rw [hdiv]
      refine Precedes.append_left (.head ?_ _ _) _
      rw [UInt8.lt_iff_toNat_lt, hlast, hlast]
      omega

/-- The bytes of a string. -/
theorem toUTF8_eq_flatMap (s : String) : s.toUTF8.data.toList = s.toList.flatMap String.utf8EncodeChar := by
  conv_lhs => rw [← s.ofList_toList]
  rw [String.toUTF8, String.toByteArray_ofList, List.utf8Encode]
  simp

theorem Precedes.ofNat {m n : Nat} {x y : Bytes} (hn : n < 256) (h : m < n ∨ m = n ∧ Precedes x y) :
    Precedes (UInt8.ofNat m :: x) (UInt8.ofNat n :: y) := by
  obtain hlt | ⟨rfl, hrest⟩ := h
  · refine .head ?_ _ _
    rw [UInt8.lt_iff_toNat_lt, UInt8.toNat_ofNat', UInt8.toNat_ofNat']
    omega
  · exact .tail _ hrest

theorem orderedCode_utf8 : OrderedCode String.utf8EncodeChar where
  precedes a b hab := by
    have hlt : a.val.toNat < b.val.toNat := hab
    have hvalid : b.val.toNat.isValidChar := b.valid
    unfold String.utf8EncodeChar
    dsimp only
    generalize a.val.toNat = m at hlt
    generalize b.val.toNat = n at hlt hvalid
    unfold Nat.isValidChar at hvalid
    -- words of one length compare digit by digit, in base 64
    have hone : m / 64 = n / 64 → Precedes [UInt8.ofNat (m % 64 + 128)] [UInt8.ofNat (n % 64 + 128)] :=
      fun h => .ofNat (by omega) (.inl (by omega))
    have htwo : m / 4096 = n / 4096 → Precedes [UInt8.ofNat (m / 64 % 64 + 128), UInt8.ofNat (m % 64 + 128)]
        [UInt8.ofNat (n / 64 % 64 + 128), UInt8.ofNat (n % 64 + 128)] := by
      intro h
      apply Precedes.ofNat (by omega)
      by_cases hnext : m / 64 = n / 64
      · exact .inr ⟨by rw [hnext], hone hnext⟩
      · exact .inl (by omega)
    split_ifs
    -- a longer word has the larger first byte
    all_goals first | omega | apply Precedes.ofNat (by omega)
    all_goals first | (left; omega) | skip
    · by_cases hnext : m / 64 = n / 64
      · exact .inr ⟨by rw [hnext], hone hnext⟩
      · exact .inl (by omega)
    · by_cases hnext : m / 4096 = n / 4096
      · exact .inr ⟨by rw [hnext], htwo hnext⟩
      · exact .inl (by omega)
    · by_cases hfirst : m / 262144 = n / 262144
      · refine .inr ⟨by rw [hfirst], .ofNat (by omega) ?_⟩
        by_cases hnext : m / 4096 = n / 4096
        · exact .inr ⟨by rw [hnext], htwo hnext⟩
        · exact .inl (by omega)
      · exact .inl (by omega)
  ne_nil a := by
    unfold String.utf8EncodeChar
    dsimp only
    split_ifs <;> simp

end Mutiny.Lib
