import Mathlib
import Mutiny.Lib.Bytes

/- Lowercase hexadecimal. Two characters per byte, so bytes of one length are
   told apart by any text that starts with their hexadecimal. -/
namespace Mutiny.Lib

def hexDigit (n : Nat) : Char := "0123456789abcdef".toList.getD n '0'

def hexByte (b : UInt8) : List Char := [hexDigit (b.toNat / 16), hexDigit (b.toNat % 16)]

/-- The characters of the hexadecimal of some bytes. -/
def hexChars (bs : Bytes) : List Char := bs.flatMap hexByte

def hex (bs : Bytes) : String := String.ofList (hexChars bs)

theorem hexDigit_inj {m n : Nat} (hm : m < 16) (hn : n < 16) (h : hexDigit m = hexDigit n) : m = n := by
  have hall : ∀ m < 16, ∀ n < 16, hexDigit m = hexDigit n → m = n := by decide
  exact hall m hm n hn h

theorem hexByte_inj {a b : UInt8} (h : hexByte a = hexByte b) : a = b := by
  have ha := a.toNat_lt
  have hb := b.toNat_lt
  simp only [hexByte, List.cons.injEq, and_true] at h
  have hhigh := hexDigit_inj (by omega) (by omega) h.1
  have hlow := hexDigit_inj (by omega) (by omega) h.2
  exact UInt8.toNat_inj.1 (by omega)

theorem length_hexChars (bs : Bytes) : (hexChars bs).length = 2 * bs.length := by
  induction bs with
  | nil => rfl
  | cons b bs ih =>
    simp only [hexChars, List.flatMap_cons, List.length_append, List.length_cons] at ih ⊢
    rw [ih]
    simp only [hexByte, List.length_cons, List.length_nil]
    omega

theorem hexChars_inj {as bs : Bytes} (h : hexChars as = hexChars bs) : as = bs := by
  induction as generalizing bs with
  | nil =>
    cases bs with
    | nil => rfl
    | cons b bs => cases h
  | cons a as ih =>
    cases bs with
    | nil => cases h
    | cons b bs =>
      have hsplit := List.append_inj (show hexByte a ++ hexChars as = hexByte b ++ hexChars bs from h) rfl
      rw [hexByte_inj hsplit.1, ih hsplit.2]

/-- A text that starts with the hexadecimal of bytes of a known length. -/
theorem hex_append_inj {as bs : Bytes} (hlen : as.length = bs.length) {s t : String}
    (h : hex as ++ s = hex bs ++ t) : as = bs ∧ s = t := by
  have hchars := congrArg String.toList h
  simp only [hex, String.toList_append, String.toList_ofList] at hchars
  have hsplit := List.append_inj hchars (by rw [length_hexChars, length_hexChars, hlen])
  exact ⟨hexChars_inj hsplit.1, String.toList_inj.1 hsplit.2⟩

end Mutiny.Lib
