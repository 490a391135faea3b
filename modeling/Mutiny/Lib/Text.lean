import Mathlib

/- Text as a list of characters: lines, numerals, and quoted strings.

   `lines` is the standard library's splitting into lines. A text made of lines
   that hold no line feed, and do not end in a carriage return, splits back into
   them (`lines_unlines`). `decimal`, `hexadecimal` and `quoted` are how numbers
   and strings are printed; each is told apart from what follows it by the first
   character that cannot belong to it (`split_at_stop`, `quoted_cancel`). Which
   characters outside the named escapes are printed as a code point is left to a
   table. -/
namespace Mutiny.Lib

abbrev Text := List Char

namespace Text

def bytes (t : Text) : Nat := (t.map Char.utf8Size).sum

/-! Lines. -/

/-- The pieces of a text, each up to and with its line feed. -/
def splitInclusive : Text → List Text
  | [] => []
  | c :: rest =>
    if c = '\n' then ['\n'] :: splitInclusive rest
    else match splitInclusive rest with
      | [] => [[c]]
      | piece :: pieces => (c :: piece) :: pieces

/-- A piece without its line feed and without a carriage return before that. -/
def stripEnd (piece : Text) : Text :=
  match piece.reverse with
  | '\n' :: '\r' :: rest => rest.reverse
  | '\n' :: rest => rest.reverse
  | _ => piece

def lines (t : Text) : List Text := (splitInclusive t).map stripEnd

/-- A line that can be read back: no line feed in it, no carriage return at its end. -/
structure IsLine (l : Text) : Prop where
  feed : '\n' ∉ l
  tail : l.getLast? ≠ some '\r'

def unlines (ls : List Text) : Text := ls.flatMap (fun l => l ++ ['\n'])

theorem splitInclusive_line {l : Text} (h : '\n' ∉ l) (rest : Text) :
    splitInclusive (l ++ '\n' :: rest) = (l ++ ['\n']) :: splitInclusive rest := by
  induction l with
  | nil => simp [splitInclusive]
  | cons c l ih =>
    rw [List.mem_cons, not_or] at h
    rw [List.cons_append, splitInclusive, if_neg (Ne.symm h.1), ih h.2]
    rfl

theorem stripEnd_line {l : Text} (h : IsLine l) : stripEnd (l ++ ['\n']) = l := by
  unfold stripEnd
  rw [List.reverse_append]
  have hlast : l.reverse.head? ≠ some '\r' := by
    rw [List.head?_reverse]
    exact h.tail
  cases hr : l.reverse with
  | nil => simpa using hr
  | cons c rest =>
    rw [hr] at hlast
    have hc : c ≠ '\r' := by simpa using hlast
    have hl : l = (c :: rest).reverse := by rw [← hr, List.reverse_reverse]
    simp only [List.reverse_cons, List.reverse_nil, List.nil_append, List.cons_append]
    split
    · next heq =>
      simp only [List.cons.injEq] at heq
      exact absurd heq.2.1 hc
    · next heq =>
      simp only [List.cons.injEq, true_and] at heq
      rw [hl, heq]
    · next _ hno => exact absurd rfl (hno (c :: rest))

theorem lines_line {l : Text} (h : IsLine l) (rest : Text) : lines (l ++ '\n' :: rest) = l :: lines rest := by
  unfold lines
  rw [splitInclusive_line h.feed, List.map_cons, stripEnd_line h]

theorem lines_unlines {ls : List Text} (h : ∀ l ∈ ls, IsLine l) : lines (unlines ls) = ls := by
  induction ls with
  | nil => rfl
  | cons l ls ih =>
    have hcons : unlines (l :: ls) = l ++ '\n' :: unlines ls := by simp [unlines]
    rw [hcons, lines_line (h l List.mem_cons_self), ih (fun l' hl' => h l' (List.mem_cons_of_mem _ hl'))]

/-! What follows a text. -/

/-- Two texts are told apart by the first character outside of them. -/
theorem split_at_stop {p q x y : Text} (stop : Char → Prop) {c d : Char} (hp : ∀ a ∈ p, ¬ stop a)
    (hq : ∀ a ∈ q, ¬ stop a) (hc : stop c) (hd : stop d) (h : p ++ c :: x = q ++ d :: y) :
    p = q ∧ c = d ∧ x = y := by
  induction p generalizing q with
  | nil =>
    cases q with
    | nil =>
      obtain ⟨rfl, rfl⟩ := List.cons.inj h
      exact ⟨rfl, rfl, rfl⟩
    | cons b q =>
      obtain ⟨rfl, _⟩ := List.cons.inj h
      exact absurd hc (hq c List.mem_cons_self)
  | cons a p ih =>
    cases q with
    | nil =>
      obtain ⟨rfl, _⟩ := List.cons.inj h
      exact absurd hd (hp a List.mem_cons_self)
    | cons b q =>
      obtain ⟨rfl, hrest⟩ := List.cons.inj h
      obtain ⟨rfl, rfl, rfl⟩ := ih (fun b hb => hp b (List.mem_cons_of_mem _ hb))
        (fun b hb => hq b (List.mem_cons_of_mem _ hb)) hrest
      exact ⟨rfl, rfl, rfl⟩

/-! Numerals. -/

def decimal : Int → Text
  | .ofNat n => Nat.toDigits 10 n
  | .negSucc n => '-' :: Nat.toDigits 10 (n + 1)

theorem isDigit_toDigits {n : Nat} {c : Char} (h : c ∈ Nat.toDigits 10 n) : c.isDigit :=
  Nat.isDigit_of_mem_toDigits (by decide) (by decide) h

theorem decimal_mem {i : Int} {c : Char} (h : c ∈ decimal i) : c = '-' ∨ c.isDigit = true := by
  cases i with
  | ofNat n => exact Or.inr (isDigit_toDigits h)
  | negSucc n =>
    rcases List.mem_cons.1 h with rfl | h
    · exact Or.inl rfl
    · exact Or.inr (isDigit_toDigits h)

theorem decimal_ne_nil (i : Int) : decimal i ≠ [] := by
  cases i with
  | ofNat n => exact Nat.toDigits_ne_nil
  | negSucc n => exact List.cons_ne_nil _ _

theorem toDigits_ten_inj {m n : Nat} (h : Nat.toDigits 10 m = Nat.toDigits 10 n) : m = n := by
  rw [← Nat.ofDigitChars_ten_toDigits (n := m), h, Nat.ofDigitChars_ten_toDigits]

theorem decimal_inj {i j : Int} (h : decimal i = decimal j) : i = j := by
  have hminus : ∀ {m n : Nat} {l : Text}, Nat.toDigits 10 m ≠ '-' :: l := by
    intro m n l hl
    have hd : '-'.isDigit = true := isDigit_toDigits (hl ▸ List.mem_cons_self : '-' ∈ Nat.toDigits 10 m)
    cases hd
  cases i with
  | ofNat m =>
    cases j with
    | ofNat n => rw [toDigits_ten_inj h]
    | negSucc n => exact absurd h (hminus (n := n))
  | negSucc m =>
    cases j with
    | ofNat n => exact absurd h.symm (hminus (n := m))
    | negSucc n =>
      have hd := toDigits_ten_inj (List.cons.inj h).2
      rw [Nat.succ.inj hd]

theorem decimal_last (i : Int) : ∃ c, (decimal i).getLast? = some c ∧ c.isDigit = true := by
  have hdigits : ∀ n, ∃ c, (Nat.toDigits 10 n).getLast? = some c ∧ c.isDigit = true := by
    intro n
    have hne : Nat.toDigits 10 n ≠ [] := Nat.toDigits_ne_nil
    exact ⟨_, List.getLast?_eq_some_getLast hne, isDigit_toDigits (List.getLast_mem hne)⟩
  cases i with
  | ofNat n => exact hdigits n
  | negSucc n =>
    obtain ⟨c, hc, hd⟩ := hdigits (n + 1)
    refine ⟨c, ?_, hd⟩
    rw [decimal, List.getLast?_cons, hc]
    rfl

def hexadecimal (n : Nat) : Text := Nat.toDigits 16 n

theorem hexadecimal_mem {n : Nat} {c : Char} (h : c ∈ hexadecimal n) : ∃ d < 16, c = Nat.digitChar d := by
  induction n using Nat.strongRecOn with
  | _ n ih =>
    rcases Nat.lt_or_ge n 16 with hlt | hge
    · rw [hexadecimal, Nat.toDigits_of_lt_base hlt, List.mem_singleton] at h
      exact ⟨n, hlt, h⟩
    · rw [hexadecimal, Nat.toDigits_of_base_le (by decide) hge, List.mem_append, List.mem_singleton] at h
      rcases h with h | h
      · exact ih (n / 16) (by omega) h
      · exact ⟨n % 16, by omega, h⟩

theorem hexadecimal_inj {m n : Nat} (h : hexadecimal m = hexadecimal n) : m = n := by
  have hdigit : ∀ d < 16, "0123456789abcdef".toList.idxOf (Nat.digitChar d) = d := by decide
  have hread : ∀ n, (hexadecimal n).foldl (fun k c => k * 16 + "0123456789abcdef".toList.idxOf c) 0 = n := by
    intro n
    induction n using Nat.strongRecOn with
    | _ n ih =>
      unfold hexadecimal at ih ⊢
      rcases Nat.lt_or_ge n 16 with hn | hn
      · rw [Nat.toDigits_of_lt_base hn, List.foldl_cons, List.foldl_nil, hdigit n hn]
        omega
      · rw [Nat.toDigits_of_base_le (by decide) hn, List.foldl_append, ih (n / 16) (by omega), List.foldl_cons,
          List.foldl_nil, hdigit (n % 16) (by omega)]
        omega
  rw [← hread m, h, hread n]

/-! Quoted strings. -/

/-- One character inside quotes. `table` says which others are printed as code points. -/
def escapeChar (table : Char → Bool) (c : Char) : Text :=
  if c = '\x00' then ['\\', '0']
  else if c = '\t' then ['\\', 't']
  else if c = '\r' then ['\\', 'r']
  else if c = '\n' then ['\\', 'n']
  else if c = '"' then ['\\', '"']
  else if c = '\\' then ['\\', '\\']
  else if table c then ['\\', 'u', '\x7b'] ++ hexadecimal c.toNat ++ ['\x7d']
  else [c]

def quoted (table : Char → Bool) (s : Text) : Text := '"' :: (s.flatMap (escapeChar table) ++ ['"'])

/-- The characters with an escape of their own, and its letter. -/
def namedEscapes : List (Char × Char) :=
  [('\x00', '0'), ('\t', 't'), ('\r', 'r'), ('\n', 'n'), ('"', '"'), ('\\', '\\')]

section Quoted

variable {table : Char → Bool}

theorem escapeChar_cases (table : Char → Bool) (c : Char) :
    (escapeChar table c = [c] ∧ c ≠ '\\' ∧ c ≠ '"' ∧ c ≠ '\n') ∨
      (∃ k, escapeChar table c = ['\\', k] ∧ (c, k) ∈ namedEscapes) ∨
      escapeChar table c = '\\' :: 'u' :: '\x7b' :: (hexadecimal c.toNat ++ ['\x7d']) := by
  unfold escapeChar
  split_ifs
  iterate 6 exact Or.inr (Or.inl ⟨_, rfl, by simp [namedEscapes, *]⟩)
  · exact Or.inr (Or.inr rfl)
  · exact Or.inl ⟨rfl, by assumption, by assumption, by assumption⟩

theorem hexadecimal_not_brace {n : Nat} : ∀ c ∈ hexadecimal n, ¬ c = '\x7d' := by
  have hdigit : ∀ d < 16, Nat.digitChar d ≠ '\x7d' := by decide
  intro c hc
  obtain ⟨d, hd, rfl⟩ := hexadecimal_mem hc
  exact hdigit d hd

/-- A printed character can be read off the front of what it begins. -/
theorem escapeChar_cancel {c d : Char} {x y : Text} (h : escapeChar table c ++ x = escapeChar table d ++ y) :
    c = d ∧ x = y := by
  have hnamed : ∀ p ∈ namedEscapes, ∀ q ∈ namedEscapes, p.2 = q.2 → p.1 = q.1 := by decide
  have hu : ∀ p ∈ namedEscapes, p.2 ≠ 'u' := by decide
  rcases escapeChar_cases table c with ⟨hc, hcb, _, _⟩ | ⟨k, hc, hk⟩ | hc <;>
    rcases escapeChar_cases table d with ⟨hd, hdb, _, _⟩ | ⟨l, hd, hl⟩ | hd <;>
    rw [hc, hd] at h
  · exact List.cons.inj h
  · exact absurd (List.cons.inj h).1 hcb
  · exact absurd (List.cons.inj h).1 hcb
  · exact absurd (List.cons.inj h).1.symm hdb
  · obtain ⟨_, hrest⟩ := List.cons.inj h
    obtain ⟨hkl, hxy⟩ := List.cons.inj hrest
    exact ⟨hnamed (c, k) hk (d, l) hl hkl, hxy⟩
  · exact absurd (List.cons.inj (List.cons.inj h).2).1 (hu (c, k) hk)
  · exact absurd (List.cons.inj h).1.symm hdb
  · exact absurd (List.cons.inj (List.cons.inj h).2).1.symm (hu (d, l) hl)
  · have hrest : hexadecimal c.toNat ++ '\x7d' :: x = hexadecimal d.toNat ++ '\x7d' :: y := by
      simpa only [List.cons_append, List.append_assoc, List.nil_append, List.cons.injEq, true_and] using h
    obtain ⟨hhex, _, hxy⟩ := split_at_stop (· = '\x7d') hexadecimal_not_brace hexadecimal_not_brace
      rfl rfl hrest
    exact ⟨Char.toNat_inj.1 (hexadecimal_inj hhex), hxy⟩

theorem escapeChar_ne_quote (table : Char → Bool) (c : Char) (x y : Text) : escapeChar table c ++ x ≠ '"' :: y := by
  intro h
  rcases escapeChar_cases table c with ⟨hc, _, hq, _⟩ | ⟨k, hc, _⟩ | hc <;> rw [hc] at h
  · exact hq (List.cons.inj h).1
  · exact absurd (List.cons.inj h).1 (by decide)
  · exact absurd (List.cons.inj h).1 (by decide)

theorem quoted_cancel {s t x y : Text} (h : quoted table s ++ x = quoted table t ++ y) : s = t ∧ x = y := by
  have hrest : s.flatMap (escapeChar table) ++ '"' :: x = t.flatMap (escapeChar table) ++ '"' :: y := by
    unfold quoted at h
    simpa only [List.cons_append, List.append_assoc, List.nil_append, List.cons.injEq, true_and] using h
  clear h
  induction s generalizing t with
  | nil =>
    cases t with
    | nil => exact ⟨rfl, (List.cons.inj hrest).2⟩
    | cons d t =>
      rw [List.flatMap_cons, List.append_assoc] at hrest
      exact absurd hrest.symm (escapeChar_ne_quote table d _ _)
  | cons c s ih =>
    cases t with
    | nil =>
      rw [List.flatMap_cons, List.append_assoc] at hrest
      exact absurd hrest (escapeChar_ne_quote table c _ _)
    | cons d t =>
      rw [List.flatMap_cons, List.flatMap_cons, List.append_assoc, List.append_assoc] at hrest
      obtain ⟨rfl, htail⟩ := escapeChar_cancel hrest
      obtain ⟨rfl, rfl⟩ := ih htail
      exact ⟨rfl, rfl⟩

theorem escapeChar_no_feed (table : Char → Bool) (c : Char) : '\n' ∉ escapeChar table c := by
  have hnamed : ∀ p ∈ namedEscapes, p.2 ≠ '\n' := by decide
  have hdigit : ∀ d < 16, Nat.digitChar d ≠ '\n' := by decide
  rcases escapeChar_cases table c with ⟨hc, _, _, hn⟩ | ⟨k, hc, hk⟩ | hc <;> rw [hc]
  · simpa using Ne.symm hn
  · have := hnamed (c, k) hk
    simpa using Ne.symm this
  · have hhex : '\n' ∉ hexadecimal c.toNat := by
      intro h
      obtain ⟨d, hd, heq⟩ := hexadecimal_mem h
      exact hdigit d hd heq.symm
    simpa using hhex

theorem quoted_no_feed (table : Char → Bool) (s : Text) : '\n' ∉ quoted table s := by
  unfold quoted
  simp only [List.mem_cons, List.mem_append, List.mem_flatMap, List.not_mem_nil, or_false, not_or, not_exists,
    not_and]
  exact ⟨by decide, fun c _ => escapeChar_no_feed table c, by decide⟩

end Quoted

end Text
end Mutiny.Lib
