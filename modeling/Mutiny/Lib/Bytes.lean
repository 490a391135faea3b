import Mathlib.Data.Nat.ModEq
import Mathlib.Data.List.Lex
import Mathlib.Tactic
import Mutiny.Lib.Except

/- Byte strings and readers of them.

   Numbers are written in a fixed width, most significant byte first; reading
   back gives the number modulo the width. A reader takes a front off the bytes
   that are left. `Reads r bs a` says that `r` reads exactly `bs`, as `a`,
   whatever follows, and composes the way the readers do: a format whose parts
   read back reads back. -/
namespace Mutiny.Lib

abbrev Bytes := List UInt8

/-- Bytes in their order, so that byte strings have the order of their bytes. -/
instance linearOrderUInt8 : LinearOrder UInt8 where
  le_refl a := UInt8.le_refl a
  le_trans _ _ _ := UInt8.le_trans
  lt_iff_le_not_ge a b := by
    simp only [UInt8.lt_iff_toNat_lt, UInt8.le_iff_toNat_le]
    omega
  le_antisymm _ _ := UInt8.le_antisymm
  le_total a b := UInt8.le_total a b
  toDecidableLE := inferInstance
  toDecidableEq := inferInstance
  toDecidableLT := inferInstance
  compare_eq_compareOfLessAndEq _ _ := rfl

/-! Numbers of a fixed width. -/

/-- The low `w` bytes of `n`, most significant first. -/
def beBytes : Nat → Nat → Bytes
  | 0, _ => []
  | w + 1, n => beBytes w (n / 256) ++ [UInt8.ofNat (n % 256)]

def beNat (bs : Bytes) : Nat := bs.foldl (fun n b => n * 256 + b.toNat) 0

/-- The low `w` bytes of `n`, least significant first. -/
def leBytes (w n : Nat) : Bytes := (beBytes w n).reverse

def leNat (bs : Bytes) : Nat := beNat bs.reverse

@[simp] theorem length_beBytes (w n : Nat) : (beBytes w n).length = w := by
  induction w generalizing n with
  | zero => rfl
  | succ w ih => simp [beBytes, ih]

@[simp] theorem length_leBytes (w n : Nat) : (leBytes w n).length = w := by
  rw [leBytes, List.length_reverse, length_beBytes]

theorem beNat_concat (bs : Bytes) (b : UInt8) : beNat (bs ++ [b]) = beNat bs * 256 + b.toNat := by
  simp [beNat]

theorem beNat_beBytes (w n : Nat) : beNat (beBytes w n) = n % 256 ^ w := by
  induction w generalizing n with
  | zero => simp [beBytes, beNat, Nat.mod_one]
  | succ w ih =>
    have hb : (UInt8.ofNat (n % 256)).toNat = n % 256 := by simp
    rw [beBytes, beNat_concat, ih, hb, pow_succ', Nat.mod_mul]
    omega

theorem leNat_leBytes (w n : Nat) : leNat (leBytes w n) = n % 256 ^ w := by
  rw [leNat, leBytes, List.reverse_reverse, beNat_beBytes]

theorem leBytes_inj {a b : Nat} (ha : a < 2 ^ 64) (hb : b < 2 ^ 64) (h : leBytes 8 a = leBytes 8 b) : a = b := by
  have hnat := congrArg leNat h
  rw [leNat_leBytes, leNat_leBytes] at hnat
  omega

/-! Fields put end to end. -/

/-- The first field that differs goes on, in the second list, into what follows it in the first. -/
def Shifted {α : Type} (l l' : List (List α)) : Prop :=
  ∃ front field more rest rest', more ≠ [] ∧ l = front ++ field :: rest ∧ l' = front ++ (field ++ more) :: rest' ∧
    rest.flatten = more ++ rest'.flatten

section Fields

variable {α : Type} {l l' : List (List α)}

theorem Shifted.flatten_eq (h : Shifted l l') : l.flatten = l'.flatten ∧ l ≠ l' := by
  obtain ⟨front, field, more, rest, rest', hmore, rfl, rfl, hrest⟩ := h
  simp [hrest, hmore]

theorem Shifted.cons (f : List α) (h : Shifted l l') : Shifted (f :: l) (f :: l') := by
  obtain ⟨front, field, more, rest, rest', hmore, rfl, rfl, hrest⟩ := h
  exact ⟨f :: front, field, more, rest, rest', hmore, rfl, rfl, hrest⟩

/-- Lists with the same bytes are the same, or shifted, or one has empty fields after the other. -/
theorem shifted_of_flatten_eq (h : l.flatten = l'.flatten) : l = l' ∨ Shifted l l' ∨ Shifted l' l ∨
    ∃ rest, rest ≠ [] ∧ rest.flatten = [] ∧ (l' = l ++ rest ∨ l = l' ++ rest) := by
  induction l generalizing l' with
  | nil =>
    cases l' with
    | nil => exact .inl rfl
    | cons f l' => exact .inr (.inr (.inr ⟨f :: l', by simp, h.symm, .inl rfl⟩))
  | cons f l ih =>
    cases l' with
    | nil => exact .inr (.inr (.inr ⟨f :: l, by simp, h, .inr rfl⟩))
    | cons f' l' =>
      rw [List.flatten_cons, List.flatten_cons] at h
      by_cases hf : f = f'
      · subst hf
        rcases ih (List.append_cancel_left h) with rfl | hs | hs | ⟨rest, hne, hflat, hrest⟩
        · exact .inl rfl
        · exact .inr (.inl (hs.cons f))
        · exact .inr (.inr (.inl (hs.cons f)))
        · exact .inr (.inr (.inr ⟨rest, hne, hflat, by simpa using hrest⟩))
      · rcases List.append_eq_append_iff.1 h with ⟨more, rfl, hrest⟩ | ⟨more, rfl, hrest⟩
        · exact .inr (.inl ⟨[], f, more, l, l', fun h => hf (by simp [h]), rfl, rfl, hrest⟩)
        · exact .inr (.inr (.inl ⟨[], f', more, l', l, fun h => hf (by simp [h]), rfl, rfl, hrest⟩))

/-- The bytes tell the fields exactly when these are not shifted, if no fields without bytes can follow. -/
theorem flatten_inj_iff (h : ∀ rest, l' = l ++ rest → rest.flatten = [] → rest = [])
    (h' : ∀ rest, l = l' ++ rest → rest.flatten = [] → rest = []) :
    (l.flatten = l'.flatten ↔ l = l') ↔ ¬ Shifted l l' ∧ ¬ Shifted l' l := by
  constructor
  · intro hiff
    exact ⟨fun hs => hs.flatten_eq.2 (hiff.1 hs.flatten_eq.1), fun hs => hs.flatten_eq.2 (hiff.1 hs.flatten_eq.1.symm).symm⟩
  · rintro ⟨hl, hl'⟩
    refine ⟨fun heq => ?_, congrArg _⟩
    rcases shifted_of_flatten_eq heq with heq | hs | hs | ⟨rest, hne, hflat, hrest | hrest⟩
    · exact heq
    · exact absurd hs hl
    · exact absurd hs hl'
    · exact absurd (h rest hrest hflat) hne
    · exact absurd (h' rest hrest hflat) hne

/-- Fields of the same lengths are not shifted. -/
theorem not_shifted_of_lengths (h : l.map List.length = l'.map List.length) : ¬ Shifted l l' :=
  fun hs => hs.flatten_eq.2 (List.eq_iff_flatten_eq.2 ⟨hs.flatten_eq.1, h⟩)

end Fields

theorem length_le_length_flatMap {α : Type} {l : List α} {write : α → Bytes} (h : ∀ a ∈ l, 0 < (write a).length) :
    l.length ≤ (l.flatMap write).length := by
  induction l with
  | nil => exact le_rfl
  | cons a l ih =>
    obtain ⟨ha, hl⟩ := List.forall_mem_cons.1 h
    have := ih hl
    simp only [List.flatMap_cons, List.length_append, List.length_cons]
    omega

theorem length_le_of_mem_flatMap {α : Type} {l : List α} {write : α → Bytes} {a : α} (h : a ∈ l) :
    (write a).length ≤ (l.flatMap write).length := by
  obtain ⟨l1, l2, rfl⟩ := List.append_of_mem h
  simp only [List.flatMap_append, List.flatMap_cons, List.length_append]
  omega

/-! Texts. -/

def utf8 (s : String) : Bytes := s.toUTF8.data.toList

theorem length_utf8 (s : String) : (utf8 s).length = s.utf8ByteSize := rfl

theorem utf8_inj {s s' : String} (h : utf8 s = utf8 s') : s = s' :=
  String.toByteArray_inj.1 (ByteArray.ext (Array.toList_inj.1 h))

theorem fromUTF8_utf8 (s : String) : String.fromUTF8? ⟨(utf8 s).toArray⟩ = some s := by
  have hb : (⟨(utf8 s).toArray⟩ : ByteArray) = s.toUTF8 := by simp [utf8]
  rw [hb]
  unfold String.fromUTF8?
  rw [dif_pos (by exact s.isValidUTF8)]
  rfl

/-! Readers. -/

/-- A reader: a value off the front of the bytes, and what is left. -/
abbrev Reader (ε : Type) := StateT Bytes (Except ε)

variable {ε α β : Type}

/-- `n` bytes, or `short` when there are not as many. -/
def takeBytes (short : ε) (n : Nat) : Reader ε Bytes := fun bs =>
  if n ≤ bs.length then .ok (bs.take n, bs.drop n) else .error short

/-- `n` readings of one kind. -/
def readMany (r : Reader ε α) : Nat → Reader ε (List α)
  | 0 => pure []
  | n + 1 => do
    let a ← r
    let rest ← readMany r n
    return a :: rest

/-- `r` reads exactly `bs`, as `a`. -/
def Reads (r : Reader ε α) (bs : Bytes) (a : α) : Prop := ∀ rest, r (bs ++ rest) = .ok (a, rest)

theorem Reads.pure (a : α) : Reads (Pure.pure a : Reader ε α) [] a := fun _ => rfl

variable {r : Reader ε α} {bs : Bytes}

theorem Reads.bind {f : α → Reader ε β} {bs' : Bytes} {a : α} {b : β} (hr : Reads r bs a) (hf : Reads (f a) bs' b) :
    Reads (r >>= f) (bs ++ bs') b := by
  intro rest
  show (r (bs ++ bs' ++ rest) >>= fun x => f x.1 x.2) = _
  rw [List.append_assoc, hr]
  exact hf rest

theorem Reads.map {a : α} (hr : Reads r bs a) (f : α → β) : Reads (r >>= fun x => Pure.pure (f x)) bs (f a) := by
  have h : Reads (r >>= fun x => Pure.pure (f x)) (bs ++ []) (f a) := hr.bind (Reads.pure (f a))
  rwa [List.append_nil] at h

theorem Reads.take (short : ε) {n : Nat} (h : bs.length = n) : Reads (takeBytes short n) bs bs := by
  subst h
  intro rest
  simp [takeBytes]

theorem Reads.many {write : α → Bytes} {l : List α} (h : ∀ a ∈ l, Reads r (write a) a) :
    Reads (readMany r l.length) (l.flatMap write) l := by
  induction l with
  | nil => exact Reads.pure []
  | cons a l ih =>
    obtain ⟨ha, hl⟩ := List.forall_mem_cons.1 h
    exact ha.bind ((ih hl).map (fun rest => a :: rest))

theorem Reads.run {a : α} (h : Reads r bs a) : r bs = .ok (a, []) := by
  have := h []
  rwa [List.append_nil] at this

end Mutiny.Lib
