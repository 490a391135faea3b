import Mutiny.Lib.Bytes
import Mutiny.Lib.SortedMap

/- Codings: a writer and a reader that takes back what was written, whatever follows
   it. There are numbers of a fixed width, texts and lists that say where they end,
   pairs and maps; every other type is coded by the parts it is made of (`Coding.of`). -/
namespace Mutiny.Lib

structure Coding (α : Type) where
  put : α → Bytes
  read : Reader Unit α
  reads : ∀ a, Reads read (put a) a

namespace Coding

variable {α β : Type}

def decode (C : Coding α) (bytes : Bytes) : Option α := (C.read bytes).toOption.map Prod.fst

theorem decode_put (C : Coding α) (a : α) : C.decode (C.put a) = some a := by
  rw [decode, (C.reads a).run]
  rfl

def of (C : Coding α) (parts : β → α) (make : α → Option β) (h : ∀ b, make (parts b) = some b) : Coding β where
  put b := C.put (parts b)
  read := do
    let a ← C.read
    match make a with
    | some b => return b
    | none => throw ()
  reads b := by
    intro rest
    show (C.read (C.put (parts b) ++ rest) >>= fun x => _) = _
    rw [C.reads (parts b)]
    simp only [ok_bind, h]
    rfl

/-- A number of `w` bytes. -/
def word (w : Nat) (number : α → Nat) (make : Nat → α) (h : ∀ a, make (number a % 256 ^ w) = a) : Coding α where
  put a := beBytes w (number a)
  read := do
    let bytes ← takeBytes () w
    return make (beNat bytes)
  reads a := by
    have hread := (Reads.take () (length_beBytes w (number a))).map (fun bytes => make (beNat bytes))
    rwa [beNat_beBytes, h] at hread

/-- Bytes with a 1 before each and a 0 after the last. -/
def putEscaped (bytes : Bytes) : Bytes := bytes.flatMap (fun b => [1, b]) ++ [0]

def readEscaped : Reader Unit Bytes
  | [] => .error ()
  | [mark] => if mark = 0 then .ok ([], []) else .error ()
  | mark :: b :: rest =>
    if mark = 0 then .ok ([], b :: rest)
    else (readEscaped rest).map (fun x => (b :: x.1, x.2))

theorem reads_escaped (bytes : Bytes) : Reads readEscaped (putEscaped bytes) bytes := by
  intro rest
  induction bytes with
  | nil =>
    cases rest with
    | nil => rfl
    | cons b rest => rfl
  | cons b bytes ih =>
    have hcons : putEscaped (b :: bytes) ++ rest = 1 :: b :: (putEscaped bytes ++ rest) := by simp [putEscaped]
    rw [hcons, readEscaped, if_neg (by decide)]
    simp only [ih]
    rfl

def escaped : Coding Bytes := ⟨putEscaped, readEscaped, reads_escaped⟩

/-- A small number, in unary. -/
def mark : Coding Nat := escaped.of (fun n => List.replicate n 0) (fun bytes => some bytes.length) (by simp)

def pair (C : Coding α) (D : Coding β) : Coding (α × β) where
  put p := C.put p.1 ++ D.put p.2
  read := do
    let a ← C.read
    let b ← D.read
    return (a, b)
  reads p := (C.reads p.1).bind ((D.reads p.2).map (fun b => (p.1, b)))

def list (C : Coding α) : Coding (List α) where
  put l := mark.put l.length ++ l.flatMap C.put
  read := do
    let n ← mark.read
    readMany C.read n
  reads l := (mark.reads l.length).bind (Reads.many (fun a _ => C.reads a))

def option (C : Coding α) : Coding (Option α) :=
  C.list.of Option.toList (fun l => some l.head?) (fun o => by cases o <;> rfl)

def map [LinearOrder α] (C : Coding α) (D : Coding β) : Coding (BTreeMap α β) :=
  (C.pair D).list.of (·.toList) (fun l => some (l.foldl (fun m e => m.insert e.1 e.2) ∅)) (fun m => by
    congr 1
    refine SortedMap.ext (fun a => ?_)
    rw [SortedMap.getElem?_foldl_insert, SortedMap.getElem?_empty, Option.or_none])

def fin (w : Nat) {n : Nat} [NeZero n] (h : 256 ^ w = n) : Coding (Fin n) := word w Fin.val (Fin.ofNat n) (fun a => by
  rw [h, Nat.mod_eq_of_lt a.isLt, Fin.ofNat_val_eq_self])

def digest : Coding (Fin (2 ^ 256)) := fin 32 (by norm_num)

def u64 : Coding (Fin (2 ^ 64)) := fin 8 (by norm_num)

def bits (w : Nat) {n : Nat} (h : 256 ^ w = 2 ^ n) : Coding (BitVec n) := word w BitVec.toNat (BitVec.ofNat n) (fun a => by
  rw [h, Nat.mod_eq_of_lt a.isLt, BitVec.ofNat_toNat, BitVec.setWidth_eq])

def text : Coding String := escaped.of utf8 (fun bytes => String.fromUTF8? ⟨bytes.toArray⟩) fromUTF8_utf8

end Coding

end Mutiny.Lib
