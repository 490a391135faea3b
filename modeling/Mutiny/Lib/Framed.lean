import Mutiny.Lib.Bytes
import Mutiny.Lib.Except

/- Append-only files of framed records.

   A `Framing` writes a record as a frame and reads one frame off the front of a
   file. Its laws are what a crash-safe log needs of a frame format: a whole
   frame reads back whatever follows it, and a frame cut short reads as the end
   of the file. `scan` reads frames until the end and folds them; over a file of
   whole frames with one cut frame behind them it folds exactly the whole ones
   (`scan_frames`). Some records may have no faithful frame (one whose length
   field overflows, say), so the laws are for those that `Fits`.

   `Framing.checked` is the usual format: a length, a checksum, the payload.
   `Framing.trailed` has the checksum behind the payload. -/
namespace Mutiny.Lib
open List (append_assoc drop_left length_append take_left)

/-- A frame format for records `ρ`, with read errors `ε`. -/
structure Framing (ρ ε : Type) where
  frame : ρ → Bytes
  /-- The first record and the bytes it takes, or `none` at the end. -/
  read : Bytes → Except ε (Option (ρ × Nat))
  Fits : ρ → Prop
  read_pos : ∀ {bs r n}, read bs = .ok (some (r, n)) → 0 < n ∧ n ≤ bs.length
  read_frame : ∀ {r}, Fits r → ∀ rest, read (frame r ++ rest) = .ok (some (r, (frame r).length))
  read_cut : ∀ {r}, Fits r → ∀ k < (frame r).length, read ((frame r).take k) = .ok none

namespace Framing

variable {ρ ε σ : Type} (F : Framing ρ ε)

/-- Read records until the end, folding each with the bytes it takes. The result
    is the fold and the number of bytes read. -/
def scan (step : σ → ρ → Nat → Except ε σ) (s : σ) (bs : Bytes) : Except ε (σ × Nat) :=
  match h : F.read bs with
  | .error e => .error e
  | .ok none => .ok (s, 0)
  | .ok (some (r, n)) => do
    let s ← step s r n
    let (s, used) ← scan step s (bs.drop n)
    return (s, n + used)
  termination_by bs.length
  decreasing_by
    have := F.read_pos h
    rw [List.length_drop]
    omega

def frames (rs : List ρ) : Bytes := rs.flatMap F.frame

def fold (step : σ → ρ → Nat → Except ε σ) : σ → List ρ → Except ε σ
  | s, [] => .ok s
  | s, r :: rs => do
    let s ← step s r (F.frame r).length
    fold step s rs

/-- What a crash can leave behind the last whole frame. -/
def Cut (tail : Bytes) : Prop := tail = [] ∨ ∃ r k, F.Fits r ∧ k < (F.frame r).length ∧ tail = (F.frame r).take k

@[simp] theorem frames_nil : F.frames [] = [] := rfl

@[simp] theorem frames_cons (r : ρ) (rs : List ρ) : F.frames (r :: rs) = F.frame r ++ F.frames rs := rfl

@[simp] theorem frames_append (rs rs' : List ρ) : F.frames (rs ++ rs') = F.frames rs ++ F.frames rs' :=
  List.flatMap_append

theorem cut_nil : F.Cut [] := Or.inl rfl

theorem frame_pos {r : ρ} (h : F.Fits r) : 0 < (F.frame r).length :=
  (F.read_pos (F.read_frame h [])).1

theorem cut_take {r : ρ} (h : F.Fits r) {k : Nat} (hk : k < (F.frame r).length) : F.Cut ((F.frame r).take k) :=
  Or.inr ⟨r, k, h, hk, rfl⟩

theorem fold_pure (step : σ → ρ → Nat → σ) (s : σ) (rs : List ρ) :
    F.fold (fun s r n => .ok (step s r n)) s rs = .ok (rs.foldl (fun s r => step s r (F.frame r).length) s) := by
  induction rs generalizing s with
  | nil => rfl
  | cons r rs ih => exact ih _

variable {F}

theorem Cut.read {tail : Bytes} (h : F.Cut tail) (hr : ∃ r, F.Fits r) : F.read tail = .ok none := by
  rcases h with rfl | ⟨r, k, hfits, hk, rfl⟩
  · obtain ⟨r, hfits⟩ := hr
    simpa using F.read_cut hfits 0 (F.frame_pos hfits)
  · exact F.read_cut hfits k hk

variable (F)

/-- The scan of whole frames and a cut one folds the whole ones. -/
theorem scan_frames (step : σ → ρ → Nat → Except ε σ) (s : σ) {rs : List ρ} {tail : Bytes}
    (hfits : ∀ r ∈ rs, F.Fits r) (htail : F.read tail = .ok none) :
    F.scan step s (F.frames rs ++ tail) =
      (F.fold step s rs).map (fun s => (s, (F.frames rs).length)) := by
  induction rs generalizing s with
  | nil =>
    rw [frames_nil, List.nil_append, scan]
    split
    · next e he => rw [htail] at he; cases he
    · rfl
    · next r n hn => rw [htail] at hn; cases hn
  | cons r rs ih =>
    obtain ⟨hr, hrs⟩ := List.forall_mem_cons.1 hfits
    have hread := F.read_frame hr (F.frames rs ++ tail)
    rw [frames_cons, append_assoc, scan]
    split
    · next e he => rw [hread] at he; cases he
    · next he => rw [hread] at he; cases he
    · next r' n hn =>
      rw [hread] at hn
      cases hn
      rw [drop_left, fold]
      cases step s r (F.frame r).length with
      | error e => rfl
      | ok s' =>
        simp only [ok_bind, ih s' hrs]
        cases F.fold step s' rs with
        | error e => rfl
        | ok s'' => simp [Except.map]

/-- A prefix of a run of frames is some whole frames and a cut one: all of them
    exactly when it is not a proper prefix. -/
theorem take_frames {rs : List ρ} (hfits : ∀ r ∈ rs, F.Fits r) (k : Nat) :
    ∃ j tail, (F.frames rs).take k = F.frames (rs.take j) ++ tail ∧ F.Cut tail ∧
      (k < (F.frames rs).length → j < rs.length) := by
  induction rs generalizing k with
  | nil => exact ⟨0, [], by simp, F.cut_nil, by simp⟩
  | cons r rs ih =>
    obtain ⟨hr, hrs⟩ := List.forall_mem_cons.1 hfits
    by_cases hk : k < (F.frame r).length
    · refine ⟨0, (F.frame r).take k, ?_, F.cut_take hr hk, by simp⟩
      simp only [frames_cons, List.take_zero, frames_nil, List.nil_append]
      rw [List.take_append_of_le_length (Nat.le_of_lt hk)]
    · obtain ⟨j, tail, htake, hcut, hj⟩ := ih hrs (k - (F.frame r).length)
      refine ⟨j + 1, tail, ?_, hcut, ?_⟩
      · rw [frames_cons, List.take_append, List.take_of_length_le (by omega), htake, List.take_succ_cons,
          frames_cons, append_assoc]
      · intro hlt
        rw [frames_cons, length_append] at hlt
        rw [List.length_cons]
        have := hj (by omega)
        omega

end Framing

/-! Length, checksum, payload. -/

/-- Four-byte numbers, in one byte order or the other. -/
structure Word32 where
  put : Nat → Bytes
  get : Bytes → Nat
  length_put : ∀ n, (put n).length = 4
  get_put : ∀ n, get (put n) = n % 2 ^ 32

def Word32.be : Word32 := ⟨beBytes 4, beNat, length_beBytes 4, beNat_beBytes 4⟩

def Word32.le : Word32 := ⟨leBytes 4, leNat, length_leBytes 4, leNat_leBytes 4⟩

section Checked

variable {ρ ε : Type} (word : Word32) (sum : Bytes → Nat) (admits : Nat → Bool)

/-- The length and the checksum of a payload, then the payload. -/
def checkedFrame (payload : Bytes) : Bytes :=
  word.put payload.length ++ word.put (sum payload) ++ payload

/-- One payload off the front: `none` where the bytes end, the length is not one
    the format admits, the checksum fails, or the payload is not a record. -/
def readChecked (decode : Bytes → Except ε (Option ρ)) (bs : Bytes) : Except ε (Option (ρ × Nat)) :=
  if bs.length < 8 then .ok none
  else
    let len := word.get (bs.take 4)
    let expected := word.get ((bs.drop 4).take 4)
    if admits len = false ∨ bs.length < 8 + len then .ok none
    else
      let payload := (bs.drop 8).take len
      if sum payload = expected then
        (decode payload).map (fun r => r.map (fun r => (r, 8 + len)))
      else .ok none

theorem length_checkedFrame (payload : Bytes) : (checkedFrame word sum payload).length = 8 + payload.length := by
  simp [checkedFrame, word.length_put]
  omega

theorem header_of_append {a b c : Bytes} (ha : a.length = 4) (hb : b.length = 4) :
    (a ++ b ++ c).take 4 = a ∧ ((a ++ b ++ c).drop 4).take 4 = b ∧ (a ++ b ++ c).drop 8 = c := by
  refine ⟨?_, ?_, ?_⟩
  · rw [append_assoc, ← ha, take_left]
  · rw [append_assoc, ← ha, drop_left, ha, ← hb, take_left]
  · have hab : (a ++ b).length = 8 := by rw [length_append, ha, hb]
    rw [← hab, drop_left]

variable (hsum : ∀ bs, sum bs < 2 ^ 32) {encode : ρ → Bytes} {decode : Bytes → Except ε (Option ρ)}
include hsum

theorem readChecked_frame {r : ρ} (hlen : (encode r).length < 2 ^ 32) (hadm : admits (encode r).length = true)
    (hdec : decode (encode r) = .ok (some r)) (rest : Bytes) :
    readChecked word sum admits decode (checkedFrame word sum (encode r) ++ rest) =
      .ok (some (r, (checkedFrame word sum (encode r)).length)) := by
  have hl := length_checkedFrame word sum (encode r)
  obtain ⟨h1, h2, h3⟩ := header_of_append (c := encode r ++ rest) (word.length_put (encode r).length)
    (word.length_put (sum (encode r)))
  have happ : checkedFrame word sum (encode r) ++ rest =
      word.put (encode r).length ++ word.put (sum (encode r)) ++ (encode r ++ rest) := by
    simp [checkedFrame]
  have hpos : ¬ (checkedFrame word sum (encode r) ++ rest).length < 8 := by
    rw [length_append]
    omega
  have hroom : ¬ (checkedFrame word sum (encode r) ++ rest).length < 8 + (encode r).length := by
    rw [length_append]
    omega
  unfold readChecked
  rw [if_neg hpos]
  rw [happ] at hroom ⊢
  simp only [h1, h2, h3, word.get_put, Nat.mod_eq_of_lt hlen, Nat.mod_eq_of_lt (hsum _), hadm, hroom,
    take_left, if_true, hdec, hl]
  rfl

omit hsum in
theorem readChecked_cut {r : ρ} (hlen : (encode r).length < 2 ^ 32) {k : Nat}
    (hk : k < (checkedFrame word sum (encode r)).length) :
    readChecked word sum admits decode ((checkedFrame word sum (encode r)).take k) = .ok none := by
  have hl := length_checkedFrame word sum (encode r)
  have hk' : ((checkedFrame word sum (encode r)).take k).length = k := by
    rw [List.length_take]
    omega
  unfold readChecked
  rw [hk']
  split
  · rfl
  · next h8 =>
    -- the header is whole, so the length it gives is the payload's and the bytes end before it
    have hhead : ((checkedFrame word sum (encode r)).take k).take 4 = word.put (encode r).length := by
      rw [List.take_take, min_eq_left (by omega)]
      exact (header_of_append (word.length_put _) (word.length_put _)).1
    simp only [hhead, word.get_put, Nat.mod_eq_of_lt hlen]
    rw [if_pos (Or.inr (by omega))]

omit hsum in
theorem readChecked_pos {bs : Bytes} {r : ρ} {n : Nat}
    (h : readChecked word sum admits decode bs = .ok (some (r, n))) : 0 < n ∧ n ≤ bs.length := by
  unfold readChecked at h
  split at h
  · cases h
  · dsimp only at h
    split at h
    · cases h
    · next hroom =>
      split at h
      · obtain ⟨r', _, hr⟩ := map_ok.1 h
        cases r' with
        | none => cases hr
        | some r' =>
          cases hr
          have := not_or.1 hroom
          omega
      · cases h

/-- The format whose frames are a length, a checksum and a payload. A record fits
    when its length does and its payload reads back. -/
def Framing.checked (encode : ρ → Bytes) (decode : Bytes → Except ε (Option ρ)) : Framing ρ ε where
  frame r := checkedFrame word sum (encode r)
  read := readChecked word sum admits decode
  Fits r := (encode r).length < 2 ^ 32 ∧ admits (encode r).length = true ∧ decode (encode r) = .ok (some r)
  read_pos h := readChecked_pos word sum admits h
  read_frame h rest := readChecked_frame word sum admits hsum h.1 h.2.1 h.2.2 rest
  read_cut h _ hk := readChecked_cut word sum admits h.1 hk

end Checked

/-! Length, payload, checksum. -/

section Trailed

variable {ρ ε : Type} (word : Word32) (sum : Bytes → Bytes) (width : Nat)

/-- The length of a payload, the payload, then its checksum. -/
def trailedFrame (payload : Bytes) : Bytes := word.put payload.length ++ payload ++ sum payload

/-- One payload off the front: `none` where the bytes end, the checksum fails, or
    the payload is not a record. -/
def readTrailed (decode : Bytes → Option ρ) (bs : Bytes) : Except ε (Option (ρ × Nat)) :=
  if bs.length < 4 then .ok none
  else
    let len := word.get (bs.take 4)
    if bs.length < 4 + len + width then .ok none
    else
      let payload := (bs.drop 4).take len
      if sum payload = (bs.drop (4 + len)).take width then
        .ok ((decode payload).map (fun r => (r, 4 + len + width)))
      else .ok none

variable (hsum : ∀ bs, (sum bs).length = width) {encode : ρ → Bytes} {decode : Bytes → Option ρ}

theorem readTrailed_pos {bs : Bytes} {r : ρ} {n : Nat}
    (h : readTrailed (ε := ε) word sum width decode bs = .ok (some (r, n))) : 0 < n ∧ n ≤ bs.length := by
  unfold readTrailed at h
  split at h
  · cases h
  · dsimp only at h
    split at h
    · cases h
    · next hroom =>
      split at h
      · obtain ⟨r', _, hr⟩ := Option.map_eq_some_iff.1 (Except.ok.inj h)
        cases hr
        omega
      · cases h

include hsum

theorem length_trailedFrame (payload : Bytes) :
    (trailedFrame word sum payload).length = 4 + payload.length + width := by
  simp [trailedFrame, word.length_put, hsum]
  omega

theorem readTrailed_frame {r : ρ} (hlen : (encode r).length < 2 ^ 32) (hdec : decode (encode r) = some r)
    (rest : Bytes) :
    readTrailed (ε := ε) word sum width decode (trailedFrame word sum (encode r) ++ rest) =
      .ok (some (r, (trailedFrame word sum (encode r)).length)) := by
  have hl := length_trailedFrame word sum width hsum (encode r)
  have hput := word.length_put (encode r).length
  have happ : trailedFrame word sum (encode r) ++ rest =
      word.put (encode r).length ++ (encode r ++ (sum (encode r) ++ rest)) := by
    simp [trailedFrame]
  have hlong : (trailedFrame word sum (encode r) ++ rest).length = 4 + (encode r).length + width + rest.length := by
    rw [length_append, hl]
  unfold readTrailed
  rw [if_neg (by omega)]
  have hhead : (trailedFrame word sum (encode r) ++ rest).take 4 = word.put (encode r).length := by
    rw [happ, ← hput, take_left]
  have hpayload : ((trailedFrame word sum (encode r) ++ rest).drop 4).take (encode r).length = encode r := by
    rw [happ]
    nth_rewrite 1 [← hput]
    rw [drop_left, take_left]
  have htail : ((trailedFrame word sum (encode r) ++ rest).drop (4 + (encode r).length)).take width =
      sum (encode r) := by
    rw [happ, ← List.drop_drop]
    nth_rewrite 1 [← hput]
    rw [drop_left, drop_left, ← hsum (encode r), take_left]
  simp only [hhead, word.get_put, Nat.mod_eq_of_lt hlen, hpayload, htail, if_true, hdec, hl, Option.map_some]
  rw [if_neg (by omega)]

theorem readTrailed_cut {r : ρ} (hlen : (encode r).length < 2 ^ 32) {k : Nat}
    (hk : k < (trailedFrame word sum (encode r)).length) :
    readTrailed (ε := ε) word sum width decode ((trailedFrame word sum (encode r)).take k) = .ok none := by
  have hl := length_trailedFrame word sum width hsum (encode r)
  have hk' : ((trailedFrame word sum (encode r)).take k).length = k := by
    rw [List.length_take]
    omega
  unfold readTrailed
  rw [hk']
  split
  · rfl
  · next h4 =>
    -- the length is whole, so the bytes end before the checksum does
    have hhead : ((trailedFrame word sum (encode r)).take k).take 4 = word.put (encode r).length := by
      rw [List.take_take, min_eq_left (by omega), trailedFrame, append_assoc,
        ← word.length_put (encode r).length, take_left]
    simp only [hhead, word.get_put, Nat.mod_eq_of_lt hlen]
    rw [if_pos (by omega)]

/-- The format whose frames are a length, a payload and a checksum of a fixed
    width. -/
def Framing.trailed (encode : ρ → Bytes) (decode : Bytes → Option ρ) : Framing ρ ε where
  frame r := trailedFrame word sum (encode r)
  read := readTrailed word sum width decode
  Fits r := (encode r).length < 2 ^ 32 ∧ decode (encode r) = some r
  read_pos h := readTrailed_pos word sum width h
  read_frame h rest := readTrailed_frame word sum width hsum h.1 h.2 rest
  read_cut h _ hk := readTrailed_cut word sum width hsum h.1 hk

end Trailed

end Mutiny.Lib
