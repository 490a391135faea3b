import Mutiny.Schweep.Agreement
import Mutiny.Schweep.Render

/- Subscriptions (`schweep-server`: `Engine::seal`, `Engine::subscribe`,
   `delta_between`, and what `Engine::install` sets up).

   A standing query keeps the deltas of its last epochs in a ring, bounded by a
   number of epochs and a number of bytes. Each seal appends the difference
   between the previous answer's text and the new one, line by line, and evicts
   from the front. The ring is always a tail of all deltas since registration,
   with `oldest` counting what was evicted (`Standing.Tail`), so a token at or
   above `oldest` is served exactly the epochs after it (`subscribe_served`).
   Line arithmetic then takes one answer's lines to the next one's, as the lines
   of an answer are distinct (`applyDelta_perm`). That rests on the schema being
   one line: a column name is printed as it is, and one that holds a line feed
   can make the schema repeat the line of a row (`column_hides_a_row`).

   Correspondence (Rust ↔ Lean) where names differ:
     the ring part of `seal`   ↔ `Standing.advance`, `evict`
   Texts are lists of characters; `bytes` is their length in UTF-8. -/
namespace Mutiny.Schweep
open Mutiny.Lib Text List

def subscriptionRing : Nat := 256

def subscriptionRingBytes : Nat := 8 * 1024 * 1024

structure EpochDelta where
  epoch : Nat
  rendered : Text
  deriving DecidableEq

/-- The difference between two texts: lines of the new one that the old one lacks,
    then lines of the old one that the new one lacks. -/
def deltaBetween (previous current : Text) : Text :=
  let old := Text.lines previous
  let new := Text.lines current
  let out := (new.filter (fun l => ¬ old.contains l)).flatMap (fun l => '+' :: ' ' :: (l ++ ['\n'])) ++
    (old.filter (fun l => ¬ new.contains l)).flatMap (fun l => '-' :: ' ' :: (l ++ ['\n']))
  if out.isEmpty then "(no change)\n".toList else out

/-- A registration as the server holds it: the deltas of its last epochs, their
    bytes, the epoch before the oldest of them, and the last answer's text. -/
structure Standing where
  ring : List EpochDelta
  ringBytes : Nat
  oldest : Nat
  lastAnswer : Text

/-- Drop the oldest epoch while either bound is exceeded. -/
def evict : List EpochDelta → Nat → Nat → List EpochDelta × Nat × Nat
  | [], bytes, oldest => ([], bytes, oldest)
  | d :: rest, bytes, oldest =>
    if rest.length + 1 > subscriptionRing ∨ (rest.length + 1 > 1 ∧ bytes > subscriptionRingBytes) then
      evict rest (bytes - Text.bytes d.rendered) (oldest + 1)
    else (d :: rest, bytes, oldest)

inductive SubscribeError where
  | tokenTooOld (token oldest : Nat)
  deriving DecidableEq

namespace Standing

/-- A query as it is installed at an epoch, with its answer's text. -/
def install (sealed : Nat) (answer : Text) : Standing := ⟨[], 0, sealed, answer⟩

/-- One seal: the epoch's delta is appended and the ring is bounded again. -/
def advance (s : Standing) (epoch : Nat) (answer : Text) : Standing :=
  let rendered := deltaBetween s.lastAnswer answer
  let (ring, bytes, oldest) := evict (s.ring ++ [⟨epoch, rendered⟩]) (s.ringBytes + Text.bytes rendered) s.oldest
  ⟨ring, bytes, oldest, answer⟩

/-- Every sealed epoch after `token`, and the token to use next. -/
def subscribe (s : Standing) (token : Nat) : Except SubscribeError (Nat × List EpochDelta) :=
  if token < s.oldest then .error (.tokenTooOld token s.oldest)
  else
    let deltas := s.ring.filter (fun d => token < d.epoch)
    .ok ((deltas.getLast?.map EpochDelta.epoch).getD token, deltas)

/-- A run of seals, one answer each, from the epoch after `epoch` on. -/
def sealAll : Standing → Nat → List Text → Standing
  | s, _, [] => s
  | s, epoch, answer :: rest => sealAll (s.advance (epoch + 1) answer) (epoch + 1) rest

end Standing

/-! The ring. -/

variable {epoch₀ : Nat} {answers : List Text}

def deltasFrom : Nat → Text → List Text → List EpochDelta
  | _, _, [] => []
  | epoch, previous, answer :: rest =>
    ⟨epoch + 1, deltaBetween previous answer⟩ :: deltasFrom (epoch + 1) answer rest

def ringSize (ring : List EpochDelta) : Nat := (ring.map (fun d => Text.bytes d.rendered)).sum

/-- Both bounds: at most so many epochs, and at most so many bytes unless one epoch
    alone has more. -/
def RingBounded (ring : List EpochDelta) : Prop :=
  ring.length ≤ subscriptionRing ∧ (ring.length ≤ 1 ∨ ringSize ring ≤ subscriptionRingBytes)

/-- Eviction leaves a bounded tail and counts what it dropped. -/
theorem evict_spec (ring : List EpochDelta) (oldest : Nat) : ∃ dropped ≤ ring.length,
    evict ring (ringSize ring) oldest =
      (ring.drop dropped, ringSize (ring.drop dropped), oldest + dropped) ∧ RingBounded (ring.drop dropped) := by
  induction ring generalizing oldest with
  | nil => exact ⟨0, le_rfl, rfl, Nat.zero_le _, Or.inl (Nat.zero_le _)⟩
  | cons d rest ih =>
    unfold evict
    split
    · next hfull =>
      obtain ⟨dropped, hle, heq, hbound⟩ := ih (oldest + 1)
      refine ⟨dropped + 1, Nat.succ_le_succ hle, ?_, hbound⟩
      have hsize : ringSize (d :: rest) - bytes d.rendered = ringSize rest := by
        simp [ringSize]
      rw [hsize, heq, drop_succ_cons, Nat.add_right_comm, Nat.add_assoc]
    · next hfit =>
      refine ⟨0, Nat.zero_le _, rfl, ?_⟩
      rw [not_or, not_and, not_lt, not_lt] at hfit
      rw [drop_zero]
      refine ⟨hfit.1, ?_⟩
      by_cases hone : (d :: rest).length ≤ 1
      · exact Or.inl hone
      · exact Or.inr (hfit.2 (not_le.1 hone))

/-- A standing query against the deltas since it was registered at `epoch₀`: its
    ring is a tail of them, and `oldest` counts what was evicted. -/
structure Standing.Tail (s : Standing) (epoch₀ : Nat) (all : List EpochDelta) : Prop where
  tail : ∃ dropped ≤ all.length, s.ring = all.drop dropped ∧ s.oldest = epoch₀ + dropped
  size : s.ringBytes = ringSize s.ring
  bounded : RingBounded s.ring

theorem Standing.Tail.advance {s : Standing} {all : List EpochDelta} (h : s.Tail epoch₀ all) (epoch : Nat)
    (answer : Text) :
    (s.advance epoch answer).Tail epoch₀ (all ++ [⟨epoch, deltaBetween s.lastAnswer answer⟩]) ∧
      (s.advance epoch answer).lastAnswer = answer := by
  obtain ⟨dropped, hle, hring, holdest⟩ := h.tail
  obtain ⟨d, hd⟩ : ∃ d : EpochDelta, d = ⟨epoch, deltaBetween s.lastAnswer answer⟩ := ⟨_, rfl⟩
  rw [← hd]
  obtain ⟨more, hmore, hevict, hbound⟩ := evict_spec (s.ring ++ [d]) s.oldest
  have hsize : s.ringBytes + bytes (deltaBetween s.lastAnswer answer) = ringSize (s.ring ++ [d]) := by
    rw [h.size, hd]
    simp [ringSize]
  have hadv : s.advance epoch answer =
      ⟨(s.ring ++ [d]).drop more, ringSize ((s.ring ++ [d]).drop more), s.oldest + more, answer⟩ := by
    unfold Standing.advance
    dsimp only
    rw [hsize, ← hd, hevict]
  rw [hadv]
  refine ⟨⟨⟨dropped + more, ?_, ?_, ?_⟩, rfl, hbound⟩, rfl⟩
  · rw [hring, length_append, length_drop] at hmore
    rw [length_append]
    omega
  · show (s.ring ++ [d]).drop more = (all ++ [d]).drop (dropped + more)
    rw [hring, ← drop_append_of_le_length hle, drop_drop]
  · show s.oldest + more = epoch₀ + (dropped + more)
    rw [holdest, Nat.add_assoc]

theorem Standing.Tail.sealAll {s : Standing} {epoch : Nat} {all : List EpochDelta} (h : s.Tail epoch₀ all) :
    (s.sealAll epoch answers).Tail epoch₀ (all ++ deltasFrom epoch s.lastAnswer answers) := by
  induction answers generalizing s epoch all with
  | nil => simpa [Standing.sealAll, deltasFrom] using h
  | cons answer rest ih =>
    obtain ⟨htail, hlast⟩ := h.advance (epoch + 1) answer
    have hrest := @ih _ (epoch + 1) _ htail
    rw [hlast, append_assoc] at hrest
    exact hrest

theorem deltasFrom_epochs (epoch : Nat) (previous : Text) (answers : List Text) :
    (deltasFrom epoch previous answers).map EpochDelta.epoch = List.range' (epoch + 1) answers.length := by
  induction answers generalizing epoch previous with
  | nil => rfl
  | cons answer rest ih =>
    rw [deltasFrom, map_cons, ih, length_cons, range'_succ]

theorem filter_epochs {ds : List EpochDelta} {start token : Nat}
    (h : ds.map EpochDelta.epoch = List.range' start ds.length) (hs : start ≤ token + 1) :
    ds.filter (fun d => token < d.epoch) = ds.drop (token + 1 - start) := by
  induction ds generalizing start with
  | nil => simp
  | cons d rest ih =>
    rw [map_cons, length_cons, range'_succ] at h
    obtain ⟨hd, hrest⟩ := List.cons.inj h
    rcases Nat.lt_or_ge token start with hlt | hge
    · -- the token is just before the first epoch, so all of them are after it
      have hall : ∀ e ∈ d :: rest, token < e.epoch := by
        intro e he
        have hmem : e.epoch ∈ (d :: rest).map EpochDelta.epoch := mem_map.2 ⟨e, he, rfl⟩
        rw [map_cons, hd, hrest, ← range'_succ, mem_range'_1] at hmem
        omega
      rw [filter_eq_self.2 (fun e he => decide_eq_true (hall e he)), show token + 1 - start = 0 by omega]
      rfl
    · rw [filter_cons_of_neg (by simpa [hd] using hge), ih hrest (by omega),
        show token + 1 - start = (token + 1 - (start + 1)) + 1 by omega, drop_succ_cons]

theorem deltasFrom_length (epoch : Nat) (previous : Text) (answers : List Text) :
    (deltasFrom epoch previous answers).length = answers.length := by
  have h := congrArg List.length (deltasFrom_epochs epoch previous answers)
  rwa [length_map, length_range'] at h

/-- The standing query of a run: installed at `epoch₀`, then one seal per answer. -/
def Standing.after (epoch₀ : Nat) (first : Text) (answers : List Text) : Standing :=
  (Standing.install epoch₀ first).sealAll epoch₀ answers

theorem Standing.after_tail (epoch₀ : Nat) (first : Text) (answers : List Text) :
    (Standing.after epoch₀ first answers).Tail epoch₀ (deltasFrom epoch₀ first answers) := by
  have hinstall : (Standing.install epoch₀ first).Tail epoch₀ [] :=
    ⟨⟨0, le_rfl, rfl, rfl⟩, rfl, Nat.zero_le _, Or.inl (Nat.zero_le _)⟩
  exact hinstall.sealAll

/-- A token the ring still covers is served exactly the epochs after it. -/
theorem subscribe_served {first : Text} {token : Nat} (hlow : (Standing.after epoch₀ first answers).oldest ≤ token)
    (hhigh : token ≤ epoch₀ + answers.length) :
    epoch₀ ≤ token ∧ (Standing.after epoch₀ first answers).subscribe token =
      .ok (epoch₀ + answers.length, (deltasFrom epoch₀ first answers).drop (token - epoch₀)) := by
  obtain ⟨dropped, hle, hring, holdest⟩ := (Standing.after_tail epoch₀ first answers).tail
  rw [holdest] at hlow
  rw [deltasFrom_length] at hle
  have hepochs := deltasFrom_epochs epoch₀ first answers
  have hlen := deltasFrom_length epoch₀ first answers
  -- what is left in the ring has consecutive epochs
  have hdropped : ((deltasFrom epoch₀ first answers).drop dropped).map EpochDelta.epoch =
      List.range' (epoch₀ + 1 + dropped) ((deltasFrom epoch₀ first answers).drop dropped).length := by
    rw [map_drop, hepochs, length_drop, hlen, drop_range']
    simp [Nat.add_comm]
  have hfilter : (Standing.after epoch₀ first answers).ring.filter (fun d => token < d.epoch) =
      (deltasFrom epoch₀ first answers).drop (token - epoch₀) := by
    rw [hring, filter_epochs hdropped (by omega), drop_drop]
    congr 1
    omega
  -- the next token: the last epoch served, or the caller's own
  have hserved : ((deltasFrom epoch₀ first answers).drop (token - epoch₀)).getLast?.map EpochDelta.epoch =
      (List.range' (token + 1) (epoch₀ + answers.length - token)).getLast? := by
    rw [← List.getLast?_map, map_drop, hepochs, drop_range']
    congr 2 <;> omega
  have hnext : (((deltasFrom epoch₀ first answers).drop (token - epoch₀)).getLast?.map EpochDelta.epoch).getD
      token = epoch₀ + answers.length := by
    rw [hserved]
    rcases Nat.lt_or_ge token (epoch₀ + answers.length) with hlt | hge
    · rw [List.getLast?_range', if_neg (by omega)]
      rw [Option.getD_some]
      omega
    · rw [show epoch₀ + answers.length - token = 0 by omega]
      show token = _
      omega
  refine ⟨by omega, ?_⟩
  unfold Standing.subscribe
  rw [if_neg (by rw [holdest]; omega), hfilter]
  dsimp only
  rw [hnext]

/-! Line arithmetic. -/

/-- One line of a delta: a line to add, a line to take away, or a remark. -/
def applyLine (ls : List Text) : Text → List Text
  | '+' :: ' ' :: l => ls ++ [l]
  | '-' :: ' ' :: l => ls.erase l
  | _ => ls

def applyDelta (ls : List Text) (rendered : Text) : List Text := (Text.lines rendered).foldl applyLine ls

/-- A text whose lines can be told apart and read back. -/
structure DistinctLines (t : Text) : Prop where
  isLine : ∀ l ∈ Text.lines t, Text.IsLine l
  nodup : (Text.lines t).Nodup

def addedLines (previous current : Text) : List Text :=
  (Text.lines current).filter (fun l => ¬ (Text.lines previous).contains l)

theorem isLine_signed {l : Text} (h : IsLine l) {sign : Char} (hs : sign ≠ '\n') : IsLine (sign :: ' ' :: l) := by
  constructor
  · intro hn
    rcases mem_cons.1 hn with hn | hn
    · exact hs hn.symm
    · rcases mem_cons.1 hn with hn | hn
      · exact absurd hn (by decide)
      · exact h.feed hn
  · rw [List.getLast?_cons, List.getLast?_cons]
    have := h.tail
    cases hl : l.getLast? with
    | none => simp
    | some c =>
      rw [hl] at this
      simpa using this

theorem lines_deltaBetween {previous current : Text} (hp : ∀ l ∈ lines previous, IsLine l)
    (hc : ∀ l ∈ lines current, IsLine l) :
    lines (deltaBetween previous current) =
        (addedLines previous current).map (fun l => '+' :: ' ' :: l) ++
          (addedLines current previous).map (fun l => '-' :: ' ' :: l) ∨
      (addedLines previous current = [] ∧ addedLines current previous = [] ∧
        lines (deltaBetween previous current) = ["(no change)".toList]) := by
  have hout : (addedLines previous current).flatMap (fun l => '+' :: ' ' :: (l ++ ['\n'])) ++
      (addedLines current previous).flatMap (fun l => '-' :: ' ' :: (l ++ ['\n'])) =
        unlines ((addedLines previous current).map (fun l => '+' :: ' ' :: l) ++
          (addedLines current previous).map (fun l => '-' :: ' ' :: l)) := by
    simp [unlines, flatMap_append, flatMap_map]
  have hdelta : deltaBetween previous current =
      if (unlines ((addedLines previous current).map (fun l => '+' :: ' ' :: l) ++
        (addedLines current previous).map (fun l => '-' :: ' ' :: l))).isEmpty then "(no change)\n".toList
      else unlines ((addedLines previous current).map (fun l => '+' :: ' ' :: l) ++
        (addedLines current previous).map (fun l => '-' :: ' ' :: l)) := by
    rw [← hout]
    rfl
  have hlines : ∀ l ∈ (addedLines previous current).map (fun l => '+' :: ' ' :: l) ++
      (addedLines current previous).map (fun l => '-' :: ' ' :: l), IsLine l := by
    intro l hl
    rcases mem_append.1 hl with hl | hl
    · obtain ⟨x, hx, rfl⟩ := mem_map.1 hl
      exact isLine_signed (hc x (mem_filter.1 hx).1) (by decide)
    · obtain ⟨x, hx, rfl⟩ := mem_map.1 hl
      exact isLine_signed (hp x (mem_filter.1 hx).1) (by decide)
  rw [hdelta]
  split
  · next hempty =>
    refine Or.inr ?_
    have hnil : addedLines previous current = [] ∧ addedLines current previous = [] := by
      rw [List.isEmpty_iff, Text.unlines, List.flatMap_eq_nil_iff] at hempty
      refine ⟨eq_nil_iff_forall_not_mem.2 (fun x hx => ?_), eq_nil_iff_forall_not_mem.2 (fun x hx => ?_)⟩
      · have := hempty ('+' :: ' ' :: x) (mem_append_left _ (mem_map.2 ⟨x, hx, rfl⟩))
        simp at this
      · have := hempty ('-' :: ' ' :: x) (mem_append_right _ (mem_map.2 ⟨x, hx, rfl⟩))
        simp at this
    exact ⟨hnil.1, hnil.2, by decide +kernel⟩
  · exact Or.inl (lines_unlines hlines)

theorem foldl_added (ls added : List Text) :
    (added.map (fun l => '+' :: ' ' :: l)).foldl applyLine ls = ls ++ added := by
  induction added generalizing ls with
  | nil => simp
  | cons l rest ih =>
    rw [map_cons, foldl_cons, ih]
    simp [applyLine]

theorem foldl_removed (ls removed : List Text) :
    (removed.map (fun l => '-' :: ' ' :: l)).foldl applyLine ls = ls.diff removed := by
  induction removed generalizing ls with
  | nil => simp
  | cons l rest ih =>
    rw [map_cons, foldl_cons, ih, diff_cons]
    rfl

/-- A delta takes the lines of one answer to the lines of the next. -/
theorem applyDelta_perm {previous current : Text} (hp : DistinctLines previous) (hc : DistinctLines current)
    {ls : List Text} (h : ls.Perm (lines previous)) :
    (applyDelta ls (deltaBetween previous current)).Perm (lines current) := by
  have hmem : ∀ {a b : Text} {l : Text}, l ∈ addedLines a b ↔ l ∈ lines b ∧ l ∉ lines a := by
    intro a b l
    simp [addedLines, mem_filter]
  rcases lines_deltaBetween hp.isLine hc.isLine with hlines | ⟨hadd, hdel, hlines⟩
  · unfold applyDelta
    rw [hlines, foldl_append, foldl_added, foldl_removed]
    -- the lines kept and the lines added are distinct, so membership settles it
    have hnodup : (ls ++ addedLines previous current).Nodup := by
      refine List.Nodup.append (h.nodup_iff.2 hp.nodup) (hc.nodup.filter _) (fun l hl hl' => ?_)
      exact (hmem.1 hl').2 (h.mem_iff.1 hl)
    refine (perm_ext_iff_of_nodup hnodup.diff hc.nodup).2 (fun l => ?_)
    rw [hnodup.mem_sdiff_iff, mem_append, h.mem_iff, hmem, hmem]
    by_cases h₁ : l ∈ lines previous <;> by_cases h₂ : l ∈ lines current <;> simp [h₁, h₂]
  · have hsame : applyDelta ls (deltaBetween previous current) = ls := by
      unfold applyDelta
      rw [hlines]
      rfl
    rw [hsame]
    refine h.trans ((perm_ext_iff_of_nodup hp.nodup hc.nodup).2 (fun l => ?_))
    constructor
    · intro hl
      by_contra hno
      have : l ∈ addedLines current previous := hmem.2 ⟨hl, hno⟩
      rw [hdel] at this
      cases this
    · intro hl
      by_contra hno
      have : l ∈ addedLines previous current := hmem.2 ⟨hl, hno⟩
      rw [hadd] at this
      cases this

theorem applyDeltas_perm (epoch : Nat) {first : Text} (h : ∀ t ∈ first :: answers, DistinctLines t) {skip : Nat}
    (hskip : skip ≤ answers.length) {start : Text} (hstart : (first :: answers)[skip]? = some start) {ls : List Text}
    (hls : ls.Perm (lines start)) :
    ∃ final, (first :: answers).getLast? = some final ∧
      (((deltasFrom epoch first answers).drop skip).foldl (fun ls d => applyDelta ls d.rendered) ls).Perm
        (lines final) := by
  induction answers generalizing epoch first skip ls start with
  | nil =>
    obtain rfl : skip = 0 := by simpa using hskip
    obtain rfl : first = start := by simpa using hstart
    exact ⟨first, rfl, hls⟩
  | cons answer rest ih =>
    have hrest : ∀ t ∈ answer :: rest, DistinctLines t := fun t ht => h t (mem_cons_of_mem _ ht)
    cases skip with
    | zero =>
      obtain rfl : first = start := by simpa using hstart
      have hstep := applyDelta_perm (h first mem_cons_self) (hrest answer mem_cons_self) hls
      obtain ⟨final, hfinal, hperm⟩ := ih (epoch + 1) hrest (Nat.zero_le _) (by rfl) hstep
      exact ⟨final, by rw [List.getLast?_cons_cons]; exact hfinal, hperm⟩
    | succ skip =>
      obtain ⟨final, hfinal, hperm⟩ := ih (epoch + 1) hrest (Nat.le_of_succ_le_succ hskip)
        (by simpa using hstart) hls
      exact ⟨final, by rw [List.getLast?_cons_cons]; exact hfinal, hperm⟩

/-! Subscriptions are exactly once. -/

/-- What reading a query of one output schema gives: an answer of that schema, or
    one line for the error in its place. -/
def Reads (schema : Schema) : Except Text Canonical → Prop
  | .ok answer => answer.schema = schema ∧ answer.Legible
  | .error error => Text.IsLine ("ERROR: ".toList ++ error)

theorem Reads.distinctLines (p : Printer) {schema : Schema} (hs : schema.OneLine) {answer : Except Text Canonical}
    (h : Reads schema answer) : DistinctLines (renderAnswer p answer) := by
  cases answer with
  | ok c =>
    obtain ⟨rfl, hc⟩ := h
    have hl : lines (renderAnswer p (.ok c)) = c.renderLines p := lines_render p hs
    exact ⟨hl ▸ Canonical.renderLines_isLine p hs, hl ▸ Canonical.renderLines_nodup p hc⟩
  | error e =>
    have hl : lines (renderAnswer p (.error e)) = ["ERROR: ".toList ++ e] := lines_line h []
    refine ⟨fun l hmem => ?_, ?_⟩
    · rw [hl, mem_singleton] at hmem
      rw [hmem]
      exact h
    · rw [hl]
      exact nodup_singleton _

/-- A run of seals after a registration at `epoch₀`, over a query whose column
    names hold no line feed. Tokens below `oldest` are refused. Every token from
    there up to the sealed epoch is served the epochs after it, each once and in
    order, and their line deltas take the lines of the answer at the token to those
    of the answer at the sealed epoch. The ring keeps both bounds. -/
theorem subscribe_exactly_once (p : Printer) {schema : Schema} (hs : schema.OneLine) (epoch₀ : Nat)
    (first : Except Text Canonical) (answers : List (Except Text Canonical))
    (hreads : ∀ a ∈ first :: answers, Reads schema a) {s : Standing}
    (hrun : s = Standing.after epoch₀ (renderAnswer p first) (answers.map (renderAnswer p))) :
    (∀ token < s.oldest, s.subscribe token = .error (.tokenTooOld token s.oldest)) ∧
    (∀ token, s.oldest ≤ token → token ≤ epoch₀ + answers.length → ∃ deltas start final,
      s.subscribe token = .ok (epoch₀ + answers.length, deltas) ∧
      deltas.map EpochDelta.epoch = List.range' (token + 1) (epoch₀ + answers.length - token) ∧
      (first :: answers)[token - epoch₀]? = some start ∧ (first :: answers)[answers.length]? = some final ∧
      (deltas.foldl (fun ls d => applyDelta ls d.rendered) (Text.lines (renderAnswer p start))).Perm
        (Text.lines (renderAnswer p final))) ∧
    s.ring.length ≤ subscriptionRing ∧ (s.ring.length ≤ 1 ∨ ringSize s.ring ≤ subscriptionRingBytes) := by
  subst hrun
  refine ⟨fun token hlt => if_pos hlt, fun token hlow hhigh => ?_,
    (Standing.after_tail epoch₀ (renderAnswer p first) (answers.map (renderAnswer p))).bounded⟩
  have hlen : (answers.map (renderAnswer p)).length = answers.length := length_map _
  obtain ⟨hge, hserved⟩ := subscribe_served hlow (hlen.symm ▸ hhigh)
  rw [hlen] at hserved
  have hskip : token - epoch₀ ≤ answers.length := by omega
  have htexts : ∀ t ∈ renderAnswer p first :: answers.map (renderAnswer p), DistinctLines t := by
    intro t ht
    rw [← map_cons] at ht
    obtain ⟨a, ha, rfl⟩ := mem_map.1 ht
    exact (hreads a ha).distinctLines p hs
  obtain ⟨start, hstart⟩ : ∃ start, (first :: answers)[token - epoch₀]? = some start :=
    ⟨_, List.getElem?_eq_getElem (by rw [length_cons]; omega)⟩
  obtain ⟨final, hfinal⟩ : ∃ final, (first :: answers)[answers.length]? = some final :=
    ⟨_, List.getElem?_eq_getElem (by rw [length_cons]; omega)⟩
  have hstart' : (renderAnswer p first :: answers.map (renderAnswer p))[token - epoch₀]? =
      some (renderAnswer p start) := by
    rw [← map_cons, List.getElem?_map, hstart]
    rfl
  have hlast : (renderAnswer p first :: answers.map (renderAnswer p)).getLast? = some (renderAnswer p final) := by
    rw [← map_cons, List.getLast?_map, List.getLast?_eq_getElem?, length_cons, Nat.add_sub_cancel, hfinal]
    rfl
  obtain ⟨last, hlast', hperm⟩ := applyDeltas_perm epoch₀ htexts (hlen.symm ▸ hskip) hstart'
    (List.Perm.refl _)
  obtain rfl := Option.mem_unique hlast hlast'
  refine ⟨_, start, final, hserved, ?_, hstart, hfinal, hperm⟩
  rw [map_drop, deltasFrom_epochs, drop_range', hlen]
  congr 1 <;> omega

/-- A printer that prints every character as it is and a float by its bits. -/
def plainPrinter : Printer where
  escapes := fun _ => false
  float := fun f => 'x' :: Text.decimal f.bits.toNat
  float_chars := by
    intro f c hc
    rcases List.mem_cons.1 hc with rfl | hc
    · decide
    · obtain ⟨h₁, h₂, h₃, h₄, _⟩ := digit_not_special (Text.decimal_mem hc)
      exact ⟨h₁, h₂, h₃, h₄⟩
  float_ne_nil := fun _ => List.cons_ne_nil _ _
  float_ne_word := by
    intro f
    refine ⟨fun h => ?_, fun h => ?_, fun h => ?_⟩ <;> exact absurd (List.cons.inj h).1 (by decide)
  float_ne_decimal := by
    intro f i h
    rcases Text.decimal_mem (h ▸ List.mem_cons_self : 'x' ∈ Text.decimal i) with h | h
    · exact absurd h (by decide)
    · exact absurd h (by decide)
  float_inj := by
    intro s c s' c' h
    have hbits := Int.ofNat.inj (Text.decimal_inj (List.cons.inj h).2)
    generalize F64.ofRatio s c = f at hbits ⊢
    generalize F64.ofRatio s' c' = g at hbits ⊢
    cases f
    cases g
    exact congrArg F64.mk (BitVec.eq_of_toNat_eq hbits)

/-- A row arrives and the query then fails. -/
theorem subscribe_exactly_once_row : ∃ s : Standing, s = Standing.after 3
      (renderAnswer plainPrinter (.ok ⟨⟨[⟨"x", .int64, true⟩], by simp, by simp⟩, []⟩))
      ([.ok ⟨⟨[⟨"x", .int64, true⟩], by simp, by simp⟩, [([.int I64.one], I64.one)]⟩,
        .error "division by zero in / (S-21)".toList].map (renderAnswer plainPrinter)) ∧
    ∃ deltas, s.subscribe 4 = .ok (5, deltas) ∧ deltas.map EpochDelta.epoch = [5] := by
  have hs : Schema.OneLine ⟨[⟨"x", .int64, true⟩], by simp, by simp⟩ := by
    intro f hf
    obtain rfl := mem_singleton.1 hf
    decide
  have hreads : ∀ a ∈ (.ok ⟨⟨[⟨"x", .int64, true⟩], by simp, by simp⟩, []⟩ : Except Text Canonical) ::
      [.ok ⟨⟨[⟨"x", .int64, true⟩], by simp, by simp⟩, [([.int I64.one], I64.one)]⟩,
        .error "division by zero in / (S-21)".toList],
      Reads ⟨[⟨"x", .int64, true⟩], by simp, by simp⟩ a := by
    intro a ha
    simp only [mem_cons, not_mem_nil, or_false] at ha
    rcases ha with rfl | rfl | rfl
    · exact ⟨rfl, ⟨List.Pairwise.nil, fun e he => by cases he⟩, fun e he => by cases he⟩
    · refine ⟨rfl, ⟨pairwise_singleton _ _, fun e he => ?_⟩, fun e he v hv f hf => ?_⟩
      · obtain rfl := mem_singleton.1 he
        decide
      · obtain rfl := mem_singleton.1 he
        obtain rfl := mem_singleton.1 hv
        cases hf
    · exact ⟨by decide, by decide⟩
  obtain ⟨_, hserve, _⟩ := subscribe_exactly_once plainPrinter hs 3 _ _ hreads rfl
  obtain ⟨deltas, _, _, hsub, hepochs, _⟩ := hserve 4 (by decide +kernel) (by decide)
  exact ⟨_, rfl, deltas, hsub, hepochs⟩

/-- `SELECT t.x AS "a⏎(1) => 1⏎b" FROM t`: the alias holds two line feeds, and
    between them the line of the row with one in it. -/
def hidingQuery : Query where
  source := .scan "t" "t"
  filter := none
  groupBy := none
  project := some [⟨"a\n(1) => 1\nb", .column "t.x"⟩]
  distinct := false

/-- The query's answer before and after the row arrives. -/
def hidingAnswers : Option (Canonical × Canonical) := do
  let o ← (Oracle.new singleColumn).toOption
  let bound ← (bind o.catalog hidingQuery).toOption
  let plan ← (planOf hidingQuery bound o.catalog).toOption
  let c₀ ← (instantiate .checked plan).toOption
  let c₁ ← (c₀.run .checked [(∅ : EpochDeltas).insert "t" [([.int I64.one], I64.one)]]).toOption
  let before ← c₀.answer.toOption
  let after ← c₁.answer.toOption
  return (before, after)

/-- The row is in the answer, and the epoch's delta says that nothing changed: a
    subscriber is left with the old answer's three lines, and the new one has four. -/
theorem column_hides_a_row : ∃ before after, hidingAnswers = some (before, after) ∧
    before.entries = [] ∧ after.entries = [([.int I64.one], I64.one)] ∧
    (Standing.after 0 (renderAnswer plainPrinter (.ok before)) [renderAnswer plainPrinter (.ok after)]).subscribe 0 =
      .ok (1, [⟨1, "(no change)\n".toList⟩]) ∧
    ¬ (applyDelta (Text.lines (renderAnswer plainPrinter (.ok before))) "(no change)\n".toList).Perm
      (Text.lines (renderAnswer plainPrinter (.ok after))) := by
  have htest : (hidingAnswers.any (fun r => r.1.entries = [] && r.2.entries = [([.int I64.one], I64.one)] &&
      ((Standing.after 0 (renderAnswer plainPrinter (.ok r.1)) [renderAnswer plainPrinter (.ok r.2)]).subscribe
        0).toOption = some (1, [⟨1, "(no change)\n".toList⟩]) &&
      (applyDelta (lines (renderAnswer plainPrinter (.ok r.1))) "(no change)\n".toList).length = 3 &&
      (lines (renderAnswer plainPrinter (.ok r.2))).length = 4)) = true := by decide +kernel
  obtain ⟨⟨before, after⟩, hanswers, hall⟩ := (Option.any_eq_true ..).1 htest
  simp only [Bool.and_eq_true, decide_eq_true_eq] at hall
  obtain ⟨⟨⟨⟨hbefore, hafter⟩, hsub⟩, hthree⟩, hfour⟩ := hall
  refine ⟨before, after, hanswers, hbefore, hafter, toOption_eq_some.1 hsub, fun hperm => ?_⟩
  have := hperm.length_eq
  omega

end Mutiny.Schweep
