import Mutiny.Loom.Codec
import Mutiny.Loom.SessionSpec
import Mutiny.Loom.Taint

/- What was believed, and when (`loom-query`: `as_of`; `loom-core`: `history.rs`).

   A write of a claim appends a version to the history of its subject and
   predicate, and closes the versions that are open. A question names an instant
   in the world and an instant of knowing, and is answered by the latest version
   that covers both.

   The history of a pair is a list of claims (`historyOf`), of which a tree holds
   the numbered encodings (`HistoryIs`); that is so as long as no name has a zero
   byte, as the keys of two pairs are apart only then. A claim believed from `t` on
   changes no answer for an instant before `t`, but for the bound and the status of
   the claim it supersedes (`Settled`).

   Correspondence (Rust ↔ Lean) where names differ:
     `append_claim_version`               ↔ `believe` on a history, `versionWrites` on a tree -/
namespace Mutiny.Loom
open Mutiny.Lib Mutiny.Substrate
open Mutiny.Bridge (SourceRef WriteEnvelope)
open List (foldl_cons length_append length_singleton append_assoc append_cancel_left)

/-! Questions. -/

structure AsOf where
  validAt : Timestamp
  knownAt : Timestamp
  deriving DecidableEq

structure AsOfAnswer where
  claim : Option Claim
  asOf : AsOf
  deriving DecidableEq

/-- Both axes contain the asked coordinate. -/
def AsOf.meets (point : AsOf) (claim : Claim) : Bool :=
  claim.known.contains point.knownAt && claim.valid.contains point.validAt

def AsOf.better (point : AsOf) (best : Option ClaimVersion) (version : ClaimVersion) : Option ClaimVersion :=
  if point.meets version.claim then
    match best with
    | some prev => if prev.seq ≥ version.seq then some prev else some version
    | none => some version
  else best

def LoomDb.asOf (E : Engine) (db : LoomDb) (token : CapabilityToken) (branch : BranchId) (subject predicate : String)
    (point : AsOf) (now : Nat) : Except LoomError AsOfAnswer := do
  authorize E token branch now
  let entries ← db.headEntries branch
  let versions := (claimVersions E subject predicate entries).map Prod.snd
  return ⟨(versions.foldl point.better none).map ClaimVersion.claim, point⟩

/-! Histories. -/

variable {cs : List Claim} {c : Claim} {i : Nat}

/-- A claim that is superseded from an instant on, if one is known. -/
def Claim.supersede (now : Option Timestamp) (c : Claim) : Claim := (closeVersion now ⟨c, 0⟩).claim

/-- What is open is superseded. -/
def Claim.yield (now : Option Timestamp) (c : Claim) : Claim := if c.known.stop.isNone then c.supersede now else c

def believe (cs : List Claim) (claim : Claim) : List Claim := cs.map (Claim.yield claim.known.start) ++ [claim]

def Claim.about (subject predicate : String) (c : Claim) : Bool := c.subject = subject ∧ c.predicate = predicate

def historyOf (subject predicate : String) (claims : List Claim) : List Claim :=
  (claims.filter (Claim.about subject predicate)).foldl believe []

/-- The last claim that covers the point. -/
def AsOf.answer (point : AsOf) (cs : List Claim) : Option Claim := (cs.filter point.meets).getLast?

theorem historyOf_append (subject predicate : String) (claims later : List Claim) :
    historyOf subject predicate (claims ++ later) =
      (later.filter (Claim.about subject predicate)).foldl believe (historyOf subject predicate claims) := by
  rw [historyOf, List.filter_append, List.foldl_append]
  rfl

theorem length_believe (cs : List Claim) (claim : Claim) : (believe cs claim).length = cs.length + 1 := by
  simp [believe]

theorem length_historyOf (subject predicate : String) (claims : List Claim) :
    (historyOf subject predicate claims).length ≤ claims.length := by
  have hfold : ∀ (later cs : List Claim), (later.foldl believe cs).length = cs.length + later.length := by
    intro later
    induction later with
    | nil => intro cs; rfl
    | cons claim later ih =>
      intro cs
      rw [foldl_cons, ih, length_believe, List.length_cons]
      omega
  rw [historyOf, hfold, List.length_nil, zero_add]
  exact List.length_filter_le _ _

theorem getElem?_believe {claim : Claim} :
    (believe cs claim)[i]? = some c ↔
      (∃ c0, cs[i]? = some c0 ∧ c = c0.yield claim.known.start) ∨ i = cs.length ∧ c = claim := by
  rw [believe, List.getElem?_append, List.length_map]
  by_cases hi : i < cs.length
  · rw [if_pos hi, List.getElem?_map, Option.map_eq_some_iff]
    constructor
    · rintro ⟨c0, hc0, rfl⟩
      exact .inl ⟨c0, hc0, rfl⟩
    · rintro (⟨c0, hc0, rfl⟩ | ⟨rfl, -⟩)
      · exact ⟨c0, hc0, rfl⟩
      · exact absurd hi (lt_irrefl _)
  · rw [if_neg hi, List.getElem?_singleton, List.getElem?_eq_none (Nat.le_of_not_lt hi)]
    constructor
    · intro h
      by_cases hzero : i - cs.length = 0
      · rw [if_pos hzero] at h
        exact .inr ⟨by omega, (Option.some.inj h).symm⟩
      · rw [if_neg hzero] at h
        cases h
    · rintro (⟨c0, hc0, -⟩ | ⟨rfl, rfl⟩)
      · cases hc0
      · simp

/-! One open claim. -/

theorem yield_stop (t : Timestamp) (c : Claim) : (c.yield (some t)).known.stop.isNone = false := by
  unfold Claim.yield
  by_cases hopen : c.known.stop.isNone = true
  · rw [if_pos hopen]
    rfl
  · rw [if_neg hopen]
    exact Bool.eq_false_iff.2 hopen

/-- In a history whose claims say when they were first believed, only the last can be
    open. -/
theorem last_of_open {claims : List Claim} (h : ∀ c ∈ claims, c.known.start.isSome = true)
    {subject predicate : String} (hc : (historyOf subject predicate claims)[i]? = some c)
    (hopen : c.known.stop.isNone = true) :
    i + 1 = (historyOf subject predicate claims).length := by
  unfold historyOf at hc ⊢
  have hstart : ∀ c ∈ claims.filter (Claim.about subject predicate), c.known.start.isSome = true :=
    fun c hc => h c (List.mem_of_mem_filter hc)
  generalize claims.filter (Claim.about subject predicate) = l at hc hstart ⊢
  induction l using List.reverseRecOn with
  | nil => cases hc
  | append_singleton before claim _ =>
    obtain ⟨t, ht⟩ := Option.isSome_iff_exists.1 (hstart claim (by simp))
    rw [List.foldl_append, foldl_cons, List.foldl_nil] at hc ⊢
    rcases getElem?_believe.1 hc with ⟨c0, -, rfl⟩ | ⟨rfl, -⟩
    · rw [ht, yield_stop] at hopen
      cases hopen
    · rw [length_believe]

/-! Answers. -/

theorem answer_concat (point : AsOf) (cs : List Claim) (c : Claim) :
    point.answer (cs ++ [c]) = if point.meets c then some c else point.answer cs := by
  unfold AsOf.answer
  rw [List.filter_append]
  by_cases hmeets : point.meets c = true
  · rw [if_pos hmeets, List.filter_cons_of_pos hmeets, List.filter_nil, List.getLast?_concat]
  · rw [if_neg hmeets, List.filter_cons_of_neg hmeets, List.filter_nil, List.append_nil]

variable {point : AsOf}

theorem answer_eq_none : point.answer cs = none ↔ ∀ c ∈ cs, point.meets c = false := by
  simp [AsOf.answer]

theorem answer_eq_some : point.answer cs = some c ↔
    ∃ i : Nat, cs[i]? = some c ∧ point.meets c = true ∧
      ∀ (j : Nat) (c' : Claim), i < j → cs[j]? = some c' → point.meets c' = false := by
  induction cs using List.reverseRecOn with
  | nil => simp [AsOf.answer]
  | append_singleton cs last ih =>
    rw [answer_concat]
    by_cases hlast : point.meets last = true
    · rw [if_pos hlast]
      constructor
      · intro heq
        obtain rfl := Option.some.inj heq
        refine ⟨cs.length, by simp, hlast, fun j c' hj hc' => ?_⟩
        have hlen := (List.getElem?_eq_some_iff.1 hc').1
        rw [length_append, length_singleton] at hlen
        omega
      · rintro ⟨i, hi, -, hafter⟩
        have hlen := (List.getElem?_eq_some_iff.1 hi).1
        rw [length_append, length_singleton] at hlen
        by_cases heq : i = cs.length
        · rw [heq, List.getElem?_concat_length] at hi
          exact hi
        · have hmeets := hafter cs.length last (by omega) (by simp)
          rw [hmeets] at hlast
          cases hlast
    · rw [if_neg hlast, ih]
      constructor
      · rintro ⟨i, hi, hmeets, hafter⟩
        have hlen := (List.getElem?_eq_some_iff.1 hi).1
        refine ⟨i, by rw [List.getElem?_append_left hlen]; exact hi, hmeets, fun j c' hj hc' => ?_⟩
        by_cases hjlen : j < cs.length
        · rw [List.getElem?_append_left hjlen] at hc'
          exact hafter j c' hj hc'
        · have hjlen' := (List.getElem?_eq_some_iff.1 hc').1
          rw [length_append, length_singleton] at hjlen'
          obtain rfl : j = cs.length := by omega
          rw [List.getElem?_concat_length] at hc'
          obtain rfl := Option.some.inj hc'
          exact Bool.eq_false_iff.2 hlast
      · rintro ⟨i, hi, hmeets, hafter⟩
        have hilen := (List.getElem?_eq_some_iff.1 hi).1
        rw [length_append, length_singleton] at hilen
        by_cases heq : i = cs.length
        · rw [heq, List.getElem?_concat_length] at hi
          obtain rfl := Option.some.inj hi
          exact absurd hmeets hlast
        · have hlt : i < cs.length := by omega
          rw [List.getElem?_append_left hlt] at hi
          refine ⟨i, hi, hmeets, fun j c' hj hc' => hafter j c' hj ?_⟩
          rw [List.getElem?_append_left (List.getElem?_eq_some_iff.1 hc').1]
          exact hc'

/-! Answers for instants before a claim. -/

/-- How a history can have gone on with claims that are believed after `k`: a claim
    stays as it is, or was open and is superseded, and new claims come behind. -/
structure Settled (k : Timestamp) (later : List Claim) (cs cs' : List Claim) : Prop where
  kept : ∀ (i : Nat) (c : Claim), cs[i]? = some c → ∃ c', cs'[i]? = some c' ∧ (c' = c ∨ c.known.stop = none ∧
    ∃ claim ∈ later, ∃ t, claim.known.start = some t ∧ k < t ∧ c' = c.supersede (some t))
  new : ∀ (i : Nat) (c' : Claim), cs'[i]? = some c' → cs.length ≤ i → ∃ t, c'.known.start = some t ∧ k < t

theorem settled_believes {k : Timestamp} {later : List Claim}
    (h : ∀ claim ∈ later, ∃ t, claim.known.start = some t ∧ k < t) (cs : List Claim) :
    Settled k later cs (later.foldl believe cs) := by
  induction later generalizing cs with
  | nil =>
    refine ⟨fun i c hc => ⟨c, hc, .inl rfl⟩, fun i c' hc' hi => ?_⟩
    exact absurd (List.getElem?_eq_some_iff.1 hc').1 (by simpa using hi)
  | cons claim later ih =>
    obtain ⟨⟨t, ht, hkt⟩, hlater⟩ := List.forall_mem_cons.1 h
    obtain ⟨hkept, hnew⟩ := ih hlater (believe cs claim)
    rw [foldl_cons]
    refine ⟨fun i c hc => ?_, fun i c' hc' hi => ?_⟩
    · obtain ⟨c', hc', hsame⟩ := hkept i _ (getElem?_believe.2 (.inl ⟨c, hc, rfl⟩))
      refine ⟨c', hc', ?_⟩
      rw [ht] at hsame
      by_cases hopen : c.known.stop.isNone = true
      · -- superseded by this claim, and by no later one
        have hyield : c.yield (some t) = c.supersede (some t) := if_pos hopen
        rcases hsame with rfl | ⟨hstop, -⟩
        · exact .inr ⟨Option.isNone_iff_eq_none.1 hopen, claim, by simp, t, ht, hkt, hyield⟩
        · rw [hyield] at hstop
          cases hstop
      · have hyield : c.yield (some t) = c := if_neg hopen
        rw [hyield] at hsame
        rcases hsame with heq | ⟨hstop, -⟩
        · exact .inl heq
        · exact absurd (Option.isNone_iff_eq_none.2 hstop) hopen
    · rcases Nat.lt_or_ge cs.length i with hlt | hge
      · exact hnew i c' hc' (by rw [length_believe]; omega)
      · -- the claim itself
        obtain rfl : i = cs.length := by omega
        obtain ⟨c'', hc'', hsame⟩ := hkept _ claim (getElem?_believe.2 (.inr ⟨rfl, rfl⟩))
        obtain rfl := Option.mem_unique hc' hc''
        rcases hsame with rfl | ⟨-, _, -, t', -, -, rfl⟩
        · exact ⟨t, ht, hkt⟩
        · exact ⟨t, ht, hkt⟩

theorem meets_supersede {t : Timestamp} (ht : point.knownAt < t) (hopen : c.known.stop = none) :
    point.meets (c.supersede (some t)) = point.meets c := by
  simp [AsOf.meets, Claim.supersede, closeVersion, Interval.contains, Interval.closedAt, hopen, ht]

theorem not_meets_of_start {t : Timestamp} (hstart : c.known.start = some t) (ht : point.knownAt < t) :
    point.meets c = false := by
  simp [AsOf.meets, Interval.contains, hstart, not_le.2 ht]

/-- The answer stays, but for what superseding it does to a claim. -/
theorem Settled.answer {later cs' : List Claim} (h : Settled point.knownAt later cs cs') :
    point.answer cs' = point.answer cs ∨ ∃ c, point.answer cs = some c ∧ c.known.stop = none ∧
      ∃ claim ∈ later, ∃ t, claim.known.start = some t ∧ point.knownAt < t ∧
        point.answer cs' = some (c.supersede (some t)) := by
  have hmeets : ∀ (j : Nat) (c' : Claim), cs'[j]? = some c' → point.meets c' = true →
      ∃ c, cs[j]? = some c ∧ point.meets c = true := by
    intro j c' hc' hm
    rcases Nat.lt_or_ge j cs.length with hj | hj
    · obtain ⟨c'', hc'', hsame⟩ := h.kept j _ (List.getElem?_eq_getElem hj)
      obtain rfl := Option.mem_unique hc' hc''
      refine ⟨_, List.getElem?_eq_getElem hj, ?_⟩
      rcases hsame with rfl | ⟨hopen, _, -, t, -, ht, rfl⟩
      · exact hm
      · rwa [meets_supersede ht hopen] at hm
    · obtain ⟨t, hstart, ht⟩ := h.new j c' hc' hj
      rw [not_meets_of_start hstart ht] at hm
      cases hm
  cases hanswer : point.answer cs with
  | none =>
    left
    rw [answer_eq_none] at hanswer ⊢
    intro c' hc'
    by_contra hm
    obtain ⟨j, hj⟩ := List.mem_iff_getElem?.1 hc'
    obtain ⟨c, hc, hm'⟩ := hmeets j c' hj (Bool.eq_true_of_not_eq_false hm)
    rw [hanswer c (List.mem_iff_getElem?.2 ⟨j, hc⟩)] at hm'
    cases hm'
  | some c =>
    obtain ⟨i, hi, hm, hafter⟩ := answer_eq_some.1 hanswer
    obtain ⟨c', hc', hsame⟩ := h.kept i c hi
    have hafter' : ∀ (j : Nat) (d : Claim), i < j → cs'[j]? = some d → point.meets d = false := by
      intro j d hij hd
      by_contra hmd
      obtain ⟨d', hd', hmd'⟩ := hmeets j d hd (Bool.eq_true_of_not_eq_false hmd)
      rw [hafter j d' hij hd'] at hmd'
      cases hmd'
    rcases hsame with rfl | ⟨hopen, claim, hclaim, t, hstart, ht, rfl⟩
    · exact .inl (answer_eq_some.2 ⟨i, hc', hm, hafter'⟩)
    · refine .inr ⟨c, rfl, hopen, claim, hclaim, t, hstart, ht, answer_eq_some.2 ⟨i, hc', ?_, hafter'⟩⟩
      rw [meets_supersede ht hopen]
      exact hm

/-! The fold over the stored versions. -/

/-- The best of the versions seen. -/
def AsOf.Best (point : AsOf) (seen : List ClaimVersion) : Option ClaimVersion → Prop
  | none => ∀ u ∈ seen, point.meets u.claim = false
  | some v => v ∈ seen ∧ point.meets v.claim = true ∧ ∀ u ∈ seen, point.meets u.claim = true → u.seq ≤ v.seq

theorem AsOf.Best.better {best : Option ClaimVersion} {seen : List ClaimVersion} (h : point.Best seen best)
    (version : ClaimVersion) : point.Best (version :: seen) (point.better best version) := by
  unfold AsOf.better
  by_cases hmeets : point.meets version.claim = true
  · rw [if_pos hmeets]
    cases best with
    | none =>
      refine ⟨by simp, hmeets, fun u hu hmu => ?_⟩
      rcases List.mem_cons.1 hu with rfl | hu
      · exact le_rfl
      · rw [h u hu] at hmu
        cases hmu
    | some prev =>
      obtain ⟨hmem, hprev, hmax⟩ := h
      by_cases hge : prev.seq ≥ version.seq
      · simp only [if_pos hge]
        refine ⟨by simp [hmem], hprev, fun u hu hmu => ?_⟩
        rcases List.mem_cons.1 hu with rfl | hu
        · exact hge
        · exact hmax u hu hmu
      · simp only [if_neg hge]
        refine ⟨by simp, hmeets, fun u hu hmu => ?_⟩
        rcases List.mem_cons.1 hu with rfl | hu
        · exact le_rfl
        · exact (hmax u hu hmu).trans (by omega)
  · rw [if_neg hmeets]
    cases best with
    | none =>
      intro u hu
      rcases List.mem_cons.1 hu with rfl | hu
      · exact Bool.eq_false_iff.2 hmeets
      · exact h u hu
    | some prev =>
      obtain ⟨hmem, hprev, hmax⟩ := h
      refine ⟨by simp [hmem], hprev, fun u hu hmu => ?_⟩
      rcases List.mem_cons.1 hu with rfl | hu
      · exact absurd hmu hmeets
      · exact hmax u hu hmu

/-- Over versions numbered as in the history, in whatever order, the fold finds the
    answer. -/
theorem foldl_better {versions : List ClaimVersion} (h : ∀ v, v ∈ versions ↔ ∃ i c, cs[i]? = some c ∧ v = ⟨c, i⟩) :
    (versions.foldl point.better none).map ClaimVersion.claim = point.answer cs := by
  have hfold : ∀ (rest seen : List ClaimVersion) (best : Option ClaimVersion), point.Best seen best →
      point.Best (rest.reverse ++ seen) (rest.foldl point.better best) := by
    intro rest
    induction rest with
    | nil => exact fun seen best hbest => hbest
    | cons version rest ih =>
      intro seen best hbest
      rw [foldl_cons, List.reverse_cons, append_assoc]
      exact ih (version :: seen) _ (hbest.better version)
  have hresult := hfold versions [] none (by simp [AsOf.Best])
  cases hfound : versions.foldl point.better none with
  | none =>
    rw [hfound] at hresult
    refine (answer_eq_none.2 fun c hc => ?_).symm
    obtain ⟨i, hi⟩ := List.mem_iff_getElem?.1 hc
    exact hresult ⟨c, i⟩ (by simpa using (h ⟨c, i⟩).2 ⟨i, c, hi, rfl⟩)
  | some v =>
    rw [hfound] at hresult
    obtain ⟨hmem, hmeets, hmax⟩ := hresult
    obtain ⟨i, c, hi, rfl⟩ := (h v).1 (by simpa using hmem)
    refine (answer_eq_some.2 ⟨i, hi, hmeets, fun j c' hij hc' => ?_⟩).symm
    by_contra hm
    have hle := hmax ⟨c', j⟩ (by simpa using (h ⟨c', j⟩).2 ⟨j, c', hc', rfl⟩) (Bool.eq_true_of_not_eq_false hm)
    exact absurd hij (not_lt.2 hle)

/-! Keys of versions. -/

def Plain (s : String) : Prop := 0 ∉ utf8 s

instance (s : String) : Decidable (Plain s) := inferInstanceAs (Decidable (¬ _))

theorem name_inj {s s' : String} (hs : Plain s) (hs' : Plain s') {rest rest' : Bytes}
    (h : utf8 s ++ 0 :: rest = utf8 s' ++ 0 :: rest') : s = s' ∧ rest = rest' := by
  have hspan : ∀ (l rest : Bytes), (0 : UInt8) ∉ l → (l ++ 0 :: rest).takeWhile (· ≠ 0) = l := by
    intro l rest hl
    have hne : ∀ b ∈ l, decide (b ≠ 0) = true := fun b hb => decide_eq_true (fun heq => hl (heq ▸ hb))
    rw [List.takeWhile_append_of_pos hne]
    simp
  have hname : utf8 s = utf8 s' := by
    rw [← hspan _ rest hs, h, hspan _ rest' hs']
  refine ⟨utf8_inj hname, ?_⟩
  rw [hname] at h
  exact List.tail_eq_of_cons_eq (append_cancel_left h)

theorem pair_of_historyPrefix {subject predicate subject' predicate' : String} (hs : Plain subject) (hp : Plain predicate)
    (hs' : Plain subject') (hp' : Plain predicate') {rest : Bytes}
    (h : (historyPrefix subject predicate).isPrefixOf (historyPrefix subject' predicate' ++ rest) = true) :
    subject = subject' ∧ predicate = predicate' := by
  obtain ⟨tail, htail⟩ := List.isPrefixOf_iff_prefix.1 h
  simp only [historyPrefix, reservedKey, append_assoc, List.cons_append, List.nil_append] at htail
  have hnames := append_cancel_left (append_cancel_left htail)
  obtain ⟨hsubject, hrest⟩ := name_inj hs hs' hnames
  exact ⟨hsubject, (name_inj hp hp' hrest).1⟩

theorem versionKey_inj {subject predicate : String} {j : Nat} (hi : i < 2 ^ 64) (hj : j < 2 ^ 64)
    (h : versionKey subject predicate i = versionKey subject predicate j) : i = j := by
  have hbytes := append_cancel_left h
  have hnat : beNat (beBytes 8 i) = beNat (beBytes 8 j) := by rw [hbytes]
  rw [beNat_beBytes, beNat_beBytes] at hnat
  rwa [Nat.mod_eq_of_lt (by omega), Nat.mod_eq_of_lt (by omega)] at hnat

theorem historyPrefix_versionKey (subject predicate : String) (i : Nat) :
    (historyPrefix subject predicate).isPrefixOf (versionKey subject predicate i) = true :=
  List.isPrefixOf_iff_prefix.2 (List.prefix_append _ _)

theorem not_historyPrefix_of_caller {key : Key} (h : LoomDb.isCallerKey key = true) (subject predicate : String) :
    (historyPrefix subject predicate).isPrefixOf key = false := by
  rw [Bool.eq_false_iff]
  intro hpre
  obtain ⟨rest, rfl⟩ := List.isPrefixOf_iff_prefix.1 hpre
  rw [(engineKey_historyPrefix subject predicate rest).not_caller] at h
  cases h

theorem not_historyPrefix_of_provenance {key : Key} (h : isProvenance key = true) (subject predicate : String) :
    (historyPrefix subject predicate).isPrefixOf key = false := by
  rw [Bool.eq_false_iff]
  intro hpre
  obtain ⟨rest, rfl⟩ := List.isPrefixOf_iff_prefix.1 hpre
  rw [historyPrefix, reservedKey, append_assoc, ← reservedKey, not_isProvenance_reservedKey] at h
  cases h

theorem not_historyPrefix_of_kind {kind : String} (h : kind ∈ ["provseq/", "latest/", "idx/", "annbuf/"]) (rest : Bytes)
    (subject predicate : String) : (historyPrefix subject predicate).isPrefixOf (reservedKey kind rest) = false := by
  rw [Bool.eq_false_iff]
  intro hpre
  obtain ⟨tail, htail⟩ := List.isPrefixOf_iff_prefix.1 hpre
  simp only [historyPrefix, reservedKey, append_assoc] at htail
  have hkind := append_cancel_left htail
  have hfirst : (utf8 kind ++ rest).head? = some 99 := by
    rw [← hkind]
    rfl
  simp only [List.mem_cons, List.not_mem_nil, or_false] at h
  rcases h with rfl | rfl | rfl | rfl
  all_goals
    rw [List.head?_append_of_ne_nil _ (by decide)] at hfirst
    revert hfirst
    decide

/-! Trees that hold a history. -/

section Stored

variable {E : Engine} {subject predicate : String} {cs : List Claim} {m ws : Entries}

def versionEntry (E : Engine) (subject predicate : String) (i : Nat) (c : Claim) : Key × Record :=
  (versionKey subject predicate i, .value (.blob (E.codec.encodeVersion ⟨c, i⟩)))

/-- The records of a pair's history are its claims, numbered. -/
def HistoryIs (E : Engine) (subject predicate : String) (cs : List Claim) (m : Entries) : Prop :=
  ∀ e, (e ∈ m ∧ (historyPrefix subject predicate).isPrefixOf e.1 = true) ↔
    ∃ i c, cs[i]? = some c ∧ e = versionEntry E subject predicate i c

theorem HistoryIs.mem_claimVersions (h : HistoryIs E subject predicate cs m) (hcodec : E.codec.Lawful)
    (hlen : cs.length ≤ 2 ^ 64) {v : Key × ClaimVersion} :
    v ∈ claimVersions E subject predicate m ↔
      ∃ i c, cs[i]? = some c ∧ v = (versionKey subject predicate i, ⟨c, i⟩) := by
  have hread : ∀ {i : Nat} {c : Claim}, cs[i]? = some c →
      (versionEntry E subject predicate i c).2.blob?.bind E.codec.decodeVersion = some ⟨c, i⟩ :=
    fun hc => hcodec.version _ ((List.getElem?_eq_some_iff.1 hc).1.trans_le hlen)
  rw [Loom.mem_claimVersions]
  constructor
  · rintro ⟨e, he, hpre, hkey, hversion⟩
    obtain ⟨i, c, hc, rfl⟩ := (h e).1 ⟨he, hpre⟩
    rw [hread hc] at hversion
    exact ⟨i, c, hc, Prod.ext hkey.symm (Option.some.inj hversion).symm⟩
  · rintro ⟨i, c, hc, rfl⟩
    obtain ⟨he, hpre⟩ := (h _).2 ⟨i, c, hc, rfl⟩
    exact ⟨_, he, hpre, rfl, hread hc⟩

theorem foldl_max_le {α : Type} (f : α → Nat) {l : List α} {n k : Nat} :
    l.foldl (fun n v => max n (f v)) n ≤ k ↔ n ≤ k ∧ ∀ v ∈ l, f v ≤ k := by
  induction l generalizing n with
  | nil => simp
  | cons v l ih => rw [foldl_cons, ih, max_le_iff, and_assoc, List.forall_mem_cons]

theorem HistoryIs.nextVersion (h : HistoryIs E subject predicate cs m) (hcodec : E.codec.Lawful)
    (hlen : cs.length ≤ 2 ^ 64) :
    (claimVersions E subject predicate m).foldl (fun n v => max n (v.2.seq + 1)) 0 = cs.length := by
  refine le_antisymm ?_ ?_
  · refine (foldl_max_le _).2 ⟨Nat.zero_le _, fun v hv => ?_⟩
    obtain ⟨i, c, hc, rfl⟩ := (h.mem_claimVersions hcodec hlen).1 hv
    exact (List.getElem?_eq_some_iff.1 hc).1
  · rcases Nat.eq_zero_or_pos cs.length with hzero | hpos
    · rw [hzero]
      exact Nat.zero_le _
    · have hlast : cs.length - 1 < cs.length := by omega
      have hmem := (h.mem_claimVersions hcodec hlen).2 ⟨_, _, List.getElem?_eq_getElem hlast, rfl⟩
      have hle := ((foldl_max_le (fun v : Key × ClaimVersion => v.2.seq + 1) (n := 0)).1 le_rfl).2 _ hmem
      calc cs.length = cs.length - 1 + 1 := by omega
        _ ≤ _ := hle

/-- What a claim writes: its own version behind the others, and the open ones closed. -/
theorem HistoryIs.mem_versionWrites {claim : Claim} (h : HistoryIs E claim.subject claim.predicate cs m)
    (hcodec : E.codec.Lawful) (hlen : cs.length ≤ 2 ^ 64) {w : Key × Record} :
    w ∈ versionWrites E m claim ↔
      (∃ i c, cs[i]? = some c ∧ c.known.stop.isNone = true ∧
        w = versionEntry E claim.subject claim.predicate i (c.supersede claim.known.start)) ∨
      w = versionEntry E claim.subject claim.predicate cs.length claim := by
  simp only [versionWrites, h.nextVersion hcodec hlen, List.mem_append, List.mem_map, List.mem_filter,
    h.mem_claimVersions hcodec hlen, List.mem_singleton]
  refine or_congr ?_ Iff.rfl
  constructor
  · rintro ⟨_, ⟨⟨i, c, hc, rfl⟩, hopen⟩, rfl⟩
    exact ⟨i, c, hc, hopen, rfl⟩
  · rintro ⟨i, c, hc, hopen, rfl⟩
    exact ⟨_, ⟨⟨i, c, hc, rfl⟩, hopen⟩, rfl⟩

theorem HistoryIs.believe {claim : Claim} (h : HistoryIs E claim.subject claim.predicate cs m) (hcodec : E.codec.Lawful)
    (hsorted : Sorted m) (hlen : cs.length < 2 ^ 64) :
    HistoryIs E claim.subject claim.predicate (Loom.believe cs claim) (puts m (versionWrites E m claim)) := by
  have hmem := fun w => h.mem_versionWrites hcodec hlen.le (w := w)
  have hlt : ∀ {i : Nat} {c : Claim}, cs[i]? = some c → i < cs.length := fun hc => (List.getElem?_eq_some_iff.1 hc).1
  have hinj : ∀ {i j : Nat}, i ≤ cs.length → j ≤ cs.length →
      versionKey claim.subject claim.predicate i = versionKey claim.subject claim.predicate j → i = j :=
    fun hi hj heq => versionKey_inj (hi.trans_lt hlen) (hj.trans_lt hlen) heq
  have hone : ∀ w ∈ versionWrites E m claim, ∀ w' ∈ versionWrites E m claim, w.1 = w'.1 → w.2 = w'.2 := by
    intro w hw w' hw' hkey
    rcases (hmem _).1 hw with ⟨i, c, hc, -, rfl⟩ | rfl
    · rcases (hmem _).1 hw' with ⟨j, c', hc', -, rfl⟩ | rfl
      · obtain rfl := hinj (hlt hc).le (hlt hc').le hkey
        obtain rfl := Option.mem_unique hc hc'
        rfl
      · exact absurd (hinj (hlt hc).le le_rfl hkey) (hlt hc).ne
    · rcases (hmem _).1 hw' with ⟨j, c', hc', -, rfl⟩ | rfl
      · exact absurd (hinj le_rfl (hlt hc').le hkey) (hlt hc').ne'
      · rfl
  intro e
  rw [mem_puts hsorted hone]
  constructor
  · rintro ⟨hw | ⟨he, hnot⟩, hpre⟩
    · rcases (hmem _).1 hw with ⟨i, c, hc, hopen, rfl⟩ | rfl
      · exact ⟨i, _, getElem?_believe.2 (.inl ⟨c, hc, (if_pos hopen).symm⟩), rfl⟩
      · exact ⟨_, claim, getElem?_believe.2 (.inr ⟨rfl, rfl⟩), rfl⟩
    · obtain ⟨i, c, hc, rfl⟩ := (h e).1 ⟨he, hpre⟩
      have hclosed : ¬ c.known.stop.isNone = true := fun hopen => hnot _ ((hmem _).2 (.inl ⟨i, c, hc, hopen, rfl⟩)) rfl
      exact ⟨i, c, getElem?_believe.2 (.inl ⟨c, hc, (if_neg hclosed).symm⟩), rfl⟩
  · rintro ⟨i, c, hc, rfl⟩
    refine ⟨?_, historyPrefix_versionKey _ _ _⟩
    rcases getElem?_believe.1 hc with ⟨c0, hc0, rfl⟩ | ⟨rfl, rfl⟩
    · by_cases hopen : c0.known.stop.isNone = true
      · rw [Claim.yield, if_pos hopen]
        exact .inl ((hmem _).2 (.inl ⟨i, c0, hc0, hopen, rfl⟩))
      · rw [Claim.yield, if_neg hopen]
        refine .inr ⟨((h _).2 ⟨i, c0, hc0, rfl⟩).1, fun w hw hkey => ?_⟩
        rcases (hmem _).1 hw with ⟨j, c', hc', hopen', rfl⟩ | rfl
        · obtain rfl := hinj (hlt hc').le (hlt hc0).le hkey
          obtain rfl := Option.mem_unique hc' hc0
          exact hopen hopen'
        · exact absurd (hinj le_rfl (hlt hc0).le hkey) (hlt hc0).ne'
    · exact .inl ((hmem _).2 (.inr rfl))

theorem HistoryIs.frame (h : HistoryIs E subject predicate cs m) (hsorted : Sorted m)
    (hws : ∀ w ∈ ws, (historyPrefix subject predicate).isPrefixOf w.1 = false) :
    HistoryIs E subject predicate cs (puts m ws) := by
  intro e
  rw [← h e]
  refine and_congr_left (fun hpre => mem_puts_of_not hsorted (fun w hw hkey => ?_))
  have hnot := hws w hw
  rw [hkey, hpre] at hnot
  cases hnot

/-- Every pair's history is the one of these claims. -/
def Histories (E : Engine) (claims : List Claim) (m : Entries) : Prop :=
  ∀ subject predicate, Plain subject → Plain predicate →
    HistoryIs E subject predicate (historyOf subject predicate claims) m

def Claim.Named (c : Claim) : Prop := Plain c.subject ∧ Plain c.predicate

theorem Histories.frame {claims : List Claim} (h : Histories E claims m) (hsorted : Sorted m)
    (hws : ∀ w ∈ ws, ∀ subject predicate, (historyPrefix subject predicate).isPrefixOf w.1 = false) :
    Histories E claims (puts m ws) :=
  fun subject predicate hs hp => (h subject predicate hs hp).frame hsorted (fun w hw => hws w hw subject predicate)

theorem Histories.claim {claims : List Claim} (h : Histories E claims m) (hcodec : E.codec.Lawful) (hsorted : Sorted m)
    {claim : Claim} (hnamed : claim.Named) (hlen : claims.length < 2 ^ 64) :
    Histories E (claims ++ [claim]) (puts m (versionWrites E m claim)) := by
  intro subject predicate hs hp
  rw [historyOf_append]
  by_cases habout : claim.about subject predicate = true
  · obtain ⟨rfl, rfl⟩ := of_decide_eq_true habout
    rw [List.filter_cons_of_pos habout]
    exact (h _ _ hs hp).believe hcodec hsorted ((length_historyOf _ _ _).trans_lt hlen)
  · rw [List.filter_cons_of_neg habout]
    refine (h _ _ hs hp).frame hsorted (fun w hw => ?_)
    obtain ⟨rest, hkey⟩ := mem_versionWrites hw
    rw [Bool.eq_false_iff, hkey]
    intro hpre
    obtain ⟨rfl, rfl⟩ := pair_of_historyPrefix hs hp hnamed.1 hnamed.2 hpre
    exact habout (decide_eq_true ⟨rfl, rfl⟩)

theorem Histories.claims {claims : List Claim} (later : List Claim) (h : Histories E claims m) (hcodec : E.codec.Lawful)
    (hsorted : Sorted m) (hnamed : ∀ claim ∈ later, claim.Named) (hlen : claims.length + later.length ≤ 2 ^ 64) :
    Histories E (claims ++ later) (puts m (versionsWrites E m later)) := by
  induction later generalizing claims m with
  | nil =>
    rw [List.append_nil]
    exact h
  | cons claim later ih =>
    obtain ⟨hclaim, hlater⟩ := List.forall_mem_cons.1 hnamed
    rw [List.length_cons] at hlen
    rw [versionsWrites, puts_append, ← List.singleton_append, ← append_assoc]
    refine ih (h.claim hcodec hsorted hclaim (by omega)) (sorted_puts hsorted _) hlater ?_
    rw [length_append, length_singleton]
    omega

/-- A write adds its claims to the histories. -/
theorem Histories.write {claims : List Claim} {branch : BranchId} {head : CommitId} {records : Entries}
    {envelope : WriteEnvelope} {captured : ReadSet} {extraParents : List (Key × List NodeId)}
    {hints : List (Key × IndexHint)} (h : Histories E claims m) (hcodec : E.codec.Lawful) (hsorted : Sorted m)
    (hkeys : ∀ e ∈ records, LoomDb.isCallerKey e.1 = true) (hnamed : ∀ claim ∈ claimsIn records, claim.Named)
    (hlen : claims.length + (claimsIn records).length ≤ 2 ^ 64) :
    Histories E (claims ++ claimsIn records) (puts m (records ++
      engineWrites E branch head records envelope captured extraParents hints (puts m records))) := by
  have hrecords : Histories E claims (puts m records) :=
    h.frame hsorted (fun w hw => not_historyPrefix_of_caller (hkeys w hw))
  rw [puts_append, engineWrites, puts_append]
  refine Histories.claims _ (hrecords.frame (sorted_puts hsorted _) (fun w hw subject predicate => ?_)) hcodec
    (sorted_puts (sorted_puts hsorted _) _) hnamed hlen
  rcases List.mem_append.1 hw with hw | hw
  · rcases nodeKey_of_nodesWrites (mem_provenanceWrites hw) with hprov | ⟨kind, hkind, rest, hkey⟩
    · exact not_historyPrefix_of_provenance hprov subject predicate
    · rw [hkey]
      exact not_historyPrefix_of_kind (by simp at hkind ⊢; tauto) rest subject predicate
  · obtain ⟨e, -, hw⟩ := List.mem_flatMap.1 hw
    rcases mem_entryWrites hw with hkey | hkey
    · rw [hkey]
      exact not_historyPrefix_of_kind (by simp) e.1 subject predicate
    · rw [hkey]
      exact not_historyPrefix_of_kind (by simp) e.1 subject predicate

end Stored

end Mutiny.Loom
