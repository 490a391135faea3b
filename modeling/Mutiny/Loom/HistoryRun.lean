import Mutiny.Lib.Run
import Mutiny.Loom.History

/- Questions about the past, asked along a run.

   A run writes records to a branch and marks claims stale; the claims it wrote are
   remembered beside the database. As long as callers keep to keys of their own,
   names have no zero byte and every claim is believed from later on than every
   claim of its pair before it, the histories of the branch are those of the claims
   (`Inv`), a pair has one open version at most, and an answer stays
   but for being superseded (`past_answers_stand`).

   An answer is not the same for ever: superseding a claim changes the bound and
   the status of the version that was the answer. `mark_stale` writes a claim with the
   interval it had, so the version before it ends where it began and another answer
   takes its place. A claim without a start leaves two open versions, and a zero byte
   in a name puts a claim into another pair's history (`past_answers_change`). -/
namespace Mutiny.Loom
open Mutiny.Lib Mutiny.Substrate LoomDb List
open Mutiny.Bridge (SourceRef WriteEnvelope)

inductive HistoryCall where
  | write (token : CapabilityToken) (records : Entries) (hints : List (Key × IndexHint))
      (envelope : WriteEnvelope) (now : Nat) (fresh : CommitId)
  | markStale (token : CapabilityToken) (source : SourceRef) (envelope : WriteEnvelope) (now : Nat) (fresh : CommitId)

def HistoryCall.fresh : HistoryCall → CommitId
  | .write _ _ _ _ _ fresh => fresh
  | .markStale _ _ _ _ fresh => fresh

structure BeliefWorld where
  db : LoomDb
  /-- The claims written so far. -/
  claims : List Claim

/-- Believed from an instant on that is after that of every earlier claim of the pair. -/
def Claim.isAfter (earlier : List Claim) (c : Claim) : Bool :=
  c.known.start.any (fun t => (earlier.filter (about c.subject c.predicate)).all
    (fun e => e.known.start.all (fun t' => t' < t)))

theorem isAfter_iff {earlier : List Claim} {c : Claim} : c.isAfter earlier = true ↔ ∃ t, c.known.start = some t ∧
    ∀ e ∈ earlier, e.about c.subject c.predicate = true → ∀ t', e.known.start = some t' → t' < t := by
  unfold Claim.isAfter
  cases c.known.start with
  | none => simp
  | some t => simp only [Option.any_some, Option.some.injEq, exists_eq_left', all_eq_true, mem_filter, Option.all_eq_true,
      decide_eq_true_eq, and_imp]

namespace BeliefWorld

variable (E : Engine) (branch : BranchId)

def written (w : BeliefWorld) : HistoryCall → Entries
  | .write _ records _ _ _ _ => records
  | .markStale _ source _ _ _ => (w.db.staleWrites E branch source).toOption.getD []

def outcome (w : BeliefWorld) : HistoryCall → Except LoomError Unit × LoomDb
  | .write token records hints envelope now fresh =>
    let (result, db) := w.db.writeAll E token branch records envelope [] hints now fresh
    (result.map (fun _ => ()), db)
  | .markStale token source envelope now fresh =>
    let (result, db) := w.db.markStale E branch source token envelope now fresh
    (result.map (fun _ => ()), db)

def step (w : BeliefWorld) (call : HistoryCall) : BeliefWorld :=
  match w.outcome E branch call with
  | (.ok (), db) => ⟨db, w.claims ++ claimsIn (w.written E branch call)⟩
  | (.error _, db) => ⟨db, w.claims⟩

def run (w : BeliefWorld) (calls : List HistoryCall) : BeliefWorld := calls.foldl (step E branch) w

/-- Caller keys, names without a zero byte, and the claims of each pair in the order of time. -/
structure Orderly (w : BeliefWorld) (call : HistoryCall) : Prop where
  unused : w.db.Unused call.fresh
  keys : ∀ e ∈ w.written E branch call, LoomDb.isCallerKey e.1 = true
  named : ∀ c ∈ claimsIn (w.written E branch call), c.Named
  after : ∀ c ∈ claimsIn (w.written E branch call), c.isAfter w.claims = true
  count : w.claims.length + (claimsIn (w.written E branch call)).length ≤ 2 ^ 64

abbrev OrderlyRun : BeliefWorld → List HistoryCall → Prop := Along (step E branch) (Orderly E branch)

instance (c : Claim) : Decidable c.Named := inferInstanceAs (Decidable (_ ∧ _))

instance (w : BeliefWorld) (call : HistoryCall) : Decidable (w.Orderly E branch call) :=
  decidable_of_iff (w.db.Unused call.fresh ∧ (∀ e ∈ w.written E branch call, LoomDb.isCallerKey e.1 = true) ∧
      (∀ c ∈ claimsIn (w.written E branch call), c.Named) ∧
      (∀ c ∈ claimsIn (w.written E branch call), c.isAfter w.claims = true) ∧
      w.claims.length + (claimsIn (w.written E branch call)).length ≤ 2 ^ 64)
    ⟨fun ⟨h₁, h₂, h₃, h₄, h₅⟩ => ⟨h₁, h₂, h₃, h₄, h₅⟩, fun ⟨h₁, h₂, h₃, h₄, h₅⟩ => ⟨h₁, h₂, h₃, h₄, h₅⟩⟩

variable {E branch} {w : BeliefWorld}

/-! The histories along a run. -/

/-- The branch holds the histories of the claims, which all say since when. -/
structure Inv (E : Engine) (branch : BranchId) (w : BeliefWorld) : Prop where
  held : ∃ m, w.db.HeadHolds branch m ∧ Histories E w.claims m
  started : ∀ c ∈ w.claims, c.known.start.isSome = true
  count : w.claims.length ≤ 2 ^ 64

section

variable (hcodec : E.codec.Lawful) (h : Inv E branch w)
include hcodec h

/-- What a call does to the claims, and that the branch follows. -/
theorem step_held {call : HistoryCall} (horderly : w.Orderly E branch call) :
    ((w.step E branch call).claims = w.claims ∨
      (w.step E branch call).claims = w.claims ++ claimsIn (w.written E branch call)) ∧
    ∃ m, (w.step E branch call).db.HeadHolds branch m ∧ Histories E (w.step E branch call).claims m := by
  obtain ⟨m, hm, hhist⟩ := h.held
  -- the write of a call with its records
  have hwrite : ∀ (token : CapabilityToken) (hints : List (Key × IndexHint)) (envelope : WriteEnvelope) (now : Nat)
      (fresh : CommitId), w.db.Unused fresh →
      (∃ e sets, w.db.writeAll E token branch (w.written E branch call) envelope [] hints now fresh =
        (.error e, { w.db with readSets := sets })) ∨
      ∃ commit db' m', w.db.writeAll E token branch (w.written E branch call) envelope [] hints now fresh =
        (.ok commit, db') ∧ db'.HeadHolds branch m' ∧
        Histories E (w.claims ++ claimsIn (w.written E branch call)) m' := by
    intro token hints envelope now fresh hunused
    rcases writeAll_cases E token branch (w.written E branch call) envelope [] hints now hunused with
      herr | ⟨head, base, pages, commit, db', hhead, hbase, hpub, hpages, hres⟩
    · exact .inl herr
    · obtain ⟨_, _, hhead', hbase', hbm⟩ := id hm
      obtain rfl := Option.mem_unique hhead' hhead
      obtain rfl := Option.mem_unique hbase' hbase
      exact .inr ⟨commit, _, _, hres, hpub.headHolds hbase (hpages m hbm),
        hhist.write hcodec hm.sorted horderly.keys horderly.named horderly.count⟩
  cases call with
  | write token records hints envelope now fresh =>
    simp only [written] at hwrite ⊢
    rcases hwrite token hints envelope now fresh horderly.unused with ⟨e, sets, hres⟩ | ⟨commit, db', m', hres, hheld, hhist'⟩
    · simp only [step, outcome, hres]
      exact ⟨.inl rfl, m, hm.congr rfl rfl, hhist⟩
    · simp only [step, outcome, hres]
      exact ⟨.inr rfl, m', hheld, hhist'⟩
  | markStale token source envelope now fresh =>
    cases hstale : w.db.staleWrites E branch source with
    | error e =>
      simp only [step, outcome, markStale, hstale]
      exact ⟨.inl rfl, m, hm, hhist⟩
    | ok writes =>
      have hrecords : w.written E branch (.markStale token source envelope now fresh) = writes := by
        simp only [written, hstale]
        rfl
      rw [hrecords] at hwrite ⊢
      cases writes with
      | nil =>
        simp only [step, outcome, markStale, hstale, hrecords]
        refine ⟨.inr rfl, m, hm, ?_⟩
        rw [claimsIn, filterMap_nil, append_nil]
        exact hhist
      | cons first rest =>
        rcases hwrite token [] envelope now fresh horderly.unused with ⟨e, sets, hres⟩ | ⟨commit, db', m', hres, hheld, hhist'⟩
        · simp only [step, outcome, markStale, hstale, hres]
          exact ⟨.inl rfl, m, hm.congr rfl rfl, hhist⟩
        · simp only [step, outcome, markStale, hstale, hres, hrecords]
          exact ⟨.inr rfl, m', hheld, hhist'⟩

theorem Inv.step {call : HistoryCall} (horderly : w.Orderly E branch call) : Inv E branch (w.step E branch call) := by
  obtain ⟨hclaims, hheld⟩ := step_held hcodec h horderly
  have hafter : ∀ c ∈ claimsIn (w.written E branch call), c.known.start.isSome = true := by
    intro c hc
    obtain ⟨t, ht, -⟩ := isAfter_iff.1 (horderly.after c hc)
    rw [ht]
    rfl
  rcases hclaims with hclaims | hclaims
  · exact ⟨hheld, by rw [hclaims]; exact h.started, by rw [hclaims]; exact h.count⟩
  · refine ⟨hheld, ?_, ?_⟩
    · rw [hclaims]
      exact fun c hc => (mem_append.1 hc).elim (h.started c) (hafter c)
    · rw [hclaims, length_append]
      exact horderly.count

/-- A run goes on with claims that are believed after those of their pairs before it. -/
theorem Inv.run {calls : List HistoryCall}
    (horderly : OrderlyRun E branch w calls) :
    Inv E branch (w.run E branch calls) ∧ ∃ later, (w.run E branch calls).claims = w.claims ++ later ∧
      ∀ claim ∈ later, claim.isAfter w.claims = true := by
  induction calls generalizing w with
  | nil => exact ⟨h, [], by simp [BeliefWorld.run], by simp⟩
  | cons call calls ih =>
    obtain ⟨hinv, later, hlater, hafter⟩ := ih (h.step hcodec horderly.1) horderly.2
    refine ⟨hinv, ?_⟩
    rcases (step_held hcodec h horderly.1).1 with hclaims | hclaims
    · rw [hclaims] at hlater hafter
      exact ⟨later, hlater, hafter⟩
    · rw [hclaims] at hlater hafter
      refine ⟨claimsIn (w.written E branch call) ++ later, by rw [← append_assoc]; exact hlater, fun claim hmem => ?_⟩
      rcases mem_append.1 hmem with hmem | hmem
      · exact horderly.1.after claim hmem
      · -- after more claims than these
        obtain ⟨t, ht, hall⟩ := isAfter_iff.1 (hafter claim hmem)
        exact isAfter_iff.2 ⟨t, ht, fun e he => hall e (mem_append_left _ he)⟩

end

/-! Answers along a run. -/

theorem Inv.headEntries (h : Inv E branch w) : ∃ m, w.db.headEntries branch = .ok m ∧ Histories E w.claims m := by
  obtain ⟨m, hm, hhist⟩ := h.held
  obtain ⟨t, pages, htree, ht⟩ := hm.headTree
  refine ⟨m, ?_, hhist⟩
  unfold LoomDb.headEntries
  rw [htree, ok_bind, liftTree_ok ht.scan]

theorem Inv.asOf (hcodec : E.codec.Lawful) (h : Inv E branch w) {subject predicate : String} (hs : Plain subject)
    (hp : Plain predicate) (point : AsOf) {token : CapabilityToken} {now : Nat}
    (hauth : authorize E token branch now = .ok ()) :
    w.db.asOf E token branch subject predicate point now =
      .ok ⟨point.answer (historyOf subject predicate w.claims), point⟩ := by
  obtain ⟨m, hm, hhist⟩ := h.headEntries
  have hlen := (length_historyOf subject predicate w.claims).trans h.count
  have hversions : ∀ v, v ∈ (claimVersions E subject predicate m).map Prod.snd ↔
      ∃ i c, (historyOf subject predicate w.claims)[i]? = some c ∧ v = ⟨c, i⟩ := by
    intro v
    simp only [mem_map, (hhist subject predicate hs hp).mem_claimVersions hcodec hlen]
    constructor
    · rintro ⟨_, ⟨i, c, hc, rfl⟩, rfl⟩
      exact ⟨i, c, hc, rfl⟩
    · rintro ⟨i, c, hc, rfl⟩
      exact ⟨_, ⟨i, c, hc, rfl⟩, rfl⟩
  unfold LoomDb.asOf
  simp only [hauth, ok_bind, hm, foldl_better hversions]
  rfl

/-- Between two points of an orderly run on a branch that held no history: every pair
    has one open version at most; a question about an instant that was past, or that no
    claim of the pair since then is believed at, is answered as before, but for the claim
    being superseded by one written since; and claims of other pairs change no answer. -/
theorem past_answers_stand (E : Engine) (hcodec : E.codec.Lawful) (branch : BranchId) (db : LoomDb)
    (m : Entries) (hm : db.HeadHolds branch m)
    (hempty : ∀ e ∈ m, (reservedKey "clmhist/" []).isPrefixOf e.1 = false) (calls calls' : List HistoryCall)
    (horderly : OrderlyRun E branch ⟨db, []⟩ (calls ++ calls')) :
    let w := BeliefWorld.run E branch ⟨db, []⟩ calls
    let w' := w.run E branch calls'
    let later := w'.claims.drop w.claims.length
    ∀ subject predicate, Plain subject → Plain predicate →
      (∃ entries, w'.db.headEntries branch = .ok entries ∧
        ∀ v ∈ claimVersions E subject predicate entries, ∀ v' ∈ claimVersions E subject predicate entries,
          v.2.claim.known.stop = none → v'.2.claim.known.stop = none → v = v') ∧
      ∀ point token now now', authorize E token branch now = .ok () → authorize E token branch now' = .ok () →
        ∃ a a', w.db.asOf E token branch subject predicate point now = .ok a ∧
          w'.db.asOf E token branch subject predicate point now' = .ok a' ∧
          (((∃ c ∈ w.claims, c.about subject predicate = true ∧ ∃ t, c.known.start = some t ∧ point.knownAt ≤ t) ∨
              ∀ c ∈ later, c.about subject predicate = true → ∀ t, c.known.start = some t → point.knownAt < t) →
            a' = a ∨ ∃ c, a.claim = some c ∧ c.known.stop = none ∧ ∃ claim ∈ later,
              claim.about subject predicate = true ∧ ∃ t, claim.known.start = some t ∧
                a' = ⟨some (c.supersede (some t)), point⟩) ∧
          ((∀ claim ∈ later, claim.about subject predicate = false) → a' = a) := by
  intro w w' later subject predicate hs hp
  obtain ⟨hbefore, hafter⟩ := along_append.1 horderly
  have hstart : Inv E branch ⟨db, []⟩ := by
    refine ⟨⟨m, hm, fun subject predicate _ _ e => ⟨fun ⟨he, hpre⟩ => ?_, fun ⟨i, c, hc, _⟩ => by cases hc⟩⟩,
      by simp, by simp⟩
    have hnot := hempty e he
    obtain ⟨rest, hrest⟩ := isPrefixOf_iff_prefix.1 hpre
    rw [← hrest, historyPrefix, reservedKey, reservedKey, append_nil, append_assoc, Bool.eq_false_iff] at hnot
    exact absurd ( isPrefixOf_iff_prefix.2 (prefix_append _ _)) hnot
  obtain ⟨hw, -⟩ := hstart.run hcodec hbefore
  obtain ⟨hw', new, hnew, hnewafter⟩ := hw.run hcodec hafter
  have hlater : later = new := by
    show w'.claims.drop w.claims.length = new
    rw [hnew, drop_left]
  rw [hlater]
  refine ⟨?_, ?_⟩
  · obtain ⟨entries, hentries, hhist⟩ := hw'.headEntries
    have hlen := (length_historyOf subject predicate w'.claims).trans hw'.count
    refine ⟨entries, hentries, fun v hv v' hv' hopen hopen' => ?_⟩
    obtain ⟨i, c, hc, rfl⟩ := ((hhist subject predicate hs hp).mem_claimVersions hcodec hlen).1 hv
    obtain ⟨j, c', hc', rfl⟩ := ((hhist subject predicate hs hp).mem_claimVersions hcodec hlen).1 hv'
    have hi := last_of_open hw'.started hc (Option.isNone_iff_eq_none.2 hopen)
    have hj := last_of_open hw'.started hc' (Option.isNone_iff_eq_none.2 hopen')
    obtain rfl : i = j := by omega
    rw [Option.mem_unique hc hc']
  · intro point token now now' hauth hauth'
    refine ⟨_, _, hw.asOf hcodec hs hp point hauth, hw'.asOf hcodec hs hp point hauth', ?_, ?_⟩
    · intro hpast
      -- every claim since then is believed after the instant asked about
      have hsince : ∀ claim ∈ new.filter (Claim.about subject predicate),
          ∃ t, claim.known.start = some t ∧ point.knownAt < t := by
        intro claim hclaim
        obtain ⟨hmem, habout⟩ := mem_filter.1 hclaim
        obtain ⟨t, ht, hall⟩ := isAfter_iff.1 (hnewafter claim hmem)
        rcases hpast with ⟨c0, hc0, habout0, t0, ht0, hknown⟩ | hlate
        · obtain ⟨rfl, rfl⟩ := of_decide_eq_true habout
          exact ⟨t, ht, hknown.trans_lt (hall c0 hc0 habout0 t0 ht0)⟩
        · exact ⟨t, ht, hlate claim hmem habout t ht⟩
      rw [hnew, historyOf_append]
      rcases (settled_believes hsince (historyOf subject predicate w.claims)).answer with
        heq | ⟨c, hc, hopen, claim, hclaim, t, ht, -, heq⟩
      · exact .inl (by rw [heq])
      · obtain ⟨hmem, habout⟩ := mem_filter.1 hclaim
        exact .inr ⟨c, hc, hopen, claim, hmem, habout, t, ht, by rw [heq]⟩
    · intro hother
      have hnil : new.filter (Claim.about subject predicate) = [] :=
        filter_eq_nil_iff.2 (fun claim hclaim => by rw [hother claim hclaim]; simp)
      rw [hnew, historyOf_append, hnil]
      rfl

/-! Runs on a new database. -/

def newDb : LoomDb := LoomDb.create "t" 1 Pages.empty

theorem newDb_holds : newDb.HeadHolds mainBranch [] := by
  refine ⟨1, ⟨none, Pages.empty⟩, ?_, ?_, Pages.Holds.empty⟩
  · exact Std.ExtTreeMap.getElem?_insert_self
  · exact Std.ExtTreeMap.getElem?_insert_self

def note (subject predicate : String) (start : Option Timestamp) : Claim :=
  ⟨0, predicate, subject, .bool true, ⟨none, none⟩, ⟨start, none⟩, ⟨⟨0⟩, .direct, ""⟩, [], .asserted, none, "u"⟩

def feed : SourceRef := ⟨"feed", "1"⟩

/-- A claim of the feed, written to a key of its own. -/
def noted (key : UInt8) (claim : Claim) (fresh : CommitId) : HistoryCall :=
  .write mainToken [([key], .claim claim)] [] (citing [feed]) 0 fresh

def askedOf (w : BeliefWorld) (subject predicate : String) (knownAt : Timestamp) : Option Claim :=
  ((w.db.asOf plainEngine mainToken mainBranch subject predicate ⟨5, knownAt⟩ 0).toOption.bind AsOfAnswer.claim)

/-- Where the versions of a pair end. -/
def knownStops (w : BeliefWorld) (subject predicate : String) : List (Option Timestamp) :=
  let entries := (w.db.headEntries mainBranch).toOption.getD []
  (claimVersions plainEngine subject predicate entries).map (fun v => v.2.claim.known.stop)

def recorded (calls : List HistoryCall) : BeliefWorld := BeliefWorld.run plainEngine mainBranch ⟨newDb, []⟩ calls

def firstNote : HistoryCall := noted 97 (note "s" "p" (some 10)) 2

/-- A claim of another pair, believed later, leaves the answer. -/
theorem past_answer_stands_beside_another :
    askedOf (recorded [firstNote]) "s" "p" 10 = some (note "s" "p" (some 10)) ∧
      askedOf (recorded [firstNote, noted 98 (note "s" "q" (some 20)) 3]) "s" "p" 10 =
        some (note "s" "p" (some 10)) := by
  have horderly : OrderlyRun plainEngine mainBranch ⟨newDb, []⟩
      ([firstNote] ++ [noted 98 (note "s" "q" (some 20)) 3]) := by decide +kernel
  have hauth : authorize plainEngine mainToken mainBranch 0 = .ok () := by decide +kernel
  have hfirst : askedOf (recorded [firstNote]) "s" "p" 10 = some (note "s" "p" (some 10)) := by
    decide +kernel
  obtain ⟨-, hanswers⟩ := past_answers_stand plainEngine plainCodec_lawful mainBranch newDb [] newDb_holds (by simp)
    [firstNote] [noted 98 (note "s" "q" (some 20)) 3] horderly "s" "p" (by decide +kernel)
    (by decide +kernel)
  obtain ⟨a, a', ha, ha', -, hother⟩ := hanswers ⟨5, 10⟩ mainToken 0 0 hauth hauth
  refine ⟨hfirst, ?_⟩
  have hsame : a' = a := hother (by decide +kernel)
  calc askedOf (recorded [firstNote, noted 98 (note "s" "q" (some 20)) 3]) "s" "p" 10
      = a'.claim := congrArg (fun r => r.toOption.bind AsOfAnswer.claim) ha'
    _ = a.claim := by rw [hsame]
    _ = askedOf (recorded [firstNote]) "s" "p" 10 :=
      (congrArg (fun r => r.toOption.bind AsOfAnswer.claim) ha).symm
    _ = some (note "s" "p" (some 10)) := hfirst

/-- Superseding a claim changes the answer it was; marking it stale puts another in
    its place; claims without a start stay open together; and a zero byte in a name
    brings a claim into the history of another pair. -/
theorem past_answers_change :
    askedOf (recorded [firstNote]) "s" "p" 10 = some (note "s" "p" (some 10)) ∧
    askedOf (recorded [firstNote, noted 97 (note "s" "p" (some 20)) 3]) "s" "p" 10 =
      some { note "s" "p" (some 10) with known := ⟨some 10, some 20⟩, status := .superseded } ∧
    askedOf (recorded [firstNote, .markStale mainToken feed (citing []) 0 3]) "s" "p" 10 =
      some { note "s" "p" (some 10) with status := .stale } ∧
    knownStops (recorded [noted 97 (note "s" "p" none) 2, noted 97 (note "s" "p" none) 3]) "s" "p" = [none, none] ∧
    askedOf (recorded []) "s" "p" 10 = none ∧
    askedOf (recorded [noted 97 (note "s" "p\x00q" (some 10)) 2]) "s" "p" 10 = some (note "s" "p\x00q" (some 10)) := by
  decide +kernel

end BeliefWorld

end Mutiny.Loom
