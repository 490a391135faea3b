import Mutiny.Substrate.PagerSpec
import Mutiny.Substrate.Wal

/- What replaying a log does (`Wal::recover`).

   `Replays` is the abstract replay: it carries, beside the head and the pending
   writes, the page map the head stands for. It is a relation between points of a
   replay with no file in it. `fold_of_replays` says that the code's replay of a
   list of records follows it, and `recover_of_replays` that recovery does, over
   any log of whole records with a cut one at its very end. -/
namespace Mutiny.Substrate
open Mutiny.Lib SortedMap Manifests List

structure Point where
  manifests : Manifests
  head : ManifestId
  pages : PageMap
  pending : PageChanges

/-- The records between two points. Every commit derives the manifest it names,
    and that manifest then reads back under its name. -/
inductive Replays (H : Hashing) : Point → List RecordKind → Point → Prop
  | done {p : Point} (hres : Resolves H p.manifests p.head p.pages) : Replays H p [] p
  | write {p q : Point} {pageNo : LogicalPageNo} {page : Option PageId} {ks : List RecordKind}
      (hrest : Replays H { p with pending := p.pending.insert pageNo page } ks q) :
      Replays H p (.write pageNo page :: ks) q
  | commit {p q : Point} {next : Manifest} {t : U64} {ks : List RecordKind}
      (hres : Resolves H p.manifests p.head p.pages)
      (hder : deriveNext H p.manifests p.head p.pending t = .ok (some (next, H.manifest next)))
      (hput : (p.manifests.put H next).get H (H.manifest next) = .ok next)
      (hrest : Replays H ⟨p.manifests.put H next, H.manifest next, SortedMap.patch p.pages p.pending, ∅⟩ ks q) :
      Replays H p (.commit (H.manifest next) t :: ks) q
  | checkpoint {p q : Point} {ks : List RecordKind} (hrest : Replays H { p with pending := ∅ } ks q) :
      Replays H p (.checkpoint p.head :: ks) q

variable {H : Hashing}

namespace Replays

variable {p q r : Point} {ks ks' : List RecordKind}

section

variable (h : Replays H p ks q)
include h

theorem resolves_left : Resolves H p.manifests p.head p.pages := by
  induction h with
  | done hres => exact hres
  | write _ ih => exact ih
  | commit hres => exact hres
  | checkpoint _ ih => exact ih

theorem resolves_right : Resolves H q.manifests q.head q.pages := by
  induction h with
  | done hres => exact hres
  | write _ ih | commit _ _ _ _ ih | checkpoint _ ih => exact ih

theorem get_right {id : ManifestId} {m : Manifest} (hget : p.manifests.get H id = .ok m) :
    q.manifests.get H id = .ok m := by
  induction h with
  | done => exact hget
  | write _ ih => exact ih hget
  | commit _ _ _ _ ih => exact ih (get_put_of_get hget _)
  | checkpoint _ ih => exact ih hget

theorem append (h' : Replays H q ks' r) : Replays H p (ks ++ ks') r := by
  induction h with
  | done => exact h'
  | write _ ih => exact .write (ih h')
  | commit hres hder hput _ ih => exact .commit hres hder hput (ih h')
  | checkpoint _ ih => exact .checkpoint (ih h')

end

theorem split (h : Replays H p (ks ++ ks') r) : ∃ q, Replays H p ks q ∧ Replays H q ks' r := by
  induction ks generalizing p with
  | nil => exact ⟨p, .done h.resolves_left, h⟩
  | cons k ks ih =>
    cases h with
    | write hrest =>
      obtain ⟨q, h1, h2⟩ := ih hrest
      exact ⟨q, .write h1, h2⟩
    | commit hres hder hput hrest =>
      obtain ⟨q, h1, h2⟩ := ih hrest
      exact ⟨q, .commit hres hder hput h1, h2⟩
    | checkpoint hrest =>
      obtain ⟨q, h1, h2⟩ := ih hrest
      exact ⟨q, .checkpoint h1, h2⟩

/-- Replayed again over all that it stored, a log stores nothing. -/
theorem again (h : Replays H p ks q) {s : Manifests} (hs : ∀ id m, q.manifests.get H id = .ok m → s.get H id = .ok m) :
    Replays H { p with manifests := s } ks { q with manifests := s } := by
  induction h with
  | done hres => exact .done (hres.mono hs)
  | write _ ih => exact .write (ih hs)
  | @commit p q next t ks hres hder hput hrest ih =>
    have hsub : ∀ id m, p.manifests.get H id = .ok m → s.get H id = .ok m := fun id m hget =>
      hs _ _ (hrest.get_right (get_put_of_get hget next))
    have hnext : s.get H (H.manifest next) = .ok next := hs _ _ (hrest.get_right hput)
    have hsame : s.put H next = s := by
      rw [put, if_pos (mem_iff.2 ⟨next, (get_ok.1 hnext).1⟩)]
    refine .commit (hres.mono hsub) ?_ ?_ ?_
    · exact deriveNext_ok_mono hsub hder
    · rw [hsame, hnext]
    · rw [hsame]
      exact ih hs
  | checkpoint _ ih => exact .checkpoint (ih hs)

theorem writes {l : List (LogicalPageNo × Option PageId)}
    (h : Replays H { p with pending := l.foldl (fun m c => m.insert c.1 c.2) p.pending } ks q) :
    Replays H p (l.map (fun c => .write c.1 c.2) ++ ks) q := by
  induction l generalizing p with
  | nil => exact h
  | cons c l ih => exact .write (ih h)

end Replays

/-! The code's replay of a list of records. -/

variable {p q : Point} {c : Option U64} {rs : List WalRecord}

/-- The records a replay does not skip. -/
def live (capturedThrough : Option U64) (rs : List WalRecord) : List RecordKind :=
  (rs.filter (fun r => !capturedThrough.any (fun cp => r.lsn ≤ cp))).map WalRecord.kind

theorem live_append (c : Option U64) (rs rs' : List WalRecord) : live c (rs ++ rs') = live c rs ++ live c rs' := by
  simp [live]

/-- The code's replay is at this point. -/
structure Replay.At (st : Replay) (p : Point) : Prop where
  manifests : st.manifests = p.manifests
  head : st.head = p.head
  pending : st.pending = p.pending

theorem replayKind_of_replays {r : WalRecord} {ks : List RecordKind} (h : Replays H p (r.kind :: ks) q) (st : Replay)
    (hst : st.At p) :
    ∃ st' p', replayKind H st r = .ok st' ∧ st'.At p' ∧ Replays H p' ks q ∧ st'.nextLsn = st.nextLsn := by
  obtain ⟨hm, hh, hp⟩ := hst
  obtain ⟨lsn, kind⟩ := r
  cases h with
  | write hrest =>
    refine ⟨_, _, rfl, ?_, hrest, rfl⟩
    exact ⟨hm, hh, by simp only [hp]⟩
  | commit hres hder hput hrest =>
    rw [← hm, ← hh, ← hp] at hder
    simp only [replayKind, hder, if_true]
    refine ⟨_, _, rfl, ?_, hrest, rfl⟩
    exact ⟨by simp only [hm], rfl, rfl⟩
  | checkpoint hrest =>
    have hmem : p.head ∈ st.manifests := by
      rw [hm]
      exact hrest.resolves_left.mem
    simp only [replayKind, hmem, if_true]
    refine ⟨_, _, rfl, ?_, hrest, rfl⟩
    exact ⟨hm, rfl, rfl⟩

variable [WalCodec]

/-- The code's replay follows the abstract one, and hands out no number twice. -/
theorem fold_of_replays {st : Replay} (h : Replays H p (live c rs) q) (hst : st.At p) :
    ∃ st', (walFraming WalError).fold (fun st r _ => replayRecord H c st r) st rs = .ok st' ∧ st'.At q ∧
      st.nextLsn ≤ st'.nextLsn ∧ ∀ r ∈ rs, r.lsn.val < st'.nextLsn := by
  induction rs generalizing st p with
  | nil =>
    cases h
    exact ⟨st, rfl, hst, le_refl _, by simp⟩
  | cons r rs ih =>
    -- the record's own number is taken note of whether it is skipped or not
    have hstep : ∃ st1 p1, replayRecord H c st r = .ok st1 ∧ st1.At p1 ∧ Replays H p1 (live c rs) q ∧
        st1.nextLsn = max st.nextLsn (r.lsn.val + 1) := by
      unfold replayRecord
      by_cases hskip : c.any (fun cp => r.lsn ≤ cp) = true
      · refine ⟨_, p, if_pos hskip, ⟨hst.manifests, hst.head, hst.pending⟩, ?_, rfl⟩
        simpa [live, hskip] using h
      · rw [if_neg hskip]
        have hlive : live c (r :: rs) = r.kind :: live c rs := by
          simp [live, hskip]
        rw [hlive] at h
        obtain ⟨st1, p1, hk, hat, hrest, hlsn⟩ := replayKind_of_replays h
          { st with
            nextLsn := max st.nextLsn (r.lsn.val + 1)
            recovery := { st.recovery with recordsReplayed := st.recovery.recordsReplayed + 1 } }
          ⟨hst.manifests, hst.head, hst.pending⟩
        exact ⟨st1, p1, hk, hat, hrest, hlsn⟩
    obtain ⟨st1, p1, hr, hat, hrest, hlsn⟩ := hstep
    obtain ⟨st', hfold, hat', hle, hall⟩ := ih hrest hat
    refine ⟨st', ?_, hat', by omega, ?_⟩
    · rw [Framing.fold, hr, ok_bind, hfold]
    · rw [forall_mem_cons]
      exact ⟨by omega, hall⟩

/-! The segments. -/

/-- Segments of whole records. -/
inductive Whole : List (Nat × Bytes) → List WalRecord → Prop
  | nil : Whole [] []
  | cons {segs : List (Nat × Bytes)} {rs' : List WalRecord} (n : Nat) (rs : List WalRecord) (h : Whole segs rs') :
      Whole ((n, (walFraming WalError).frames rs) :: segs) (rs ++ rs')

/-- Segments of whole records, the last one with what a crash left behind them. -/
def Torn (segs : List (Nat × Bytes)) (rs : List WalRecord) : Prop :=
  Whole segs rs ∨ ∃ init n rs₀ rs₁ tail, segs = init ++ [(n, (walFraming WalError).frames rs₁ ++ tail)] ∧
    Whole init rs₀ ∧ rs = rs₀ ++ rs₁ ∧ (walFraming WalError).Cut tail

theorem Whole.append {segs segs' : List (Nat × Bytes)} {rs' : List WalRecord} (h : Whole segs rs)
    (h' : Whole segs' rs') : Whole (segs ++ segs') (rs ++ rs') := by
  induction h with
  | nil => exact h'
  | cons n rs _ ih =>
    rw [append_assoc]
    exact .cons n rs ih

theorem Whole.single (n : Nat) (rs : List WalRecord) : Whole [(n, (walFraming WalError).frames rs)] rs := by
  have h := Whole.cons n rs .nil
  rwa [append_nil] at h

theorem read_cut {tail : Bytes} (h : (walFraming WalError).Cut tail) : (walFraming WalError).read tail = .ok none :=
  h.read ⟨⟨0, .checkpoint 0⟩, walFraming_fits _⟩

theorem replaySegment_of_replays {tail : Bytes} {sc : SegmentScan} (h : Replays H p (live c rs) q)
    (hst : sc.replay.At p) (htail : (walFraming WalError).Cut tail) (n : Nat) :
    ∃ sc', replaySegment H c sc n ((walFraming WalError).frames rs ++ tail) = .ok sc' ∧ sc'.replay.At q ∧
      sc'.current = n ∧ sc.replay.nextLsn ≤ sc'.replay.nextLsn ∧ (∀ r ∈ rs, r.lsn.val < sc'.replay.nextLsn) ∧
      sc'.segments = if tail = [] then sc.segments
        else sc.segments.insert n ((walFraming WalError).frames rs) := by
  obtain ⟨st, hfold, hat, hle, hall⟩ := fold_of_replays h hst
  have hscan := (walFraming WalError).scan_frames (fun st r _ => replayRecord H c st r) sc.replay
    (fun r (_ : r ∈ rs) => walFraming_fits r) (read_cut htail)
  rw [hfold] at hscan
  unfold replaySegment
  rw [hscan]
  simp only [Except.map, ok_bind, length_append]
  by_cases hnil : tail = []
  · subst hnil
    rw [if_neg (by simp)]
    exact ⟨_, rfl, hat, rfl, hle, hall, by simp⟩
  · have hpos : 0 < tail.length := length_pos_iff.2 hnil
    rw [if_pos (by omega)]
    exact ⟨_, rfl, ⟨hat.manifests, hat.head, hat.pending⟩, rfl, hle, hall, by simp [hnil]⟩

theorem replaySegments_of_whole {segs : List (Nat × Bytes)} (hw : Whole segs rs) (h : Replays H p (live c rs) q)
    (sc : SegmentScan) (hst : sc.replay.At p) :
    ∃ sc', replaySegments H c sc segs = .ok sc' ∧ sc'.replay.At q ∧ sc.replay.nextLsn ≤ sc'.replay.nextLsn ∧
      (∀ r ∈ rs, r.lsn.val < sc'.replay.nextLsn) ∧ sc'.segments = sc.segments ∧
      sc'.current = (segs.getLast?.map Prod.fst).getD sc.current := by
  induction hw generalizing p sc with
  | nil =>
    cases h
    exact ⟨sc, rfl, hst, le_refl _, by simp, rfl, rfl⟩
  | @cons segs rs' n rs hw ih =>
    rw [live_append] at h
    obtain ⟨m, h1, h2⟩ := h.split
    obtain ⟨sc1, hone, hat1, hcur1, hle1, hall1, hsegs1⟩ :=
      replaySegment_of_replays h1 hst (walFraming WalError).cut_nil n
    obtain ⟨sc2, hrest, hat2, hle2, hall2, hsegs2, hcur2⟩ := ih h2 sc1 hat1
    rw [append_nil] at hone
    refine ⟨sc2, ?_, hat2, hle1.trans hle2, ?_, ?_, ?_⟩
    · rw [replaySegments, hone, ok_bind, hrest]
    · intro r hr
      rcases mem_append.1 hr with hr | hr
      · exact (hall1 r hr).trans_le hle2
      · exact hall2 r hr
    · rw [hsegs2, hsegs1, if_pos rfl]
    · rw [hcur2, hcur1]
      cases segs with
      | nil => rfl
      | cons s segs => simp [List.getLast?_cons]

theorem replaySegments_append (c : Option U64) (sc : SegmentScan) (segs segs' : List (Nat × Bytes)) :
    replaySegments H c sc (segs ++ segs') = replaySegments H c sc segs >>= fun sc => replaySegments H c sc segs' := by
  induction segs generalizing sc with
  | nil => rfl
  | cons s segs ih =>
    simp only [cons_append, replaySegments]
    cases replaySegment H c sc s.1 s.2 with
    | error e => rfl
    | ok sc' => exact ih sc'

/-- The whole log: what a crash left behind the last record is cut off. -/
theorem replaySegments_of_torn {segments : Segments} {st : Replay} (hw : Torn segments.toList rs)
    (h : Replays H p (live c rs) q) (hst : st.At p) (cur bytes : Nat) :
    ∃ sc', replaySegments H c ⟨st, segments, cur, bytes⟩ segments.toList = .ok sc' ∧ sc'.replay.At q ∧
      st.nextLsn ≤ sc'.replay.nextLsn ∧ (∀ r ∈ rs, r.lsn.val < sc'.replay.nextLsn) ∧
      Whole sc'.segments.toList rs ∧ ∀ n ∈ sc'.segments, n ≤ sc'.current := by
  rcases hw with hw | ⟨init, n, rs₀, rs₁, tail, hsegs, hinit, rfl, htail⟩
  · obtain ⟨sc', hrun, hat, hle, hall, hsame, hcur⟩ :=
      replaySegments_of_whole hw h ⟨st, segments, cur, bytes⟩ hst
    refine ⟨sc', hrun, hat, hle, hall, ?_, ?_⟩
    · rwa [hsame]
    · rw [hsame, hcur]
      intro k hk
      rcases eq_nil_or_concat' segments.toList with hnil | ⟨l, ⟨n, bytes'⟩, hlast⟩
      · obtain ⟨v, hv⟩ := mem_iff.1 hk
        rw [← mem_toList, hnil] at hv
        cases hv
      · have hmax := (le_of_toList_eq_append hlast).2 k hk
        rw [hlast]
        simpa using hmax
  · rw [live_append] at h
    obtain ⟨m, h1, h2⟩ := h.split
    obtain ⟨sc1, hrun1, hat1, hle1, hall1, hsame1, _⟩ :=
      replaySegments_of_whole hinit h1 ⟨st, segments, cur, bytes⟩ hst
    obtain ⟨sc2, hrun2, hat2, hcur2, hle2, hall2, hsegs2⟩ := replaySegment_of_replays h2 hat1 htail n
    obtain ⟨hget, hmax⟩ := le_of_toList_eq_append hsegs
    have herase : (segments.erase n).toList = init := by
      have hsplit := toList_eq_erase_last hmax
      rw [hget, hsegs] at hsplit
      exact (append_left_inj _).1 hsplit.symm
    refine ⟨sc2, ?_, hat2, hle1.trans hle2, ?_, ?_, ?_⟩
    · rw [hsegs, replaySegments_append, hrun1, ok_bind, replaySegments, hrun2]
      rfl
    · intro r hr
      rcases mem_append.1 hr with hr | hr
      · exact (hall1 r hr).trans_le hle2
      · exact hall2 r hr
    · rw [hsegs2, hsame1]
      split
      · next hnil =>
        rw [hsegs, hnil, append_nil]
        exact hinit.append (.single n rs₁)
      · rw [toList_insert_last hmax, herase]
        exact hinit.append (.single n rs₁)
    · rw [hsegs2, hsame1, hcur2]
      intro k hk
      split at hk
      · exact hmax k hk
      · rcases mem_insert.1 hk with rfl | hk
        · exact le_refl _
        · exact hmax k hk

end Mutiny.Substrate
