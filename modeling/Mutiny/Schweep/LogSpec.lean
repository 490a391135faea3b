import Mutiny.Schweep.Log
import Mutiny.Lib.SortedMap

/- What a log recovers.

   The segment of a clean run is the frames of some records and at most one cut
   frame behind them. The index an open builds, and the one a running log keeps,
   are both the fold of those records, so an append or a seal keeps the two the
   same by one step of the fold. The epochs and pending batches of the log are
   then those its whole frames describe (`Log.recovers`), and `openLog_recovers`
   is the statement over runs. Where a write lands behind a cut frame the next
   open stops in front of it (`acked_lost_behind_cut_frame`). -/
namespace Mutiny.Schweep
open Mutiny.Lib LogWorld Contents Record Log List

/-! The fold of the records. -/

variable {catalog : Catalog} {rs : List Record}

def Log.index (catalog : Catalog) (rs : List Record) : Log :=
  rs.foldl (fun log r => log.replayRecord r (recordFraming.frame r).length) (Log.fresh catalog)

/-- What the records say was appended and sealed. -/
def Contents.record (c : Contents) : Record → Contents
  | .append b => c.push b
  | .sealEpoch _ => c.close

def Contents.of (rs : List Record) : Contents := rs.foldl Contents.record .empty

def Record.batch : Record → Option LogBatch
  | .append b => some b
  | .sealEpoch _ => none

theorem Log.index_concat (catalog : Catalog) (rs : List Record) (r : Record) :
    index catalog (rs ++ [r]) =
      (index catalog rs).replayRecord r (recordFraming.frame r).length := by
  simp [index]

theorem Contents.of_concat (rs : List Record) (r : Record) : of (rs ++ [r]) = (of rs).record r := by
  simp [of]

theorem Contents.all_push (c : Contents) (b : LogBatch) : (c.push b).all = c.all ++ [b] := by
  simp [all, push]

theorem Contents.all_close (c : Contents) : c.close.all = c.all := by
  simp [all, close]

theorem Contents.all_of (rs : List Record) : (of rs).all = rs.filterMap batch := by
  induction rs using List.reverseRecOn with
  | nil => rfl
  | append_singleton rs r ih =>
    rw [of_concat, filterMap_append, ← ih]
    cases r with
    | append b => exact all_push _ b
    | sealEpoch epoch => simp [record, all_close, batch]

theorem Log.mem_dedup_index {token : String} :
    token ∈ (index catalog rs).dedup ↔ ∃ b ∈ rs.filterMap batch, b.dedupToken = token := by
  induction rs using List.reverseRecOn with
  | nil => simp [index, fresh]
  | append_singleton rs r ih =>
    rw [index_concat, filterMap_append]
    cases r with
    | append b =>
      simp only [replayRecord, batch, mem_append, SortedMap.mem_insert, ih]
      constructor
      · rintro (rfl | ⟨b', hb', rfl⟩)
        · exact ⟨b, Or.inr (by simp [batch]), rfl⟩
        · exact ⟨b', Or.inl hb', rfl⟩
      · rintro ⟨b', hb' | hb', rfl⟩
        · exact Or.inr ⟨b', hb', rfl⟩
        · obtain rfl : b' = b := by simpa [batch] using hb'
          exact Or.inl rfl
    | sealEpoch epoch =>
      simpa [replayRecord, batch] using ih

/-- Where the index says epochs are. -/
structure Spans (rs : List Record) (log : Log) (c : Contents) : Prop where
  sealed : log.sealed.length = c.epochs.length
  span : ∀ (i : Nat) (span : EpochSpan) (batches : List LogBatch), log.sealed[i]? = some span → c.epochs[i]? = some batches →
    ∃ before after, rs = before ++ batches.map Record.append ++ after ∧
      span.start = (recordFraming.frames before).length ∧
      span.stop = (recordFraming.frames (before ++ batches.map Record.append)).length
  pending : log.pending = c.pending
  running : ∃ before, rs = before ++ c.pending.map Record.append ∧
    log.epochStart = (recordFraming.frames before).length
  length : log.segmentLen = (recordFraming.frames rs).length

theorem Log.index_spans (catalog : Catalog) (rs : List Record) : Spans rs (Log.index catalog rs) (Contents.of rs) := by
  induction rs using List.reverseRecOn with
  | nil => exact ⟨rfl, by simp [Log.index, Log.fresh], rfl, ⟨[], rfl, rfl⟩, rfl⟩
  | append_singleton rs r ih =>
    rw [Log.index_concat, Contents.of_concat]
    obtain ⟨before, hbefore, hstart⟩ := ih.running
    have hlen : (Log.index catalog rs).segmentLen + (recordFraming.frame r).length =
        (recordFraming.frames (rs ++ [r])).length := by
      simp [ih.length]
    cases r with
    | append b =>
      refine ⟨ih.sealed, fun i span batches hs hb => ?_, ?_, ⟨before, ?_, hstart⟩, hlen⟩
      · obtain ⟨pre, post, hrs, h1, h2⟩ := ih.span i span batches hs hb
        exact ⟨pre, post ++ [.append b], by rw [hrs]; simp, h1, h2⟩
      · simp [Log.replayRecord, Contents.record, Contents.push, ih.pending]
      · conv_lhs => rw [hbefore]
        simp [Contents.record, Contents.push]
    | sealEpoch epoch =>
      refine ⟨?_, fun i span batches hs hb => ?_, rfl, ⟨rs ++ [Record.sealEpoch epoch], by
        simp [Contents.record, Contents.close], hlen⟩, hlen⟩
      · simp [Log.replayRecord, Contents.record, Contents.close, ih.sealed]
      · -- an epoch sealed before, or the one this record closes
        simp only [Log.replayRecord, Contents.record, Contents.close] at hs hb
        by_cases hi : i < (Log.index catalog rs).sealed.length
        · rw [List.getElem?_append_left hi] at hs
          rw [List.getElem?_append_left (ih.sealed ▸ hi)] at hb
          obtain ⟨pre, post, hrs, h1, h2⟩ := ih.span i span batches hs hb
          exact ⟨pre, post ++ [.sealEpoch epoch], by rw [hrs]; simp, h1, h2⟩
        · obtain rfl : i = (Log.index catalog rs).sealed.length := by
            have := (List.getElem?_eq_some_iff.1 hs).1
            simp at this
            omega
          rw [List.getElem?_concat_length] at hs
          rw [ih.sealed, List.getElem?_concat_length] at hb
          cases hs
          cases hb
          exact ⟨before, [.sealEpoch epoch], by rw [← hbefore], hstart, by rw [← hbefore]; exact ih.length⟩

/-! One event. -/

variable {tail : Bytes}

/-- The segment is whole frames and a cut one, and the log their index. -/
structure LogWorld.Holds (catalog : Catalog) (w : LogWorld) (rs : List Record) (tail : Bytes) : Prop where
  segment : w.segment = recordFraming.frames rs ++ tail
  fits : ∀ r ∈ rs, recordFraming.Fits r
  cut : recordFraming.Cut tail
  contents : w.contents = Contents.of rs
  acked : w.acked.Sublist (rs.filterMap Record.batch)
  tokens : ((rs.filterMap Record.batch).map LogBatch.dedupToken).Nodup
  log : ∀ log ∈ w.log, log = Log.index catalog rs

theorem sealEpoch_fits (epoch : UInt64) : recordFraming.Fits (.sealEpoch epoch) :=
  recordFraming_fits.2 (by simp [encode, putU64])

theorem Log.openLog_frames (catalog : Catalog) (hfits : ∀ r ∈ rs, recordFraming.Fits r)
    (hcut : recordFraming.Cut tail) :
    openLog catalog (recordFraming.frames rs ++ tail) = .ok (index catalog rs) := by
  rw [openLog, Framing.scan_frames _ _ _ hfits (hcut.read ⟨_, sealEpoch_fits 0⟩), Framing.fold_pure]
  rfl

theorem Log.admitBatch_some {log : Log} {b : LogBatch} {hash : UInt64} (h : log.admitBatch b = .ok (some hash)) :
    hash = (Record.append b).contentHash ∧ b.dedupToken ∉ log.dedup := by
  unfold admitBatch at h
  split at h
  · cases h
  split at h
  · cases h
  dsimp only at h
  split at h
  · split at h <;> cases h
  · next hnone =>
    cases h
    refine ⟨rfl, fun hmem => ?_⟩
    obtain ⟨v, hv⟩ := SortedMap.mem_iff.1 hmem
    rw [hnone] at hv
    cases hv

section Step

variable {catalog : Catalog} {w : LogWorld} {rs : List Record} {tail : Bytes}

theorem LogWorld.Holds.tail_eq_nil (h : w.Holds catalog rs tail)
    (hlen : w.segment.length = (index catalog rs).segmentLen) : tail = [] := by
  rw [h.segment, (index_spans catalog rs).length, length_append] at hlen
  exact length_eq_zero_iff.1 (by omega)

variable {r : Record}

section

variable (h : w.Holds catalog rs []) (hr : recordFraming.Fits r)
  (hfresh : ∀ b, r.batch = some b → b.dedupToken ∉ (index catalog rs).dedup)
include h hr hfresh

theorem LogWorld.Holds.write (log' : Option Log)
    (hlog : ∀ log ∈ log', log = (index catalog rs).replayRecord r (recordFraming.frame r).length)
    {acked' : List LogBatch} (hacked : acked' = w.acked ∨ ∃ b, r = .append b ∧ acked' = w.acked ++ [b]) :
    Holds catalog ⟨w.segment ++ recordFraming.frame r, log', w.contents.record r, acked'⟩ (rs ++ [r]) [] := by
  refine ⟨by simp [h.segment], ?_, Framing.cut_nil _, ?_, ?_, ?_, ?_⟩
  · intro r' hr'
    rcases mem_append.1 hr' with hr' | hr'
    · exact h.fits r' hr'
    · rwa [mem_singleton.1 hr']
  · rw [of_concat, h.contents]
  · rw [filterMap_append]
    rcases hacked with rfl | ⟨b, rfl, rfl⟩
    · exact h.acked.trans (sublist_append_left _ _)
    · exact h.acked.append (List.Sublist.refl [b])
  · have hone : (([r].filterMap batch).map LogBatch.dedupToken).Nodup := by
      cases r with
      | append b => exact nodup_singleton _
      | sealEpoch epoch => exact nodup_nil
    rw [filterMap_append, map_append, nodup_append']
    refine ⟨h.tokens, hone, fun token htoken hnew => ?_⟩
    cases r with
    | sealEpoch epoch => simp [batch] at hnew
    | append b =>
      obtain rfl : token = b.dedupToken := by simpa [batch] using hnew
      obtain ⟨b', hb', hbt⟩ := mem_map.1 htoken
      exact hfresh b rfl (mem_dedup_index.2 ⟨b', hb', hbt⟩)
  · intro log hmem
    rw [hlog log hmem, index_concat]

theorem LogWorld.Holds.torn (written : Nat) :
    ∃ rs' tail', (w.torn (recordFraming.frame r) written (w.contents.record r)).Holds catalog rs' tail' := by
  unfold LogWorld.torn
  by_cases hwhole : (recordFraming.frame r).length ≤ written
  · rw [if_pos hwhole, take_of_length_le hwhole]
    exact ⟨_, _, h.write hr hfresh none (by simp) (Or.inl rfl)⟩
  · rw [if_neg hwhole]
    refine ⟨rs, (recordFraming.frame r).take written, ?_, h.fits, Framing.cut_take _ hr (by omega), h.contents,
      h.acked, h.tokens, by simp⟩
    simp [h.segment]

end

theorem LogWorld.Holds.down (h : w.Holds catalog rs tail) : Holds catalog { w with log := none } rs tail :=
  ⟨h.segment, h.fits, h.cut, h.contents, h.acked, h.tokens, by simp⟩

/-- Every clean event keeps the invariant. -/
theorem LogWorld.Holds.step (h : w.Holds catalog rs tail) (e : LogEvent) (hclean : w.Clean e) :
    ∃ rs' tail', (w.step catalog e).Holds catalog rs' tail' := by
  cases e with
  | crash => exact ⟨rs, tail, h.down⟩
  | reopen =>
    refine ⟨rs, tail, h.segment, h.fits, h.cut, h.contents, h.acked, h.tokens, ?_⟩
    intro log hlog
    have hopen := Log.openLog_frames catalog h.fits h.cut
    rw [← h.segment] at hopen
    simp only [LogWorld.step, hopen, Except.toOption, Option.mem_def, Option.some.injEq] at hlog
    exact hlog.symm
  | append b =>
    cases hlog : w.log with
    | none => exact ⟨rs, tail, by simpa [LogWorld.step, hlog] using h⟩
    | some log =>
      have hindex := h.log log hlog
      have hsame : ({ w with log := some log } : LogWorld) = w := by rw [← hlog]
      cases hadmit : log.admitBatch b with
      | error err => exact ⟨rs, tail, by simpa only [LogWorld.step, hlog, Log.append, hadmit, hsame] using h⟩
      | ok o => cases o with
        | none => exact ⟨rs, tail, by simpa only [LogWorld.step, hlog, Log.append, hadmit, hsame] using h⟩
        | some hash =>
          obtain ⟨hlen, hfits⟩ := hclean log hlog (by simp [Log.writes, hadmit])
          obtain ⟨hhash, hfresh⟩ := Log.admitBatch_some hadmit
          rw [hindex] at hlen
          obtain rfl := h.tail_eq_nil hlen
          have hw := h.write (r := .append b) (recordFraming_fits.2 hfits)
            (fun b' hb' => by cases hb'; rwa [← hindex]) (some ((Log.index catalog rs).replayRecord
              (.append b) (recordFraming.frame (.append b)).length)) (by simp) (Or.inr ⟨b, rfl, rfl⟩)
          refine ⟨rs ++ [.append b], [], ?_⟩
          simp only [LogWorld.step, hlog, Log.append, hadmit, hhash]
          rw [hindex]
          exact hw
  | appendCrash b written =>
    cases hlog : w.log with
    | none => exact ⟨rs, tail, by simpa [LogWorld.step, hlog] using h⟩
    | some log =>
      have hindex := h.log log hlog
      cases hadmit : log.admitBatch b with
      | error err => exact ⟨rs, tail, by simpa [LogWorld.step, hlog, hadmit] using h.down⟩
      | ok o => cases o with
        | none => exact ⟨rs, tail, by simpa [LogWorld.step, hlog, hadmit] using h.down⟩
        | some hash =>
          obtain ⟨hlen, hfits⟩ := hclean log hlog (by simp [Log.writes, hadmit])
          obtain ⟨_, hfresh⟩ := Log.admitBatch_some hadmit
          rw [hindex] at hlen
          obtain rfl := h.tail_eq_nil hlen
          have ht := h.torn (r := .append b) (recordFraming_fits.2 hfits)
            (fun b' hb' => by cases hb'; rwa [← hindex]) written
          simp only [LogWorld.step, hlog, hadmit]
          exact ht
  | sealEpoch =>
    cases hlog : w.log with
    | none => exact ⟨rs, tail, by simpa [LogWorld.step, hlog] using h⟩
    | some log =>
      have hindex := h.log log hlog
      have hlen := hclean log hlog
      rw [hindex] at hlen
      obtain rfl := h.tail_eq_nil hlen
      have hw := h.write (r := log.sealRecord) (sealEpoch_fits _) (fun b hb => by cases hb)
        (some ((Log.index catalog rs).replayRecord log.sealRecord
          (recordFraming.frame log.sealRecord).length)) (by simp) (Or.inl rfl)
      refine ⟨rs ++ [log.sealRecord], [], ?_⟩
      simp only [LogWorld.step, hlog, Log.sealEpoch]
      rw [hindex] at hw ⊢
      exact hw
  | sealCrash written =>
    cases hlog : w.log with
    | none => exact ⟨rs, tail, by simpa [LogWorld.step, hlog] using h⟩
    | some log =>
      have hlen := hclean log hlog
      rw [h.log log hlog] at hlen
      obtain rfl := h.tail_eq_nil hlen
      have ht := h.torn (r := log.sealRecord) (sealEpoch_fits _) (fun b hb => by cases hb) written
      simp only [LogWorld.step, hlog]
      exact ht

end Step

theorem LogWorld.Holds.run {w : LogWorld} (h : w.Holds catalog rs tail) {events : List LogEvent}
    (hclean : CleanRun catalog w events) :
    ∃ rs' tail', (w.run catalog events).Holds catalog rs' tail' := by
  have hstep : ∀ (w : LogWorld) e, w.Clean e → (∃ rs tail, w.Holds catalog rs tail) →
      ∃ rs tail, (w.step catalog e).Holds catalog rs tail := fun w e he ⟨rs, tail, h⟩ => h.step e he
  exact Along.keeps hclean ⟨rs, tail, h⟩ hstep

theorem LogWorld.holds_start (catalog : Catalog) : start.Holds catalog [] [] :=
  ⟨rfl, by simp, Framing.cut_nil _, rfl, List.Sublist.refl [], by simp, by simp [start]⟩

/-! Reading an epoch back. -/

variable {batches : List LogBatch}

theorem Log.fold_spanRecord (acc batches : List LogBatch) :
    recordFraming.fold Log.spanRecord acc (batches.map Record.append) = .ok (acc ++ batches) := by
  induction batches generalizing acc with
  | nil => simp [Framing.fold]
  | cons b rest ih => simp [Framing.fold, spanRecord, ih]

theorem Log.readSpan_frames {before after : List Record} (hfits : ∀ b ∈ batches, recordFraming.Fits (.append b))
    {span : EpochSpan} (hstart : span.start = (recordFraming.frames before).length)
    (hstop : span.stop = (recordFraming.frames (before ++ batches.map Record.append)).length) :
    Log.readSpan (recordFraming.frames (before ++ batches.map Record.append ++ after) ++ tail) span = .ok batches := by
  have hlen : span.stop - span.start = (recordFraming.frames (batches.map Record.append)).length := by
    rw [hstart, hstop, Framing.frames_append, List.length_append, Nat.add_sub_cancel_left]
  unfold Log.readSpan
  split
  · next hzero =>
    -- frames are not empty, so a span of no bytes has no batches
    cases batches with
    | nil => rfl
    | cons b rest =>
      have := Framing.frame_pos recordFraming (hfits b List.mem_cons_self)
      rw [hzero, List.map_cons, Framing.frames_cons, List.length_append] at hlen
      omega
  · have hbytes : ((recordFraming.frames (before ++ batches.map Record.append ++ after) ++ tail).drop
        span.start).take (span.stop - span.start) = recordFraming.frames (batches.map Record.append) ++ [] := by
      rw [hlen, hstart, Framing.frames_append, Framing.frames_append, List.append_assoc, List.append_assoc,
        List.drop_left, List.take_left, List.append_nil]
    have hfits' : ∀ r ∈ batches.map Record.append, recordFraming.Fits r := by
      intro r hr
      obtain ⟨b, hb, rfl⟩ := List.mem_map.1 hr
      exact hfits b hb
    rw [hbytes, Framing.scan_frames _ _ _ hfits' ((Framing.cut_nil _).read ⟨_, sealEpoch_fits 0⟩)]
    rw [Log.fold_spanRecord]
    rfl

/-- An index over whole frames reads its epochs back. -/
theorem Log.epoch_index (hfits : ∀ r ∈ rs, recordFraming.Fits r) {n : Nat}
    (hn : (of rs).epochs[n]? = some batches) :
    (index catalog rs).epoch (recordFraming.frames rs ++ tail) (n + 1) = .ok batches := by
  have hspans := index_spans catalog rs
  have hlt : n < (index catalog rs).sealed.length := by
    rw [hspans.sealed]
    exact (List.getElem?_eq_some_iff.1 hn).1
  obtain ⟨span, hspan⟩ : ∃ span, (index catalog rs).sealed[n]? = some span :=
    ⟨_, List.getElem?_eq_getElem hlt⟩
  obtain ⟨before, after, hrs, hstart, hstop⟩ := hspans.span n span batches hspan hn
  unfold epoch
  rw [if_neg (by unfold sealedEpoch; omega), Nat.add_sub_cancel, hspan]
  have hb : ∀ b ∈ batches, recordFraming.Fits (.append b) := by
    intro b hb
    refine hfits _ ?_
    rw [hrs]
    simp [hb]
  conv_lhs => rw [hrs]
  exact readSpan_frames hb hstart hstop

/-! Runs. -/

/-- Over every clean run, the log recovered at its end holds every batch that was
    acknowledged: each once, in the epoch it was sealed into or pending, in
    append order. -/
theorem openLog_recovers (catalog : Catalog) (events : List LogEvent)
    (hclean : LogWorld.CleanRun catalog .start events) :
    ∃ log, Log.openLog catalog (LogWorld.start.run catalog events).segment = .ok log ∧
      log.sealedEpoch = (LogWorld.start.run catalog events).contents.epochs.length ∧
      (∀ n batches, (LogWorld.start.run catalog events).contents.epochs[n]? = some batches →
        log.epoch (LogWorld.start.run catalog events).segment (n + 1) = .ok batches) ∧
      log.pending = (LogWorld.start.run catalog events).contents.pending ∧
      (LogWorld.start.run catalog events).acked.Sublist (LogWorld.start.run catalog events).contents.all ∧
      ((LogWorld.start.run catalog events).contents.all.map LogBatch.dedupToken).Nodup := by
  obtain ⟨rs, tail, h⟩ := (holds_start catalog).run hclean
  have hspans := index_spans catalog rs
  rw [h.segment, h.contents, all_of]
  exact ⟨index catalog rs, openLog_frames catalog h.fits h.cut, hspans.sealed,
    fun n batches hn => epoch_index h.fits hn, hspans.pending, h.acked, h.tokens⟩

def logCatalog : Catalog := (∅ : Catalog).insert "t" ⟨[⟨"x", .int64, false⟩], by simp, by simp⟩

def logBatch (token : String) (x : I64) : LogBatch := ⟨"s", token, "t", [([.int x], I64.one)]⟩

/-- An epoch, an append cut after three bytes, and an open. -/
def tornTail : List LogEvent :=
  [.reopen, .append (logBatch "a" I64.zero), .sealEpoch, .append (logBatch "b" I64.one),
    .appendCrash (logBatch "c" I64.one) 3, .reopen]

theorem openLog_recovers_tornTail : ∃ log,
    Log.openLog logCatalog (LogWorld.start.run logCatalog tornTail).segment = .ok log ∧
      log.epoch (LogWorld.start.run logCatalog tornTail).segment 1 = .ok [logBatch "a" I64.zero] ∧
      log.pending = [logBatch "b" I64.one] := by
  have hclean : CleanRun logCatalog .start tornTail := by decide +kernel
  have hcontents : (start.run logCatalog tornTail).contents =
      ⟨[[logBatch "a" I64.zero]], [logBatch "b" I64.one]⟩ := by decide +kernel
  obtain ⟨log, hopen, _, hepoch, hpending, _⟩ := openLog_recovers logCatalog tornTail hclean
  rw [hcontents] at hepoch hpending
  exact ⟨log, hopen, hepoch 0 _ rfl, hpending⟩

/-- A batch acknowledged after an open that found part of a frame. -/
def appendBehindTornTail : List LogEvent :=
  [.reopen, .appendCrash (logBatch "a" I64.zero) 1, .reopen, .append (logBatch "b" I64.one), .crash]

/-- The batch is acknowledged, and the next open does not have it. -/
theorem acked_lost_behind_cut_frame :
    (LogWorld.start.run logCatalog appendBehindTornTail).acked = [logBatch "b" I64.one] ∧
      ∃ log, Log.openLog logCatalog (LogWorld.start.run logCatalog appendBehindTornTail).segment = .ok log ∧
        log.sealedEpoch = 0 ∧ log.pending = [] := by
  refine ⟨by decide +kernel, ?_⟩
  have htest : (match openLog logCatalog (start.run logCatalog appendBehindTornTail).segment with
      | .ok log => decide (log.sealedEpoch = 0 ∧ log.pending = [])
      | .error _ => false) = true := by decide +kernel
  cases hopen : openLog logCatalog (start.run logCatalog appendBehindTornTail).segment with
  | error e => simp [hopen] at htest
  | ok log =>
    rw [hopen] at htest
    exact ⟨log, rfl, of_decide_eq_true htest⟩

end Mutiny.Schweep
