import Mutiny.Lib.Coding
import Mutiny.Loom.Refs

/- Crash safety of the ref store.

   `replay_replay`: a batch of edits replayed on what it left changes nothing, so
   a log that outlives its compaction whole is harmless. It is the whole log that
   this holds for, not a front of one, and nothing but a whole log may be appended
   to: `framesDecode` stops at the first frame that is not whole and never sees
   what stands behind it.

   `load_keeps_edits` is the run result. Over every run in which an `apply` finds
   no torn frame at the end of the log, an interrupted append stops inside its
   first frame or at its end, and an interrupted truncation removes all of the log
   or none, `load` returns the refs that the acknowledged batches make, with each
   interrupted batch all in or all out. The three runs behind it leave one of
   these out each. -/
namespace Mutiny.Loom
open Mutiny.Lib Mutiny.Substrate SortedMap RefEdit RefFiles Refs List
open Coding (mark text digest)

/-! Replaying a batch on what it left. -/

section Replay

/-- What an edit does to one branch, one tag, one commit. -/
def RefEdit.onBranch (name : String) (old : Option CommitId) : RefEdit → Option CommitId
  | .setHead b id => if b = name then some id else old
  | .createBranch b id => if b = name then some id else old
  | .removeBranch b => if b = name then none else old
  | _ => old

def RefEdit.onTag (name : String) (old : Option CommitId) : RefEdit → Option CommitId
  | .setTag t id => if t = name then some id else old
  | .removeTag t => if t = name then none else old
  | _ => old

def RefEdit.onCommit (commit : CommitId) (old : Option (List CommitId)) : RefEdit → Option (List CommitId)
  | .recordCommit c parents => if c = commit then some parents else old
  | .addParent c parent => if c = commit then some (withParent parent old) else old
  | _ => old

variable (r : Refs) (edits : List RefEdit)

theorem branches_applyEdit (edit : RefEdit) (name : String) :
    (r.applyEdit edit).branches[name]? = edit.onBranch name r.branches[name]? := by
  cases edit <;> simp [Refs.applyEdit, RefEdit.onBranch, SortedMap.getElem?_insert, SortedMap.getElem?_erase]

theorem tags_applyEdit (edit : RefEdit) (name : String) :
    (r.applyEdit edit).tags[name]? = edit.onTag name r.tags[name]? := by
  cases edit <;> simp [Refs.applyEdit, RefEdit.onTag, SortedMap.getElem?_insert, SortedMap.getElem?_erase]

theorem commits_applyEdit (edit : RefEdit) (commit : CommitId) :
    (r.applyEdit edit).commits[commit]? = edit.onCommit commit r.commits[commit]? := by
  cases edit with
  | addParent c parent =>
    simp only [Refs.applyEdit, RefEdit.onCommit, SortedMap.getElem?_insert]
    by_cases h : c = commit
    · simp [h]
    · simp [h]
  | _ => simp [Refs.applyEdit, RefEdit.onCommit, SortedMap.getElem?_insert]

theorem formatVersion_replay : (r.replay edits).formatVersion = r.formatVersion := by
  induction edits generalizing r with
  | nil => rfl
  | cons e edits ih =>
    have hstep : (r.applyEdit e).formatVersion = r.formatVersion := by cases e <;> rfl
    rw [replay, foldl_cons]
    exact (ih (r.applyEdit e)).trans hstep

/-- Whatever reads one cell of the refs sees the edits of that cell in turn. -/
theorem replay_cell {γ : Type} (cell : Refs → γ) (on : γ → RefEdit → γ)
    (hcell : ∀ r e, cell (r.applyEdit e) = on (cell r) e) : cell (r.replay edits) = edits.foldl on (cell r) := by
  induction edits generalizing r with
  | nil => rfl
  | cons e edits ih =>
    rw [foldl_cons, ← hcell]
    exact ih (r.applyEdit e)

theorem foldl_eq_of_forgets {γ δ : Type} {on : γ → δ → γ} {l : List δ} (h : ∃ e ∈ l, ∀ x y, on x e = on y e)
    (x y : γ) : l.foldl on x = l.foldl on y := by
  induction l generalizing x y with
  | nil =>
    obtain ⟨e, he, _⟩ := h
    cases he
  | cons a l ih =>
    obtain ⟨e, he, hforgets⟩ := h
    rcases mem_cons.1 he with rfl | he
    · rw [foldl_cons, foldl_cons, hforgets x y]
    · exact ih ⟨e, he, hforgets⟩ _ _

theorem foldl_eq_self {γ δ : Type} {on : γ → δ → γ} {l : List δ} {x : γ} (h : ∀ e ∈ l, on x e = x) :
    l.foldl on x = x := by
  induction l with
  | nil => rfl
  | cons a l ih =>
    obtain ⟨ha, hl⟩ := forall_mem_cons.1 h
    rw [foldl_cons, ha]
    exact ih hl

theorem onBranch_cases (name : String) (e : RefEdit) :
    (∀ x y, e.onBranch name x = e.onBranch name y) ∨ ∀ x, e.onBranch name x = x := by
  cases e <;> simp only [onBranch] <;> (try split) <;> simp

theorem onTag_cases (name : String) (e : RefEdit) :
    (∀ x y, e.onTag name x = e.onTag name y) ∨ ∀ x, e.onTag name x = x := by
  cases e <;> simp only [onTag] <;> (try split) <;> simp

/-- Steps that, made once, stay made until one forgets what was there: all of
    them made again change nothing. -/
theorem foldl_foldl {γ δ : Type} {on : γ → δ → γ} (l : List δ)
    (h : ∀ e, (∀ x y, on x e = on y e) ∨ (∀ x, on (on x e) e = on x e) ∧
      ∀ e' x, (∀ x y, on x e' = on y e') ∨ (on x e = x → on (on x e') e = on x e')) (x : γ) :
    l.foldl on (l.foldl on x) = l.foldl on x := by
  by_cases hforgets : ∃ e ∈ l, ∀ x y, on x e = on y e
  · exact foldl_eq_of_forgets hforgets _ _
  · refine foldl_eq_self (fun e he => ?_)
    obtain ⟨hmade, hkeep⟩ := (h e).resolve_left (fun hf => hforgets ⟨e, he, hf⟩)
    obtain ⟨before, after, rfl⟩ := append_of_mem he
    rw [foldl_append, foldl_cons]
    refine List.foldlRecOn after on (motive := fun x => on x e = x) (hmade _) (fun x hx e' he' => ?_)
    exact (hkeep e' x).resolve_left (fun hf => hforgets ⟨e', by simp [he'], hf⟩) hx

theorem onCommit_cases (commit : CommitId) (e : RefEdit) :
    (∀ x y, e.onCommit commit x = e.onCommit commit y) ∨
      (∃ parent, ∀ x, e.onCommit commit x = some (withParent parent x)) ∨ ∀ x, e.onCommit commit x = x := by
  cases e with
  | addParent c parent =>
    by_cases hc : c = commit
    · exact .inr (.inl ⟨parent, fun x => if_pos hc⟩)
    · exact .inr (.inr fun x => if_neg hc)
  | _ =>
    simp only [onCommit]
    (try split) <;> simp

theorem withParent_of_mem {parent : CommitId} {parents : List CommitId} (h : parent ∈ parents) :
    withParent parent (some parents) = parents := by
  simp [withParent, h]

theorem mem_withParent (parent : CommitId) (old : Option (List CommitId)) : parent ∈ withParent parent old := by
  unfold withParent
  by_cases h : parent ∈ old.getD [] <;> simp [h]

theorem subset_withParent (parent : CommitId) (old : Option (List CommitId)) : old.getD [] ⊆ withParent parent old := by
  unfold withParent
  by_cases h : parent ∈ old.getD [] <;> simp [h]

/-- A batch replayed on what it left changes nothing. -/
theorem replay_replay : (r.replay edits).replay edits = r.replay edits := by
  have hbranch : ∀ (r : Refs) (name : String),
      (r.replay edits).branches[name]? = edits.foldl (fun x e => e.onBranch name x) r.branches[name]? :=
    fun r name => replay_cell r edits (fun r => r.branches[name]?) _ (fun r e => branches_applyEdit r e name)
  have htag : ∀ (r : Refs) (name : String),
      (r.replay edits).tags[name]? = edits.foldl (fun x e => e.onTag name x) r.tags[name]? :=
    fun r name => replay_cell r edits (fun r => r.tags[name]?) _ (fun r e => tags_applyEdit r e name)
  have hcommit : ∀ (r : Refs) (commit : CommitId),
      (r.replay edits).commits[commit]? = edits.foldl (fun x e => e.onCommit commit x) r.commits[commit]? :=
    fun r commit => replay_cell r edits (fun r => r.commits[commit]?) _ (fun r e => commits_applyEdit r e commit)
  have hext : ∀ a b : Refs, a.formatVersion = b.formatVersion → a.branches = b.branches → a.tags = b.tags →
      a.commits = b.commits → a = b := by
    rintro ⟨_, _, _, _⟩ ⟨_, _, _, _⟩ rfl rfl rfl rfl
    rfl
  refine hext _ _ ?_ (ext fun name => ?_) (ext fun name => ?_) (ext fun commit => ?_)
  · rw [formatVersion_replay, formatVersion_replay]
  · rw [hbranch, hbranch]
    exact foldl_foldl edits (fun e => (onBranch_cases name e).imp_right
      (fun hid => ⟨fun x => hid _, fun e' x => .inr (fun _ => hid _)⟩)) _
  · rw [htag, htag]
    exact foldl_foldl edits (fun e => (onTag_cases name e).imp_right
      (fun hid => ⟨fun x => hid _, fun e' x => .inr (fun _ => hid _)⟩)) _
  · rw [hcommit, hcommit]
    refine foldl_foldl edits (fun e => ?_) _
    rcases onCommit_cases commit e with hset | ⟨parent, hadd⟩ | hid
    · exact .inl hset
    · -- a parent that is there stays there when another is added
      refine .inr ⟨fun x => ?_, fun e' x => ?_⟩
      · rw [hadd, hadd, withParent_of_mem (mem_withParent parent x)]
      · rcases onCommit_cases commit e' with hset | ⟨other, hadd'⟩ | hid
        · exact .inl hset
        · refine .inr (fun hx => ?_)
          rw [hadd] at hx
          rw [hadd', hadd, withParent_of_mem (subset_withParent other x ?_)]
          rw [← hx]
          exact mem_withParent parent x
        · exact .inr (fun hx => by rw [hid, hx])
    · exact .inr ⟨fun x => hid _, fun e' x => .inr (fun _ => hid _)⟩

theorem replay_any_number_of_times (r : Refs) (edits : List RefEdit) (n : Nat) :
    (fun r : Refs => r.replay edits)^[n + 1] r = r.replay edits := by
  induction n with
  | zero => rfl
  | succ n ih => rw [Function.iterate_succ_apply', ih, replay_replay]

end Replay

/-! What the files hold. -/

variable {edits : List RefEdit} {r : Refs} {C : RefCodec} {f : RefFiles} {snap base : Option Refs} {es : List RefEdit}
  {tail : Bytes}

theorem afterEdits_eq (edits : List RefEdit) (h : edits ≠ []) :
    afterEdits base edits = some ((base.getD empty).replay edits) := by
  cases edits with
  | nil => exact absurd rfl h
  | cons e edits => rfl

theorem afterEdits_append (edits edits' : List RefEdit) :
    afterEdits base (edits ++ edits') = afterEdits (afterEdits base edits) edits' := by
  cases edits with
  | nil => rfl
  | cons e edits =>
    cases edits' with
    | nil => rw [append_nil]; rfl
    | cons e' edits' =>
      rw [afterEdits_eq _ (by simp), afterEdits_eq _ (by simp), afterEdits_eq (e :: edits) (by simp)]
      simp [replay]

theorem foldl_push {δ : Type} (l acc : List δ) : l.foldl (fun acc e => acc ++ [e]) acc = acc ++ l := by
  induction l generalizing acc with
  | nil => simp
  | cons a l ih => simp [ih]

/-- The snapshot, the whole frames of the log, and what stands behind them. -/
structure Stored (C : RefCodec) (f : RefFiles) (snap : Option Refs) (es : List RefEdit) (tail : Bytes) : Prop where
  snapshot : f.readSnapshot C = .ok snap
  log : f.log.getD [] = C.framing.frames es ++ tail
  fits : ∀ e ∈ es, C.framing.Fits e
  cut : C.framing.Cut tail

theorem framesDecode_frames (hfits : ∀ e ∈ es, C.framing.Fits e) (hcut : C.framing.Cut tail) :
    framesDecode C (C.framing.frames es ++ tail) = es := by
  have hread : C.framing.read tail = .ok none := by
    rcases hcut with rfl | ⟨e, k, hfit, hk, rfl⟩
    · rfl
    · exact C.framing.read_cut hfit k hk
  unfold framesDecode
  rw [C.framing.scan_frames _ _ hfits hread, C.framing.fold_pure, foldl_push]
  rfl

theorem Stored.reconstruct (h : Stored C f snap es tail) : f.reconstruct C = .ok (afterEdits snap es) := by
  unfold RefFiles.reconstruct
  rw [h.snapshot, ok_bind, h.log, framesDecode_frames h.fits h.cut]
  cases es with
  | nil | cons e es => cases snap <;> rfl

/-- A log that is whole has nothing behind its last frame. -/
def RefFiles.Whole (C : RefCodec) (f : RefFiles) : Prop :=
  f.log.getD [] = C.framing.frames (framesDecode C (f.log.getD []))

instance : Decidable (f.Whole C) := inferInstanceAs (Decidable (_ = _))

theorem Stored.tail_eq_nil (h : Stored C f snap es tail) (hwhole : f.Whole C) : tail = [] := by
  unfold Whole at hwhole
  rw [h.log, framesDecode_frames h.fits h.cut] at hwhole
  exact append_right_eq_self.1 hwhole

theorem Stored.append (h : Stored C f snap es []) (hfits : ∀ e ∈ edits, C.framing.Fits e) :
    Stored C (f.appendLog (C.framing.frames edits)) snap (es ++ edits) [] := by
  refine ⟨h.snapshot, ?_, ?_, C.framing.cut_nil⟩
  · simp [appendLog, h.log]
  · intro e he
    rcases mem_append.1 he with he | he
    · exact h.fits e he
    · exact hfits e he

theorem Stored.appendCut (h : Stored C f snap es []) {e : RefEdit} {n : Nat} (hfit : C.framing.Fits e)
    (hn : n < (C.framing.frame e).length) :
    Stored C (f.appendLog ((C.framing.frames (e :: edits)).take n)) snap es ((C.framing.frame e).take n) := by
  refine ⟨h.snapshot, ?_, h.fits, C.framing.cut_take hfit hn⟩
  simp [appendLog, h.log, take_append_of_le_length (Nat.le_of_lt hn)]

theorem decode_encodeRefs (h : r.formatVersion ≤ refsFormatVersion) : decode C (C.encodeRefs r) = .ok r := by
  simp only [decode, C.decode_encodeRefs, Nat.not_lt.2 h, if_false]

theorem formatVersion_of_decode {bytes : Bytes} (h : decode C bytes = .ok r) : r.formatVersion ≤ refsFormatVersion := by
  unfold decode at h
  cases hdec : C.decodeRefs bytes with
  | none =>
    rw [hdec] at h
    cases h
  | some r' =>
    simp only [hdec] at h
    by_cases hv : r'.formatVersion > refsFormatVersion
    · rw [if_pos hv] at h
      cases h
    · rw [if_neg hv] at h
      cases h
      exact Nat.not_lt.1 hv

theorem formatVersion_of_snapshot (h : f.readSnapshot C = .ok snap) :
    (snap.getD empty).formatVersion ≤ refsFormatVersion := by
  have hdecoded : ∀ {bytes : Bytes}, (decode C bytes).map some = .ok snap →
      (snap.getD empty).formatVersion ≤ refsFormatVersion := by
    intro bytes hmap
    obtain ⟨r, hr, rfl⟩ := map_ok.1 hmap
    exact formatVersion_of_decode hr
  unfold readSnapshot at h
  cases hsnap : f.snapshot with
  | some bytes =>
    simp only [hsnap] at h
    exact hdecoded h
  | none =>
    cases hlegacy : f.legacy with
    | some bytes =>
      simp only [hsnap, hlegacy] at h
      exact hdecoded h
    | none =>
      simp only [hsnap, hlegacy] at h
      cases h
      exact Nat.zero_le _

/-- The new snapshot is what the log made of the old one, and the log is gone or
    there as a whole. -/
theorem Stored.compact (h : Stored C f snap es []) (hes : es ≠ []) {left : Nat}
    (hleft : left = 0 ∨ (f.log.getD []).length ≤ left) :
    ∃ es', Stored C ((f.writeSnapshot C ((afterEdits snap es).getD empty)).truncateLog left)
        (some ((afterEdits snap es).getD empty)) es' [] ∧
      afterEdits (some ((afterEdits snap es).getD empty)) es' = afterEdits snap es := by
  rw [afterEdits_eq es hes, Option.getD_some]
  have hdecode := decode_encodeRefs (C := C) (r := (snap.getD empty).replay es) (by
    rw [formatVersion_replay]
    exact formatVersion_of_snapshot h.snapshot)
  have hread : ((f.writeSnapshot C ((snap.getD empty).replay es)).truncateLog left).readSnapshot C =
      .ok (some ((snap.getD empty).replay es)) := by
    simp only [readSnapshot, truncateLog, writeSnapshot, hdecode]
    rfl
  have hlog : ((f.writeSnapshot C ((snap.getD empty).replay es)).truncateLog left).log.getD [] =
      (f.log.getD []).take left := by
    cases hf : f.log <;> simp [truncateLog, writeSnapshot, hf]
  rcases hleft with rfl | hleft
  · refine ⟨[], ⟨hread, ?_, by simp, C.framing.cut_nil⟩, rfl⟩
    rw [hlog, take_zero]
    rfl
  · refine ⟨es, ⟨hread, ?_, h.fits, C.framing.cut_nil⟩, ?_⟩
    · rw [hlog, take_of_length_le hleft, h.log]
    · rw [afterEdits_eq es hes, Option.getD_some, replay_replay]

/-! Runs. -/

/-- What a step must meet. An `apply` finds a log without a torn end, and its
    edits' lengths fit their length fields; cut short, it stops inside the first
    frame or behind the last, and it empties the log or leaves it. -/
def Clean (C : RefCodec) (w : RefWorld) : RefEvent → Prop
  | .apply edits => w.files.Whole C ∧ ∀ e ∈ edits, (C.encodeEdit e).length < 2 ^ 32
  | .applyCrash edits point => w.files.Whole C ∧ (∀ e ∈ edits, (C.encodeEdit e).length < 2 ^ 32) ∧
    match point with
    | .appending written =>
      (∀ e ∈ edits.head?, written < (C.framing.frame e).length) ∨ (C.framing.frames edits).length ≤ written
    | .truncating left => left = 0 ∨ (w.files.log.getD []).length + (C.framing.frames edits).length ≤ left
  | .crash => True
  | .reopen => True

instance (w : RefWorld) (e : RefEvent) : Decidable (Clean C w e) :=
  match e with
  | .apply _ => inferInstanceAs (Decidable (_ ∧ _))
  | .applyCrash _ (.appending _) | .applyCrash _ (.truncating _) => inferInstanceAs (Decidable (_ ∧ _ ∧ (_ ∨ _)))
  | .crash | .reopen => .isTrue trivial

abbrev CleanRun (C : RefCodec) (floor : Nat) : RefWorld → List RefEvent → Prop := Along (RefWorld.step C floor) (Clean C)

/-- What `load` returns is what the kept batches make. -/
def Holds (C : RefCodec) (base : Option Refs) (w : RefWorld) : Prop :=
  ∃ snap es tail kept, Stored C w.files snap es tail ∧ Kept w.calls kept ∧ afterEdits snap es = afterEdits base kept

variable {w : RefWorld} {kept : List RefEdit} {floor : Nat}

theorem fits_of_length (h : ∀ e ∈ edits, (C.encodeEdit e).length < 2 ^ 32) :
    ∀ e ∈ edits, C.framing.Fits e := fun e he => ⟨h e he, C.decode_encodeEdit e⟩

theorem same_append (h : afterEdits snap es = afterEdits base kept) (edits : List RefEdit) :
    afterEdits snap (es ++ edits) = afterEdits base (kept ++ edits) := by
  rw [afterEdits_append, afterEdits_append, h]

section

variable (h : Holds C base w)
include h

/-- An acknowledged batch is in, compacted or not. -/
theorem Holds.apply (hclean : Clean C w (.apply edits)) : Holds C base (w.step C floor (.apply edits)) := by
  obtain ⟨hwhole, hlen⟩ := hclean
  obtain ⟨snap, es, tail, kept, hstored, hkept, hsame⟩ := h
  obtain rfl := hstored.tail_eq_nil hwhole
  have happ := hstored.append (fits_of_length hlen)
  unfold RefWorld.step
  cases w.state with
  | none => exact ⟨snap, es, [], kept, hstored, hkept, hsame⟩
  | some st =>
    by_cases hnil : edits = []
    · subst hnil
      refine ⟨snap, es, [], kept ++ [], ?_, hkept.ok [], by rw [List.append_nil]; exact hsame⟩
      simpa only [RefFiles.apply, if_true] using hstored
    · by_cases hover : RefFiles.overgrown floor { st with logBytes := st.logBytes + (C.framing.frames edits).length }
      · obtain ⟨es', hcompact, hsame'⟩ := happ.compact (by simp [hnil]) (Or.inl (rfl : 0 = 0))
        simp only [RefFiles.apply, hnil, if_false, hover, if_true, happ.reconstruct]
        exact ⟨_, es', [], kept ++ edits, hcompact, hkept.ok edits, hsame'.trans (same_append hsame edits)⟩
      · simp only [RefFiles.apply, hnil, if_false, hover]
        exact ⟨snap, es ++ edits, [], kept ++ edits, happ, hkept.ok edits, same_append hsame edits⟩

/-- An interrupted batch is in or out. -/
theorem Holds.applyCrash {point : RefFiles.CrashPoint}
    (hclean : Clean C w (.applyCrash edits point)) : Holds C base (w.step C floor (.applyCrash edits point)) := by
  obtain ⟨hwhole, hlen, hpoint⟩ := hclean
  obtain ⟨snap, es, tail, kept, hstored, hkept, hsame⟩ := h
  obtain rfl := hstored.tail_eq_nil hwhole
  have hfits := fits_of_length hlen
  have happ := hstored.append hfits
  unfold RefWorld.step
  cases w.state with
  | none => exact ⟨snap, es, [], kept, hstored, hkept, hsame⟩
  | some st =>
    by_cases hnil : edits = []
    · subst hnil
      refine ⟨snap, es, [], kept, ?_, hkept.none [], hsame⟩
      cases point <;> simpa only [RefFiles.applyCrash, if_true] using hstored
    · cases point with
      | appending written =>
        simp only [RefFiles.applyCrash, hnil, if_false]
        rcases hpoint with hcut | hfull
        · cases edits with
          | nil => exact absurd rfl hnil
          | cons e edits =>
            exact ⟨snap, es, _, kept, hstored.appendCut (hfits e (by simp)) (hcut e rfl), hkept.none _, hsame⟩
        · rw [List.take_of_length_le hfull]
          exact ⟨snap, es ++ edits, [], kept ++ edits, happ, hkept.all edits, same_append hsame edits⟩
      | truncating left =>
        by_cases hover : RefFiles.overgrown floor { st with logBytes := st.logBytes + (C.framing.frames edits).length }
        · have hleft : left = 0 ∨ ((w.files.appendLog (C.framing.frames edits)).log.getD []).length ≤ left := by
            simpa [RefFiles.appendLog] using hpoint
          obtain ⟨es', hcompact, hsame'⟩ := happ.compact (by simp [hnil]) hleft
          simp only [RefFiles.applyCrash, hnil, if_false, hover, if_true, happ.reconstruct]
          exact ⟨_, es', [], kept ++ edits, hcompact, hkept.all edits, hsame'.trans (same_append hsame edits)⟩
        · simp only [RefFiles.applyCrash, hnil, if_false, hover]
          exact ⟨snap, es ++ edits, [], kept ++ edits, happ, hkept.all edits, same_append hsame edits⟩

theorem Holds.step {e : RefEvent} (hclean : Clean C w e) : Holds C base (w.step C floor e) := by
  cases e with
  | apply edits => exact h.apply hclean
  | applyCrash edits point => exact h.applyCrash hclean
  | crash => exact h
  | reopen => exact h

theorem Holds.run {events : List RefEvent} (hclean : CleanRun C floor w events) : Holds C base (w.run C floor events) :=
  Along.keeps hclean h (fun _ _ he h => h.step he)

end

/-- Over every run whose steps are clean, `load` returns the refs of the batches
    acknowledged, in order, with each interrupted batch all in or all out. -/
theorem load_keeps_edits (C : RefCodec) (floor : Nat) (files : RefFiles) (base : Option Refs)
    (hbase : files.readSnapshot C = .ok base) (hlog : files.log = none) (events : List RefEvent)
    (hclean : CleanRun C floor ⟨files, none, []⟩ events) :
    ∃ kept, Kept (RefWorld.run C floor ⟨files, none, []⟩ events).calls kept ∧
      (RefWorld.run C floor ⟨files, none, []⟩ events).load C = .ok (afterEdits base kept) := by
  have hinit : Holds C base ⟨files, none, []⟩ :=
    ⟨base, [], [], [], ⟨hbase, by rw [hlog]; rfl, by simp, C.framing.cut_nil⟩, .nil, rfl⟩
  obtain ⟨snap, es, tail, kept, hstored, hkept, hsame⟩ := hinit.run hclean
  refine ⟨kept, hkept, ?_⟩
  rw [RefWorld.load, hstored.reconstruct, hsame]

/-! A concrete store. -/

/-- An edit by its kind, the name it is about and the commits in it. -/
def editCoding : Coding RefEdit :=
  (mark.pair <| text.pair digest.list).of
    (fun
      | .setHead branch id => (0, branch, [id])
      | .createBranch name id => (1, name, [id])
      | .removeBranch name => (2, name, [])
      | .setTag tag id => (3, tag, [id])
      | .removeTag tag => (4, tag, [])
      | .recordCommit commit parents => (5, "", commit :: parents)
      | .addParent commit parent => (6, "", [commit, parent]))
    (fun
      | (0, branch, [id]) => some (.setHead branch id)
      | (1, name, [id]) => some (.createBranch name id)
      | (2, name, _) => some (.removeBranch name)
      | (3, tag, [id]) => some (.setTag tag id)
      | (4, tag, _) => some (.removeTag tag)
      | (5, _, commit :: parents) => some (.recordCommit commit parents)
      | (6, _, [commit, parent]) => some (.addParent commit parent)
      | _ => none)
    (fun e => by cases e <;> rfl)

def refsCoding : Coding Refs :=
  (mark.pair <| (text.map digest).pair <| (text.map digest).pair (digest.map digest.list)).of
    (fun r => (r.formatVersion, r.branches, r.tags, r.commits))
    (fun (version, branches, tags, commits) => some ⟨version, branches, tags, commits⟩)
    (fun _ => rfl)

/-- These encodings, and a checksum that adds the bytes up. -/
def plainRefCodec : RefCodec where
  encodeEdit := editCoding.put
  decodeEdit := editCoding.decode
  decode_encodeEdit := editCoding.decode_put
  encodeRefs := refsCoding.put
  decodeRefs := refsCoding.decode
  decode_encodeRefs := refsCoding.decode_put
  checksum bytes := beBytes 8 (bytes.foldl (fun n b => n + b.toNat) 0)
  length_checksum _ := length_beBytes 8 _

def noFiles : RefFiles := ⟨none, none, none⟩

/-- A run from an empty directory; the log is compacted as soon as it can be. -/
abbrev refRun (events : List RefEvent) : RefWorld := RefWorld.run plainRefCodec 0 ⟨noFiles, none, []⟩ events

/-- A batch that is compacted, and one cut in its first frame. -/
def cleanEvents : List RefEvent :=
  [.reopen, .apply [.createBranch "m" 1, .recordCommit 1 []], .applyCrash [.setHead "m" 2] (.appending 3), .reopen,
    .crash, .reopen]

theorem load_keeps_edits_cut : CleanRun plainRefCodec 0 ⟨noFiles, none, []⟩ cleanEvents ∧
    ∃ kept, Kept (refRun cleanEvents).calls kept ∧ (refRun cleanEvents).load plainRefCodec = .ok (afterEdits none kept) := by
  have hclean : CleanRun plainRefCodec 0 ⟨noFiles, none, []⟩ cleanEvents := by decide +kernel
  exact ⟨hclean, load_keeps_edits plainRefCodec 0 noFiles none rfl rfl cleanEvents hclean⟩

/-- An edit acknowledged behind a torn frame. -/
def tornTail : List RefEvent :=
  [.reopen, .applyCrash [.createBranch "m" 1] (.appending 3), .reopen, .apply [.createBranch "m" 2], .crash, .reopen]

/-- An append of two frames that stops between them. -/
def halfBatch : List RefEvent :=
  [.reopen, .applyCrash [.createBranch "m" 1, .createBranch "k" 2] (.appending 53), .reopen]

/-- A truncation that stops behind the first of two frames. -/
def halfTruncation : List RefEvent :=
  [.reopen, .applyCrash [.createBranch "m" 1, .setHead "m" 2] (.truncating 53), .reopen]

/-- A torn frame hides what is appended behind it; a batch cut between its frames
    is half in; and a front of the old log, replayed on the snapshot that already
    has all of it, takes a branch back. -/
theorem load_loses_edits :
    (∀ kept, Kept (refRun tornTail).calls kept → (refRun tornTail).load plainRefCodec ≠ .ok (afterEdits none kept)) ∧
    (∀ kept, Kept (refRun halfBatch).calls kept → (refRun halfBatch).load plainRefCodec ≠ .ok (afterEdits none kept)) ∧
    (∀ kept, Kept (refRun halfTruncation).calls kept →
      (refRun halfTruncation).load plainRefCodec ≠ .ok (afterEdits none kept)) := by
  refine ⟨?_, ?_, ?_⟩
  · have hload : (refRun tornTail).load plainRefCodec = .ok (some empty) := by decide +kernel
    have hcalls : (refRun tornTail).calls = [(true, [.createBranch "m" 2]), (false, [.createBranch "m" 1])] := by
      decide +kernel
    intro kept hkept
    rw [hcalls] at hkept
    rw [hload]
    cases hkept with
    | ok edits hrest =>
      cases hrest with
      | all edits hrest | none edits hrest =>
        cases hrest
        decide +kernel
  · have hload : (refRun halfBatch).load plainRefCodec = .ok (some (empty.replay [.createBranch "m" 1])) := by
      decide +kernel
    have hcalls : (refRun halfBatch).calls = [(false, [.createBranch "m" 1, .createBranch "k" 2])] := by decide +kernel
    intro kept hkept
    rw [hcalls] at hkept
    rw [hload]
    cases hkept with
    | all edits hrest | none edits hrest =>
      cases hrest
      decide +kernel
  · have hload : (refRun halfTruncation).load plainRefCodec = .ok (some (empty.replay [.createBranch "m" 1])) := by
      decide +kernel
    have hcalls : (refRun halfTruncation).calls = [(false, [.createBranch "m" 1, .setHead "m" 2])] := by decide +kernel
    intro kept hkept
    rw [hcalls] at hkept
    rw [hload]
    cases hkept with
    | all edits hrest | none edits hrest =>
      cases hrest
      decide +kernel

end Mutiny.Loom
