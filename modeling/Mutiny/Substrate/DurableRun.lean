import Mutiny.Lib.Coding
import Mutiny.Substrate.DurableSpec

/- Whole runs of a durable store, and what goes wrong in some.

   Every event keeps the invariant of `DurableSpec` as long as each logged
   transaction was begun on the head and rewrites the pages of the writes that
   the last recovery discarded. -/
namespace Mutiny.Substrate
open Mutiny.Lib SortedMap World List
open Coding (digest mark u64)

section Runs

variable {H : Hashing} {config : StoreConfig} [WalCodec]

section

variable {w : World} {p : Process}

/-! Commits. -/

variable {writes : PageChanges} {now : U64} {w' : World} {handle : Nat} {txn : Txn}

omit [WalCodec] in
theorem foldl_insert_of_covers {leftover : PageChanges} (h : ∀ l ∈ leftover.toList, l.1 ∈ writes) :
    writes.toList.foldl (fun m c => m.insert c.1 c.2) leftover = writes := by
  refine ext (fun a => ?_)
  rw [getElem?_foldl_insert]
  cases hw : writes[a]? with
  | some v => rfl
  | none =>
    cases hl : leftover[a]? with
    | none => rfl
    | some v =>
      obtain ⟨v', hv'⟩ := mem_iff.1 (h (a, v) (mem_toList.2 hl))
      rw [hw] at hv'
      cases hv'

/-- What a commit derives on the head. Its records replay to the manifest it made, if
    they cover the writes left over. -/
theorem Up.derive (h : Up H config w p) :
    (patch (pagesAfter w.kept) writes = pagesAfter w.kept ∧
      deriveNext H w.disk.manifests p.head writes now = .ok none) ∨
    ∃ next, deriveNext H w.disk.manifests p.head writes now = .ok (some (next, H.manifest next)) ∧
      (TellsApart H.manifest (w.hashed ++ [next]) →
        Named H (w.hashed ++ [next]) (w.disk.manifests.put H next) ∧
        ((∀ l ∈ p.leftover.toList, l.1 ∈ writes) → Replays H (w.point p) (commitKinds writes (H.manifest next) now)
          ⟨w.disk.manifests.put H next, H.manifest next, patch (pagesAfter w.kept) writes, ∅⟩)) := by
  rcases deriveNext_of_resolves h.resolves writes now with hsame | ⟨_, next, hder, hnext⟩
  · exact Or.inl hsame
  · refine Or.inr ⟨next, hder, fun hinj => ?_⟩
    obtain ⟨hnamed, hfresh, -⟩ := h.named.put_new hinj
    refine ⟨hnamed, fun hcov => Replays.writes ?_⟩
    show Replays H { w.point p with
      pending := writes.toList.foldl (fun m c => m.insert c.1 c.2) p.leftover } _ _
    rw [foldl_insert_of_covers hcov]
    exact .commit h.resolves hder (Manifests.get_put_self hfresh) (.done (hnext.resolves_put hfresh))

omit [WalCodec] in
theorem pagesAfter_concat (kept : List Kept) (k : Kept) :
    pagesAfter (kept ++ [k]) = patch (pagesAfter kept) k.writes := by
  simp [pagesAfter]

omit [WalCodec] in
theorem headAfter_concat (root : ManifestId) (kept : List Kept) (k : Kept) :
    headAfter root (kept ++ [k]) = k.manifest.getD (headAfter root kept) := by
  simp [headAfter]

theorem Up.of_txns (h : Up H config w p) {p' : Process} (hman : w'.disk.manifests = w.disk.manifests)
    (hseg : w'.disk.segments = w.disk.segments) (hmark : w'.disk.marker = w.disk.marker)
    (hkept : pagesAfter w'.kept = pagesAfter w.kept) (hhead : ∀ root, headAfter root w'.kept = headAfter root w.kept)
    (hhashed : w'.hashed = w.hashed) (hph : p'.head = p.head) (hwal : p'.wal = p.wal)
    (hleft : p'.leftover = p.leftover) : Up H config w' p' := by
  obtain ⟨rs, hwhole, hlsn, hlog⟩ := h.log
  have hck : w'.disk.readCheckpoint = w.disk.readCheckpoint := by
    rw [Disk.readCheckpoint, hmark]
    rfl
  refine ⟨?_, ?_, ?_, ?_, ?_, rs, ?_, ?_, ?_⟩
  · rw [hman, hhashed]
    exact h.named
  · rw [hman]
    exact h.root
  · rw [hseg, hwal]
    exact h.last
  · rw [Disk.captured, hck, hwal]
    exact h.captured
  · rw [hph, hhead]
    exact h.head
  · rw [hseg]
    exact hwhole
  · rw [hwal]
    exact hlsn
  · rw [hman, hph, hkept, hleft, LogIs, hman, Disk.startHead, Disk.captured, hck]
    exact hlog

/-- A transaction that changes nothing, of its base or of the head. -/
theorem Up.commit_none (h : Up H config w p) (hnone : deriveNext H w.disk.manifests txn.base txn.writes now = .ok none)
    (hhead : deriveNext H w.disk.manifests p.head txn.writes now = .ok none) :
    Holds H config (w.commit H p handle txn now) := by
  unfold World.commit
  rw [hnone]
  refine h.of_txns rfl rfl rfl ?_ ?_ rfl rfl rfl rfl
  · rw [pagesAfter_concat]
    exact (h.derive.resolve_right fun ⟨next, hder, _⟩ => nomatch hhead.symm.trans hder).1
  · intro root
    rw [headAfter_concat]
    rfl

theorem Up.commit (h : Up H config w p) (hbase : txn.base = p.head)
    (hcov : ∀ m, deriveNext H w.disk.manifests txn.base txn.writes now = .ok (some m) →
      ∀ l ∈ p.leftover.toList, l.1 ∈ txn.writes)
    (hinj : TellsApart H.manifest (w.commit H p handle txn now).hashed) :
    Holds H config (w.commit H p handle txn now) := by
  rcases h.derive with ⟨-, hnone⟩ | ⟨next, hder, hnext⟩
  · exact h.commit_none (hbase ▸ hnone) hnone
  · unfold World.commit at hinj ⊢
    rw [hbase, hder] at hcov hinj ⊢
    dsimp only at hinj ⊢
    unfold Wal.commit at hinj ⊢
    dsimp only at hinj ⊢
    by_cases hroom : p.wal.Room (commitKinds txn.writes (H.manifest next) now)
    · rw [if_pos hroom] at hinj ⊢
      obtain ⟨hnamed, hrep⟩ := hnext hinj
      refine h.appended hroom (hrep (hcov _ rfl)) rfl ?_ rfl hnamed ?_
      · rw [point, pagesAfter_concat]
        rfl
      · rw [headAfter_concat]
        rfl
    · rw [if_neg hroom]
      exact h.down rfl rfl (fun m hm => mem_append_left _ hm)

omit [WalCodec] in
theorem take_commitKinds {id : ManifestId} {j : Nat} (hj : j < (commitKinds writes id now).length) :
    (commitKinds writes id now).take j = (writes.toList.take j).map (fun c => .write c.1 c.2) := by
  simp only [commitKinds, length_append, length_map, length_singleton] at hj
  rw [commitKinds, take_append_of_le_length (by rw [length_map]; omega), map_take]

theorem Up.commitCrash (h : Up H config w p) {written : Nat} {installed : Bool} (hbase : txn.base = p.head)
    (hcov : ∀ next id, deriveNext H w.disk.manifests txn.base txn.writes now = .ok (some (next, id)) →
      (p.wal.buffer (commitKinds txn.writes id now)).length ≤ written → ∀ l ∈ p.leftover.toList, l.1 ∈ txn.writes)
    (hinj : TellsApart H.manifest (w.commitCrash H p txn now written installed).hashed) :
    Down H config (w.commitCrash H p txn now written installed) := by
  unfold World.commitCrash at hinj ⊢
  rw [hbase] at hcov hinj ⊢
  rcases h.derive with ⟨hsame, hnone⟩ | ⟨next, hder, hnext⟩
  · rw [hnone]
    exact h.down rfl rfl (fun m hm => hm)
  · rw [hder] at hcov hinj ⊢
    dsimp only at hinj ⊢
    by_cases hroom : p.wal.Room (commitKinds txn.writes (H.manifest next) now)
    · rw [if_pos hroom] at hinj ⊢
      by_cases hfull : (p.wal.buffer (commitKinds txn.writes (H.manifest next) now)).length ≤ written
      · -- every record is there: the transaction happened
        rw [if_pos hfull] at hinj ⊢
        rw [take_of_length_le hfull]
        obtain ⟨hnamed, hcovered⟩ := hnext hinj
        have hrep := hcovered (hcov next _ rfl hfull)
        obtain ⟨rs, hwhole, _, hlog⟩ := h.append hroom hrep
        have hroot := hrep.mem_right h.root
        refine ⟨rs, ⟨w.disk.manifests.put H next, H.manifest next, patch (pagesAfter w.kept) txn.writes, ∅⟩,
          ?_, ?_, hnamed, ?_, ?_⟩
        · left
          cases installed <;> exact hwhole
        · cases installed with
          | false => exact hlog
          | true => exact hlog.again hroot (fun _ _ hget => hget) rfl rfl
        · rw [headAfter_concat]
          rfl
        · rw [pagesAfter_concat]
      · -- the commit record is not: the writes before it are left over
        rw [if_neg hfull]
        obtain ⟨j, rs, hj, htorn, hlog⟩ := h.appendCut hroom (Nat.lt_of_not_le hfull)
        rw [take_commitKinds hj] at hlog
        refine ⟨rs, { w.point p with
          pending := (txn.writes.toList.take j).foldl (fun m c => m.insert c.1 c.2) p.leftover },
        htorn, ?_, h.named.append [next], h.head, rfl⟩
        refine hlog _ ?_
        rw [← append_nil (List.map _ _)]
        exact Replays.writes (.done h.resolves)
    · rw [if_neg hroom]
      exact h.down rfl rfl (fun m hm => mem_append_left _ hm)

/-! Checkpoints. -/

variable {disk : Disk} {manifest : ManifestId}

theorem readCheckpoint_truncated {lsn keepFrom removed : Nat} :
    (Wal.truncateSegments (Wal.writeMarker disk lsn manifest) keepFrom removed).readCheckpoint =
      some (manifest, Fin.ofNat (2 ^ 64) lsn) := by
  have hread := (walFraming WalError).read_frame
    (walFraming_fits ⟨Fin.ofNat (2 ^ 64) lsn, .checkpoint manifest⟩) []
  rw [append_nil] at hread
  simp only [Disk.readCheckpoint, Wal.truncateSegments, Wal.writeMarker, hread]

theorem Whole.of_sublist {segs segs' : List (Nat × Bytes)} {rs : List WalRecord} (h : Whole segs rs)
    (hsub : segs'.Sublist segs) : ∃ rs', Whole segs' rs' ∧ ∀ r ∈ rs', r ∈ rs := by
  induction h generalizing segs' with
  | nil =>
    rw [sublist_nil.1 hsub]
    exact ⟨[], .nil, by simp⟩
  | cons n rs _ ih =>
    cases hsub with
    | cons _ hsub =>
      obtain ⟨rs', hw, hmem⟩ := ih hsub
      exact ⟨rs', hw, fun r hr => mem_append_right _ (hmem r hr)⟩
    | cons_cons _ hsub =>
      obtain ⟨rs', hw, hmem⟩ := ih hsub
      refine ⟨rs ++ rs', .cons n rs hw, ?_⟩
      intro r hr
      rcases mem_append.1 hr with hr | hr
      · exact mem_append_left _ hr
      · exact mem_append_right _ (hmem r hr)

omit [WalCodec] in
theorem truncateSegments_sublist (disk : Disk) (keepFrom removed : Nat) :
    (Wal.truncateSegments disk keepFrom removed).segments.toList.Sublist disk.segments.toList := by
  have hfold : ∀ (l : List Nat) (s : Segments), (l.foldl (fun s n => s.erase n) s).toList.Sublist s.toList := by
    intro l
    induction l with
    | nil => exact fun s => List.Sublist.refl _
    | cons n l ih =>
      intro s
      refine (ih (s.erase n)).trans ?_
      rw [toList_erase]
      exact filter_sublist
  exact hfold _ _

omit [WalCodec] in
theorem mem_of_sublist {s s' : Segments} (h : s'.toList.Sublist s.toList) {n : Nat} (hn : n ∈ s') : n ∈ s := by
  obtain ⟨b, hb⟩ := mem_iff.1 hn
  exact mem_iff.2 ⟨b, mem_toList.1 (h.subset (mem_toList.2 hb))⟩

/-- Once the marker is down the log behind it is skipped, whatever is left of it. -/
theorem Up.checkpointed (h : Up H config w p) (hroom : p.wal.Room [.checkpoint p.head]) (keepFrom removed : Nat)
    (hdisk : disk = Wal.truncateSegments (Wal.writeMarker
      (w.disk.appendTo p.wal.current (p.wal.buffer [.checkpoint p.head])) p.wal.nextLsn p.head) keepFrom removed) :
    (∃ rs, Whole disk.segments.toList rs ∧ (∀ r ∈ rs, r.lsn.val < p.wal.nextLsn + 1) ∧
      LogIs H config disk rs ⟨w.disk.manifests, p.head, pagesAfter w.kept, ∅⟩) ∧
    (∀ cp ∈ disk.captured, cp.val < p.wal.nextLsn + 1) ∧
    ∀ n ∈ disk.segments, n ≤ p.wal.current := by
  have hlt : p.wal.nextLsn + 1 < 2 ^ 64 := hroom
  have hval : (Fin.ofNat (2 ^ 64) p.wal.nextLsn).val = p.wal.nextLsn := by
    rw [Fin.val_ofNat]
    exact Nat.mod_eq_of_lt (by omega)
  have hsub : disk.segments.toList.Sublist
      (w.disk.appendTo p.wal.current (p.wal.buffer [.checkpoint p.head])).segments.toList := by
    rw [hdisk]
    exact truncateSegments_sublist _ keepFrom removed
  have hck : disk.readCheckpoint = some (p.head, Fin.ofNat (2 ^ 64) p.wal.nextLsn) := by
    rw [hdisk, readCheckpoint_truncated]
  have hman : disk.manifests = w.disk.manifests := by
    rw [hdisk]
    rfl
  obtain ⟨rs, hwhole, hlsn, _⟩ := h.append hroom (.checkpoint (.done h.resolves))
  obtain ⟨rs', hwhole', hmem⟩ := hwhole.of_sublist hsub
  refine ⟨⟨rs', hwhole', fun r hr => hlsn r (hmem r hr), pagesAfter w.kept, ?_⟩, ?_, ?_⟩
  · have hskip : live disk.captured rs' = [] := by
      rw [live, map_eq_nil_iff, filter_eq_nil_iff]
      intro r hr
      have hle : r.lsn ≤ Fin.ofNat (2 ^ 64) p.wal.nextLsn := by
        rw [Fin.le_def, hval]
        exact Nat.le_of_lt_succ (hlsn r (hmem r hr))
      simpa [Disk.captured, hck] using hle
    rw [hskip, hman, put_of_mem h.root, Disk.startHead, hck]
    exact .done h.resolves
  · intro cp hcp
    rw [Disk.captured, hck] at hcp
    cases hcp
    rw [hval]
    exact Nat.lt_succ_self _
  · intro n hn
    rcases mem_insert.1 (mem_of_sublist hsub hn) with rfl | hn
    · exact le_refl _
    · exact h.last n hn

theorem Up.checkpoint (h : Up H config w p) : Holds H config (w.checkpoint p) := by
  unfold World.checkpoint Wal.checkpoint
  by_cases hroom : p.wal.Room [.checkpoint p.head]
  · rw [if_pos hroom]
    obtain ⟨⟨rs, hwhole, hlsn, hlog⟩, hcp, hmax⟩ := h.checkpointed hroom _ _ rfl
    have hnext : (p.wal.append w.disk [.checkpoint p.head]).2.nextLsn = p.wal.nextLsn + 1 := append_nextLsn ..
    have hcur := append_current_le p.wal w.disk [.checkpoint p.head]
    show Up H config _ _
    refine ⟨h.named, h.root, fun n hn => (hmax n hn).trans hcur, ?_, h.head, rs, hwhole, ?_, hlog⟩
    · rw [hnext]
      exact hcp
    · rw [hnext]
      exact hlsn
  · rw [if_neg hroom]
    exact h.down rfl rfl (fun m hm => hm)

theorem Up.checkpointCrash (h : Up H config w p) (written : Nat) (marker : Bool) (removed : Nat) :
    Down H config (w.checkpointCrash p written marker removed) := by
  unfold World.checkpointCrash
  dsimp only
  by_cases hroom : p.wal.Room [.checkpoint p.head]
  · rw [if_pos hroom]
    by_cases hfull : (p.wal.buffer [.checkpoint p.head]).length ≤ written
    · rw [take_of_length_le hfull]
      by_cases hmark : marker = true
      · rw [if_pos ⟨hfull, hmark⟩]
        obtain ⟨⟨rs, hwhole, _, hlog⟩, _⟩ := h.checkpointed hroom
          (p.wal.append w.disk [.checkpoint p.head]).2.current removed rfl
        exact ⟨rs, _, Or.inl hwhole, hlog, h.named, h.head, rfl⟩
      · rw [if_neg (fun hc => hmark hc.2)]
        obtain ⟨rs, hwhole, _, hlog⟩ := h.append hroom (.checkpoint (.done h.resolves))
        exact ⟨rs, _, Or.inl hwhole, hlog, h.named, h.head, rfl⟩
    · rw [if_neg (fun hc => hfull hc.1)]
      obtain ⟨j, rs, hj, htorn, hlog⟩ := h.appendCut hroom (Nat.lt_of_not_le hfull)
      obtain rfl : j = 0 := Nat.lt_one_iff.1 hj
      exact ⟨rs, w.point p, htorn, hlog _ (.done h.resolves), h.named, h.head, rfl⟩
  · rw [if_neg hroom]
    exact h.down rfl rfl (fun m hm => hm)

/-! Runs. -/

variable {m : Manifest} {es : List Event}

theorem Down.reopen (h : Down H config w) : Holds H config (w.reopen H config) := by
  unfold World.reopen
  cases hopen : openStore H config w.disk with
  | error e => exact ⟨h.log⟩
  | ok opened =>
    obtain ⟨disk, wal⟩ := opened
    obtain ⟨st, hrec, hup⟩ := h.recovers hopen
    dsimp only
    rw [hrec]
    exact hup

theorem Holds.down (h : Holds H config w) : Down H config w := by
  unfold Holds at h
  cases hp : w.process with
  | none =>
    rw [hp] at h
    exact h
  | some p =>
    rw [hp] at h
    exact Up.down h rfl rfl (fun m hm => hm)

theorem mem_hashed_step (hm : m ∈ w.hashed) (e : Event) : m ∈ (w.step H config e).hashed := by
  have hreopen : m ∈ (w.reopen H config).hashed := by
    unfold reopen
    repeat' split
    all_goals exact hm
  unfold step
  split
  · cases e <;> simp only [act]
    case reopen => exact hreopen
    case write =>
      split
      · exact hm
      · unfold write
        split <;> exact hm
    case commit =>
      split
      · exact hm
      · unfold commit
        repeat' split
        all_goals first | exact hm | exact mem_append_left _ hm
    case commitCrash =>
      split
      · exact hm
      · unfold commitCrash
        dsimp only
        repeat' split
        all_goals first | exact hm | exact mem_append_left _ hm
    case checkpoint =>
      unfold checkpoint
      split <;> exact hm
    case checkpointCrash =>
      unfold checkpointCrash
      dsimp only
      repeat' split
      all_goals exact hm
    all_goals (try split) <;> exact hm
  · split
    · exact hreopen
    · exact hm

theorem process_commitCrash (txn : Txn) (now : U64) (written : Nat) (installed : Bool) :
    (w.commitCrash H p txn now written installed).process = none := by
  unfold commitCrash
  dsimp only
  repeat' split
  all_goals rfl

theorem process_checkpointCrash (written : Nat) (marker : Bool) (removed : Nat) :
    (w.checkpointCrash p written marker removed).process = none := by
  unfold checkpointCrash
  dsimp only
  repeat' split
  all_goals rfl

theorem Up.act (h : Up H config w p) (hp : w.process = some p) (e : Event) (hon : OnHead H w e)
    (hcov : CoversLeftover H w e) (hinj : TellsApart H.manifest (w.act H config p e).hashed) :
    Holds H config (w.act H config p e) := by
  have hsame : Holds H config w := by
    unfold Holds
    rw [hp]
    exact h
  cases e with
  | reopen => exact (h.down rfl rfl (fun m hm => hm)).reopen
  | begin handle => exact h.of_txns rfl rfl rfl rfl (fun _ => rfl) rfl rfl rfl rfl
  | write handle pageNo bytes =>
    simp only [World.act]
    cases htxn : p.txns[handle]? with
    | none => exact hsame
    | some txn =>
      dsimp only
      unfold write
      cases txn.write H config w.disk.pages pageNo bytes with
      | error e => exact hsame
      | ok r => exact h.of_txns rfl rfl rfl rfl (fun _ => rfl) rfl rfl rfl rfl
  | remove handle pageNo =>
    simp only [World.act]
    cases htxn : p.txns[handle]? with
    | none => exact hsame
    | some txn => exact h.of_txns rfl rfl rfl rfl (fun _ => rfl) rfl rfl rfl rfl
  | commit handle now =>
    simp only [World.act] at hinj ⊢
    cases htxn : p.txns[handle]? with
    | none => exact hsame
    | some txn =>
      rw [htxn] at hinj
      have hc : (p, txn, now) ∈ w.committing (.commit handle now) := by simp [committing, hp, htxn]
      rcases hon _ hc with hbase | ⟨hnone, hhead⟩
      · exact h.commit hbase (fun m hm => hcov _ hc (by simp only [Logs, hm])) hinj
      · exact h.commit_none hnone hhead
  | commitCrash handle now written installed =>
    simp only [World.act] at hinj ⊢
    cases htxn : p.txns[handle]? with
    | none => exact h.down rfl rfl (fun m hm => hm)
    | some txn =>
      rw [htxn] at hinj
      have hc : (p, txn, now) ∈ w.committing (.commitCrash handle now written installed) := by
        simp [committing, hp, htxn]
      have hdown : Down H config (w.commitCrash H p txn now written installed) := by
        rcases hon _ hc with hbase | ⟨hnone, -⟩
        · exact h.commitCrash hbase (fun next id hder hfull => hcov _ hc (by simpa only [Logs, hder] using hfull)) hinj
        · unfold World.commitCrash
          rw [hnone]
          exact h.down rfl rfl (fun m hm => hm)
      unfold Holds
      dsimp only
      rw [process_commitCrash]
      exact hdown
  | checkpoint => exact h.checkpoint
  | checkpointCrash written marker removed =>
    unfold Holds World.act
    dsimp only
    rw [process_checkpointCrash]
    exact h.checkpointCrash written marker removed
  | crash => exact h.down rfl rfl (fun m hm => hm)

theorem Holds.step (h : Holds H config w) (e : Event) (hon : OnHead H w e) (hcov : CoversLeftover H w e)
    (hinj : TellsApart H.manifest (w.step H config e).hashed) : Holds H config (w.step H config e) := by
  unfold World.step at hinj ⊢
  cases hp : w.process with
  | some p =>
    rw [hp] at hinj
    unfold Holds at h
    rw [hp] at h
    exact Up.act h hp e hon hcov hinj
  | none =>
    dsimp only
    split
    · exact h.down.reopen
    · exact h

theorem Holds.run (h : Holds H config w) (hon : Along (World.step H config) (OnHead H) w es)
    (hcov : Along (World.step H config) (CoversLeftover H) w es)
    (hinj : TellsApart H.manifest (w.run H config es).hashed) : Holds H config (w.run H config es) := by
  exact (hon.and hcov).keeps_below (F := fun w => TellsApart H.manifest w.hashed) h
    (fun w e hnext => hnext.mono (fun m hm => mem_hashed_step hm e)) hinj
    (fun w e he hnext h => h.step e he.1 he.2 hnext)

theorem holds_initial : Holds H config (initial config) := by
  refine ⟨[], ⟨(∅ : Manifests).put H (.empty config.pageSize), H.manifest (.empty config.pageSize), ∅, ∅⟩, ?_, ?_, ?_, rfl, rfl⟩
  · exact Or.inl .nil
  · exact ⟨∅, .done resolves_empty⟩
  · exact (WriteOnce.Named.empty _ _).put (by simp [initial])

/-! One transaction at a time. -/

/-- The open transactions were begun on the head, and there is at most one. -/
def Lone (w : World) : Prop :=
  ∀ p ∈ w.process, ∀ handle txn, p.txns[handle]? = some txn → txn.base = p.head ∧
    ∀ handle' ∈ p.txns, handle' = handle

omit [WalCodec] in
theorem Lone.onHead (h : Lone w) (e : Event) : OnHead H w e := by
  intro c hc
  unfold committing at hc
  split at hc
  all_goals first
    | cases hc
    | next hp =>
      obtain ⟨txn, htxn, rfl⟩ := Option.map_eq_some_iff.1 hc
      exact .inl (h _ hp _ _ htxn).1

omit [WalCodec] in
theorem lone_of_empty (h : ∀ p ∈ w.process, p.txns = ∅) : Lone w := by
  intro p hmem handle txn hget
  rw [h p hmem] at hget
  simp at hget

section

variable (h : Lone w) (hp : w.process = some p) (htxn : p.txns[handle]? = some txn)
include h hp htxn

omit [WalCodec] in
theorem Lone.insert (txn' : Txn)
    (hbase : txn'.base = txn.base) (hw' : w'.process = some { p with txns := p.txns.insert handle txn' }) :
    Lone w' := by
  intro p' hmem handle' txn'' hget
  rw [hw'] at hmem
  cases hmem
  obtain ⟨hb, hone⟩ := h p hp handle txn htxn
  have hkey : ∀ handle' ∈ p.txns.insert handle txn', handle' = handle := by
    intro k hk
    rcases SortedMap.mem_insert.1 hk with hk | hk
    · exact hk.symm
    · exact hone k hk
  have hhandle : handle' = handle := hkey handle' (SortedMap.mem_iff.2 ⟨_, hget⟩)
  subst hhandle
  rw [SortedMap.getElem?_insert, if_pos rfl] at hget
  cases hget
  exact ⟨hbase.trans hb, hkey⟩

omit [WalCodec] in
theorem Lone.close : (p.close handle).txns = ∅ := by
  obtain ⟨_, hone⟩ := h p hp handle txn htxn
  refine ext (fun k => ?_)
  show (p.txns.erase handle)[k]? = _
  rw [getElem?_erase]
  split
  · simp
  · next hne =>
    cases hk : p.txns[k]? with
    | none => simp
    | some t => exact absurd (hone k (mem_iff.2 ⟨t, hk⟩)).symm hne

end

omit [WalCodec] in
theorem lone_of_none (h : w.process = none) : Lone w := by
  intro p hmem
  rw [h] at hmem
  cases hmem

theorem lone_reopen : Lone (w.reopen H config) := by
  unfold reopen
  split
  · exact lone_of_none rfl
  · split
    · exact lone_of_none rfl
    · exact lone_of_empty (by rintro p ⟨⟩; rfl)

theorem Lone.step (h : Lone w) (e : Event) (hone : OneAtATime w e) : Lone (w.step H config e) := by
  unfold World.step
  cases hp : w.process with
  | none =>
    dsimp only
    split
    · exact lone_reopen
    · exact h
  | some p =>
    cases e with
    | reopen => exact lone_reopen
    | begin handle =>
      have hempty : p.txns = ∅ := by
        unfold OneAtATime at hone
        rw [hp] at hone
        exact Std.ExtTreeMap.isEmpty_iff.1 hone
      intro p' hmem handle' txn hget
      cases hmem
      simp only [hempty, SortedMap.getElem?_insert] at hget
      split at hget
      · next hh =>
        cases hget
        refine ⟨rfl, ?_⟩
        intro k hk
        rcases SortedMap.mem_insert.1 hk with hk | hk
        · exact hk.symm.trans hh
        · rw [hempty] at hk
          exact absurd hk Std.ExtTreeMap.not_mem_empty
      · simp at hget
    | write handle pageNo bytes =>
      simp only [World.act]
      cases htxn : p.txns[handle]? with
      | none => exact h
      | some txn =>
        dsimp only
        unfold World.write Txn.write
        cases hpage : Page.new H config.hasher bytes config.pageSize with
        | error e => exact h
        | ok page =>
          exact h.insert hp htxn
            ⟨txn.writes.insert pageNo (some page.id), txn.base, txn.pinned ++ [page.id]⟩ rfl rfl
    | remove handle pageNo =>
      simp only [World.act]
      cases htxn : p.txns[handle]? with
      | none => exact h
      | some txn => exact h.insert hp htxn (txn.remove pageNo) rfl rfl
    | commit handle now =>
      simp only [World.act]
      cases htxn : p.txns[handle]? with
      | none => exact h
      | some txn =>
        have hclose := h.close hp htxn
        dsimp only
        unfold World.commit
        repeat' split
        · exact lone_of_empty (by rintro p ⟨⟩; exact hclose)
        · exact lone_of_empty (by rintro p ⟨⟩; exact hclose)
        · exact lone_of_none rfl
        · exact lone_of_empty (by rintro p ⟨⟩; exact hclose)
    | commitCrash handle now written installed =>
      simp only [World.act]
      cases htxn : p.txns[handle]? with
      | none => exact lone_of_none rfl
      | some txn => exact lone_of_none (process_commitCrash ..)
    | checkpoint =>
      simp only [World.act, World.checkpoint]
      split
      · exact lone_of_none rfl
      · intro p' hmem
        cases hmem
        exact h p hp
    | checkpointCrash written marker removed => exact lone_of_none (process_checkpointCrash ..)
    | crash => exact lone_of_none rfl

theorem Lone.onHead_along (h : Lone w) (hone : Along (World.step H config) OneAtATime w es) :
    Along (World.step H config) (OnHead H) w es :=
  hone.imp h (fun _ e he h => ⟨h.onHead e, h.step e he⟩)

end

variable {w : World}

/-- A recovered store: its head resolves to the transactions that happened, and
    recovering it again changes nothing. -/
theorem Up.recovered {st : Recovered}
    (h : Up H config { w with disk := st.disk, process := some ⟨st.head, st.wal, ∅, st.leftover⟩ }
      ⟨st.head, st.wal, ∅, st.leftover⟩) :
    resolve H st.disk.manifests st.head = .ok (pagesAfter w.kept) ∧
      ∃ st', recover H config st.disk st.wal = .ok st' ∧ st'.head = st.head := by
  refine ⟨resolve_of_resolves h.resolves, ?_⟩
  obtain ⟨rs, hwhole, _, hlog⟩ := h.log
  obtain ⟨st', hrec, _, _, _, hhead, _⟩ := recover_of_logIs h.root (Or.inl hwhole) hlog st.wal
  exact ⟨st', hrec, hhead⟩

/-- Crash recovery. A run opens and recovers a store, works on it with one
    transaction open at a time, checkpoints and crashes, any number of times. As
    long as each logged transaction rewrites the pages of the writes the last
    recovery discarded, every recovery succeeds, restores the page map of the
    transactions that happened, and is idempotent. -/
theorem recover_restores_kept (es : List Event) (hone : Along (World.step H config) OneAtATime (.initial config) es)
    (hcov : Along (World.step H config) (CoversLeftover H) (.initial config) es)
    (hinj : TellsApart H.manifest ((World.initial config).run H config es).hashed) {disk : Disk} {wal : Wal}
    (hopen : openStore H config ((World.initial config).run H config es).disk = .ok (disk, wal)) :
    ∃ st, recover H config disk wal = .ok st ∧
      resolve H st.disk.manifests st.head = .ok (pagesAfter ((World.initial config).run H config es).kept) ∧
      ∃ st', recover H config st.disk st.wal = .ok st' ∧ st'.head = st.head := by
  have hlone : Lone (initial config) := lone_of_none rfl
  have hholds := holds_initial.run (hlone.onHead_along hone) hcov hinj
  obtain ⟨st, hrec, hup⟩ := hholds.down.recovers hopen
  exact ⟨st, hrec, hup.recovered⟩

/-! Interleaved transactions. -/

def NoLeftover (w : World) : Prop := ∀ p ∈ w.process, p.leftover = ∅

theorem NoLeftover.covers (h : NoLeftover w) (e : Event) : CoversLeftover H w e := by
  intro c hc hlogs
  have hp : w.process = some c.1 := by
    unfold committing at hc
    split at hc
    all_goals first
      | cases hc
      | next hp =>
        obtain ⟨txn, _, rfl⟩ := Option.map_eq_some_iff.1 hc
        exact hp
  rw [h c.1 hp]
  simp

theorem NoLeftover.step (h : NoLeftover w) {e : Event} (he : e.Plain) : NoLeftover (w.step H config e) := by
  unfold World.step
  cases hp : w.process with
  | none =>
    dsimp only
    split
    · next hre =>
      subst hre
      exact absurd he id
    · exact h
  | some p =>
    have hleft := h p hp
    cases e with
    | begin handle =>
      rintro p' ⟨⟩
      exact hleft
    | write handle pageNo bytes =>
      simp only [act]
      cases htxn : p.txns[handle]? with
      | none => exact h
      | some txn =>
        dsimp only
        unfold write
        split
        · exact h
        · rintro p' ⟨⟩
          exact hleft
    | remove handle pageNo =>
      simp only [act]
      cases htxn : p.txns[handle]? with
      | none => exact h
      | some txn =>
        rintro p' ⟨⟩
        exact hleft
    | commit handle now =>
      simp only [act]
      cases htxn : p.txns[handle]? with
      | none => exact h
      | some txn =>
        dsimp only
        unfold commit
        repeat' split
        · rintro p' ⟨⟩
          exact hleft
        · rintro p' ⟨⟩
          exact hleft
        · rintro p' ⟨⟩
        · rintro p' ⟨⟩
          rfl
    | reopen | commitCrash handle now written installed | checkpoint | checkpointCrash written marker removed
    | crash => exact absurd he id

theorem NoLeftover.covers_along {es : List Event} (h : NoLeftover w) (hes : ∀ e ∈ es, e.Plain) :
    Along (World.step H config) (CoversLeftover H) w es := by
  have hplain : Along (World.step H config) (fun _ e => e.Plain) w es := along_of_forall (fun e he _ => hes e he)
  exact hplain.imp h (fun _ e he h => ⟨h.covers e, h.step he⟩)

theorem noLeftover_first : NoLeftover ((initial config).step H config .reopen) := by
  intro p hp
  simp only [step, initial, if_true, reopen] at hp
  split at hp
  · cases hp
  · split at hp
    · cases hp
    · next hopen _ st hrec =>
      cases hp
      obtain ⟨_, _, hok⟩ := bind_ok.1 hopen
      obtain ⟨hdisk, -⟩ := Prod.mk.inj (Except.ok.inj hok)
      subst hdisk
      have hnil : (∅ : Segments).toList = [] := rfl
      simp only [recover, replayBase, Disk.readCheckpoint, Disk.blank, ok_bind, hnil, replaySegments] at hrec
      split at hrec
      · cases hrec
        rfl
      · cases hrec

omit [WalCodec] in
theorem lastWritten_concat (kept : List Kept) (k : Kept) (pageNo : LogicalPageNo) :
    lastWritten (kept ++ [k]) pageNo =
      if pageNo ∈ k.writes then k.writes[pageNo]?.join else lastWritten kept pageNo := by
  unfold lastWritten
  rw [reverse_append, reverse_singleton, singleton_append, List.find?_cons]
  by_cases h : pageNo ∈ k.writes
  · simp [h]
  · simp [h]

omit [WalCodec] in
/-- The page map after some transactions holds what the last one to touch a page
    left there. -/
theorem getElem?_pagesAfter (kept : List Kept) (pageNo : LogicalPageNo) :
    (pagesAfter kept)[pageNo]? = lastWritten kept pageNo := by
  induction kept using List.reverseRecOn with
  | nil => simp [pagesAfter, lastWritten]
  | append_singleton kept k ih =>
    rw [pagesAfter_concat, lastWritten_concat, getElem?_patch, ih]
    cases hk : k.writes[pageNo]? with
    | none =>
      have hnot : pageNo ∉ k.writes := by
        rw [mem_iff, hk]
        simp
      rw [if_neg hnot]
    | some v =>
      rw [if_pos (mem_iff.2 ⟨v, hk⟩)]
      rfl

/-- Interleaved transactions. Any number of them are open at the same time on a
    new store, and each is committed on the head it was begun on. Then reopening
    restores the head of the last commit that changed anything, which is the head
    the store had, and every page is as the last committed transaction that
    touched it left it. -/
theorem reopen_restores_interleaved (es : List Event) (hes : ∀ e ∈ es, e.Plain)
    (hon : Along (World.step H config) (OnHead H) (.initial config) (.reopen :: es))
    (hinj : TellsApart H.manifest ((World.initial config).run H config (.reopen :: es)).hashed)
    {disk : Disk} {wal : Wal}
    (hopen : openStore H config ((World.initial config).run H config (.reopen :: es)).disk = .ok (disk, wal)) :
    ∃ st pages, recover H config disk wal = .ok st ∧
      st.head = headAfter (H.manifest (.empty config.pageSize))
        ((World.initial config).run H config (.reopen :: es)).kept ∧
      (∀ p ∈ ((World.initial config).run H config (.reopen :: es)).process, p.head = st.head) ∧
      resolve H st.disk.manifests st.head = .ok pages ∧
      ∀ pageNo, pages[pageNo]? = lastWritten ((World.initial config).run H config (.reopen :: es)).kept pageNo := by
  have hfirst : CoversLeftover H (.initial config) .reopen := fun c hc => nomatch hc
  have hholds := holds_initial.run hon ⟨hfirst, noLeftover_first.covers_along hes⟩ hinj
  obtain ⟨st, hrec, hup⟩ := hholds.down.recovers hopen
  refine ⟨st, _, hrec, hup.head, ?_, hup.recovered.1, getElem?_pagesAfter _⟩
  intro p hp
  unfold Holds at hholds
  rw [show ((initial config).run H config (.reopen :: es)).process = some p from hp] at hholds
  exact (Up.head hholds).trans hup.head.symm

end Runs

/-! Concrete runs. -/

/-- A record by its number, its kind, and the number and the digest in it. -/
def recordCoding : Coding WalRecord :=
  (u64.pair <| mark.pair <| u64.pair digest.option).of
    (fun
      | ⟨lsn, .write pageNo page⟩ => (lsn, 0, pageNo, page)
      | ⟨lsn, .commit manifest createdAtMs⟩ => (lsn, 1, createdAtMs, some manifest)
      | ⟨lsn, .checkpoint manifest⟩ => (lsn, 2, 0, some manifest))
    (fun
      | (lsn, 0, pageNo, page) => some ⟨lsn, .write pageNo page⟩
      | (lsn, 1, createdAtMs, some manifest) => some ⟨lsn, .commit manifest createdAtMs⟩
      | (lsn, 2, _, some manifest) => some ⟨lsn, .checkpoint manifest⟩
      | _ => none)
    (fun ⟨_, kind⟩ => by cases kind <;> rfl)

theorem length_recordCoding (r : WalRecord) :
    0 < (recordCoding.put r).length ∧ (recordCoding.put r).length ≤ maxRecordBytes := by
  have hlength : 0 < (recordCoding.put r).length ∧ (recordCoding.put r).length ≤ 56 := by
    rcases r with ⟨lsn, ⟨pageNo, _ | page⟩ | ⟨manifest, createdAtMs⟩ | manifest⟩
    all_goals
      simp [recordCoding, Coding.of, Coding.pair, Coding.list, Coding.option, Coding.word, Coding.fin, Coding.escaped,
        Coding.putEscaped, u64, mark, digest]
  exact ⟨hlength.1, hlength.2.trans (by decide)⟩

instance plainWal : WalCodec where
  encode := recordCoding.put
  decode := recordCoding.decode
  decode_encode := recordCoding.decode_put
  length_encode := length_recordCoding
  crc32c bytes := bytes.foldl (fun sum b => sum * 31 + b.toUInt32) 0

abbrev sampleRun (es : List Event) : World := (World.initial sampleConfig).run sampleHashing sampleConfig es

theorem openStore_sample (disk : Disk) : ∃ d wal, openStore sampleHashing sampleConfig disk = .ok (d, wal) := by
  have hvalid : validatePageSize sampleConfig.pageSize = .ok () := by decide +kernel
  rw [openStore, hvalid]
  exact ⟨_, _, rfl⟩

/-- Killed behind the first record of its second transaction, again inside the first
    record of the next, on another page, and then the page written again. -/
def rewrittenRun : List Event :=
  [.reopen, .begin 0, .write 0 1 [7], .commit 0 5, .begin 0, .write 0 2 [8], .commitCrash 0 6 61 false,
   .reopen, .begin 0, .write 0 4 [8], .commitCrash 0 8 30 false,
   .reopen, .begin 0, .write 0 2 [9], .write 0 3 [9], .commit 0 9, .checkpoint, .crash]

theorem recover_restores_kept_rewritten :
    ∃ disk wal st, openStore sampleHashing sampleConfig (sampleRun rewrittenRun).disk = .ok (disk, wal) ∧
      recover sampleHashing sampleConfig disk wal = .ok st ∧
      resolve sampleHashing st.disk.manifests st.head = .ok (pagesAfter (sampleRun rewrittenRun).kept) := by
  obtain ⟨disk, wal, hopen⟩ := openStore_sample (sampleRun rewrittenRun).disk
  have hinj : TellsApart sampleHashing.manifest (sampleRun rewrittenRun).hashed := by decide +kernel
  have hone : Along (World.step sampleHashing sampleConfig) OneAtATime (.initial sampleConfig) rewrittenRun := by decide +kernel
  have hcov : Along (World.step sampleHashing sampleConfig) (CoversLeftover sampleHashing) (.initial sampleConfig) rewrittenRun := by
    decide +kernel
  obtain ⟨st, hrec, hres, _⟩ := recover_restores_kept rewrittenRun hone hcov hinj hopen
  exact ⟨disk, wal, st, hopen, hrec, hres⟩

/-- The same, with another page written after the recovery. -/
def leakedRun : List Event :=
  [.reopen, .begin 0, .write 0 1 [7], .commitCrash 0 5 61 false, .reopen, .begin 0, .write 0 2 [8], .commit 0 6, .crash]

/-- The write of page 1 was discarded and is replayed into the transaction on page
    2, whose commit had returned: the store does not open any more. -/
theorem recover_diverges_on_leaked_write :
    Along (World.step sampleHashing sampleConfig) OneAtATime (.initial sampleConfig) leakedRun ∧
      TellsApart sampleHashing.manifest (sampleRun leakedRun).hashed ∧
      (sampleRun leakedRun).kept.map (fun k => k.writes.toList) = [[(2, some 9)]] ∧
      (openStore sampleHashing sampleConfig (sampleRun leakedRun).disk >>= fun o =>
        (recover sampleHashing sampleConfig o.1 o.2).map Recovered.head) = .error (.replayDiverged 2 611 621) := by
  decide +kernel

/-- Two transactions open at once, each begun on the head it is committed on. -/
def turnsRun : List Event :=
  [.begin 0, .write 0 1 [7], .commit 0 5, .begin 1, .begin 2, .write 1 2 [8], .remove 1 1, .write 2 1 [7], .commit 2 6,
   .commit 1 7]

theorem reopen_restores_interleaved_turns :
    ∃ disk wal st pages, openStore sampleHashing sampleConfig (sampleRun (.reopen :: turnsRun)).disk = .ok (disk, wal) ∧
      recover sampleHashing sampleConfig disk wal = .ok st ∧
      resolve sampleHashing st.disk.manifests st.head = .ok pages ∧
      ∀ pageNo, pages[pageNo]? = lastWritten (sampleRun (.reopen :: turnsRun)).kept pageNo := by
  obtain ⟨disk, wal, hopen⟩ := openStore_sample (sampleRun (.reopen :: turnsRun)).disk
  have hinj : TellsApart sampleHashing.manifest (sampleRun (.reopen :: turnsRun)).hashed := by decide +kernel
  have hplain : ∀ e ∈ turnsRun, e.Plain := by decide +kernel
  have hon : Along (World.step sampleHashing sampleConfig) (OnHead sampleHashing) (.initial sampleConfig) (.reopen :: turnsRun) := by
    decide +kernel
  obtain ⟨st, pages, hrec, _, _, hres, hlast⟩ := reopen_restores_interleaved turnsRun hplain hon hinj hopen
  exact ⟨disk, wal, st, pages, hopen, hrec, hres, hlast⟩

/-- Two transactions begun on the same head, both committed. -/
def overlappingRun : List Event :=
  [.reopen, .begin 0, .begin 1, .write 0 1 [7], .write 1 2 [8], .commit 0 5, .commit 1 6]

/-- Both commits returned, the second from the head before the first: the head has
    lost the first one's write, and the store does not open any more. -/
theorem overlapping_commit_lost :
    (sampleRun overlappingRun).kept.map (fun k => k.writes.toList) = [[(1, some 8)], [(2, some 9)]] ∧
      ((sampleRun overlappingRun).process.map fun p =>
        (resolve sampleHashing (sampleRun overlappingRun).disk.manifests p.head).map (fun pages => pages.toList)) =
        some (.ok [(2, 9)]) ∧
      (openStore sampleHashing sampleConfig (sampleRun overlappingRun).disk >>= fun o =>
        (recover sampleHashing sampleConfig o.1 o.2).map Recovered.head) = .error (.replayDiverged 3 611 622) := by
  decide +kernel

end Mutiny.Substrate
