import Mutiny.Substrate.Durable
import Mutiny.Substrate.Replay

/- What a durable store keeps across crashes.

   While the process is up the log on the disk is made of whole records, and
   replaying it gives the head, the page map of the transactions that happened,
   and the leftover writes (`Up`). While it is down the last record may be cut,
   and the last manifest may not be stored yet (`Down`). Every event keeps this,
   as long as a logged transaction was begun on the head and rewrites the pages
   of the leftover writes. -/
namespace Mutiny.Substrate
open Mutiny.Lib SortedMap List

variable {H : Hashing} {config : StoreConfig}

/-- The head a replay of the log starts from. -/
def Disk.startHead [WalCodec] (H : Hashing) (config : StoreConfig) (disk : Disk) : ManifestId :=
  match disk.readCheckpoint with
  | some (manifest, _) => manifest
  | none => H.manifest (.empty config.pageSize)

/-- The last number the checkpoint accounts for. -/
def Disk.captured [WalCodec] (disk : Disk) : Option U64 := disk.readCheckpoint.map Prod.snd

/-- Replaying the records `rs` of the log ends at `q`. -/
def LogIs [WalCodec] (H : Hashing) (config : StoreConfig) (disk : Disk) (rs : List WalRecord) (q : Point) : Prop :=
  ∃ pages, Replays H ⟨disk.manifests.put H (.empty config.pageSize), disk.startHead H config, pages, ∅⟩
    (live disk.captured rs) q

variable {q : Point} {ks : List RecordKind}

theorem Replays.mem_right {p : Point} (h : Replays H p ks q) {id : ManifestId} (hid : id ∈ p.manifests) :
    id ∈ q.manifests := by
  induction h with
  | done => exact hid
  | write _ ih => exact ih hid
  | commit _ _ _ _ ih => exact ih (WriteOnce.mem_put.2 (Or.inr hid))
  | checkpoint _ ih => exact ih hid

/-! Appending to the log. -/

variable {lsn : Nat} {disk : Disk} {rs : List WalRecord} {cur : Nat}

theorem length_stamp (lsn : Nat) (ks : List RecordKind) : (stamp lsn ks).length = ks.length := by
  induction ks generalizing lsn with
  | nil => rfl
  | cons k ks ih => simp [stamp, ih]

theorem map_kind_stamp (lsn : Nat) (ks : List RecordKind) : (stamp lsn ks).map WalRecord.kind = ks := by
  induction ks generalizing lsn with
  | nil => rfl
  | cons k ks ih => simp [stamp, ih]

theorem take_stamp (lsn j : Nat) (ks : List RecordKind) : (stamp lsn ks).take j = stamp lsn (ks.take j) := by
  induction ks generalizing lsn j with
  | nil => simp [stamp]
  | cons k ks ih =>
    cases j with
    | zero => rfl
    | succ j => simp [stamp, ih]

theorem lsn_stamp (hroom : lsn + ks.length ≤ 2 ^ 64) :
    ∀ r ∈ stamp lsn ks, lsn ≤ r.lsn.val ∧ r.lsn.val < lsn + ks.length := by
  induction ks generalizing lsn with
  | nil => simp [stamp]
  | cons k ks ih =>
    rw [length_cons] at hroom
    rw [stamp, forall_mem_cons]
    constructor
    · have hval : (Fin.ofNat (2 ^ 64) lsn).val = lsn := by
        rw [Fin.val_ofNat]
        exact Nat.mod_eq_of_lt (by omega)
      rw [hval, length_cons]
      omega
    · intro r hr
      have := ih (by omega) r hr
      rw [length_cons]
      omega

theorem live_stamp {c : Option U64} (hroom : lsn + ks.length ≤ 2 ^ 64) (hc : ∀ cp ∈ c, cp.val < lsn) :
    live c (stamp lsn ks) = ks := by
  have hall : ∀ r ∈ stamp lsn ks, (!c.any (fun cp => r.lsn ≤ cp)) = true := by
    intro r hr
    have hle := (lsn_stamp hroom r hr).1
    cases c with
    | none => rfl
    | some cp =>
      have := hc cp rfl
      simp only [Option.any_some, Bool.not_eq_true', decide_eq_false_iff_not, Fin.not_le, Fin.lt_def]
      omega
  rw [live, filter_eq_self.2 hall, map_kind_stamp]

variable [WalCodec]

theorem Whole.split_last {segs : Segments} (h : Whole segs.toList rs) (hmax : ∀ n ∈ segs, n ≤ cur) :
    ∃ init rs0 rs1, Whole init rs0 ∧ rs = rs0 ++ rs1 ∧ ∀ bytes,
      (segs.insert cur (segs[cur]?.getD [] ++ bytes)).toList =
        init ++ [(cur, (walFraming WalError).frames rs1 ++ bytes)] := by
  have hsplit : ∀ {init : List (Nat × Bytes)} {n : Nat} {b : Bytes} {rs : List WalRecord},
      Whole (init ++ [(n, b)]) rs →
      ∃ rs0 rs1, Whole init rs0 ∧ rs = rs0 ++ rs1 ∧ b = (walFraming WalError).frames rs1 := by
    intro init
    induction init with
    | nil =>
      intro n b rs h
      cases h with
      | cons n rs h =>
        cases h
        exact ⟨[], rs, .nil, by simp, rfl⟩
    | cons s init ih =>
      intro n b rs h
      cases h with
      | cons n' rs' h =>
        obtain ⟨rs0, rs1, hw, rfl, hb⟩ := ih h
        exact ⟨rs' ++ rs0, rs1, .cons n' rs' hw, by simp, hb⟩
  have hlast := toList_eq_erase_last hmax
  cases hget : segs[cur]? with
  | none =>
    rw [hget] at hlast
    refine ⟨(segs.erase cur).toList, rs, [], ?_, by simp, ?_⟩
    · rw [hlast] at h
      simpa using h
    · intro bytes
      rw [toList_insert_last hmax]
      simp
  | some b =>
    rw [hget] at hlast
    rw [hlast] at h
    obtain ⟨rs0, rs1, hw, hrs, rfl⟩ := hsplit h
    refine ⟨(segs.erase cur).toList, rs0, rs1, hw, hrs, ?_⟩
    intro bytes
    rw [toList_insert_last hmax]
    simp

section

variable (h : Whole disk.segments.toList rs) (hmax : ∀ n ∈ disk.segments, n ≤ cur) (new : List WalRecord)
include h hmax new

theorem whole_appendTo : Whole (disk.appendTo cur ((walFraming WalError).frames new)).segments.toList (rs ++ new) := by
  obtain ⟨init, rs0, rs1, hinit, rfl, hins⟩ := h.split_last hmax
  rw [Disk.appendTo, hins, ← Framing.frames_append, append_assoc]
  exact hinit.append (.single cur _)

/-- An append that is cut short adds some of its records, and never the last one. -/
theorem torn_appendTo (written : Nat) :
    ∃ j, Torn (disk.appendTo cur (((walFraming WalError).frames new).take written)).segments.toList (rs ++ new.take j) ∧
      (written < ((walFraming WalError).frames new).length → j < new.length) := by
  obtain ⟨init, rs0, rs1, hinit, rfl, hins⟩ := h.split_last hmax
  obtain ⟨j, tail, htake, hcut, hj⟩ := (walFraming WalError).take_frames
    (fun r (_ : r ∈ new) => walFraming_fits r) written
  refine ⟨j, Or.inr ⟨init, cur, rs0, rs1 ++ new.take j, tail, ?_, hinit, ?_, hcut⟩, hj⟩
  · rw [Disk.appendTo, hins, htake, Framing.frames_append, append_assoc]
  · rw [append_assoc]

end

/-! Recovery. -/

/-- Recovering a log that replays to `q` gives `q`, and leaves the log whole. -/
theorem recover_of_logIs (hroot : H.manifest (.empty config.pageSize) ∈ disk.manifests)
    (hw : Torn disk.segments.toList rs) (h : LogIs H config disk rs q) (wal : Wal) :
    ∃ st, recover H config disk wal = .ok st ∧ st.disk.manifests = q.manifests ∧ st.disk.marker = disk.marker ∧
      Whole st.disk.segments.toList rs ∧ st.head = q.head ∧ st.leftover = q.pending ∧
      (∀ r ∈ rs, r.lsn.val < st.wal.nextLsn) ∧ (∀ cp ∈ disk.captured, cp.val < st.wal.nextLsn) ∧
      ∀ n ∈ st.disk.segments, n ≤ st.wal.current := by
  obtain ⟨pages, hrep⟩ := h
  rw [put_of_mem hroot] at hrep
  -- the base is there: the root by `hroot`, a marker's manifest because it resolves
  obtain ⟨start, hbase, hat, hcp⟩ : ∃ start, replayBase H config disk wal = .ok (start, disk.captured) ∧
      start.At ⟨disk.manifests, disk.startHead H config, pages, ∅⟩ ∧ ∀ cp ∈ disk.captured, cp.val < start.nextLsn := by
    have hmem : disk.startHead H config ∈ disk.manifests := hrep.resolves_left.mem
    unfold replayBase Disk.captured
    unfold Disk.startHead at hmem ⊢
    cases hck : disk.readCheckpoint with
    | none =>
      refine ⟨_, rfl, ⟨put_of_mem hroot, rfl, rfl⟩, ?_⟩
      simp
    | some c =>
      obtain ⟨manifest, lsn⟩ := c
      rw [hck] at hmem
      simp only [hmem, if_true]
      refine ⟨_, rfl, ⟨rfl, rfl, rfl⟩, ?_⟩
      simp
  obtain ⟨sc, hrun, hat', hle, hall, hwhole, hmax⟩ :=
    replaySegments_of_torn hw hrep hat wal.current wal.currentBytes
  have hfinal : sc.replay.head ∈ sc.replay.manifests := by
    rw [hat'.head, hat'.manifests]
    exact hrep.resolves_right.mem
  simp only [recover, hbase, ok_bind, hrun, hfinal, if_true]
  refine ⟨_, rfl, hat'.manifests, rfl, hwhole, hat'.head, hat'.pending, hall, ?_, hmax⟩
  intro cp hmem
  exact (hcp cp hmem).trans_le hle

/-- A log replays to the same point over all that its replay stores. -/
theorem LogIs.again (h : LogIs H config disk rs q) {s : Manifests} (hroot : H.manifest (.empty config.pageSize) ∈ s)
    (hs : ∀ id m, q.manifests.get H id = .ok m → s.get H id = .ok m) {disk' : Disk} (hman : disk'.manifests = s)
    (hmark : disk'.marker = disk.marker) :
    LogIs H config disk' rs { q with manifests := s } := by
  obtain ⟨pages, hrep⟩ := h
  have hck : disk'.readCheckpoint = disk.readCheckpoint := by
    rw [Disk.readCheckpoint, hmark]
    rfl
  refine ⟨pages, ?_⟩
  rw [hman, put_of_mem hroot, Disk.startHead, Disk.captured, hck]
  exact hrep.again hs

theorem LogIs.append {new : List WalRecord} {q' : Point} (h : LogIs H config disk rs q)
    (hnew : Replays H q (live disk.captured new) q') (cur : Nat) (bytes : Bytes) :
    LogIs H config (disk.appendTo cur bytes) (rs ++ new) q' := by
  obtain ⟨pages, hrep⟩ := h
  refine ⟨pages, ?_⟩
  rw [live_append]
  exact hrep.append hnew

/-! The invariant. -/

/-- The store is up: the log is whole and replays to what the process holds. -/
structure Up (H : Hashing) (config : StoreConfig) (w : World) (p : Process) : Prop where
  named : Named H w.hashed w.disk.manifests
  root : H.manifest (.empty config.pageSize) ∈ w.disk.manifests
  last : ∀ n ∈ w.disk.segments, n ≤ p.wal.current
  captured : ∀ cp ∈ w.disk.captured, cp.val < p.wal.nextLsn
  head : p.head = headAfter (H.manifest (.empty config.pageSize)) w.kept
  log : ∃ rs, Whole w.disk.segments.toList rs ∧ (∀ r ∈ rs, r.lsn.val < p.wal.nextLsn) ∧
    LogIs H config w.disk rs ⟨w.disk.manifests, p.head, pagesAfter w.kept, p.leftover⟩

/-- The store is down: the last record may be cut and its manifest not stored. -/
structure Down (H : Hashing) (config : StoreConfig) (w : World) : Prop where
  log : ∃ rs q, Torn w.disk.segments.toList rs ∧ LogIs H config w.disk rs q ∧ Named H w.hashed q.manifests ∧
    q.head = headAfter (H.manifest (.empty config.pageSize)) w.kept ∧ q.pages = pagesAfter w.kept

def Holds (H : Hashing) (config : StoreConfig) (w : World) : Prop :=
  match w.process with
  | some p => Up H config w p
  | none => Down H config w

namespace Up

variable {w : World} {p : Process}

theorem resolves (h : Up H config w p) : Resolves H w.disk.manifests p.head (pagesAfter w.kept) := by
  obtain ⟨rs, _, _, _, hrep⟩ := h.log
  exact hrep.resolves_right

theorem down (h : Up H config w p) {w' : World} (hdisk : w'.disk = w.disk) (hkept : w'.kept = w.kept)
    (hhashed : ∀ m ∈ w.hashed, m ∈ w'.hashed) : Down H config w' := by
  obtain ⟨rs, hwhole, _, hlog⟩ := h.log
  refine ⟨rs, _, ?_, hdisk ▸ hlog, ?_, ?_, ?_⟩
  · rw [hdisk]
    exact Or.inl hwhole
  · rw [hdisk]
    exact h.named.mono hhashed
  · rw [hkept]
    exact h.head
  · rw [hkept]

end Up

theorem Down.recovers {w : World} (h : Down H config w) {wal : Wal}
    (hopen : openStore H config w.disk = .ok (disk, wal)) :
    ∃ st, recover H config disk wal = .ok st ∧
      Up H config { w with disk := st.disk, process := some ⟨st.head, st.wal, ∅, st.leftover⟩ }
        ⟨st.head, st.wal, ∅, st.leftover⟩ := by
  obtain ⟨rs, q, hw, hlog, hnamed, hhead, hpages⟩ := h.log
  obtain ⟨_, _, hok⟩ := bind_ok.1 hopen
  obtain ⟨rfl, -⟩ := Prod.mk.inj (Except.ok.inj hok)
  have hroot : H.manifest (.empty config.pageSize) ∈ w.disk.manifests.put H (.empty config.pageSize) :=
    WriteOnce.mem_put.2 (Or.inl rfl)
  obtain ⟨pages, hrep⟩ := hlog
  have hlog' : LogIs H config { w.disk with manifests := w.disk.manifests.put H (.empty config.pageSize) } rs q := by
    refine ⟨pages, ?_⟩
    rw [put_put]
    exact hrep
  obtain ⟨st, hrec, hman, hmark, hwhole, hhead', hleft, hlsn, hcp, hmax⟩ :=
    recover_of_logIs (by exact hroot) (by exact hw) hlog' wal
  have hrootq : H.manifest (.empty config.pageSize) ∈ q.manifests := hrep.mem_right hroot
  have hcaptured : st.disk.captured = w.disk.captured := by
    rw [Disk.captured, Disk.readCheckpoint, hmark]
    rfl
  refine ⟨st, hrec, ?_, ?_, hmax, ?_, ?_, rs, hwhole, hlsn, ?_⟩
  · rw [hman]
    exact hnamed
  · rw [hman]
    exact hrootq
  · rw [hcaptured]
    exact hcp
  · rw [hhead']
    exact hhead
  · have hq : (⟨st.disk.manifests, st.head, pagesAfter w.kept, st.leftover⟩ : Point) = { q with manifests := q.manifests } := by
      rw [hman, hhead', hleft, ← hpages]
    rw [hq]
    exact hlog'.again hrootq (fun _ _ hget => hget) hman hmark

/-! Appending. -/

section

variable {w : World} {p : Process}

/-- Where the replay of an up store's log ends. -/
def World.point (w : World) (p : Process) : Point := ⟨w.disk.manifests, p.head, pagesAfter w.kept, p.leftover⟩

variable {ks : List RecordKind} {q : Point}

theorem Up.append (h : Up H config w p) (hroom : p.wal.Room ks) (hrep : Replays H (w.point p) ks q) :
    ∃ rs, Whole (w.disk.appendTo p.wal.current (p.wal.buffer ks)).segments.toList rs ∧
      (∀ r ∈ rs, r.lsn.val < p.wal.nextLsn + ks.length) ∧
      LogIs H config (w.disk.appendTo p.wal.current (p.wal.buffer ks)) rs q := by
  obtain ⟨rs, hwhole, hlsn, hlog⟩ := h.log
  have hle : p.wal.nextLsn + ks.length ≤ 2 ^ 64 := le_of_lt hroom
  refine ⟨rs ++ stamp p.wal.nextLsn ks, whole_appendTo hwhole h.last _, ?_, hlog.append ?_ _ _⟩
  · intro r hr
    rcases mem_append.1 hr with hr | hr
    · exact (hlsn r hr).trans_le (Nat.le_add_right _ _)
    · exact (lsn_stamp hle r hr).2
  · rw [live_stamp hle h.captured]
    exact hrep

/-- An append that a crash cuts: some first records of it are whole, not all. -/
theorem Up.appendCut (h : Up H config w p) (hroom : p.wal.Room ks) {written : Nat}
    (hcut : written < (p.wal.buffer ks).length) :
    ∃ j rs, j < ks.length ∧ Torn (w.disk.appendTo p.wal.current ((p.wal.buffer ks).take written)).segments.toList rs ∧
      ∀ q, Replays H (w.point p) (ks.take j) q →
        LogIs H config (w.disk.appendTo p.wal.current ((p.wal.buffer ks).take written)) rs q := by
  obtain ⟨rs, hwhole, hlsn, hlog⟩ := h.log
  obtain ⟨j, htorn, hj⟩ := torn_appendTo hwhole h.last (stamp p.wal.nextLsn ks) written
  have hle : p.wal.nextLsn + (ks.take j).length ≤ 2 ^ 64 := by
    have hroom' : p.wal.nextLsn + ks.length < 2 ^ 64 := hroom
    have := length_take_le' j ks
    omega
  refine ⟨j, _, ?_, htorn, ?_⟩
  · have := hj hcut
    rwa [length_stamp] at this
  · intro q hrep
    refine hlog.append ?_ _ _
    rw [take_stamp, live_stamp hle h.captured]
    exact hrep

theorem append_current_le (wal : Wal) (disk : Disk) (ks : List RecordKind) :
    wal.current ≤ (wal.append disk ks).2.current := by
  unfold Wal.append
  dsimp only
  split
  · exact Nat.le_succ _
  · exact le_refl _

theorem append_nextLsn (wal : Wal) (disk : Disk) (ks : List RecordKind) :
    (wal.append disk ks).2.nextLsn = wal.nextLsn + ks.length := by
  unfold Wal.append
  dsimp only
  split <;> rfl

theorem Up.appended (h : Up H config w p) (hroom : p.wal.Room ks) (hrep : Replays H (w.point p) ks q) {w' : World}
    {p' : Process}
    (hdisk : w'.disk = { w.disk.appendTo p.wal.current (p.wal.buffer ks) with manifests := q.manifests })
    (hp : w'.point p' = q) (hwal : p'.wal = (p.wal.append w.disk ks).2) (hnamed : Named H w'.hashed q.manifests)
    (hhead : q.head = headAfter (H.manifest (.empty config.pageSize)) w'.kept) : Up H config w' p' := by
  obtain ⟨rs, hwhole, hlsn, hlog⟩ := h.append hroom hrep
  have hman : w'.disk.manifests = q.manifests := by rw [hdisk]
  have hseg : w'.disk.segments = (w.disk.appendTo p.wal.current (p.wal.buffer ks)).segments := by rw [hdisk]
  have hmark : w'.disk.marker = w.disk.marker := by
    rw [hdisk]
    rfl
  have hroot : H.manifest (.empty config.pageSize) ∈ q.manifests := hrep.mem_right h.root
  refine ⟨?_, ?_, ?_, ?_, ?_, rs, ?_, ?_, ?_⟩
  · rw [hman]
    exact hnamed
  · rw [hman]
    exact hroot
  · rw [hseg, hwal]
    intro n hn
    refine le_trans ?_ (append_current_le p.wal w.disk ks)
    rcases mem_insert.1 hn with rfl | hn
    · exact le_refl _
    · exact h.last n hn
  · intro cp hcp
    rw [hwal, append_nextLsn]
    rw [Disk.captured, Disk.readCheckpoint, hmark] at hcp
    exact (h.captured cp hcp).trans_le (Nat.le_add_right _ _)
  · rw [← hhead, ← hp]
    rfl
  · rw [hseg]
    exact hwhole
  · rw [hwal, append_nextLsn]
    exact hlsn
  · have hagain := hlog.again hroot (fun _ _ hget => hget) hman hmark
    rw [← hp] at hagain
    exact hagain

end

end Mutiny.Substrate
