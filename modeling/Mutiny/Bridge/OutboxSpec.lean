import Mutiny.Bridge.CaptureSpec

/- The manifest history holds the captures, and the walk back finds them.

   `History` says what the ancestry of a manifest is: a root without a capture or
   a collapsed root with one, then commits that each hold their own capture, and
   between them prunes, which inherit the page of the capture before them. A walk
   that starts no lower than the root's floor and the last prune collects exactly
   the captures behind the sealed epoch (`walkBack_of_history`). A commit that
   returns extends the history by its own capture (`commitWithCapture_extends`). -/
namespace Mutiny.Bridge
open Mutiny.Lib Mutiny.Schweep Mutiny.Substrate SortedMap Store List

variable {S : Setup} {st st' : Store}

/-- Everything that can be read can still be read. -/
structure Store.Grows (S : Setup) (st st' : Store) : Prop where
  manifests : ∀ id m, st.manifests.get S.hashing id = .ok m → st'.manifests.get S.hashing id = .ok m
  pages : ∀ (id : PageId) bytes, st.pages[id]? = some bytes → st'.pages[id]? = some bytes

variable {pageNo : LogicalPageNo} {id : ManifestId}

theorem Store.Grows.read (hg : Grows S st st') {page : Page} (h : st.read S id pageNo = .ok page) :
    st'.read S id pageNo = .ok page := by
  unfold Store.read Substrate.read at h ⊢
  obtain ⟨found, hlook, h⟩ := bind_ok.1 h
  refine bind_ok.2 ⟨found, lookupPage_mono hg.manifests hlook, ?_⟩
  cases found with
  | none => exact h
  | some pid =>
    obtain ⟨bytes, hp, hname⟩ := Pages.get_ok.1 h
    exact Pages.get_ok.2 ⟨bytes, hg.pages pid bytes hp, hname⟩

theorem Store.Grows.readDraft (hg : Grows S st st') {d : CommitDraft} (h : st.readDraft S id = .ok d) :
    st'.readDraft S id = .ok d := by
  obtain ⟨page, hread, hdec⟩ := bind_ok.1 h
  rw [mapError_ok] at hread
  refine bind_ok.2 ⟨page, ?_, hdec⟩
  rw [mapError_ok]
  exact hg.read hread

variable {c : CommitCapture}

theorem Store.Grows.recoverCapture (hg : Grows S st st') (h : st.recoverCapture S id = .ok c) :
    st'.recoverCapture S id = .ok c := by
  obtain ⟨draft, hdraft, h⟩ := bind_ok.1 h
  obtain ⟨explained, hexp, h⟩ := bind_ok.1 h
  obtain ⟨m, hget, hc⟩ := bind_ok.1 h
  rw [mapError_ok] at hget
  refine bind_ok.2 ⟨draft, hg.readDraft hdraft, bind_ok.2 ⟨explained, hexp, bind_ok.2 ⟨m, ?_, hc⟩⟩⟩
  rw [mapError_ok]
  exact hg.manifests _ _ hget

theorem readDraft_of_recoverCapture (h : st.recoverCapture S id = .ok c) :
    ∃ d, st.readDraft S id = .ok d ∧ d.commitSeq = c.commitSeq := by
  obtain ⟨draft, hdraft, h⟩ := bind_ok.1 h
  obtain ⟨_, _, h⟩ := bind_ok.1 h
  obtain ⟨_, _, h⟩ := bind_ok.1 h
  cases h
  exact ⟨draft, hdraft, rfl⟩

/-! Histories. -/

variable {fuel : Nat} {s floor pruned : Nat} {cs : List CommitCapture} {ids : List ManifestId}

/-- The ancestry of a manifest: the floor its root stands at, the newest number a
    prune stands at, the captures after the floor, and the manifests on the way,
    newest first. -/
inductive History (S : Setup) (st : Store) : Nat → Nat → List CommitCapture → List ManifestId → ManifestId → Prop
  | root {id : ManifestId} {m : Manifest} (hget : st.manifests.get S.hashing id = .ok m) (hparent : m.parent = none)
      (hpage : lookupPage S.hashing st.manifests id capturePage = .ok none) : History S st 0 0 [] [id] id
  | collapsed {id : ManifestId} {m : Manifest} {c : CommitCapture} {page : PageId}
      (hget : st.manifests.get S.hashing id = .ok m) (hparent : m.parent = none)
      (hpage : lookupPage S.hashing st.manifests id capturePage = .ok (some page))
      (hcapture : st.recoverCapture S id = .ok c) : History S st c.commitSeq c.commitSeq [] [id] id
  | commit {floor pruned : Nat} {cs : List CommitCapture} {ids : List ManifestId} {parent : ManifestId} {m : Manifest}
      {c : CommitCapture} (h : History S st floor pruned cs ids parent)
      (hget : st.manifests.get S.hashing c.commit = .ok m) (hparent : m.parent = some parent)
      (hcapture : st.recoverCapture S c.commit = .ok c) (hseq : c.commitSeq = floor + cs.length + 1)
      (hfresh : c.commit ∉ ids) : History S st floor pruned (cs ++ [c]) (c.commit :: ids) c.commit
  | prune {floor pruned : Nat} {cs : List CommitCapture} {ids : List ManifestId} {parent id : ManifestId} {m : Manifest}
      {c : CommitCapture} (h : History S st floor pruned cs ids parent) (hget : st.manifests.get S.hashing id = .ok m)
      (hparent : m.parent = some parent) (hcapture : st.recoverCapture S id = .ok c)
      (hseq : c.commitSeq = floor + cs.length) (hfresh : id ∉ ids) :
      History S st floor (floor + cs.length) cs (id :: ids) id

namespace History

variable {floor pruned : Nat} {cs : List CommitCapture} {ids : List ManifestId} {id : ManifestId}

section

variable (h : History S st floor pruned cs ids id)
include h

theorem grow (hg : Grows S st st') : History S st' floor pruned cs ids id := by
  induction h with
  | root hget hparent hpage => exact .root (hg.manifests _ _ hget) hparent (lookupPage_mono hg.manifests hpage)
  | collapsed hget hparent hpage hcapture =>
    exact .collapsed (hg.manifests _ _ hget) hparent (lookupPage_mono hg.manifests hpage) (hg.recoverCapture hcapture)
  | commit _ hget hparent hcapture hseq hfresh ih =>
    exact .commit ih (hg.manifests _ _ hget) hparent (hg.recoverCapture hcapture) hseq hfresh
  | prune _ hget hparent hcapture hseq hfresh ih =>
    exact .prune ih (hg.manifests _ _ hget) hparent (hg.recoverCapture hcapture) hseq hfresh

theorem bounds : floor ≤ pruned ∧ pruned ≤ floor + cs.length := by
  induction h with
  | root => exact ⟨le_refl _, Nat.zero_le _⟩
  | collapsed => exact ⟨le_refl _, Nat.le_add_right _ _⟩
  | commit _ _ _ _ _ _ ih =>
    rw [length_append, length_singleton]
    omega
  | prune _ _ _ _ _ _ _ => omega

theorem nodup : ids.Nodup ∧ ∀ i ∈ ids, i ∈ st.manifests := by
  have hstored : ∀ {id m}, st.manifests.get S.hashing id = .ok m → id ∈ st.manifests := fun hget =>
    mem_iff.2 ⟨_, (Manifests.get_ok.1 hget).1⟩
  induction h with
  | root hget | collapsed hget => exact ⟨nodup_singleton _, by simpa using hstored hget⟩
  | commit _ hget _ _ _ hfresh ih | prune _ hget _ _ _ hfresh ih =>
    exact ⟨nodup_cons.2 ⟨hfresh, ih.1⟩, forall_mem_cons.2 ⟨hstored hget, ih.2⟩⟩

theorem length_le : ids.length ≤ st.manifests.size := by
  obtain ⟨hnodup, hmem⟩ := h.nodup
  have hsub : ids ⊆ st.manifests.toList.map Prod.fst := by
    intro i hi
    obtain ⟨m, hm⟩ := mem_iff.1 (hmem i hi)
    exact mem_map.2 ⟨(i, m), mem_toList.2 hm, rfl⟩
  have hle := (hnodup.subperm hsub).length_le
  rwa [length_map, Std.ExtTreeMap.length_toList] at hle

theorem seq : ∀ i c, cs[i]? = some c → c.commitSeq = floor + i + 1 := by
  induction h with
  | root => simp
  | collapsed => simp
  | @commit floor _ cs _ _ _ c _ _ _ _ hseq _ ih =>
    intro i c' hc
    rcases Nat.lt_trichotomy i cs.length with hi | rfl | hi
    · exact ih i c' (by rwa [List.getElem?_append_left hi] at hc)
    · rw [List.getElem?_concat_length] at hc
      cases hc
      exact hseq
    · rw [List.getElem?_eq_none (by simp; omega)] at hc
      cases hc
  | prune _ _ _ _ _ _ ih => exact ih

theorem recovers : ∀ c ∈ cs, st.recoverCapture S c.commit = .ok c := by
  induction h with
  | root => simp
  | collapsed => simp
  | commit _ _ _ hcapture _ _ ih =>
    rw [forall_mem_append, forall_mem_singleton]
    exact ⟨ih, hcapture⟩
  | prune _ _ _ _ _ _ ih => exact ih

/-- Every manifest of the history that holds a capture holds one that is not newer
    than the newest. -/
theorem seq_le : ∀ i ∈ ids, ∀ d, st.readDraft S i = .ok d → d.commitSeq ≤ floor + cs.length := by
  have hdraft : ∀ {i c d}, st.recoverCapture S i = .ok c → st.readDraft S i = .ok d → d.commitSeq = c.commitSeq := by
    intro i c d hc hd
    obtain ⟨d', hd', hseq⟩ := readDraft_of_recoverCapture hc
    rw [hd] at hd'
    cases hd'
    exact hseq
  induction h with
  | @root id _ _ _ hpage =>
    intro i hi d hd
    rw [mem_singleton.1 hi] at hd
    obtain ⟨page, hread, _⟩ := bind_ok.1 hd
    rw [mapError_ok, Store.read, Substrate.read, hpage] at hread
    cases hread
  | collapsed _ _ _ hcapture =>
    intro i hi d hd
    rw [mem_singleton.1 hi] at hd
    rw [hdraft hcapture hd]
    exact Nat.le_add_right _ _
  | commit _ _ _ hcapture hseq _ ih =>
    intro i hi d hd
    rw [length_append, length_singleton]
    rcases mem_cons.1 hi with rfl | hi
    · rw [hdraft hcapture hd, hseq, Nat.add_assoc]
    · exact Nat.le_trans (ih i hi d hd) (by omega)
  | prune _ _ _ hcapture hseq _ ih =>
    intro i hi d hd
    rcases mem_cons.1 hi with rfl | hi
    · rw [hdraft hcapture hd, hseq]
    · exact ih i hi d hd

end

end History

theorem walkBack_parent {parent : ManifestId} {m : Manifest} {pending : List CommitCapture}
    (hget : st.manifests.get S.hashing id = .ok m) (hparent : m.parent = some parent)
    (hcapture : st.recoverCapture S id = .ok c) :
    st.walkBack S s (fuel + 1) id pending =
      if c.commitSeq ≤ s then .ok pending else st.walkBack S s fuel parent (c :: pending) := by
  rw [walkBack, hget]
  simp only [Except.mapError, ok_bind, hparent, hcapture, pure_eq_ok]

/-- The walk collects the captures behind the sealed epoch. -/
theorem walkBack_of_history (h : History S st floor pruned cs ids id) (hpruned : pruned ≤ s)
    (hs : s ≤ floor + cs.length) (hfuel : ids.length ≤ fuel) (pending : List CommitCapture) :
    st.walkBack S s fuel id pending = .ok (cs.drop (s - floor) ++ pending) := by
  induction h generalizing fuel pending with
  | @root id m hget hparent hpage =>
    obtain ⟨n, rfl⟩ : ∃ n, fuel = n + 1 := ⟨fuel - 1, by simp at hfuel; omega⟩
    rw [walkBack, hget]
    simp [Except.mapError, hparent, hpage]
  | @collapsed id m c page hget hparent hpage hcapture =>
    obtain ⟨n, rfl⟩ : ∃ n, fuel = n + 1 := ⟨fuel - 1, by simp at hfuel; omega⟩
    rw [walkBack, hget]
    simp [Except.mapError, hparent, hpage, hcapture, Nat.not_lt.2 hpruned]
  | @commit floor pruned cs ids parent m c h hget hparent hcapture hseq hfresh ih =>
    rw [length_cons] at hfuel
    rw [length_append, length_singleton] at hs
    obtain ⟨n, rfl⟩ : ∃ n, fuel = n + 1 := ⟨fuel - 1, by omega⟩
    rw [walkBack_parent hget hparent hcapture]
    have hbounds := h.bounds
    by_cases hle : c.commitSeq ≤ s
    · rw [if_pos hle, drop_eq_nil_of_le (by simp; omega)]
      rfl
    · rw [if_neg hle, ih hpruned (by omega) (by omega), drop_append_of_le_length (by omega), append_assoc]
      rfl
  | @prune floor pruned cs ids parent id m c h hget hparent hcapture hseq hfresh ih =>
    rw [length_cons] at hfuel
    obtain ⟨n, rfl⟩ : ∃ n, fuel = n + 1 := ⟨fuel - 1, by omega⟩
    -- nothing behind a prune is wanted
    rw [walkBack_parent hget hparent hcapture, if_pos (by omega), drop_eq_nil_of_le (by omega)]
    rfl

theorem checkDense_of_seq {n : Nat} (h : ∀ i c, cs[i]? = some c → c.commitSeq = n + i) : checkDense n cs = .ok () := by
  induction cs generalizing n with
  | nil => rfl
  | cons c cs ih =>
    have hc := h 0 c rfl
    have hrest : ∀ i c', cs[i]? = some c' → c'.commitSeq = n + 1 + i := by
      intro i c' hi
      rw [h (i + 1) c' hi]
      omega
    unfold checkDense
    rw [if_neg (by omega)]
    exact ih hrest

theorem recoverPending_of_history (h : History S st floor pruned cs ids id) (hpruned : pruned ≤ s)
    (hs : s ≤ floor + cs.length) :
    st.recoverPendingCaptures S id s = .ok (cs.drop (s - floor)) := by
  have hbounds := h.bounds
  have hwalk := walkBack_of_history h hpruned hs (Nat.le_succ_of_le h.length_le) []
  rw [recoverPendingCaptures, hwalk, ok_bind, append_nil, checkDense_of_seq, ok_bind]
  · rfl
  · intro i c hc
    rw [List.getElem?_drop] at hc
    have := h.seq _ c hc
    omega

/-! Committing. -/

variable {now : U64} {draft : CommitDraft} {txn : Txn}

/-- The store holds what it is named for, and the head resolves. -/
structure Store.Sound (S : Setup) (hashedPages : List Bytes) (hashedManifests : List Manifest) (st : Store) : Prop where
  manifests : Named S.hashing hashedManifests st.manifests
  pages : NamedPages S.hashing S.config hashedPages st.pages
  head : ∃ pages, Resolves S.hashing st.manifests st.head pages

section

variable (h : History S st floor pruned cs ids id)
include h

theorem History.head_draft :
    (floor = 0 ∧ cs = [] ∧ lookupPage S.hashing st.manifests id capturePage = .ok none) ∨
      ∃ d, st.readDraft S id = .ok d ∧ d.commitSeq = floor + cs.length := by
  cases h with
  | root _ _ hpage => exact Or.inl ⟨rfl, rfl, hpage⟩
  | collapsed _ _ _ hcapture => exact Or.inr (readDraft_of_recoverCapture hcapture)
  | commit _ _ _ hcapture hseq =>
    obtain ⟨d, hd, hs⟩ := readDraft_of_recoverCapture hcapture
    refine Or.inr ⟨d, hd, ?_⟩
    rw [hs, hseq, length_append, length_singleton, Nat.add_assoc]
  | prune _ _ _ hcapture hseq =>
    obtain ⟨d, hd, hs⟩ := readDraft_of_recoverCapture hcapture
    exact Or.inr ⟨d, hd, hs.trans hseq⟩

theorem History.head_mem : id ∈ ids := by
  cases h <;> simp

theorem validateParentSequence_ok {found : Nat}
    (hok : st.validateParentSequence S id found = .ok ()) : found = floor + cs.length + 1 := by
  unfold validateParentSequence at hok
  rcases h.head_draft with ⟨rfl, rfl, hnone⟩ | ⟨d, hd, hseq⟩
  · have hread : st.read S id capturePage = .error (.pageNotFound capturePage id) := by
      rw [Store.read, Substrate.read, hnone]
      rfl
    rw [hread] at hok
    by_cases hone : found = 1
    · exact hone
    · simp only [hone, if_false] at hok
      cases hok
  · obtain ⟨page, hread, hdec⟩ := bind_ok.1 hd
    rw [mapError_ok] at hread hdec
    rw [hread] at hok
    simp only [hdec, Except.mapError, ok_bind] at hok
    rw [← hseq]
    by_contra hne
    rw [if_pos hne] at hok
    cases hok

end

/-- The manifest that the commit of a draft derives, for the record of what is
    hashed. -/
def Store.derived (S : Setup) (st : Store) (txn : Txn) (draft : CommitDraft) (now : U64) : List Manifest :=
  match S.codec.encode draft with
  | .error _ => []
  | .ok bytes =>
    let writes := txn.writes.insert capturePage (some (S.config.hasher.hash S.hashing bytes))
    match deriveNext S.hashing st.manifests txn.base writes now with
    | .ok (some (next, _)) => [next]
    | _ => []

def encoded (S : Setup) (draft : CommitDraft) : List Bytes := (S.codec.encode draft).toOption.toList

theorem read_of_lookup {page : PageId} {bytes : Bytes}
    (hlook : lookupPage S.hashing st.manifests id capturePage = .ok (some page))
    (hpage : st.pages[page]? = some bytes) (hname : S.config.hasher.hash S.hashing bytes = page)
    (hdec : S.codec.decode bytes = .ok draft) :
    st.readDraft S id = .ok draft := by
  have hread : st.read S id capturePage = .ok ⟨page, bytes⟩ := by
    rw [Store.read, Substrate.read, hlook, ok_bind]
    simp [Pages.get, hpage, Page.verify, hname]
  rw [readDraft, hread]
  simp [Except.mapError, hdec]

theorem mem_writtenPages : pageNo ∈ writtenPages txn ↔ pageNo ∈ txn.writes := by
  simp only [writtenPages, mem_toFinset, mem_map, Prod.exists, exists_and_right, exists_eq_right,
    mem_toList, mem_iff]

theorem writtenPages_insert (txn : Txn) {txn' : Txn} {page : Option PageId}
    (h : txn'.writes = txn.writes.insert pageNo page) :
    writtenPages txn' = insert pageNo (writtenPages txn) := by
  ext k
  rw [mem_writtenPages, h, mem_insert, Finset.mem_insert, mem_writtenPages]
  exact or_congr_left eq_comm

/-- A transaction with the capture's page staged. -/
def withCapture (S : Setup) (txn : Txn) (bytes : Bytes) : Txn :=
  { txn with
    writes := txn.writes.insert capturePage (some (S.config.hasher.hash S.hashing bytes))
    pinned := txn.pinned ++ [S.config.hasher.hash S.hashing bytes] }

def Store.withPage (S : Setup) (st : Store) (bytes : Bytes) : Store :=
  { st with pages := st.pages.put ⟨S.config.hasher.hash S.hashing bytes, bytes⟩ }

structure Committed (S : Setup) (st : Store) (txn : Txn) (draft : CommitDraft) (now : U64) (st' : Store)
    (c : CommitCapture) (bytes : Bytes) : Prop where
  free : capturePage ∉ txn.writes
  valid : validateDraft S.authority draft = .ok ()
  catalog : validateDraftAgainstCatalog S.catalog draft = .ok ()
  parent : st.validateParentSequence S txn.base draft.commitSeq = .ok ()
  explained : explainedPages draft.tables.toList = .ok (Store.writtenPages txn)
  encoded : S.codec.encode draft = .ok bytes
  stored : ∃ commit, (st.withPage S bytes).commitTxn S (withCapture S txn bytes) now = .ok (st', commit) ∧
    st'.materializeCapture S commit draft (insert capturePage (Store.writtenPages txn)) = .ok c

theorem validateCommit_ok (h : st.validateCommit S txn draft = .ok ()) :
    capturePage ∉ txn.writes ∧ validateDraft S.authority draft = .ok () ∧
      validateDraftAgainstCatalog S.catalog draft = .ok () ∧
      st.validateParentSequence S txn.base draft.commitSeq = .ok () ∧
      explainedPages draft.tables.toList = .ok (writtenPages txn) := by
  unfold validateCommit at h
  by_cases hfree : capturePage ∈ txn.writes
  · rw [if_pos hfree] at h
    cases h
  · rw [if_neg hfree] at h
    obtain ⟨_, hdraft, h⟩ := bind_ok.1 h
    obtain ⟨_, hcatalog, h⟩ := bind_ok.1 h
    obtain ⟨_, hparent, h⟩ := bind_ok.1 h
    obtain ⟨explained, hexplained, haudit⟩ := bind_ok.1 h
    exact ⟨hfree, hdraft, hcatalog, hparent, by rw [hexplained, auditPages_ok haudit]⟩

theorem commitWithCapture_ok (h : st.commitWithCapture S txn draft now = .ok (st', c)) :
    ∃ bytes, Committed S st txn draft now st' c bytes := by
  obtain ⟨_, hvalid, h⟩ := bind_ok.1 h
  obtain ⟨bytes, hencode, h⟩ := bind_ok.1 h
  obtain ⟨⟨st1, txn1⟩, hstage, h⟩ := bind_ok.1 h
  obtain ⟨⟨st2, commit⟩, hcommit, h⟩ := bind_ok.1 h
  obtain ⟨capture, hcapture, h⟩ := bind_ok.1 h
  cases h
  rw [mapError_ok] at hencode hstage hcommit
  obtain ⟨⟨pages, txn2, _⟩, hwrite, hstage⟩ := bind_ok.1 hstage
  obtain ⟨page, hpage, hwrite⟩ := bind_ok.1 hwrite
  cases hstage
  cases hwrite
  obtain rfl := Page.eq_of_new hpage
  obtain ⟨hfree, hdraft, hcatalog, hparent, hexplained⟩ := validateCommit_ok hvalid
  rw [writtenPages_insert txn rfl] at hcapture
  exact ⟨bytes, hfree, hdraft, hcatalog, hparent, hexplained, hencode, commit, hcommit, hcapture⟩

/-- A commit on the head extends the history by its capture, which is ready. -/
theorem commit_extends {hashedPages : List Bytes} {hashedManifests : List Manifest}
    (hst : Sound S hashedPages hashedManifests st) (hhist : History S st floor pruned cs ids st.head)
    (hbase : txn.base = st.head) (h : st.commitWithCapture S txn draft now = .ok (st', c))
    (hpages : TellsApart (S.config.hasher.hash S.hashing) (hashedPages ++ encoded S draft))
    (hmans : TellsApart S.hashing.manifest (hashedManifests ++ st.derived S txn draft now)) :
    Sound S (hashedPages ++ encoded S draft) (hashedManifests ++ st.derived S txn draft now) st' ∧
      History S st' floor pruned (cs ++ [c]) (c.commit :: ids) st'.head ∧ Ready S c ∧ Grows S st st' := by
  obtain ⟨bytes, hc⟩ := commitWithCapture_ok h
  obtain ⟨commit, hcommit, hcapture⟩ := hc.stored
  have hseq := validateParentSequence_ok hhist (hbase ▸ hc.parent)
  have henc : encoded S draft = [bytes] := by simp [encoded, hc.encoded, Except.toOption]
  rw [henc] at hpages ⊢
  obtain ⟨hnamed, hput, hold⟩ := put_page hst.pages hpages
  -- the capture is not yet in the history, with its page put or not
  have hg : Grows S st (st.withPage S bytes) := ⟨fun _ _ hget => hget, hold⟩
  have hnew : ∀ i ∈ ids, (st.withPage S bytes).readDraft S i ≠ .ok draft := by
    intro i hi hread
    have := (hhist.grow hg).seq_le i hi draft hread
    omega
  have hdec := S.codec.decode_encode _ _ hc.encoded
  have hwrites : (withCapture S txn bytes).writes[capturePage]? = some (some (S.config.hasher.hash S.hashing bytes)) := by
    simp [withCapture]
  obtain ⟨pages, hres⟩ := hst.head
  rw [← hbase] at hres
  rcases deriveNext_of_resolves hres (withCapture S txn bytes).writes now with ⟨hsame, _⟩ | ⟨_, next, hder, hderived⟩
  · -- a commit that changes nothing would have its own capture on the head already
    refine absurd (read_of_lookup ?_ hput rfl hdec) (hnew st.head hhist.head_mem)
    have hlook := lookupPage_of_resolves hres capturePage
    rw [← hsame, getElem?_patch, hwrites, hbase] at hlook
    exact hlook
  · have hderivedEq : st.derived S txn draft now = [next] := by
      unfold derived
      rw [hc.encoded]
      simp only [withCapture] at hder
      simp only [hder]
    rw [hderivedEq] at hmans ⊢
    obtain ⟨hnamedM, hfreshM, -⟩ := hst.manifests.put_new hmans
    have hnext := hderived.resolves_put hfreshM
    have hlook := lookupPage_of_resolves hnext capturePage
    rw [getElem?_patch, hwrites] at hlook
    obtain ⟨derived, hder', hcommit⟩ := bind_ok.1 hcommit
    cases ok_unique hder' hder
    obtain ⟨rfl, rfl⟩ := Prod.mk.inj (Except.ok.inj hcommit)
    have hread : readDraft S { st.withPage S bytes with
        manifests := st.manifests.put S.hashing next, head := S.hashing.manifest next } _ = .ok draft :=
      read_of_lookup hlook hput rfl hdec
    have hfresh : S.hashing.manifest next ∉ ids := by
      intro hmem
      rw [put_of_mem (hhist.nodup.2 _ hmem)] at hread
      exact hnew _ hmem hread
    have hrecover : recoverCapture S _ (S.hashing.manifest next) = .ok c :=
      bind_ok.2 ⟨draft, hread, bind_ok.2 ⟨_, hc.explained, hcapture⟩⟩
    obtain ⟨m, hget, hcapture⟩ := bind_ok.1 hcapture
    rw [mapError_ok] at hget
    cases ok_unique hget (Manifests.get_put_self hfreshM)
    cases hcapture
    have hgrows : Grows S st { st.withPage S bytes with
        manifests := st.manifests.put S.hashing next, head := S.hashing.manifest next } :=
      ⟨fun _ _ hget => Manifests.get_put_of_get hget next, hold⟩
    refine ⟨⟨hnamedM, hnamed, _, hnext⟩, ?_, ⟨?_, ?_⟩, hgrows⟩
    · exact .commit (hhist.grow hgrows) hget (hderived.parent.trans (congrArg some hbase)) hrecover hseq hfresh
    · have hfree : capturePage ∉ writtenPages txn := fun hmem => hc.free (mem_writtenPages.1 hmem)
      exact prepare_of_valid hc.valid hc.explained hfree rfl rfl rfl rfl rfl rfl rfl rfl
    · exact validateRows_batches rfl hc.catalog

end Mutiny.Bridge
