import Mutiny.Bridge.Outbox

/- What `prepare` makes of a capture that was committed.

   The checks at commit time are the checks at admission time: a capture that was
   committed prepares (`Ready`), to one batch per table in strict table order,
   whose tokens name the commit and the table, and whose rows fit the catalog. -/
namespace Mutiny.Bridge
open Mutiny.Lib Mutiny.Schweep Mutiny.Substrate SortedMap Oracle List

variable {S : Setup}

/-! Batches. -/

variable {table : String} {b' : LogBatch} {c : CommitCapture} {b : LogBatch}

def batchesOf (S : Setup) (c : CommitCapture) : List LogBatch := (batchMap S.authority c).toList.map Prod.snd

theorem batchMap_fold {l : List (String × List CapturedChange)} {m : BTreeMap String LogBatch}
    (h : (l.foldl (fun m t => m.insert t.1 (tableBatch c t.1 t.2)) m)[table]? = some b) :
    (∃ changes, (table, changes) ∈ l ∧ b = tableBatch c table changes) ∨ m[table]? = some b := by
  induction l generalizing m with
  | nil => exact Or.inr h
  | cons t l ih =>
    rcases ih h with ⟨changes, hmem, hb⟩ | hm
    · exact Or.inl ⟨changes, mem_cons_of_mem _ hmem, hb⟩
    · rw [SortedMap.getElem?_insert] at hm
      split at hm
      · next heq =>
        cases hm
        exact Or.inl ⟨t.2, by rw [← heq]; exact mem_cons_self, by rw [heq]⟩
      · exact Or.inr hm

theorem batchMap_some {A : Authority} (h : (batchMap A c)[table]? = some b) :
    table = derivationTable ∧ b = derivationBatch A c ∨
      ∃ changes, c.tables[table]? = some changes ∧ b = tableBatch c table changes := by
  unfold batchMap at h
  rw [SortedMap.getElem?_insert] at h
  split at h
  · next heq =>
    cases h
    exact Or.inl ⟨heq.symm, rfl⟩
  · rcases batchMap_fold h with ⟨changes, hmem, hb⟩ | hnone
    · exact Or.inr ⟨changes, SortedMap.mem_toList.1 hmem, hb⟩
    · simp at hnone

theorem mem_batchesOf : b ∈ batchesOf S c ↔ ∃ table : String, (batchMap S.authority c)[table]? = some b := by
  simp only [batchesOf, mem_map, Prod.exists, exists_eq_right, mem_toList]

theorem batch_names (h : (batchMap S.authority c)[table]? = some b) :
    b.table = table ∧ b.dedupToken = batchToken c.commit table := by
  rcases batchMap_some h with ⟨rfl, rfl⟩ | ⟨changes, _, rfl⟩
  · exact ⟨rfl, rfl⟩
  · exact ⟨rfl, rfl⟩

theorem token_of_mem (h : b ∈ batchesOf S c) : b.dedupToken = batchToken c.commit b.table := by
  obtain ⟨table, hget⟩ := mem_batchesOf.1 h
  obtain ⟨hname, htoken⟩ := batch_names hget
  rw [htoken, hname]

theorem batchesOf_sorted (S : Setup) (c : CommitCapture) : (batchesOf S c).Pairwise (fun a b => a.table < b.table) := by
  unfold batchesOf
  rw [pairwise_map]
  refine Pairwise.imp_of_mem ?_ (sorted_toList (batchMap S.authority c))
  rintro ⟨t, b⟩ ⟨t', b'⟩ hb hb' hlt
  rw [(batch_names (mem_toList.1 hb)).1, (batch_names (mem_toList.1 hb')).1]
  exact hlt

theorem token_inj {c' : CommitCapture} (h : b ∈ batchesOf S c) (h' : b' ∈ batchesOf S c')
    (htoken : b.dedupToken = b'.dedupToken) : c.commit = c'.commit ∧ b.table = b'.table := by
  rw [token_of_mem h, token_of_mem h', batchToken, batchToken] at htoken
  obtain ⟨hcommit, hrest⟩ := digestHex_append_inj htoken
  refine ⟨hcommit, ?_⟩
  have hchars := congrArg String.toList hrest
  simp only [String.toList_append] at hchars
  exact String.toList_inj.1 (append_cancel_left hchars)

theorem batch_eq_of_table (h : b ∈ batchesOf S c) (h' : b' ∈ batchesOf S c) (htable : b.table = b'.table) : b = b' := by
  obtain ⟨t, hget⟩ := mem_batchesOf.1 h
  obtain ⟨t', hget'⟩ := mem_batchesOf.1 h'
  rw [(batch_names hget).1, (batch_names hget').1] at htable
  subst htable
  rw [hget] at hget'
  exact Option.some.inj hget'

/-! Rows against the catalog. -/

variable {schema : Schema} {entries : Entries} {catalog : Catalog} {draft : CommitDraft}

theorem checkRows_ok :
    checkRows schema entries = .ok () ↔
      ∀ e ∈ entries, e.1.length = schema.len ∧ checkValues schema 0 e.1 = .ok () := by
  induction entries with
  | nil => simp [checkRows]
  | cons e rest ih =>
    obtain ⟨row, w⟩ := e
    rw [forall_mem_cons, ← ih, checkRows]
    by_cases hlen : row.length = schema.len
    · cases hvalues : checkValues schema 0 row with
      | error e | ok u => simp [hlen]
    · simp [hlen]

theorem checkRows_sorted (h : checkRows schema entries = .ok ()) :
    checkRows schema (sortedEntries entries) = .ok () := by
  rw [checkRows_ok] at h ⊢
  intro e he
  exact h e ((perm_insertionSort EntryLe entries).mem_iff.1 he)

theorem checkValues_derivation (tenant branch table : String) (key : Bytes) (source : SourceRef) (id : Digest) :
    checkValues derivationSchema 0 (derivationRow tenant branch table key source id) = .ok () := rfl

theorem checkRows_edges (A : Authority) (c : CommitCapture) :
    checkRows derivationSchema (derivationBatch A c).entries = .ok () := by
  refine checkRows_sorted (checkRows_ok.2 ?_)
  intro e he
  obtain ⟨t, _, he⟩ := mem_flatMap.1 he
  obtain ⟨change, _, he⟩ := mem_flatMap.1 he
  obtain ⟨source, _, rfl⟩ := mem_map.1 he
  exact ⟨rfl, checkValues_derivation _ _ _ _ _ _⟩

theorem validateRows_ok {l : List (String × Entries)} :
    validateRows catalog l = .ok () ↔
      ∀ t ∈ l, ∃ schema, catalog[t.1]? = some schema ∧ checkRows schema t.2 = .ok () := by
  induction l with
  | nil => simp [validateRows]
  | cons t rest ih =>
    obtain ⟨table, entries⟩ := t
    rw [forall_mem_cons, ← ih, validateRows]
    cases hget : catalog[table]? with
    | none => simp
    | some schema =>
      cases hrows : checkRows schema entries with
      | error e | ok u => simp [hrows, Except.mapError]

/-- The catalog accepts the batches of a capture whose draft it accepted. -/
theorem validateRows_batches (htables : c.tables = draft.tables)
    (h : validateDraftAgainstCatalog catalog draft = .ok ()) :
    ∀ b ∈ batchesOf S c, ∃ schema, catalog[b.table]? = some schema ∧ checkRows schema b.entries = .ok () := by
  unfold validateDraftAgainstCatalog at h
  cases hder : catalog[derivationTable]? with
  | none =>
    rw [hder] at h
    cases h
  | some declared =>
    rw [hder] at h
    by_cases hdecl : declared = derivationSchema
    · have hrows := h
      simp only [hdecl, ne_eq, not_true_eq_false, if_false] at hrows
      rw [validateRows_ok] at hrows
      intro b hb
      obtain ⟨table, hget⟩ := mem_batchesOf.1 hb
      rcases batchMap_some hget with ⟨_, rfl⟩ | ⟨changes, htable, rfl⟩
      · exact ⟨declared, hder, hdecl ▸ checkRows_edges _ _⟩
      · rw [htables] at htable
        obtain ⟨schema, hschema, hok⟩ := hrows (table, changeEntries changes)
          (mem_map.2 ⟨(table, changes), mem_toList.2 htable, rfl⟩)
        exact ⟨schema, hschema, checkRows_sorted hok⟩
    · simp only [hdecl, ne_eq, not_false_eq_true, if_true, throw_eq_error, error_bind] at h
      cases h

/-! Committed captures. -/

variable {explained : Finset LogicalPageNo}

/-- A capture that admission has nothing against. -/
structure Ready (S : Setup) (c : CommitCapture) : Prop where
  prepares : prepare S.hashing S.authority c = .ok ⟨S.authority.envelopeId c.envelope, batchesOf S c⟩
  rows : ∀ b ∈ batchesOf S c, ∃ schema, S.catalog[b.table]? = some schema ∧ Oracle.checkRows schema b.entries = .ok ()

theorem auditPages_self (pages : Finset LogicalPageNo) : auditPages pages pages = .ok () := by
  simp [auditPages]

theorem auditPages_ok {physical : Finset LogicalPageNo} (h : auditPages physical explained = .ok ()) :
    physical = explained := by
  unfold auditPages at h
  split at h
  · next heq =>
    rw [Finset.sdiff_eq_empty_iff_subset, Finset.sdiff_eq_empty_iff_subset] at heq
    exact Finset.Subset.antisymm heq.1 heq.2
  · cases h

theorem prepare_of_valid (hdraft : validateDraft S.authority draft = .ok ())
    (hexplained : explainedPages draft.tables.toList = .ok explained) (hfree : capturePage ∉ explained)
    (hname : S.hashing.manifest c.manifest = c.commit) (htenant : c.tenant = draft.tenant)
    (hplane : c.plane = draft.plane) (hbranch : c.branch = draft.branch) (hseq : c.commitSeq = draft.commitSeq)
    (henvelope : c.envelope = draft.envelope) (htables : c.tables = draft.tables)
    (hphysical : c.physicalPages = insert capturePage explained) :
    prepare S.hashing S.authority c = .ok ⟨S.authority.envelopeId c.envelope, batchesOf S c⟩ := by
  obtain ⟨_, hheader, hdraft⟩ := bind_ok.1 hdraft
  have hempty : draft.tables.isEmpty = false := by
    cases he : draft.tables.isEmpty with
    | false => rfl
    | true =>
      rw [he] at hdraft
      cases hdraft
  rw [hempty] at hdraft
  obtain ⟨_, htablesOk, hcheck⟩ := bind_ok.1 (show (validateTables draft.tables.toList >>= fun _ =>
    S.authority.check draft.envelope) = .ok () from hdraft)
  have haudit : auditPages (c.physicalPages.erase capturePage) explained = .ok () := by
    rw [hphysical, Finset.erase_insert hfree]
    exact auditPages_self explained
  unfold prepare
  rw [htenant, hplane, hbranch, hseq, henvelope, htables, hheader, hexplained, hname, hempty, hcheck, htablesOk]
  simp only [ok_bind, ne_eq, not_true_eq_false, if_false, Bool.false_eq_true, haudit, pure_eq_ok]
  rfl

end Mutiny.Bridge
