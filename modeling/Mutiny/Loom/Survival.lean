import Mutiny.Loom.Lineage
import Mutiny.Loom.TaintSpec

/- Provenance across merges.

   A node is stored at a key that ends in its branch's name and a number, and so are
   the entries of its sources. The number is kept at a reserved key of the branch,
   which merges leave alone and a rewind turns back with the tree. As long as a
   branch has every node of its own that any branch has, numbered below its next
   number (`Numbered`), two trees never differ at a provenance key they both have.
   Then a merge takes over what the target has not, and no provenance key is in
   conflict (`provenance_survives_merges`); a walk from a source on the target meets
   what it met on either side.

   Writes, new branches and merges keep this. A rewind may not: a node that another
   branch has taken over loses its number to the next write, and the merge back is a
   conflict, or keeps one of the two (`rewound_node_is_lost`). -/
namespace Mutiny.Loom
open Mutiny.Lib Mutiny.Substrate SortedMap LoomDb Pages List
open Mutiny.Bridge (SourceRef WriteEnvelope)
open LoomDb (isCallerKey)
open BeliefWorld (newDb feed)

/-! Whose a key is. -/

variable {y y' branch : BranchId} {n : Nat} {key : Key} {E : Engine}

/-- A name of at most 255 bytes, none of them zero. -/
def FineName (branch : BranchId) : Prop := (utf8 branch).length < 256 ∧ 0 ∉ utf8 branch

instance (branch : BranchId) : Decidable (FineName branch) := inferInstanceAs (Decidable (_ ∧ _))

def lastNumber (key : Key) : Nat := beNat (key.drop (key.length - 8))

/-- The number a branch gave to a key. -/
def ownNumber? (branch : BranchId) (key : Key) : Option Nat :=
  if branchSeq branch (lastNumber key) <:+ key then some (lastNumber key) else none

theorem beBytes_two (h : n < 256) : beBytes 2 n = [0, UInt8.ofNat n] := by
  have hdiv : n / 256 = 0 := Nat.div_eq_of_lt h
  simp [beBytes, hdiv, Nat.mod_eq_of_lt h]

theorem lastNumber_of_suffix (hn : n < 2 ^ 64) (h : branchSeq branch n <:+ key) : lastNumber key = n := by
  obtain ⟨start, rfl⟩ := h
  have hlast : (start ++ branchSeq branch n).drop ((start ++ branchSeq branch n).length - 8) = beBytes 8 n := by
    rw [branchSeq, ← append_assoc]
    refine drop_left' ?_
    simp only [length_append, length_beBytes]
    omega
  rw [lastNumber, hlast, beNat_beBytes]
  exact Nat.mod_eq_of_lt (hn.trans_eq (by norm_num))

theorem ownNumber?_of_suffix (hn : n < 2 ^ 64) (h : branchSeq branch n <:+ key) : ownNumber? branch key = some n := by
  rw [ownNumber?, lastNumber_of_suffix hn h, if_pos h]

theorem suffix_of_ownNumber? (h : ownNumber? branch key = some n) :
    lastNumber key = n ∧ branchSeq branch n <:+ key := by
  unfold ownNumber? at h
  split_ifs at h with hsuffix
  cases h
  exact ⟨rfl, hsuffix⟩

/-- A shorter name inside a longer one would start with a zero byte. -/
theorem name_of_suffix (hy : FineName y) (hy' : FineName y')
    (h : beBytes 2 (utf8 y').length ++ utf8 y' <:+ beBytes 2 (utf8 y).length ++ utf8 y) : y = y' := by
  obtain ⟨start, hstart⟩ := h
  rw [beBytes_two hy.1, beBytes_two hy'.1] at hstart
  match start, hstart with
  | [], hstart =>
    simp only [nil_append, cons_append, List.cons.injEq, true_and] at hstart
    exact (utf8_inj hstart.2).symm
  | [a], hstart =>
    simp only [cons_append, nil_append, List.cons.injEq] at hstart
    obtain ⟨-, hlen, hrest⟩ := hstart
    have hnil : (utf8 y).length = 0 := by
      have hval := congrArg UInt8.toNat hlen
      simp only [UInt8.toNat_ofNat', UInt8.toNat_zero] at hval
      have := hy.1
      omega
    rw [length_eq_zero_iff.1 hnil] at hrest
    cases hrest
  | a :: b :: start, hstart =>
    simp only [cons_append, nil_append, List.cons.injEq] at hstart
    exact absurd (hstart.2.2 ▸ (by simp)) hy.2

theorem owner_unique {n' : Nat} (hy : FineName y) (hy' : FineName y') (h : ownNumber? y key = some n)
    (h' : ownNumber? y' key = some n') : y = y' := by
  obtain ⟨hn, hsuffix⟩ := suffix_of_ownNumber? h
  obtain ⟨hn', hsuffix'⟩ := suffix_of_ownNumber? h'
  obtain rfl : n = n' := hn.symm.trans hn'
  have hcut : ∀ {z}, branchSeq z n <:+ key → beBytes 2 (utf8 z).length ++ utf8 z <:+ key.take (key.length - 8) := by
    rintro z ⟨start, rfl⟩
    refine ⟨start, ?_⟩
    have hsplit : start ++ branchSeq z n = start ++ (beBytes 2 (utf8 z).length ++ utf8 z) ++ beBytes 8 n := by
      simp [branchSeq]
    rw [hsplit]
    refine (take_left' ?_).symm
    simp only [length_append, length_beBytes]
    omega
  rcases le_total (utf8 y').length (utf8 y).length with hle | hle
  · exact name_of_suffix hy hy' (suffix_of_suffix_length_le (hcut hsuffix') (hcut hsuffix) (by simpa using hle))
  · exact (name_of_suffix hy' hy (suffix_of_suffix_length_le (hcut hsuffix) (hcut hsuffix') (by simpa using hle))).symm

theorem branchSeq_suffix_node (branch : BranchId) (n : Nat) : branchSeq branch n <:+ nodeStorageKey branch n :=
  suffix_append _ _

theorem branchSeq_suffix_source (source : SourceRef) (branch : BranchId) (n : Nat) :
    branchSeq branch n <:+ sourceIndexKey source branch n := suffix_append _ _

theorem reservedKey_ne {kind kind' : String}
    (h : utf8 kind ≠ [] ∧ utf8 kind' ≠ [] ∧ (utf8 kind).head? ≠ (utf8 kind').head?) (rest rest' : Bytes) :
    reservedKey kind rest ≠ reservedKey kind' rest' := by
  intro heq
  rw [reservedKey, reservedKey, append_assoc, append_assoc] at heq
  have hhead := congrArg List.head? (append_cancel_left heq)
  rw [List.head?_append_of_ne_nil _ h.1, List.head?_append_of_ne_nil _ h.2.1] at hhead
  exact h.2.2 hhead

/-! What a write does to the provenance layer. -/

section Writes

variable {head : CommitId} {written : Entries} {envelope : WriteEnvelope}
  {captured : ReadSet} {extraParents : List (Key × List NodeId)} {hints : List (Key × IndexHint)}
  {p : Entries} {w : Key × Record} {seq : Nat} {nodes : List DerivationNode}

theorem own_of_nodesWrites (h : w ∈ nodesWrites E y seq nodes) (hprov : isProvenance w.1 = true) :
    ∃ i, seq ≤ i ∧ i < seq + nodes.length ∧ branchSeq y i <:+ w.1 := by
  induction nodes generalizing seq with
  | nil =>
    obtain rfl := mem_singleton.1 h
    rw [provSeqKey, not_isProvenance_reservedKey] at hprov
    cases hprov
  | cons node nodes ih =>
    rcases mem_append.1 h with h | h
    · refine ⟨seq, le_rfl, by simp, ?_⟩
      simp only [nodeWrites, mem_cons, mem_map] at h
      rcases h with rfl | rfl | ⟨source, -, rfl⟩
      · exact branchSeq_suffix_node y seq
      · rw [latestNodeKey, not_isProvenance_reservedKey] at hprov
        cases hprov
      · exact branchSeq_suffix_source source y seq
    · obtain ⟨i, hle, hlt, hsuffix⟩ := ih h
      exact ⟨i, by omega, by rw [length_cons]; omega, hsuffix⟩

theorem not_provenance_entryWrites {e : Key × Record} (h : w ∈ entryWrites E captured hints e) :
    isProvenance w.1 = false ∧ ∀ y, w.1 ≠ provSeqKey y := by
  rcases mem_entryWrites h with hkey | hkey
  · rw [hkey]
    exact ⟨not_isProvenance_reservedKey _ _, fun y => reservedKey_ne (by decide) _ _⟩
  · rw [hkey]
    exact ⟨not_isProvenance_reservedKey _ _, fun y => reservedKey_ne (by decide) _ _⟩

theorem not_provenance_versionsWrites {claims : List Claim} (h : w ∈ versionsWrites E p claims) :
    isProvenance w.1 = false ∧ ∀ y, w.1 ≠ provSeqKey y := by
  obtain ⟨claim, -, rest, hkey⟩ := mem_versionsWrites h
  rw [hkey, historyPrefix, reservedKey, append_assoc, ← reservedKey]
  exact ⟨not_isProvenance_reservedKey _ _, fun y => reservedKey_ne (by decide) _ _⟩

theorem mem_engineWrites_layer (h : w ∈ engineWrites E y head written envelope captured extraParents hints p)
    (hkey : isProvenance w.1 = true ∨ ∃ z, w.1 = provSeqKey z) :
    w ∈ provenanceWrites E y head written envelope captured extraParents p := by
  have hnot : ¬ (isProvenance w.1 = false ∧ ∀ z, w.1 ≠ provSeqKey z) := by
    rintro ⟨hprov, hne⟩
    rcases hkey with hkey | ⟨z, hz⟩
    · rw [hprov] at hkey
      cases hkey
    · exact hne z hz
  simp only [engineWrites, mem_append] at h
  rcases h with (h | h) | h
  · exact h
  · obtain ⟨e, -, hw⟩ := mem_flatMap.1 h
    exact absurd (not_provenance_entryWrites hw) hnot
  · exact absurd (not_provenance_versionsWrites h) hnot

theorem mem_nodesWrites_counter (nodes : List DerivationNode) :
    (provSeqKey y, Record.value (.counter (I64.wrap (seq + nodes.length : Nat)))) ∈ nodesWrites E y seq nodes := by
  induction nodes generalizing seq with
  | nil => exact mem_singleton_self _
  | cons node nodes ih =>
    have hshift : seq + (node :: nodes).length = seq + 1 + nodes.length := by
      rw [length_cons]
      omega
    rw [hshift]
    exact mem_append_right _ ih

theorem counter_of_nodesWrites (h : w ∈ nodesWrites E y seq nodes) {z : BranchId} (hkey : w.1 = provSeqKey z) :
    w = (provSeqKey y, .value (.counter (I64.wrap (seq + nodes.length : Nat)))) := by
  induction nodes generalizing seq with
  | nil => exact mem_singleton.1 h
  | cons node nodes ih =>
    have hnot : isProvenance w.1 = false := by
      rw [hkey]
      exact not_isProvenance_reservedKey _ _
    have hshift : seq + (node :: nodes).length = seq + 1 + nodes.length := by
      rw [length_cons]
      omega
    rw [hshift]
    rcases mem_append.1 h with h | h
    · simp only [nodeWrites, mem_cons, mem_map] at h
      rcases h with rfl | rfl | ⟨source, -, rfl⟩
      · rw [isProvenance_nodeStorageKey] at hnot
        cases hnot
      · exact absurd hkey (reservedKey_ne (by decide) _ _)
      · rw [isProvenance_sourceIndexKey] at hnot
        cases hnot
    · exact ih h

variable {m : Entries}

theorem seqIn_of_counter {n : Nat} (hn : n < 2 ^ 64)
    (h : findEntry (provSeqKey y) m = some (.value (.counter (I64.wrap n)))) : seqIn m y = n := by
  have hpow : (2 : Int) ^ 64 = 18446744073709551616 := by norm_num
  have hread := I64.wrap_toNat (n := n) (hn.trans_eq (by norm_num))
  rw [seqIn, h, Option.bind_some, Record.counter?, Option.elim_some, hpow]
  exact hread

theorem seqIn_congr {m' : Entries} (h : findEntry (provSeqKey y) m' = findEntry (provSeqKey y) m) :
    seqIn m' y = seqIn m y := by
  rw [seqIn, seqIn, h]

/-- A write's nodes get the numbers from the branch's next on, which goes up by how many
    they are. -/
theorem engineWrites_numbers (hroom : seqIn p y + written.length < 2 ^ 64) :
    ∃ count, seqIn (puts p (engineWrites E y head written envelope captured extraParents hints p)) y = seqIn p y + count ∧
      ∀ w ∈ engineWrites E y head written envelope captured extraParents hints p, isProvenance w.1 = true →
        ∃ n, ownNumber? y w.1 = some n ∧ seqIn p y ≤ n ∧ n < seqIn p y + count := by
  have hlayer : ∀ w ∈ engineWrites E y head written envelope captured extraParents hints p,
      (isProvenance w.1 = true ∨ ∃ z, w.1 = provSeqKey z) →
        w ∈ provenanceWrites E y head written envelope captured extraParents p := fun w => mem_engineWrites_layer
  have hsub : ∀ w ∈ provenanceWrites E y head written envelope captured extraParents p,
      w ∈ engineWrites E y head written envelope captured extraParents hints p :=
    fun w hw => mem_append_left _ (mem_append_left _ hw)
  unfold provenanceWrites at hlayer hsub
  by_cases hany : written.any (fun e => !isProvenance e.1 && !isReserved e.1) = true
  · have hlen : (derivationNodes E y head written envelope captured extraParents).length ≤ written.length := by
      rw [derivationNodes, length_map]
      exact length_filter_le _ _
    rw [if_pos hany] at hlayer hsub
    refine ⟨(derivationNodes E y head written envelope captured extraParents).length, seqIn_of_counter (by omega)
      (findEntry_puts_of_unique (fun w hw hkey => ?_) ⟨_, hsub _ (mem_nodesWrites_counter _), rfl⟩), fun w hw hprov => ?_⟩
    · exact congrArg Prod.snd (counter_of_nodesWrites (hlayer w hw (.inr ⟨y, hkey⟩)) hkey)
    · obtain ⟨i, hle, hlt, hsuffix⟩ := own_of_nodesWrites (hlayer w hw (.inl hprov)) hprov
      exact ⟨i, ownNumber?_of_suffix (by omega) hsuffix, hle, hlt⟩
  · rw [if_neg hany] at hlayer
    refine ⟨0, seqIn_congr (findEntry_puts_of_not_mem (fun w hw hkey => ?_)), fun w hw hprov => ?_⟩
    · cases hlayer w hw (.inr ⟨y, hkey⟩)
    · cases hlayer w hw (.inl hprov)

end Writes

/-! What an operation does to the provenance layer. -/

/-- The provenance of `m` is in `m'`. -/
def Keeps (m m' : Entries) : Prop := ∀ e ∈ m, isProvenance e.1 = true → e ∈ m'

theorem Keeps.refl (m : Entries) : Keeps m m := fun _ he _ => he

theorem Keeps.trans (m m' m'' : Entries) (h : Keeps m m') (h' : Keeps m' m'') : Keeps m m'' :=
  fun e he hprov => h' e (h e he hprov) hprov

/-- The records of a branch after an operation: its provenance and that of another
    branch, and new nodes of its own with numbers below the next. -/
structure Adds (y : BranchId) (m extra m' : Entries) : Prop where
  keeps : Keeps m m'
  takes : Keeps extra m'
  counts : seqIn m y ≤ seqIn m' y
  new : ∀ e ∈ m', isProvenance e.1 = true →
    e ∈ m ∨ e ∈ extra ∨ ∃ n, ownNumber? y e.1 = some n ∧ n < seqIn m' y

/-- The branch's own nodes have numbers below its next. -/
def BelowNext (y : BranchId) (m : Entries) (next : Nat) : Prop :=
  ∀ e ∈ m, isProvenance e.1 = true → ∀ n, ownNumber? y e.1 = some n → n < next

variable {A : AnnGraph} {m m' : Entries} {e : Key × Record}

section Layer

variable {extra p : Entries} {kind : String}

theorem Adds.trans {m1 : Entries} (h : Adds y m extra m1) (h' : Adds y m1 [] m') : Adds y m extra m' where
  keeps := Keeps.trans m m1 m' h.keeps h'.keeps
  takes := Keeps.trans extra m1 m' h.takes h'.keeps
  counts := h.counts.trans h'.counts
  new e he hprov := by
    rcases h'.new e he hprov with he | he | hown
    · exact (h.new e he hprov).imp_right (Or.imp_right fun ⟨n, hn, hlt⟩ => ⟨n, hn, hlt.trans_le h'.counts⟩)
    · cases he
    · exact .inr (.inr hown)

theorem mem_layer (hprov : isProvenance e.1 = true) : e ∈ enginePart m ↔ e ∈ m := by
  rw [mem_enginePart]
  exact and_iff_left (by simp [isCallerKey, hprov])

theorem Adds.of_enginePart (h : Adds y (enginePart m) (enginePart extra) (enginePart m')) : Adds y m extra m' where
  keeps e he hprov := (mem_layer hprov).1 (h.keeps e ((mem_layer hprov).2 he) hprov)
  takes e he hprov := (mem_layer hprov).1 (h.takes e ((mem_layer hprov).2 he) hprov)
  counts := by
    rw [← seqIn_enginePart m, ← seqIn_enginePart m']
    exact h.counts
  new e he hprov := by
    have hnew := h.new e ((mem_layer hprov).2 he) hprov
    rwa [mem_layer hprov, mem_layer hprov, seqIn_enginePart] at hnew

theorem adds_engineWrites (hp : Sorted p) (hown : BelowNext y p (seqIn p y)) {head : CommitId}
    {written : Entries} {envelope : WriteEnvelope} {captured : ReadSet}
    {extraParents : List (Key × List NodeId)} {hints : List (Key × IndexHint)}
    (hroom : seqIn p y + written.length < 2 ^ 64) :
    Adds y p [] (puts p (engineWrites E y head written envelope captured extraParents hints p)) := by
  obtain ⟨count, hnext, hnew⟩ := @engineWrites_numbers y E head written envelope captured extraParents hints p hroom
  refine ⟨fun e he hprov => ?_, by simp [Keeps], by omega, fun e he hprov => ?_⟩
  · -- a new node at an old key would have a number below the next
    refine (mem_puts_of_not hp (fun w hw heq => ?_)).2 he
    obtain ⟨n, hn, hle, -⟩ := hnew w hw (heq ▸ hprov)
    have := hown e he hprov n (heq ▸ hn)
    omega
  · rcases mem_of_mem_puts he with hw | he
    · obtain ⟨n, hn, -, hlt⟩ := hnew e hw hprov
      exact .inr (.inr ⟨n, hn, by omega⟩)
    · exact .inl he

theorem adds_write (hm : Sorted m) (hown : BelowNext y m (seqIn m y)) {records : Entries}
    (hkeys : ∀ e ∈ records, isCallerKey e.1 = true) (hroom : seqIn m y + records.length < 2 ^ 64) (head : CommitId)
    (envelope : WriteEnvelope) (captured : ReadSet) (extraParents : List (Key × List NodeId))
    (hints : List (Key × IndexHint)) :
    Adds y m [] (puts m (records ++ engineWrites E y head records envelope captured extraParents hints (puts m records))) := by
  refine Adds.of_enginePart ?_
  rw [enginePart_write hm hkeys]
  refine adds_engineWrites (sorted_enginePart hm) (fun e he hprov n hn => ?_) (by rwa [seqIn_enginePart])
  rw [seqIn_enginePart]
  exact hown e ((mem_layer hprov).1 he) hprov n hn

theorem findEntry_dropAll (hm : Sorted m) {keys : List Key} (h : key ∉ keys) :
    findEntry key (dropAll m keys) = findEntry key m := by
  refine Option.ext (fun record => ?_)
  rw [findEntry_eq_some (sorted_dropAll hm keys), findEntry_eq_some hm, mem_dropAll]
  exact and_iff_left h

theorem reservedKey_ne_provenance (hprov : isProvenance key = true) (rest : Bytes) : reservedKey kind rest ≠ key := by
  rintro rfl
  rw [not_isProvenance_reservedKey] at hprov
  cases hprov

/-- A key of the layer: of a node, of a source, of a number or of a merge's memory. -/
def Lasting (key : Key) : Prop :=
  isProvenance key = true ∨ (∃ y, key = provSeqKey y) ∨ ∃ source, key = mergedFromKey source

theorem Lasting.ne (h : Lasting key) (hkind : kind ∈ ["idx/", "hnsw/", "annbuf/"]) (rest : Bytes) :
    reservedKey kind rest ≠ key := by
  simp only [mem_cons, not_mem_nil, or_false] at hkind
  rcases h with hprov | ⟨y, rfl⟩ | ⟨source, rfl⟩
  · exact reservedKey_ne_provenance hprov rest
  all_goals rcases hkind with rfl | rfl | rfl <;> exact reservedKey_ne (by decide) _ _

theorem Lasting.not_caller (h : Lasting key) : isCallerKey key = false := by
  rcases h with hprov | ⟨y, rfl⟩ | ⟨source, rfl⟩
  · simp [isCallerKey, hprov]
  · exact not_caller_reservedKey _ _
  · exact not_caller_reservedKey _ _

theorem findEntry_forgotten (hm : Sorted m) (h : Lasting key) (keys : List Key) :
    findEntry key (dropAll m (keys.map indexKey)) = findEntry key m := by
  refine findEntry_dropAll hm (fun hmem => ?_)
  obtain ⟨k, -, hk⟩ := mem_map.1 hmem
  exact h.ne (by decide) k hk

theorem graphKey_eq (k : GraphKey) : ∃ rest, k.key = reservedKey "hnsw/" rest := by
  cases k with
  | node id | graph => exact ⟨_, rfl⟩

theorem findEntry_graphWrites (nodes : List (GraphKey × Bytes)) (h : Lasting key) :
    findEntry key (puts m (graphWrites nodes)) = findEntry key m := by
  refine findEntry_puts_of_not_mem (fun w hw heq => ?_)
  obtain ⟨n, -, rfl⟩ := mem_map.1 hw
  obtain ⟨rest, hrest⟩ := graphKey_eq n.1
  exact h.ne (by decide) rest (hrest.symm.trans heq)

theorem sorted_withGraph (hm : Sorted m) (nodes : List (GraphKey × Bytes)) : Sorted (withGraph m nodes) :=
  sorted_dropAll (sorted_puts hm _) _

theorem findEntry_withGraph (hm : Sorted m) (nodes : List (GraphKey × Bytes)) (h : Lasting key) :
    findEntry key (withGraph m nodes) = findEntry key m := by
  rw [withGraph, findEntry_dropAll (sorted_puts hm _), findEntry_graphWrites nodes h]
  intro hmem
  obtain ⟨e, he, rfl⟩ := mem_map.1 hmem
  obtain ⟨rest, hrest⟩ := isPrefixOf_iff_prefix.1 (mem_filter.1 he).2
  refine h.ne (by decide : "annbuf/" ∈ _) rest ?_
  rw [← hrest, annBufferPrefix, reservedKey, reservedKey, append_nil]

theorem adds_of_lasting (hm : Sorted m) (hm' : Sorted (enginePart m'))
    (h : ∀ key, Lasting key → findEntry key (enginePart m') = findEntry key (enginePart m)) : Adds y m [] m' where
  keeps e he hprov := by
    rw [← mem_layer hprov, ← findEntry_eq_some (sorted_enginePart hm), ← h e.1 (.inl hprov), findEntry_eq_some hm'] at he
    exact (mem_layer hprov).1 he
  takes := by simp [Keeps]
  counts := by
    rw [← seqIn_enginePart m, ← seqIn_enginePart m', seqIn_congr (h _ (.inr (.inl ⟨y, rfl⟩)))]
  new e he hprov := by
    rw [← mem_layer hprov, ← findEntry_eq_some hm', h e.1 (.inl hprov), findEntry_eq_some (sorted_enginePart hm)] at he
    exact .inl ((mem_layer hprov).1 he)

end Layer

/-! Merges. -/

/-- Both sides have the provenance of the base, and differ at no key they share. -/
structure Agree (b s t : Entries) : Prop where
  sorted : Sorted b ∧ Sorted s ∧ Sorted t
  kept : Bookish (enginePart s)
  source : Keeps b s
  target : Keeps b t
  same : ∀ e ∈ s, ∀ e' ∈ t, isProvenance e.1 = true → e.1 = e'.1 → e.2 = e'.2

section Merges

variable {b s t : Entries}

/-- What the target has not is taken over, and nothing else is decided. -/
theorem Agree.decision (h : Agree b s t) {key : Key} (hprov : isProvenance key = true) (policy : MergePolicy) :
    decisionOf b s t policy key = match findEntry key s, findEntry key t with
      | some record, none => .write record
      | _, _ => .nothing := by
  obtain ⟨hb, hs, ht⟩ := h.sorted
  have hnone : ∀ {m}, Keeps b m → Sorted m → findEntry key m = none → findEntry key b = none := by
    intro m hkeeps hm hfm
    refine Option.eq_none_iff_forall_ne_some.2 (fun r hr => ?_)
    have hmem := (findEntry_eq_some hm).2 (hkeeps _ ((findEntry_eq_some hb).1 hr) hprov)
    rw [hfm] at hmem
    cases hmem
  unfold decisionOf decideMerge
  cases hfs : findEntry key s with
  | none =>
    rw [hnone h.source hs hfs]
    cases findEntry key t with
    | none | some r => rfl
  | some r =>
    obtain ⟨bytes, rfl⟩ := h.kept.blob hs hprov hfs
    cases hft : findEntry key t with
    | none =>
      rw [hnone h.target ht hft]
      rfl
    | some r' =>
      obtain rfl : Record.value (.blob bytes) = r' :=
        h.same _ ((findEntry_eq_some hs).1 hfs) _ ((findEntry_eq_some ht).1 hft) hprov rfl
      have hself : recordEq (some (Record.value (.blob bytes))) (some (.value (.blob bytes))) = true := by
        rw [recordEq_self]
        rfl
      rw [if_pos hself]

theorem Agree.takesSource (h : Agree b s t) (policy : MergePolicy) : TakesSource b s t policy := by
  intro key record hprov hdecided
  rw [h.decision hprov] at hdecided
  split at hdecided
  · next hfs _ =>
    rw [hfs]
    exact hdecided
  · cases hdecided

theorem Agree.mem_mergedProvenance (h : Agree b s t) (policy : MergePolicy) {e : Key × Record} :
    e ∈ mergedProvenance (enginePart b) (enginePart s) (enginePart t) policy ↔
      e ∈ s ∧ isProvenance e.1 = true ∧ findEntry e.1 t = none := by
  rw [Loom.mem_mergedProvenance, mem_enginePart]
  constructor
  · rintro ⟨⟨hmem, hcaller⟩, hprov, hdecided⟩
    rw [decisionOf_enginePart policy hcaller, h.decision hprov] at hdecided
    split at hdecided
    · next hft => exact ⟨hmem, hprov, hft⟩
    · cases hdecided
  · rintro ⟨hmem, hprov, hft⟩
    have hcaller : isCallerKey e.1 = false := by simp [isCallerKey, hprov]
    refine ⟨⟨hmem, hcaller⟩, hprov, ?_⟩
    rw [decisionOf_enginePart policy hcaller, h.decision hprov, (findEntry_eq_some h.sorted.2.1).2 hmem, hft]
    rfl

theorem seqIn_taken (policy : MergePolicy) (origin : BranchId) (sourceHead : CommitId) :
    seqIn (puts (enginePart t) (takenOver b s t policy origin sourceHead)) y = seqIn t y := by
  rw [← seqIn_enginePart t]
  refine seqIn_congr (findEntry_puts_of_not_mem (fun w hw heq => ?_))
  rcases mem_append.1 hw with hw | hw
  · have hprov := (mem_mergedProvenance.1 hw).2.1
    rw [heq, provSeqKey, not_isProvenance_reservedKey] at hprov
    cases hprov
  · obtain rfl := mem_singleton.1 hw
    exact reservedKey_ne (by decide) _ _ heq

theorem Agree.adds (h : Agree b s t) (policy : MergePolicy) (origin : BranchId) (sourceHead : CommitId) :
    Adds y (enginePart t) (enginePart s) (puts (enginePart t) (takenOver b s t policy origin sourceHead)) := by
  obtain ⟨-, hs, ht⟩ := h.sorted
  have hmem : ∀ {w}, w ∈ takenOver b s t policy origin sourceHead → isProvenance w.1 = true →
      w ∈ s ∧ findEntry w.1 t = none := by
    intro w hw hprov
    rcases mem_append.1 hw with hw | hw
    · obtain ⟨hws, -, hwt⟩ := (h.mem_mergedProvenance policy).1 hw
      exact ⟨hws, hwt⟩
    · obtain rfl := mem_singleton.1 hw
      rw [mergeMemory, mergedFromKey, not_isProvenance_reservedKey] at hprov
      cases hprov
  have hkeeps : ∀ e, e ∈ t → isProvenance e.1 = true →
      e ∈ puts (enginePart t) (takenOver b s t policy origin sourceHead) := by
    intro e he hprov
    refine (mem_puts_of_not (sorted_enginePart ht) (fun w hw heq => ?_)).2 ((mem_layer hprov).2 he)
    obtain ⟨-, hwt⟩ := hmem hw (heq ▸ hprov)
    rw [heq, (findEntry_eq_some ht).2 he] at hwt
    cases hwt
  refine ⟨fun e he hprov => hkeeps e ((mem_layer hprov).1 he) hprov, fun e he hprov => ?_, ?_, fun e he hprov => ?_⟩
  · have hes : e ∈ s := (mem_layer hprov).1 he
    cases hft : findEntry e.1 t with
    | none =>
      rw [← findEntry_eq_some (sorted_puts (sorted_enginePart ht) _)]
      refine findEntry_puts_of_unique (fun w hw heq => ?_) ⟨e, ?_, rfl⟩
      · have hws := (hmem hw (heq ▸ hprov)).1
        rw [← findEntry_eq_some hs, heq, (findEntry_eq_some hs).2 hes] at hws
        exact (Option.some.inj hws).symm
      · exact mem_append_left _ ((h.mem_mergedProvenance policy).2 ⟨hes, hprov, hft⟩)
    | some r =>
      have het : (e.1, r) ∈ t := (findEntry_eq_some ht).1 hft
      have hsame : (e.1, r) = e := Prod.ext rfl (h.same e hes (e.1, r) het hprov rfl).symm
      exact hkeeps e (hsame ▸ het) hprov
  · rw [seqIn_taken, seqIn_enginePart]
  · rcases mem_of_mem_puts he with hw | he
    · exact .inr (.inl ((mem_layer hprov).2 (hmem hw hprov).1))
    · exact .inl he

/-- A merge: what it takes over, and the nodes of what it writes. -/
theorem adds_merge {base source target : RecordPages} (hb : base.Holds b) (hs : source.Holds s) (ht : target.Holds t)
    (h : Agree b s t) {policy : MergePolicy} {writes : Entries}
    {automatic : Nat} (hplan : planMerge base source target policy = .ok (.merged writes automatic))
    (hown : BelowNext y s (seqIn t y)) (hown' : BelowNext y t (seqIn t y)) (origin : BranchId)
    (sourceHead targetHead : CommitId) (hroom : seqIn t y + (writes ++ [mergeMemory origin sourceHead]).length < 2 ^ 64)
    (envelope : WriteEnvelope) (captured : ReadSet) (parents : List (Key × List NodeId)) :
    Adds y t s (puts t (writes ++ [mergeMemory origin sourceHead] ++
      engineWrites E y targetHead (writes ++ [mergeMemory origin sourceHead]) envelope captured parents []
        (puts t (writes ++ [mergeMemory origin sourceHead])))) := by
  have htaken := h.adds (y := y) policy origin sourceHead
  have hcounts : seqIn (puts (enginePart t) (takenOver b s t policy origin sourceHead)) y = seqIn t y :=
    seqIn_taken policy origin sourceHead
  refine Adds.of_enginePart ?_
  rw [enginePart_merge hb hs ht (h.takesSource policy) h.kept hplan, puts_append]
  refine htaken.trans (adds_engineWrites (sorted_puts (sorted_enginePart ht.sorted) _) (fun e he hprov n hn => ?_) ?_)
  · rw [hcounts]
    rcases htaken.new e he hprov with he | he | ⟨n', hn', hlt⟩
    · exact hown' e ((mem_layer hprov).1 he) hprov n hn
    · exact hown e ((mem_layer hprov).1 he) hprov n hn
    · rw [hn] at hn'
      cases hn'
      exact hcounts ▸ hlt
  · have hlen : (writes.filter (fun e => isCallerKey e.1)).length ≤ writes.length := length_filter_le _ _
    simp only [length_append, length_singleton] at hroom ⊢
    omega

end Merges

/-! The condition on a run. -/

def LoomEvent.Rewinds (branch : BranchId) : LoomEvent → Prop
  | .rewind _ b _ _ => b = branch
  | _ => False

namespace LoomDb

/-- What a branch holds; nothing where its head cannot be read. -/
def entriesOn (db : LoomDb) (branch : BranchId) : Entries := (db.headEntries branch).toOption.getD []

/-- Every branch has the nodes of its own that any branch has, numbered below its
    next number. -/
def Numbered (db : LoomDb) : Prop :=
  ∀ y ∈ db.refs.branches.keys, ∀ z ∈ db.refs.branches.keys, ∀ e ∈ db.entriesOn z, isProvenance e.1 = true →
    ∀ n ∈ ownNumber? y e.1, e ∈ db.entriesOn y ∧ n < seqIn (db.entriesOn y) y

instance (db : LoomDb) : Decidable db.Numbered :=
  inferInstanceAs (Decidable (∀ y ∈ db.refs.branches.keys, ∀ z ∈ db.refs.branches.keys, ∀ e ∈ db.entriesOn z,
    isProvenance e.1 = true → ∀ n ∈ ownNumber? y e.1, e ∈ db.entriesOn y ∧ n < seqIn (db.entriesOn y) y))

/-- The numbers do not run out. -/
def RoomFor (db : LoomDb) (branch : BranchId) (count : Nat) : Prop := seqIn (db.entriesOn branch) branch + count < 2 ^ 64

instance (db : LoomDb) (branch : BranchId) (count : Nat) : Decidable (db.RoomFor branch count) :=
  inferInstanceAs (Decidable (_ < _))

def mergeSize (db : LoomDb) (source target : BranchId) (policy : MergePolicy) : Nat :=
  let outcome : Except LoomError MergeOutcome := do
    let s ← db.head source
    let t ← db.head target
    match db.mergeBase? s t with
    | .error _ => return .conflict []
    | .ok base => db.planHeads base s t policy
  match outcome with
  | .ok (.merged writes _) => writes.length + 1
  | _ => 0

/-- Callers write ordinary keys, branches have fine names, and a rewind takes back no
    node that a branch has taken over. -/
def Spares (E : Engine) (db : LoomDb) : LoomEvent → Prop
  | .openSession name _ => FineName name
  | .branch _ _ name _ => FineName name
  | .write _ branch records _ _ _ _ => (∀ e ∈ records, isCallerKey e.1 = true) ∧ db.RoomFor branch records.length
  | .markStale _ branch source _ _ _ => db.RoomFor branch ((db.staleWrites E branch source).toOption.getD []).length
  | .merge _ source target policy _ _ _ _ => db.RoomFor target (db.mergeSize source target policy)
  | .rewind token branch id now => id ∈ db.commits ∧ (db.rewind E token branch id now).2.Numbered
  | .gc => False
  | .reopen => False
  | .read _ _ _ _ => True
  | .forget _ _ _ _ _ _ => True
  | .buildIndex _ _ _ _ => True
  | .insertVector _ _ _ _ _ _ => True

instance (E : Engine) (db : LoomDb) (event : LoomEvent) : Decidable (db.Spares E event) :=
  match event with
  | .openSession name _ | .branch _ _ name _ => inferInstanceAs (Decidable (FineName name))
  | .write _ branch records _ _ _ _ =>
    inferInstanceAs (Decidable ((∀ e ∈ records, isCallerKey e.1 = true) ∧ db.RoomFor branch records.length))
  | .markStale _ branch source _ _ _ =>
    inferInstanceAs (Decidable (db.RoomFor branch ((db.staleWrites E branch source).toOption.getD []).length))
  | .merge _ source target policy _ _ _ _ =>
    inferInstanceAs (Decidable (db.RoomFor target (db.mergeSize source target policy)))
  | .rewind token branch id now =>
    inferInstanceAs (Decidable (id ∈ db.commits ∧ (db.rewind E token branch id now).2.Numbered))
  | .gc | .reopen => inferInstanceAs (Decidable False)
  | .read .. | .forget .. | .buildIndex .. | .insertVector .. => inferInstanceAs (Decidable True)

variable {db db' : LoomDb} {root : CommitId} {event : LoomEvent} {z : BranchId} {my mz : Entries}

theorem HeadHolds.entriesOn (h : db.HeadHolds branch m) : db.entriesOn branch = m := by
  rw [LoomDb.entriesOn, h.headEntries]
  rfl

theorem Numbered.of_heads (h : db.Numbered) (hy : db.HeadHolds y my) (hz : db.HeadHolds z mz) (he : e ∈ mz)
    (hprov : isProvenance e.1 = true) {n : Nat} (hn : ownNumber? y e.1 = some n) : e ∈ my ∧ n < seqIn my y := by
  have hall := h y (Std.ExtTreeMap.mem_keys.2 hy.mem) z (Std.ExtTreeMap.mem_keys.2 hz.mem) e (hz.entriesOn ▸ he) hprov n hn
  rwa [hy.entriesOn] at hall

theorem numbered_of_heads (hheads : ∀ y ∈ db.refs.branches, ∃ m, db.HeadHolds y m)
    (h : ∀ y z my mz, db.HeadHolds y my → db.HeadHolds z mz → ∀ e ∈ mz, isProvenance e.1 = true →
      ∀ n, ownNumber? y e.1 = some n → e ∈ my ∧ n < seqIn my y) : db.Numbered := by
  intro y hy z hz e he hprov n hn
  obtain ⟨my, hmy⟩ := hheads y (Std.ExtTreeMap.mem_keys.1 hy)
  obtain ⟨mz, hmz⟩ := hheads z (Std.ExtTreeMap.mem_keys.1 hz)
  rw [hmz.entriesOn] at he
  rw [hmy.entriesOn]
  exact h y z my mz hmy hmz e he hprov n hn

variable {source target : BranchId} {targetId baseId : CommitId}

theorem Planned.mergeSize {policy : MergePolicy} {plan : MergePlan} {cb cs ct : Commit}
    {writes : Entries} (h : Planned db source target policy plan targetId baseId cb cs ct writes) :
    db.mergeSize source target policy = plan.writes.length := by
  have hplan : db.planHeads baseId plan.sourceHead targetId policy = .ok (.merged writes plan.automatic) := by
    rw [planHeads, fork_ok.2 h.baseTree, fork_ok.2 h.sourceTree, fork_ok.2 h.targetTree]
    simp only [ok_bind, h.planned]
    rfl
  rw [LoomDb.mergeSize, head_ok.2 h.sourceHead, head_ok.2 h.targetHead]
  simp only [ok_bind, h.bases, hplan, h.written, length_append, length_singleton]

/-! What holds in every such run. -/

variable {events : List LoomEvent}

structure Surviving (root : CommitId) (db : LoomDb) : Prop where
  lineage : Lineage Keeps root db
  book : Holding (fun m => Bookish (enginePart m)) db
  named : ∀ y, y ∈ db.refs.branches → FineName y
  owned : ∀ id m, db.Keeping id m → ∀ e ∈ m, isProvenance e.1 = true →
    ∃ y, y ∈ db.refs.branches ∧ ∃ n, ownNumber? y e.1 = some n
  numbered : db.Numbered

theorem Surviving.belowNext (h : Surviving root db) (hy : db.HeadHolds y my) (hz : db.HeadHolds z mz) :
    BelowNext y mz (seqIn my y) := fun _ he hprov _ hn => (h.numbered.of_heads hy hz he hprov hn).2

theorem Surviving.owner (h : Surviving root db) (hz : db.HeadHolds z mz) (he : e ∈ mz)
    (hprov : isProvenance e.1 = true) : ∃ y my, db.HeadHolds y my ∧ e ∈ my ∧ ∃ n, ownNumber? y e.1 = some n := by
  obtain ⟨head, c, -, hc, hm⟩ := id hz
  obtain ⟨y, hy, n, hn⟩ := h.owned head mz ⟨c, hc, hm⟩ e he hprov
  obtain ⟨my, hmy⟩ := h.lineage.headHolds hy
  exact ⟨y, my, hmy, (h.numbered.of_heads hmy hz he hprov hn).1, n, hn⟩

/-- What two branches have at one key is what its owner has there. -/
theorem Surviving.agree (h : Surviving root db) {sourceId : CommitId} {b s t : Entries}
    (hid : db.refs.branches[source]? = some sourceId) (hid' : db.refs.branches[target]? = some targetId)
    (hbases : db.mergeBase? sourceId targetId = .ok baseId) (hb : db.Keeping baseId b) (hs : db.Keeping sourceId s)
    (ht : db.Keeping targetId t) : Agree b s t := by
  obtain ⟨⟨⟨hancs, hanct⟩, -⟩, -⟩ := h.lineage.lowest hs.mem ht.mem hbases
  have hsource := h.lineage.of_anc Keeps.refl Keeps.trans hancs hb hs
  have htarget := h.lineage.of_anc Keeps.refl Keeps.trans hanct hb ht
  obtain ⟨_, _, hb⟩ := hb
  obtain ⟨cs, hcs, hs⟩ := hs
  obtain ⟨ct, hct, ht⟩ := ht
  have hheads : db.HeadHolds source s := ⟨_, cs, hid, hcs, hs⟩
  have hheadt : db.HeadHolds target t := ⟨_, ct, hid', hct, ht⟩
  refine ⟨⟨hb.sorted, hs.sorted, ht.sorted⟩, h.book.head hheads, hsource, htarget, fun e he e' he' hprov hkey => ?_⟩
  obtain ⟨y, my, hy, hey, n, hn⟩ := h.owner hheads he hprov
  have hey' := (h.numbered.of_heads hy hheadt he' (hkey ▸ hprov) (hkey ▸ hn)).1
  rw [← findEntry_eq_some hy.sorted] at hey hey'
  exact Option.mem_unique hey (hkey ▸ hey')

/-- What an event leaves on a branch. -/
structure Carries (db : LoomDb) (event : LoomEvent) (branch : BranchId) (m extra m' : Entries) : Prop where
  head : db.HeadHolds branch m
  side : extra = [] ∨ ∃ z, db.HeadHolds z extra
  adds : Adds branch m extra m'
  bookish : Bookish (enginePart m')
  furthers : Furthers Keeps db event branch m'

theorem Surviving.carries_write (h : Surviving root db) (hm : db.HeadHolds branch m) {records : Entries}
    (hkeys : ∀ e ∈ records, isCallerKey e.1 = true) (hroom : db.RoomFor branch records.length)
    (hkind : event.isMerge = false) (head : CommitId) (envelope : WriteEnvelope) (captured : ReadSet)
    (hints : List (Key × IndexHint)) :
    Carries db event branch m []
      (puts m (records ++ engineWrites E branch head records envelope captured [] hints (puts m records))) := by
  rw [RoomFor, hm.entriesOn] at hroom
  have hadds := adds_write (E := E) hm.sorted (h.belowNext hm hm) hkeys hroom head envelope captured [] hints
  refine ⟨hm, .inl rfl, hadds, ?_,
    furthers_kept hm hadds.keeps (memory_of_write hkeys (fun _ hw => engineKey_of_engineWrites hw)) hkind⟩
  rw [enginePart_write hm.sorted hkeys]
  exact (h.book.head hm).write _ _ _ _ _ _ _ _

theorem carries_lasting (hm : db.HeadHolds branch m) {p : Entries} (hp : enginePart m' = p) (hsorted : Sorted p)
    (hbook : Bookish p) (hsame : ∀ key, Lasting key → findEntry key p = findEntry key (enginePart m))
    (hkind : event.isMerge = false) : Carries db event branch m [] m' := by
  have hadds : Adds branch m [] m' := adds_of_lasting hm.sorted (hp ▸ hsorted) (hp ▸ hsame)
  refine ⟨hm, .inl rfl, hadds, hp ▸ hbook, furthers_kept hm hadds.keeps (fun source => ?_) hkind⟩
  have hlasting : Lasting (mergedFromKey source) := .inr (.inr ⟨source, rfl⟩)
  have hfind := hsame _ hlasting
  rwa [← hp, findEntry_enginePart hlasting.not_caller, findEntry_enginePart hlasting.not_caller] at hfind

section

variable (h : Surviving root db)
include h

theorem Surviving.carries (hspares : db.Spares E event) (hmakes : Makes E A db event branch m') :
    ∃ m extra, Carries db event branch m extra m' := by
  cases hmakes with
  | write hhead hm => exact ⟨_, [], h.carries_write hm hspares.1 hspares.2 rfl _ _ _ _⟩
  | markStale hhead hm hrecords =>
    have hkeys := caller_of_staleWrites hm (h.book.head hm) hrecords
    rw [Spares, hrecords] at hspares
    exact ⟨_, [], h.carries_write hm hkeys hspares rfl _ _ _ _⟩
  | forget hm =>
    have hbook := h.book.head hm
    exact ⟨_, [], carries_lasting hm (enginePart_forget hm.sorted hbook _) (sorted_dropAll (sorted_enginePart hm.sorted) _)
      (hbook.drop _) (fun key hkey => findEntry_forgotten (sorted_enginePart hm.sorted) hkey _) rfl⟩
  | buildIndex hm =>
    exact ⟨_, [], carries_lasting hm (enginePart_withGraph hm.sorted _) (sorted_withGraph (sorted_enginePart hm.sorted) _)
      (((h.book.head hm).graph _).drop _) (fun key hkey => findEntry_withGraph (sorted_enginePart hm.sorted) _ hkey) rfl⟩
  | insertVector hm =>
    exact ⟨_, [], carries_lasting hm (enginePart_graph hm.sorted _) (sorted_puts (sorted_enginePart hm.sorted) _)
      ((h.book.head hm).graph _) (fun key hkey => findEntry_graphWrites _ hkey) rfl⟩
  | @merge token source target policy envelope forbids now fresh targetId baseId plan cb cs ct b s t writes hplan hb hs ht =>
    have hsource : db.HeadHolds source s := ⟨_, cs, hplan.sourceHead, hplan.sourceTree, hs⟩
    have htarget : db.HeadHolds branch t := ⟨_, ct, hplan.targetHead, hplan.targetTree, ht⟩
    have hagree := h.agree hplan.sourceHead hplan.targetHead hplan.bases ⟨cb, hplan.baseTree, hb⟩
      ⟨cs, hplan.sourceTree, hs⟩ ⟨ct, hplan.targetTree, ht⟩
    have hkept := h.book.head hsource
    have hwritten : plan.writes = writes ++ [mergeMemory source plan.sourceHead] := hplan.written
    rw [Spares, RoomFor, hplan.mergeSize, htarget.entriesOn, hwritten] at hspares
    have hadds := adds_merge (E := E) hb hs ht hagree hplan.planned (h.belowNext htarget hsource)
      (h.belowNext htarget htarget) source _ targetId hspares envelope (db.takeReadSet envelope.session).1 plan.parents
    rw [← hwritten] at hadds
    refine ⟨t, s, htarget, .inr ⟨source, hsource⟩, hadds, ?_,
      hplan.furthers hb hs ht (fun w hw => engineKey_of_engineWrites hw) hadds.keeps hadds.takes⟩
    rw [hwritten,
      enginePart_merge hb hs ht (hagree.takesSource policy) hagree.kept hplan.planned, puts_append]
    exact ((h.book.head htarget).merge hkept _ _ _).write _ _ _ _ _ _ _ _

/-- A branch with new records: its own keys and those it took over are numbered. -/
theorem Surviving.advanced {extra : Entries} (hadv : Advanced db branch m' db')
    (hcarries : Carries db event branch m extra m') (hlineage : Lineage Keeps root db') : Surviving root db' := by
  have hfine : FineName branch := h.named branch hcarries.head.mem
  have htrees : ∀ id mm, db'.Keeping id mm → db.Keeping id mm ∨ mm = m' := hadv.trees
  refine ⟨hlineage, ?_, ?_, ?_, numbered_of_heads (fun y hy => hlineage.headHolds hy) ?_⟩
  · intro id c hc
    obtain ⟨mm, hmm⟩ := hlineage.sound id c hc
    refine ⟨mm, hmm, ?_⟩
    rcases htrees id mm ⟨c, hc, hmm⟩ with ⟨c', hc', hold⟩ | rfl
    · obtain ⟨m0, hm0, hbook⟩ := h.book id c' hc'
      exact Holds.unique hm0 hold ▸ hbook
    · exact hcarries.bookish
  · intro y hy
    exact h.named y ((hadv.names y).1 hy)
  · intro id mm hmm e he hprov
    have hhead : ∀ {z mz}, db.HeadHolds z mz → e ∈ mz → ∃ y, y ∈ db'.refs.branches ∧ ∃ n, ownNumber? y e.1 = some n := by
      intro z mz hz hez
      obtain ⟨y, my, hy, -, hn⟩ := h.owner hz hez hprov
      exact ⟨y, (hadv.names y).2 hy.mem, hn⟩
    rcases htrees id mm hmm with hold | rfl
    · obtain ⟨y, hy, hn⟩ := h.owned id mm hold e he hprov
      exact ⟨y, (hadv.names y).2 hy, hn⟩
    · rcases hcarries.adds.new e he hprov with he | he | ⟨n, hn, -⟩
      · exact hhead hcarries.head he
      · rcases hcarries.side with rfl | ⟨z, hz⟩
        · cases he
        · exact hhead hz he
      · exact ⟨branch, (hadv.names branch).2 hcarries.head.mem, n, hn⟩
  · -- an entry is in a tree that was there, or is a new node of the branch
    intro y z my mz hy hz e he hprov n hn
    have hyfine : FineName y := h.named y ((hadv.names y).1 hy.mem)
    have hold : ∀ {u mu}, db.HeadHolds u mu → e ∈ mu → e ∈ my ∧ n < seqIn my y := by
      intro u mu hu heu
      by_cases hyb : y = branch
      · subst hyb
        obtain rfl := hy.unique hadv.head
        obtain ⟨hmem, hlt⟩ := h.numbered.of_heads hcarries.head hu heu hprov hn
        exact ⟨hcarries.adds.keeps e hmem hprov, hlt.trans_le hcarries.adds.counts⟩
      · exact h.numbered.of_heads ((hadv.others y my hyb).1 hy) hu heu hprov hn
    by_cases hzb : z = branch
    · subst hzb
      obtain rfl := hz.unique hadv.head
      rcases hcarries.adds.new e he hprov with he' | he' | ⟨n', hn', hlt⟩
      · exact hold hcarries.head he'
      · rcases hcarries.side with rfl | ⟨u, hu⟩
        · cases he'
        · exact hold hu he'
      · obtain rfl := owner_unique hyfine hfine hn hn'
        obtain rfl := hy.unique hadv.head
        obtain rfl := Option.mem_unique hn hn'
        exact ⟨he, hlt⟩
    · exact hold ((hadv.others z mz hzb).1 hz) he

theorem Surviving.renamed (hlineage : Lineage Keeps root db') (hcommits : db'.commits = db.commits)
    (hnames : ∀ y, y ∈ db.refs.branches → y ∈ db'.refs.branches) (hfine : ∀ y, y ∈ db'.refs.branches → FineName y)
    (hnumbered : db'.Numbered) : Surviving root db' where
  lineage := hlineage
  book := by
    rw [Holding, hcommits]
    exact h.book
  named := hfine
  owned id m hm e he hprov := by
    obtain ⟨y, hy, hn⟩ := h.owned id m ((Keeping.congr hcommits).1 hm) e he hprov
    exact ⟨y, hnames y hy, hn⟩
  numbered := hnumbered

theorem Surviving.numbered_created {name : String} {head : CommitId} (hfine : FineName name)
    (hsource : db.refs.branches[source]? = some head) (hname : name ∉ db.refs.branches)
    (hlineage : Lineage Keeps root db') (hbranches : db'.refs.branches = db.refs.branches.insert name head)
    (hcommits : db'.commits = db.commits) : db'.Numbered := by
  have hother : ∀ {b mb}, b ≠ name → db'.HeadHolds b mb → db.HeadHolds b mb := by
    intro b mb hne
    refine (headHolds_same ?_ hcommits).1
    rw [hbranches, SortedMap.getElem?_insert, if_neg (Ne.symm hne)]
  have hnew : ∀ {mb}, db'.HeadHolds name mb → db.HeadHolds source mb := by
    rintro mb ⟨id, c, hid, hc, hm⟩
    rw [hbranches, SortedMap.getElem?_insert, if_pos rfl] at hid
    obtain rfl := Option.some.inj hid
    exact ⟨head, c, hsource, hcommits ▸ hc, hm⟩
  have hold : ∀ {b mb}, db'.HeadHolds b mb → ∃ u, db.HeadHolds u mb := by
    intro b mb hb
    by_cases heq : b = name
    · subst heq
      exact ⟨source, hnew hb⟩
    · exact ⟨b, hother heq hb⟩
  refine numbered_of_heads (fun y hy => hlineage.headHolds hy) (fun y z my mz hy hz e he hprov n hn => ?_)
  obtain ⟨u, hu⟩ := hold hz
  by_cases heq : y = name
  · subst heq
    obtain ⟨owner, mo, ho, -, n', hn'⟩ := h.owner hu he hprov
    exact absurd (owner_unique hfine (h.named owner ho.mem) hn hn' ▸ ho.mem) hname
  · exact h.numbered.of_heads (hother heq hy) hu he hprov hn

end

theorem Spares.onward (h : db.Spares E event) : db.Onward event := by
  cases event with
  | rewind token branch id now => exact h.1
  | gc => exact h
  | reopen => exact h
  | _ => trivial

theorem Surviving.step (h : Surviving root db) (hnames : db.Names event) (hspares : db.Spares E event) :
    Surviving root (db.step E A event) := by
  have hstep := step_cases E A h.lineage.sound event hnames
  have hfurthers : ∀ branch m', Makes E A db event branch m' → Furthers Keeps db event branch m' := by
    intro branch m' hmakes
    obtain ⟨m, extra, hcarries⟩ := h.carries hspares hmakes
    exact hcarries.furthers
  have hlineage := h.lineage.grow Keeps.refl Keeps.trans (h.lineage.grown hstep hspares.onward hfurthers) hnames hfurthers
  have heffect := hstep.effect hnames hspares.onward h.lineage.graph.heads
  generalize hdb' : db.step E A event = db' at hlineage heffect ⊢
  cases heffect with
  | same hbranches hcommits =>
    refine h.renamed hlineage hcommits (fun y hy => hbranches ▸ hy) (fun y hy => h.named y (hbranches ▸ hy)) ?_
    have hback : ∀ {b mb}, db'.HeadHolds b mb → db.HeadHolds b mb :=
      fun hb => (headHolds_same (by rw [hbranches]) hcommits).1 hb
    refine numbered_of_heads (fun y hy => hlineage.headHolds hy) (fun y z my mz hy hz e he hprov n hn => ?_)
    exact h.numbered.of_heads (hback hy) (hback hz) he hprov hn
  | advanced hmakes hadvanced =>
    obtain ⟨m, extra, hcarries⟩ := h.carries hspares hmakes
    exact h.advanced hadvanced hcarries hlineage
  | @created source name head hevent hsource hname hbranches hcommits =>
    have hfine : FineName name := by
      rcases hevent with ⟨token, now, rfl⟩ | ⟨-, now, rfl⟩
      · exact hspares
      · exact hspares
    refine h.renamed hlineage hcommits (fun y hy => ?_) (fun y hy => ?_)
      (h.numbered_created hfine hsource hname hlineage hbranches hcommits)
    · rw [hbranches]
      exact mem_insert.2 (.inr hy)
    · rw [hbranches, mem_insert] at hy
      rcases hy with rfl | hy
      · exact hfine
      · exact h.named y hy
  | @moved token branch id now hevent hbranch hbranches hcommits =>
    subst hevent
    refine h.renamed hlineage hcommits (fun y hy => ?_) (fun y hy => ?_) (hdb' ▸ hspares.2)
    · rw [hbranches]
      exact mem_insert.2 (.inr hy)
    · rw [hbranches, mem_insert] at hy
      rcases hy with rfl | hy
      · exact h.named _ hbranch
      · exact h.named y hy

theorem Surviving.run (h : Surviving root db) (hrun : RunOf E A (Spares E) db events) :
    Surviving root (db.run E A events) :=
  Along.keeps hrun h (fun _ _ he h => h.step he.1 he.2)

theorem surviving_create (tenant : String) (root : CommitId) : Surviving root (create tenant root empty) := by
  have hlineage : Lineage Keeps root (create tenant root empty) := lineage_create tenant root Holds.empty (by simp)
  have hempty : ∀ {id m}, (create tenant root empty).Keeping id m → m = [] := by
    rintro id m ⟨c, hc, hm⟩
    rw [(create_commits hc).2] at hm
    exact Holds.unique hm Holds.empty
  refine ⟨hlineage, ?_, ?_, ?_, ?_⟩
  · intro id c hc
    rw [(create_commits hc).2]
    exact ⟨[], Holds.empty, bookish_nil⟩
  · intro y hy
    obtain ⟨id, hid⟩ := mem_iff.1 hy
    rw [(create_branches hid).1]
    decide
  · intro id m hm e he
    rw [hempty hm] at he
    cases he
  · refine numbered_of_heads (fun y hy => hlineage.headHolds hy) ?_
    intro y z my mz _ hz e he
    obtain ⟨head, c, -, hc, hm⟩ := hz
    rw [hempty ⟨c, hc, hm⟩] at he
    cases he

/-! Merges in such runs. -/

section Merge

variable {token : CapabilityToken} {policy : MergePolicy} {envelope : WriteEnvelope}
  {forbids : Key → Record → Option String} {now : Nat} {fresh : CommitId} {report : List MergeConflict}

theorem Surviving.no_conflict (h : Surviving root db) (hreport : Reports db source target policy report) :
    ∀ c ∈ report, isProvenance c.key = false := by
  obtain ⟨sourceId, targetId, baseId, cb, cs, ct, hsource, htarget, hbase, hcb, hcs, hct, hplan⟩ := hreport
  obtain ⟨b, hb⟩ := h.lineage.sound baseId cb hcb
  obtain ⟨s, hs⟩ := h.lineage.sound sourceId cs hcs
  obtain ⟨t, ht⟩ := h.lineage.sound targetId ct hct
  have hagree := h.agree hsource htarget hbase ⟨cb, hcb, hb⟩ ⟨cs, hcs, hs⟩ ⟨ct, hct, ht⟩
  intro c hc
  rw [Bool.eq_false_iff]
  intro hprov
  have hdecided := mem_report_planMerge hb hs ht hplan hc
  rw [hagree.decision hprov] at hdecided
  split at hdecided
  · cases hdecided
  · cases hdecided

theorem reports_of_conflict (hunused : db.Unused fresh)
    (hres : (db.mergeChecked E token source target policy envelope forbids now fresh).1 = .ok (.conflict report)) :
    Reports db source target policy report := by
  rcases mergeChecked_cases E token source target policy envelope forbids now hunused with
    ⟨r, heq, hstop⟩ | ⟨e, sets, heq⟩ | ⟨plan, targetId, baseId, cb, cs, ct, writes, pages, commit', db1, -, -, -, heq⟩
  · rw [heq] at hres
    exact (hstop _ hres).2 report rfl
  · rw [heq] at hres
    cases hres
  · rw [heq] at hres
    cases hres

/-- A merge leaves the provenance of both sides on the target. -/
theorem Surviving.merged (h : Surviving root db)
    (hnames : db.Names (.merge token source target policy envelope forbids now fresh))
    (hspares : db.Spares E (.merge token source target policy envelope forbids now fresh)) {commit : CommitId}
    {records automatic : Nat} (hres : (db.mergeChecked E token source target policy envelope forbids now fresh).1 =
      .ok (.merged commit records automatic)) :
    ∃ m', (db.mergeChecked E token source target policy envelope forbids now fresh).2.HeadHolds target m' ∧
      Keeps (db.entriesOn source) m' ∧ Keeps (db.entriesOn target) m' := by
  rcases mergeChecked_cases E token source target policy envelope forbids now (hnames fresh rfl) with
    ⟨r, heq, hstop⟩ | ⟨e, sets, heq⟩ |
    ⟨plan, targetId, baseId, cb, cs, ct, writes, pages, commit', db1, hplan, hpub, hpages, heq⟩
  · rw [heq] at hres
    exact absurd rfl ((hstop _ hres).1 commit records automatic)
  · rw [heq] at hres
    cases hres
  · obtain ⟨b, hb⟩ := h.lineage.sound baseId cb hplan.baseTree
    obtain ⟨s, hs⟩ := h.lineage.sound plan.sourceHead cs hplan.sourceTree
    obtain ⟨t, ht⟩ := h.lineage.sound targetId ct hplan.targetTree
    have hmakes : Makes E (A := ⟨fun _ => [], fun _ _ _ => .ok []⟩) db
      (.merge token source target policy envelope forbids now fresh) target _ := .merge hplan hb hs ht
    obtain ⟨m, extra, hcarries⟩ := h.carries hspares hmakes
    have hsource : db.HeadHolds source s := ⟨_, cs, hplan.sourceHead, hplan.sourceTree, hs⟩
    have htakes := (hcarries.furthers.second _ _ _ _ _ _ _ _ rfl _ hplan.sourceHead).2.1 s hsource
    rw [hcarries.head.entriesOn, hsource.entriesOn, heq]
    refine ⟨_, ?_, htakes, hcarries.adds.keeps⟩
    obtain ⟨hcommits, hbranches⟩ := addSecondParent_frame db1.persist commit' targetId plan.sourceHead
    exact (headHolds_same (congrArg (·[target]?) hbranches) hcommits).2
      (hpub.headHolds hplan.targetTree (hpages t ht))

end Merge

/-! What comes later. -/

variable {found : NodeMap × List NodeId}

theorem Surviving.keeps_step (h : Surviving root db) (hnames : db.Names event) (hspares : db.Spares E event)
    (hback : ¬ event.Rewinds branch) (hm : db.HeadHolds branch m) :
    ∃ m', (db.step E A event).HeadHolds branch m' ∧ Keeps m m' := by
  have heffect := (step_cases E A h.lineage.sound event hnames).effect hnames hspares.onward h.lineage.graph.heads
  cases heffect with
  | same hbranches hcommits =>
    exact ⟨m, (headHolds_same (by rw [hbranches]) hcommits).2 hm, Keeps.refl m⟩
  | @advanced moved m' hmakes hadvanced =>
    by_cases hbranch : branch = moved
    · subst hbranch
      obtain ⟨m0, extra, hcarries⟩ := h.carries hspares hmakes
      exact ⟨m', hadvanced.head, hm.unique hcarries.head ▸ hcarries.adds.keeps⟩
    · exact ⟨m, (hadvanced.others branch m hbranch).2 hm, Keeps.refl m⟩
  | @created source name head hevent hsource hname hbranches hcommits =>
    have hne : name ≠ branch := fun heq => hname (heq ▸ hm.mem)
    refine ⟨m, (headHolds_same ?_ hcommits).2 hm, Keeps.refl m⟩
    rw [hbranches, SortedMap.getElem?_insert, if_neg hne]
  | @moved token moved id now hevent hbranch hbranches hcommits =>
    have hne : moved ≠ branch := by
      intro heq
      subst hevent
      exact hback heq
    refine ⟨m, (headHolds_same ?_ hcommits).2 hm, Keeps.refl m⟩
    rw [hbranches, SortedMap.getElem?_insert, if_neg hne]

theorem Surviving.keeps_run (h : Surviving root db) (hrun : RunOf E A (Spares E) db events)
    (hback : ∀ event ∈ events, ¬ event.Rewinds branch) (hm : db.HeadHolds branch m) :
    ∃ m', (db.run E A events).HeadHolds branch m' ∧ Keeps m m' := by
  refine (Along.keeps (I := fun db => Surviving root db ∧ ∃ m', db.HeadHolds branch m' ∧ Keeps m m') hrun.mem
    ⟨h, m, hm, Keeps.refl m⟩ (fun db event he ⟨h, m1, hm1, hkeeps⟩ => ?_)).2
  obtain ⟨⟨hnames, hspares⟩, hevent⟩ := he
  obtain ⟨m', hm', hkeeps'⟩ := h.keeps_step hnames hspares (hback event hevent) hm1
  exact ⟨h.step hnames hspares, m', hm', Keeps.trans _ _ _ hkeeps hkeeps'⟩

theorem contaminatedOn_ok {source : SourceRef} (h : db.contaminatedOn E branch source = .ok found) :
    floodDownstream (nodesIn E (db.entriesOn branch)) (seedsIn source (db.entriesOn branch)) = .ok found.2 := by
  cases hentries : db.headEntries branch with
  | error e =>
    rw [contaminatedOn, nodesOn, hentries] at h
    cases h
  | ok m =>
    have hm : db.entriesOn branch = m := by
      rw [entriesOn, hentries]
      rfl
    rw [contaminatedOn, nodesOn, seedsOn, hentries] at h
    have hwalk : (floodDownstream (nodesIn E m) (seedsIn source m) >>=
        fun contaminated => pure (nodesIn E m, contaminated)) = .ok found := h
    obtain ⟨contaminated, hfound, hret⟩ := bind_ok.1 hwalk
    obtain rfl := Except.ok.inj hret
    rw [hm]
    exact hfound

theorem Keeps.contaminatedOn {source : SourceRef} (hkeeps : Keeps (db.entriesOn branch) (db'.entriesOn z))
    (hapart : IdsApart E (db'.entriesOn z)) {found' : NodeMap × List NodeId}
    (h : db.contaminatedOn E branch source = .ok found) (h' : db'.contaminatedOn E z source = .ok found') :
    ∀ id ∈ found.2, id ∈ found'.2 :=
  flood_mono hapart hkeeps (contaminatedOn_ok h) (contaminatedOn_ok h')

/-- In every such run: no provenance key is in conflict, and the provenance that the
    two sides of a merge have is on the target from then on, until it is turned back. -/
theorem provenance_survives_merges (E : Engine) (A : AnnGraph) (tenant : String) (root : CommitId)
    (before after : List LoomEvent) (token : CapabilityToken) (source target : BranchId) (policy : MergePolicy)
    (envelope : WriteEnvelope) (forbids : Key → Record → Option String) (now : Nat) (fresh : CommitId)
    (hrun : RunOf E A (Spares E) (create tenant root Pages.empty)
      (before ++ .merge token source target policy envelope forbids now fresh :: after)) :
    let db := (create tenant root Pages.empty).run E A before
    let later := (db.mergeChecked E token source target policy envelope forbids now fresh).2.run E A after
    let result := (db.mergeChecked E token source target policy envelope forbids now fresh).1
    (∀ report, result = .ok (.conflict report) → ∀ c ∈ report, isProvenance c.key = false) ∧
      ∀ commit records automatic, result = .ok (.merged commit records automatic) →
        (∀ event ∈ after, ¬ event.Rewinds target) → ∀ side ∈ [source, target],
          (∀ e ∈ db.entriesOn side, isProvenance e.1 = true → e ∈ later.entriesOn target) ∧
          ∀ ref found found', db.contaminatedOn E side ref = .ok found → later.contaminatedOn E target ref = .ok found' →
            IdsApart E (later.entriesOn target) → ∀ id ∈ found.2, id ∈ found'.2 := by
  intro db later result
  obtain ⟨hbefore, ⟨hnames, hspares⟩, hafter⟩ := along_append.1 hrun
  have hsurviving : Surviving root db := (surviving_create tenant root).run hbefore
  refine ⟨fun report hres => hsurviving.no_conflict (reports_of_conflict (hnames fresh rfl) hres), ?_⟩
  intro commit records automatic hres hback side hside
  obtain ⟨m, hm, hsource, htarget⟩ := hsurviving.merged hnames hspares hres
  obtain ⟨m', hm', hkeeps⟩ := (hsurviving.step hnames hspares).keeps_run hafter hback hm
  have hside : Keeps (db.entriesOn side) (later.entriesOn target) := by
    have hlater : later.entriesOn target = m' := hm'.entriesOn
    rw [hlater]
    rcases mem_pair.1 hside with rfl | rfl
    · exact Keeps.trans _ _ _ hsource hkeeps
    · exact Keeps.trans _ _ _ htarget hkeeps
  exact ⟨hside, fun ref found found' h h' hapart => Keeps.contaminatedOn hside hapart h h'⟩

end LoomDb

/-! A merge, and a merge after a rewind. -/

variable {result : Except LoomError LoomDb.MergeResult}

/-- A branch is written, turned back over a node no other branch has, and merged. -/
def sparingEvents : List LoomEvent :=
  [putAt "main" [97] flag 2, .branch mainToken "main" "a" 0, putAt "a" [98] flag 3, putAt "main" [99] flag 4,
    .rewind mainToken "main" 2 0, putAt "main" [100] flag 5]

def mergeBack (policy : MergePolicy) : LoomEvent :=
  .merge mainToken "a" "main" policy (citing []) (fun _ _ => none) 0 6

def mergeBackResult (policy : MergePolicy) (events : List LoomEvent) : Except LoomError LoomDb.MergeResult :=
  ((newDb.run plainEngine noGraph events).mergeChecked plainEngine mainToken "a" "main" policy (citing [])
    (fun _ _ => none) 0 6).1

theorem run_mergeBack (policy : MergePolicy) (events : List LoomEvent) :
    newDb.run plainEngine noGraph (events ++ [mergeBack policy]) =
      run plainEngine noGraph ((run plainEngine noGraph newDb events).mergeChecked plainEngine mainToken "a"
        "main" policy (citing []) (fun _ _ => none) 0 6).2 [] := by
  rw [run, foldl_append]
  rfl

def mergedOf : Except LoomError LoomDb.MergeResult → Option (CommitId × Nat × Nat)
  | .ok (.merged commit records automatic) => some (commit, records, automatic)
  | _ => none

theorem mergedOf_some {commit : CommitId} {records automatic : Nat}
    (h : mergedOf result = some (commit, records, automatic)) : result = .ok (.merged commit records automatic) := by
  unfold mergedOf at h
  split at h
  · cases h
    rfl
  · cases h

theorem sparing_merge_keeps_nodes :
    mergeBackResult .conflict sparingEvents = .ok (.merged 6 1 3) ∧
      ((newDb.run plainEngine noGraph sparingEvents).entriesOn "a").countP (fun e => isProvenance e.1) = 4 ∧
      ∀ e ∈ (newDb.run plainEngine noGraph sparingEvents).entriesOn "a", isProvenance e.1 = true →
        e ∈ (newDb.run plainEngine noGraph (sparingEvents ++ [mergeBack .conflict])).entriesOn "main" := by
  have hmerged : mergeBackResult .conflict sparingEvents = .ok (.merged 6 1 3) := mergedOf_some (by decide +kernel)
  have hrun : RunOf plainEngine noGraph (Spares plainEngine) newDb (sparingEvents ++ [mergeBack .conflict]) := by
    decide +kernel
  have hkept := ((provenance_survives_merges plainEngine noGraph "t" 1 sparingEvents [] _ _ _ _ _ _ _ _ hrun).2
    _ _ _ hmerged (fun _ h => absurd h not_mem_nil) "a" mem_cons_self).1
  rw [run_mergeBack]
  exact ⟨hmerged, by decide +kernel, hkept⟩

/-- The node that the other branch has taken over loses its number to the next write. -/
def takenBackEvents : List LoomEvent :=
  [putAt "main" [97] flag 2, .branch mainToken "main" "a" 0, .rewind mainToken "main" 1 0, putAt "main" [98] flag 3]

def reportOf : Except LoomError LoomDb.MergeResult → List MergeConflict
  | .ok (.conflict report) => report
  | _ => []

theorem reportOf_mem {c : MergeConflict} (h : c ∈ reportOf result) :
    ∃ report, result = .ok (.conflict report) ∧ c ∈ report := by
  unfold reportOf at h
  split at h
  · exact ⟨_, rfl, h⟩
  · cases h

/-- The merge back is a conflict at a provenance key, or the policy drops one of the two nodes. -/
theorem rewound_node_is_lost :
    (∃ report, mergeBackResult .conflict takenBackEvents = .ok (.conflict report) ∧
      ∃ c ∈ report, isProvenance c.key = true) ∧
      mergeBackResult .takeTarget takenBackEvents = .ok (.merged 6 1 1) ∧
      ∃ e ∈ (newDb.run plainEngine noGraph takenBackEvents).entriesOn "a", isProvenance e.1 = true ∧
        e ∉ (newDb.run plainEngine noGraph (takenBackEvents ++ [mergeBack .takeTarget])).entriesOn "main" := by
  have hconflict : ∃ c ∈ reportOf (mergeBackResult .conflict takenBackEvents), isProvenance c.key = true := by
    decide +kernel
  refine ⟨?_, mergedOf_some (by decide +kernel), by decide +kernel⟩
  obtain ⟨c, hc, hprov⟩ := hconflict
  obtain ⟨report, hreport, hmem⟩ := reportOf_mem hc
  exact ⟨report, hreport, c, hmem, hprov⟩

end Mutiny.Loom
