import Mutiny.Schweep.PlanMeaning

/- What the oracle computes, stage by stage, against the meaning of the plan.

   The oracle recomputes from the log: a table is the sum of its deltas
   (`Oracle.contentsAt_spec`), FROM is the plan's source node
   (`Oracle.evalSource_spec`), and each later stage turns a relation that agrees
   with a plan node into one that agrees with the node above it (`Agree`). A
   stage may also stop because a weight left `i64`; that is the only other
   outcome (`Outcome`), since rows fit their schemas and bound expressions on
   such rows raise nothing but evaluation errors. -/
namespace Mutiny.Schweep
open Mutiny.Lib ZSet WeightMap Oracle List
open Finsupp (single)

/-- A value satisfies `P`, unless a weight left the range. -/
def Outcome {α : Type} (P : α → Prop) : Except OracleError α → Prop :=
  Sat P (fun e => e.isWeightOverflow = true)

theorem Outcome.bind {α β : Type} {P : α → Prop} {Q : β → Prop} {x : Except OracleError α}
    {f : α → Except OracleError β} (hx : Outcome P x) (hf : ∀ a, x = .ok a → P a → Outcome Q (f a)) :
    Outcome Q (x >>= f) := Sat.bind hx hf

/-! Tables. -/

namespace Oracle

/-- Seal every epoch in turn, as long as each is accepted. -/
def sealAll : Oracle → List EpochDeltas → Except OracleError Oracle
  | o, [] => .ok o
  | o, deltas :: rest => match o.sealEpoch deltas with
    | (.error e, _) => .error e
    | (.ok _, o) => o.sealAll rest

/-- What sealing checked: deltas name tables of the catalog, and every table has
    contents at every sealed epoch. -/
structure Sealed (o : Oracle) : Prop where
  known : ∀ deltas ∈ o.log, ∀ table, table ∉ o.catalog → EpochDeltas.entriesFor deltas table = []
  contents : ∀ n ≤ o.log.length, ∀ table ∈ o.catalog, ∃ entries, o.contentsAt table n = .ok entries

theorem checkDeltas_known {catalog : Catalog} {l : List (String × Entries)} {u : Unit}
    (h : checkDeltas catalog l = .ok u) : ∀ e ∈ l, e.1 ∈ catalog := by
  induction l with
  | nil => simp
  | cons e rest ih =>
    obtain ⟨table, entries⟩ := e
    unfold checkDeltas at h
    split at h
    · cases h
    · next schema hs =>
      obtain ⟨_, _, h⟩ := bind_ok.1 h
      refine forall_mem_cons.2 ⟨?_, ih h⟩
      rw [← Std.ExtTreeMap.isSome_getElem?_iff_mem, hs]
      rfl

variable {o : Oracle}

theorem checkContents_all {epoch : Nat} {names : List String} {u : Unit} (h : o.checkContents epoch names = .ok u) :
    ∀ name ∈ names, ∃ entries, o.contentsAt name epoch = .ok entries := by
  induction names with
  | nil => simp
  | cons name rest ih =>
    unfold checkContents at h
    obtain ⟨entries, he, h⟩ := bind_ok.1 h
    exact forall_mem_cons.2 ⟨⟨entries, he⟩, ih h⟩

variable {n : Nat}

theorem contentsAt_append (o : Oracle) (deltas : EpochDeltas) (hn : n ≤ o.log.length) (table : String) :
    contentsAt ⟨o.catalog, o.log ++ [deltas]⟩ table n = o.contentsAt table n := by
  unfold contentsAt sealedEpoch
  rw [take_append_of_le_length hn, length_append, length_singleton,
    if_neg (show ¬ n > o.log.length + 1 by omega),
    if_neg (show ¬ n > o.log.length by omega)]

theorem sealEpoch_spec {o' : Oracle} {deltas : EpochDeltas} (ho : o.Sealed) (h : o.sealEpoch deltas = (.ok n, o')) :
    o'.Sealed ∧ o'.catalog = o.catalog ∧ o'.log = o.log ++ [deltas] := by
  unfold sealEpoch at h
  split at h
  · cases h
  · next hdeltas =>
    dsimp only at h
    split at h
    · cases h
    · next hcontents =>
      cases h
      refine ⟨⟨?_, ?_⟩, rfl, rfl⟩
      · intro d hd table htable
        rcases mem_append.1 hd with hd | hd
        · exact ho.known d hd table htable
        · obtain rfl : d = deltas := mem_singleton.1 hd
          have hno : d[table]? = none := by
            cases hg : d[table]? with
            | none => rfl
            | some entries =>
              have hmem := Std.ExtTreeMap.mem_toList_iff_getElem?_eq_some.2 hg
              exact absurd (checkDeltas_known hdeltas _ hmem) htable
          unfold EpochDeltas.entriesFor
          rw [Std.ExtTreeMap.getD_eq_getD_getElem?, hno]
          rfl
      · intro n hn table htable
        rw [length_append, length_singleton] at hn
        rcases Nat.lt_or_ge o.log.length n with hlt | hge
        · obtain rfl : n = o.log.length + 1 := by omega
          have := checkContents_all hcontents table (Std.ExtTreeMap.mem_keys.2 htable)
          simpa [sealedEpoch] using this
        · obtain ⟨entries, he⟩ := ho.contents n hge table htable
          exact ⟨entries, by rw [contentsAt_append o deltas hge, he]⟩

theorem sealAll_spec {o' : Oracle} {history : List EpochDeltas} (ho : o.Sealed) (h : o.sealAll history = .ok o') :
    o'.Sealed ∧ o'.catalog = o.catalog ∧ o'.log = o.log ++ history := by
  induction history generalizing o with
  | nil =>
    cases h
    exact ⟨ho, rfl, by simp⟩
  | cons deltas rest ih =>
    unfold sealAll at h
    split at h
    · cases h
    · next n o1 hseal =>
      obtain ⟨ho1, hcat1, hlog1⟩ := sealEpoch_spec ho hseal
      obtain ⟨ho', hcat, hlog⟩ := ih ho1 h
      exact ⟨ho', hcat.trans hcat1, by rw [hlog, hlog1]; simp⟩

theorem new_sealed {tables : List (String × Schema)} (h : new tables = .ok o) : o.Sealed ∧ o.log = [] := by
  unfold new at h
  obtain ⟨catalog, _, h⟩ := bind_ok.1 h
  cases h
  refine ⟨⟨by simp, fun n hn table htable => ?_⟩, rfl⟩
  obtain rfl : n = 0 := by simpa using hn
  refine ⟨[], ?_⟩
  have hc : catalog.contains table = true := by simpa using htable
  simp [contentsAt, hc, sealedEpoch, deltasOf, addAll, SortedMap.toList_empty, presentEntries]

theorem presentEntries_spec {table : String} {epoch : Nat} {l out : Entries}
    (h : presentEntries table epoch l = .ok out) :
    out = l.filter (fun e => e.2.val ≠ 0) ∧ ∀ e ∈ l, 0 ≤ e.2.val := by
  induction l generalizing out with
  | nil => cases h; simp
  | cons e rest ih =>
    obtain ⟨row, w⟩ := e
    unfold presentEntries at h
    split at h
    · cases h
    · next hneg =>
      obtain ⟨tail, htail, h⟩ := bind_ok.1 h
      obtain ⟨ht, hall⟩ := ih htail
      cases h
      refine ⟨?_, forall_mem_cons.2 ⟨not_lt.1 hneg, hall⟩⟩
      rw [filter_cons, ht]
      simp

/-- A table's contents are the positive canonical form of the sum of its deltas. -/
theorem contentsAt_spec {table : String} {entries : Entries} (h : o.contentsAt table n = .ok entries) :
    IsCanonical entries ∧ (∀ e ∈ entries, 0 < e.2.val) ∧
      ofEntries entries = ofEntries (deltasOf table (o.log.take n)) := by
  unfold contentsAt at h
  split at h
  · cases h
  · split at h
    · cases h
    · split at h
      · cases h
      · next integral hint =>
        obtain ⟨rfl, hpos⟩ := presentEntries_spec h
        have hcanon := integral.nonzero_isCanonical
        refine ⟨hcanon, fun e he => ?_, ?_⟩
        · obtain ⟨hm, hne⟩ := mem_filter.1 he
          exact lt_of_le_of_ne (hpos e hm) (Ne.symm (by simpa using hne))
        · rw [ofEntries_filter_nonzero]
          have := addAll_denote (fun x y z hz => I64.checkedAdd_eq_some.1 hz) hint
          rw [denote_empty, zero_add] at this
          exact this

noncomputable def tables (o : Oracle) (n : Nat) (table : String) : ZSet Row :=
  ZSet.ofEntries (deltasOf table (o.log.take n))

theorem Sealed.tables_nonneg (ho : o.Sealed) (hn : n ≤ o.log.length) (table : String) : 0 ≤ o.tables n table := by
  by_cases htable : table ∈ o.catalog
  · obtain ⟨entries, he⟩ := ho.contents n hn table htable
    obtain ⟨_, hpos, hd⟩ := contentsAt_spec he
    rw [tables, ← hd]
    exact ofEntries_nonneg (fun e he => (hpos e he).le)
  · have hnil : deltasOf table (o.log.take n) = [] := by
      rw [deltasOf, flatMap_eq_nil_iff]
      exact fun d hd => ho.known d (mem_of_mem_take hd) table htable
    rw [tables, hnil]
    exact le_rfl

end Oracle

/-! FROM. -/

variable {lrow : Row} {keys : List (Nat × Nat)}

theorem keyOf_cons {row : Row} {p : Nat} {rest : List Nat} {v : Value} (hv : row[p]? = some v) :
    keyOf row (p :: rest) = if v.isNull then none else (keyOf row rest).map (v :: ·) := by
  rw [keyOf, hv]
  cases v <;> rfl

/-- The key comparison is true exactly when both rows have one and the same key. -/
theorem keysMatch_spec {rrow : Row} (hin : ∀ k ∈ keys, k.1 < lrow.length ∧ k.2 < rrow.length) :
    ∃ b, keysMatch lrow rrow keys = .ok b ∧
      (b = true ↔ ∃ key, keyOf lrow (keys.map Prod.fst) = some key ∧ keyOf rrow (keys.map Prod.snd) = some key) := by
  induction keys with
  | nil => exact ⟨true, rfl, by simp [keyOf]⟩
  | cons k rest ih =>
    obtain ⟨li, ri⟩ := k
    obtain ⟨⟨hl, hr⟩, hrest⟩ := forall_mem_cons.1 hin
    have hlv : lrow[li]? = some lrow[li] := List.getElem?_eq_getElem hl
    have hrv : rrow[ri]? = some rrow[ri] := List.getElem?_eq_getElem hr
    obtain ⟨b, hb, hiff⟩ := ih hrest
    unfold keysMatch
    rw [hlv, hrv, map_cons, map_cons, keyOf_cons hlv, keyOf_cons hrv]
    dsimp only
    by_cases hnull : (lrow[li].isNull || rrow[ri].isNull) = true
    · refine ⟨false, by rw [if_pos (by simp [hnull])], ?_⟩
      rcases Bool.or_eq_true_iff.1 hnull with h | h <;> simp [h]
    · have hln : lrow[li].isNull = false := by simp_all
      have hrn : rrow[ri].isNull = false := by simp_all
      by_cases heq : lrow[li] = rrow[ri]
      · refine ⟨b, by rw [if_neg (by simp [hrn, heq]), hb], ?_⟩
        rw [hiff, hln, hrn, heq]
        simp
      · refine ⟨false, by rw [if_pos (by simp [heq])], ?_⟩
        simp only [hln, hrn, Bool.false_eq_true, if_false, Option.map_eq_some_iff, false_iff]
        rintro ⟨key, ⟨_, _, rfl⟩, _, _, h⟩
        exact heq (List.cons.inj h).1.symm

theorem matched_eq {rrow : Row} {b : Bool}
    (hb : b = true ↔ ∃ key, keyOf lrow (keys.map Prod.fst) = some key ∧ keyOf rrow (keys.map Prod.snd) = some key) :
    Join.matched (keys.map Prod.fst) (keys.map Prod.snd) lrow rrow =
      if b then single (lrow ++ rrow) 1 else 0 := by
  unfold Join.matched
  cases hk : keyOf lrow (keys.map Prod.fst) with
  | none =>
    rw [hk] at hb
    rw [if_neg (fun h => by simpa using hb.1 h)]
  | some key =>
    rw [hk] at hb
    have : b = true ↔ keyOf rrow (keys.map Prod.snd) = some key := by
      rw [hb]
      constructor
      · rintro ⟨key', h, h'⟩
        cases h
        exact h'
      · exact fun h => ⟨key, rfl, h⟩
    simp only [this]

theorem joinRow_spec {lw : I64} (hw : 0 < lw.val) {right : Entries} (hpos : ∀ e ∈ right, 0 < e.2.val)
    (hin : ∀ e ∈ right, ∀ k ∈ keys, k.1 < lrow.length ∧ k.2 < e.1.length) :
    Outcome (fun out => (∀ e ∈ out, 0 < e.2.val) ∧ ofEntries out = lw.val •
      lin (Join.matched (keys.map Prod.fst) (keys.map Prod.snd) lrow) (ofEntries right))
      (joinRow keys lrow lw right) := by
  induction right with
  | nil => exact ⟨by simp, by simp⟩
  | cons e rest ih =>
    obtain ⟨rrow, rw'⟩ := e
    obtain ⟨(hrw : 0 < rw'.val), hposr⟩ := forall_mem_cons.1 hpos
    obtain ⟨hine, hinr⟩ := forall_mem_cons.1 hin
    obtain ⟨b, hb, hiff⟩ := keysMatch_spec hine
    unfold joinRow
    rw [hb, ok_bind, ofEntries_cons, map_add, lin_single, matched_eq hiff]
    cases b with
    | false =>
      simp only [Bool.false_eq_true, if_false, smul_zero, zero_add]
      exact ih hposr hinr
    | true =>
      simp only [if_true]
      split
      · rfl
      · next w hmul =>
        have hwv := I64.checkedMul_eq_some.1 hmul
        refine Outcome.bind (ih hposr hinr) (fun out _ hout => ⟨?_, ?_⟩)
        · refine forall_mem_cons.2 ⟨?_, hout.1⟩
          show 0 < w.val
          rw [hwv]
          exact mul_pos hw hrw
        · rw [ofEntries_cons, hout.2, smul_add]
          congr 1
          simp [hwv]

theorem joinEntries_spec {right left : Entries} (hl : ∀ e ∈ left, 0 < e.2.val) (hr : ∀ e ∈ right, 0 < e.2.val)
    (hin : ∀ l ∈ left, ∀ r ∈ right, ∀ k ∈ keys, k.1 < l.1.length ∧ k.2 < r.1.length) :
    Outcome (fun out => (∀ e ∈ out, 0 < e.2.val) ∧ ofEntries out =
      lin₂ (Join.matched (keys.map Prod.fst) (keys.map Prod.snd)) (ofEntries left)
        (ofEntries right)) (joinEntries keys right left) := by
  induction left with
  | nil => exact ⟨by simp, by rw [ofEntries_nil, lin₂_zero_left]⟩
  | cons e rest ih =>
    obtain ⟨lrow, lw⟩ := e
    obtain ⟨hw, hlr⟩ := forall_mem_cons.1 hl
    obtain ⟨hine, hinr⟩ := forall_mem_cons.1 hin
    unfold joinEntries
    refine Outcome.bind (joinRow_spec hw hr hine) (fun here _ hhere => ?_)
    refine Outcome.bind (ih hlr hinr) (fun out _ hout => ⟨?_, ?_⟩)
    · intro x hx
      rcases mem_append.1 hx with hx | hx
      · exact hhere.1 x hx
      · exact hout.1 x hx
    · rw [ofEntries_append, hhere.2, hout.2, ofEntries_cons, lin₂_add_left]
      congr 1
      rw [lin₂, lin_single]

theorem indexOf_lt {s : Schema} {name : String} {i : Nat} (h : s.indexOf name = some i) : i < s.len :=
  (List.findIdx?_eq_some_iff_getElem.1 h).1

/-- Both engines resolve a join's keys to the same positions, within the rows. -/
theorem planKeys_spec {left right : Schema} {on : List (String × String)} (h : planKeys left right on = .ok keys) :
    joinKeyIndexes left right on = .ok keys ∧ ∀ k ∈ keys, k.1 < left.len ∧ k.2 < right.len := by
  have hindex : ∀ {s : Schema} {name : String} {i : Nat}, planIndexOf s name = .ok i → s.indexOf name = some i := by
    intro s name i hi
    unfold planIndexOf at hi
    split at hi
    · cases hi
    · next j hj => cases hi; exact hj
  induction on generalizing keys with
  | nil => cases h; exact ⟨rfl, by simp⟩
  | cons pair rest ih =>
    obtain ⟨l, r⟩ := pair
    unfold planKeys at h
    obtain ⟨li, hli, h⟩ := bind_ok.1 h
    obtain ⟨ri, hri, h⟩ := bind_ok.1 h
    obtain ⟨ks, hks, h⟩ := bind_ok.1 h
    cases h
    obtain ⟨hk, hlt⟩ := ih hks
    refine ⟨?_, forall_mem_cons.2 ⟨⟨indexOf_lt (hindex hli), indexOf_lt (hindex hri)⟩, hlt⟩⟩
    simp [joinKeyIndexes, hindex hli, hindex hri, hk]

theorem liftZSet_ok {α : Type} {x : Except ZSetError α} {a : α} : liftZSet x = .ok a ↔ x = .ok a := by
  cases x <;> simp [liftZSet]

theorem sourceNode_spec {catalog : Catalog} {src : Source} {node : CircuitNode}
    (h : sourceNode catalog src = .ok node) :
    node.Typed ∧ (∀ s, bindSource catalog src = .ok s → node.schema = s) ∧
      ∀ T, (node.meaning T).2 = 0 := by
  induction src generalizing node with
  | scan table aliasName =>
    unfold sourceNode at h
    obtain ⟨schema, hs, h⟩ := bind_ok.1 h
    cases h
    refine ⟨trivial, fun s hb => ?_, fun T => rfl⟩
    rw [sqlPlan_ok.1 hs] at hb
    cases hb
    rfl
  | join left right on ihl ihr =>
    unfold sourceNode at h
    obtain ⟨l, hl, h⟩ := bind_ok.1 h
    obtain ⟨r, hr, h⟩ := bind_ok.1 h
    obtain ⟨keys, _, h⟩ := bind_ok.1 h
    obtain ⟨schema, hs, h⟩ := bind_ok.1 h
    cases h
    have hs' := liftZSet_ok.1 (sqlPlan_ok.1 hs)
    obtain ⟨htl, hsl, hel⟩ := ihl hl
    obtain ⟨htr, hsr, her⟩ := ihr hr
    refine ⟨⟨htl, htr, hs'⟩, fun s hb => ?_, fun T => ?_⟩
    · unfold bindSource at hb
      split at hb
      · cases hb
      · obtain ⟨ls, hls, hb⟩ := bind_ok.1 hb
        obtain ⟨rs, hrs, hb⟩ := bind_ok.1 hb
        obtain ⟨_, _, hb⟩ := bind_ok.1 hb
        rw [hsl ls hls, hsr rs hrs, liftZSet_ok.1 hb] at hs'
        cases hs'
        rfl
    · rw [CircuitNode.meaning, hel, her, add_zero]

theorem Oracle.evalSource_spec {o : Oracle} (ho : o.Sealed) {n : Nat} (hn : n ≤ o.log.length) {src : Source}
    {schema : Schema} (hb : bindSource o.catalog src = .ok schema) {node : CircuitNode}
    (h : sourceNode o.catalog src = .ok node) (hf : node.Fits (o.tables n)) :
    Outcome (fun r => r.schema = node.schema ∧ ofEntries r.entries = (node.meaning (o.tables n)).1 ∧
      ∀ e ∈ r.entries, 0 < e.2.val) (o.evalSource n src) := by
  induction src generalizing node schema with
  | scan table aliasName =>
    unfold sourceNode at h
    obtain ⟨s, hs, h⟩ := bind_ok.1 h
    cases h
    have hs' := sqlPlan_ok.1 hs
    unfold bindSource at hs'
    unfold evalSource
    cases ht : o.catalog[table]? with
    | none =>
      rw [ht] at hs'
      cases hs'
    | some tableSchema =>
      rw [ht] at hs'
      dsimp only
      rw [liftZSet_ok.1 hs']
      have hmem : table ∈ o.catalog := by
        rw [← Std.ExtTreeMap.isSome_getElem?_iff_mem, ht]
        rfl
      obtain ⟨entries, hentries⟩ := ho.contents n hn table hmem
      obtain ⟨_, hpos, hd⟩ := contentsAt_spec hentries
      simp only [orZSet, ok_bind, hentries]
      exact ⟨rfl, hd, hpos⟩
  | join left right on ihl ihr =>
    unfold sourceNode at h
    obtain ⟨l, hl, h⟩ := bind_ok.1 h
    obtain ⟨r, hr, h⟩ := bind_ok.1 h
    obtain ⟨keys, hkeys, h⟩ := bind_ok.1 h
    obtain ⟨s, hs, h⟩ := bind_ok.1 h
    cases h
    unfold bindSource at hb
    unfold evalSource
    split at hb
    · cases hb
    · next hon =>
      obtain ⟨ls, hls, hb⟩ := bind_ok.1 hb
      obtain ⟨rs, hrs, hb⟩ := bind_ok.1 hb
      obtain ⟨hjk, hlt⟩ := planKeys_spec hkeys
      rw [if_neg hon]
      refine Outcome.bind (ihl hls hl hf.1) (fun lrel _ hlrel => ?_)
      refine Outcome.bind (ihr hrs hr hf.2.1) (fun rrel _ hrrel => ?_)
      rw [hlrel.1, hrrel.1, hjk, liftZSet_ok.1 (sqlPlan_ok.1 hs)]
      simp only [orZSet, ok_bind]
      -- every row in flight fits its schema, so every key position is in it
      have hfit : ∀ {p : CircuitNode} {rel : Relation}, p.Fits (o.tables n) →
          ofEntries rel.entries = (p.meaning (o.tables n)).1 → (∀ e ∈ rel.entries, 0 < e.2.val) →
          ∀ e ∈ rel.entries, e.1.length = p.schema.len := by
        intro p rel hp hd hpos e he
        have hne : (p.meaning (o.tables n)).1 e.1 ≠ 0 := by
          rw [← hd]
          exact (ofEntries_ne_zero_iff hpos).2 ⟨e, he, rfl⟩
        exact (Schema.conforms_iff.1 (hp.root hne)).1
      refine Outcome.bind (joinEntries_spec hlrel.2.2 hrrel.2.2 (fun le hle re hre k hk => ?_))
        (fun out _ hout => ⟨rfl, ?_, hout.1⟩)
      · rw [hfit hf.1 hlrel.2.1 hlrel.2.2 le hle, hfit hf.2.1 hrrel.2.1 hrrel.2.2 re hre]
        exact hlt k hk
      · rw [hout.2, hlrel.2.1, hrrel.2.1]
        rfl

/-! Stages that go row by row. -/

variable {r : Relation} {p : CircuitNode} {T : String → ZSet Row} {f : Row → Except PlanError (Option Row)}
  {live : LiveErrors} {row : Row}

/-- A relation in flight agrees with a plan node: its rows are the node's data,
    each present, and the messages recorded so far are the node's live errors. -/
structure Agree (r : Relation) (live : LiveErrors) (p : CircuitNode) (T : String → ZSet Row) : Prop where
  schema : r.schema = p.schema
  data : ZSet.ofEntries r.entries = (p.meaning T).1
  pos : ∀ e ∈ r.entries, 0 < e.2.val
  valid : live.Valid
  live : ∀ m, m ∈ live ↔ (p.meaning T).2 [.str m] ≠ 0

theorem Agree.fits (h : Agree r live p T) (hp : p.Fits T) : ∀ e ∈ r.entries, p.schema.Conforms e.1 := by
  intro e he
  refine hp.root ?_
  rw [← h.data]
  exact (ofEntries_ne_zero_iff h.pos).2 ⟨e, he, rfl⟩

theorem LiveErrors.record_total (live : LiveErrors) {e : PlanError} (h : e.isEvaluationError = true) :
    ∃ live', live.record e = .ok live' := ⟨_, if_pos h⟩

theorem recordEntries_total (live : LiveErrors) {l : Entries}
    (h : ∀ e ∈ l, ∀ err, f e.1 = .error err → err.isEvaluationError = true) :
    ∃ r, recordEntries f live l = .ok r := by
  induction l generalizing live with
  | nil => exact ⟨_, rfl⟩
  | cons e rest ih =>
    obtain ⟨row, w⟩ := e
    obtain ⟨hrow, hrest⟩ := forall_mem_cons.1 h
    unfold recordEntries
    cases hf : f row with
    | ok out =>
      obtain ⟨⟨kept, live'⟩, hr⟩ := ih live hrest
      cases out with
      | none => exact ⟨_, hr⟩
      | some out => exact ⟨_, by simp [hr]; rfl⟩
    | error err =>
      obtain ⟨live1, h1⟩ := live.record_total (hrow err hf)
      obtain ⟨r, hr⟩ := ih live1 hrest
      exact ⟨r, by simp [h1, hr]⟩

theorem rowErrs_ne_zero_iff {m : String} :
    rowErrs f row [.str m] ≠ 0 ↔ ∃ err, f row = .error err ∧ err.message = m := by
  unfold rowErrs
  split
  · next err herr =>
    rw [Finsupp.single_apply]
    simp [errorRow, herr]
  · next hno =>
    simp only [Finsupp.coe_zero, Pi.zero_apply, ne_eq, not_true_eq_false, false_iff, not_exists, not_and]
    exact fun err herr => absurd herr (hno err)

/-- One pass of a row function over an agreeing relation. -/
theorem Agree.record {q : CircuitNode} (h : Agree r live p T) (hT : ∀ table, 0 ≤ T table)
    (hs : ∀ e ∈ r.entries, ∀ err, f e.1 = .error err → err.isEvaluationError = true)
    (hq : q.meaning T = (lin (rowData f) (p.meaning T).1,
      (p.meaning T).2 + lin (rowErrs f) (p.meaning T).1)) :
    ∃ kept live', recordEntries f live r.entries = .ok (kept, live') ∧ Agree ⟨q.schema, kept⟩ live' q T := by
  obtain ⟨⟨kept, live'⟩, hr⟩ := recordEntries_total live hs
  obtain ⟨hd, hk, hv, hm⟩ := recordEntries_spec hr
  refine ⟨kept, live', hr, rfl, ?_, ?_, hv h.valid, ?_⟩
  · rw [hd, h.data, hq]
  · intro e he
    obtain ⟨e', he', _, hw⟩ := hk e he
    exact hw ▸ h.pos e' he'
  · intro m
    have hnn := CircuitNode.meaning_nonneg hT p
    rw [hm, hq, add_ne_zero_iff hnn.2 (lin_nonneg (rowErrs_nonneg f) hnn.1), h.live, ← h.data,
      lin_ofEntries_ne_zero_iff (rowErrs_nonneg f) h.pos]
    simp only [rowErrs_ne_zero_iff]

theorem isTrue_sound {scope : Scope} (hrow : scope.schema.Conforms row) {predicate : Expr} {ty : DataType}
    (ht : typeOf scope predicate = .ok ty) : Sound (fun _ => True) (filterRow scope.schema predicate row) := by
  unfold filterRow isTrue
  refine Sound.bind (P := fun _ => True) (Sound.bind (eval_sound hrow predicate ht) (fun v _ => trivial))
    (fun b _ => trivial)

theorem evalNamed_sound {scope : Scope} (hrow : scope.schema.Conforms row) {items : List (Named Expr)}
    {fields : List Field} (ht : outputFields (typeOf scope) items = .ok fields) :
    Sound (fun _ => True) (evalNamed scope.schema row items) := by
  induction items generalizing fields with
  | nil => trivial
  | cons item rest ih =>
    unfold outputFields at ht
    obtain ⟨t, hty, ht⟩ := bind_ok.1 ht
    obtain ⟨fs, hfs, _⟩ := bind_ok.1 ht
    unfold evalNamed
    exact Sound.bind (eval_sound hrow item.value hty) (fun v _ => Sound.bind (ih hfs) (fun vs _ => trivial))

section

variable (h : Agree r live p T) (hT : ∀ table, 0 ≤ T table) (hp : p.Fits T)
include h hT hp

theorem Agree.filterStage {naming : Naming}
    {predicate : Option Expr} (ht : (withFilter naming predicate p).Typed) :
    ∃ r' live', Schweep.filterStage predicate r live = .ok (r', live') ∧
      Agree r' live' (withFilter naming predicate p) T := by
  cases predicate with
  | none => exact ⟨r, live, rfl, h⟩
  | some e =>
    have hs : ∀ x ∈ r.entries, ∀ err, filterRow p.schema e x.1 = .error err → err.isEvaluationError = true :=
      fun x hx err herr => (@isTrue_sound x.1 ⟨p.schema, naming⟩ (h.fits hp x hx) e _ ht.2).of_error herr
    obtain ⟨kept, live', hr, hagree⟩ := h.record (q := .filter p naming e) hT hs rfl
    refine ⟨⟨r.schema, kept⟩, live', ?_, h.schema ▸ hagree⟩
    simp only [Schweep.filterStage, h.schema, hr, ok_bind, pure_eq_ok]

theorem Agree.selectStage {naming : Naming}
    {items : Option (List (Named Expr))} {output : Schema} (ht : (withProject items naming output p).Typed) :
    ∃ r' live', Schweep.selectStage items output r live = .ok (r', live') ∧
      Agree r' live' (withProject items naming output p) T := by
  cases items with
  | none => exact ⟨r, live, rfl, h⟩
  | some items =>
    obtain ⟨fields, hfields, _⟩ := bind_ok.1 ht.2
    have hs : ∀ x ∈ r.entries, ∀ err, projectRow p.schema items x.1 = .error err →
        err.isEvaluationError = true := by
      intro x hx err herr
      have hsound := @evalNamed_sound x.1 ⟨p.schema, naming⟩ (h.fits hp x hx) _ _ hfields
      rcases bind_error.1 herr with herr | ⟨_, _, herr⟩
      · exact hsound.of_error herr
      · cases herr
    obtain ⟨kept, live', hr, hagree⟩ := h.record (q := .project p naming items output) hT hs rfl
    refine ⟨⟨output, kept⟩, live', ?_, hagree⟩
    simp only [Schweep.selectStage, h.schema, hr, ok_bind, pure_eq_ok]

end

theorem Agree.consolidate (h : Agree r live p T) :
    Outcome (fun entries => Agree ⟨r.schema, entries⟩ live p T ∧ IsCanonical entries)
      (consolidateRelation r.entries) := by
  unfold consolidateRelation
  split
  · rfl
  · next merged hm =>
    have hd := addAll_denote (fun x y z hz => I64.checkedAdd_eq_some.1 hz) hm
    rw [denote_empty, zero_add] at hd
    have hc := merged.nonzero_isCanonical
    have hz : ofEntries merged.nonzero = ofEntries r.entries := by
      rw [ofEntries_nonzero, hd]
    refine ⟨⟨h.schema, hz.trans h.data, fun e he => ?_, h.valid, h.live⟩, hc⟩
    have hw := hc.mem_iff.1 (show (e.1, e.2) ∈ merged.nonzero from he)
    rw [hz] at hw
    have hnn : (0 : ℤ) ≤ ofEntries r.entries e.1 :=
      ofEntries_nonneg (fun x hx => (h.pos x hx).le) e.1
    rw [hw.1] at hnn
    exact lt_of_le_of_ne hnn hw.2.symm

end Mutiny.Schweep
