import Mutiny.Schweep.LinearSpec

/- The join is the bilinear extension of matching two rows.

   Each index holds its side's integral under `key ++ row`, with a row that has
   no key under nulls. A probe is a prefix scan, and because a probed key has no
   null and the width of every stored key, it finds exactly the rows with that
   key (`storedKey_eq_iff`). The three terms of a step are then the increment of
   `ZSet.lin₂` (`Join.step_spec`). -/
namespace Mutiny.Schweep
open Mutiny.Lib ZSet MemBackend List
open Finsupp (single)

variable {row : Row} {positions : List Nat} {key : List Value}

theorem keyOf_length (h : keyOf row positions = some key) : key.length = positions.length := by
  induction positions generalizing key with
  | nil => cases h; rfl
  | cons p rest ih =>
    unfold keyOf at h
    split at h
    · cases h
    · cases h
    · obtain ⟨k, hk, rfl⟩ := Option.map_eq_some_iff.1 h
      simp [ih hk]

theorem keyOf_ne_null (h : keyOf row positions = some key) : Value.null ∉ key := by
  induction positions generalizing key with
  | nil => cases h; simp
  | cons p rest ih =>
    unfold keyOf at h
    split at h
    · cases h
    · cases h
    · next v hv _ =>
      obtain ⟨k, hk, rfl⟩ := Option.map_eq_some_iff.1 h
      rw [mem_cons, not_or]
      exact ⟨fun hn => by simp_all, ih hk⟩

namespace Join

theorem storedKey_length (positions : List Nat) (row : Row) : (storedKey positions row).length = positions.length := by
  unfold storedKey
  cases h : keyOf row positions with
  | none => simp
  | some key => exact keyOf_length h

variable {positions : List Nat} {row : Row} {key : List Value}

/-- Under a key without nulls stand exactly the rows that have that key. -/
theorem storedKey_eq_iff (hn : Value.null ∉ key) : storedKey positions row = key ↔ keyOf row positions = some key := by
  unfold storedKey
  cases h : keyOf row positions with
  | some k => simp
  | none =>
    simp only [Option.getD_none, reduceCtorEq, iff_false]
    intro he
    cases positions with
    | nil => cases h
    | cons p rest => exact hn (he ▸ mem_cons_self)

/-- What a side's index denotes. -/
noncomputable def indexed (positions : List Nat) (z : ZSet Row) : ZSet Key :=
  ZSet.lin (fun row => single (indexKey (storedKey positions row) row) 1) z

theorem indexed_add (positions : List Nat) (z z' : ZSet Row) :
    indexed positions (z + z') = indexed positions z + indexed positions z' := map_add _ _ _

theorem ofEntries_indexBatch (positions : List Nat) (entries : Entries) :
    ofEntries (indexBatch positions entries) = indexed positions (ofEntries entries) :=
  ofEntries_map (fun row => indexKey (storedKey positions row) row) entries

noncomputable def matched (leftKey rightKey : List Nat) (left right : Row) : ZSet Row :=
  match keyOf left leftKey with
  | none => 0
  | some key => if keyOf right rightKey = some key then single (left ++ right) 1 else 0

variable {leftKey rightKey : List Nat} {left : Row}

theorem matched_of_none (h : keyOf left leftKey = none) : matched leftKey rightKey left = fun _ => 0 := by
  funext right
  simp [matched, h]

theorem matched_of_some (h : keyOf left leftKey = some key) :
    matched leftKey rightKey left =
      fun right => if keyOf right rightKey = some key then single (left ++ right) 1 else 0 := by
  funext right
  simp [matched, h]

variable {lw : I64}

theorem joined_ok {right : Row} {rw : I64} {entry : Row × I64} (h : joined left lw right rw = .ok entry) :
    single entry.1 entry.2.val = (lw.val * rw.val) • single (left ++ right) (1 : ℤ) := by
  unfold joined at h
  split at h
  · cases h
  · next w hw =>
    cases h
    simp [I64.checkedMul_eq_some.1 hw]

variable {keyLen : Nat}

theorem rowFromIndexKey_ok {key : Key} (h : rowFromIndexKey key keyLen = .ok row) : row = key.drop keyLen := by
  unfold rowFromIndexKey at h
  split at h
  · cases h
  · cases h; rfl

variable {out : Entries}

theorem probe_spec {pair : Row → I64 → Except OpError (Row × I64)} {g : Row → ZSet Row}
    (hpair : ∀ row w entry, pair row w = .ok entry → single entry.1 entry.2.val = w.val • g row)
    {l : List (Key × I64)} (h : probe keyLen pair l = .ok out) :
    ofEntries out = lin (fun key => g (key.drop keyLen)) (ofEntries l) := by
  induction l generalizing out with
  | nil => cases h; simp
  | cons e rest ih =>
    obtain ⟨key, w⟩ := e
    unfold probe at h
    obtain ⟨row, hrow, h⟩ := bind_ok.1 h
    obtain ⟨entry, hentry, h⟩ := bind_ok.1 h
    obtain ⟨tail, htail, h⟩ := bind_ok.1 h
    cases h
    rw [ofEntries_cons, ofEntries_cons, map_add, lin_single, ih htail,
      hpair row w entry hentry, rowFromIndexKey_ok hrow]

theorem probe_indexed (hlen : positions.length = keyLen) (hn : Value.null ∉ key) (hk : key.length = keyLen)
    (g : Row → ZSet Row) (z : ZSet Row) :
    lin (fun k => if key.isPrefixOf k then g (k.drop keyLen) else 0) (indexed positions z) =
      lin (fun row => if keyOf row positions = some key then g row else 0) z := by
  unfold indexed
  rw [lin_lin_single (fun k => if key.isPrefixOf k then g (k.drop keyLen) else 0)]
  refine lin_congr (fun row _ => ?_)
  have hw : (storedKey positions row).length = keyLen := by rw [storedKey_length, hlen]
  have hdrop : (indexKey (storedKey positions row) row).drop keyLen = row := by
    rw [indexKey, ← hw, drop_left]
  have hpre : key.isPrefixOf (indexKey (storedKey positions row) row) = true ↔
      keyOf row positions = some key := by
    rw [ isPrefixOf_iff_prefix, ← storedKey_eq_iff hn]
    constructor
    · intro hp
      have hpk := prefix_of_prefix_length_le hp (prefix_append _ _) (by rw [hk, hw])
      exact (hpk.eq_of_length (hk.trans hw.symm)).symm
    · intro he
      rw [indexKey, he]
      exact prefix_append _ _
  simp only [hpre, hdrop]

variable {l : Entries}

theorem probeAll_spec {other : List Nat} {index : MemBackend} {z : ZSet Row}
    {pair : Row → I64 → Row → I64 → Except OpError (Row × I64)} {g : Row → Row → ZSet Row}
    (hpair : ∀ d dw row w entry, pair d dw row w = .ok entry →
      single entry.1 entry.2.val = (dw.val * w.val) • g d row) (hp : positions.length = keyLen)
    (ho : other.length = keyLen) (hindex : index.denote = indexed other z)
    (h : probeAll positions index keyLen pair l = .ok out) :
    ofEntries out = lin₂ (fun d row => match keyOf d positions with
      | none => 0
      | some key => if keyOf row other = some key then g d row else 0) (ofEntries l) z := by
  induction l generalizing out with
  | nil => cases h; rw [ofEntries_nil, lin₂_zero_left]
  | cons e rest ih =>
    obtain ⟨d, dw⟩ := e
    rw [ofEntries_cons, lin₂_add_left]
    unfold probeAll at h
    split at h
    · next hk =>
      rw [ih h]
      simp [lin₂, hk, lin_zero_fun]
    · next key hk =>
      obtain ⟨here, hhere, h⟩ := bind_ok.1 h
      obtain ⟨tail, htail, h⟩ := bind_ok.1 h
      cases h
      rw [ofEntries_append, ih htail]
      congr 1
      have hscan := probe_spec (g := fun row => dw.val • g d row)
        (fun row w entry he => by rw [hpair _ _ _ _ _ he, mul_comm, mul_smul]) hhere
      rw [hscan, visitPrefix_eq_filter, lin_ofEntries_filter _ (fun k => key.isPrefixOf k)]
      have hz : ofEntries index.entries.toList = indexed other z := hindex
      rw [hz, probe_indexed ho (keyOf_ne_null hk) ((keyOf_length hk).trans hp) (fun row => dw.val • g d row)]
      simp only [lin₂, lin_single, hk, ← lin_smul_fun, smul_ite, smul_zero]

theorem crossRow_spec (h : crossRow rightKey left lw key l = .ok out) :
    ofEntries out = lw.val • lin (fun right =>
      if keyOf right rightKey = some key then single (left ++ right) 1 else 0) (ofEntries l) := by
  induction l generalizing out with
  | nil => cases h; simp
  | cons e rest ih =>
    obtain ⟨right, rw⟩ := e
    rw [ofEntries_cons, map_add, smul_add, lin_single]
    unfold crossRow at h
    split at h
    · next hk =>
      obtain ⟨entry, hentry, h⟩ := bind_ok.1 h
      obtain ⟨tail, htail, h⟩ := bind_ok.1 h
      cases h
      rw [ofEntries_cons, ih htail, joined_ok hentry, if_pos hk, mul_smul]
    · next hk =>
      rw [ih h, if_neg hk, smul_zero, smul_zero, zero_add]

theorem cross_spec {right : Entries} (h : cross leftKey rightKey right l = .ok out) :
    ofEntries out = lin₂ (matched leftKey rightKey) (ofEntries l) (ofEntries right) := by
  induction l generalizing out with
  | nil => cases h; rw [ofEntries_nil, lin₂_zero_left]
  | cons e rest ih =>
    obtain ⟨left, lw⟩ := e
    rw [ofEntries_cons, lin₂_add_left]
    unfold cross at h
    split at h
    · next hk =>
      rw [ih h]
      simp [lin₂, matched_of_none hk, lin_zero_fun]
    · next key hk =>
      obtain ⟨here, hhere, h⟩ := bind_ok.1 h
      obtain ⟨tail, htail, h⟩ := bind_ok.1 h
      cases h
      rw [ofEntries_append, ih htail, crossRow_spec hhere]
      simp [lin₂, matched_of_some hk]

/-- What a join remembers of two sides: each side's integral, and keys of one width. -/
structure Holds (j : Join) (left right : ZSet Row) : Prop where
  width : j.rightKey.length = j.leftKey.length
  leftIndex : j.leftIndex.denote = indexed j.leftKey left
  rightIndex : j.rightIndex.denote = indexed j.rightKey right

/-- Neither index keeps an entry at weight zero. -/
def Reduced (j : Join) : Prop := j.leftIndex.entries.Reduced ∧ j.rightIndex.entries.Reduced

/-- The parts of a join that no step changes. -/
structure SameShape (j j' : Join) : Prop where
  leftSchema : j'.leftSchema = j.leftSchema
  rightSchema : j'.rightSchema = j.rightSchema
  outputSchema : j'.outputSchema = j.outputSchema
  leftKey : j'.leftKey = j.leftKey
  rightKey : j'.rightKey = j.rightKey

variable {j : Join} {right : ZSet Row} {dl dr : Entries} {left : ZSet Row}

theorem probes_spec (hj : j.Holds left right) (h : j.probes dl dr = .ok out) : ofEntries out =
      lin₂ (matched j.leftKey j.rightKey) (ofEntries dl) right +
      lin₂ (matched j.leftKey j.rightKey) left (ofEntries dr) +
      lin₂ (matched j.leftKey j.rightKey) (ofEntries dl) (ofEntries dr) := by
  unfold probes at h
  obtain ⟨t1, h1, h⟩ := bind_ok.1 h
  obtain ⟨t2, h2, h⟩ := bind_ok.1 h
  obtain ⟨t3, h3, h⟩ := bind_ok.1 h
  cases h
  have e1 := probeAll_spec (g := fun l r => single (l ++ r) 1)
    (fun l lw r rw entry he => joined_ok he) rfl hj.width hj.rightIndex h1
  have e2 := probeAll_spec (g := fun r l => single (l ++ r) 1)
    (fun r rw l lw entry he => by rw [joined_ok he, mul_comm]) hj.width rfl hj.leftIndex h2
  rw [ofEntries_append, ofEntries_append, e1, e2, cross_spec h3]
  congr 2
  -- the second term sums over the right delta first
  rw [← lin₂_comm]
  unfold lin₂
  refine lin_congr (fun l _ => lin_congr (fun r _ => ?_))
  unfold matched
  cases hl : keyOf l j.leftKey with
  | none => cases hr : keyOf r j.rightKey <;> simp [hl, hr]
  | some kl =>
    cases hr : keyOf r j.rightKey with
    | none => simp [hr]
    | some kr => simp [hl, hr, eq_comm]

variable {j' : Join}

theorem integrate_spec (hj : j.Holds left right) (h : j.integrate dl dr = (.ok (), j')) :
    j.SameShape j' ∧ (j.Reduced → j'.Reduced) ∧ j'.Holds (left + ofEntries dl) (right + ofEntries dr) := by
  unfold integrate at h
  split at h
  · cases h
  · next li hl =>
    dsimp only at h
    split at h
    · cases h
    · next ri hr =>
      cases h
      refine ⟨⟨rfl, rfl, rfl, rfl, rfl⟩, fun hr' => ⟨?_, ?_⟩, hj.width, ?_, ?_⟩
      · exact (write_spec hl).2 hr'.1
      · exact (write_spec hr).2 hr'.2
      · rw [(write_spec hl).1, hj.leftIndex, ofEntries_indexBatch, indexed_add]
      · rw [(write_spec hr).1, hj.rightIndex, ofEntries_indexBatch, indexed_add]

/-- A step emits the increment of the join and integrates both deltas. -/
theorem step_spec (hj : j.Holds left right) {batches : List ZSetBatch} {out : StepOutput}
    (h : j.step batches = (.ok out, j')) : ∃ l r, batches = [l, r] ∧ j.SameShape j' ∧ (j.Reduced → j'.Reduced) ∧
      j'.Holds (left + l.denote) (right + r.denote) ∧
      out.data.schema = j.outputSchema ∧ out.errors.schema = errorSchema ∧ out.errors.denote = 0 ∧
      lin₂ (matched j.leftKey j.rightKey) left right + out.data.denote =
        lin₂ (matched j.leftKey j.rightKey) (left + l.denote) (right + r.denote) := by
  unfold step at h
  split at h
  · cases h
  · next l r hin =>
    have hb : batches = [l, r] := by
      unfold inputs at hin
      split at hin
      · obtain ⟨_, _, hin⟩ := bind_ok.1 hin
        obtain ⟨_, _, hin⟩ := bind_ok.1 hin
        cases hin; rfl
      · cases hin
    split at h
    · cases h
    · next entries hp =>
      split at h
      · cases h
      · next j1 hint =>
        obtain ⟨hfin, rfl⟩ := Prod.mk.injEq .. ▸ h
        obtain ⟨hshape, hred, hholds⟩ := integrate_spec hj hint
        unfold finish at hfin
        obtain ⟨batch, hbatch, hfin⟩ := bind_ok.1 hfin
        obtain ⟨data, hdata, hfin⟩ := bind_ok.1 hfin
        obtain ⟨hbs, hbe⟩ := ZSetBatch.fromEntries_ok (opZSet_ok.1 hbatch)
        obtain ⟨hcs, _, hcd⟩ := ZSetBatch.consolidate_spec (opZSet_ok.1 hdata)
        obtain ⟨hd, hes, he⟩ := StepOutput.infallible_ok hfin
        refine ⟨l, r, hb, hshape, hred, hholds, ?_, hes, he, ?_⟩
        · rw [hd, hcs, hbs, hshape.outputSchema]
        · rw [lin₂_increment, hd, hcd, ZSetBatch.denote, hbe, probes_spec hj hp]
          rfl

end Join
end Mutiny.Schweep
