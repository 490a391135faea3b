import Mutiny.Lib.Hex
import Mutiny.Prism.Event

/- The two identities of deduplication (`prism-types`: `event.rs`; `prism-engine`:
   `idempotency.rs`).

   The content hash is taken over the fields of an event one after another, the
   index key joins tenant and key with a separator that neither is checked for.
   The fields tell the event (`Event.fields_inj`); put end to end they do not, and
   `dedup_identities_iff` says which pairs each identity takes for one. -/
namespace Mutiny.Prism
open Mutiny.Lib List

/-! The index key. -/

/-- The composite key, with the unit separator between its parts. -/
def ck (tenant key : String) : String := tenant ++ "\x1f" ++ key

/-- The first tenant goes on, in the second pair, over the separator into what the
    first pair has as its key. -/
def Straddles (tenant key tenant' key' : String) : Prop :=
  ∃ mid, tenant' = ck tenant mid ∧ key = ck mid key'

/-- Lists joined by one element are cut alike, or one goes on over the other's joint. -/
theorem append_cons_eq_iff {α : Type} {x : α} {a b c d : List α} :
    a ++ x :: b = c ++ x :: d ↔
      (a = c ∧ b = d) ∨ (∃ m, c = a ++ x :: m ∧ b = m ++ x :: d) ∨ ∃ m, a = c ++ x :: m ∧ d = m ++ x :: b := by
  rw [append_eq_append_iff]
  constructor
  · rintro (⟨_ | ⟨y, m⟩, hc, hb⟩ | ⟨_ | ⟨y, m⟩, ha, hd⟩)
    · exact .inl ⟨by rw [hc, append_nil], (List.cons.inj hb).2⟩
    · obtain ⟨rfl, hrest⟩ := List.cons.inj hb
      exact .inr (.inl ⟨m, hc, hrest⟩)
    · exact .inl ⟨by rw [ha, append_nil], (List.cons.inj hd).2.symm⟩
    · obtain ⟨rfl, hrest⟩ := List.cons.inj hd
      exact .inr (.inr ⟨m, ha, hrest⟩)
  · rintro (⟨rfl, rfl⟩ | ⟨m, rfl, rfl⟩ | ⟨m, rfl, rfl⟩)
    · exact .inl ⟨[], by simp, by simp⟩
    · exact .inl ⟨x :: m, rfl, rfl⟩
    · exact .inr ⟨x :: m, rfl, rfl⟩

theorem toList_ck (tenant key : String) : (ck tenant key).toList = tenant.toList ++ '\x1f' :: key.toList := by
  simp [ck]

theorem straddles_iff (tenant key tenant' key' : String) :
    Straddles tenant key tenant' key' ↔ ∃ m, tenant'.toList = tenant.toList ++ '\x1f' :: m ∧
      key.toList = m ++ '\x1f' :: key'.toList := by
  constructor
  · rintro ⟨mid, rfl, rfl⟩
    exact ⟨mid.toList, toList_ck tenant mid, toList_ck mid key'⟩
  · rintro ⟨m, htenant, hkey⟩
    refine ⟨String.ofList m, String.toList_inj.1 ?_, String.toList_inj.1 ?_⟩
    · rw [toList_ck, htenant, String.toList_ofList]
    · rw [toList_ck, hkey, String.toList_ofList]

theorem ck_eq_iff (tenant key tenant' key' : String) :
    ck tenant key = ck tenant' key' ↔
      (tenant = tenant' ∧ key = key') ∨ Straddles tenant key tenant' key' ∨ Straddles tenant' key' tenant key := by
  rw [straddles_iff, straddles_iff, ← String.toList_inj, toList_ck, toList_ck, append_cons_eq_iff,
    String.toList_inj, String.toList_inj]

/-! The content. -/

variable {H : Hashing}

def Attributes.fields (H : Hashing) (attrs : Attributes) : List Bytes :=
  attrs.flatMap (fun a => [utf8 a.1, [a.2.typeTag], utf8 (a.2.asDisplay H)])

namespace Event

/-- An event without what its content hash leaves out: its id, its arrival and its key. -/
def content (e : Event) : Event := { e with eventId := "", observedTime := 0, idempotencyKey := none }

/-- The fields the content hash is taken over, in their order. -/
def fields (H : Hashing) (e : Event) : List Bytes :=
  [utf8 e.tenantId, leBytes 8 (e.eventTime % 2 ^ 64).toNat, utf8 e.eventName, leBytes 8 e.cost.bits.toNat,
    [if e.error then 1 else 0], utf8 e.body, utf8 e.traceId, utf8 e.spanId] ++ e.attributes.fields H

theorem flatten_fields (H : Hashing) (e : Event) : (e.fields H).flatten = e.contentBytes H := by
  simp [fields, Attributes.fields, contentBytes, flatMap, flatten_flatten, Function.comp_def]

/-- An event as admission lets it through: it passes its check, its time is an `i64`. -/
def Admitted (H : Hashing) (e : Event) : Prop := e.validate H = .ok () ∧ InI64 e.eventTime

end Event

/-- A value that its check lets through. -/
def AttrValue.Shown (v : AttrValue) : Prop := ∀ d, v = .double d → isFinite d = true

theorem AttrValue.asDisplay_inj (hdisplay : Set.InjOn H.display {d | isFinite d = true}) {v v' : AttrValue}
    (hv : v.Shown) (hv' : v'.Shown) (htag : v.typeTag = v'.typeTag) (h : v.asDisplay H = v'.asDisplay H) : v = v' := by
  match v, v', htag with
  | .str s, .str s', _ => exact congrArg _ h
  | .int i, .int i', _ =>
    simp only [asDisplay, Int.toString_eq_repr, Int.repr_inj] at h
    rw [h]
  | .double d, .double d', _ => rw [hdisplay (hv d rfl) (hv' d' rfl) h]
  | .bool b, .bool b', _ =>
    have hbool : ∀ b b' : Bool, toString b = toString b' → b = b' := by decide
    rw [hbool b b' h]

theorem Attributes.finite_of_checkEntry {k : String} {d : F64} (h : checkEntry H k (.double d) = .ok ()) :
    isFinite d = true := by
  unfold checkEntry at h
  dsimp only at h
  split_ifs at h with hempty hlong hwide hfinite
  exact hfinite

theorem Attributes.shown_of_validate {attrs : Attributes} (h : attrs.validate H = .ok ()) : ∀ a ∈ attrs, a.2.Shown := by
  have hentries : attrs.forM (fun a => checkEntry H a.1 a.2) = .ok () := by
    unfold validate at h
    by_cases hkeys : maxAttributeKeys < attrs.length
    · simp [hkeys] at h
    · simp only [hkeys, if_false] at h
      obtain ⟨⟨⟩, hentries, -⟩ := bind_ok.1 h
      exact hentries
  clear h
  induction attrs with
  | nil => exact forall_mem_nil _
  | cons a attrs ih =>
    obtain ⟨⟨⟩, ha, hrest⟩ := bind_ok.1 hentries
    refine forall_mem_cons.2 ⟨?_, ih hrest⟩
    intro d hd
    exact finite_of_checkEntry (show checkEntry H a.1 (.double d) = .ok () from hd ▸ ha)

theorem Attributes.fields_inj (hdisplay : Set.InjOn H.display {d | isFinite d = true}) {l l' : Attributes}
    (hl : ∀ a ∈ l, a.2.Shown) (hl' : ∀ a ∈ l', a.2.Shown) (h : l.fields H = l'.fields H) : l = l' := by
  induction l generalizing l' with
  | nil =>
    cases l' with
    | nil => rfl
    | cons a l' => cases h
  | cons a l ih =>
    cases l' with
    | nil => cases h
    | cons a' l' =>
      rw [forall_mem_cons] at hl hl'
      simp only [fields, flatMap_cons, cons_append, nil_append, List.cons.injEq, and_true] at h
      obtain ⟨hname, htag, hshow, hrest⟩ := h
      rw [ih hl.2 hl'.2 hrest]
      refine congrArg (· :: l') (Prod.ext (utf8_inj hname) ?_)
      exact AttrValue.asDisplay_inj hdisplay hl.1 hl'.1 htag (utf8_inj hshow)

/-- Further attributes are further bytes, as each has a tag. -/
theorem Attributes.fields_append {l l' : Attributes} {rest : List Bytes} (h : l'.fields H = l.fields H ++ rest)
    (hrest : rest.flatten = []) : rest = [] := by
  induction l generalizing l' with
  | nil =>
    cases l' with
    | nil => exact h.symm
    | cons a l' =>
      subst h
      simp [fields] at hrest
  | cons a l ih =>
    cases l' with
    | nil => cases h
    | cons a' l' =>
      simp only [fields, flatMap_cons, cons_append, nil_append, List.cons.injEq] at h
      exact ih h.2.2.2

theorem of_guard {ε α : Type} {c : Prop} [Decidable c] {e : ε} {k : PUnit → Except ε α} {a : α}
    (h : (if c then throw e >>= k else k ⟨⟩) = .ok a) : k ⟨⟩ = .ok a := by
  by_cases hc : c
  · rw [if_pos hc] at h
    cases h
  · rwa [if_neg hc] at h

namespace Event

variable {H : Hashing} {e : Event}

theorem shown_of_validate (h : e.validate H = .ok ()) : ∀ a ∈ e.attributes, a.2.Shown := by
  unfold validate at h
  have h := of_guard (of_guard h)
  obtain ⟨⟨⟩, -, h⟩ := bind_ok.1 h
  obtain ⟨⟨⟩, -, h⟩ := bind_ok.1 h
  obtain ⟨⟨⟩, -, h⟩ := bind_ok.1 h
  obtain ⟨⟨⟩, -, h⟩ := bind_ok.1 h
  obtain ⟨⟨⟩, -, h⟩ := bind_ok.1 h
  have hattrs : e.attributes.validate H = .ok () := by
    cases hkey : e.idempotencyKey with
    | none =>
      rw [hkey] at h
      exact of_guard (of_guard (of_guard (of_guard h)))
    | some key =>
      rw [hkey] at h
      obtain ⟨⟨⟩, -, h⟩ := bind_ok.1 h
      exact of_guard (of_guard (of_guard (of_guard h)))
  exact Attributes.shown_of_validate hattrs

/-- The fields tell the content. -/
theorem fields_inj (hdisplay : Set.InjOn H.display {d | isFinite d = true}) {e' : Event} (he : e.Admitted H)
    (he' : e'.Admitted H) (h : e.fields H = e'.fields H) : e.content = e'.content := by
  simp only [fields, cons_append, nil_append, List.cons.injEq, and_true] at h
  obtain ⟨hI, hD, hN, hC, hE, hB, hT, hS, hA⟩ := h
  rw [content, content, Event.mk.injEq]
  refine ⟨rfl, utf8_inj hI, ?_, rfl, utf8_inj hN, ?_, ?_, utf8_inj hB, utf8_inj hT,
    utf8_inj hS, Attributes.fields_inj hdisplay (shown_of_validate he.1) (shown_of_validate he'.1) hA, rfl⟩
  · have := leBytes_inj (by omega) (by omega) hD
    have ht := he.2
    have ht' := he'.2
    unfold InI64 at ht ht'
    omega
  · have hbits := leBytes_inj e.cost.bits.isLt e'.cost.bits.isLt hC
    exact congrArg Schweep.F64.mk (BitVec.eq_of_toNat_eq hbits)
  · revert hE
    cases e.error <;> cases e'.error <;> simp

theorem fields_append {e' : Event} {rest : List Bytes} (h : e'.fields H = e.fields H ++ rest)
    (hrest : rest.flatten = []) : rest = [] := by
  simp only [fields, cons_append, nil_append, List.cons.injEq] at h
  obtain ⟨-, -, -, -, -, -, -, -, h⟩ := h
  exact Attributes.fields_append h hrest

end Event

/-! Results. -/

theorem not_straddles_self (tenant key key' : String) : ¬ Straddles tenant key tenant key' := by
  intro h
  obtain ⟨m, htenant, -⟩ := (straddles_iff _ _ _ _).1 h
  have hlen := congrArg List.length htenant
  simp at hlen

/-- The content hash tells two admitted events apart, and takes one content for
    one, exactly when no field of one goes on, in the other, into the fields after it;
    the index key does for two pairs exactly when neither tenant goes on over the
    separator into the other's key. -/
theorem dedup_identities_iff {H : Hashing} (hhash : Function.Injective H.contentId)
    (hdisplay : Set.InjOn H.display {d | isFinite d = true}) :
    (∀ e e' : Event, e.Admitted H → e'.Admitted H →
      ((e.contentHash H = e'.contentHash H ↔ e.content = e'.content) ↔
        ¬ Shifted (e.fields H) (e'.fields H) ∧ ¬ Shifted (e'.fields H) (e.fields H))) ∧
    ∀ tenant key tenant' key' : String,
      (ck tenant key = ck tenant' key' ↔ tenant = tenant' ∧ key = key') ↔
        ¬ Straddles tenant key tenant' key' ∧ ¬ Straddles tenant' key' tenant key := by
  constructor
  · intro e e' he he'
    have hbytes : e.contentHash H = e'.contentHash H ↔ (e.fields H).flatten = (e'.fields H).flatten := by
      rw [Event.flatten_fields, Event.flatten_fields]
      exact hhash.eq_iff
    have hcontent : e.content = e'.content ↔ e.fields H = e'.fields H :=
      ⟨fun h => show e.content.fields H = e'.content.fields H from congrArg _ h, Event.fields_inj hdisplay he he'⟩
    rw [hbytes, hcontent]
    exact flatten_inj_iff (fun _ => Event.fields_append) (fun _ => Event.fields_append)
  · intro tenant key tenant' key'
    rw [ck_eq_iff]
    constructor
    · intro hiff
      refine ⟨fun h => ?_, fun h => ?_⟩
      · obtain ⟨rfl, -⟩ := hiff.1 (.inr (.inl h))
        exact not_straddles_self _ _ _ h
      · obtain ⟨rfl, -⟩ := hiff.1 (.inr (.inr h))
        exact not_straddles_self _ _ _ h
    · rintro ⟨hleft, hright⟩
      simp [hleft, hright]

/-- Digests that tell all bytes and all doubles apart. -/
def plainHashing : Hashing := ⟨hex, fun _ => 0, fun d => toString d.bits.toNat⟩

/-- An event of one tenant, with a body and a trace. -/
def tracedEvent (body traceId : String) : Event :=
  ⟨"e", "a", 5, 9, "call", ⟨0⟩, false, body, traceId, "", [], none⟩

theorem dedup_identities_traced :
    (tracedEvent "ok" "1").contentHash plainHashing = (tracedEvent "no" "1").contentHash plainHashing ↔
      (tracedEvent "ok" "1").content = (tracedEvent "no" "1").content := by
  have hhash : Function.Injective plainHashing.contentId := fun as bs h => hexChars_inj (String.ofList_injective h)
  have hdisplay : Set.InjOn plainHashing.display {d | isFinite d = true} := by
    intro d _ d' _ h
    exact congrArg Schweep.F64.mk (BitVec.eq_of_toNat_eq (Nat.repr_inj.1 h))
  refine ((dedup_identities_iff hhash hdisplay).1 _ _ ⟨rfl, by decide⟩ ⟨rfl, by decide⟩).2 ⟨?_, ?_⟩
  all_goals exact not_shifted_of_lengths rfl

/-- The end of a body read as the start of a trace, and a tenant that goes on over the
    separator. -/
theorem dedup_identities_collide :
    ((tracedEvent "ok1" "2").Admitted plainHashing ∧ (tracedEvent "ok" "12").Admitted plainHashing ∧
      (tracedEvent "ok1" "2").contentHash plainHashing = (tracedEvent "ok" "12").contentHash plainHashing ∧
      (tracedEvent "ok1" "2").content ≠ (tracedEvent "ok" "12").content) ∧
    ck "a\x1fb" "c" = ck "a" "b\x1fc" :=
  ⟨⟨⟨rfl, by decide⟩, ⟨rfl, by decide⟩, by decide +kernel, by decide⟩, by decide +kernel⟩

end Mutiny.Prism
