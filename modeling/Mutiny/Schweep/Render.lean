import Mutiny.Lib.Text
import Mutiny.Schweep.Batch

/- The text of an answer (`schweep-zset`: `Canonical::render` and the `Display`
   of values, rows and schemas; `schweep-server`: `Engine::render_answer`).

   An answer is printed as a line for its schema and a line for each row with its
   weight. Values are printed so that a row can be read back: a string is quoted
   and escaped, and everything else is free of the characters that separate
   values (`valueText_cancel`). Distinct rows are therefore distinct lines
   (`rowLine_inj`), and as no row line ends as a schema does, the lines of an
   answer are distinct (`renderLines_nodup`). Column names are printed as they
   are; where one holds a line feed the schema is more than one line.

   Correspondence (Rust ↔ Lean) where names differ:
     `<Value as Display>::fmt`   ↔ `valueText`
     `<Row as Display>::fmt`     ↔ `rowText`
     `<Schema as Display>::fmt`  ↔ `schemaText`
   The text of a float and the table of characters that are not printed as
   themselves are the standard library's; `Printer` holds them. -/
namespace Mutiny.Schweep
open Mutiny.Lib

/-- The standard library's part of the printing: which characters of a string are
    printed as code points, and the text of a float. A float's text is not that
    of any other value, and the quotients of two integers have texts of their own. -/
structure Printer where
  escapes : Char → Bool
  float : F64 → Text
  float_chars : ∀ f, ∀ c ∈ float f, c ≠ ',' ∧ c ≠ ')' ∧ c ≠ '"' ∧ c ≠ '\n'
  float_ne_nil : ∀ f, float f ≠ []
  float_ne_word : ∀ f, float f ≠ "NULL".toList ∧ float f ≠ "true".toList ∧ float f ≠ "false".toList
  float_ne_decimal : ∀ f i, float f ≠ Text.decimal i
  float_inj : ∀ s c s' c', float (F64.ofRatio s c) = float (F64.ofRatio s' c') → F64.ofRatio s c = F64.ofRatio s' c'

section Printing

variable (p : Printer)

def valueText : Value → Text
  | .null => "NULL".toList
  | .int i => Text.decimal i.val
  | .str s => Text.quoted p.escapes s.toList
  | .bool true => "true".toList
  | .bool false => "false".toList
  | .float f => p.float f

def commaSep : List Text → Text
  | [] => []
  | [t] => t
  | t :: rest => t ++ ',' :: ' ' :: commaSep rest

def rowText (row : Row) : Text := '(' :: (commaSep (row.map (valueText p)) ++ [')'])

def DataType.text : DataType → Text
  | .int64 => "Int64".toList
  | .utf8 => "Utf8".toList
  | .boolean => "Boolean".toList
  | .float64 => "Float64".toList

def fieldText (f : Field) : Text :=
  f.name.toList ++ ':' :: ' ' :: f.dataType.text ++ (if f.nullable then [] else " NOT NULL".toList)

def schemaText (schema : Schema) : Text := '(' :: (commaSep (schema.fields.map fieldText) ++ [')'])

def rowLine (e : Row × I64) : Text := rowText p e.1 ++ " => ".toList ++ Text.decimal e.2.val

def Canonical.render (c : Canonical) : Text :=
  schemaText c.schema ++ '\n' :: c.entries.flatMap (fun e => rowLine p e ++ ['\n'])

/-- The answer of a read, or the error in its place. -/
def renderAnswer : Except Text Canonical → Text
  | .ok answer => answer.render p
  | .error error => "ERROR: ".toList ++ error ++ ['\n']

/-! Reading values back. -/

/-- What may follow a value in a row. -/
def Separates (c : Char) : Prop := c = ',' ∨ c = ')'

theorem digit_not_special {c : Char} (h : c = '-' ∨ c.isDigit = true) :
    c ≠ ',' ∧ c ≠ ')' ∧ c ≠ '"' ∧ c ≠ '\n' ∧ c ≠ '\r' := by
  rcases h with rfl | h
  · decide
  · refine ⟨?_, ?_, ?_, ?_, ?_⟩ <;>
      · rintro rfl
        cases h

theorem plain_of_all {t : Text} (h : t.all (fun c => c ≠ ',' ∧ c ≠ ')' ∧ c ≠ '"' ∧ c ≠ '\n') = true) :
    ∀ c ∈ t, c ≠ ',' ∧ c ≠ ')' ∧ c ≠ '"' ∧ c ≠ '\n' := by
  intro c hc
  exact of_decide_eq_true (List.all_eq_true.1 h c hc)

/-- A value that is not a string has no separator, quote or line feed in its text. -/
theorem valueText_plain {v : Value} (h : ∀ s, v ≠ .str s) :
    ∀ c ∈ valueText p v, c ≠ ',' ∧ c ≠ ')' ∧ c ≠ '"' ∧ c ≠ '\n' := by
  cases v with
  | null => exact plain_of_all (t := "NULL".toList) (by decide)
  | int i =>
    intro c hc
    obtain ⟨h1, h2, h3, h4, _⟩ := digit_not_special (Text.decimal_mem hc)
    exact ⟨h1, h2, h3, h4⟩
  | str s => exact absurd rfl (h s)
  | bool b =>
    cases b with
    | true => exact plain_of_all (t := "true".toList) (by decide)
    | false => exact plain_of_all (t := "false".toList) (by decide)
  | float f => exact p.float_chars f

theorem valueText_ne_nil (v : Value) : valueText p v ≠ [] := by
  cases v with
  | null => exact List.cons_ne_nil _ _
  | int i => exact Text.decimal_ne_nil i.val
  | str s => exact List.cons_ne_nil _ _
  | bool b => cases b <;> exact List.cons_ne_nil _ _
  | float f => exact p.float_ne_nil f

theorem words_ne : "NULL".toList ≠ "true".toList ∧ "NULL".toList ≠ "false".toList ∧
    "true".toList ≠ "false".toList := by decide

theorem word_ne_decimal (i : Int) : "NULL".toList ≠ Text.decimal i ∧ "true".toList ≠ Text.decimal i ∧
    "false".toList ≠ Text.decimal i := by
  have hhead : ∀ {c : Char} {rest : Text}, c ≠ '-' → c.isDigit = false → c :: rest ≠ Text.decimal i := by
    intro c rest hne hnd h
    rcases Text.decimal_mem (h ▸ List.mem_cons_self : c ∈ Text.decimal i) with h | h
    · exact hne h
    · rw [hnd] at h
      cases h
  exact ⟨hhead (by decide) (by decide), hhead (by decide) (by decide), hhead (by decide) (by decide)⟩

/-- Floats are averages: the only source of one is the quotient of two integers. -/
def Value.Averages (v : Value) : Prop := ∀ f, v = .float f → ∃ s c, f = F64.ofRatio s c

variable {p}

theorem valueText_inj_plain {v w : Value} (hv : ∀ s, v ≠ .str s) (hw : ∀ s, w ≠ .str s) (av : v.Averages)
    (aw : w.Averages) (h : valueText p v = valueText p w) : v = w := by
  cases v with
  | str s => exact absurd rfl (hv s)
  | null =>
    cases w with
    | null => rfl
    | int i => exact absurd h (word_ne_decimal i.val).1
    | str s => exact absurd rfl (hw s)
    | bool b =>
      cases b with
      | true => exact absurd h words_ne.1
      | false => exact absurd h words_ne.2.1
    | float f => exact absurd h.symm (p.float_ne_word f).1
  | int i =>
    cases w with
    | null => exact absurd h.symm (word_ne_decimal i.val).1
    | int j => exact congrArg Value.int (Subtype.ext (Text.decimal_inj h))
    | str s => exact absurd rfl (hw s)
    | bool b =>
      cases b with
      | true => exact absurd h.symm (word_ne_decimal i.val).2.1
      | false => exact absurd h.symm (word_ne_decimal i.val).2.2
    | float f => exact absurd h.symm (p.float_ne_decimal f i.val)
  | bool b =>
    cases w with
    | null =>
      cases b with
      | true => exact absurd h.symm words_ne.1
      | false => exact absurd h.symm words_ne.2.1
    | int i =>
      cases b with
      | true => exact absurd h (word_ne_decimal i.val).2.1
      | false => exact absurd h (word_ne_decimal i.val).2.2
    | str s => exact absurd rfl (hw s)
    | bool b' =>
      cases b <;> cases b'
      · rfl
      · exact absurd h.symm words_ne.2.2
      · exact absurd h words_ne.2.2
      · rfl
    | float f =>
      cases b with
      | true => exact absurd h.symm (p.float_ne_word f).2.1
      | false => exact absurd h.symm (p.float_ne_word f).2.2
  | float f =>
    cases w with
    | null => exact absurd h (p.float_ne_word f).1
    | int i => exact absurd h (p.float_ne_decimal f i.val)
    | str s => exact absurd rfl (hw s)
    | bool b =>
      cases b with
      | true => exact absurd h (p.float_ne_word f).2.1
      | false => exact absurd h (p.float_ne_word f).2.2
    | float g =>
      obtain ⟨s, c, rfl⟩ := av f rfl
      obtain ⟨s', c', rfl⟩ := aw g rfl
      exact congrArg Value.float (p.float_inj s c s' c' h)

theorem plain_ne_quoted {v : Value} (hv : ∀ s, v ≠ .str s) {s x y : Text} :
    valueText p v ++ x ≠ Text.quoted p.escapes s ++ y := by
  intro h
  cases ht : valueText p v with
  | nil => exact valueText_ne_nil p v ht
  | cons c rest =>
    rw [ht] at h
    have hc : c = '"' := (List.cons.inj h).1
    exact (valueText_plain p hv c (ht ▸ List.mem_cons_self)).2.2.1 hc

theorem valueText_cancel {v w : Value} (av : v.Averages) (aw : w.Averages) {c d : Char} {x y : Text}
    (hc : Separates c) (hd : Separates d) (h : valueText p v ++ c :: x = valueText p w ++ d :: y) :
    v = w ∧ c = d ∧ x = y := by
  have hstop : ∀ {u : Value}, (∀ s, u ≠ .str s) → ∀ a ∈ valueText p u, ¬ Separates a := by
    intro u hu a ha hs
    obtain ⟨h1, h2, _⟩ := valueText_plain p hu a ha
    rcases hs with hs | hs
    · exact h1 hs
    · exact h2 hs
  by_cases hv : ∃ s, v = .str s <;> by_cases hw : ∃ s, w = .str s
  · obtain ⟨s, rfl⟩ := hv
    obtain ⟨t, rfl⟩ := hw
    obtain ⟨hst, hrest⟩ := Text.quoted_cancel h
    obtain ⟨rfl, rfl⟩ := List.cons.inj hrest
    exact ⟨congrArg Value.str (String.toList_inj.1 hst), rfl, rfl⟩
  · obtain ⟨s, rfl⟩ := hv
    exact absurd h.symm (plain_ne_quoted (fun t ht => hw ⟨t, ht⟩))
  · obtain ⟨t, rfl⟩ := hw
    exact absurd h (plain_ne_quoted (fun s hs => hv ⟨s, hs⟩))
  · have hv' : ∀ s, v ≠ .str s := fun s hs => hv ⟨s, hs⟩
    have hw' : ∀ s, w ≠ .str s := fun s hs => hw ⟨s, hs⟩
    obtain ⟨htext, hcd, hxy⟩ := Text.split_at_stop Separates (hstop hv') (hstop hw') hc hd h
    exact ⟨valueText_inj_plain hv' hw' av aw htext, hcd, hxy⟩

theorem commaSep_cons (t : Text) {rest : List Text} (h : rest ≠ []) :
    commaSep (t :: rest) = t ++ ',' :: ' ' :: commaSep rest := by
  cases rest with
  | nil => exact absurd rfl h
  | cons u rest => rfl

theorem commaSep_cancel {r s : Row} (ar : ∀ v ∈ r, v.Averages) (as : ∀ v ∈ s, v.Averages) {x y : Text}
    (h : commaSep (r.map (valueText p)) ++ ')' :: x = commaSep (s.map (valueText p)) ++ ')' :: y) :
    r = s ∧ x = y := by
  -- a text of values does not begin with the closing bracket
  have hopen : ∀ (v : Value) (rest : Row) (z : Text),
      commaSep ((v :: rest).map (valueText p)) ++ ')' :: x ≠ ')' :: z ∧
      commaSep ((v :: rest).map (valueText p)) ++ ')' :: y ≠ ')' :: z := by
    intro v rest z
    obtain ⟨a, t, ht, ha⟩ : ∃ a t, valueText p v = a :: t ∧ a ≠ ')' := by
      cases ht : valueText p v with
      | nil => exact absurd ht (valueText_ne_nil p v)
      | cons a t =>
        refine ⟨a, t, rfl, ?_⟩
        by_cases hv : ∃ s, v = .str s
        · obtain ⟨s, rfl⟩ := hv
          have hq : a = '"' := (List.cons.inj ht).1.symm
          rw [hq]
          decide
        · exact (valueText_plain p (fun s hs => hv ⟨s, hs⟩) a (ht ▸ List.mem_cons_self)).2.1
    cases rest with
    | nil | cons w rest => simp [commaSep, ht, ha]
  induction r generalizing s with
  | nil =>
    cases s with
    | nil => exact ⟨rfl, (List.cons.inj h).2⟩
    | cons w s => exact absurd h.symm (hopen w s x).2
  | cons v r ih =>
    cases s with
    | nil => exact absurd h (hopen v r y).1
    | cons w s =>
      have av := ar v List.mem_cons_self
      have aw := as w List.mem_cons_self
      -- one more value on a side, or its end
      have htail : ∀ (u : Value) (rest : Row) (z : Text), ∃ c t, Separates c ∧
          commaSep ((u :: rest).map (valueText p)) ++ ')' :: z = valueText p u ++ c :: t ∧
          (rest = [] ∧ c = ')' ∧ t = z ∨
            rest ≠ [] ∧ c = ',' ∧ t = ' ' :: (commaSep (rest.map (valueText p)) ++ ')' :: z)) := by
        intro u rest z
        cases rest with
        | nil => exact ⟨')', z, Or.inr rfl, rfl, Or.inl ⟨rfl, rfl, rfl⟩⟩
        | cons u' rest =>
          refine ⟨',', _, Or.inl rfl, ?_, Or.inr ⟨List.cons_ne_nil _ _, rfl, rfl⟩⟩
          simp [commaSep]
      obtain ⟨c, t, hc, hct, hr⟩ := htail v r x
      obtain ⟨d, u, hd, hdu, hs⟩ := htail w s y
      rw [hct, hdu] at h
      obtain ⟨rfl, rfl, rfl⟩ := valueText_cancel av aw hc hd h
      rcases hr with ⟨rfl, hcomma, ht⟩ | ⟨_, hcomma, ht⟩ <;> rcases hs with ⟨rfl, hcomma', hu⟩ | ⟨_, hcomma', hu⟩
      · exact ⟨rfl, ht.symm.trans hu⟩
      · rw [hcomma] at hcomma'
        exact absurd hcomma' (by decide)
      · rw [hcomma] at hcomma'
        exact absurd hcomma' (by decide)
      · rw [ht] at hu
        obtain ⟨rfl, rfl⟩ := ih (fun v hv => ar v (List.mem_cons_of_mem _ hv))
          (fun v hv => as v (List.mem_cons_of_mem _ hv)) (List.cons.inj hu).2
        exact ⟨rfl, rfl⟩

theorem rowText_cancel {r s : Row} (ar : ∀ v ∈ r, v.Averages) (as : ∀ v ∈ s, v.Averages) {x y : Text}
    (h : rowText p r ++ x = rowText p s ++ y) : r = s ∧ x = y := by
  refine commaSep_cancel (p := p) ar as ?_
  unfold rowText at h
  simpa only [List.cons_append, List.append_assoc, List.nil_append, List.cons.injEq, true_and] using h

theorem rowLine_inj {e e' : Row × I64} (ae : ∀ v ∈ e.1, v.Averages) (ae' : ∀ v ∈ e'.1, v.Averages)
    (h : rowLine p e = rowLine p e') : e.1 = e'.1 := by
  unfold rowLine at h
  rw [List.append_assoc, List.append_assoc] at h
  exact (rowText_cancel ae ae' h).1

/-! Lines. -/

variable (p)

theorem commaSep_mem {c : Char} {ts : List Text} (h : c ∈ commaSep ts) : c = ',' ∨ c = ' ' ∨ ∃ t ∈ ts, c ∈ t := by
  induction ts with
  | nil => cases h
  | cons t rest ih =>
    cases rest with
    | nil => exact Or.inr (Or.inr ⟨t, List.mem_cons_self, h⟩)
    | cons u rest =>
      rw [commaSep_cons t (List.cons_ne_nil _ _), List.mem_append, List.mem_cons, List.mem_cons] at h
      rcases h with h | h | h | h
      · exact Or.inr (Or.inr ⟨t, List.mem_cons_self, h⟩)
      · exact Or.inl h
      · exact Or.inr (Or.inl h)
      · rcases ih h with h | h | ⟨t', ht', h⟩
        · exact Or.inl h
        · exact Or.inr (Or.inl h)
        · exact Or.inr (Or.inr ⟨t', List.mem_cons_of_mem _ ht', h⟩)

theorem valueText_no_feed (v : Value) : '\n' ∉ valueText p v := by
  intro h
  by_cases hv : ∃ s, v = .str s
  · obtain ⟨s, rfl⟩ := hv
    exact Text.quoted_no_feed p.escapes s.toList h
  · exact (valueText_plain p (fun s hs => hv ⟨s, hs⟩) '\n' h).2.2.2 rfl

theorem bracketed_no_feed {ts : List Text} (h : ∀ t ∈ ts, '\n' ∉ t) : '\n' ∉ '(' :: (commaSep ts ++ [')']) := by
  intro hn
  rw [List.mem_cons, List.mem_append, List.mem_singleton] at hn
  rcases hn with hn | hn | hn
  · exact absurd hn (by decide)
  · rcases commaSep_mem hn with hn | hn | ⟨t, ht, hn⟩
    · exact absurd hn (by decide)
    · exact absurd hn (by decide)
    · exact h t ht hn
  · exact absurd hn (by decide)

theorem rowLine_isLine (e : Row × I64) : Text.IsLine (rowLine p e) := by
  have hrow : '\n' ∉ rowText p e.1 := by
    refine bracketed_no_feed (fun t ht => ?_)
    obtain ⟨v, _, rfl⟩ := List.mem_map.1 ht
    exact valueText_no_feed p v
  constructor
  · intro h
    unfold rowLine at h
    rw [List.mem_append, List.mem_append] at h
    rcases h with (h | h) | h
    · exact hrow h
    · exact absurd h (by decide)
    · exact (digit_not_special (Text.decimal_mem h)).2.2.2.1 rfl
  · obtain ⟨c, hlast, hdigit⟩ := Text.decimal_last e.2.val
    unfold rowLine
    rw [List.getLast?_append, hlast]
    have := (digit_not_special (Or.inr hdigit)).2.2.2.2
    simpa using this

def Schema.OneLine (schema : Schema) : Prop := ∀ f ∈ schema.fields, '\n' ∉ f.name.toList

theorem schemaText_isLine {schema : Schema} (h : schema.OneLine) : Text.IsLine (schemaText schema) := by
  constructor
  · refine bracketed_no_feed (fun t ht => ?_)
    obtain ⟨f, hf, rfl⟩ := List.mem_map.1 ht
    intro hn
    unfold fieldText at hn
    rw [List.append_assoc, List.mem_append, List.cons_append, List.cons_append, List.mem_cons, List.mem_cons,
      List.mem_append] at hn
    rcases hn with hn | hn | hn | hn | hn
    · exact h f hf hn
    · exact absurd hn (by decide)
    · exact absurd hn (by decide)
    · revert hn
      cases f.dataType <;> decide
    · revert hn
      cases f.nullable <;> decide
  · have hlast : (schemaText schema).getLast? = some ')' := by
      unfold schemaText
      rw [← List.cons_append, List.getLast?_append]
      rfl
    rw [hlast]
    decide

/-- The lines of an answer: its schema, then its rows. -/
def Canonical.renderLines (c : Canonical) : List Text := schemaText c.schema :: c.entries.map (rowLine p)

theorem Canonical.render_eq (c : Canonical) : c.render p = Text.unlines (c.renderLines p) := by
  unfold Canonical.render Canonical.renderLines Text.unlines
  rw [List.flatMap_cons, List.append_assoc, List.flatMap_map]
  rfl

/-- The rows of an answer in canonical form, with averages for floats. -/
structure Canonical.Legible (c : Canonical) : Prop where
  canonical : IsCanonical c.entries
  averages : ∀ e ∈ c.entries, ∀ v ∈ e.1, v.Averages

theorem Canonical.renderLines_isLine {c : Canonical} (h : c.schema.OneLine) : ∀ l ∈ c.renderLines p, Text.IsLine l := by
  intro l hl
  rcases List.mem_cons.1 hl with rfl | hl
  · exact schemaText_isLine h
  · obtain ⟨e, _, rfl⟩ := List.mem_map.1 hl
    exact rowLine_isLine p e

/-- The lines of an answer are distinct: rows by their values, and the schema
    because it ends in a bracket and a row ends in its weight. -/
theorem Canonical.renderLines_nodup {c : Canonical} (h : c.Legible) : (c.renderLines p).Nodup := by
  refine List.nodup_cons.2 ⟨fun hin => ?_, ?_⟩
  · obtain ⟨e, _, heq⟩ := List.mem_map.1 hin
    obtain ⟨d, hlast, hdigit⟩ := Text.decimal_last e.2.val
    have hrow : (rowLine p e).getLast? = some d := by
      unfold rowLine
      rw [List.getLast?_append, hlast]
      rfl
    have hschema : (schemaText c.schema).getLast? = some ')' := by
      unfold schemaText
      rw [← List.cons_append, List.getLast?_append]
      rfl
    rw [heq, hschema] at hrow
    cases hrow
    cases hdigit
  · refine List.Nodup.map_on (fun e he e' he' heq => ?_) h.canonical.nodup.of_map
    have hrow := rowLine_inj (h.averages e he) (h.averages e' he') heq
    exact List.inj_on_of_nodup_map h.canonical.nodup he he' hrow

theorem lines_render {c : Canonical} (h : c.schema.OneLine) : Text.lines (c.render p) = c.renderLines p := by
  rw [c.render_eq, Text.lines_unlines (Canonical.renderLines_isLine p h)]

end Printing
end Mutiny.Schweep
