import Mathlib.Data.List.Basic
import Mathlib.Data.Nat.Notation
import Mathlib.Tactic.Common

/-!
# Reading comma-separated values

A reader of the usual dialect: fields separated by commas, records by line ends, a field
in double quotes may hold both, and a doubled quote stands for one. It takes the lines of
the file one after the other; a record ends with the line in which it is complete. `none`
is the error of a line end inside an unquoted field.

Fields without commas, quotes and line ends are written as they are and read back.
-/

namespace Text

inductive CsvState where
  | startRecord
  | startField
  | inField
  | inQuoted
  | quoteInQuoted
  | eatLineEnd
  deriving DecidableEq

/-- The reader inside a record: its state, the field so far in reverse and the complete
fields in reverse. -/
structure CsvReader where
  state : CsvState
  field : List Char
  fields : List (List Char)

namespace CsvReader

def start : CsvReader := ⟨.startRecord, [], []⟩

def add (r : CsvReader) (c : Char) (state : CsvState) : CsvReader :=
  { r with state := state, field := c :: r.field }

def save (r : CsvReader) (state : CsvState) : CsvReader :=
  ⟨state, [], r.field.reverse :: r.fields⟩

/-- A line end: of the line itself, or a character of it. -/
def lineEnd : Option Char → Option CsvState
  | none => some .startRecord
  | some c => if c = '\n' ∨ c = '\r' then some .eatLineEnd else none

/-- The first character of a field. -/
def field? (r : CsvReader) (c : Option Char) : CsvReader :=
  match lineEnd c, c with
  | some state, _ => r.save state
  | none, some c =>
      if c = '"' then { r with state := .inQuoted }
      else if c = ',' then r.save .startField
      else r.add c .inField
  | none, none => r

/-- One character of a line, or `none` at its end. -/
def step (r : CsvReader) (c : Option Char) : Option CsvReader :=
  match r.state with
  | .startRecord =>
      match c with
      | none => some r
      | some c =>
          if c = '\n' ∨ c = '\r' then some { r with state := .eatLineEnd }
          else some (r.field? (some c))
  | .startField => some (r.field? c)
  | .inField =>
      match lineEnd c, c with
      | some state, _ => some (r.save state)
      | none, some c =>
          if c = ',' then some (r.save .startField) else some (r.add c .inField)
      | none, none => some r
  | .inQuoted =>
      match c with
      | none => some r
      | some c =>
          if c = '"' then some { r with state := .quoteInQuoted } else some (r.add c .inQuoted)
  | .quoteInQuoted =>
      match lineEnd c, c with
      | some state, _ => some (r.save state)
      | none, some c =>
          if c = '"' then some (r.add c .inQuoted)
          else if c = ',' then some (r.save .startField)
          else some (r.add c .inField)
      | none, none => some r
  | .eatLineEnd =>
      match c with
      | none => some { r with state := .startRecord }
      | some c => if c = '\n' ∨ c = '\r' then some r else none

/-- A whole line, to its end. -/
def line (r : CsvReader) (cs : List Char) : Option CsvReader :=
  (cs.foldlM (fun (r : CsvReader) c => r.step (some c)) r).bind fun r => r.step none

end CsvReader

/-- The records of the lines; a file may end inside a quoted field. -/
def csvRows (r : CsvReader) : List (List Char) → Option (List (List (List Char)))
  | [] => if r.state = .inQuoted then some [(r.save .startRecord).fields.reverse] else some []
  | cs :: lines => do
      let r ← r.line cs
      if r.state = .startRecord then
        return r.fields.reverse :: (← csvRows .start lines)
      else csvRows r lines

/-- The lines of a file, each with its line end. -/
def fileLines : List Char → List (List Char)
  | [] => []
  | '\n' :: text => ['\n'] :: fileLines text
  | c :: text =>
      match fileLines text with
      | [] => [[c]]
      | cs :: lines => (c :: cs) :: lines

/-- The line ends of a file read as text. -/
def universalNewlines : List Char → List Char
  | [] => []
  | '\r' :: '\n' :: text => '\n' :: universalNewlines text
  | '\r' :: text => '\n' :: universalNewlines text
  | c :: text => c :: universalNewlines text

/-- `csv.reader` of a file. -/
def readCsv (text : List Char) : Option (List (List (List Char))) :=
  csvRows .start (fileLines (universalNewlines text))

/-! Plain fields. -/

/-- The character needs no quotes. -/
def PlainChar (c : Char) : Prop := c ≠ ',' ∧ c ≠ '"' ∧ c ≠ '\n' ∧ c ≠ '\r'

instance (c : Char) : Decidable (PlainChar c) := inferInstanceAs (Decidable (_ ∧ _))

/-- The field can be written as it is. An empty line would have no field at all. -/
def PlainField (f : List Char) : Prop := f ≠ [] ∧ ∀ c ∈ f, PlainChar c

instance (f : List Char) : Decidable (PlainField f) := inferInstanceAs (Decidable (_ ∧ _))

/-- A record as it is written. -/
def csvLine (row : List (List Char)) : List Char := [','].intercalate row ++ ['\n']

section Plain

variable {r : CsvReader} {c : Char} {f : List Char}

theorem PlainChar.lineEnd (h : PlainChar c) : CsvReader.lineEnd (some c) = none :=
  if_neg (not_or.2 ⟨h.2.2.1, h.2.2.2⟩)

theorem PlainChar.field? (h : PlainChar c) (r : CsvReader) :
    r.field? (some c) = r.add c .inField := by
  unfold CsvReader.field?
  rw [h.lineEnd]
  simp only [if_neg h.2.1, if_neg h.1]

theorem PlainChar.step_inField (h : PlainChar c) (field : List Char)
    (fields : List (List Char)) : CsvReader.step ⟨.inField, field, fields⟩ (some c) =
      some ⟨.inField, c :: field, fields⟩ := by
  simp only [CsvReader.step, h.lineEnd, if_neg h.1]
  rfl

/-- The rest of a plain field. -/
theorem foldlM_inField (hf : ∀ c ∈ f, PlainChar c) (field cs : List Char)
    (fields : List (List Char)) :
    (f ++ cs).foldlM (fun r c => r.step (some c)) (⟨.inField, field, fields⟩ : CsvReader) =
      cs.foldlM (fun r c => r.step (some c))
        (⟨.inField, f.reverse ++ field, fields⟩ : CsvReader) := by
  induction f generalizing field with
  | nil => rfl
  | cons c f ih =>
      have hc := hf c List.mem_cons_self
      rw [List.cons_append, List.foldlM_cons, hc.step_inField]
      show (f ++ cs).foldlM _ _ = _
      rw [ih (fun c' hc' => hf c' (List.mem_cons_of_mem c hc')), List.reverse_cons,
        List.append_assoc]
      rfl

/-- A plain field at the start of a record or after a comma. -/
theorem foldlM_field (hf : PlainField f) {state : CsvState}
    (hstate : state = .startRecord ∨ state = .startField) (cs : List Char)
    (fields : List (List Char)) :
    (f ++ cs).foldlM (fun r c => r.step (some c)) (⟨state, [], fields⟩ : CsvReader) =
      cs.foldlM (fun r c => r.step (some c)) (⟨.inField, f.reverse, fields⟩ : CsvReader) := by
  obtain ⟨hne, hplain⟩ := hf
  cases f with
  | nil => exact absurd rfl hne
  | cons c f =>
      have hc := hplain c List.mem_cons_self
      have hstep : CsvReader.step ⟨state, [], fields⟩ (some c) =
          some ⟨.inField, [c], fields⟩ := by
        rcases hstate with rfl | rfl
        · have hend : ¬ (c = '\n' ∨ c = '\r') := not_or.2 ⟨hc.2.2.1, hc.2.2.2⟩
          simp only [CsvReader.step, if_neg hend, hc.field?]
          rfl
        · simp only [CsvReader.step, hc.field?]
          rfl
      rw [List.cons_append, List.foldlM_cons, hstep]
      show (f ++ cs).foldlM _ _ = _
      rw [foldlM_inField fun c' hc' => hplain c' (List.mem_cons_of_mem c hc'), List.reverse_cons]

/-- A line of plain fields, the first of them not read yet. -/
theorem foldlM_csvLine (row : List (List Char)) (hf : PlainField f)
    (hrow : ∀ g ∈ row, PlainField g) {state : CsvState}
    (hstate : state = .startRecord ∨ state = .startField) (fields : List (List Char)) :
    (csvLine (f :: row)).foldlM (fun r c => r.step (some c)) (⟨state, [], fields⟩ : CsvReader) =
      some ⟨.eatLineEnd, [], (f :: row).reverse ++ fields⟩ := by
  induction row generalizing f state fields with
  | nil =>
      rw [csvLine, List.intercalate_singleton, foldlM_field hf hstate]
      simp [CsvReader.step, CsvReader.lineEnd, CsvReader.save]
  | cons g row ih =>
      have hline : csvLine (f :: g :: row) = f ++ (',' :: csvLine (g :: row)) := by
        simp [csvLine, List.intercalate_cons_cons]
      have hcomma : CsvReader.step ⟨.inField, f.reverse, fields⟩ (some ',') =
          some ⟨.startField, [], f :: fields⟩ := by
        simp [CsvReader.step, CsvReader.lineEnd, CsvReader.save]
      rw [hline, foldlM_field hf hstate, List.foldlM_cons, hcomma]
      show (csvLine (g :: row)).foldlM _ _ = _
      rw [ih (hrow g List.mem_cons_self) (fun x hx => hrow x (List.mem_cons_of_mem g hx))
        (.inr rfl)]
      simp

/-- A line of plain fields is one record. -/
theorem line_csvLine {row : List (List Char)} (hne : row ≠ [])
    (hrow : ∀ g ∈ row, PlainField g) :
    CsvReader.start.line (csvLine row) = some ⟨.startRecord, [], row.reverse⟩ := by
  cases row with
  | nil => exact absurd rfl hne
  | cons f row =>
      show CsvReader.line ⟨.startRecord, [], []⟩ _ = _
      rw [CsvReader.line, foldlM_csvLine row (hrow f List.mem_cons_self)
        (fun g hg => hrow g (List.mem_cons_of_mem f hg)) (.inl rfl), List.append_nil]
      rfl

theorem csvRows_csvLines {rows : List (List (List Char))}
    (h : ∀ row ∈ rows, row ≠ [] ∧ ∀ g ∈ row, PlainField g) :
    csvRows .start (rows.map csvLine) = some rows := by
  induction rows with
  | nil => rfl
  | cons row rows ih =>
      obtain ⟨hne, hrow⟩ := h row List.mem_cons_self
      rw [List.map_cons, csvRows, line_csvLine hne hrow]
      simp [ih fun row' hrow' => h row' (List.mem_cons_of_mem row hrow')]

/-- A line without a line end in it. -/
theorem fileLines_line {cs : List Char} (h : ∀ c ∈ cs, c ≠ '\n') (text : List Char) :
    fileLines (cs ++ '\n' :: text) = (cs ++ ['\n']) :: fileLines text := by
  induction cs with
  | nil => rfl
  | cons c cs ih =>
      have hc := h c List.mem_cons_self
      rw [List.cons_append, fileLines, ih fun c' hc' => h c' (List.mem_cons_of_mem c hc')]
      · rfl
      · exact fun hc' => hc hc'

theorem universalNewlines_eq {text : List Char} (h : ∀ c ∈ text, c ≠ '\r') :
    universalNewlines text = text := by
  induction text with
  | nil => rfl
  | cons c text ih =>
      have hc := h c List.mem_cons_self
      rw [universalNewlines, ih fun c' hc' => h c' (List.mem_cons_of_mem c hc')]
      · exact fun _ hc' => absurd hc' hc
      · exact fun hc' => absurd hc' hc

theorem mem_intercalate {row : List (List Char)} (hc : c ∈ [','].intercalate row) :
    c = ',' ∨ ∃ g ∈ row, c ∈ g := by
  induction row with
  | nil => simp at hc
  | cons f row ih =>
      cases row with
      | nil =>
          rw [List.intercalate_singleton] at hc
          exact .inr ⟨f, List.mem_cons_self, hc⟩
      | cons g row =>
          rw [List.intercalate_cons_cons, List.mem_append, List.mem_append] at hc
          rcases hc with (hc | hc) | hc
          · exact .inr ⟨f, List.mem_cons_self, hc⟩
          · exact .inl (List.mem_singleton.1 hc)
          · exact (ih hc).imp_right fun ⟨x, hx, hc⟩ => ⟨x, List.mem_cons_of_mem f hx, hc⟩

/-- What a line is made of. -/
theorem mem_csvLine {row : List (List Char)} (hc : c ∈ csvLine row) :
    c = ',' ∨ c = '\n' ∨ ∃ g ∈ row, c ∈ g := by
  rcases List.mem_append.1 hc with hc | hc
  · exact (mem_intercalate hc).imp_right .inr
  · exact .inr (.inl (List.mem_singleton.1 hc))

/-- What is written with plain fields is read back. -/
theorem readCsv_csvLines {rows : List (List (List Char))}
    (h : ∀ row ∈ rows, row ≠ [] ∧ ∀ g ∈ row, PlainField g) :
    readCsv (rows.flatMap csvLine) = some rows := by
  have hlines : fileLines (rows.flatMap csvLine) = rows.map csvLine := by
    induction rows with
    | nil => rfl
    | cons row rows ih =>
        have hline : ∀ c ∈ [','].intercalate row, c ≠ '\n' := by
          intro c hc
          rcases mem_intercalate hc with rfl | ⟨g, hg, hc⟩
          · decide
          · exact (((h row List.mem_cons_self).2 g hg).2 c hc).2.2.1
        rw [List.flatMap_cons, csvLine, List.append_assoc, List.singleton_append,
          fileLines_line hline,
          ih fun row' hrow' => h row' (List.mem_cons_of_mem row hrow')]
        rfl
  have hnl : universalNewlines (rows.flatMap csvLine) = rows.flatMap csvLine := by
    refine universalNewlines_eq fun c hc => ?_
    obtain ⟨row, hrow, hc⟩ := List.mem_flatMap.1 hc
    rcases mem_csvLine hc with rfl | rfl | ⟨g, hg, hc⟩
    · decide
    · decide
    · exact (((h row hrow).2 g hg).2 c hc).2.2.2
  rw [readCsv, hnl, hlines, csvRows_csvLines h]

end Plain

end Text
