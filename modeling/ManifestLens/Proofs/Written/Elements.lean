import ManifestLens.Proofs.Manifest.Parenthesized
import ManifestLens.Proofs.Written.Line

/-!
# Written array elements

Strings on a line are array elements where a bracket, a comma or nothing stands before them. A list of
such strings is read string by string, each at its own columns, whatever each of them states and whatever
stands between them.
-/

namespace ManifestLens

open Text

/-! ### Elements of a line -/

/-- A string of a line: what stands before it, its quote, and what it states. -/
structure WrittenElement (Item : Type) where
  before : List Char
  quote : Char
  item : Item

/-- Each of the strings opens an array element, where `last` is the visible character before the first
one. -/
def AreElements {Item : Type} (last : Option Char) : List (WrittenElement Item) → Prop
  | [] => True
  | element :: rest => IsPlain element.before ∧ isQuote element.quote = true ∧
      QuotedString.opensElement (lastVisible last element.before) = true ∧
      AreElements (some element.quote) rest

/-- What may follow the last string of a line: no quotes, and maybe a comment. -/
inductive EndsStrings : List Char → Prop
  | plain {text : List Char} : IsPlain text → EndsStrings text
  | comment {text comment : List Char} : IsPlain text → EndsStrings (text ++ '#' :: comment)

section Elements

variable {Item : Type} {write : Item → List Char} {elements : List (WrittenElement Item)}
  {after : List Char}

/-- The strings with what stands before each of them. -/
def elementsText (write : Item → List Char) : List (WrittenElement Item) → List Char
  | [] => []
  | element :: rest =>
      element.before ++ element.quote :: (write element.item ++ element.quote :: elementsText write rest)

/-- What is stated by strings, the text of which starts at a column. -/
def elementsDependencies (write : Item → List Char) (state : Item → Nat → Dependency) (column : Nat) :
    List (WrittenElement Item) → List Dependency
  | [] => []
  | element :: rest =>
      state element.item (column + element.before.length + 1)
        :: elementsDependencies write state
            (column + element.before.length + (write element.item).length + 2) rest

theorem isQuote_of_areElements {last : Option Char} (h : AreElements last elements) :
    ∀ element ∈ elements, isQuote element.quote = true := by
  induction elements generalizing last with
  | nil => simp
  | cons element rest ih =>
      intro other hother
      rcases List.mem_cons.mp hother with rfl | hother
      · exact h.2.1
      · exact ih h.2.2.2 other hother

theorem stringsFrom_ending {column : Nat} {last : Option Char} (h : EndsStrings after) :
    QuotedString.stringsFrom column last after = [] := by
  cases h with
  | plain hplain =>
      rw [← List.append_nil after, QuotedString.stringsFrom_plain hplain, QuotedString.stringsFrom_nil]
  | comment hplain => rw [QuotedString.stringsFrom_plain hplain, QuotedString.stringsFrom_comment]

/-- **Strings are read one by one.** If each of the strings by itself states one dependency, a line states
them all, in their order and at their columns. -/
theorem filterMap_stringsFrom_elements {read? : QuotedString → Option Dependency}
    {state : Item → Nat → Dependency} {column : Nat} {last : Option Char}
    (helements : AreElements last elements) (hafter : EndsStrings after)
    (hcontent : ∀ element ∈ elements, element.quote ∉ write element.item ∧ '\n' ∉ write element.item)
    (hread : ∀ element ∈ elements, ∀ column isElement,
      read? ⟨column, write element.item, isElement⟩ = some (state element.item column)) :
    ((QuotedString.stringsFrom column last (elementsText write elements ++ after)).filter
        QuotedString.isElement).filterMap read?
      = elementsDependencies write state column elements := by
  induction elements generalizing column last with
  | nil => rw [elementsText, List.nil_append, stringsFrom_ending hafter]; rfl
  | cons element rest ih =>
      obtain ⟨hplain, hquote, hopens, hrest⟩ := helements
      obtain ⟨hclosed, hfeed⟩ := hcontent element (by simp)
      have hmore := @ih (column + element.before.length + (write element.item).length + 2) _ hrest
        (fun other hother => hcontent other (List.mem_cons_of_mem element hother))
        fun other hother => hread other (List.mem_cons_of_mem element hother)
      have hsplit : elementsText write (element :: rest) ++ after = element.before ++ element.quote
          :: (write element.item ++ element.quote :: (elementsText write rest ++ after)) := by
        simp [elementsText]
      rw [hsplit, QuotedString.stringsFrom_plain hplain,
        QuotedString.stringsFrom_quoted hquote hclosed hfeed, hopens,
        List.filter_cons_of_pos (by rfl), List.filterMap_cons, hread element (by simp), hmore]
      rfl

end Elements

/-! ### Requirements in strings -/

/-- A marker may not close the string it stands in. -/
def unquotedMarker (quote : Char) (marker : Option (List Char)) : Prop :=
  ∀ text, marker = some text → quote ∉ text

theorem quote_notMem_markerText {quote : Char} {marker : Option (List Char)}
    (hquote : isQuote quote = true) (h : unquotedMarker quote marker) : quote ∉ markerText marker := by
  cases marker with
  | none => simp [markerText]
  | some text =>
      intro hmem
      rcases List.mem_cons.mp hmem with rfl | hmem
      · revert hquote
        decide
      · exact h text rfl hmem

namespace Statement

variable {s : Statement}

theorem quote_notMem_head {quote : Char} (hname : IsWrittenName s.name)
    (hquote : isQuote quote = true) : quote ∉ s.head := by
  intro hmem
  rcases isNameChar_or_mark_of_mem_head hname hmem with h | rfl | rfl | rfl
  · rw [isQuote_of_isNameChar h] at hquote
    cases hquote
  all_goals
    revert hquote
    decide

theorem quote_notMem_constraint {quote : Char} (hquote : isQuote quote = true) :
    quote ∉ s.constraint := by
  intro hmem
  have hchar := s.isConstraintText.all quote hmem
  simp only [isQuote, Bool.or_eq_true, beq_iff_eq] at hquote
  rcases hquote with rfl | rfl <;> revert hchar <;> decide

end Statement

/-- A requirement in a string: a statement with blanks around its parts, and maybe a marker. -/
structure WrittenRequirement where
  statement : Statement
  indent : List Char
  gap : List Char
  trail : List Char
  marker : Option (List Char)
  indent_blank : IsBlankRun indent
  gap_blank : IsBlankRun gap
  trail_blank : IsBlankRun trail
  gap_of_bare : statement.pieces = [] → gap = []

namespace WrittenRequirement

def text (r : WrittenRequirement) : List Char :=
  r.statement.line r.indent r.gap ++ (r.trail ++ markerText r.marker)

/-- What the string states if its content starts at a column. -/
def dependency (r : WrittenRequirement) (number : Nat) (group : Group) (column : Nat) : Dependency :=
  r.statement.dependency .array number group (column + r.indent.length)
    (column + (r.indent ++ r.statement.head ++ r.gap).length)

theorem quote_notMem_text {r : WrittenRequirement} {quote : Char} (hquote : isQuote quote = true)
    (hname : IsWrittenName r.statement.name) (hmarker : unquotedMarker quote r.marker) :
    quote ∉ r.text := by
  have hblank := isBlank_of_isQuote hquote
  simp only [text, Statement.line, List.mem_append, not_or]
  exact ⟨⟨⟨⟨r.indent_blank.notMem hblank, Statement.quote_notMem_head hname hquote⟩,
    r.gap_blank.notMem hblank⟩, Statement.quote_notMem_constraint hquote⟩,
    r.trail_blank.notMem hblank, quote_notMem_markerText hquote hmarker⟩

theorem read?_text {r : WrittenRequirement} {rule : NameRule} (number : Nat) (group : Group)
    (haccepts : rule.accepts r.statement.name = true) (hname : IsWrittenName r.statement.name)
    (column : Nat) :
    (Requirement.read? r.text column).bind (Requirement.toDependency? rule .array number group)
      = some (r.dependency number group column) := by
  have hread := (r.statement.lineForm r.indent r.gap r.trail r.marker hname r.indent_blank r.gap_blank
    r.gap_of_bare r.trail_blank).read?_text column
  rw [Statement.text_lineForm] at hread
  rw [text, hread, Option.bind_some, Statement.toDependency?_lineForm haccepts, dependency]

end WrittenRequirement

theorem feed_notMem_elements {Item : Type} {write : Item → List Char}
    {elements : List (WrittenElement Item)} (h : '\n' ∉ elementsText write elements) :
    ∀ element ∈ elements, '\n' ∉ write element.item := by
  induction elements with
  | nil => simp
  | cons element rest ih =>
      simp only [elementsText, List.mem_append, List.mem_cons, not_or] at h
      intro other hother
      rcases List.mem_cons.mp hother with rfl | hother
      · exact h.2.2.1
      · exact ih h.2.2.2.2 other hother

/-- **A written list of requirements** states what was written, in order and at its columns. -/
theorem arrayDependencies_elements {rule : NameRule} (number : Nat) (group : Group)
    {elements : List (WrittenElement WrittenRequirement)} {after : List Char}
    (helements : AreElements none elements) (hafter : EndsStrings after)
    (hitems : ∀ element ∈ elements, rule.accepts element.item.statement.name = true ∧
      unquotedMarker element.quote element.item.marker)
    (hline : '\n' ∉ elementsText WrittenRequirement.text elements) :
    arrayDependencies rule (elementsText WrittenRequirement.text elements ++ after) number group
      = elementsDependencies WrittenRequirement.text
          (WrittenRequirement.dependency · number group) 0 elements := by
  have hfeed := feed_notMem_elements hline
  have hname : ∀ element ∈ elements, IsWrittenName element.item.statement.name := by
    intro element helement
    refine isWrittenName_of_accepts (hitems element helement).1 fun hmem => hfeed element helement ?_
    simp [WrittenRequirement.text, Statement.line, Statement.head, hmem]
  refine filterMap_stringsFrom_elements helements hafter (fun element helement => ?_)
    fun element helement column _ => WrittenRequirement.read?_text number group
      (hitems element helement).1 (hname element helement) column
  refine ⟨WrittenRequirement.quote_notMem_text ?_ (hname element helement) (hitems element helement).2,
    hfeed element helement⟩
  exact isQuote_of_areElements helements element helement

/-! ### Parenthesised requirements -/

/-- A requirement in a string with its constraint in parentheses. -/
structure WrittenParenthesized where
  statement : Statement
  indent : List Char
  gap : List Char
  lead : List Char
  trail : List Char
  /-- The blanks behind the closing parenthesis. -/
  rest : List Char
  marker : Option (List Char)
  indent_blank : IsBlankRun indent
  gap_blank : IsBlankRun gap
  lead_blank : IsBlankRun lead
  trail_blank : IsBlankRun trail
  rest_blank : IsBlankRun rest
  trail_of_bare : statement.pieces = [] → trail = []

namespace WrittenParenthesized

/-- What stands before the constraint. -/
def head (r : WrittenParenthesized) : List Char :=
  r.indent ++ r.statement.head ++ r.gap ++ '(' :: r.lead

def text (r : WrittenParenthesized) : List Char :=
  r.head ++ r.statement.constraint ++ (r.trail ++ ')' :: (r.rest ++ markerText r.marker))

/-- What the string states if its content starts at a column. -/
def dependency (r : WrittenParenthesized) (number : Nat) (group : Group) (column : Nat) : Dependency :=
  r.statement.dependency .poetryParentheses number group (column + r.indent.length)
    (column + r.head.length)

def form (r : WrittenParenthesized) (hname : IsWrittenName r.statement.name) : ParenthesizedForm where
  indent := r.indent
  name := r.statement.name
  bracket := r.statement.bracket
  gap := r.gap
  lead := r.lead
  constraint := r.statement.constraint
  trail := r.trail
  closing := some (r.rest ++ markerText r.marker)
  indent_blank := r.indent_blank
  name_written := hname
  bracket_closed := fun _ h => Statement.isClosed_of_bracket h
  gap_blank := r.gap_blank
  lead_blank := r.lead_blank
  constraint_text := r.statement.isConstraintText
  trail_blank := r.trail_blank
  trail_of_bare := fun h => r.trail_of_bare (Statement.constraint_eq_nil_iff.mp h)
  closing_marker := fun after hafter => by
    obtain rfl := Option.some.inj hafter
    cases hmarker : r.marker with
    | none =>
        left
        rw [markerText, List.append_nil, trim_of_isBlankRun r.rest_blank]
    | some marker =>
        right
        have hsemicolon : HeadNot isBlank (';' :: marker) := headNot_cons.mpr (by decide)
        rw [markerText, trim, dropAround, dropLeading, dropWhile_run r.rest_blank hsemicolon]
        exact head?_dropTrailing (by decide)

theorem text_form (r : WrittenParenthesized) (hname : IsWrittenName r.statement.name) :
    (r.form hname).text = r.text := by
  simp [form, ParenthesizedForm.text, ParenthesizedForm.head, ParenthesizedForm.opening,
    ParenthesizedForm.tail, text, head, Statement.head, closingText]

theorem quote_notMem_text {r : WrittenParenthesized} {quote : Char} (hquote : isQuote quote = true)
    (hname : IsWrittenName r.statement.name) (hmarker : unquotedMarker quote r.marker) :
    quote ∉ r.text := by
  have hblank := isBlank_of_isQuote hquote
  have hparenthesis : quote ≠ '(' ∧ quote ≠ ')' := by
    refine ⟨?_, ?_⟩ <;> rintro rfl <;> revert hquote <;> decide
  simp only [text, head, List.mem_append, List.mem_cons, not_or]
  exact ⟨⟨⟨⟨⟨r.indent_blank.notMem hblank, Statement.quote_notMem_head hname hquote⟩,
    r.gap_blank.notMem hblank⟩, hparenthesis.1, r.lead_blank.notMem hblank⟩,
    Statement.quote_notMem_constraint hquote⟩, r.trail_blank.notMem hblank,
    hparenthesis.2, r.rest_blank.notMem hblank, quote_notMem_markerText hquote hmarker⟩

theorem read?_text {r : WrittenParenthesized} {rule : NameRule} (number : Nat) (group : Group)
    (haccepts : rule.accepts r.statement.name = true) (hname : IsWrittenName r.statement.name)
    (column : Nat) :
    (Requirement.readParenthesized? r.text column).bind
        (Requirement.toDependency? rule .poetryParentheses number group)
      = some (r.dependency number group column) := by
  have hread := (r.form hname).read?_text column
  have hextras := r.statement.extras_eq
  rw [text_form] at hread
  rw [hread, Option.bind_some, Requirement.toDependency?_eq_some_iff]
  refine ⟨haccepts, ?_⟩
  simp only [dependency, Statement.dependency, ParenthesizedForm.requirement, ParenthesizedForm.head,
    ParenthesizedForm.opening, form, hextras, head, Statement.head, List.append_assoc]

end WrittenParenthesized

/-- **A written list of parenthesised requirements** states what was written, in order and at its
columns. -/
theorem parenthesizedDependencies_elements {rule : NameRule} (number : Nat) (group : Group)
    {elements : List (WrittenElement WrittenParenthesized)} {after : List Char}
    (helements : AreElements none elements) (hafter : EndsStrings after)
    (hitems : ∀ element ∈ elements, rule.accepts element.item.statement.name = true ∧
      unquotedMarker element.quote element.item.marker)
    (hline : '\n' ∉ elementsText WrittenParenthesized.text elements) :
    parenthesizedDependencies rule (elementsText WrittenParenthesized.text elements ++ after) number
        group
      = elementsDependencies WrittenParenthesized.text
          (WrittenParenthesized.dependency · number group) 0 elements := by
  have hfeed := feed_notMem_elements hline
  have hname : ∀ element ∈ elements, IsWrittenName element.item.statement.name := by
    intro element helement
    refine isWrittenName_of_accepts (hitems element helement).1 fun hmem => hfeed element helement ?_
    simp [WrittenParenthesized.text, WrittenParenthesized.head, Statement.head, hmem]
  refine filterMap_stringsFrom_elements helements hafter (fun element helement => ?_)
    fun element helement column _ => WrittenParenthesized.read?_text number group
      (hitems element helement).1 (hname element helement) column
  refine ⟨WrittenParenthesized.quote_notMem_text ?_ (hname element helement)
    (hitems element helement).2, hfeed element helement⟩
  exact isQuote_of_areElements helements element helement

end ManifestLens
