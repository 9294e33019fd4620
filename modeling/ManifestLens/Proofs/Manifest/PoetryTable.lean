import ManifestLens.Proofs.Manifest.InlineTable
import ManifestLens.Proofs.Manifest.Span

/-!
# The written form of a table entry

An entry of a Poetry table states its constraint in a string, which is the value of the key itself or of
the version field of an inline table. A `TableForm` is such a line cut into its parts, with everything up
to the string in one piece, because the constraint is the only part that is exchanged.
-/

namespace ManifestLens

open Text

/-- A character that may stand in the constraint of a table entry. -/
def isTableChar (c : Char) : Bool :=
  isOperatorStart c || c == '*' || isDecimal c || isConstraintChar c || c == '|'

/-- What a table entry may state as its constraint. -/
structure IsTableConstraint (text : List Char) : Prop where
  trimmed : IsTrimmed text
  valid : isPoetryConstraint text = true

theorem notMem_of_isTableConstraint {text : List Char} {c : Char} (h : IsTableConstraint text)
    (hc : isTableChar c = false) : c ∉ text := by
  intro hmem
  have hchar : isTableChar c = true := by
    cases text with
    | nil => cases hmem
    | cons first rest =>
        have hvalid := h.valid
        simp only [isPoetryConstraint, Bool.and_eq_true, List.all_eq_true, Bool.or_eq_true] at hvalid
        simp only [isTableChar, Bool.or_eq_true]
        rcases List.mem_cons.mp hmem with rfl | hmem
        · exact Or.inl (Or.inl hvalid.1)
        · rcases hvalid.2 c hmem with h | h
          · exact Or.inl (Or.inr h)
          · exact Or.inr h
  rw [hc] at hchar
  cases hchar

theorem isTableChar_of_isQuote {quote : Char} (h : isQuote quote = true) :
    isTableChar quote = false := by
  simp only [isQuote, Bool.or_eq_true, beq_iff_eq] at h
  rcases h with rfl | rfl <;> decide

theorem isPlain_of_isTableConstraint {text : List Char} (h : IsTableConstraint text) :
    IsPlain text := by
  intro c hc
  refine ⟨?_, ?_⟩
  · by_contra hquote
    exact notMem_of_isTableConstraint h (isTableChar_of_isQuote (by simpa using hquote)) hc
  · rintro rfl
    exact notMem_of_isTableConstraint h (by decide) hc

/-- A line of a Poetry table with a constraint in it, taken apart. Of a blank string all is in `lead`. -/
structure TableForm where
  key : KeyForm
  /-- What stands between the start of the value and the string: nothing, or the start of an inline
  table. -/
  opening : List Char
  quote : Char
  lead : List Char
  constraint : List Char
  trail : List Char
  /-- The closing quote, if there is one, and what follows it. -/
  rest : List Char
  quote_isQuote : isQuote quote = true
  lead_blank : IsBlankRun lead
  constraint_text : IsTableConstraint constraint
  trail_blank : IsBlankRun trail
  trail_of_bare : constraint = [] → trail = []
  rest_quote : rest = [] ∨ ∃ more, rest = quote :: more
  opened : opening = [] ∨ opening.head? = some '\x7b' ∧
    firstField "version".toList isStringStart ' ' 0
        (opening ++ quote :: (lead ++ constraint ++ trail ++ rest))
      = some (opening.length, quote :: (lead ++ constraint ++ trail ++ rest))

namespace TableForm

def content (form : TableForm) : List Char := form.lead ++ form.constraint ++ form.trail

def value (form : TableForm) : List Char := form.opening ++ form.quote :: (form.content ++ form.rest)

/-- What stands before the constraint. -/
def head (form : TableForm) : List Char :=
  form.key.text ++ form.opening ++ form.quote :: form.lead

/-- What stands behind the constraint. -/
def tail (form : TableForm) : List Char := form.trail ++ form.rest

/-- The written line up to its comment. -/
def text (form : TableForm) : List Char := form.key.text ++ form.value

/-- The extras that the line states beside its constraint. -/
def extras (form : TableForm) : List (List Char) :=
  if form.opening = [] then [] else statedExtras form.value

/-- The requirement on a package that the line states. -/
def requirement (form : TableForm) (name : List Char) : Requirement where
  name := name
  nameSpan := (form.key.key form.value).span
  extras := form.extras
  constraint := form.constraint
  span := ⟨form.head.length, form.constraint.length⟩

theorem text_eq (form : TableForm) : form.text = form.head ++ form.constraint ++ form.tail := by
  simp [text, value, content, head, tail]

theorem quote_notMem_content (form : TableForm) : form.quote ∉ form.content := by
  have hblank := isBlank_of_isQuote form.quote_isQuote
  simp only [content, List.mem_append, not_or]
  exact ⟨⟨form.lead_blank.notMem hblank, notMem_of_isTableConstraint form.constraint_text
    (isTableChar_of_isQuote form.quote_isQuote)⟩, form.trail_blank.notMem hblank⟩

theorem headNot_rest (form : TableForm) (p : Char → Bool) (hp : p form.quote = false) :
    HeadNot p form.rest := by
  rcases form.rest_quote with h | ⟨more, h⟩
  · rw [h]
    exact headNot_nil
  · rw [h]
    exact headNot_cons.mpr hp

theorem headNot_isBlank_value (form : TableForm) : HeadNot isBlank form.value := by
  rcases form.opened with h | ⟨h, -⟩
  · rw [value, h]
    exact headNot_cons.mpr (isBlank_of_isQuote form.quote_isQuote)
  · intro c hc
    have hvalue : form.value.head? = some '\x7b' := by
      rw [value]
      cases hopening : form.opening with
      | nil => simp [hopening] at h
      | cons d more => simpa [hopening] using h
    rw [hvalue] at hc
    obtain rfl := Option.some.inj hc
    decide

theorem tableRequirement?_text (form : TableForm) (name : List Char) (nameSpan : Span)
    (extras : List (List Char)) :
    tableRequirement? form.text name nameSpan extras
        ⟨form.key.text.length + form.opening.length + 1, form.content.length⟩
      = some ⟨name, nameSpan, extras, form.constraint, ⟨form.head.length, form.constraint.length⟩⟩ := by
  have hsplit : form.text
      = (form.key.text ++ form.opening ++ [form.quote]) ++ form.content ++ form.rest := by
    simp [text, value]
  have htrimmed := Span.trimmed_margins (form.key.text ++ form.opening ++ [form.quote])
    form.rest form.lead_blank form.constraint_text.trimmed form.trail_blank
    form.trail_of_bare
  have hstart : (form.key.text ++ form.opening ++ [form.quote]).length
      = form.key.text.length + form.opening.length + 1 := by
    simp
    omega
  have hspan : (⟨form.key.text.length + form.opening.length + 1 + form.lead.length,
      form.constraint.length⟩ : Span) = ⟨form.head.length, form.constraint.length⟩ := by
    simp [head]
    omega
  have hcovers : (⟨form.head.length, form.constraint.length⟩ : Span).Covers form.text
      form.constraint := ⟨form.head, form.tail, form.text_eq, rfl⟩
  rw [← content, ← hsplit, hstart, hspan] at htrimmed
  simp only [tableRequirement?, htrimmed, Span.slice_of_covers hcovers, form.constraint_text.valid,
    if_true]

theorem stringValue?_value (form : TableForm) (h : form.opening = []) (column : Nat) :
    stringValue? column form.value = some ⟨column + 1, form.content.length⟩ := by
  have htake : (form.content ++ form.rest).takeWhile (· != form.quote) = form.content := by
    refine takeWhile_run (fun c hc => ?_) (form.headNot_rest _ (by simp))
    simp only [bne_iff_ne, ne_eq]
    rintro rfl
    exact form.quote_notMem_content hc
  rw [value, h, List.nil_append, stringValue?]
  simp only [form.quote_isQuote, if_true, htake]

theorem statedVersion?_value (form : TableForm) (h : form.opening ≠ []) (hline : '\n' ∉ form.text)
    (column : Nat) :
    statedVersion? form.value column
      = some ⟨column + form.opening.length + 1, form.content.length⟩ := by
  have hfound := (form.opened.resolve_left h).2
  have hmoved := firstField_column "version".toList isStringStart ' ' 0 form.value column
  rw [← content] at hfound
  rw [value, hfound, Nat.zero_add, ← value] at hmoved
  have hmem : ∀ c ∈ form.content, c ≠ '\n' := by
    rintro c hc rfl
    exact hline (by simp [text, value, hc])
  have htake : (form.content ++ form.rest).takeWhile
      (fun c => some c != some form.quote && c != '\n') = form.content := by
    refine takeWhile_run (fun c hc => ?_) (form.headNot_rest _ (by simp))
    have hne : c ≠ form.quote := by
      rintro rfl
      exact form.quote_notMem_content hc
    simp [hne, hmem c hc]
  rw [statedVersion?_eq, hmoved]
  simp only [Option.map_some, stringSpan, List.tail_cons, List.head?_cons, htake]
  congr 2
  omega

theorem head?_value (form : TableForm) (h : form.opening ≠ []) : form.value.head? = some '\x7b' := by
  obtain ⟨hhead, -⟩ := form.opened.resolve_left h
  rw [value]
  cases hopening : form.opening with
  | nil => exact absurd hopening h
  | cons c more => simpa [hopening] using hhead

theorem entryOfTable?_text (form : TableForm) (hline : '\n' ∉ form.text)
    (hfree : reservedKeys.contains (asciiLower form.key.name) = false) :
    entryOfTable? form.text = some (form.requirement form.key.name) := by
  have hread := form.key.read?_text form.headNot_isBlank_value
  rw [← text] at hread
  have hfree' : reservedKeys.contains (asciiLower (form.key.key form.value).name) = false := hfree
  rw [entryOfTable?, hread]
  simp only [Option.bind_eq_bind, Option.bind_some, hfree', Bool.false_eq_true, if_false]
  have hstart : (form.key.key form.value).valueColumn = form.key.text.length := rfl
  have hvalue : (form.key.key form.value).value = form.value := rfl
  have hname : (form.key.key form.value).name = form.key.name := rfl
  rw [hstart, hvalue, hname]
  by_cases h : form.opening = []
  · have hrequirement := form.tableRequirement?_text form.key.name (form.key.key form.value).span []
    rw [h, List.length_nil, Nat.add_zero] at hrequirement
    rw [form.stringValue?_value h]
    simpa [requirement, extras, h] using hrequirement
  · have hhead := form.head?_value h
    have hnone : stringValue? form.key.text.length form.value = none := by
      cases hcases : form.value with
      | nil => rfl
      | cons c more =>
          rw [hcases] at hhead
          obtain rfl : c = '\x7b' := Option.some.inj hhead
          rfl
    have hrequirement := form.tableRequirement?_text form.key.name (form.key.key form.value).span
      (statedExtras form.value)
    rw [hnone]
    simp only [hhead, if_true, form.statedVersion?_value h hline, Option.bind_some, hrequirement,
      requirement, extras, h, if_false]

/-- The form with another constraint. A version field is found by what stands before it, so it is found
all the same. -/
def withConstraint (form : TableForm) (constraint : List Char)
    (hconstraint : IsTableConstraint constraint) (hne : constraint ≠ []) : TableForm :=
  { form with
    constraint
    constraint_text := hconstraint
    trail_of_bare := fun h => absurd h hne
    opened := form.opened.imp_right fun h =>
      ⟨h.1, firstField_exchange (isBarrier_version form.quote_isQuote) h.2 _⟩ }

theorem bracket_notMem_content (form : TableForm) : '[' ∉ form.content := by
  simp only [content, List.mem_append, not_or]
  exact ⟨⟨form.lead_blank.notMem (by decide),
    notMem_of_isTableConstraint form.constraint_text (by decide)⟩, form.trail_blank.notMem (by decide)⟩

/-- The extras do not change with the constraint, unless their bracket is open where it stands. -/
theorem extras_withConstraint (form : TableForm) {constraint : List Char}
    (hconstraint : IsTableConstraint constraint) (hne : constraint ≠ [])
    (hclosed : ∀ found, firstField "extras".toList isListStart ' ' 0
      (form.opening ++ form.quote :: form.lead) = some found → ']' ∈ found.2) :
    (form.withConstraint constraint hconstraint hne).extras = form.extras := by
  have hexchange := statedExtras_exchange form.quote_isQuote form.bracket_notMem_content
    (form.withConstraint constraint hconstraint hne).bracket_notMem_content form.rest_quote
    form.lead_blank hclosed
  simp only [extras]
  rw [← value] at hexchange
  change (if form.opening = [] then [] else statedExtras (form.opening ++ form.quote
    :: ((form.withConstraint constraint hconstraint hne).content ++ form.rest))) = _
  rw [hexchange]

end TableForm

/-- A span is narrowed to what is left of its text without blanks, and this has to be a constraint. -/
theorem exists_margins_tableRequirement? (before content after name : List Char) (nameSpan : Span)
    (extras : List (List Char)) :
    ∃ lead trail, content = lead ++ trim content ++ trail ∧ IsBlankRun lead ∧ IsBlankRun trail ∧
      IsTrimmed (trim content) ∧ (trim content = [] → trail = []) ∧
      tableRequirement? (before ++ content ++ after) name nameSpan extras ⟨before.length, content.length⟩
        = if isPoetryConstraint (trim content) then
            some ⟨name, nameSpan, extras, trim content, ⟨before.length + lead.length, (trim content).length⟩⟩
          else none := by
  obtain ⟨lead, trail, hcontent, hlead, htrail, htrimmed, -, hbare⟩ := exists_margins content
  generalize trim content = constraint at *
  subst hcontent
  have hspan := Span.trimmed_margins before after hlead htrimmed htrail hbare
  have hcovers : (⟨before.length + lead.length, constraint.length⟩ : Span).Covers
      (before ++ (lead ++ constraint ++ trail) ++ after) constraint :=
    ⟨before ++ lead, trail ++ after, by simp, by simp⟩
  refine ⟨lead, trail, rfl, hlead, htrail, htrimmed, hbare, ?_⟩
  simp only [tableRequirement?, hspan, Span.slice_of_covers hcovers]

/-- A requirement that a span of the line states, by the text around it. -/
theorem exists_of_tableRequirement? {before content after name : List Char} {nameSpan : Span}
    {extras : List (List Char)} {found : Requirement}
    (h : tableRequirement? (before ++ content ++ after) name nameSpan extras
      ⟨before.length, content.length⟩ = some found) :
    ∃ lead constraint trail, content = lead ++ constraint ++ trail ∧ IsBlankRun lead ∧
      IsTableConstraint constraint ∧ IsBlankRun trail ∧ (constraint = [] → trail = []) ∧
      found = ⟨name, nameSpan, extras, constraint,
        ⟨before.length + lead.length, constraint.length⟩⟩ := by
  obtain ⟨lead, trail, hcontent, hlead, htrail, htrimmed, hbare, hread⟩ :=
    exists_margins_tableRequirement? before content after name nameSpan extras
  rw [hread] at h
  split at h
  · next hvalid =>
      exact ⟨lead, trim content, trail, hcontent, hlead, ⟨htrimmed, hvalid⟩, htrail, hbare, (Option.some.inj h).symm⟩
  · cases h

theorem exists_string_parts (quote : Char) (body : List Char) :
    ∃ content rest, body = content ++ rest ∧ body.takeWhile (· != quote) = content ∧
      (rest = [] ∨ ∃ more, rest = quote :: more) := by
  obtain ⟨content, rest, hsplit, -, hrest, htake, -⟩ := exists_run (· != quote) body
  refine ⟨content, rest, hsplit, htake, ?_⟩
  cases rest with
  | nil => exact Or.inl rfl
  | cons c more =>
      have hc : c = quote := by simpa using headNot_cons.mp hrest
      exact Or.inr ⟨more, by rw [hc]⟩

/-- A string value with a requirement in it is a written line. -/
theorem exists_tableForm_of_string (key : KeyForm) {value name : List Char} {span : Span}
    {found : Requirement} (hstring : stringValue? key.text.length value = some span)
    (h : tableRequirement? (key.text ++ value) name (key.key value).span [] span = some found) :
    ∃ form : TableForm, form.key = key ∧ form.value = value ∧ form.opening = [] ∧
      form.requirement name = found := by
  cases value with
  | nil => cases hstring
  | cons quote body =>
      simp only [stringValue?] at hstring
      split at hstring
      · next hquote =>
          obtain ⟨content, rest, rfl, htake, hrest⟩ := exists_string_parts quote body
          rw [htake] at hstring
          have hsplit : key.text ++ quote :: (content ++ rest)
              = (key.text ++ [quote]) ++ content ++ rest := by simp
          have hstart : (key.text ++ [quote]).length = key.text.length + 1 := by simp
          rw [← Option.some.inj hstring, hsplit, ← hstart] at h
          obtain ⟨lead, constraint, trail, rfl, hlead, hconstraint, htrail, hbare, rfl⟩ :=
            exists_of_tableRequirement? h
          refine ⟨⟨key, [], quote, lead, constraint, trail, rest, hquote, hlead, hconstraint, htrail,
            hbare, hrest, Or.inl rfl⟩, rfl, ?_, rfl, ?_⟩
          · simp [TableForm.value, TableForm.content]
          · simp [TableForm.requirement, TableForm.extras, TableForm.head, TableForm.value,
              TableForm.content]
            omega
      · cases hstring

/-- An inline table with a requirement in it is a written line. -/
theorem exists_tableForm_of_inline (key : KeyForm) {value name : List Char} {span : Span}
    {found : Requirement} (hline : '\n' ∉ value) (hhead : value.head? = some '\x7b')
    (hversion : statedVersion? value key.text.length = some span)
    (h : tableRequirement? (key.text ++ value) name (key.key value).span (statedExtras value) span
      = some found) :
    ∃ form : TableForm, form.key = key ∧ form.value = value ∧ form.requirement name = found := by
  obtain ⟨opening, quote, body, rfl, hquote, hstart, rfl⟩ := exists_field_of_statedVersion? hversion
  obtain ⟨content, rest, rfl, htake, hrest⟩ := exists_string_parts quote body
  have hmem : ∀ c ∈ content, c ≠ '\n' := by
    rintro c hc rfl
    exact hline (by simp [hc])
  have hcontent : (content ++ rest).takeWhile (fun c => some c != some quote && c != '\n')
      = content := by
    refine takeWhile_run (fun c hc => ?_) ?_
    · have hne : (c != quote) = true := by
        rw [← htake] at hc
        exact List.mem_takeWhile_imp (p := (· != quote)) hc
      have hsome : (some c != some quote) = (c != quote) := rfl
      rw [hsome, hne]
      simpa using hmem c hc
    · rcases hrest with rfl | ⟨more, rfl⟩
      · exact headNot_nil
      · exact headNot_cons.mpr (by simp)
  have hsplit : key.text ++ (opening ++ quote :: (content ++ rest))
      = (key.text ++ opening ++ [quote]) ++ content ++ rest := by simp
  have hcolumn : opening.length + key.text.length + 1 = (key.text ++ opening ++ [quote]).length := by
    simp only [List.length_append, List.length_singleton]
    omega
  rw [hcontent, hcolumn, hsplit] at h
  obtain ⟨lead, constraint, trail, rfl, hlead, hconstraint, htrail, hbare, rfl⟩ :=
    exists_of_tableRequirement? h
  have hne : opening ≠ [] := by
    rintro rfl
    obtain rfl : quote = '\x7b' := Option.some.inj hhead
    revert hquote
    decide
  refine ⟨⟨key, opening, quote, lead, constraint, trail, rest, hquote, hlead, hconstraint, htrail,
    hbare, hrest, Or.inr ⟨?_, hstart⟩⟩, rfl, ?_, ?_⟩
  · cases opening with
    | nil => exact absurd rfl hne
    | cons c more => exact hhead
  · simp [TableForm.value, TableForm.content]
  · simp [TableForm.requirement, TableForm.extras, TableForm.head, TableForm.value,
      TableForm.content, hne]
    omega

/-- Every entry that is read is a written one. -/
theorem exists_tableForm {code : List Char} {found : Requirement} (hline : '\n' ∉ code)
    (h : entryOfTable? code = some found) :
    ∃ form : TableForm, form.text = code ∧ form.requirement form.key.name = found ∧
      reservedKeys.contains (asciiLower form.key.name) = false := by
  rw [entryOfTable?] at h
  obtain ⟨key, hkey, hentry⟩ := Option.bind_eq_some_iff.mp h
  obtain ⟨form, hcode, hform, -⟩ := exists_keyForm hkey
  have hvalue : '\n' ∉ key.value := fun hmem => hline (by rw [hcode]; simp [hmem])
  have hname : key.name = form.name := by rw [hform]; rfl
  have hstart : key.valueColumn = form.text.length := by rw [hform]; rfl
  have hspan : key.span = (form.key key.value).span := by rw [← hform]
  simp only [hname, hstart, hspan, hcode] at hentry
  split at hentry
  · cases hentry
  · next hfree =>
      have hfree' : reservedKeys.contains (asciiLower form.name) = false := by simpa using hfree
      split at hentry
      · next span hstring =>
          obtain ⟨table, hkeyEq, hvalueEq, -, hfound⟩ := exists_tableForm_of_string form hstring hentry
          refine ⟨table, ?_, ?_, ?_⟩
          · rw [hcode, TableForm.text, hvalueEq, hkeyEq]
          · rw [hkeyEq]
            exact hfound
          · rw [hkeyEq]
            exact hfree'
      · split at hentry
        · next hhead =>
            obtain ⟨span, hversion, hrequirement⟩ := Option.bind_eq_some_iff.mp hentry
            obtain ⟨table, hkeyEq, hvalueEq, hfound⟩ :=
              exists_tableForm_of_inline form hvalue hhead hversion hrequirement
            refine ⟨table, ?_, ?_, ?_⟩
            · rw [hcode, TableForm.text, hvalueEq, hkeyEq]
            · rw [hkeyEq]
              exact hfound
            · rw [hkeyEq]
              exact hfree'
        · cases hentry

/-! ### Lines of a table -/

section Line

variable {rule : NameRule} {line package : List Char} {number : Nat} {group : Group} {d : Dependency}

theorem tableDependencies_text (rule : NameRule) (number : Nat) (group : Group) (form : TableForm)
    (hcode : codePart line = form.text)
    (hline : '\n' ∉ form.text) (hfree : reservedKeys.contains (asciiLower form.key.name) = false) :
    tableDependencies rule line number group = ((form.requirement form.key.name).toDependency? rule
      .poetryTable number group).toList := by
  rw [tableDependencies, hcode, form.entryOfTable?_text hline hfree, Option.bind_some]

theorem exists_of_mem_tableDependencies (hline : '\n' ∉ line)
    (h : d ∈ tableDependencies rule line number group) :
    ∃ form : TableForm, codePart line = form.text ∧
      reservedKeys.contains (asciiLower form.key.name) = false ∧
      (form.requirement form.key.name).toDependency? rule .poetryTable number group = some d := by
  rw [tableDependencies, Option.mem_toList] at h
  obtain ⟨found, hfound, hdependency⟩ := Option.bind_eq_some_iff.mp h
  have hcode : '\n' ∉ codePart line := fun hmem => hline ((codePart_isPrefix line).subset hmem)
  obtain ⟨form, htext, rfl, hfree⟩ := exists_tableForm hcode hfound
  exact ⟨form, htext.symm, hfree, hdependency⟩

theorem versionKeyDependency?_text (rule : NameRule) (package : List Char) (number : Nat) (group : Group)
    (form : TableForm) (hcode : codePart line = form.text)
    (hopening : form.opening = []) (hbare : form.key.quote = none)
    (hversion : form.key.name = "version".toList) :
    versionKeyDependency? rule line package number group
      = (form.requirement package).toDependency? rule .poetryTable number group := by
  have hread := form.key.read?_text form.headNot_isBlank_value
  rw [← TableForm.text] at hread
  have hstring := form.stringValue?_value hopening form.key.text.length
  have hrequirement := form.tableRequirement?_text package (form.key.key form.value).span []
  rw [hopening, List.length_nil, Nat.add_zero] at hrequirement
  have hkey : (form.key.key form.value).isBare = true ∧
      (form.key.key form.value).name = "version".toList := ⟨by simp [KeyForm.key, hbare], hversion⟩
  have hstart : (form.key.key form.value).valueColumn = form.key.text.length := rfl
  have hvalue : (form.key.key form.value).value = form.value := rfl
  rw [versionKeyDependency?, hcode, hread]
  simp only [Option.bind_eq_bind, Option.bind_some, hkey, hstart, hvalue, hstring, hrequirement,
    Bool.true_and, decide_true, if_true, TableForm.requirement, TableForm.extras, hopening]

theorem exists_of_versionKeyDependency?
    (h : versionKeyDependency? rule line package number group = some d) :
    ∃ form : TableForm, codePart line = form.text ∧ form.opening = [] ∧ form.key.quote = none ∧
      form.key.name = "version".toList ∧
      (form.requirement package).toDependency? rule .poetryTable number group = some d := by
  rw [versionKeyDependency?] at h
  obtain ⟨key, hkey, hentry⟩ := Option.bind_eq_some_iff.mp h
  obtain ⟨form, hcode, hform, -⟩ := exists_keyForm hkey
  have hstart : key.valueColumn = form.text.length := by rw [hform]; rfl
  have hspan : key.span = (form.key key.value).span := by rw [← hform]
  have hname : key.name = form.name := by rw [hform]; rfl
  have hquote : key.isBare = form.quote.isNone := by rw [hform]; rfl
  simp only [hstart, hspan, hname, hquote] at hentry
  split at hentry
  · next hversion =>
      simp only [Bool.and_eq_true, Option.isNone_iff_eq_none, decide_eq_true_eq] at hversion
      obtain ⟨span, hstring, hrest⟩ := Option.bind_eq_some_iff.mp hentry
      obtain ⟨found, hfound, hdependency⟩ := Option.bind_eq_some_iff.mp hrest
      rw [hcode] at hfound
      obtain ⟨table, hkeyEq, hvalueEq, hopening, rfl⟩ := exists_tableForm_of_string form hstring hfound
      refine ⟨table, ?_, hopening, by rw [hkeyEq, hversion.1], by rw [hkeyEq, hversion.2],
        hdependency⟩
      rw [hcode, TableForm.text, hvalueEq, hkeyEq]
  · cases hentry

end Line

end ManifestLens
