import ManifestLens.Manifest.Line
import ManifestLens.Proofs.Manifest.PoetryTable
import ManifestLens.Proofs.Written.Elements

/-!
# Written table entries

An entry of a Poetry table is a key with a string for its value, or with an inline table that holds the
constraint in its version field and may list extras. The two fields are searched by their keys alone, so
what has to be seen is that neither of them is found within the other one.
-/

namespace ManifestLens

open Text

/-! ### Fields -/

/-- The blanks around the parts of a field. -/
structure FieldGaps where
  lead : List Char
  before : List Char
  after : List Char
  trail : List Char
  lead_blank : IsBlankRun lead
  before_blank : IsBlankRun before
  after_blank : IsBlankRun after
  trail_blank : IsBlankRun trail

def FieldGaps.opening (gaps : FieldGaps) (key : List Char) : List Char :=
  gaps.lead ++ key ++ gaps.before ++ '=' :: gaps.after

/-- An extra of an inline table: a quoted name with blanks around it. -/
structure WrittenExtra where
  lead : List Char
  quote : Char
  name : List Char
  trail : List Char
  lead_blank : IsBlankRun lead
  quote_isQuote : isQuote quote = true
  name_ne_nil : name ≠ []
  name_all : ∀ c ∈ name, Package.isNameChar c = true
  trail_blank : IsBlankRun trail

namespace WrittenExtra

/-- The extra with its quotes and blanks. -/
def text (extra : WrittenExtra) : List Char :=
  extra.lead ++ extra.quote :: (extra.name ++ [extra.quote]) ++ extra.trail

theorem mem_text {extra : WrittenExtra} {c : Char} (h : c ∈ extra.text) :
    isBlank c = true ∨ isQuote c = true ∨ Package.isNameChar c = true := by
  simp only [text, List.mem_append, List.mem_cons, List.not_mem_nil, or_false] at h
  rcases h with (h | rfl | h | rfl) | h
  · exact Or.inl (extra.lead_blank c h)
  · exact Or.inr (Or.inl extra.quote_isQuote)
  · exact Or.inr (Or.inr (extra.name_all c h))
  · exact Or.inr (Or.inl extra.quote_isQuote)
  · exact Or.inl (extra.trail_blank c h)

theorem notMem_text (extra : WrittenExtra) {c : Char} (hblank : isBlank c = false)
    (hquote : isQuote c = false) (hname : Package.isNameChar c = false) : c ∉ extra.text := by
  intro hmem
  rcases mem_text hmem with h | h | h
  · rw [hblank] at h
    cases h
  · rw [hquote] at h
    cases h
  · rw [hname] at h
    cases h

theorem dropAround_text (extra : WrittenExtra) :
    dropAround (fun c => c == '"' || c == '\'') (trim extra.text) = extra.name := by
  have hquoted : IsTrimmed (extra.quote :: (extra.name ++ [extra.quote])) := by
    have hblank := isBlank_of_isQuote extra.quote_isQuote
    refine ⟨headNot_cons.mpr hblank, fun c hc => ?_⟩
    obtain rfl : extra.quote = c := by
      rw [← List.cons_append, List.getLast?_append_cons] at hc
      simpa using hc
    exact hblank
  have hname : ∀ c ∈ extra.name, (c == '"' || c == '\'') = false := fun c hc =>
    isQuote_of_isNameChar (extra.name_all c hc)
  have hhead : HeadNot (fun c => c == '"' || c == '\'') (extra.name ++ [extra.quote]) := by
    obtain ⟨c, rest, hsplit⟩ := List.exists_cons_of_ne_nil extra.name_ne_nil
    rw [hsplit]
    exact headNot_cons.mpr (hname c (by simp [hsplit]))
  have hrun : ∀ c ∈ [extra.quote], (c == '"' || c == '\'') = true := by
    simpa [isQuote] using extra.quote_isQuote
  rw [text, trim_margins extra.lead_blank hquoted extra.trail_blank, dropAround, dropLeading,
    ← List.singleton_append, dropWhile_run hrun hhead, dropTrailing_append hrun,
    dropTrailing_of_lastNot fun c hc => hname c (List.mem_of_getLast? hc)]

end WrittenExtra

/-- The extras of an inline table, joined by commas. -/
def quotedExtras (extras : List WrittenExtra) : List Char :=
  joinWith [','] (extras.map WrittenExtra.text)

section QuotedExtras

variable {extras : List WrittenExtra}

theorem extrasOf_quotedExtras : extrasOf (quotedExtras extras) = extras.map WrittenExtra.name :=
  extrasOf_joinWith (fun extra _ => extra.notMem_text (by decide) (by decide) (by decide))
    fun extra _ => ⟨extra.dropAround_text, extra.name_ne_nil⟩

theorem notMem_quotedExtras {c : Char} (hblank : isBlank c = false) (hquote : isQuote c = false)
    (hname : Package.isNameChar c = false) (hcomma : c ≠ ',') : c ∉ quotedExtras extras := by
  rw [quotedExtras]
  induction extras with
  | nil => simp [joinWith]
  | cons extra rest ih =>
      have hextra := extra.notMem_text hblank hquote hname
      cases rest with
      | nil => simpa [joinWith] using hextra
      | cons next more =>
          simp only [List.map_cons, joinWith, List.mem_append, not_or] at ih ⊢
          exact ⟨⟨hextra, by simpa using hcomma⟩, ih⟩

theorem isCode_quotedExtras : IsCode (quotedExtras extras) := by
  have hextra : ∀ extra : WrittenExtra, IsCode extra.text := fun extra =>
    ((IsCode.of_isBlankRun extra.lead_blank).append (IsCode.of_quoted extra.quote_isQuote fun hmem => by
      have := isQuote_of_isNameChar (extra.name_all _ hmem)
      rw [extra.quote_isQuote] at this
      cases this)).append (IsCode.of_isBlankRun extra.trail_blank)
  rw [quotedExtras]
  induction extras with
  | nil => exact IsCode.of_isBlankRun isBlankRun_nil
  | cons extra rest ih =>
      cases rest with
      | nil => exact hextra extra
      | cons next more =>
          simp only [List.map_cons, joinWith, List.append_assoc, List.singleton_append] at ih ⊢
          exact (hextra extra).append (ih.cons (by decide) (by decide))

end QuotedExtras

/-! ### Entries -/

/-- How the value of an entry is written: as a string, or as an inline table with the fields in either
order. -/
inductive TableShape where
  | string
  | version (gaps : FieldGaps)
  | versionFirst (gaps extras : FieldGaps) (listed : List WrittenExtra)
  | extrasFirst (gaps extras : FieldGaps) (listed : List WrittenExtra)

namespace TableShape

def listed : TableShape → List WrittenExtra
  | .string => []
  | .version _ => []
  | .versionFirst _ _ listed => listed
  | .extrasFirst _ _ listed => listed

def extrasField (extras : FieldGaps) (listed : List WrittenExtra) : List Char :=
  extras.opening "extras".toList ++ '[' :: (quotedExtras listed ++ ']' :: extras.trail)

/-- What stands before the string with the constraint. -/
def opening : TableShape → List Char
  | .string => []
  | .version gaps => '\x7b' :: gaps.opening "version".toList
  | .versionFirst gaps _ _ => '\x7b' :: gaps.opening "version".toList
  | .extrasFirst gaps extras listed =>
      '\x7b' :: (extrasField extras listed ++ ',' :: gaps.opening "version".toList)

/-- What stands behind the string with the constraint. -/
def closing : TableShape → List Char
  | .string => []
  | .version gaps => gaps.trail ++ ['\x7d']
  | .versionFirst gaps extras listed =>
      gaps.trail ++ ',' :: (extrasField extras listed ++ ['\x7d'])
  | .extrasFirst gaps _ _ => gaps.trail ++ ['\x7d']

end TableShape

theorem isBarrier_mark {key : List Char} {c : Char} (hkey : key = "version".toList ∨ key = "extras".toList)
    (hc : c = '\x7b' ∨ c = ',' ∨ c = '[' ∨ c = ']') : IsBarrier key c := by
  rcases hkey with rfl | rfl <;> rcases hc with rfl | rfl | rfl | rfl <;>
    exact ⟨by decide, by decide, by decide, by decide⟩

section Fields

variable {previous : Char} {column : Nat} {value : List Char}

theorem firstField_opening (gaps : FieldGaps) {key : List Char} {accepts : Option Char → Bool}
    (hkey : key = "version".toList ∨ key = "extras".toList) (hprevious : isWordChar previous = false)
    (hvalue : HeadNot isBlank value) (haccepts : accepts value.head? = true) :
    firstField key accepts previous column (gaps.opening key ++ value)
      = some (column + (gaps.opening key).length, value) := by
  have hhead : HeadNot isBlank key := by
    rcases hkey with rfl | rfl <;> exact headNot_cons.mpr (by decide)
  have hne : key ≠ [] := by
    rcases hkey with rfl | rfl <;> decide
  simpa [FieldGaps.opening] using firstField_blanks hhead hprevious gaps.lead_blank
    gaps.before_blank gaps.after_blank hvalue hne haccepts

/-- A field holds none of the characters that are neither blank nor a part of a key or an equals sign. -/
theorem notMem_opening (gaps : FieldGaps) {key : List Char} {c : Char} (hblank : isBlank c = false)
    (hkey : c ∉ key) (hequals : c ≠ '=') : c ∉ gaps.opening key := by
  simp only [FieldGaps.opening, List.mem_append, List.mem_cons, not_or]
  exact ⟨⟨⟨gaps.lead_blank.notMem hblank, hkey⟩, gaps.before_blank.notMem hblank⟩, hequals,
    gaps.after_blank.notMem hblank⟩

end Fields

namespace TableShape

variable {shape : TableShape} {quote : Char} {body : List Char}

theorem firstField_version (hquote : isQuote quote = true) (hshape : shape.opening ≠ []) :
    firstField "version".toList isStringStart ' ' 0 (shape.opening ++ quote :: body)
      = some (shape.opening.length, quote :: body) := by
  have hvalue : HeadNot isBlank (quote :: body) := headNot_cons.mpr (isBlank_of_isQuote hquote)
  have haccepts : isStringStart (quote :: body).head? = true := hquote
  have hbarrier : ∀ {c : Char}, c = '\x7b' ∨ c = ',' ∨ c = '[' ∨ c = ']' →
      IsBarrier "version".toList c := fun hc => isBarrier_mark (Or.inl rfl) hc
  have hbrace : ∀ rest, firstField "version".toList isStringStart ' ' 0 ('\x7b' :: rest)
      = firstField "version".toList isStringStart '\x7b' 1 rest :=
    fun rest => firstField_barrier (hbarrier (by simp)) rest
  have hfound : ∀ (gaps : FieldGaps) (previous : Char) (column : Nat), isWordChar previous = false →
      firstField "version".toList isStringStart previous column
          (gaps.opening "version".toList ++ quote :: body)
        = some (column + (gaps.opening "version".toList).length, quote :: body) :=
    fun gaps _ _ hprevious => firstField_opening gaps (Or.inl rfl) hprevious hvalue haccepts
  cases shape with
  | string => exact absurd rfl hshape
  | version gaps | versionFirst gaps =>
      rw [opening, List.cons_append, hbrace, hfound gaps _ _ (by decide), List.length_cons,
        Nat.add_comm]
  | extrasFirst gaps extras listed =>
      have hfront : ∀ c ∈ extras.opening "extras".toList, isStringStart (some c) = false := by
        intro c hc
        by_contra hopen
        have hopens : isQuote c = true := by simpa [isStringStart] using hopen
        have hkey : c ∉ "extras".toList := by
          have hletters : ∀ c ∈ "extras".toList, isQuote c = false := by decide
          intro hmem
          rw [hletters c hmem] at hopens
          cases hopens
        refine notMem_opening extras (isBlank_of_isQuote hopens) hkey ?_ hc
        rintro rfl
        revert hopens
        decide
      have htrail : ∀ c ∈ extras.trail, isStringStart (some c) = false := by
        intro c hc
        by_contra hopen
        have hblank := isBlank_of_isQuote (by simpa [isStringStart] using hopen : isQuote c = true)
        rw [extras.trail_blank c hc] at hblank
        cases hblank
      have hsplit : (opening (.extrasFirst gaps extras listed)) ++ quote :: body
          = '\x7b' :: (extras.opening "extras".toList ++ '[' :: (quotedExtras listed ++ ']' ::
            (extras.trail ++ ',' :: (gaps.opening "version".toList ++ quote :: body)))) := by
        simp [opening, extrasField]
      have hlength : (opening (.extrasFirst gaps extras listed)).length
          = 1 + (extras.opening "extras".toList).length + 1 + (quotedExtras listed).length + 1
            + extras.trail.length + 1 + (gaps.opening "version".toList).length := by
        simp only [opening, extrasField, List.length_cons, List.length_append]
        omega
      rw [hsplit, hbrace, firstField_skip isStringStart _ _ (hbarrier (by simp)) hfront rfl,
        firstField_skip_unequal (hbarrier (by simp))
          (notMem_quotedExtras (by decide) (by decide) (by decide) (by decide)),
        firstField_skip isStringStart _ _ (hbarrier (by simp)) htrail rfl,
        hfound gaps _ _ (by decide), hlength]

/-- Before the string stands nothing, or an inline table up to its version. -/
theorem opened (shape : TableShape) (hquote : isQuote quote = true) (body : List Char) :
    shape.opening = [] ∨ shape.opening.head? = some '\x7b' ∧
      firstField "version".toList isStringStart ' ' 0 (shape.opening ++ quote :: body)
        = some (shape.opening.length, quote :: body) := by
  by_cases h : shape.opening = []
  · exact Or.inl h
  · refine Or.inr ⟨?_, firstField_version hquote h⟩
    cases shape with
    | string => exact absurd rfl h
    | version | versionFirst | extrasFirst => rfl

theorem statedExtras_shape {content rest : List Char} (hquote : isQuote quote = true)
    (hshape : shape.opening ≠ []) (hcontent : '[' ∉ content) (hrest : '[' ∉ rest) :
    statedExtras (shape.opening ++ quote :: (content ++ quote :: (shape.closing ++ rest)))
      = shape.listed.map WrittenExtra.name := by
  have hbarrier : ∀ {c : Char}, c = '\x7b' ∨ c = ',' ∨ c = '[' ∨ c = ']' →
      IsBarrier "extras".toList c := fun hc => isBarrier_mark (Or.inr rfl) hc
  have hbrace : ∀ rest, firstField "extras".toList isListStart ' ' 0 ('\x7b' :: rest)
      = firstField "extras".toList isListStart '\x7b' 1 rest :=
    fun rest => firstField_barrier (hbarrier (by simp)) rest
  have hplain : ∀ {text : List Char}, '[' ∉ text → ∀ c ∈ text, isListStart (some c) = false := by
    intro text htext c hc
    have hne : c ≠ '[' := by
      rintro rfl
      exact htext hc
    simpa [isListStart] using hne
  have hversion : ∀ gaps : FieldGaps, '[' ∉ gaps.opening "version".toList := fun gaps =>
    notMem_opening gaps (by decide) (by decide) (by decide)
  -- Where the field is found the list is read up to its bracket.
  have hfound : ∀ (extras : FieldGaps) (listed : List WrittenExtra) (previous : Char) (column : Nat)
      (more : List Char), isWordChar previous = false →
      ((firstField "extras".toList isListStart previous column (extras.opening "extras".toList ++ '['
        :: (quotedExtras listed ++ ']' :: more))).map fun found => listedExtras found.2).getD []
        = listed.map WrittenExtra.name := by
    intro extras listed previous column more hprevious
    have hclosed : ∀ c ∈ quotedExtras listed, (c != ']') = true := by
      intro c hc
      have hne : c ≠ ']' := by
        rintro rfl
        exact notMem_quotedExtras (by decide) (by decide) (by decide) (by decide) hc
      simpa using hne
    rw [firstField_opening extras (Or.inr rfl) hprevious (headNot_cons.mpr (by decide)) rfl]
    simp only [Option.map_some, Option.getD_some, listedExtras, List.tail_cons]
    rw [takeWhile_run hclosed (headNot_cons.mpr (by decide)), extrasOf_quotedExtras]
  rw [statedExtras_eq]
  cases shape with
  | string => exact absurd rfl hshape
  | version gaps =>
      have htext : '[' ∉ opening (.version gaps) ++ quote :: (content ++ quote :: (closing (.version gaps)
          ++ rest)) := by
        simp only [opening, closing, List.mem_append, List.mem_cons, not_or]
        have hne := (ne_bracket_of_isQuote hquote).1.symm
        exact ⟨⟨by decide, hversion gaps⟩, hne, hcontent, hne,
          ⟨gaps.trail_blank.notMem (by decide), by decide, by simp⟩, hrest⟩
      rw [firstField_eq_none (hplain htext) rfl]
      rfl
  | versionFirst gaps extras listed =>
      have hsplit : opening (.versionFirst gaps extras listed) ++ quote :: (content ++ quote ::
            (closing (.versionFirst gaps extras listed) ++ rest))
          = '\x7b' :: (gaps.opening "version".toList ++ quote :: (content ++ quote :: (gaps.trail ++ ','
            :: (extras.opening "extras".toList ++ '[' :: (quotedExtras listed ++ ']' ::
              (extras.trail ++ '\x7d' :: rest)))))) := by
        simp [opening, closing, extrasField]
      rw [hsplit, hbrace, firstField_skip isListStart _ _ (isBarrier_extras hquote) (hplain (hversion gaps))
          (isListStart_of_isQuote hquote),
        firstField_skip isListStart _ _ (isBarrier_extras hquote) (hplain hcontent)
          (isListStart_of_isQuote hquote),
        firstField_skip isListStart _ _ (hbarrier (by simp)) (hplain (gaps.trail_blank.notMem (by decide))) rfl]
      exact hfound extras listed _ _ _ (by decide)
  | extrasFirst gaps extras listed =>
      have hsplit : opening (.extrasFirst gaps extras listed) ++ quote :: (content ++ quote ::
            (closing (.extrasFirst gaps extras listed) ++ rest))
          = '\x7b' :: (extras.opening "extras".toList ++ '[' :: (quotedExtras listed ++ ']' ::
            (extras.trail ++ ',' :: (gaps.opening "version".toList ++ quote :: (content ++ quote ::
              (closing (.extrasFirst gaps extras listed) ++ rest)))))) := by
        simp [opening, extrasField]
      rw [hsplit, hbrace]
      exact hfound extras listed _ _ _ (by decide)

theorem isCode_field (gaps : FieldGaps) {key : List Char} (hkey : IsPlain key) :
    IsCode (gaps.opening key) :=
  (((IsCode.of_isBlankRun gaps.lead_blank).append (IsCode.of_isPlain hkey)).append
    (IsCode.of_isBlankRun gaps.before_blank)).append
      ((IsCode.of_isBlankRun gaps.after_blank).cons (by decide) (by decide))

theorem isCode_extrasField (extras : FieldGaps) (listed : List WrittenExtra) :
    IsCode (extrasField extras listed) :=
  (isCode_field extras (by unfold IsPlain; decide)).append ((isCode_quotedExtras.append
    ((IsCode.of_isBlankRun extras.trail_blank).cons (by decide) (by decide))).cons (by decide)
      (by decide))

theorem isCode_opening : IsCode shape.opening := by
  have hversion : ∀ gaps : FieldGaps, IsCode (gaps.opening "version".toList) := fun gaps =>
    isCode_field gaps (by unfold IsPlain; decide)
  cases shape with
  | string => exact IsCode.of_isBlankRun isBlankRun_nil
  | version gaps | versionFirst gaps => exact (hversion gaps).cons (by decide) (by decide)
  | extrasFirst gaps extras listed =>
      exact ((isCode_extrasField extras listed).append
        ((hversion gaps).cons (by decide) (by decide))).cons (by decide) (by decide)

theorem isCode_closing : IsCode shape.closing := by
  have hbrace : IsCode ['\x7d'] := IsCode.of_isPlain (by unfold IsPlain; decide)
  cases shape with
  | string => exact IsCode.of_isBlankRun isBlankRun_nil
  | version gaps | extrasFirst gaps => exact (IsCode.of_isBlankRun gaps.trail_blank).append hbrace
  | versionFirst gaps extras listed =>
      exact (IsCode.of_isBlankRun gaps.trail_blank).append
        (((isCode_extrasField extras listed).append hbrace).cons (by decide) (by decide))

end TableShape

/-- An entry of a table: a key, constraints in a string, the shape of the value, and blanks at the end. -/
structure WrittenEntry where
  key : KeyForm
  quote : Char
  pieces : List WrittenPiece
  shape : TableShape
  trail : List Char
  quote_isQuote : isQuote quote = true
  trail_blank : IsBlankRun trail

namespace WrittenEntry

def statement (entry : WrittenEntry) : Statement where
  name := entry.key.name
  extras := entry.shape.listed.map WrittenExtra.name
  pieces := entry.pieces
  extras_written := fun extra h => by
    obtain ⟨written, -, rfl⟩ := List.mem_map.mp h
    exact ⟨written.name_ne_nil, written.name_all⟩

/-- What stands before the constraint. -/
def head (entry : WrittenEntry) : List Char := entry.key.text ++ entry.shape.opening ++ [entry.quote]

def text (entry : WrittenEntry) : List Char :=
  entry.head ++ entry.statement.constraint ++ entry.quote :: (entry.shape.closing ++ entry.trail)

def dependency (entry : WrittenEntry) (number : Nat) (group : Group) : Dependency :=
  entry.statement.dependency .poetryTable number group
    (entry.key.indent.length + entry.key.quote.toList.length) entry.head.length

theorem isTableConstraint (entry : WrittenEntry) : IsTableConstraint entry.statement.constraint := by
  have h := entry.statement.isConstraintText
  refine ⟨h.trimmed, ?_⟩
  by_cases hne : entry.statement.constraint = []
  · rw [hne]
    rfl
  · obtain ⟨c, rest, hsplit, hc, hrest⟩ := h.exists_head hne
    rw [hsplit, isPoetryConstraint, hc, Bool.true_or, Bool.true_or, Bool.true_and, List.all_eq_true]
    exact fun x hx => by simp [hrest x hx]

def form (entry : WrittenEntry) : TableForm where
  key := entry.key
  opening := entry.shape.opening
  quote := entry.quote
  lead := []
  constraint := entry.statement.constraint
  trail := []
  rest := entry.quote :: (entry.shape.closing ++ entry.trail)
  quote_isQuote := entry.quote_isQuote
  lead_blank := isBlankRun_nil
  constraint_text := entry.isTableConstraint
  trail_blank := isBlankRun_nil
  trail_of_bare := fun _ => rfl
  rest_quote := Or.inr ⟨_, rfl⟩
  opened := entry.shape.opened entry.quote_isQuote _

theorem text_form (entry : WrittenEntry) : entry.form.text = entry.text := by
  simp [form, TableForm.text, TableForm.value, TableForm.content, text, head]

theorem extras_form (entry : WrittenEntry) : entry.form.extras = entry.statement.extras := by
  rw [TableForm.extras]
  split
  · next h =>
      cases hshape : entry.shape with
      | string => simp [statement, hshape, TableShape.listed]
      | version | versionFirst | extrasFirst =>
          have hopening : entry.shape.opening = [] := h
          rw [hshape] at hopening
          cases hopening
  · next h =>
      have hconstraint : '[' ∉ entry.statement.constraint :=
        notMem_of_isTableConstraint entry.isTableConstraint (by decide)
      have htrail : '[' ∉ entry.trail := entry.trail_blank.notMem (by decide)
      have := TableShape.statedExtras_shape entry.quote_isQuote h hconstraint htrail
      simpa [form, TableForm.value, TableForm.content, statement] using this

theorem isCode_text (entry : WrittenEntry) : IsCode entry.text := by
  have hquote : entry.quote ∉ entry.statement.constraint :=
    notMem_of_isTableConstraint entry.isTableConstraint (isTableChar_of_isQuote entry.quote_isQuote)
  have hsplit : entry.text = (entry.key.text ++ entry.shape.opening) ++ (entry.quote ::
      (entry.statement.constraint ++ [entry.quote]) ++ (entry.shape.closing ++ entry.trail)) := by
    simp [text, head]
  rw [hsplit]
  exact (entry.key.isCode_text.append TableShape.isCode_opening).append
    ((IsCode.of_quoted entry.quote_isQuote hquote).append
      (TableShape.isCode_closing.append (IsCode.of_isBlankRun entry.trail_blank)))

/-- **A written table entry** states what was written, at its columns. -/
theorem tableDependencies_text {rule : NameRule} (number : Nat) (group : Group) {entry : WrittenEntry}
    {comment : List Char} (haccepts : rule.accepts entry.key.name = true)
    (hfree : reservedKeys.contains (asciiLower entry.key.name) = false) (hline : '\n' ∉ entry.text)
    (hcomment : comment = [] ∨ ∃ rest, comment = '#' :: rest) :
    tableDependencies rule (entry.text ++ comment) number group = [entry.dependency number group] := by
  have hfound := ManifestLens.tableDependencies_text rule number group entry.form
    (by rw [entry.isCode_text.codePart_append hcomment, text_form]) (by rwa [text_form]) hfree
  have hdependency : (entry.form.requirement entry.form.key.name).toDependency? rule .poetryTable number
      group = some (entry.dependency number group) := by
    refine Requirement.toDependency?_eq_some_iff.mpr ⟨haccepts, ?_⟩
    have hextras := entry.extras_form
    have hhead : entry.form.head = entry.head := by simp [form, TableForm.head, head]
    simp only [TableForm.requirement, hextras, hhead]
    rfl
  rw [hfound, hdependency]
  rfl

end WrittenEntry

end ManifestLens

/-!
## Reading what was written

`Renders` says how statements are written in the four dialects, and which entries, with which columns, a
text then states. Reading the text in its dialect gives back exactly these entries.
-/

namespace ManifestLens

open Text

/-- The text states the entries in a dialect. Names are accepted by the rule, and strings and entries of a
table are on one line. -/
inductive Renders (rule : NameRule) (number : Nat) (group : Group) :
    Dialect → List Char → List Dependency → Prop
  /-- A requirements line with its indentation and whatever may follow a requirement. -/
  | line {s : Statement} {indent gap tail : List Char} : rule.accepts s.name = true → '\n' ∉ s.name →
      IsBlankRun indent → IsBlankRun gap → (s.pieces = [] → gap = []) → EndsLine tail →
      Renders rule number group .requirementsLine (s.line indent gap ++ tail)
        [s.dependency .requirementsLine number group indent.length (indent ++ s.head ++ gap).length]
  /-- Strings that open array elements, each with a requirement that has extras, constraints and maybe a
  marker. -/
  | elements {elements : List (WrittenElement WrittenRequirement)} {after : List Char} :
      AreElements none elements → EndsStrings after →
      (∀ element ∈ elements, rule.accepts element.item.statement.name = true ∧
        unquotedMarker element.quote element.item.marker) →
      '\n' ∉ elementsText WrittenRequirement.text elements →
      Renders rule number group .array (elementsText WrittenRequirement.text elements ++ after)
        (elementsDependencies WrittenRequirement.text (WrittenRequirement.dependency · number group) 0
          elements)
  /-- A key of a Poetry table that names a package, with a string or an inline table. -/
  | entry {entry : WrittenEntry} {comment : List Char} : rule.accepts entry.key.name = true →
      reservedKeys.contains (asciiLower entry.key.name) = false → '\n' ∉ entry.text →
      comment = [] ∨ (∃ rest, comment = '#' :: rest) →
      Renders rule number group .poetryTable (entry.text ++ comment) [entry.dependency number group]
  /-- Strings that open array elements, each with a requirement in the form with parentheses. -/
  | parenthesized {elements : List (WrittenElement WrittenParenthesized)} {after : List Char} :
      AreElements none elements → EndsStrings after →
      (∀ element ∈ elements, rule.accepts element.item.statement.name = true ∧
        unquotedMarker element.quote element.item.marker) →
      '\n' ∉ elementsText WrittenParenthesized.text elements →
      Renders rule number group .poetryParentheses
        (elementsText WrittenParenthesized.text elements ++ after)
        (elementsDependencies WrittenParenthesized.text (WrittenParenthesized.dependency · number group)
          0 elements)

/-- **Reading undoes writing.** In every dialect the entries that a text states are those that are read,
with name, extras and constraint as they were written and with the columns where they stand. -/
theorem parse_of_renders {rule : NameRule} {number : Nat} {group : Group} {dialect : Dialect}
    {text : List Char} {entries : List Dependency} (h : Renders rule number group dialect text entries) :
    dialect.parse rule text number group = entries := by
  cases h with
  | line haccepts hfeed hindent hgap hbare htail =>
      exact Statement.requirementsDependencies_line number group haccepts hfeed hindent hgap hbare htail
  | elements helements hafter hitems hline =>
      exact arrayDependencies_elements number group helements hafter hitems hline
  | entry haccepts hfree hline hcomment =>
      exact WrittenEntry.tableDependencies_text number group haccepts hfree hline hcomment
  | parenthesized helements hafter hitems hline =>
      exact parenthesizedDependencies_elements number group helements hafter hitems hline

/-- A pinned requirement with an extra, a marker and a comment. -/
theorem parse_of_renders_pinned :
    Dialect.parse .requirementsLine .standard
        "  requests[socks]== 2.31 ; python_version < '3.9' # pinned".toList 4 .main
      = [⟨"requests".toList, "== 2.31".toList, ⟨17, 7⟩, ⟨2, 8⟩, 4, .main, .requirementsLine,
          ["socks".toList]⟩] := by
  have hblank : IsBlankRun [' '] := by
    unfold IsBlankRun
    decide
  have hversion : IsPlainVersion "2.31".toList := ⟨⟨'2', _, rfl, by decide⟩, by decide⟩
  have haccepts : NameRule.standard.accepts "requests".toList = true := by decide
  have hfeed : '\n' ∉ "requests".toList := by decide
  let s : Statement := ⟨"requests".toList, ["socks".toList],
    [⟨.standard .equal, [' '], "2.31".toList, hblank, hversion⟩], by decide⟩
  have htail : EndsLine ([' '] ++ ';' :: " python_version < '3.9' # pinned".toList) := .marker hblank
  exact parse_of_renders (@Renders.line .standard 4 .main s [' ', ' '] [] _ haccepts hfeed
    (hblank.append hblank) isBlankRun_nil (fun _ => rfl) htail)

end ManifestLens
