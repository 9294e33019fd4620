import ManifestLens.Proofs.Manifest.OpenString
import ManifestLens.Proofs.Written.Table
import ManifestLens.Proofs.Written.Typed

/-!
# Entries that are being typed

An entry is completed while it is typed, so it has to be read when it stops at the cursor, without the quote,
the brace or the parenthesis that will close it. `IsHalfTyped` says how such entries stand at the end of a line in
the four dialects. Each is read as the entry of the line that is at its end, and its completion is for what is
typed of the last version.
-/

namespace ManifestLens

open Text

/-! ### The name and the extras -/

/-- Extras as they are typed: closed, with name characters, commas and blanks in them. A hyphen stands within a
name, and so not behind a blank. -/
structure ExtrasForm.IsTyped (form : ExtrasForm) : Prop where
  closed : form.isClosed = true
  inner_all : ∀ c ∈ form.inner, isBlank c = true ∨ c = ',' ∨ Package.isNameChar c = true
  hyphen_in_name : ∀ front rest, form.inner = front ++ '-' :: rest → LastNot isBlank front

/-- What is typed before a constraint, with the blanks around it. -/
structure TypedHead where
  indent : List Char
  name : List Char
  bracket : Option ExtrasForm
  gap : List Char
  indent_blank : IsBlankRun indent
  bracket_typed : ∀ form, bracket = some form → form.IsTyped
  gap_blank : IsBlankRun gap

namespace TypedHead

def text (head : TypedHead) : List Char := head.indent ++ head.name ++ bracketText head.bracket ++ head.gap

variable {head : TypedHead} {typed : TypedConstraint}

theorem mem_text (hname : IsWrittenName head.name) {c : Char} (h : c ∈ head.text) :
    isBlank c = true ∨ Package.isNameChar c = true ∨ c = '[' ∨ c = ',' ∨ c = ']' := by
  simp only [text, List.mem_append] at h
  rcases h with ((h | h) | h) | h
  · exact Or.inl (head.indent_blank c h)
  · exact Or.inr (Or.inl (hname.all c h))
  · cases hbracket : head.bracket with
    | none =>
        rw [hbracket] at h
        cases h
    | some form =>
        have hform := head.bracket_typed form hbracket
        simp only [bracketText, hbracket, Option.map_some, Option.getD_some, ExtrasForm.text, hform.closed,
          if_true, List.append_assoc, List.cons_append, List.mem_append, List.mem_cons, List.not_mem_nil,
          or_false] at h
        rcases h with h | rfl | h | rfl
        · exact Or.inl (form.gap_blank c h)
        · simp
        · rcases hform.inner_all c h with h | rfl | h
          · exact Or.inl h
          · simp
          · exact Or.inr (Or.inl h)
        · simp
  · exact Or.inl (head.gap_blank c h)

theorem notMem_text (hname : IsWrittenName head.name) {c : Char} (hblank : isBlank c = false)
    (hchar : Package.isNameChar c = false) (hmark : c ≠ '[' ∧ c ≠ ',' ∧ c ≠ ']') : c ∉ head.text := by
  intro hmem
  rcases mem_text hname hmem with h | h | h | h | h
  · rw [hblank] at h
    cases h
  · rw [hchar] at h
    cases h
  · exact hmark.1 h
  · exact hmark.2.1 h
  · exact hmark.2.2 h

theorem isQuote_of_mem_text (hname : IsWrittenName head.name) {c : Char} (h : c ∈ head.text) :
    isQuote c = false := by
  by_contra hquote
  have hquote : isQuote c = true := by simpa using hquote
  have hcases := hquote
  simp only [isQuote, Bool.or_eq_true, beq_iff_eq] at hcases
  refine notMem_text hname (isBlank_of_isQuote hquote) ?_ ?_ h
  · rcases hcases with rfl | rfl <;> decide
  · rcases hcases with rfl | rfl <;> decide

/-- The head with what is typed for its constraint, as a requirement. -/
def form (head : TypedHead) (typed : TypedConstraint) (hname : IsWrittenName head.name)
    (htyped : typed.HasOperators) : RequirementForm where
  indent := head.indent
  name := head.name
  bracket := head.bracket
  gap := head.gap
  constraint := typed.text
  trail := []
  marker := none
  indent_blank := head.indent_blank
  name_written := hname
  gap_blank := head.gap_blank
  constraint_text := typed.isConstraintText htyped
  trail_blank := isBlankRun_nil
  gap_of_bare := fun h => absurd h (typed.ne_nil htyped)
  nothing_after_open := fun form hform hopen => by
    rw [(head.bracket_typed form hform).closed] at hopen
    cases hopen

/-- The head with what is typed for its constraint, as a requirement with a parenthesis. -/
def parenthesizedForm (head : TypedHead) (typed : TypedConstraint) {lead : List Char}
    (hname : IsWrittenName head.name) (hlead : IsBlankRun lead) (htyped : typed.HasOperators) :
    ParenthesizedForm where
  indent := head.indent
  name := head.name
  bracket := head.bracket
  gap := head.gap
  lead := lead
  constraint := typed.text
  trail := []
  closing := none
  indent_blank := head.indent_blank
  name_written := hname
  bracket_closed := fun form hform => (head.bracket_typed form hform).closed
  gap_blank := head.gap_blank
  lead_blank := hlead
  constraint_text := typed.isConstraintText htyped
  trail_blank := isBlankRun_nil
  trail_of_bare := fun _ => rfl
  closing_marker := fun _ h => by cases h

theorem text_form (hname : IsWrittenName head.name) (htyped : typed.HasOperators) :
    (head.form typed hname htyped).text = head.text ++ typed.text := by
  simp [form, RequirementForm.text, RequirementForm.head, RequirementForm.tail, markerText, text]

theorem text_parenthesizedForm {lead : List Char} (hname : IsWrittenName head.name) (hlead : IsBlankRun lead)
    (htyped : typed.HasOperators) : (head.parenthesizedForm typed hname hlead htyped).text
      = head.text ++ '(' :: (lead ++ typed.text) := by
  simp [parenthesizedForm, ParenthesizedForm.text, ParenthesizedForm.head, ParenthesizedForm.opening,
    ParenthesizedForm.tail, closingText, text]

end TypedHead

/-- A key and its value up to what is typed of the constraint, as an entry of a table. -/
def KeyForm.typedEntry (key : KeyForm) (shape : TableShape) (typed : TypedConstraint) {quote : Char}
    {lead : List Char} (hquote : isQuote quote = true) (hlead : IsBlankRun lead) : TableForm where
  key := key
  opening := shape.opening
  quote := quote
  lead := lead
  constraint := typed.text
  trail := []
  rest := []
  quote_isQuote := hquote
  lead_blank := hlead
  constraint_text := typed.isTableConstraint
  trail_blank := isBlankRun_nil
  trail_of_bare := fun _ => rfl
  rest_quote := Or.inl rfl
  opened := shape.opened hquote _

theorem text_typedEntry (key : KeyForm) (shape : TableShape) (typed : TypedConstraint) {quote : Char}
    {lead : List Char} (hquote : isQuote quote = true) (hlead : IsBlankRun lead) :
    (key.typedEntry shape typed hquote hlead).text
      = key.text ++ shape.opening ++ quote :: (lead ++ typed.text) := by
  simp [KeyForm.typedEntry, TableForm.text, TableForm.value, TableForm.content]

/-! ### Nothing that is typed is cut off -/

section Uncut

variable {stops : List Char → Bool}

theorem headNot_isCutMark_operator {operator : Option Operator} {gap rest : List Char}
    (hgap : operator = none → gap = []) (hrest : HeadNot isCutMark rest) :
    HeadNot isCutMark (Operator.textOf operator ++ gap ++ rest) := by
  rcases TypedConstraint.exists_head_of_operator hgap rest with ⟨-, htext⟩ | ⟨c, more, htext, hstart⟩
  · rwa [htext]
  · rw [htext]
    exact headNot_cons.mpr (isCutMark_of_isOperatorStart hstart)

theorem uncut_visible {c : Char} {left right : List Char} (hc : isBlank c = false) (h : Uncut stops left right) :
    Uncut stops (c :: left) right :=
  uncut_cons.mpr ⟨fun hblank => absurd hblank (by simp [hc]), h⟩

theorem uncut_textOf (operator : Option Operator) (right : List Char) :
    Uncut stops (Operator.textOf operator) right :=
  uncut_of_not_blank fun _ hc => (isConstraintChar_of_mem_textOf hc).2

namespace FinishedPiece

theorem headNot_version (piece : FinishedPiece) (rest : List Char) :
    HeadNot isCutMark (piece.version ++ rest) := by
  obtain ⟨c, more, hversion, hc⟩ := piece.version_head
  rw [hversion]
  refine headNot_cons.mpr ?_
  rcases hc with hc | rfl | ⟨-, hc⟩
  · exact isCutMark_of_isAsciiDigit hc
  · decide
  · exact isCutMark_of_isAsciiAlnum (by simp [isAsciiAlnum, hc])

theorem headNot_text (piece : FinishedPiece) (rest : List Char) : HeadNot isCutMark (piece.text ++ rest) := by
  have hhead := headNot_isCutMark_operator piece.gap_of_bare
    (piece.headNot_version (piece.before ++ ',' :: (piece.after ++ rest)))
  simpa [text] using hhead

theorem uncut_text (piece : FinishedPiece) (hstops : StopsAtMark stops) {right : List Char}
    (hright : HeadNot isCutMark right) : Uncut stops piece.text right := by
  have hversion : ∀ c ∈ piece.version, isBlank c = false := fun c hc =>
    (isConstraintChar_of_isVersionChar (piece.version_all c hc)).2
  refine uncut_append.mpr ⟨uncut_append.mpr ⟨uncut_append.mpr ⟨uncut_append.mpr ⟨?_, ?_⟩, ?_⟩, ?_⟩, ?_⟩
  · exact uncut_textOf _ _
  · exact hstops.uncut_blanks piece.gap_blank (hstops.of_headNot (piece.headNot_version _))
  · exact uncut_of_not_blank hversion
  · exact hstops.uncut_blanks piece.before_blank (hstops.of_headNot (headNot_cons.mpr (by decide)))
  · exact uncut_visible (by decide) (hstops.uncut_blanks piece.after_blank (hstops.of_headNot hright))

theorem uncut_front (hstops : StopsAtMark stops) (pieces : List FinishedPiece) {last : List Char}
    (hhead : HeadNot isCutMark last) (hlast : Uncut stops last []) :
    HeadNot isCutMark (pieces.flatMap text ++ last) ∧ Uncut stops (pieces.flatMap text ++ last) [] := by
  induction pieces with
  | nil => exact ⟨hhead, hlast⟩
  | cons piece more ih =>
      rw [List.flatMap_cons, List.append_assoc]
      exact ⟨piece.headNot_text _, uncut_append.mpr ⟨piece.uncut_text hstops (by simpa using ih.1), ih.2⟩⟩

end FinishedPiece

theorem TypedConstraint.uncut_text (typed : TypedConstraint) (hstops : StopsAtMark stops) :
    HeadNot isCutMark typed.text ∧ Uncut stops typed.text [] := by
  have hversion : HeadNot isCutMark typed.version := by
    rcases typed.version_typed with hnil | hplain
    · rw [hnil]
      exact headNot_nil
    · obtain ⟨c, rest, htext, hdigit⟩ := hplain.head
      rw [htext]
      exact headNot_cons.mpr (isCutMark_of_isAsciiDigit hdigit)
  refine FinishedPiece.uncut_front hstops typed.finished (headNot_isCutMark_operator typed.gap_of_bare hversion) ?_
  refine uncut_append.mpr ⟨uncut_append.mpr ⟨uncut_textOf _ _, ?_⟩, uncut_of_not_blank fun c hc => ?_⟩
  · exact hstops.uncut_blanks typed.gap_blank (hstops.of_headNot (by simpa using hversion))
  · exact (isConstraintChar_of_isVersionChar (isVersionChar_of_mem hc)).2

theorem ExtrasForm.IsTyped.uncut_inner {form : ExtrasForm} (hform : form.IsTyped) (hstops : StopsAtMark stops)
    (right : List Char) : Uncut stops form.inner (']' :: right) := by
  intro front c back hinner hblank
  refine hstops.of_headNot ?_
  cases back with
  | nil => exact headNot_cons.mpr (by decide)
  | cons d back =>
      refine headNot_cons.mpr ?_
      by_contra hmark
      rcases isCutMark_iff.mp (by simpa using hmark) with rfl | rfl
      · have := hform.inner_all '#' (by rw [hinner]; simp)
        revert this
        decide
      · have := hform.hyphen_in_name (front ++ [c]) back (by rw [hinner]; simp) c (by simp)
        rw [hblank] at this
        cases this

theorem TypedHead.uncut_text {head : TypedHead} (hname : IsWrittenName head.name) (hstops : StopsAtMark stops)
    {right : List Char} (hright : HeadNot isCutMark right) : Uncut stops head.text right := by
  obtain ⟨first, more, hfirst, halnum⟩ := hname.head
  refine uncut_append.mpr ⟨uncut_append.mpr ⟨uncut_append.mpr ⟨?_, ?_⟩, ?_⟩, ?_⟩
  · refine hstops.uncut_blanks head.indent_blank (hstops.of_headNot ?_)
    rw [hfirst]
    exact headNot_cons.mpr (isCutMark_of_isAsciiAlnum halnum)
  · exact uncut_of_not_blank fun c hc => isBlank_of_isNameChar (hname.all c hc)
  · cases hbracket : head.bracket with
    | none => exact uncut_nil
    | some form =>
        have hform := head.bracket_typed form hbracket
        have htext : bracketText (some form) = form.gap ++ ('[' :: (form.inner ++ [']'])) := by
          simp [bracketText, ExtrasForm.text, hform.closed]
        rw [htext]
        refine uncut_append.mpr ⟨?_, uncut_visible (by decide) (uncut_append.mpr ⟨?_, ?_⟩)⟩
        · exact hstops.uncut_blanks form.gap_blank (hstops.of_headNot (headNot_cons.mpr (by decide)))
        · exact hform.uncut_inner hstops _
        · exact uncut_visible (by decide) uncut_nil
  · exact hstops.uncut_blanks head.gap_blank (hstops.of_headNot hright)

end Uncut

/-! ### Requirements lines -/

namespace TypedHead

variable {head : TypedHead} {typed : TypedConstraint}

theorem requirementPart_text (hname : IsWrittenName head.name) (htyped : typed.HasOperators) :
    requirementPart (head.text ++ typed.text) = head.text ++ typed.text := by
  have hcut : ∀ {stops}, StopsAtMark stops →
      cutBefore stops (head.text ++ typed.text) = head.text ++ typed.text := by
    intro stops hstops
    obtain ⟨hhead, huncut⟩ := typed.uncut_text hstops
    have := cutBefore_append (uncut_append.mpr ⟨head.uncut_text hname hstops (by simpa using hhead), huncut⟩)
    simpa [cutBefore] using this
  have hlast : LastNot isLineTail (head.text ++ typed.text) := by
    intro c hc
    rw [List.getLast?_append_of_ne_nil _ (typed.ne_nil htyped)] at hc
    have hslash : c ≠ '\\' :=
      ne_of_isConstraintChar (TypedConstraint.isConstraintChar_of_mem (List.mem_of_getLast? hc)) (by decide)
    simp [isLineTail, typed.lastNot_isBlank c hc, hslash]
  have hhash : (head.text ++ typed.text).head? ≠ some '#' := by
    intro hhash
    have hmem := List.mem_of_head? hhash
    rcases List.mem_append.mp hmem with hmem | hmem
    · exact notMem_text hname (by decide) (by decide) (by decide) hmem
    · exact ne_of_isConstraintChar (TypedConstraint.isConstraintChar_of_mem hmem) (by decide) rfl
  have hclipped := clipped_blanks isBlankRun_nil hlast
  rw [List.append_nil] at hclipped
  rw [requirementPart_eq _ hhash, hcut stopsAtMark_startsComment, hcut stopsAtMark_startsOption, hclipped]

theorem requirementsDependencies_text (rule : NameRule) (number : Nat) (group : Group)
    (hname : IsWrittenName head.name) (htyped : typed.HasOperators) :
    requirementsDependencies rule (head.text ++ typed.text) number group
      = (((head.form typed hname htyped).requirement 0).toDependency? rule .requirementsLine number
          group).toList := by
  have htext := text_form hname htyped
  refine requirementsDependencies_eq rule number group (head.form typed hname htyped) ?_ ?_ ?_
  · rw [requirementPart_text hname htyped, htext]
  · have hchar := (head.form typed hname htyped).headNot_isNameChar_afterName
    have hmark := headNot_isSchemeMark_afterName (head.form typed hname htyped) (typed.ne_nil htyped)
      (head.form typed hname htyped).tail
    have hsplit : head.text ++ typed.text = head.indent ++ (head.name ++ (bracketText head.bracket
        ++ (head.gap ++ (typed.text ++ (head.form typed hname htyped).tail)))) := by
      simp [text, form, RequirementForm.tail, markerText]
    rw [hsplit]
    exact isUnnamedLine_eq_false head.indent_blank hname hchar hmark
  · have hchars : ∀ c ∈ (head.text ++ typed.text).takeWhile (· != ';'), c ≠ '@' ∧ c ≠ ':' := by
      intro c hc
      rcases List.mem_append.mp ((List.takeWhile_sublist _).subset hc) with hc | hc
      · refine ⟨?_, ?_⟩ <;> rintro rfl <;>
          exact notMem_text hname (by decide) (by decide) (by decide) hc
      · have := TypedConstraint.isConstraintChar_of_mem hc
        exact ⟨ne_of_isConstraintChar this (by decide), ne_of_isConstraintChar this (by decide)⟩
    rw [htext, pointsElsewhere_eq_false]
    exact ⟨fun hmem => (hchars _ hmem).1 rfl, fun hscheme => (hchars ':' (hscheme.subset (by decide))).2 rfl⟩

end TypedHead

/-! ### Completions at the end of a line -/

/-- An entry that is being typed, as it stands at the end of a line. What the line is read for follows from the
kind and the table: arrays and their two forms of strings where the table is no table of packages, keys with a
string or an inline table where it is one. -/
inductive IsHalfTyped :
    ManifestKind → Option (List Char) → List Char → TypedConstraint → List Char → Prop
  /-- A requirements line. -/
  | requirementsLine {table : Option (List Char)} {typed : TypedConstraint} (head : TypedHead) :
      typed.HasOperators → IsHalfTyped .requirements table head.name typed (head.text ++ typed.text)
  /-- A string that opens an array element. -/
  | arrayString {table : Option (List Char)} {typed : TypedConstraint} {front : List Char} {quote : Char}
      (head : TypedHead) : table.bind PoetryTable.ofTable? = none → OpensElement front quote →
      typed.HasOperators →
      IsHalfTyped .pyproject table head.name typed (front ++ quote :: (head.text ++ typed.text))
  /-- A string that opens an array element, with the constraint behind a parenthesis. -/
  | parenthesized {table : Option (List Char)} {typed : TypedConstraint} {front lead : List Char} {quote : Char}
      (head : TypedHead) : table.bind PoetryTable.ofTable? = none → OpensElement front quote →
      IsBlankRun lead → typed.HasOperators →
      IsHalfTyped .pyproject table head.name typed
        (front ++ quote :: (head.text ++ '(' :: (lead ++ typed.text)))
  /-- A key of a table of packages, with a string or an inline table. -/
  | tableEntry {table : Option (List Char)} {group : Group} {typed : TypedConstraint} {lead : List Char}
      {quote : Char} (key : KeyForm) (shape : TableShape) :
      table.bind PoetryTable.ofTable? = some ⟨group, none⟩ →
      reservedKeys.contains (asciiLower key.name) = false → isQuote quote = true → IsBlankRun lead →
      IsHalfTyped .pyproject table key.name typed
        (key.text ++ shape.opening ++ quote :: (lead ++ typed.text))

/-- The site completes an entry that is being typed at the end of a line. -/
structure CompletionSite.CompletesTyped (site : CompletionSite) (name line : List Char)
    (typed : TypedConstraint) : Prop where
  name_eq : site.dependency.name = name
  /-- What is typed of the last version is replaced, and it goes up to the end of the line. -/
  replace_eq : site.replace = ⟨line.length - typed.version.length, typed.version.length⟩
  stop_eq : site.replace.stop = line.length
  typed_eq : site.typed = typed.version
  has_operator : site.needsOperator = false

section Complete

variable {reader : ManifestReader} {kind : ManifestKind} {table : Option (List Char)} {number : Nat}
  {typed : TypedConstraint} {d : Dependency}

/-- The one entry at the end of a line is completed there. -/
theorem exists_completesTyped {before : List Char} (hpackage : kind.packageOf? table = none)
    (hdialect : d.dialect ∈ admittedDialects kind table)
    (hd : d ∈ d.dialect.parse reader.rule (before ++ typed.text) number ((Group.ofTable? table none).getD .main))
    (honly : ∀ dialect ∈ admittedDialects kind table, ∀ e ∈ dialect.parse reader.rule (before ++ typed.text)
        number ((Group.ofTable? table none).getD .main),
      e = d ∨ d.nameSpan.overlaps e.nameSpan = false ∧
        e.span.contains ((before ++ typed.text).length : Nat) = false)
    (hspan : d.span = ⟨before.length, typed.text.length⟩) (hconstraint : d.constraint = typed.text)
    (hoperator : typed.operator.isSome = true ∨ d.dialect = .poetryTable) :
    ∃ site, reader.completionSite? (before ++ typed.text) (before ++ typed.text).length number kind table
        = some site ∧ site.CompletesTyped d.name (before ++ typed.text) typed := by
  obtain ⟨site, hsite, hentry, hreplace, htyped, hneeds⟩ := typed.exists_completionSite? hspan hconstraint
  have hlength : typed.version.length ≤ (before ++ typed.text).length := by
    simp only [TypedConstraint.text, TypedConstraint.last, List.length_append]
    omega
  have hstop : site.replace.stop = (before ++ typed.text).length := by
    rw [hreplace]
    exact Nat.sub_add_cancel hlength
  refine ⟨site, ManifestReader.completionSite?_of_only hpackage hdialect hd honly hsite,
    by rw [hentry], hreplace, hstop, htyped, ?_⟩
  rw [hneeds]
  rcases hoperator with hsome | htable
  · rw [← Option.not_isSome, hsome]
    rfl
  · rw [htable]
    simp

/-- A requirement that is the only one of its line is completed at the end. -/
theorem exists_completesTyped_of_single {before : List Char} {r : Requirement} (dialect : Dialect)
    (hpackage : kind.packageOf? table = none) (hadmitted : admittedDialects kind table = [dialect])
    (hparse : dialect.parse reader.rule (before ++ typed.text) number ((Group.ofTable? table none).getD .main)
      = (r.toDependency? reader.rule dialect number ((Group.ofTable? table none).getD .main)).toList)
    (haccepts : reader.rule.accepts r.name = true) (hspan : r.span = ⟨before.length, typed.text.length⟩)
    (hconstraint : r.constraint = typed.text)
    (hoperator : typed.operator.isSome = true ∨ dialect = .poetryTable) :
    ∃ site, reader.completionSite? (before ++ typed.text) (before ++ typed.text).length number kind table
        = some site ∧ site.CompletesTyped r.name (before ++ typed.text) typed := by
  obtain ⟨d, hd⟩ : ∃ d, r.toDependency? reader.rule dialect number ((Group.ofTable? table none).getD .main)
      = some d := ⟨_, Requirement.toDependency?_eq_some_iff.mpr ⟨haccepts, rfl⟩⟩
  rw [hd, Option.toList_some] at hparse
  have hmem : d ∈ dialect.parse reader.rule (before ++ typed.text) number
      ((Group.ofTable? table none).getD .main) := by simp [hparse]
  have honly : ∀ other ∈ admittedDialects kind table, ∀ e ∈ other.parse reader.rule (before ++ typed.text) number
      ((Group.ofTable? table none).getD .main), e = d := by
    intro other hother e he
    rw [hadmitted, List.mem_singleton] at hother
    rwa [hother, hparse, List.mem_singleton] at he
  obtain ⟨-, rfl⟩ := Requirement.toDependency?_eq_some_iff.mp hd
  exact exists_completesTyped hpackage (by simp [hadmitted]) hmem
    (fun other hother e he => Or.inl (honly other hother e he)) hspan hconstraint hoperator

/-- Where the table is no table of packages both forms of strings are read, and in no table of a project the
lines of a requirements file are. -/
theorem mem_admittedDialects (htable : table.bind PoetryTable.ofTable? = none) :
    .array ∈ admittedDialects .pyproject table ∧ .poetryParentheses ∈ admittedDialects .pyproject table ∧
      .requirementsLine ∉ admittedDialects .pyproject table := by
  cases table with
  | none => decide
  | some name =>
      have hname : PoetryTable.ofTable? name = none := htable
      simp [admittedDialects, hname]

/-- The requirement of an open string is completed at its end. -/
theorem exists_completesTyped_of_open {front head : List Char} {quote : Char} {r : Requirement}
    (htable : table.bind PoetryTable.ofTable? = none) (hopen : OpensElement front quote)
    (hline : '\n' ∉ front ++ quote :: (head ++ typed.text)) (hhead : ∀ c ∈ head, isQuote c = false)
    (hread : Requirement.read? (head ++ typed.text) (front.length + 1) = some r ∨
      Requirement.readParenthesized? (head ++ typed.text) (front.length + 1) = some r)
    (haccepts : reader.rule.accepts r.name = true)
    (hspan : r.span = ⟨front.length + 1 + head.length, typed.text.length⟩)
    (hconstraint : r.constraint = typed.text) (htyped : typed.HasOperators) :
    ∃ site, reader.completionSite? (front ++ quote :: (head ++ typed.text))
        (front ++ quote :: (head ++ typed.text)).length number .pyproject table = some site ∧
      site.CompletesTyped r.name (front ++ quote :: (head ++ typed.text)) typed := by
  have hplain : ∀ c ∈ head ++ typed.text, isQuote c = false := by
    intro c hc
    rcases List.mem_append.mp hc with hc | hc
    · exact hhead c hc
    · exact (isPlain_of_isTableConstraint typed.isTableConstraint c hc).1
  have hpackage : ManifestKind.pyproject.packageOf? table = none := by
    rw [ManifestKind.packageOf?, htable]
    rfl
  obtain ⟨harray, hparentheses, hrequirements⟩ := mem_admittedDialects htable
  obtain ⟨dialect, hdialect, hstates⟩ : ∃ dialect ∈ admittedDialects .pyproject table,
      (⟨front.length + 1, head ++ typed.text, true⟩ : QuotedString).dependency? reader.rule number
          ((Group.ofTable? table none).getD .main)
        = some ⟨r.name, r.constraint, r.span, r.nameSpan, number, (Group.ofTable? table none).getD .main,
            dialect, r.extras⟩ := by
    rcases hread with hread | hread
    · refine ⟨.array, harray, QuotedString.dependency?_eq_some_iff.mpr (Or.inl ?_)⟩
      rw [QuotedString.plainDependency?, hread]
      exact Requirement.toDependency?_eq_some_iff.mpr ⟨haccepts, rfl⟩
    · refine ⟨.poetryParentheses, hparentheses, QuotedString.dependency?_eq_some_iff.mpr (Or.inr ?_)⟩
      rw [QuotedString.parenthesizedDependency?, hread]
      exact Requirement.toDependency?_eq_some_iff.mpr ⟨haccepts, rfl⟩
  have hsplit : front ++ quote :: (head ++ typed.text) = (front ++ quote :: head) ++ typed.text := by simp
  have hmem := mem_parse_of_open hline hopen hplain hstates
  have honly := fun (other : Dialect) (hother : other ∈ admittedDialects .pyproject table) (e : Dependency) he =>
    only_of_open (e := e) hline hopen hplain hstates (ne_of_mem_of_not_mem hother hrequirements) he
  rw [hsplit] at hmem honly ⊢
  refine exists_completesTyped hpackage hdialect hmem honly ?_ hconstraint (Or.inl htyped.1)
  have hlength : (front ++ quote :: head).length = front.length + 1 + head.length := by
    rw [List.length_append, List.length_cons]
    omega
  rw [hlength]
  exact hspan

theorem TypedHead.name_written {head : TypedHead} {rule : NameRule} (haccepts : rule.accepts head.name = true)
    (hline : '\n' ∉ head.text) : IsWrittenName head.name :=
  isWrittenName_of_accepts haccepts fun hmem => hline (by simp [text, hmem])

theorem exists_completesTyped_line {head : TypedHead} (htyped : typed.HasOperators)
    (haccepts : reader.rule.accepts head.name = true) (hline : '\n' ∉ head.text ++ typed.text) :
    ∃ site, reader.completionSite? (head.text ++ typed.text) (head.text ++ typed.text).length number .requirements
        table = some site ∧ site.CompletesTyped head.name (head.text ++ typed.text) typed := by
  have hname := TypedHead.name_written haccepts fun hmem => hline (by simp [hmem])
  refine exists_completesTyped_of_single .requirementsLine rfl rfl
    (TypedHead.requirementsDependencies_text reader.rule number _ hname htyped) haccepts ?_ rfl (Or.inl htyped.1)
  simp [TypedHead.form, RequirementForm.requirement, RequirementForm.head, TypedHead.text]

theorem exists_completesTyped_string {head : TypedHead} {front : List Char} {quote : Char}
    (htable : table.bind PoetryTable.ofTable? = none) (hopen : OpensElement front quote)
    (htyped : typed.HasOperators) (haccepts : reader.rule.accepts head.name = true)
    (hline : '\n' ∉ front ++ quote :: (head.text ++ typed.text)) :
    ∃ site, reader.completionSite? (front ++ quote :: (head.text ++ typed.text))
        (front ++ quote :: (head.text ++ typed.text)).length number .pyproject table = some site ∧
      site.CompletesTyped head.name (front ++ quote :: (head.text ++ typed.text)) typed := by
  have hname := TypedHead.name_written haccepts fun hmem => hline (by simp [hmem])
  have hread := (head.form typed hname htyped).read?_text (front.length + 1)
  rw [TypedHead.text_form] at hread
  refine exists_completesTyped_of_open htable hopen hline (fun _ => TypedHead.isQuote_of_mem_text hname)
    (Or.inl hread) haccepts ?_ rfl htyped
  simp [TypedHead.form, RequirementForm.requirement, RequirementForm.head, TypedHead.text]

theorem exists_completesTyped_parenthesis {head : TypedHead} {front lead : List Char} {quote : Char}
    (htable : table.bind PoetryTable.ofTable? = none) (hopen : OpensElement front quote) (hlead : IsBlankRun lead)
    (htyped : typed.HasOperators) (haccepts : reader.rule.accepts head.name = true)
    (hline : '\n' ∉ front ++ quote :: (head.text ++ '(' :: (lead ++ typed.text))) :
    ∃ site, reader.completionSite? (front ++ quote :: (head.text ++ '(' :: (lead ++ typed.text)))
        (front ++ quote :: (head.text ++ '(' :: (lead ++ typed.text))).length number .pyproject table = some site ∧
      site.CompletesTyped head.name (front ++ quote :: (head.text ++ '(' :: (lead ++ typed.text))) typed := by
  have hname := TypedHead.name_written haccepts fun hmem => hline (by simp [hmem])
  have hread := (head.parenthesizedForm typed hname hlead htyped).read?_text (front.length + 1)
  have hsplit : head.text ++ '(' :: (lead ++ typed.text) = (head.text ++ '(' :: lead) ++ typed.text := by simp
  rw [TypedHead.text_parenthesizedForm, hsplit] at hread
  rw [hsplit] at hline ⊢
  refine exists_completesTyped_of_open htable hopen hline ?_ (Or.inr hread) haccepts ?_ rfl htyped
  · intro c hc
    rcases List.mem_append.mp hc with hc | hc
    · exact TypedHead.isQuote_of_mem_text hname hc
    · rcases List.mem_cons.mp hc with rfl | hc
      · decide
      · exact (isPlain_of_isBlankRun hlead c hc).1
  · simp [TypedHead.parenthesizedForm, ParenthesizedForm.requirement, ParenthesizedForm.head,
      ParenthesizedForm.opening, TypedHead.text]

theorem exists_completesTyped_entry {key : KeyForm} {shape : TableShape} {group : Group} {lead : List Char}
    {quote : Char} (htable : table.bind PoetryTable.ofTable? = some ⟨group, none⟩)
    (hfree : reservedKeys.contains (asciiLower key.name) = false) (hquote : isQuote quote = true)
    (hlead : IsBlankRun lead) (haccepts : reader.rule.accepts key.name = true)
    (hline : '\n' ∉ key.text ++ shape.opening ++ quote :: (lead ++ typed.text)) :
    ∃ site, reader.completionSite? (key.text ++ shape.opening ++ quote :: (lead ++ typed.text))
        (key.text ++ shape.opening ++ quote :: (lead ++ typed.text)).length number .pyproject table = some site ∧
      site.CompletesTyped key.name (key.text ++ shape.opening ++ quote :: (lead ++ typed.text)) typed := by
  have htext := text_typedEntry key shape typed hquote hlead
  have hcode : codePart (key.text ++ shape.opening ++ quote :: (lead ++ typed.text))
      = (key.typedEntry shape typed hquote hlead).text := by
    rw [htext]
    refine codePart_open (key.isCode_text.append TableShape.isCode_opening) hquote fun hmem => ?_
    rcases List.mem_append.mp hmem with hmem | hmem
    · exact hlead.notMem (isBlank_of_isQuote hquote) hmem
    · exact notMem_of_isTableConstraint typed.isTableConstraint (isTableChar_of_isQuote hquote) hmem
  have hparse := tableDependencies_text reader.rule number ((Group.ofTable? table none).getD .main)
    (key.typedEntry shape typed hquote hlead) hcode (by rwa [htext]) hfree
  have hsplit : key.text ++ shape.opening ++ quote :: (lead ++ typed.text)
      = (key.text ++ shape.opening ++ quote :: lead) ++ typed.text := by simp
  rw [hsplit] at hparse ⊢
  refine exists_completesTyped_of_single .poetryTable ?_ ?_ hparse haccepts ?_ rfl (Or.inr rfl)
  · rw [ManifestKind.packageOf?, htable]
    rfl
  · cases htableName : table with
    | none =>
        rw [htableName] at htable
        cases htable
    | some name =>
        have hname : PoetryTable.ofTable? name = some ⟨group, none⟩ := by simpa [htableName] using htable
        simp [admittedDialects, hname]
  · rfl

end Complete

/-- **Half-typed entries are completed.** With the cursor behind an entry that is being typed, whatever of its
constraint is there yet, the completion is for the package that is named there. It replaces what is typed of the
last version, and needs no operator. -/
theorem completionSite?_of_isHalfTyped (reader : ManifestReader) (number : Nat) {kind : ManifestKind}
    {table : Option (List Char)} {name line : List Char} {typed : TypedConstraint}
    (h : IsHalfTyped kind table name typed line) (haccepts : reader.rule.accepts name = true)
    (hline : '\n' ∉ line) :
    ∃ site, reader.completionSite? line line.length number kind table = some site ∧
      site.CompletesTyped name line typed := by
  cases h with
  | requirementsLine head htyped => exact exists_completesTyped_line htyped haccepts hline
  | arrayString head htable hopen htyped =>
      exact exists_completesTyped_string htable hopen htyped haccepts hline
  | parenthesized head htable hopen hlead htyped =>
      exact exists_completesTyped_parenthesis htable hopen hlead htyped haccepts hline
  | tableEntry key shape htable hfree hquote hlead =>
      exact exists_completesTyped_entry htable hfree hquote hlead haccepts hline

/-- The second of two constraints in a parenthesis that is open, in an array that is open. -/
theorem completionSite?_of_isHalfTyped_range :
    ∃ site, ManifestReader.standard.completionSite? "deps = ['requests (>=2.0, <3".toList 28 4 .pyproject none
        = some site ∧ site.dependency.name = "requests".toList ∧ site.replace = ⟨27, 1⟩ ∧
      site.typed = "3".toList ∧ site.needsOperator = false := by
  have hblank : IsBlankRun [' '] := by
    unfold IsBlankRun
    decide
  let head : TypedHead := ⟨[], "requests".toList, none, [' '], isBlankRun_nil, by simp, hblank⟩
  let piece : FinishedPiece := ⟨some (.standard .atLeast), [], "2.0".toList, [], [' '], isBlankRun_nil,
    fun _ => rfl, ⟨'2', _, rfl, Or.inl (by decide)⟩, by decide, isBlankRun_nil, hblank⟩
  let typed : TypedConstraint := ⟨[piece], some (.standard .below), [], "3".toList, isBlankRun_nil, fun _ => rfl,
    Or.inr ⟨⟨'3', _, rfl, by decide⟩, by decide⟩, fun _ => rfl, fun h => by cases h⟩
  have htyped : typed.HasOperators := ⟨rfl, by simp [typed, piece]⟩
  have haccepts : NameRule.standard.accepts "requests".toList = true := by decide
  have hfront : OpensElement "deps = [".toList '\'' :=
    ⟨IsCode.of_isPlain (by unfold IsPlain; decide), by decide, by decide⟩
  have hhalf : IsHalfTyped .pyproject none "requests".toList typed "deps = ['requests (>=2.0, <3".toList :=
    @IsHalfTyped.parenthesized none typed _ [] _ head rfl hfront isBlankRun_nil htyped
  obtain ⟨site, hsite, hcompletes⟩ :=
    completionSite?_of_isHalfTyped ManifestReader.standard 4 hhalf haccepts (by decide)
  exact ⟨site, hsite, hcompletes.name_eq, hcompletes.replace_eq, hcompletes.typed_eq, hcompletes.has_operator⟩

end ManifestLens
