import ManifestLens.Manifest.Line
import ManifestLens.Proofs.Manifest.ArrayLine
import ManifestLens.Proofs.Manifest.PoetryTable
import ManifestLens.Proofs.Manifest.RequirementsLine

/-!
# The columns that a dialect reports

A dialect finds a requirement in the part of a line that it reads, and reports two spans. Here it is shown
of each dialect that the part has the key at the one span and the constraint at the other, whatever the
characters of the line: a line feed in it may cut a string short, but moves no column.

The readers compute their columns from the lengths of what they took off. A proof that these sums are right
does not redo them: it splits the text where the reader did, and the columns are then the lengths of what
stands before the pieces.
-/

namespace ManifestLens

open Text

/-- The characters that end a constraint wherever they stand: quotes and brackets of every kind, and what
opens a marker, a comment, a reference or a continued line. -/
def delimiters : List Char :=
  ['"', '\'', '#', ';', '@', '\\', '[', ']', '(', ')', '\x7b', '\x7d']

/-- A requirement and the part of a line that states it: the part has the key and, behind it, the
constraint. -/
structure Requirement.StatedIn (part key : List Char) (r : Requirement) : Prop where
  named : r.nameSpan.Covers part key
  key_ne_nil : key ≠ []
  covers : r.span.Covers part r.constraint
  ordered : r.nameSpan.stop ≤ r.span.start
  trimmed : IsTrimmed r.constraint
  undelimited : ∀ c ∈ r.constraint, c ∉ delimiters

theorem isTableChar_of_mem_delimiters {c : Char} (h : c ∈ delimiters) : isTableChar c = false := by
  revert c
  decide

theorem IsTableConstraint.undelimited {text : List Char} (h : IsTableConstraint text) :
    ∀ c ∈ text, c ∉ delimiters := by
  intro c hc hmem
  exact notMem_of_isTableConstraint h (isTableChar_of_mem_delimiters hmem) hc

theorem IsConstraintText.undelimited {text : List Char} (h : IsConstraintText text) :
    ∀ c ∈ text, c ∉ delimiters := by
  intro c hc hmem
  have htable := isTableChar_of_mem_delimiters hmem
  simp [isTableChar, h.all c hc] at htable

namespace Requirement

theorem PlacedIn.statedIn {content : List Char} {r : Requirement} (h : r.PlacedIn content) :
    r.StatedIn content r.name where
  named := h.name
  key_ne_nil := h.name_ne_nil
  covers := h.constraint
  ordered := h.ordered
  trimmed := h.constraint_text.trimmed
  undelimited := h.constraint_text.undelimited

/-- Where the part stands within a longer one decides the columns and nothing else. -/
theorem StatedIn.append {part key : List Char} {r : Requirement} (h : r.StatedIn part key)
    (before after : List Char) :
    (r.moved before.length).StatedIn (before ++ part ++ after) key where
  named := h.named.append before after
  key_ne_nil := h.key_ne_nil
  covers := h.covers.append before after
  ordered := by
    have := h.ordered
    simp only [moved, Span.moved, Span.stop] at this ⊢
    omega
  trimmed := h.trimmed
  undelimited := h.undelimited

end Requirement

/-! ### Strings -/

namespace QuotedString

/-- A string that is read from a point on either starts behind it or was open there. The induction is on the
text; a string that was open goes on with its first characters. -/
theorem exists_of_mem_scan {column : Nat} {last : Option Char} {current : Option Partial}
    {text : List Char} {s : QuotedString} (h : s ∈ scan column last current text) :
    (∃ before after, text = before ++ s.content ++ after ∧ s.column = column + before.length) ∨
      ∃ p, current = some p ∧ ∃ more after, text = more ++ after ∧
        s.content = p.reversed.reverse ++ more ∧ s.column = p.column := by
  induction text generalizing column last current with
  | nil =>
      obtain ⟨p, hp, rfl⟩ : ∃ p, current = some p ∧ p.close = s := by
        simpa [scan, Option.map_eq_some_iff] using h
      exact Or.inr ⟨p, hp, [], [], rfl, by simp [Partial.close], rfl⟩
  | cons c rest ih =>
      -- A string that starts behind the next character starts behind this one.
      have hbehind : ∀ {before after : List Char}, rest = before ++ s.content ++ after →
          s.column = column + 1 + before.length →
          ∃ before after, c :: rest = before ++ s.content ++ after ∧
            s.column = column + before.length := by
        intro before after hrest hcolumn
        refine ⟨c :: before, after, by simp [hrest], ?_⟩
        rw [hcolumn, List.length_cons]
        omega
      cases current with
      | none =>
          simp only [scan] at h
          rcases ih h with ⟨before, after, hrest, hcolumn⟩ | ⟨p, hp, more, after, hrest, hcontent, hcolumn⟩
          · exact Or.inl (hbehind hrest hcolumn)
          · split at hp
            · obtain rfl := Option.some.inj hp
              refine Or.inl (hbehind (show rest = [] ++ s.content ++ after from ?_) (by simp [hcolumn]))
              rw [hcontent, hrest]
              simp
            · cases hp
      | some p =>
          simp only [scan] at h
          split at h
          · rcases List.mem_cons.mp h with rfl | h
            · exact Or.inr ⟨p, rfl, [], c :: rest, rfl, by simp [Partial.close], rfl⟩
            · rcases ih h with ⟨before, after, hrest, hcolumn⟩ | ⟨p', hp', -⟩
              · exact Or.inl (hbehind hrest hcolumn)
              · cases hp'
          · rcases ih h with ⟨before, after, hrest, hcolumn⟩ | ⟨p', hp', more, after, hrest, hcontent, hcolumn⟩
            · exact Or.inl (hbehind hrest hcolumn)
            · obtain rfl := Option.some.inj hp'
              exact Or.inr ⟨p, rfl, c :: more, after, by simp [hrest], by simp [hcontent], hcolumn⟩

/-- Every string of a line stands before its comment, at its column. -/
theorem exists_of_mem_ofLine {line : List Char} {s : QuotedString} (h : s ∈ ofLine line) :
    ∃ before after, codePart line = before ++ s.content ++ after ∧ s.column = before.length := by
  rcases exists_of_mem_scan h with ⟨before, after, hcode, hcolumn⟩ | ⟨p, hp, -⟩
  · exact ⟨before, after, hcode, by simpa using hcolumn⟩
  · cases hp

theorem statedIn_of_mem {line : List Char} {s : QuotedString} (hs : s ∈ elementsOfLine line)
    {r : Requirement} (h : r.PlacedIn s.content) :
    (r.moved s.column).StatedIn (codePart line) r.name := by
  obtain ⟨before, after, hcode, hcolumn⟩ := exists_of_mem_ofLine (List.mem_filter.mp hs).1
  rw [hcode, hcolumn]
  exact h.statedIn.append before after

end QuotedString

/-! ### Entries of a table -/

theorem KeyForm.name_ne_nil (form : KeyForm) : form.name ≠ [] := by
  cases hquote : form.quote with
  | none => exact (form.bare_name hquote).ne_nil
  | some q => exact (form.quoted_name q hquote).2.1

/-- A key that is read, by the text it was read from. -/
theorem exists_key_parts {code : List Char} {key : TableKey} (h : TableKey.read? code = some key) :
    ∃ form : KeyForm, code = form.text ++ key.value ∧ key.name = form.name ∧
      key.valueColumn = form.text.length ∧ key.span = (form.key key.value).span := by
  obtain ⟨form, hcode, hkey, -⟩ := exists_keyForm h
  refine ⟨form, hcode, ?_, ?_, ?_⟩
  all_goals
    rw [hkey]
    rfl

section Entry

variable {key : KeyForm} {value name : List Char} {span : Span}

/-- A string value stands behind the key. -/
theorem exists_of_stringValue? (h : stringValue? key.text.length value = some span) :
    ∃ word, span.Covers (key.text ++ value) word ∧ key.text.length ≤ span.start := by
  cases value with
  | nil => cases h
  | cons quote body =>
      simp only [stringValue?] at h
      split at h
      · obtain rfl := Option.some.inj h
        obtain ⟨content, rest, rfl, htake, -⟩ := exists_string_parts quote body
        refine ⟨content, ⟨key.text ++ [quote], rest, by simp, ?_⟩, Nat.le_succ _⟩
        rw [htake, List.length_append, List.length_singleton]
      · cases h

/-- The version string of an inline table stands behind the key. It ends at a line feed, if there is one
before its quote. -/
theorem exists_of_statedVersion? (h : statedVersion? value key.text.length = some span) :
    ∃ word, span.Covers (key.text ++ value) word ∧ key.text.length ≤ span.start := by
  obtain ⟨opening, quote, body, rfl, -, -, rfl⟩ := exists_field_of_statedVersion? h
  obtain ⟨content, rest, rfl, -, -, htake, -⟩ :=
    exists_run (fun c => some c != some quote && c != '\n') body
  refine ⟨content, ⟨key.text ++ opening ++ [quote], rest, by simp, ?_⟩, ?_⟩
  · rw [htake]
    simp only [List.length_append, List.length_singleton, Span.mk.injEq, and_true]
    omega
  · exact Nat.le_trans (Nat.le_add_left _ opening.length) (Nat.le_succ _)

/-- What a span behind the key covers is the constraint of the entry, less the blanks around it. -/
theorem statedIn_of_tableRequirement? {word : List Char} {extras : List (List Char)}
    {found : Requirement} (hcovers : span.Covers (key.text ++ value) word)
    (hbehind : key.text.length ≤ span.start)
    (h : tableRequirement? (key.text ++ value) name (key.key value).span extras span = some found) :
    found.StatedIn (key.text ++ value) key.name ∧ found.name = name := by
  obtain ⟨before, after, hcode, rfl⟩ := hcovers
  rw [hcode] at h ⊢
  obtain ⟨lead, constraint, trail, rfl, -, hconstraint, -, -, rfl⟩ := exists_of_tableRequirement? h
  refine ⟨⟨?_, key.name_ne_nil, ⟨before ++ lead, trail ++ after, by simp, by simp⟩, ?_,
    hconstraint.trimmed, hconstraint.undelimited⟩, rfl⟩
  · rw [← hcode]
    refine ⟨key.indent ++ key.quote.toList,
      key.quote.toList ++ key.before ++ '=' :: key.after ++ value, ?_, ?_⟩
    · simp [KeyForm.text, KeyForm.keyText]
    · simp [KeyForm.key]
  · simp only [KeyForm.key, Span.stop, KeyForm.text, KeyForm.keyText, List.length_append] at hbehind ⊢
    omega

end Entry

theorem statedIn_of_entryOfTable? {code : List Char} {found : Requirement}
    (h : entryOfTable? code = some found) : found.StatedIn code found.name := by
  rw [entryOfTable?] at h
  obtain ⟨key, hkey, hentry⟩ := Option.bind_eq_some_iff.mp h
  obtain ⟨form, hcode, hname, hstart, hspan⟩ := exists_key_parts hkey
  simp only [hname, hstart, hspan] at hentry
  rw [hcode] at hentry ⊢
  obtain ⟨span, extras, word, hcovers, hbehind, hrequirement⟩ : ∃ span extras word,
      span.Covers (form.text ++ key.value) word ∧ form.text.length ≤ span.start ∧
      tableRequirement? (form.text ++ key.value) form.name (form.key key.value).span extras span
        = some found := by
    split at hentry
    · cases hentry
    · split at hentry
      · next span hstring =>
          obtain ⟨word, hcovers, hbehind⟩ := exists_of_stringValue? hstring
          exact ⟨span, [], word, hcovers, hbehind, hentry⟩
      · split at hentry
        · obtain ⟨span, hversion, hrequirement⟩ := Option.bind_eq_some_iff.mp hentry
          obtain ⟨word, hcovers, hbehind⟩ := exists_of_statedVersion? hversion
          exact ⟨span, _, word, hcovers, hbehind, hrequirement⟩
        · cases hentry
  obtain ⟨hstated, hfound⟩ := statedIn_of_tableRequirement? hcovers hbehind hrequirement
  rw [hfound]
  exact hstated

/-! ### Dialects -/

/-- The part of a line that a dialect reads. -/
def Dialect.readPart (dialect : Dialect) (line : List Char) : List Char :=
  match dialect with
  | .requirementsLine => requirementPart line
  | _ => codePart line

/-- A dependency and the part of a line that states it, where the rule accepts its name. -/
structure Dependency.StatedIn (rule : NameRule) (number : Nat) (part key : List Char)
    (d : Dependency) : Prop where
  line : d.line = number
  accepted : rule.accepts d.name = true
  named : d.nameSpan.Covers part key
  key_ne_nil : key ≠ []
  covers : d.span.Covers part d.constraint
  ordered : d.nameSpan.stop ≤ d.span.start
  trimmed : IsTrimmed d.constraint
  undelimited : ∀ c ∈ d.constraint, c ∉ delimiters

theorem Dependency.StatedIn.length_pos {rule : NameRule} {number : Nat} {part key : List Char}
    {d : Dependency} (h : d.StatedIn rule number part key) : 0 < d.nameSpan.length := by
  obtain ⟨before, after, -, hspan⟩ := h.named
  rw [hspan]
  exact List.length_pos_iff.mpr h.key_ne_nil

section Dialects

variable {rule : NameRule} {text : List Char} {number : Nat} {group : Group} {d : Dependency}

theorem Requirement.StatedIn.dependency {part key : List Char} {r : Requirement} {dialect : Dialect}
    (h : r.StatedIn part key) (hd : r.toDependency? rule dialect number group = some d) :
    d.StatedIn rule number part key ∧ d.name = r.name := by
  obtain ⟨haccepted, rfl⟩ := toDependency?_eq_some_iff.mp hd
  exact ⟨⟨rfl, haccepted, h.named, h.key_ne_nil, h.covers, h.ordered, h.trimmed, h.undelimited⟩, rfl⟩

theorem statedIn_of_mem_arrayDependencies (h : d ∈ arrayDependencies rule text number group) :
    d.StatedIn rule number (codePart text) d.name := by
  obtain ⟨s, hs, hentry⟩ := List.mem_filterMap.mp h
  obtain ⟨r, hread, hd⟩ := Option.bind_eq_some_iff.mp hentry
  rw [Requirement.read?_eq_moved] at hread
  obtain ⟨r, hplain, rfl⟩ := Option.map_eq_some_iff.mp hread
  have hstated := QuotedString.statedIn_of_mem hs (Requirement.placedIn_of_read? hplain)
  obtain ⟨hd, hname⟩ := hstated.dependency hd
  rw [hname]
  exact hd

theorem statedIn_of_mem_parenthesizedDependencies
    (h : d ∈ parenthesizedDependencies rule text number group) :
    d.StatedIn rule number (codePart text) d.name := by
  obtain ⟨s, hs, hentry⟩ := List.mem_filterMap.mp h
  obtain ⟨r, hread, hd⟩ := Option.bind_eq_some_iff.mp hentry
  rw [Requirement.readParenthesized?_eq_moved] at hread
  obtain ⟨r, hplain, rfl⟩ := Option.map_eq_some_iff.mp hread
  have hstated := QuotedString.statedIn_of_mem hs (Requirement.placedIn_of_readParenthesized? hplain)
  obtain ⟨hd, hname⟩ := hstated.dependency hd
  rw [hname]
  exact hd

theorem statedIn_of_mem_tableDependencies (h : d ∈ tableDependencies rule text number group) :
    d.StatedIn rule number (codePart text) d.name := by
  rw [tableDependencies, Option.mem_toList] at h
  obtain ⟨found, hfound, hd⟩ := Option.bind_eq_some_iff.mp h
  obtain ⟨hd, hname⟩ := (statedIn_of_entryOfTable? hfound).dependency hd
  rw [hname]
  exact hd

theorem statedIn_of_mem_requirementsDependencies
    (h : d ∈ requirementsDependencies rule text number group) :
    d.StatedIn rule number (requirementPart text) d.name := by
  obtain ⟨form, hpart, -, -, hd⟩ := exists_of_mem_requirementsDependencies h
  obtain ⟨hd, hname⟩ := form.placedIn.statedIn.dependency hd
  rw [hpart, hname]
  exact hd

/-- **Every dialect** reports columns at which its part of the line has the name and the constraint. -/
theorem statedIn_of_mem_parse {dialect : Dialect} (h : d ∈ dialect.parse rule text number group) :
    d.StatedIn rule number (dialect.readPart text) d.name := by
  cases dialect with
  | array => exact statedIn_of_mem_arrayDependencies h
  | poetryTable => exact statedIn_of_mem_tableDependencies h
  | poetryParentheses => exact statedIn_of_mem_parenthesizedDependencies h
  | requirementsLine => exact statedIn_of_mem_requirementsDependencies h

theorem statedIn_of_versionKeyDependency? {package : List Char}
    (h : versionKeyDependency? rule text package number group = some d) :
    d.StatedIn rule number (codePart text) "version".toList ∧ d.name = package := by
  rw [versionKeyDependency?] at h
  obtain ⟨key, hkey, hentry⟩ := Option.bind_eq_some_iff.mp h
  obtain ⟨form, hcode, hname, hstart, hspan⟩ := exists_key_parts hkey
  simp only [hname, hstart, hspan] at hentry
  split at hentry
  · next hversion =>
      rw [Bool.and_eq_true, decide_eq_true_eq] at hversion
      obtain ⟨span, hstring, hrest⟩ := Option.bind_eq_some_iff.mp hentry
      obtain ⟨found, hfound, hd⟩ := Option.bind_eq_some_iff.mp hrest
      obtain ⟨word, hcovers, hbehind⟩ := exists_of_stringValue? hstring
      rw [hcode] at hfound ⊢
      obtain ⟨hstated, hpackage⟩ := statedIn_of_tableRequirement? hcovers hbehind hfound
      rw [hversion.2] at hstated
      obtain ⟨hd, hname⟩ := hstated.dependency hd
      exact ⟨hd, hname.trans hpackage⟩
  · cases hentry

end Dialects

end ManifestLens
