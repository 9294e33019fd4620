import ManifestLens.Proofs.Manifest.Span
import ManifestLens.Proofs.Text.Trim

/-!
# The written form of a requirement

A requirement is read by taking off one part after another. Here the parts are put side by side: a
`RequirementForm` is a text cut into indentation, name, extras, constraint and marker, and the reader
finds exactly the requirement that such a form states. The two directions together say that the reader
accepts the written forms and nothing else, and they let a later proof replace one part of a text and
know what the reader makes of the rest.
-/

namespace ManifestLens

open Text

/-- A name as the readers take it from a line: name characters, of which the first is a letter or a
digit. -/
structure IsWrittenName (name : List Char) : Prop where
  head : ∃ first rest, name = first :: rest ∧ isAsciiAlnum first = true
  all : ∀ c ∈ name, Package.isNameChar c = true

theorem IsWrittenName.ne_nil {name : List Char} (h : IsWrittenName name) : name ≠ [] := by
  obtain ⟨first, rest, rfl, -⟩ := h.head
  simp

theorem IsWrittenName.headNot_isBlank {name : List Char} (h : IsWrittenName name) :
    HeadNot isBlank name := by
  obtain ⟨first, rest, rfl, -⟩ := h.head
  exact headNot_cons.mpr (isBlank_of_isNameChar (h.all first (by simp)))

theorem IsWrittenName.read?_leadingName {indent name rest : List Char} (h : IsWrittenName name)
    (hindent : IsBlankRun indent) (hrest : HeadNot Package.isNameChar rest) :
    LeadingName.read? (indent ++ (name ++ rest)) = some ⟨indent.length, name, rest⟩ := by
  have hhead : HeadNot isBlank (name ++ rest) := h.headNot_isBlank.append fun hnil => absurd hnil h.ne_nil
  obtain ⟨first, more, hname, hfirst⟩ := h.head
  rw [LeadingName.read?, takeWhile_blank hindent hhead]
  simp only [List.drop_left]
  rw [takeWhile_run h.all hrest]
  simp [hname, hfirst]

/-- What a requirement may state as its constraint: nothing, or an operator constraint that no blanks
surround. -/
structure IsConstraintText (text : List Char) : Prop where
  trimmed : IsTrimmed text
  valid : text ≠ [] → isOperatorConstraint text = true

theorem isConstraintText_nil : IsConstraintText [] := ⟨isTrimmed_nil, fun h => absurd rfl h⟩

/-- A constraint that is not empty starts with an operator character. -/
theorem IsConstraintText.exists_head {text : List Char} (h : IsConstraintText text)
    (hne : text ≠ []) : ∃ c rest, text = c :: rest ∧ isOperatorStart c = true ∧
      ∀ x ∈ rest, isConstraintChar x = true := by
  cases text with
  | nil => exact absurd rfl hne
  | cons c rest =>
      have hvalid := h.valid hne
      simp only [isOperatorConstraint, Bool.and_eq_true, List.all_eq_true] at hvalid
      exact ⟨c, rest, rfl, hvalid.1, hvalid.2⟩

theorem isConstraintChar_of_isOperatorStart {c : Char} (h : isOperatorStart c = true) :
    isConstraintChar c = true := by
  rcases isOperatorStart_iff.mp h with rfl | rfl | rfl | rfl | rfl | rfl <;> decide

theorem IsConstraintText.all {text : List Char} (h : IsConstraintText text) :
    ∀ c ∈ text, isConstraintChar c = true := by
  intro x hx
  obtain ⟨c, rest, rfl, hc, hrest⟩ := h.exists_head (List.ne_nil_of_mem hx)
  rcases List.mem_cons.mp hx with rfl | hx
  · exact isConstraintChar_of_isOperatorStart hc
  · exact hrest x hx

theorem IsConstraintText.headNot_isNameChar {text : List Char} (h : IsConstraintText text) :
    HeadNot Package.isNameChar text := by
  by_cases hne : text = []
  · subst hne
    exact headNot_nil
  · obtain ⟨c, rest, rfl, hc, -⟩ := h.exists_head hne
    exact headNot_cons.mpr (isOperatorStart_excludes hc).2.1

theorem semicolon_notMem_of_isConstraintText {text : List Char} (h : IsConstraintText text) :
    ';' ∉ text := by
  intro hmem
  have := h.all ';' hmem
  revert this
  decide

/-! ### Extras -/

/-- The extras of a requirement as written, with the blanks before the bracket. -/
structure ExtrasForm where
  gap : List Char
  inner : List Char
  isClosed : Bool
  gap_blank : IsBlankRun gap
  inner_open : ']' ∉ inner

namespace ExtrasForm

def text (form : ExtrasForm) : List Char :=
  form.gap ++ '[' :: form.inner ++ (if form.isClosed then [']'] else [])

theorem headNot_isNameChar (form : ExtrasForm) : HeadNot Package.isNameChar form.text := by
  intro c hc
  cases hgap : form.gap with
  | nil =>
      simp only [text, hgap, List.nil_append, List.cons_append, List.head?_cons,
        Option.some.injEq] at hc
      subst hc
      decide
  | cons d rest =>
      simp only [text, hgap, List.cons_append, List.head?_cons, Option.some.injEq] at hc
      subst hc
      exact isNameChar_of_isBlank (form.gap_blank d (by simp [hgap]))

theorem read?_text (form : ExtrasForm) (rest : List Char) (hopen : form.isClosed = false → rest = []) :
    Bracketed.read? (form.text ++ rest)
      = some ⟨form.text.length, form.inner, form.isClosed, rest⟩ := by
  have hinner : ∀ c ∈ form.inner, (c != ']') = true := by
    intro c hc
    simp only [bne_iff_ne, ne_eq]
    rintro rfl
    exact form.inner_open hc
  have hblank : HeadNot isBlank ('[' :: (form.inner ++ ((if form.isClosed then [']'] else [])
      ++ rest))) := headNot_cons.mpr (by decide)
  have htext : form.text ++ rest
      = form.gap ++ '[' :: (form.inner ++ ((if form.isClosed then [']'] else []) ++ rest)) := by
    simp [text]
  rw [htext, Bracketed.read?, takeWhile_blank form.gap_blank hblank]
  simp only [List.drop_left]
  cases hclosed : form.isClosed with
  | true =>
      have htake : (form.inner ++ ([']'] ++ rest)).takeWhile (· != ']') = form.inner :=
        takeWhile_run hinner (headNot_cons.mpr (by decide))
      simp only [if_true, htake, List.drop_left]
      simp [text, hclosed]
      omega
  | false =>
      have hrest : rest = [] := hopen hclosed
      subst hrest
      have htake : form.inner.takeWhile (· != ']') = form.inner := takeWhile_all hinner
      simp [htake, text, hclosed]
      omega

end ExtrasForm

theorem Bracketed.read?_eq_none {gap rest : List Char} (hgap : IsBlankRun gap)
    (hrest : HeadNot isBlank rest) (hhead : rest.head? ≠ some '[') :
    Bracketed.read? (gap ++ rest) = none := by
  rw [Bracketed.read?, takeWhile_blank hgap hrest]
  simp only [List.drop_left]
  cases rest with
  | nil => rfl
  | cons c rest =>
      split
      · next body heq =>
          cases heq
          simp at hhead
      · rfl

/-- Extras are read only where some are written. -/
theorem exists_extrasForm {content : List Char} {found : Bracketed}
    (h : Bracketed.read? content = some found) :
    ∃ form : ExtrasForm, content = form.text ++ found.rest ∧
      found = ⟨form.text.length, form.inner, form.isClosed, found.rest⟩ ∧
      (form.isClosed = false → found.rest = []) := by
  obtain ⟨gap, rest, rfl, hgap, hrest, htake, hdrop⟩ := exists_run isBlank content
  rw [Bracketed.read?, htake] at h
  simp only [hdrop] at h
  cases rest with
  | nil => simp at h
  | cons c body =>
      by_cases hc : c = '['
      · subst hc
        obtain ⟨inner, after, rfl, hinner, hafter, htakeInner, hdropInner⟩ :=
          exists_run (· != ']') body
        have hopen : ']' ∉ inner := fun hmem => by simpa using hinner ']' hmem
        simp only [htakeInner, hdropInner] at h
        cases after with
        | nil =>
            simp only [Option.some.injEq] at h
            subst h
            refine ⟨⟨gap, inner, false, hgap, hopen⟩, by simp [ExtrasForm.text], ?_, by simp⟩
            simp [ExtrasForm.text]
            omega
        | cons d after =>
            have hd : d = ']' := by
              simpa using headNot_cons.mp hafter
            subst hd
            simp only [Option.some.injEq] at h
            subst h
            refine ⟨⟨gap, inner, true, hgap, hopen⟩, by simp [ExtrasForm.text], ?_, by simp⟩
            simp [ExtrasForm.text]
            omega
      · split at h
        · next heq =>
            cases heq
            exact absurd rfl hc
        · cases h

/-! ### Requirements -/

/-- The extras between an optional bracket, as a text and as a list. -/
def bracketText (bracket : Option ExtrasForm) : List Char := (bracket.map ExtrasForm.text).getD []

section Brackets

variable (bracket : Option ExtrasForm) (isClosed : ExtrasForm → Bool) (after : List Char)

theorem rest_bracket : ((bracket.map fun b => (⟨b.text.length, b.inner, isClosed b, after⟩ : Bracketed)).map
    Bracketed.rest).getD (bracketText bracket ++ after) = after := by
  cases bracket <;> simp [bracketText]

theorem length_bracket : ((bracket.map fun b => (⟨b.text.length, b.inner, isClosed b, after⟩ : Bracketed)).map
    Bracketed.length).getD 0 = (bracketText bracket).length := by
  cases bracket <;> simp [bracketText]

theorem extras_bracket : ((bracket.map fun b => (⟨b.text.length, b.inner, isClosed b, after⟩ : Bracketed)).map
    fun b => extrasOf b.inner).getD [] = (bracket.map fun b => extrasOf b.inner).getD [] := by
  cases bracket <;> simp

end Brackets

/-- What is read of the extras behind a name is written there. -/
theorem exists_bracketText (text : List Char) : ∃ (bracket : Option ExtrasForm) (after : List Char),
    text = bracketText bracket ++ after ∧
      (∀ form, bracket = some form → form.isClosed = false → after = []) ∧
      Bracketed.read? text = bracket.map fun b => ⟨b.text.length, b.inner, b.isClosed, after⟩ := by
  cases hbracket : Bracketed.read? text with
  | none => exact ⟨none, text, rfl, by simp, rfl⟩
  | some found =>
      obtain ⟨form, htext, hfound, hclosed⟩ := exists_extrasForm hbracket
      refine ⟨some form, found.rest, htext, ?_, by rw [hfound]; rfl⟩
      rintro _ ⟨rfl⟩ hform
      exact hclosed hform

def markerText : Option (List Char) → List Char
  | none => []
  | some marker => ';' :: marker

/-- A requirement taken apart. The parts are separated by blanks that belong to none of them; a
requirement without a constraint has all its blanks in `trail`, and behind a bracket left open there
is nothing. -/
structure RequirementForm where
  indent : List Char
  name : List Char
  bracket : Option ExtrasForm
  gap : List Char
  constraint : List Char
  trail : List Char
  /-- What follows the semicolon, if there is one. -/
  marker : Option (List Char)
  indent_blank : IsBlankRun indent
  name_written : IsWrittenName name
  gap_blank : IsBlankRun gap
  constraint_text : IsConstraintText constraint
  trail_blank : IsBlankRun trail
  gap_of_bare : constraint = [] → gap = []
  nothing_after_open : ∀ form, bracket = some form → form.isClosed = false →
    gap = [] ∧ constraint = [] ∧ trail = [] ∧ marker = none

namespace RequirementForm

/-- What stands before the constraint. -/
def head (form : RequirementForm) : List Char :=
  form.indent ++ form.name ++ bracketText form.bracket ++ form.gap

/-- What stands behind the constraint. -/
def tail (form : RequirementForm) : List Char := form.trail ++ markerText form.marker

def text (form : RequirementForm) : List Char := form.head ++ form.constraint ++ form.tail

/-- The requirement that the form states when its text starts at a column. -/
def requirement (form : RequirementForm) (offset : Nat) : Requirement where
  name := form.name
  nameSpan := ⟨offset + form.indent.length, form.name.length⟩
  extras := (form.bracket.map fun b => extrasOf b.inner).getD []
  constraint := form.constraint
  span := ⟨offset + form.head.length, form.constraint.length⟩

/-- The form with another constraint, which is not empty. Its bracket has to be closed, since nothing can
follow an open one. -/
def withConstraint (form : RequirementForm) (constraint : List Char)
    (hconstraint : IsConstraintText constraint) (hne : constraint ≠ [])
    (hclosed : ∀ b, form.bracket = some b → b.isClosed = true) : RequirementForm :=
  { form with
    constraint
    constraint_text := hconstraint
    gap_of_bare := fun h => absurd h hne
    nothing_after_open := fun b hb hopen => absurd (hclosed b hb) (by simp [hopen]) }

theorem headNot_isBlank_marker (marker : Option (List Char)) : HeadNot isBlank (markerText marker) := by
  cases marker with
  | none => exact headNot_nil
  | some marker => exact headNot_cons.mpr (by decide)

theorem headNot_isNameChar_of_isBlankRun {run : List Char} (h : IsBlankRun run) :
    HeadNot Package.isNameChar run := by
  intro c hc
  exact isNameChar_of_isBlank (h c (List.mem_of_head? hc))

/-- The name ends where the reader thinks it does: whatever part comes next, it does not start with a
name character. -/
theorem headNot_isNameChar_afterName (form : RequirementForm) :
    HeadNot Package.isNameChar
      (bracketText form.bracket ++ (form.gap ++ (form.constraint ++ form.tail))) := by
  have htail : HeadNot Package.isNameChar form.tail := by
    refine HeadNot.append (headNot_isNameChar_of_isBlankRun form.trail_blank) fun _ => ?_
    cases form.marker with
    | none => exact headNot_nil
    | some marker => exact headNot_cons.mpr (by decide)
  refine HeadNot.append ?_ fun _ =>
    HeadNot.append (headNot_isNameChar_of_isBlankRun form.gap_blank) fun _ =>
      HeadNot.append form.constraint_text.headNot_isNameChar fun _ => htail
  cases form.bracket with
  | none => exact headNot_nil
  | some bracket => exact bracket.headNot_isNameChar

theorem read?_leadingName (form : RequirementForm) :
    LeadingName.read? form.text = some ⟨form.indent.length, form.name,
      bracketText form.bracket ++ (form.gap ++ (form.constraint ++ form.tail))⟩ := by
  have htext : form.text = form.indent ++ (form.name ++
      (bracketText form.bracket ++ (form.gap ++ (form.constraint ++ form.tail)))) := by
    simp [text, head]
  rw [htext]
  exact form.name_written.read?_leadingName form.indent_blank form.headNot_isNameChar_afterName

theorem takeWhile_afterHead (form : RequirementForm) :
    (form.gap ++ (form.constraint ++ form.tail)).takeWhile (· != ';')
      = form.gap ++ form.constraint ++ form.trail := by
  have hne : ∀ c ∈ form.gap ++ form.constraint ++ form.trail, (c != ';') = true := by
    intro c hc
    simp only [bne_iff_ne, ne_eq]
    rintro rfl
    simp only [List.mem_append] at hc
    rcases hc with (hc | hc) | hc
    · exact form.gap_blank.notMem (by decide) hc
    · exact semicolon_notMem_of_isConstraintText form.constraint_text hc
    · exact form.trail_blank.notMem (by decide) hc
  have hmarker : HeadNot (· != ';') (markerText form.marker) := by
    cases form.marker with
    | none => exact headNot_nil
    | some marker => exact headNot_cons.mpr (by decide)
  have := takeWhile_run hne hmarker
  simpa [tail] using this

/-- The bracket that the reader finds behind the name is the one that is written there. -/
theorem read?_bracket (form : RequirementForm) :
    Bracketed.read? (bracketText form.bracket ++ (form.gap ++ (form.constraint ++ form.tail)))
      = form.bracket.map fun b =>
          ⟨b.text.length, b.inner, b.isClosed, form.gap ++ (form.constraint ++ form.tail)⟩ := by
  cases hbracket : form.bracket with
  | none =>
      have hvisible : HeadNot isBlank (form.constraint ++ markerText form.marker) :=
        form.constraint_text.trimmed.head.append fun _ => headNot_isBlank_marker form.marker
      have hhead : (form.constraint ++ markerText form.marker).head? ≠ some '[' := by
        by_cases hne : form.constraint = []
        · rw [hne, List.nil_append]
          cases form.marker with
          | none => simp [markerText]
          | some marker => simp [markerText]
        · obtain ⟨c, rest, hc, hstart, -⟩ := form.constraint_text.exists_head hne
          rw [hc]
          simpa using (isOperatorStart_excludes hstart).2.2.1
      simp only [bracketText, Option.map_none, Option.getD_none, List.nil_append]
      by_cases hne : form.constraint = []
      · rw [form.gap_of_bare hne, List.nil_append, tail]
        rw [hne, List.nil_append] at hvisible hhead ⊢
        exact Bracketed.read?_eq_none form.trail_blank hvisible hhead
      · refine Bracketed.read?_eq_none form.gap_blank ?_ ?_
        · exact form.constraint_text.trimmed.head.append fun h => absurd h hne
        · cases hc : form.constraint with
          | nil => exact absurd hc hne
          | cons c rest => simpa [hc] using hhead
  | some bracket =>
      refine bracket.read?_text _ fun hopen => ?_
      obtain ⟨hgap, hconstraint, htrail, hmarker⟩ := form.nothing_after_open bracket hbracket hopen
      simp [tail, hgap, hconstraint, htrail, hmarker, markerText]

theorem read?_text (form : RequirementForm) (offset : Nat) :
    Requirement.read? form.text offset = some (form.requirement offset) := by
  rw [Requirement.read?, form.read?_leadingName]
  simp only [Option.bind_eq_bind, Option.bind_some, form.read?_bracket, rest_bracket, length_bracket,
    extras_bracket, form.takeWhile_afterHead]
  rw [trim_margins form.gap_blank form.constraint_text.trimmed form.trail_blank]
  by_cases hne : form.constraint = []
  · simp [hne, requirement, head, Span.stop, form.gap_of_bare hne]
    omega
  · have hblanks : (form.gap ++ form.constraint ++ form.trail).takeWhile isBlank = form.gap := by
      rw [List.append_assoc]
      exact takeWhile_blank form.gap_blank
        (form.constraint_text.trimmed.head.append fun h => absurd h hne)
    have hempty : form.constraint.isEmpty = false := by simpa using hne
    simp only [hempty, Bool.false_eq_true, if_false, form.constraint_text.valid hne, if_true,
      hblanks, requirement, head, Span.stop, List.length_append]
    simp
    omega

end RequirementForm

/-- The requirement some columns further to the right. -/
def Requirement.moved (shift : Nat) (r : Requirement) : Requirement :=
  { r with nameSpan := r.nameSpan.moved shift, span := r.span.moved shift }

/-- The columns of a requirement that was found in a text: its name and its constraint stand there, the
constraint behind the name. -/
structure Requirement.PlacedIn (content : List Char) (r : Requirement) : Prop where
  name : r.nameSpan.Covers content r.name
  constraint : r.span.Covers content r.constraint
  constraint_text : IsConstraintText r.constraint
  name_ne_nil : r.name ≠ []
  ordered : r.nameSpan.stop ≤ r.span.start

theorem RequirementForm.requirement_moved (form : RequirementForm) (shift : Nat) :
    form.requirement shift = (form.requirement 0).moved shift := by
  simp [requirement, Requirement.moved, Span.moved, Nat.add_comm]

theorem RequirementForm.placedIn (form : RequirementForm) :
    (form.requirement 0).PlacedIn form.text where
  name := ⟨form.indent, bracketText form.bracket ++ form.gap ++ form.constraint ++ form.tail,
    by simp [text, head, requirement], by simp [requirement]⟩
  constraint := ⟨form.head, form.tail, by simp [text, requirement], by simp [requirement]⟩
  constraint_text := form.constraint_text
  name_ne_nil := form.name_written.ne_nil
  ordered := by
    simp [requirement, head, Span.stop]

/-- The name that the reader finds is one, behind an indentation. -/
theorem exists_of_read?_leadingName {content : List Char} {found : LeadingName}
    (h : LeadingName.read? content = some found) :
    ∃ indent, content = indent ++ (found.name ++ found.rest) ∧ IsBlankRun indent ∧
      found.indent = indent.length ∧ IsWrittenName found.name := by
  obtain ⟨indent, body, rfl, hindent, hbody, htake, hdrop⟩ := exists_run isBlank content
  obtain ⟨name, rest, rfl, hname, hrest, htakeName, hdropName⟩ :=
    exists_run Package.isNameChar body
  rw [LeadingName.read?, htake] at h
  simp only [hdrop, htakeName, hdropName] at h
  cases hcases : name with
  | nil => simp [hcases] at h
  | cons first more =>
      simp only [hcases] at h
      split at h
      · next hfirst =>
          cases h
          exact ⟨indent, by simp, hindent, rfl, ⟨first, more, rfl, hfirst⟩, hcases ▸ hname⟩
      · cases h

/-- What is left behind the name and the extras, cut into blanks, constraint and marker. -/
theorem exists_constraint_parts (afterHead : List Char) :
    ∃ lead trail marker, afterHead = lead ++ trim (afterHead.takeWhile (· != ';')) ++ trail
        ++ markerText marker ∧
      IsBlankRun lead ∧ IsBlankRun trail ∧ IsTrimmed (trim (afterHead.takeWhile (· != ';'))) ∧
      (afterHead.takeWhile (· != ';')).takeWhile isBlank = lead := by
  obtain ⟨front, rest, hsplit, -, hrest, htake, -⟩ := exists_run (· != ';') afterHead
  obtain ⟨lead, trail, hfront, hlead, htrail, htrimmed, hblanks, -⟩ := exists_margins front
  have hmarker : ∃ marker, rest = markerText marker := by
    cases rest with
    | nil => exact ⟨none, rfl⟩
    | cons c more =>
        have hc : c = ';' := by simpa using headNot_cons.mp hrest
        exact ⟨some more, by rw [hc]; rfl⟩
  obtain ⟨marker, rfl⟩ := hmarker
  rw [htake]
  exact ⟨lead, trail, marker, by rw [← hfront, hsplit], hlead, htrail, htrimmed, hblanks⟩

/-- Every requirement that is read is a written one. -/
theorem exists_requirementForm {content : List Char} {offset : Nat} {found : Requirement}
    (h : Requirement.read? content offset = some found) :
    ∃ form : RequirementForm, form.text = content ∧ form.requirement offset = found := by
  cases hname : LeadingName.read? content with
  | none => simp [Requirement.read?, hname] at h
  | some leading =>
      obtain ⟨indent, hcontent, hindent, hlength, hwritten⟩ := exists_of_read?_leadingName hname
      obtain ⟨bracket, afterHead, hafter, hopen, hread⟩ := exists_bracketText leading.rest
      obtain ⟨lead, trail, marker, hparts, hlead, htrail, htrimmed, hblanks⟩ :=
        exists_constraint_parts afterHead
      rw [Requirement.read?, hname] at h
      rw [hafter] at hread
      simp only [Option.bind_eq_bind, Option.bind_some, hafter, hread, rest_bracket, length_bracket, extras_bracket,
        hblanks] at h
      generalize hconstraint : trim (afterHead.takeWhile (· != ';')) = constraint at *
      have hnil : ∀ form, bracket = some form → form.isClosed = false →
          lead = [] ∧ constraint = [] ∧ trail = [] ∧ marker = none := by
        intro form hform hfalse
        have hnone := hopen form hform hfalse
        rw [hnone] at hparts
        cases marker with
        | none => simpa [markerText] using hparts.symm
        | some marker => simp [markerText] at hparts
      by_cases hne : constraint = []
      · subst hne
        rw [List.isEmpty_nil, if_pos rfl] at h
        cases h
        refine ⟨⟨indent, leading.name, bracket, [], [], lead ++ trail, marker, hindent, hwritten,
          isBlankRun_nil, isConstraintText_nil, hlead.append htrail, fun _ => rfl, ?_⟩, ?_, ?_⟩
        · intro form hform hfalse
          obtain ⟨hlead, -, htrail, hmarker⟩ := hnil form hform hfalse
          simp [hlead, htrail, hmarker]
        · rw [hcontent, hafter, hparts]
          simp [RequirementForm.text, RequirementForm.head, RequirementForm.tail]
        · simp [RequirementForm.requirement, RequirementForm.head, hlength, Span.stop]
          omega
      · have hempty : constraint.isEmpty = false := by simpa using hne
        rw [hempty, if_neg (by simp)] at h
        split at h
        · next hvalid =>
            cases h
            refine ⟨⟨indent, leading.name, bracket, lead, constraint, trail, marker, hindent,
              hwritten, hlead, ⟨htrimmed, fun _ => hvalid⟩, htrail, fun h => absurd h hne, hnil⟩,
              ?_, ?_⟩
            · rw [hcontent, hafter, hparts]
              simp [RequirementForm.text, RequirementForm.head, RequirementForm.tail]
            · simp [RequirementForm.requirement, RequirementForm.head, hlength, Span.stop]
              omega
        · cases h

theorem Requirement.read?_eq_moved (content : List Char) (offset : Nat) :
    Requirement.read? content offset = (Requirement.read? content 0).map (moved offset) := by
  cases h : Requirement.read? content 0 with
  | some found =>
      obtain ⟨form, rfl, rfl⟩ := exists_requirementForm h
      rw [form.read?_text, Option.map_some, form.requirement_moved]
  | none =>
      cases hoffset : Requirement.read? content offset with
      | none => rfl
      | some found =>
          obtain ⟨form, rfl, -⟩ := exists_requirementForm hoffset
          rw [form.read?_text] at h
          cases h

theorem Requirement.placedIn_of_read? {content : List Char} {found : Requirement}
    (h : Requirement.read? content 0 = some found) : found.PlacedIn content := by
  obtain ⟨form, rfl, rfl⟩ := exists_requirementForm h
  exact form.placedIn

end ManifestLens
