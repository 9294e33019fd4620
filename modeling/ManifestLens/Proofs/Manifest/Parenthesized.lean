import ManifestLens.Manifest.Dialect.ArrayString
import ManifestLens.Proofs.Manifest.Requirement

/-!
# The written form of a requirement with parentheses

The same as for plain requirements: a `ParenthesizedForm` is a text cut into its parts, and the reader
of parenthesised requirements accepts these texts and nothing else. No text is both a plain and a
parenthesised requirement, because after the name and the extras the one goes on with an operator and
the other with a parenthesis.
-/

namespace ManifestLens

open Text

/-- What follows a parenthesised constraint, with the parenthesis. -/
def closingText : Option (List Char) → List Char
  | none => []
  | some after => ')' :: after

/-- A requirement with its constraint in parentheses, taken apart. Between empty parentheses all
blanks are in `lead`. -/
structure ParenthesizedForm where
  indent : List Char
  name : List Char
  bracket : Option ExtrasForm
  gap : List Char
  lead : List Char
  constraint : List Char
  trail : List Char
  /-- What follows the closing parenthesis, if there is one. -/
  closing : Option (List Char)
  indent_blank : IsBlankRun indent
  name_written : IsWrittenName name
  bracket_closed : ∀ form, bracket = some form → form.isClosed = true
  gap_blank : IsBlankRun gap
  lead_blank : IsBlankRun lead
  constraint_text : IsConstraintText constraint
  trail_blank : IsBlankRun trail
  trail_of_bare : constraint = [] → trail = []
  closing_marker : ∀ after, closing = some after →
    trim after = [] ∨ (trim after).head? = some ';'

theorem parenthesis_notMem_of_isConstraintText {text : List Char} (h : IsConstraintText text) :
    ')' ∉ text := by
  intro hmem
  have := h.all ')' hmem
  revert this
  decide

namespace ParenthesizedForm

def opening (form : ParenthesizedForm) : List Char :=
  form.indent ++ form.name ++ bracketText form.bracket ++ form.gap

/-- What stands before the constraint. -/
def head (form : ParenthesizedForm) : List Char := form.opening ++ '(' :: form.lead

/-- What stands behind the constraint. -/
def tail (form : ParenthesizedForm) : List Char := form.trail ++ closingText form.closing

def text (form : ParenthesizedForm) : List Char := form.head ++ form.constraint ++ form.tail

/-- The requirement that the form states when its text starts at a column. -/
def requirement (form : ParenthesizedForm) (offset : Nat) : Requirement where
  name := form.name
  nameSpan := ⟨offset + form.indent.length, form.name.length⟩
  extras := (form.bracket.map fun b => extrasOf b.inner).getD []
  constraint := form.constraint
  span := ⟨offset + form.head.length, form.constraint.length⟩

/-- The form with another constraint, which is not empty. -/
def withConstraint (form : ParenthesizedForm) (constraint : List Char)
    (hconstraint : IsConstraintText constraint) (hne : constraint ≠ []) : ParenthesizedForm :=
  { form with
    constraint
    constraint_text := hconstraint
    trail_of_bare := fun h => absurd h hne }

/-- What stands inside the parentheses and behind them. -/
def body (form : ParenthesizedForm) : List Char := form.lead ++ (form.constraint ++ form.tail)

theorem headNot_isNameChar_afterName (form : ParenthesizedForm) :
    HeadNot Package.isNameChar (bracketText form.bracket ++ (form.gap ++ '(' :: form.body)) := by
  refine HeadNot.append ?_ fun _ =>
    HeadNot.append (RequirementForm.headNot_isNameChar_of_isBlankRun form.gap_blank) fun _ =>
      headNot_cons.mpr (by decide)
  cases form.bracket with
  | none => exact headNot_nil
  | some bracket => exact bracket.headNot_isNameChar

theorem read?_leadingName (form : ParenthesizedForm) :
    LeadingName.read? form.text = some ⟨form.indent.length, form.name,
      bracketText form.bracket ++ (form.gap ++ '(' :: form.body)⟩ := by
  have htext : form.text = form.indent ++ (form.name ++
      (bracketText form.bracket ++ (form.gap ++ '(' :: form.body))) := by
    simp [text, head, opening, body]
  rw [htext]
  exact form.name_written.read?_leadingName form.indent_blank form.headNot_isNameChar_afterName

theorem read?_bracketText (form : ParenthesizedForm) :
    Bracketed.read? (bracketText form.bracket ++ (form.gap ++ '(' :: form.body))
      = form.bracket.map fun b => ⟨b.text.length, b.inner, true, form.gap ++ '(' :: form.body⟩ := by
  cases hbracket : form.bracket with
  | none =>
      have hnone : Bracketed.read? (form.gap ++ '(' :: form.body) = none :=
        Bracketed.read?_eq_none form.gap_blank (headNot_cons.mpr (by decide)) (by simp)
      simp [bracketText, hnone]
  | some bracket =>
      have hclosed := form.bracket_closed bracket hbracket
      have hread := bracket.read?_text (form.gap ++ '(' :: form.body) (by simp [hclosed])
      simp [bracketText, hread, hclosed]

theorem read?_bracket (form : ParenthesizedForm) :
    (Bracketed.read? (bracketText form.bracket ++ (form.gap ++ '(' :: form.body))).filter
        Bracketed.isClosed
      = form.bracket.map fun b => ⟨b.text.length, b.inner, true, form.gap ++ '(' :: form.body⟩ := by
  rw [read?_bracketText]
  cases form.bracket <;> rfl

theorem takeWhile_body (form : ParenthesizedForm) :
    form.body.takeWhile (· != ')') = form.lead ++ form.constraint ++ form.trail := by
  have hne : ∀ c ∈ form.lead ++ form.constraint ++ form.trail, (c != ')') = true := by
    intro c hc
    simp only [bne_iff_ne, ne_eq]
    rintro rfl
    simp only [List.mem_append] at hc
    rcases hc with (hc | hc) | hc
    · exact form.lead_blank.notMem (by decide) hc
    · exact parenthesis_notMem_of_isConstraintText form.constraint_text hc
    · exact form.trail_blank.notMem (by decide) hc
  have hclosing : HeadNot (· != ')') (closingText form.closing) := by
    cases form.closing with
    | none => exact headNot_nil
    | some after => exact headNot_cons.mpr (by decide)
  have := takeWhile_run hne hclosing
  simpa [body, tail] using this

theorem trailing_admitted (form : ParenthesizedForm) :
    (!(trim (form.body.drop ((form.lead ++ form.constraint ++ form.trail).length + 1))).isEmpty
      && (trim (form.body.drop ((form.lead ++ form.constraint ++ form.trail).length + 1))).head?
        != some ';') = false := by
  have hbody : form.body
      = (form.lead ++ form.constraint ++ form.trail) ++ closingText form.closing := by
    simp [body, tail]
  cases hclosing : form.closing with
  | none =>
      have hdrop : form.body.drop ((form.lead ++ form.constraint ++ form.trail).length + 1) = [] := by
        rw [hbody, hclosing]
        apply List.drop_eq_nil_of_le
        simp [closingText]
      rw [hdrop]
      rfl
  | some after =>
      have hdrop : form.body.drop ((form.lead ++ form.constraint ++ form.trail).length + 1)
          = after := by
        rw [hbody, hclosing, List.drop_append]
        simp [closingText]
      rw [hdrop]
      rcases form.closing_marker after hclosing with h | h
      · simp [h]
      · simp [h]

theorem read?_text (form : ParenthesizedForm) (offset : Nat) :
    Requirement.readParenthesized? form.text offset = some (form.requirement offset) := by
  rw [Requirement.readParenthesized?, form.read?_leadingName]
  have hgap : (form.gap ++ '(' :: form.body).takeWhile isBlank = form.gap :=
    takeWhile_blank form.gap_blank (headNot_cons.mpr (by decide))
  have hconstraint : trim (form.lead ++ form.constraint ++ form.trail) = form.constraint :=
    trim_margins form.lead_blank form.constraint_text.trimmed form.trail_blank
  have hlead : (form.lead ++ form.constraint ++ form.trail).takeWhile isBlank = form.lead := by
    by_cases hne : form.constraint = []
    · rw [hne, form.trail_of_bare hne, List.append_nil, List.append_nil]
      exact takeWhile_all form.lead_blank
    · rw [List.append_assoc]
      exact takeWhile_blank form.lead_blank
        (form.constraint_text.trimmed.head.append fun h => absurd h hne)
  have hvalid : (form.constraint.isEmpty || isOperatorConstraint form.constraint) = true := by
    by_cases hne : form.constraint = []
    · simp [hne]
    · simp [form.constraint_text.valid hne]
  simp only [Option.bind_eq_bind, Option.bind_some, form.read?_bracket, rest_bracket, length_bracket,
    extras_bracket, hgap, List.drop_left, form.takeWhile_body, form.trailing_admitted, hconstraint, hlead,
    hvalid, Bool.false_eq_true, if_false, if_true]
  simp [requirement, head, opening, Span.stop]
  omega

theorem requirement_moved (form : ParenthesizedForm) (shift : Nat) :
    form.requirement shift = (form.requirement 0).moved shift := by
  simp [requirement, Requirement.moved, Span.moved, Nat.add_comm]

theorem placedIn (form : ParenthesizedForm) : (form.requirement 0).PlacedIn form.text where
  name := ⟨form.indent, bracketText form.bracket ++ form.gap ++ '(' :: form.body,
    by simp [text, head, opening, requirement, body], by simp [requirement]⟩
  constraint := ⟨form.head, form.tail, by simp [text, requirement], by simp [requirement]⟩
  constraint_text := form.constraint_text
  name_ne_nil := form.name_written.ne_nil
  ordered := by
    simp [requirement, head, opening, Span.stop]

end ParenthesizedForm

/-- Only a closed bracket counts behind a name, so an open one is taken for no bracket. -/
theorem exists_closedBracketText (text : List Char) : ∃ (bracket : Option ExtrasForm) (after : List Char),
    text = bracketText bracket ++ after ∧ (∀ form, bracket = some form → form.isClosed = true) ∧
      (Bracketed.read? text).filter Bracketed.isClosed
        = bracket.map fun b => ⟨b.text.length, b.inner, true, after⟩ := by
  cases hbracket : (Bracketed.read? text).filter Bracketed.isClosed with
  | none => exact ⟨none, text, rfl, by simp, rfl⟩
  | some found =>
      obtain ⟨hfound, hisClosed⟩ := Option.filter_eq_some_iff.mp hbracket
      obtain ⟨form, htext, hform, -⟩ := exists_extrasForm hfound
      have hformClosed : form.isClosed = true := by
        rw [hform] at hisClosed
        exact hisClosed
      refine ⟨some form, found.rest, htext, ?_, by rw [hform, hformClosed]; rfl⟩
      rintro _ ⟨rfl⟩
      exact hformClosed

/-- Where nothing but a marker follows the parentheses, they end in a closing text, or the text ends in them. -/
theorem exists_closingText {expression after : List Char} (hafter : HeadNot (· != ')') after)
    (htrailing : ¬(!(trim ((expression ++ after).drop (expression.length + 1))).isEmpty &&
      (trim ((expression ++ after).drop (expression.length + 1))).head? != some ';') = true) :
    ∃ closing, after = closingText closing ∧
      ∀ text, closing = some text → trim text = [] ∨ (trim text).head? = some ';' := by
  cases after with
  | nil => exact ⟨none, rfl, by simp⟩
  | cons c more =>
      have hc : c = ')' := by simpa using headNot_cons.mp hafter
      refine ⟨some more, by rw [hc]; rfl, ?_⟩
      rintro _ ⟨rfl⟩
      have hdrop : (expression ++ c :: more).drop (expression.length + 1) = more := by
        rw [List.drop_append]
        simp
      rw [hdrop] at htrailing
      by_cases hempty : trim more = []
      · exact Or.inl hempty
      · simpa [hempty] using htrailing

/-- Every requirement that is read with parentheses is a written one. -/
theorem exists_parenthesizedForm {content : List Char} {offset : Nat} {found : Requirement}
    (h : Requirement.readParenthesized? content offset = some found) :
    ∃ form : ParenthesizedForm, form.text = content ∧ form.requirement offset = found := by
  cases hname : LeadingName.read? content with
  | none => simp [Requirement.readParenthesized?, hname] at h
  | some leading =>
      obtain ⟨indent, hcontent, hindent, hlength, hwritten⟩ := exists_of_read?_leadingName hname
      obtain ⟨bracket, afterHead, hafter, hclosed, hread⟩ := exists_closedBracketText leading.rest
      obtain ⟨gap, body, hgapBody, hgap, -, htakeGap, hdropGap⟩ := exists_run isBlank afterHead
      rw [Requirement.readParenthesized?, hname] at h
      rw [hafter] at hread
      simp only [Option.bind_eq_bind, Option.bind_some, hafter, hread, rest_bracket, length_bracket, extras_bracket,
        htakeGap, hdropGap] at h
      split at h
      · next rest =>
          obtain ⟨expression, after, hexpression, -, hafterHead, htakeExpr, -⟩ :=
            exists_run (· != ')') rest
          obtain ⟨lead, trail, hmargins, hlead, htrail, htrimmed, htakeLead, htrailBare⟩ :=
            exists_margins expression
          simp only [htakeExpr, htakeLead] at h
          generalize hconstraint : trim expression = constraint at *
          split at h
          · cases h
          · next htrailing =>
              split at h
              · next hvalid =>
                  cases h
                  obtain ⟨closing, hclosing, hmarker⟩ := exists_closingText hafterHead (hexpression ▸ htrailing)
                  have htext : IsConstraintText constraint := by
                    refine ⟨htrimmed, fun hne => ?_⟩
                    simpa [hne] using hvalid
                  refine ⟨⟨indent, leading.name, bracket, gap, lead, constraint, trail, closing,
                    hindent, hwritten, hclosed, hgap, hlead, htext, htrail, htrailBare, hmarker⟩,
                    ?_, ?_⟩
                  · rw [hcontent, hafter, hgapBody, hexpression, hmargins, hclosing]
                    simp [ParenthesizedForm.text, ParenthesizedForm.head,
                      ParenthesizedForm.opening, ParenthesizedForm.tail]
                  · simp [ParenthesizedForm.requirement, ParenthesizedForm.head,
                      ParenthesizedForm.opening, hlength, Span.stop]
                    omega
              · cases h
      · cases h

theorem Requirement.readParenthesized?_eq_moved (content : List Char) (offset : Nat) :
    Requirement.readParenthesized? content offset
      = (Requirement.readParenthesized? content 0).map (moved offset) := by
  cases h : Requirement.readParenthesized? content 0 with
  | some found =>
      obtain ⟨form, rfl, rfl⟩ := exists_parenthesizedForm h
      rw [form.read?_text, Option.map_some, form.requirement_moved]
  | none =>
      cases hoffset : Requirement.readParenthesized? content offset with
      | none => rfl
      | some found =>
          obtain ⟨form, rfl, -⟩ := exists_parenthesizedForm hoffset
          rw [form.read?_text] at h
          cases h

theorem Requirement.placedIn_of_readParenthesized? {content : List Char} {found : Requirement}
    (h : Requirement.readParenthesized? content 0 = some found) : found.PlacedIn content := by
  obtain ⟨form, rfl, rfl⟩ := exists_parenthesizedForm h
  exact form.placedIn

/-- **No text is both.** A text that states a requirement with parentheses states no plain one. -/
theorem read?_eq_none_of_parenthesized {content : List Char} {offset : Nat} {found : Requirement}
    (h : Requirement.readParenthesized? content offset = some found) :
    Requirement.read? content offset = none := by
  obtain ⟨form, rfl, -⟩ := exists_parenthesizedForm h
  have hplain : ((Bracketed.read? (bracketText form.bracket
      ++ (form.gap ++ '(' :: form.body))).map Bracketed.rest).getD
        (bracketText form.bracket ++ (form.gap ++ '(' :: form.body))
      = form.gap ++ '(' :: form.body := by
    rw [form.read?_bracketText]
    cases form.bracket <;> simp [bracketText]
  -- What the plain reader takes for the constraint starts with the parenthesis.
  rw [Requirement.read?, form.read?_leadingName]
  simp only [Option.bind_eq_bind, Option.bind_some, hplain]
  have hhead : ∃ more, trim ((form.gap ++ '(' :: form.body).takeWhile (· != ';')) = '(' :: more := by
    have hgap : ∀ c ∈ form.gap, (c != ';') = true := by
      intro c hc
      simp only [bne_iff_ne, ne_eq]
      rintro rfl
      exact form.gap_blank.notMem (by decide) hc
    rw [List.takeWhile_append_of_pos hgap, List.takeWhile_cons_of_pos (by decide)]
    have hleft : dropLeading isBlank (form.gap ++ '(' :: form.body.takeWhile (· != ';'))
        = '(' :: form.body.takeWhile (· != ';') :=
      trimLeft_margin form.gap_blank (headNot_cons.mpr (by decide))
    rw [trim, dropAround, hleft, dropTrailing]
    split
    · exact ⟨[], if_neg (by decide)⟩
    · exact ⟨_, rfl⟩
  obtain ⟨more, hmore⟩ := hhead
  have hstart : isOperatorStart '(' = false := by decide
  rw [hmore]
  simp [isOperatorConstraint, hstart]

end ManifestLens
