import ManifestLens.Constraint.Operator
import ManifestLens.Proofs.Text.Trim

/-!
# The longest operator

Some operators begin another one, so a constraint may start with two or three of them at once, and it is read by the
longest. Detection looks only at the symbols in front of the version. That loses nothing, because an operator consists
of symbols throughout; and where the symbols are an operator as a whole, none that the constraint starts with can be
longer. In all other cases the operators are tried in turn, and none is tried after a shorter one. What is left of the
constraint behind its operator is white space and the version.
-/

namespace ManifestLens

open Text

namespace Operator

theorem text_ne_nil (operator : Operator) : operator.text ≠ [] := by
  have hall : ∀ operator ∈ all, operator.text ≠ [] := by decide
  exact hall operator (mem_all operator)

theorem mem_text {operator : Operator} {c : Char} (h : c ∈ operator.text) :
    Text.isBlank c = false ∧ c ≠ ',' ∧ c ≠ '|' ∧ c ≠ '*' := by
  have hall : ∀ operator ∈ all, ∀ c ∈ operator.text, Text.isBlank c = false ∧ c ≠ ',' ∧ c ≠ '|' ∧ c ≠ '*' := by
    decide
  exact hall operator (mem_all operator) c h

theorem isSymbol_of_mem_text {operator : Operator} {c : Char} (h : c ∈ operator.text) : isSymbol c = true := by
  have hall : ∀ operator ∈ all, ∀ c ∈ operator.text, isSymbol c = true := by decide
  exact hall operator (mem_all operator) c h

theorem exists_text (operator : Operator) :
    (∃ c rest, operator.text = c :: rest ∧ isOperatorStart c = true) ∧
      ∀ c ∈ operator.text, isOperatorStart c = true := by
  rcases operator with relation | _ | _
  · cases relation <;> exact ⟨⟨_, _, rfl, by decide⟩, by decide⟩
  · exact ⟨⟨_, _, rfl, by decide⟩, by decide⟩
  · exact ⟨⟨_, _, rfl, by decide⟩, by decide⟩

theorem text_injective {operator other : Operator} (h : operator.text = other.text) : operator = other := by
  have hall : ∀ operator ∈ all, ∀ other ∈ all, operator.text = other.text → operator = other := by decide
  exact hall operator (mem_all operator) other (mem_all other) h

/-! ### The operators that a text starts with -/

theorem prefix_leadingSymbols_iff (operator : Operator) (constraint : List Char) :
    operator.text <+: leadingSymbols constraint ↔ operator.text <+: trimLeft constraint := by
  refine ⟨fun h => h.trans (List.takeWhile_prefix isSymbol), ?_⟩
  rintro ⟨rest, hrest⟩
  rw [leadingSymbols, ← hrest, List.takeWhile_append_of_pos fun c hc => isSymbol_of_mem_text hc]
  exact List.prefix_append _ _

theorem prefix_append_blanks_iff (operator : Operator) {text trail : List Char} (htrail : IsBlankRun trail) :
    operator.text <+: text ++ trail ↔ operator.text <+: text := by
  refine ⟨fun h => ?_, fun h => h.trans (List.prefix_append text trail)⟩
  rcases List.prefix_or_prefix_of_prefix h (List.prefix_append text trail) with hwithin | ⟨more, hmore⟩
  · exact hwithin
  · rw [← hmore, List.prefix_append_right_inj] at h
    cases more with
    | nil => rw [← hmore, List.append_nil]
    | cons c more =>
        have hmem : c ∈ operator.text := by simp [← hmore]
        exact absurd (h.subset (by simp)) (htrail.notMem (mem_text hmem).1)

/-- The operator is the longest one that the text starts with; where it is missing, the text starts with none. -/
def IsLongest (text : List Char) : Option Operator → Prop
  | none => ∀ operator : Operator, ¬ operator.text <+: text
  | some operator => operator.text <+: text ∧
      ∀ other : Operator, other.text <+: text → other.text.length ≤ operator.text.length

section Longest

variable {text constraint : List Char}

/-- A text starts with at most one operator of each length. -/
theorem IsLongest.unique {first second : Option Operator} (hfirst : IsLongest text first)
    (hsecond : IsLongest text second) : first = second := by
  cases first with
  | none =>
      cases second with
      | none => rfl
      | some other => exact absurd hsecond.1 (hfirst other)
  | some operator =>
      cases second with
      | none => exact absurd hfirst.1 (hsecond operator)
      | some other =>
          have hlength := Nat.le_antisymm (hsecond.2 operator hfirst.1) (hfirst.2 other hsecond.1)
          have htext := (List.prefix_of_prefix_length_le hfirst.1 hsecond.1 hlength.le).eq_of_length hlength
          rw [text_injective htext]

theorem isLongest_congr {other : List Char} (h : ∀ operator : Operator, operator.text <+: text ↔ operator.text <+: other)
    (operator : Option Operator) : IsLongest text operator ↔ IsLongest other operator := by
  cases operator <;> simp only [IsLongest, h]

theorem isLongest_of_leadingSymbols {operator : Operator} (h : operator.text = leadingSymbols constraint) :
    IsLongest (trimLeft constraint) (some operator) := by
  refine ⟨(prefix_leadingSymbols_iff operator constraint).mp (h ▸ List.prefix_rfl), fun other hother => ?_⟩
  rw [h]
  exact ((prefix_leadingSymbols_iff other constraint).mpr hother).length_le

/-- No operator is tried after a shorter one, so the first that fits is the longest. -/
theorem isLongest_of_first {operator : Operator}
    (h : (all.find? fun operator => operator.text.isPrefixOf text) = some operator) : IsLongest text (some operator) := by
  have hsorted : all.Pairwise fun a b => b.text.length ≤ a.text.length := by decide
  obtain ⟨hfits, earlier, later, hall, hearlier⟩ := List.find?_eq_some_iff_append.mp h
  refine ⟨List.isPrefixOf_iff_prefix.mp hfits, fun other hother => ?_⟩
  have hmem := mem_all other
  rw [hall, List.mem_append, List.mem_cons] at hmem
  rcases hmem with hmem | rfl | hmem
  · have hnot := hearlier other hmem
    rw [List.isPrefixOf_iff_prefix.mpr hother] at hnot
    cases hnot
  · exact Nat.le_refl _
  · rw [hall] at hsorted
    exact (List.pairwise_cons.mp (List.pairwise_append.mp hsorted).2.1).1 other hmem

theorem isLongest_detect? (constraint : List Char) : IsLongest (trimLeft constraint) (detect? constraint) := by
  simp only [detect?]
  cases hshorthand : shorthands.find? fun operator => operator.text == leadingSymbols constraint with
  | some operator => exact isLongest_of_leadingSymbols (by simpa using List.find?_some hshorthand)
  | none =>
      cases hwhole : all.find? fun operator => operator.text == leadingSymbols constraint with
      | some operator => exact isLongest_of_leadingSymbols (by simpa using List.find?_some hwhole)
      | none =>
          refine (isLongest_congr (fun operator => prefix_leadingSymbols_iff operator constraint) _).mp ?_
          cases hfirst : all.find? fun operator => operator.text.isPrefixOf (leadingSymbols constraint) with
          | some operator => exact isLongest_of_first hfirst
          | none =>
              intro operator hprefix
              have hnot := List.find?_eq_none.mp hfirst operator (mem_all operator)
              exact hnot (List.isPrefixOf_iff_prefix.mpr hprefix)

theorem detect?_eq_iff {operator : Option Operator} :
    detect? constraint = operator ↔ IsLongest (trimLeft constraint) operator := by
  refine ⟨fun h => h ▸ isLongest_detect? constraint, fun h => (isLongest_detect? constraint).unique h⟩

theorem detect?_eq_none_iff :
    detect? constraint = none ↔ ∀ operator : Operator, ¬ operator.text <+: trimLeft constraint :=
  detect?_eq_iff

theorem prefix_of_detect? {operator : Operator} (h : detect? constraint = some operator) :
    operator.text <+: trimLeft constraint :=
  (detect?_eq_iff.mp h).1

theorem detect?_congr {other : List Char} (h : trimLeft constraint = trimLeft other) :
    detect? constraint = detect? other := by
  rw [detect?_eq_iff, h]
  exact isLongest_detect? other

theorem detect?_trim (constraint : List Char) : detect? (trim constraint) = detect? constraint := by
  obtain ⟨lead, trail, htext, hlead, htrail, htrimmed, -, hempty⟩ := exists_margins constraint
  have hhead : HeadNot isBlank (trim constraint ++ trail) :=
    htrimmed.head.append fun hnil => hempty hnil ▸ headNot_nil
  have hbehind : trimLeft constraint = trim constraint ++ trail := by
    conv_lhs => rw [htext, List.append_assoc]
    exact trimLeft_margin hlead hhead
  have hbody : trimLeft (trim constraint) = trim constraint := by
    simpa using trimLeft_margin isBlankRun_nil htrimmed.head
  rw [detect?_eq_iff, hbody, ← isLongest_congr fun operator => prefix_append_blanks_iff operator htrail, ← hbehind]
  exact isLongest_detect? constraint

theorem detect?_blanks {lead : List Char} (hlead : IsBlankRun lead) (rest : List Char) :
    detect? (lead ++ rest) = detect? rest := by
  refine detect?_congr ?_
  rw [trimLeft, dropLeading, List.dropWhile_append_of_pos hlead]
  rfl

theorem detect?_eq_none_of_head (hblank : HeadNot isBlank text) (h : HeadNot isOperatorStart text) :
    detect? text = none := by
  have htrim := trimLeft_margin isBlankRun_nil hblank
  rw [List.nil_append] at htrim
  refine detect?_eq_none_iff.mpr fun operator hfits => ?_
  obtain ⟨⟨c, rest, htext, hstart⟩, -⟩ := operator.exists_text
  rw [htrim, htext] at hfits
  obtain ⟨more, rfl⟩ := hfits
  have hnot := h c rfl
  rw [hstart] at hnot
  cases hnot

/-- No operator goes on with anything but an equals sign, so one is told from what follows it. -/
theorem detect?_text (operator : Operator) {rest : List Char} (h : rest.head? ≠ some '=') :
    detect? (operator.text ++ rest) = some operator := by
  have hlonger : ∀ operator ∈ all, ∀ other ∈ all, operator.text <+: other.text → operator.text ≠ other.text →
      (other.text.drop operator.text.length).head? = some '=' := by
    decide
  have hhead : HeadNot isBlank (operator.text ++ rest) := by
    refine HeadNot.append (fun c hc => (mem_text (List.mem_of_head? hc)).1) fun hnil => ?_
    exact absurd hnil operator.text_ne_nil
  have htrim : trimLeft (operator.text ++ rest) = operator.text ++ rest := by
    simpa using trimLeft_margin isBlankRun_nil hhead
  rw [detect?_eq_iff, htrim]
  refine ⟨List.prefix_append _ _, fun other hother => ?_⟩
  by_contra hlength
  obtain ⟨more, hmore⟩ := List.prefix_of_prefix_length_le (List.prefix_append operator.text rest) hother (by omega)
  have hne : operator.text ≠ other.text := fun heq => hlength (by rw [heq])
  have hequals := hlonger operator (mem_all operator) other (mem_all other) ⟨more, hmore⟩ hne
  rw [← hmore, List.drop_left] at hequals
  rw [← hmore, List.prefix_append_right_inj] at hother
  obtain ⟨behind, rfl⟩ := hother
  rw [List.head?_append, hequals] at h
  exact h rfl

end Longest

end Operator

/-! ### The parts of a constraint -/

section Parts

variable {gap version : List Char}

theorem operatorAndVersion_eq (constraint : List Char) :
    operatorAndVersion constraint = (Operator.detect? constraint,
      trim ((trim constraint).drop (Operator.textOf (Operator.detect? constraint)).length)) := by
  simp only [operatorAndVersion, Operator.detect?_trim]

/-- A constraint without blanks at its ends is its operator, white space and its version. -/
theorem exists_operatorAndVersion (constraint : List Char) :
    ∃ gap version, operatorAndVersion constraint = (Operator.detect? constraint, version) ∧
      trim constraint = Operator.textOf (Operator.detect? constraint) ++ gap ++ version ∧ IsBlankRun gap ∧
      IsTrimmed version := by
  obtain ⟨-, -, -, -, -, htrimmed, -, -⟩ := exists_margins constraint
  obtain ⟨rest, hrest⟩ : Operator.textOf (Operator.detect? constraint) <+: trim constraint := by
    cases hdetect : Operator.detect? constraint with
    | none => exact List.nil_prefix
    | some operator =>
        rw [← Operator.detect?_trim] at hdetect
        have hbody : trimLeft (trim constraint) = trim constraint := by
          simpa using trimLeft_margin isBlankRun_nil htrimmed.head
        exact hbody ▸ Operator.prefix_of_detect? hdetect
  obtain ⟨gap, trail, hparts, hgap, htrail, hversion, -, hempty⟩ := exists_margins rest
  -- A blank behind the version would be one at the end of the constraint.
  have hnone : trail = [] := by
    by_contra hne
    obtain ⟨c, hc⟩ := List.getLast?_isSome.mpr hne |> Option.isSome_iff_exists.mp
    have hlast : (trim constraint).getLast? = some c := by
      rw [← hrest, hparts, ← List.append_assoc, List.getLast?_append, hc]
      rfl
    have hvisible := htrimmed.last c hlast
    rw [htrail c (List.mem_of_getLast? hc)] at hvisible
    cases hvisible
  refine ⟨gap, trim rest, ?_, ?_, hgap, hversion⟩
  · rw [operatorAndVersion_eq, ← hrest, List.drop_left]
  · conv_lhs => rw [← hrest, hparts, hnone]
    simp

/-- An operator and a version that starts with a digit are read back, whatever white space stands between them. -/
theorem operatorAndVersion_parts (operator : Option Operator) (hgap : IsBlankRun gap) (hlast : LastNot isBlank version)
    (hdigit : ∀ c, version.head? = some c → isDecimal c = true) :
    operatorAndVersion (Operator.textOf operator ++ gap ++ version) = (operator, version) := by
  have hstart : HeadNot isOperatorStart version := by
    intro c hc
    have hdecimal := hdigit c hc
    by_contra hstart
    rcases isOperatorStart_iff.mp (by simpa using hstart) with rfl | rfl | rfl | rfl | rfl | rfl <;>
      revert hdecimal <;> decide
  have hversion : IsTrimmed version := by
    refine ⟨fun c hc => ?_, hlast⟩
    by_contra hblank
    have hnot := isDecimal_of_isBlank (c := c) (by simpa using hblank)
    rw [hdigit c hc] at hnot
    cases hnot
  cases operator with
  | none =>
      have htrim : trim (gap ++ version) = version := by
        simpa using trim_margins hgap hversion isBlankRun_nil
      have hdetect : Operator.detect? version = none := Operator.detect?_eq_none_of_head hversion.head hstart
      simp only [operatorAndVersion, Operator.textOf, List.nil_append, htrim, hdetect, List.length_nil, List.drop_zero,
        trim_of_isTrimmed hversion]
  | some operator =>
      have hdetect : Operator.detect? (operator.text ++ gap ++ version) = some operator := by
        rw [List.append_assoc]
        refine Operator.detect?_text operator fun hequals => ?_
        cases gap with
        | nil => exact absurd (hstart '=' hequals) (by decide)
        | cons c more =>
            obtain rfl : c = '=' := Option.some.inj hequals
            exact hgap.notMem (by decide) List.mem_cons_self
      have hoperator : IsTrimmed operator.text :=
        ⟨fun c hc => (Operator.mem_text (List.mem_of_head? hc)).1,
          fun c hc => (Operator.mem_text (List.mem_of_getLast? hc)).1⟩
      -- Without a version the white space is at the end of the constraint, and is dropped before the operator is.
      obtain ⟨rest, htrim, hrest⟩ : ∃ rest, trim (operator.text ++ gap ++ version) = operator.text ++ rest ∧
          trim rest = version := by
        by_cases hnil : version = []
        · refine ⟨[], ?_, hnil.symm⟩
          simpa [hnil] using trim_margins isBlankRun_nil hoperator hgap
        · refine ⟨gap ++ version, ?_, ?_⟩
          · refine (trim_of_isTrimmed ⟨?_, ?_⟩).trans (List.append_assoc _ _ _)
            · rw [List.append_assoc]
              exact hoperator.head.append fun hempty => absurd hempty operator.text_ne_nil
            · intro c hc
              rw [List.getLast?_append_of_ne_nil _ hnil] at hc
              exact hlast c hc
          · simpa using trim_margins hgap hversion isBlankRun_nil
      rw [operatorAndVersion_eq, Operator.textOf, hdetect, htrim, Operator.textOf, List.drop_left, hrest]

/-- **Constraints come apart at the longest operator.** The operator that is detected is the longest one that the
constraint starts with behind its leading white space, and none is detected where there is none. A constraint without
blanks at its ends is this operator, white space, and the version, which has no blanks at its ends either. So an
operator and a version are read back as they were written, with any white space between them, if the version starts
with a digit or is missing. -/
theorem operatorAndVersion_longest :
    (∀ constraint operator, Operator.detect? constraint = operator ↔
      Operator.IsLongest (trimLeft constraint) operator) ∧
    (∀ constraint, ∃ gap version, operatorAndVersion constraint = (Operator.detect? constraint, version) ∧
      trim constraint = Operator.textOf (Operator.detect? constraint) ++ gap ++ version ∧ IsBlankRun gap ∧
      IsTrimmed version) ∧
    ∀ operator gap version, IsBlankRun gap → LastNot isBlank version →
      (∀ c, version.head? = some c → isDecimal c = true) →
      operatorAndVersion (Operator.textOf operator ++ gap ++ version) = (operator, version) :=
  ⟨fun _ _ => Operator.detect?_eq_iff, exists_operatorAndVersion, fun operator _ _ => operatorAndVersion_parts operator⟩

/-- Of the operators that an unfinished one starts with, the longest counts. -/
example : operatorAndVersion "  ~==1.4 ".toList = (some (.standard .compatible), "=1.4".toList) := by decide

end Parts

end ManifestLens
