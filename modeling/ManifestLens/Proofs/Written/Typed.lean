import ManifestLens.Proofs.Constraint.Allowing
import ManifestLens.Proofs.Manifest.Completion
import ManifestLens.Proofs.Manifest.PoetryTable

/-!
# Constraints that are being typed

While a constraint is typed it consists of finished constraints, each with its comma, and of one more that may
have come to any point: nothing, an operator, or an operator and the first characters of a version. It reads as
a constraint all along. With the cursor behind it, the completion is for what is typed of the last version.
-/

namespace ManifestLens

open Text

/-! ### What is typed -/

/-- A constraint that is followed by its comma: an operator or none, a version, and blanks between and behind
them. A version without an operator starts with a digit or a wildcard. -/
structure FinishedPiece where
  operator : Option Operator
  gap : List Char
  version : List Char
  before : List Char
  after : List Char
  gap_blank : IsBlankRun gap
  gap_of_bare : operator = none → gap = []
  version_head : ∃ c rest, version = c :: rest ∧
    (isAsciiDigit c = true ∨ c = '*' ∨ operator.isSome = true ∧ isAsciiLetter c = true)
  version_all : ∀ c ∈ version, isVersionChar c = true
  before_blank : IsBlankRun before
  after_blank : IsBlankRun after

/-- The constraint with its comma and the blanks behind it. -/
def FinishedPiece.text (piece : FinishedPiece) : List Char :=
  Operator.textOf piece.operator ++ piece.gap ++ piece.version ++ piece.before ++ ',' :: piece.after

/-- A constraint as far as it has been typed. No blank stands at its end. -/
structure TypedConstraint where
  finished : List FinishedPiece
  /-- The operator of the last constraint. -/
  operator : Option Operator
  gap : List Char
  /-- What is typed of the last version. -/
  version : List Char
  gap_blank : IsBlankRun gap
  gap_of_bare : operator = none → gap = []
  version_typed : version = [] ∨ IsPlainVersion version
  gap_of_open : version = [] → gap = []
  after_of_open : version = [] → operator = none → ∀ piece, finished.getLast? = some piece → piece.after = []

namespace TypedConstraint

def front (typed : TypedConstraint) : List Char := typed.finished.flatMap FinishedPiece.text

def last (typed : TypedConstraint) : List Char :=
  Operator.textOf typed.operator ++ typed.gap ++ typed.version

def text (typed : TypedConstraint) : List Char := typed.front ++ typed.last

/-- Every constraint has an operator. -/
def HasOperators (typed : TypedConstraint) : Prop :=
  typed.operator.isSome = true ∧ ∀ piece ∈ typed.finished, piece.operator.isSome = true

end TypedConstraint

/-! ### Characters -/

theorem isConstraintChar_of_mem_textOf {operator : Option Operator} {c : Char}
    (h : c ∈ Operator.textOf operator) : isConstraintChar c = true ∧ isBlank c = false := by
  cases operator with
  | none => cases h
  | some operator =>
      have hstart := operator.exists_text.2 c h
      exact ⟨isConstraintChar_of_isOperatorStart hstart, (isOperatorStart_excludes hstart).1⟩

theorem isConstraintChar_of_mem_blanks {run : List Char} (hrun : IsBlankRun run) {c : Char} (h : c ∈ run) :
    isConstraintChar c = true := by
  simp [isConstraintChar, hrun c h]

theorem FinishedPiece.isConstraintChar_of_mem {piece : FinishedPiece} {c : Char} (h : c ∈ piece.text) :
    isConstraintChar c = true := by
  simp only [text, List.mem_append, List.mem_cons] at h
  rcases h with (((h | h) | h) | h) | rfl | h
  · exact (isConstraintChar_of_mem_textOf h).1
  · exact isConstraintChar_of_mem_blanks piece.gap_blank h
  · exact (isConstraintChar_of_isVersionChar (piece.version_all c h)).1
  · exact isConstraintChar_of_mem_blanks piece.before_blank h
  · decide
  · exact isConstraintChar_of_mem_blanks piece.after_blank h

namespace TypedConstraint

variable {typed : TypedConstraint}

theorem isVersionChar_of_mem {c : Char} (h : c ∈ typed.version) : isVersionChar c = true := by
  rcases typed.version_typed with hnil | hplain
  · rw [hnil] at h
    cases h
  · exact hplain.all c h

theorem isConstraintChar_of_mem {c : Char} (h : c ∈ typed.text) : isConstraintChar c = true := by
  simp only [text, front, last, List.mem_append, List.mem_flatMap] at h
  rcases h with ⟨piece, -, h⟩ | (h | h) | h
  · exact FinishedPiece.isConstraintChar_of_mem h
  · exact (isConstraintChar_of_mem_textOf h).1
  · exact isConstraintChar_of_mem_blanks typed.gap_blank h
  · exact (isConstraintChar_of_isVersionChar (isVersionChar_of_mem h)).1

/-! ### Ends -/

/-- A constraint starts with its operator, or with its version if it has none. -/
theorem exists_head_of_operator {operator : Option Operator} {gap : List Char}
    (hgap : operator = none → gap = []) (rest : List Char) : operator = none ∧ Operator.textOf operator ++ gap ++ rest = rest ∨
      ∃ c more, Operator.textOf operator ++ gap ++ rest = c :: more ∧ isOperatorStart c = true := by
  cases operator with
  | none => exact Or.inl ⟨rfl, by rw [hgap rfl]; rfl⟩
  | some operator =>
      obtain ⟨⟨c, more, htext, hstart⟩, -⟩ := operator.exists_text
      exact Or.inr ⟨c, more ++ gap ++ rest, by simp [Operator.textOf, htext], hstart⟩

/-- What is typed starts with an operator, or with a digit or a wildcard where an operator is missing. -/
theorem exists_head (typed : TypedConstraint) : typed.text = [] ∧ typed.operator = none ∨
    ∃ c rest, typed.text = c :: rest ∧
      (isOperatorStart c = true ∨ ¬ typed.HasOperators ∧ (isAsciiDigit c = true ∨ c = '*')) := by
  cases hfinished : typed.finished with
  | nil =>
      have htext : typed.text = typed.last := by rw [text, front, hfinished]; rfl
      rw [htext, last]
      rcases exists_head_of_operator typed.gap_of_bare typed.version with
        ⟨hnone, hlast⟩ | ⟨c, more, hlast, hstart⟩
      · rw [hlast]
        rcases typed.version_typed with hnil | hplain
        · exact Or.inl ⟨hnil, hnone⟩
        · obtain ⟨c, rest, hversion, hdigit⟩ := hplain.head
          refine Or.inr ⟨c, rest, hversion, Or.inr ⟨fun h => ?_, Or.inl hdigit⟩⟩
          simp [HasOperators, hnone] at h
      · exact Or.inr ⟨c, more, hlast, Or.inl hstart⟩
  | cons piece more =>
      obtain ⟨rest, htext⟩ : ∃ rest, typed.text
          = Operator.textOf piece.operator ++ piece.gap ++ (piece.version ++ rest) :=
        ⟨piece.before ++ ',' :: (piece.after ++ (more.flatMap FinishedPiece.text ++ typed.last)), by
          simp [text, front, hfinished, FinishedPiece.text]⟩
      rw [htext]
      rcases exists_head_of_operator piece.gap_of_bare (piece.version ++ rest) with
        ⟨hnone, hhead⟩ | ⟨c, more, hhead, hstart⟩
      · obtain ⟨c, later, hversion, hc⟩ := piece.version_head
        refine Or.inr ⟨c, later ++ rest, by rw [hhead, hversion]; rfl, Or.inr ⟨fun h => ?_, ?_⟩⟩
        · have := h.2 piece (by rw [hfinished]; exact List.mem_cons_self)
          rw [hnone] at this
          cases this
        · rcases hc with hc | hc | ⟨hsome, -⟩
          · exact Or.inl hc
          · exact Or.inr hc
          · rw [hnone] at hsome
            cases hsome
      · exact Or.inr ⟨c, more, hhead, Or.inl hstart⟩

/-- The constraint that is not finished stands behind a comma and blanks, or alone. -/
theorem exists_last (typed : TypedConstraint) : ∃ left lead, typed.text = left ++ (lead ++ typed.last) ∧
    IsBlankRun lead ∧ (left = [] ∨ ∃ more, left = more ++ [',']) ∧
    (typed.version = [] → typed.operator = none → lead = []) := by
  rcases List.eq_nil_or_concat typed.finished with hnil | ⟨pieces, piece, hfinished⟩
  · exact ⟨[], [], by rw [text, front, hnil]; rfl, isBlankRun_nil, Or.inl rfl, fun _ _ => rfl⟩
  · refine ⟨pieces.flatMap FinishedPiece.text ++ (Operator.textOf piece.operator ++ piece.gap ++ piece.version
      ++ piece.before ++ [',']), piece.after, ?_, piece.after_blank, Or.inr ⟨_, (List.append_assoc ..).symm⟩,
      ?_⟩
    · rw [text, front, hfinished]
      simp [FinishedPiece.text]
    · exact fun hversion hoperator => typed.after_of_open hversion hoperator piece (by rw [hfinished]; simp)

theorem lastNot_isBlank (typed : TypedConstraint) : LastNot isBlank typed.text := by
  intro c hc
  have hmem := List.mem_of_getLast? hc
  by_cases hversion : typed.version = []
  · cases hoperator : typed.operator with
    | some operator =>
        obtain ⟨⟨first, more, htext, -⟩, -⟩ := operator.exists_text
        have hlast : typed.text = typed.front ++ Operator.textOf typed.operator := by
          rw [text, last, typed.gap_of_open hversion, hversion, List.append_nil, List.append_nil]
        rw [hlast, List.getLast?_append_of_ne_nil _ (by rw [hoperator, Operator.textOf, htext]; simp)] at hc
        exact (isConstraintChar_of_mem_textOf (List.mem_of_getLast? hc)).2
    | none =>
        obtain ⟨left, lead, htext, -, hleft, hopen⟩ := typed.exists_last
        have hlast : typed.text = left := by
          rw [htext, hopen hversion hoperator, last, typed.gap_of_open hversion, hversion, hoperator]
          simp [Operator.textOf]
        rw [hlast] at hc
        rcases hleft with rfl | ⟨more, rfl⟩
        · cases hc
        · obtain rfl : c = ',' := by simpa using hc.symm
          decide
  · have hlast : typed.text = typed.front ++ Operator.textOf typed.operator ++ typed.gap ++ typed.version := by
      rw [text, last]
      simp only [List.append_assoc]
    rw [hlast, List.getLast?_append_of_ne_nil _ hversion] at hc
    exact (isConstraintChar_of_isVersionChar (isVersionChar_of_mem (List.mem_of_getLast? hc))).2

theorem isTrimmed (typed : TypedConstraint) : IsTrimmed typed.text := by
  refine ⟨?_, typed.lastNot_isBlank⟩
  rcases typed.exists_head with ⟨hnil, -⟩ | ⟨c, rest, htext, hc⟩
  · rw [hnil]
    exact headNot_nil
  · rw [htext]
    refine headNot_cons.mpr ?_
    rcases hc with hc | ⟨-, hc | rfl⟩
    · exact (isOperatorStart_excludes hc).1
    · exact isBlank_of_isAsciiDigit hc
    · decide

theorem ne_nil (h : typed.HasOperators) : typed.text ≠ [] := by
  intro hnil
  rcases typed.exists_head with ⟨-, hnone⟩ | ⟨c, rest, htext, -⟩
  · have := h.1
    rw [hnone] at this
    cases this
  · rw [hnil] at htext
    cases htext

/-- With an operator everywhere it may be typed in every dialect. -/
theorem isConstraintText (h : typed.HasOperators) : IsConstraintText typed.text := by
  refine ⟨typed.isTrimmed, fun hne => ?_⟩
  rcases typed.exists_head with ⟨hnil, -⟩ | ⟨c, rest, htext, hc⟩
  · exact absurd hnil hne
  · have hstart : isOperatorStart c = true := hc.resolve_right fun hbare => hbare.1 h
    rw [htext, isOperatorConstraint, hstart, Bool.true_and, List.all_eq_true]
    exact fun x hx => isConstraintChar_of_mem (by rw [htext]; exact List.mem_cons_of_mem c hx)

/-- In a table of packages it may be typed in any case. -/
theorem isTableConstraint (typed : TypedConstraint) : IsTableConstraint typed.text := by
  refine ⟨typed.isTrimmed, ?_⟩
  rcases typed.exists_head with ⟨hnil, -⟩ | ⟨c, rest, htext, hc⟩
  · rw [hnil]
    rfl
  · have hstart : (isOperatorStart c || c == '*' || isDecimal c) = true := by
      rcases hc with hc | ⟨-, hc | rfl⟩
      · simp [hc]
      · simp [isDecimal_of_isAsciiDigit hc]
      · decide
    rw [htext, isPoetryConstraint, hstart, Bool.true_and, List.all_eq_true]
    intro x hx
    have hchar : isConstraintChar x = true :=
      typed.isConstraintChar_of_mem (by rw [htext]; exact List.mem_cons_of_mem c hx)
    simp [hchar]

/-! ### The site at the cursor -/

theorem headNot_isOperatorStart_version (typed : TypedConstraint) :
    HeadNot isOperatorStart typed.version ∧ HeadNot isBlank typed.version := by
  rcases typed.version_typed with hnil | hplain
  · rw [hnil]
    exact ⟨headNot_nil, headNot_nil⟩
  · exact hplain.headNot

theorem isTrimmed_version (typed : TypedConstraint) : IsTrimmed typed.version :=
  ⟨typed.headNot_isOperatorStart_version.2, fun _ hc =>
    (isConstraintChar_of_isVersionChar (isVersionChar_of_mem (List.mem_of_getLast? hc))).2⟩

/-- The operator of the last constraint is told from what follows it: blanks, a digit, or nothing. -/
theorem detect?_last {lead : List Char} (hlead : IsBlankRun lead) :
    Operator.detect? (lead ++ typed.last) = typed.operator := by
  rw [Operator.detect?_blanks hlead, last]
  cases hoperator : typed.operator with
  | none =>
      rw [typed.gap_of_bare hoperator]
      exact Operator.detect?_eq_none_of_head typed.headNot_isOperatorStart_version.2
        typed.headNot_isOperatorStart_version.1
  | some operator =>
      rw [Operator.textOf, List.append_assoc]
      refine Operator.detect?_text operator fun hequals => ?_
      have hhead : HeadNot isOperatorStart (typed.gap ++ typed.version) := by
        refine HeadNot.append (fun c hc => ?_) fun _ => typed.headNot_isOperatorStart_version.1
        by_contra hstart
        have hblank := typed.gap_blank c (List.mem_of_head? hc)
        rw [(isOperatorStart_excludes (by simpa using hstart)).1] at hblank
        cases hblank
      exact absurd (hhead '=' hequals) (by decide)

theorem headNot_isBlank_last (typed : TypedConstraint) : HeadNot isBlank typed.last := by
  rw [last]
  rcases exists_head_of_operator typed.gap_of_bare typed.version with
    ⟨-, hlast⟩ | ⟨c, more, hlast, hstart⟩
  · rw [hlast]
    exact typed.headNot_isOperatorStart_version.2
  · rw [hlast]
    exact headNot_cons.mpr (isOperatorStart_excludes hstart).1

theorem comma_notMem_last (typed : TypedConstraint) : ',' ∉ typed.last := by
  simp only [last, List.mem_append, not_or]
  refine ⟨⟨fun hmem => ?_, typed.gap_blank.notMem (by decide)⟩, fun hmem => ?_⟩
  · cases hoperator : typed.operator with
    | none =>
        rw [hoperator] at hmem
        cases hmem
    | some operator =>
        rw [hoperator] at hmem
        exact absurd (operator.exists_text.2 ',' hmem) (by decide)
  · exact absurd (isVersionChar_of_mem hmem) (by decide)

/-- **The completion of what is typed.** A dependency at the end of a line with what is typed for its constraint is
completed there: what is typed of the last version is replaced, and an operator is missing only where none
is typed. -/
theorem exists_completionSite? (typed : TypedConstraint) {d : Dependency} {before : List Char}
    (hspan : d.span = ⟨before.length, typed.text.length⟩) (hconstraint : d.constraint = typed.text) :
    ∃ site, d.completionSite? (before ++ typed.text) (before ++ typed.text).length = some site ∧
      site.dependency = d ∧
      site.replace = ⟨(before ++ typed.text).length - typed.version.length, typed.version.length⟩ ∧
      site.typed = typed.version ∧
      site.needsOperator = (typed.operator.isNone && d.dialect != .poetryTable) := by
  obtain ⟨left, lead, htext, hlead, hleft, -⟩ := typed.exists_last
  have hcovers : d.span.Covers (before ++ typed.text) d.constraint :=
    ⟨before, [], by rw [hconstraint, List.append_nil], by rw [hspan, hconstraint]⟩
  have hcomma : ',' ∉ lead ++ typed.last := by
    rw [List.mem_append, not_or]
    exact ⟨hlead.notMem (by decide), typed.comma_notMem_last⟩
  have hpiece : d.IsPiece ⟨(before ++ left).length, (lead ++ typed.last).length⟩ :=
    ⟨left, lead ++ typed.last, [], by rw [hconstraint, htext, List.append_nil],
      by rw [hspan, List.length_append], hcomma, hleft, Or.inl rfl⟩
  have hline : before ++ typed.text = (before ++ left) ++ (lead ++ typed.last) ++ [] := by
    rw [htext]
    simp
  have htouched : (⟨(before ++ left).length, (lead ++ typed.last).length⟩ : Span).contains
      (before ++ typed.text).length = true := by
    rw [Span.contains_iff, Span.stop, hline]
    simp only [List.length_append, List.length_nil]
    omega
  -- The last piece is blanks, the operator, blanks, and the version.
  have hdetect := typed.detect?_last hlead
  have hparts : lead ++ typed.last = lead ++ Operator.textOf (Operator.detect? (lead ++ typed.last))
      ++ typed.gap ++ typed.version ++ [] := by
    rw [hdetect, last]
    simp
  have hreplace := d.replace_pieceSite (before ++ left) [] (before ++ typed.text).length hparts
    (takeWhile_blank hlead typed.headNot_isBlank_last) typed.gap_blank typed.isTrimmed_version isBlankRun_nil
    fun _ => rfl
  rw [← hline] at hreplace
  have hend : before ++ typed.text = (before ++ typed.front ++ Operator.textOf typed.operator ++ typed.gap)
      ++ typed.version := by
    rw [text, last]
    simp
  have hwhole : (d.pieceSite (before ++ typed.text) (before ++ typed.text).length
      ⟨(before ++ left).length, (lead ++ typed.last).length⟩).replace
        = ⟨(before ++ typed.text).length - typed.version.length, typed.version.length⟩ := by
    rw [hreplace, hdetect, hline, last]
    simp only [List.length_append, List.length_nil, Span.mk.injEq, and_true]
    omega
  have hplaced := Dependency.wellPlaced_of_piece hcovers hpiece htouched
  refine ⟨_, Dependency.completionSite?_eq hcovers hpiece htouched, rfl, hwhole, ?_, ?_⟩
  · have hversion : (⟨(before ++ typed.text).length - typed.version.length, typed.version.length⟩ : Span).Covers
        (before ++ typed.text) typed.version :=
      ⟨_, [], by rw [List.append_nil]; exact hend, by rw [hend, List.length_append, Nat.add_sub_cancel]⟩
    have hin := Span.stop_le_of_covers hversion
    rw [hplaced.typed, hwhole, Span.slice_of_covers hversion, if_pos, Int.toNat_natCast,
      Nat.sub_sub_self (by simp only [Span.stop] at hin; omega), List.take_length]
    rw [Span.contains_iff, Span.stop]
    simp only [Span.stop] at hin ⊢
    omega
  · have hslice : (⟨(before ++ left).length, (lead ++ typed.last).length⟩ : Span).slice (before ++ typed.text)
        = lead ++ typed.last := Span.slice_of_covers ⟨before ++ left, [], hline, rfl⟩
    rw [Bool.eq_iff_iff, hplaced.needsOperator, hslice, hdetect]
    change typed.operator = none ∧ d.dialect ≠ .poetryTable ↔ _
    simp

end TypedConstraint

end ManifestLens
