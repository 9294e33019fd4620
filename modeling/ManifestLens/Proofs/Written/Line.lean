import ManifestLens.Proofs.Manifest.ArrayLine
import ManifestLens.Proofs.Manifest.RequirementsLine
import ManifestLens.Proofs.Manifest.Statement

/-!
# Written requirements lines

A requirements line states a package, extras and constraints, and may go on with a marker, a comment, an
option or a backslash. None of these starts within the statement: what cuts a line off stands behind a
blank, and behind a blank of a statement comes a name, an operator or a digit.
-/

namespace ManifestLens

open Text

/-! ### The end of a line -/

/-- What may follow the statement of a requirements line. -/
inductive EndsLine : List Char → Prop
  | blanks {run : List Char} : IsBlankRun run → EndsLine run
  | marker {run marker : List Char} : IsBlankRun run → EndsLine (run ++ ';' :: marker)
  | comment {run comment : List Char} {c : Char} : IsBlankRun run → isBlank c = true →
      EndsLine (run ++ c :: '#' :: comment)
  | option {run option : List Char} {c : Char} : IsBlankRun run → isBlank c = true →
      startsOption option = true → EndsLine (run ++ c :: option)
  | continued {run blanks : List Char} : IsBlankRun run → IsBlankRun blanks →
      EndsLine (run ++ '\\' :: blanks)

/-- What cuts a line off starts with a hash or a hyphen. -/
structure StopsAtMark (stops : List Char → Bool) : Prop where
  nil : stops [] = false
  cons : ∀ c rest, c ≠ '#' → c ≠ '-' → stops (c :: rest) = false

theorem stopsAtMark_startsComment : StopsAtMark startsComment where
  nil := rfl
  cons := fun c rest hhash _ => by simp [startsComment, hhash]

theorem stopsAtMark_startsOption : StopsAtMark startsOption where
  nil := rfl
  cons := fun c rest _ hhyphen => by
    by_contra h
    rw [Bool.not_eq_false, startsOption_iff] at h
    rcases h with ⟨d, more, hsplit, -⟩ | ⟨d, more, hsplit, -⟩
    · exact hhyphen (List.cons.inj hsplit).1
    · exact hhyphen (List.cons.inj hsplit).1

def isCutMark (c : Char) : Bool := c == '#' || c == '-'

theorem isCutMark_iff {c : Char} : isCutMark c = true ↔ c = '#' ∨ c = '-' := by
  rw [isCutMark, Bool.or_eq_true, beq_iff_eq, beq_iff_eq]

theorem isCutMark_of_isAsciiAlnum {c : Char} (h : isAsciiAlnum c = true) : isCutMark c = false := by
  by_contra hmark
  rcases isCutMark_iff.mp (by simpa using hmark) with rfl | rfl <;> revert h <;> decide

theorem isCutMark_of_isAsciiDigit {c : Char} (h : isAsciiDigit c = true) : isCutMark c = false :=
  isCutMark_of_isAsciiAlnum (by simp [isAsciiAlnum, h])

theorem isCutMark_of_isOperatorStart {c : Char} (h : isOperatorStart c = true) : isCutMark c = false := by
  rcases isOperatorStart_iff.mp h with rfl | rfl | rfl | rfl | rfl | rfl <;> decide

namespace StopsAtMark

variable {stops : List Char → Bool} {run right : List Char}

theorem of_headNot (h : StopsAtMark stops) (hright : HeadNot isCutMark right) : stops right = false := by
  cases right with
  | nil => exact h.nil
  | cons c rest =>
      have hc := headNot_cons.mp hright
      rw [← Bool.not_eq_true, isCutMark_iff, not_or] at hc
      exact h.cons c rest hc.1 hc.2

theorem of_isBlank (h : StopsAtMark stops) {c : Char} (hc : isBlank c = true) (rest : List Char) :
    stops (c :: rest) = false := by
  refine h.cons c rest ?_ ?_ <;> rintro rfl <;> revert hc <;> decide

theorem uncut_blanks (h : StopsAtMark stops) (hrun : IsBlankRun run) (hright : stops right = false) :
    Uncut stops run right :=
  ManifestLens.uncut_blanks hrun hright fun _ rest hc => h.of_isBlank hc rest

theorem cutBefore_blanks (h : StopsAtMark stops) (hrun : IsBlankRun run) : cutBefore stops run = run := by
  simpa [cutBefore] using cutBefore_append (h.uncut_blanks hrun h.nil)

end StopsAtMark

/-! ### The statement of a line -/

theorem uncut_pieces {stops : List Char → Bool} (hstops : StopsAtMark stops)
    (pieces : List WrittenPiece) (right : List Char) :
    Uncut stops (joinWith [','] (pieces.map WrittenPiece.text)) right := by
  have hpiece : ∀ (piece : WrittenPiece) (right : List Char), Uncut stops piece.text right := by
    intro piece right
    obtain ⟨c, rest, hversion, hdigit⟩ := piece.version_plain.head
    have hoperator : ∀ c ∈ piece.operator.text, isBlank c = false :=
      fun c hc => (isOperatorStart_excludes (piece.operator.exists_text.2 c hc)).1
    have hbehind : ∀ c ∈ piece.version, isBlank c = false :=
      fun c hc => (isConstraintChar_of_isVersionChar (piece.version_plain.all c hc)).2
    refine uncut_append.mpr ⟨uncut_append.mpr ⟨uncut_of_not_blank hoperator, ?_⟩,
      uncut_of_not_blank hbehind⟩
    refine hstops.uncut_blanks piece.gap_blank (hstops.of_headNot ?_)
    rw [hversion]
    exact headNot_cons.mpr (isCutMark_of_isAsciiDigit hdigit)
  induction pieces with
  | nil => exact uncut_nil
  | cons piece rest ih =>
      cases rest with
      | nil => exact hpiece piece right
      | cons next more =>
          have hjoin : joinWith [','] ((piece :: next :: more).map WrittenPiece.text)
              = piece.text ++ ([','] ++ joinWith [','] ((next :: more).map WrittenPiece.text)) := by
            simp [joinWith]
          have hcomma : ∀ c ∈ [','], isBlank c = false := by decide
          rw [hjoin]
          exact uncut_append.mpr ⟨hpiece piece _,
            uncut_append.mpr ⟨uncut_of_not_blank hcomma, ih⟩⟩

/-- A semicolon is not cut off at the end, whatever becomes of what follows it. -/
theorem exists_marker_of_clipped (front marker : List Char) :
    ∃ left, withoutContinuation (trimRight (front ++ ';' :: marker)) = front ++ ';' :: left := by
  obtain ⟨cut, hcut, hcases⟩ := exists_clipped
    (rfl : withoutContinuation (trimRight (front ++ ';' :: marker)) = _)
  generalize withoutContinuation (trimRight (front ++ ';' :: marker)) = part at hcut
  have hnot : ';' ∉ cut := by
    rcases hcases with ⟨blanks, rfl, hblanks⟩ | ⟨hblanks, -⟩
    · intro hmem
      rcases List.mem_cons.mp hmem with hmem | hmem
      · cases hmem
      · exact IsBlankRun.notMem hblanks (by decide) hmem
    · exact IsBlankRun.notMem hblanks (by decide)
  rcases List.append_eq_append_iff.mp hcut with ⟨between, rfl, hrest⟩ | ⟨between, rfl, hrest⟩
  · cases between with
    | nil => exact absurd (by rw [← List.nil_append cut, ← hrest]; simp) hnot
    | cons c left =>
        obtain ⟨rfl, -⟩ := List.cons.inj hrest
        exact ⟨left, rfl⟩
  · exact absurd (by rw [hrest]; simp) hnot

theorem startsOption_cutBefore {stops : List Char → Bool} {option : List Char}
    (h : startsOption option = true) : startsOption (cutBefore stops option) = true := by
  have hhyphen : isBlank '-' = false := by decide
  have hletter : ∀ {c : Char}, isAsciiLetter c = true → isBlank c = false := by
    intro c hc
    exact isBlank_of_isAsciiAlnum (by simp [isAsciiAlnum, hc])
  rw [startsOption_iff] at h ⊢
  rcases h with ⟨c, rest, rfl, hc⟩ | ⟨c, rest, rfl, hc⟩
  · exact Or.inl ⟨c, cutBefore stops rest, by simp [cutBefore, hhyphen, hletter hc], hc⟩
  · exact Or.inr ⟨c, cutBefore stops rest, by simp [cutBefore, hhyphen, hletter hc], hc⟩

namespace Statement

variable {s : Statement} {indent gap tail : List Char}

theorem not_blank_of_mem_head (hname : IsWrittenName s.name) : ∀ c ∈ s.head, isBlank c = false := by
  intro c hc
  rcases isNameChar_or_mark_of_mem_head hname hc with hc | rfl | rfl | rfl
  · exact isBlank_of_isNameChar hc
  all_goals decide

/-- The statement of a line with the blanks before and within it. -/
def line (s : Statement) (indent gap : List Char) : List Char := indent ++ s.head ++ gap ++ s.constraint

theorem uncut_line {stops : List Char → Bool} (hstops : StopsAtMark stops)
    (hname : IsWrittenName s.name) (hindent : IsBlankRun indent) (hgap : IsBlankRun gap)
    (hbare : s.pieces = [] → gap = []) (right : List Char) : Uncut stops (s.line indent gap) right := by
  refine uncut_append.mpr ⟨uncut_append.mpr ⟨uncut_append.mpr ⟨?_,
    uncut_of_not_blank (not_blank_of_mem_head hname)⟩, ?_⟩, uncut_pieces hstops s.pieces right⟩
  · obtain ⟨first, more, hfirst, halnum⟩ := hname.head
    refine hstops.uncut_blanks hindent (hstops.of_headNot ?_)
    rw [head, hfirst]
    exact headNot_cons.mpr (isCutMark_of_isAsciiAlnum halnum)
  · by_cases hnil : s.pieces = []
    · rw [hbare hnil]
      exact uncut_nil
    · obtain ⟨c, rest, hc, hstart, -⟩ :=
        s.isConstraintText.exists_head (fun h => hnil (constraint_eq_nil_iff.mp h))
      refine hstops.uncut_blanks hgap (hstops.of_headNot ?_)
      rw [hc]
      exact headNot_cons.mpr (isCutMark_of_isOperatorStart hstart)

theorem lastNot_line (hname : IsWrittenName s.name) (hbare : s.pieces = [] → gap = []) :
    LastNot isLineTail (s.line indent gap) := by
  intro c hc
  by_cases hnil : s.pieces = []
  · have hhead : s.head ≠ [] := by simp [head, hname.ne_nil]
    have hmem : c ∈ s.head := by
      rw [line, constraint_eq_nil_iff.mpr hnil, hbare hnil, List.append_nil, List.append_nil,
        List.getLast?_append_of_ne_nil _ hhead] at hc
      exact List.mem_of_getLast? hc
    have hne : c ≠ '\\' := by
      rintro rfl
      rcases isNameChar_or_mark_of_mem_head hname hmem with hc | hc | hc | hc <;> revert hc <;> decide
    simp [isLineTail, not_blank_of_mem_head hname c hmem, hne]
  · have hne : s.constraint ≠ [] := fun h => hnil (constraint_eq_nil_iff.mp h)
    rw [line, List.getLast?_append_of_ne_nil _ hne] at hc
    have hslash : c ≠ '\\' :=
      ne_of_isConstraintChar (s.isConstraintText.all c (List.mem_of_getLast? hc)) (by decide)
    simp [isLineTail, s.isConstraintText.trimmed.last c hc, hslash]

theorem head?_line_ne_hash (hname : IsWrittenName s.name) (hindent : IsBlankRun indent) (tail : List Char) :
    (s.line indent gap ++ tail).head? ≠ some '#' := by
  obtain ⟨first, more, hfirst, halnum⟩ := hname.head
  intro hhash
  have hmem : '#' ∈ indent ++ [first] := by
    cases indent with
    | nil => simp_all [line, head]
    | cons c rest => simp_all [line]
  rcases List.mem_append.mp hmem with hmem | hmem
  · exact hindent.notMem (by decide) hmem
  · obtain rfl := List.mem_singleton.mp hmem
    revert halnum
    decide

/-- What is read of a line: the statement, and maybe a marker. -/
theorem exists_requirementPart (hname : IsWrittenName s.name) (hindent : IsBlankRun indent)
    (hgap : IsBlankRun gap) (hbare : s.pieces = [] → gap = []) (htail : EndsLine tail) :
    ∃ trail marker, requirementPart (s.line indent gap ++ tail)
      = s.line indent gap ++ (trail ++ markerText marker) ∧ IsBlankRun trail := by
  have hcut : ∀ {stops}, StopsAtMark stops → ∀ run rest, Uncut stops run rest →
      cutBefore stops (s.line indent gap ++ (run ++ rest))
        = s.line indent gap ++ (run ++ cutBefore stops rest) := by
    intro stops hstops run rest hrun
    rw [cutBefore_append (uncut_line hstops hname hindent hgap hbare _), cutBefore_append hrun]
  have hlast : LastNot isLineTail (s.line indent gap) := lastNot_line hname hbare
  have hblanks : ∀ {stops}, StopsAtMark stops → ∀ run, IsBlankRun run →
      cutBefore stops (s.line indent gap ++ run) = s.line indent gap ++ run := by
    intro stops hstops run hrun
    simpa [cutBefore] using hcut hstops run [] (hstops.uncut_blanks hrun hstops.nil)
  rw [requirementPart_eq _ (head?_line_ne_hash hname hindent tail)]
  cases htail with
  | blanks hrun =>
      refine ⟨[], none, ?_, isBlankRun_nil⟩
      rw [hblanks stopsAtMark_startsComment _ hrun, hblanks stopsAtMark_startsOption _ hrun,
        clipped_blanks hrun hlast]
      simp [markerText]
  | @marker run marker hrun =>
      -- What is left of the marker goes with it.
      have hmark : ∀ {stops}, StopsAtMark stops → ∀ rest,
          cutBefore stops (s.line indent gap ++ (run ++ ';' :: rest))
            = s.line indent gap ++ (run ++ ';' :: cutBefore stops rest) := by
        intro stops hstops rest
        have hsemicolon : cutBefore stops (';' :: rest) = ';' :: cutBefore stops rest := by
          have hblank : isBlank ';' = false := by decide
          simp [cutBefore, hblank]
        rw [hcut hstops run _ (hstops.uncut_blanks hrun (hstops.cons ';' _ (by decide) (by decide))),
          hsemicolon]
      rw [hmark stopsAtMark_startsComment, hmark stopsAtMark_startsOption]
      obtain ⟨left, hleft⟩ := exists_marker_of_clipped (s.line indent gap ++ run)
        (cutBefore startsOption (cutBefore startsComment marker))
      refine ⟨run, some left, ?_, hrun⟩
      rw [← List.append_assoc, hleft]
      simp [markerText]
  | @comment run comment c hrun hc =>
      refine ⟨[], none, ?_, isBlankRun_nil⟩
      have hstop : cutBefore startsComment (c :: '#' :: comment) = [] := by
        simp [cutBefore, hc, startsComment]
      rw [hcut stopsAtMark_startsComment run _ (stopsAtMark_startsComment.uncut_blanks hrun
          (stopsAtMark_startsComment.of_isBlank hc _)), hstop, List.append_nil,
        hblanks stopsAtMark_startsOption _ hrun, clipped_blanks hrun hlast]
      simp [markerText]
  | @option run option c hrun hc hoption =>
      refine ⟨[], none, ?_, isBlankRun_nil⟩
      have hcomment : startsComment option = false := by
        rw [startsOption_iff] at hoption
        rcases hoption with ⟨d, more, rfl, -⟩ | ⟨d, more, rfl, -⟩ <;> rfl
      have hgo : cutBefore startsComment (c :: option) = c :: cutBefore startsComment option := by
        simp [cutBefore, hcomment]
      have hstop : cutBefore startsOption (c :: cutBefore startsComment option) = [] := by
        simp [cutBefore, hc, startsOption_cutBefore hoption]
      rw [hcut stopsAtMark_startsComment run _ (stopsAtMark_startsComment.uncut_blanks hrun
          (stopsAtMark_startsComment.of_isBlank hc _)), hgo,
        hcut stopsAtMark_startsOption run _ (stopsAtMark_startsOption.uncut_blanks hrun
          (stopsAtMark_startsOption.of_isBlank hc _)), hstop, List.append_nil,
        clipped_blanks hrun hlast]
      simp [markerText]
  | @continued run blanks hrun hblank =>
      refine ⟨run, none, ?_, hrun⟩
      have hslash : ∀ {stops}, StopsAtMark stops →
          cutBefore stops (s.line indent gap ++ (run ++ '\\' :: blanks))
            = s.line indent gap ++ (run ++ '\\' :: blanks) := by
        intro stops hstops
        have hvisible : isBlank '\\' = false := by decide
        rw [hcut hstops run _ (hstops.uncut_blanks hrun (hstops.cons '\\' _ (by decide) (by decide))),
          cutBefore, hvisible, Bool.false_and, if_neg (by simp), hstops.cutBefore_blanks hblank]
      rw [hslash stopsAtMark_startsComment, hslash stopsAtMark_startsOption, ← List.append_assoc,
        clipped_continued hblank]
      simp [markerText]

/-- The statement of a line as a form, with what is read behind it. -/
def lineForm (s : Statement) (indent gap trail : List Char) (marker : Option (List Char))
    (hname : IsWrittenName s.name) (hindent : IsBlankRun indent) (hgap : IsBlankRun gap)
    (hbare : s.pieces = [] → gap = []) (htrail : IsBlankRun trail) : RequirementForm where
  indent := indent
  name := s.name
  bracket := s.bracket
  gap := gap
  constraint := s.constraint
  trail := trail
  marker := marker
  indent_blank := hindent
  name_written := hname
  gap_blank := hgap
  constraint_text := s.isConstraintText
  trail_blank := htrail
  gap_of_bare := fun h => hbare (constraint_eq_nil_iff.mp h)
  nothing_after_open := fun form hform hopen => by
    rw [isClosed_of_bracket hform] at hopen
    cases hopen

section LineForm

variable {trail : List Char} {marker : Option (List Char)} {hname : IsWrittenName s.name}
  {hindent : IsBlankRun indent} {hgap : IsBlankRun gap} {hbare : s.pieces = [] → gap = []}
  {htrail : IsBlankRun trail}

theorem text_lineForm : (s.lineForm indent gap trail marker hname hindent hgap hbare htrail).text
    = s.line indent gap ++ (trail ++ markerText marker) := by
  simp [lineForm, RequirementForm.text, RequirementForm.head, RequirementForm.tail, line, head]

theorem toDependency?_lineForm {rule : NameRule} (haccepts : rule.accepts s.name = true)
    (dialect : Dialect) (number : Nat) (group : Group) (offset : Nat) :
    ((s.lineForm indent gap trail marker hname hindent hgap hbare htrail).requirement
        offset).toDependency? rule dialect number group
      = some (s.dependency dialect number group (offset + indent.length)
          (offset + (indent ++ s.head ++ gap).length)) := by
  refine Requirement.toDependency?_eq_some_iff.mpr ⟨haccepts, ?_⟩
  have hextras := s.extras_eq
  simp only [dependency, RequirementForm.requirement, lineForm, RequirementForm.head, head, hextras,
    List.append_assoc]

theorem pointsElsewhere_lineForm :
    pointsElsewhere (s.lineForm indent gap trail marker hname hindent hgap hbare htrail).text = false := by
  have hchars : ∀ c ∈ s.line indent gap ++ trail, c ≠ '@' ∧ c ≠ ':' := by
    have hblank : ∀ {run : List Char}, IsBlankRun run → ∀ c ∈ run, c ≠ '@' ∧ c ≠ ':' := by
      intro run hrun c hc
      have := hrun c hc
      refine ⟨?_, ?_⟩ <;> rintro rfl <;> revert this <;> decide
    intro c hc
    simp only [line, List.mem_append] at hc
    rcases hc with (((hc | hc) | hc) | hc) | hc
    · exact hblank hindent c hc
    · rcases isNameChar_or_mark_of_mem_head hname hc with hc | rfl | rfl | rfl
      · refine ⟨?_, ?_⟩ <;> rintro rfl <;> revert hc <;> decide
      all_goals decide
    · exact hblank hgap c hc
    · have := s.isConstraintText.all c hc
      exact ⟨ne_of_isConstraintChar this (by decide), ne_of_isConstraintChar this (by decide)⟩
    · exact hblank htrail c hc
  have hpart : ∀ c ∈ (s.line indent gap ++ (trail ++ markerText marker)).takeWhile (· != ';'),
      c ≠ '@' ∧ c ≠ ':' := by
    intro c hc
    have hbefore : c ∈ (s.line indent gap ++ trail) := by
      cases marker with
      | none => simpa [markerText] using (List.takeWhile_sublist _).subset hc
      | some left =>
          rw [markerText, ← List.append_assoc, List.takeWhile_append] at hc
          split at hc
          · simpa using hc
          · exact (List.takeWhile_sublist _).subset hc
    exact hchars c hbefore
  rw [text_lineForm, pointsElsewhere_eq_false]
  refine ⟨fun hmem => (hpart _ hmem).1 rfl, fun hscheme => ?_⟩
  exact (hpart ':' (hscheme.subset (by decide))).2 rfl

end LineForm

/-- What follows the name of a line is neither a part of the name nor the rest of a scheme. -/
theorem headNot_afterName {p : Char → Bool} (hgap : IsBlankRun gap) (htail : EndsLine tail)
    (hp : ∀ c, isBlank c = true ∨ isOperatorStart c = true ∨ c = '[' ∨ c = ';' ∨ c = '\\' → p c = false) :
    HeadNot p (bracketText s.bracket ++ (gap ++ (s.constraint ++ tail))) := by
  have hblanks : ∀ {run rest : List Char}, IsBlankRun run → HeadNot p rest → HeadNot p (run ++ rest) := by
    intro run rest hrun hrest
    exact HeadNot.append (fun c hc => hp c (Or.inl (hrun c (List.mem_of_head? hc)))) fun _ => hrest
  refine HeadNot.append ?_ fun _ => hblanks hgap (HeadNot.append ?_ fun _ => ?_)
  · rw [bracketText_bracket]
    split
    · exact headNot_nil
    · exact headNot_cons.mpr (hp '[' (by simp))
  · intro c hc
    obtain ⟨d, rest, hd, hstart, -⟩ := s.isConstraintText.exists_head (by
      rintro hnil
      rw [hnil] at hc
      cases hc)
    rw [hd] at hc
    obtain rfl := Option.some.inj hc
    exact hp d (Or.inr (Or.inl hstart))
  · cases htail with
    | blanks hrun => simpa using hblanks hrun headNot_nil
    | marker hrun => exact hblanks hrun (headNot_cons.mpr (hp ';' (by simp)))
    | comment hrun hc => exact hblanks hrun (headNot_cons.mpr (hp _ (Or.inl hc)))
    | option hrun hc => exact hblanks hrun (headNot_cons.mpr (hp _ (Or.inl hc)))
    | continued hrun => exact hblanks hrun (headNot_cons.mpr (hp '\\' (by simp)))

/-- **A written requirements line** states what was written, at its columns. -/
theorem requirementsDependencies_line {rule : NameRule} (number : Nat) (group : Group)
    (haccepts : rule.accepts s.name = true) (hfeed : '\n' ∉ s.name) (hindent : IsBlankRun indent)
    (hgap : IsBlankRun gap) (hbare : s.pieces = [] → gap = []) (htail : EndsLine tail) :
    requirementsDependencies rule (s.line indent gap ++ tail) number group
      = [s.dependency .requirementsLine number group indent.length
          (indent ++ s.head ++ gap).length] := by
  have hname := isWrittenName_of_accepts haccepts hfeed
  obtain ⟨trail, marker, hpart, htrail⟩ := exists_requirementPart hname hindent hgap hbare htail
  have hsplit : s.line indent gap ++ tail
      = indent ++ (s.name ++ (bracketText s.bracket ++ (gap ++ (s.constraint ++ tail)))) := by
    simp [line, head]
  have hnamed : isUnnamedLine (s.line indent gap ++ tail) = false := by
    rw [hsplit]
    refine isUnnamedLine_eq_false hindent hname (headNot_afterName hgap htail ?_)
      (headNot_afterName hgap htail ?_)
    · rintro c (hc | hc | rfl | rfl | rfl)
      · exact isNameChar_of_isBlank hc
      · exact (isOperatorStart_excludes hc).2.1
      all_goals decide
    · rintro c (hc | hc | rfl | rfl | rfl)
      · exact isSchemeMark_eq_false (Or.inl hc)
      · exact isSchemeMark_eq_false (Or.inr (Or.inl hc))
      all_goals decide
  have hfound := requirementsDependencies_eq rule number group
    (s.lineForm indent gap trail marker hname hindent hgap hbare htrail)
    (by rw [hpart, text_lineForm]) hnamed pointsElsewhere_lineForm
  rw [toDependency?_lineForm haccepts, Nat.zero_add, Nat.zero_add] at hfound
  exact hfound

end Statement

end ManifestLens
