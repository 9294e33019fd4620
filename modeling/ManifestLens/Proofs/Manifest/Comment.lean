import ManifestLens.Manifest.Line
import ManifestLens.Proofs.Manifest.Placement
import ManifestLens.Proofs.Manifest.Quoted
import ManifestLens.Proofs.Manifest.RequirementsLine
import ManifestLens.Proofs.Text.Lines

/-!
# Comments are not read

Whatever a comment says, quotes, brackets, options or addresses, it says nothing to the reader. A line of a
TOML manifest is read through its code only. A requirements line is first looked at as a whole, to see whether
it names a package at all; but what decides about that is its first word, and the first word of a line is
either in front of the comment or shows that there is nothing but a comment.
-/

namespace ManifestLens

open Text

/-! ### The first word of a requirements line -/

/-- The visible characters up to the first blank behind them. -/
def firstWord (text : List Char) : List Char := (text.dropWhile isBlank).takeWhile (!isBlank ·)

/-- A word that no name of a package starts with. -/
def opensUnnamed : List Char → Bool
  | [] => true
  | c :: rest => "#-./~".toList.contains c ||
      remoteSchemes.any fun scheme => scheme.isPrefixOf (asciiLower (c :: rest))

theorem isPrefixOf_takeWhile {p : Char → Bool} {word : List Char} (h : ∀ c ∈ word, p c = true)
    (text : List Char) : word.isPrefixOf (text.takeWhile p) = word.isPrefixOf text := by
  induction word generalizing text with
  | nil => simp
  | cons c word ih =>
      cases text with
      | nil => rfl
      | cons d text =>
          have hmore := ih (fun x hx => h x (List.mem_cons_of_mem c hx)) text
          cases hd : p d with
          | true => rw [List.takeWhile_cons_of_pos hd, List.isPrefixOf, List.isPrefixOf, hmore]
          | false =>
              have hne : (c == d) = false := by
                rw [beq_eq_false_iff_ne]
                rintro rfl
                rw [h c List.mem_cons_self] at hd
                cases hd
              simp [List.takeWhile_cons_of_neg, hd, List.isPrefixOf, hne]

theorem isBlank_asciiLowerChar (c : Char) : isBlank (asciiLowerChar c) = isBlank c := by
  cases hname : Package.isNameChar c with
  | true => rw [isBlank_of_isNameChar hname, isBlank_of_isNameChar (isNameChar_asciiLowerChar hname)]
  | false => rw [asciiLowerChar_of_not_isNameChar hname]

theorem isBlank_of_mem_scheme : ∀ scheme ∈ remoteSchemes, ∀ c ∈ scheme, (!isBlank c) = true := by decide

theorem isUnnamedLine_eq (text : List Char) : isUnnamedLine text = opensUnnamed (firstWord text) := by
  obtain ⟨lead, trail, htext, hlead, htrail, htrimmed, -, -⟩ := exists_margins text
  have hword : firstWord text = (trim text).takeWhile (!isBlank ·) := by
    cases hbody : trim text with
    | nil =>
        rw [hbody, List.append_nil] at htext
        have hblank := dropWhile_run (hlead.append htrail) (headNot_nil (p := isBlank))
        rw [List.append_nil] at hblank
        rw [firstWord, htext, hblank]
    | cons c rest =>
        rw [hbody] at htext htrimmed
        have hhead : HeadNot isBlank (c :: rest ++ trail) := htrimmed.head.append (by simp)
        have htrailing : trail.takeWhile (!isBlank ·) = [] := by
          cases trail with
          | nil => rfl
          | cons d _ => exact List.takeWhile_cons_of_neg (by simp [htrail d List.mem_cons_self])
        rw [firstWord, htext, List.append_assoc, dropWhile_run hlead hhead, List.takeWhile_append, htrailing,
          List.append_nil]
        split
        · next hlength =>
          exact ((List.takeWhile_prefix _).eq_of_length hlength).symm
        · rfl
  rw [isUnnamedLine, hword]
  cases hbody : trim text with
  | nil => rfl
  | cons c rest =>
      rw [hbody] at htrimmed
      have hc : (!isBlank c) = true := by rw [htrimmed.head c rfl, Bool.not_false]
      have hschemes : ∀ scheme ∈ remoteSchemes,
          scheme.isPrefixOf (asciiLower ((c :: rest).takeWhile (!isBlank ·)))
            = scheme.isPrefixOf (asciiLower (c :: rest)) := by
        intro scheme hscheme
        rw [← isPrefixOf_takeWhile (isBlank_of_mem_scheme scheme hscheme) (asciiLower (c :: rest)), asciiLower,
          asciiLower, List.takeWhile_map]
        simp only [Function.comp_def, isBlank_asciiLowerChar]
      have hany : (remoteSchemes.any fun scheme =>
            scheme.isPrefixOf (asciiLower ((c :: rest).takeWhile (!isBlank ·))))
          = remoteSchemes.any fun scheme => scheme.isPrefixOf (asciiLower (c :: rest)) := by
        rw [Bool.eq_iff_iff, List.any_eq_true, List.any_eq_true]
        exact exists_congr fun scheme => and_congr_right fun hscheme => by rw [hschemes scheme hscheme]
      have hfirst : (c :: rest).takeWhile (!isBlank ·) = c :: rest.takeWhile (!isBlank ·) :=
        List.takeWhile_cons_of_pos hc
      rw [hfirst] at hany ⊢
      simp only [opensUnnamed, hany]

/-- Behind a blank nothing belongs to the first word, unless there is none before the blank. -/
theorem firstWord_append {c : Char} (hc : isBlank c = true) (front rest : List Char) :
    firstWord (front ++ c :: rest) = if firstWord front = [] then firstWord rest else firstWord front := by
  induction front with
  | nil => simp [firstWord, hc]
  | cons d front ih =>
      cases hd : isBlank d with
      | true => simpa [firstWord, hd] using ih
      | false =>
          have hword : ∀ text, firstWord (d :: text) = d :: text.takeWhile (!isBlank ·) := by
            intro text
            simp [firstWord, hd]
          rw [List.cons_append, hword, hword, if_neg (List.cons_ne_nil _ _), List.takeWhile_append,
            List.takeWhile_cons_of_neg (by simp [hc]), List.append_nil]
          split
          · next hlength => rw [(List.takeWhile_prefix _).eq_of_length hlength]
          · rfl

/-! ### The code of a requirements line -/

theorem cutBefore_cases (stops : List Char → Bool) (text : List Char) : cutBefore stops text = text ∨
    ∃ c rest, text = cutBefore stops text ++ c :: rest ∧ isBlank c = true ∧ stops rest = true := by
  induction text with
  | nil => exact .inl rfl
  | cons c rest ih =>
      rw [cutBefore]
      split
      · next hstop =>
        rw [Bool.and_eq_true] at hstop
        exact .inr ⟨c, rest, rfl, hstop⟩
      · rcases ih with hwhole | ⟨d, back, hsplit, hstop⟩
        · exact .inl (by rw [hwhole])
        · exact .inr ⟨d, back, by rw [List.cons_append, ← hsplit], hstop⟩

theorem head?_of_isPrefix {left right : List Char} {c : Char} (h : left <+: right) (hc : left.head? = some c) :
    right.head? = some c := by
  obtain ⟨rest, rfl⟩ := h
  cases left with
  | nil => cases hc
  | cons d left => exact hc

theorem cutBefore_cutBefore (text : List Char) :
    cutBefore startsComment (cutBefore startsComment text) = cutBefore startsComment text := by
  induction text with
  | nil => rfl
  | cons c rest ih =>
      by_cases hstop : (isBlank c && startsComment rest) = true
      · simp only [cutBefore, if_pos hstop]
      · have hkept : ¬ (isBlank c && startsComment (cutBefore startsComment rest)) = true := by
          rw [Bool.and_eq_true, startsComment, beq_iff_eq] at hstop ⊢
          exact fun h => hstop ⟨h.1, head?_of_isPrefix (cutBefore_isPrefix startsComment rest) h.2⟩
        simp only [cutBefore, if_neg hstop, if_neg hkept, ih]

theorem withoutComment_eq {text : List Char} (h : text.head? ≠ some '#') :
    withoutComment text = cutBefore startsComment text := by
  rw [withoutComment, if_neg h, beforeSpacedComment_eq]

theorem withoutComment_isPrefix (text : List Char) : withoutComment text <+: text := by
  by_cases h : text.head? = some '#'
  · rw [withoutComment, if_pos h]
    exact List.nil_prefix
  · rw [withoutComment_eq h]
    exact cutBefore_isPrefix startsComment text

theorem withoutComment_withoutComment (text : List Char) :
    withoutComment (withoutComment text) = withoutComment text := by
  by_cases h : text.head? = some '#'
  · simp [withoutComment, h, beforeSpacedComment]
  · have hcut : (cutBefore startsComment text).head? ≠ some '#' := fun hhead =>
      h (head?_of_isPrefix (cutBefore_isPrefix startsComment text) hhead)
    rw [withoutComment_eq h, withoutComment_eq hcut, cutBefore_cutBefore]

theorem isUnnamedLine_withoutComment (text : List Char) :
    isUnnamedLine (withoutComment text) = isUnnamedLine text := by
  have hhash : ∀ rest, opensUnnamed (firstWord ('#' :: rest)) = true := fun rest => rfl
  rw [isUnnamedLine_eq, isUnnamedLine_eq]
  by_cases h : text.head? = some '#'
  · obtain ⟨rest, rfl⟩ := List.head?_eq_some_iff.mp h
    rw [withoutComment, if_pos h, hhash]
    rfl
  · rw [withoutComment_eq h]
    rcases cutBefore_cases startsComment text with hwhole | ⟨c, rest, hsplit, hc, hcomment⟩
    · rw [hwhole]
    · obtain ⟨body, rfl⟩ := List.head?_eq_some_iff.mp (beq_iff_eq.mp hcomment)
      conv_rhs => rw [hsplit, firstWord_append hc]
      split
      · next hnone => rw [hnone, hhash]; rfl
      · rfl

/-- **A requirements line is read through its code.** -/
theorem requirementsDependencies_withoutComment (rule : NameRule) (text : List Char) (line : Nat) (group : Group) :
    requirementsDependencies rule (withoutComment text) line group
      = requirementsDependencies rule text line group := by
  rw [requirementsDependencies, requirementsDependencies, isUnnamedLine_withoutComment, requirementPart,
    requirementPart, withoutComment_withoutComment]

/-! ### Lines with another comment -/

theorem codeFrom_codeFrom (quote : Option Char) (line : List Char) :
    codeFrom quote (codeFrom quote line) = codeFrom quote line := by
  induction line generalizing quote with
  | nil => rfl
  | cons c rest ih =>
      rw [codeFrom]
      split
      · rfl
      · next hcode => rw [codeFrom, if_neg hcode, ih]

namespace ManifestKind

/-- The part of a line before its comment. -/
def codeOf : ManifestKind → List Char → List Char
  | .pyproject => codePart
  | .requirements => withoutComment

/-- What a comment starts with: a hash, and in a requirements file maybe a blank before it. -/
def IsCommentMark : ManifestKind → List Char → Prop
  | .pyproject, mark => mark = ['#']
  | .requirements, mark => mark = ['#'] ∨ ∃ c, isBlank c = true ∧ mark = [c, '#']

variable {kind : ManifestKind} {line mark body : List Char}

theorem codeOf_isPrefix (kind : ManifestKind) (line : List Char) : kind.codeOf line <+: line := by
  cases kind with
  | pyproject => exact codePart_isPrefix line
  | requirements => exact withoutComment_isPrefix line

theorem codeOf_codeOf (kind : ManifestKind) (line : List Char) :
    kind.codeOf (kind.codeOf line) = kind.codeOf line := by
  cases kind with
  | pyproject => exact codeFrom_codeFrom none line
  | requirements => exact withoutComment_withoutComment line

theorem codeOf_nil (kind : ManifestKind) : kind.codeOf [] = [] := by cases kind <;> rfl

theorem codeOf_replaced (hmark : kind.IsCommentMark mark) (hline : line = kind.codeOf line ++ (mark ++ body))
    (other : List Char) : kind.codeOf (kind.codeOf line ++ (mark ++ other)) = kind.codeOf line := by
  generalize hcode : kind.codeOf line = code at hline ⊢
  subst hline
  cases kind with
  | pyproject =>
      obtain rfl : mark = ['#'] := hmark
      have hread : codeFrom none (code ++ '#' :: body) = code ++ [] := by rw [List.append_nil]; exact hcode
      obtain ⟨hwhole, hrest⟩ := of_codeFrom_append hread
      -- The comment starts outside quotes.
      have hopen : quoteState none code = none := by
        by_contra hquote
        simp [codeFrom, hquote] at hrest
      change codeFrom none (code ++ '#' :: other) = code
      rw [codeFrom_append hwhole, hopen, codeFrom_comment, List.append_nil]
  | requirements =>
      change withoutComment (code ++ (mark ++ body)) = code at hcode
      change withoutComment (code ++ (mark ++ other)) = code
      by_cases h : (code ++ (mark ++ body)).head? = some '#'
      · rw [withoutComment, if_pos h] at hcode
        subst hcode
        rcases hmark with rfl | ⟨c, hc, rfl⟩
        · rfl
        · obtain rfl : c = '#' := Option.some.inj h
          cases hc
      · rw [withoutComment_eq h] at hcode
        have hread : cutBefore startsComment (code ++ (mark ++ body)) = code ++ [] := by
          rw [List.append_nil]; exact hcode
        obtain ⟨huncut, hrest⟩ := uncut_of_cutBefore hread
        rcases hmark with rfl | ⟨c, hc, rfl⟩
        · -- A hash alone does not cut a line in its middle.
          cases hrest
        · have hsame : Uncut startsComment code (c :: '#' :: other) := by
            intro front d back hcode hd
            have hstop := huncut front d back hcode hd
            cases back with
            | nil => exact hstop
            | cons e back => exact hstop
          have hhead : (code ++ c :: '#' :: other).head? ≠ some '#' := by
            cases code with
            | nil => exact h
            | cons e code => exact h
          have hcut : cutBefore startsComment (c :: '#' :: other) = [] := by simp [cutBefore, startsComment, hc]
          change withoutComment (code ++ c :: '#' :: other) = code
          rw [withoutComment_eq hhead, cutBefore_append hsame, hcut, List.append_nil]

end ManifestKind

/-- What may become of a line when somebody changes nothing but its comment. -/
inductive Recommented (kind : ManifestKind) (line : List Char) : List Char → Prop
  | kept : Recommented kind line line
  /-- The line is cut where its comment starts. -/
  | cut : Recommented kind line (kind.codeOf line)
  /-- The comment says something else. -/
  | replaced {mark body other : List Char} (hmark : kind.IsCommentMark mark)
      (hline : line = kind.codeOf line ++ (mark ++ body)) (hother : IsUnbroken other) :
      Recommented kind line (kind.codeOf line ++ (mark ++ other))

namespace Recommented

variable {kind : ManifestKind} {line later : List Char}

theorem codeOf_eq (h : Recommented kind line later) : kind.codeOf later = kind.codeOf line := by
  cases h with
  | kept => rfl
  | cut => exact kind.codeOf_codeOf line
  | replaced hmark hline _ => exact ManifestKind.codeOf_replaced hmark hline _

theorem isUnbroken (h : Recommented kind line later) (hline : IsUnbroken line) : IsUnbroken later := by
  cases h with
  | kept => exact hline
  | cut =>
      obtain ⟨rest, hrest⟩ := kind.codeOf_isPrefix line
      exact (IsUnbroken.of_append (hrest.symm ▸ hline)).1
  | replaced _ hsplit hother =>
      obtain ⟨hcode, hcomment⟩ := IsUnbroken.of_append (hsplit ▸ hline)
      exact hcode.append ((IsUnbroken.of_append hcomment).1.append hother)

theorem eq_nil (h : Recommented kind [] later) : later = [] := by
  cases h with
  | kept => rfl
  | cut => exact kind.codeOf_nil
  | @replaced mark body other hmark hline _ =>
      obtain ⟨rfl, -⟩ := List.append_eq_nil_iff.mp (List.append_eq_nil_iff.mp hline.symm).2
      cases kind with
      | pyproject => cases hmark
      | requirements => rcases hmark with hmark | ⟨_, _, hmark⟩ <;> cases hmark

end Recommented

/-! ### Reading through the code -/

section Code

variable {line later : List Char}

theorem Dialect.parse_congr (dialect : Dialect) (hdialect : dialect ≠ .requirementsLine)
    (h : codePart later = codePart line) (rule : NameRule) (number : Nat) (group : Group) :
    dialect.parse rule later number group = dialect.parse rule line number group := by
  cases dialect with
  | array =>
      simp only [parse, arrayDependencies, QuotedString.elementsOfLine, QuotedString.ofLine, h]
  | poetryTable => simp only [parse, tableDependencies, h]
  | poetryParentheses =>
      simp only [parse, parenthesizedDependencies, QuotedString.elementsOfLine, QuotedString.ofLine, h]
  | requirementsLine => exact absurd rfl hdialect

theorem versionKeyDependency?_congr (h : codePart later = codePart line) (rule : NameRule) (package : List Char)
    (number : Nat) (group : Group) : versionKeyDependency? rule later package number group
      = versionKeyDependency? rule line package number group := by
  simp only [versionKeyDependency?, h]

theorem tableHeader?_congr (h : codePart later = codePart line) : tableHeader? later = tableHeader? line := by
  simp only [tableHeader?, h]

theorem requirementsDependencies_congr (h : withoutComment later = withoutComment line) (rule : NameRule)
    (number : Nat) (group : Group) : requirementsDependencies rule later number group
      = requirementsDependencies rule line number group := by
  rw [← requirementsDependencies_withoutComment, h, requirementsDependencies_withoutComment]

namespace ManifestReader

/-- **One line.** A step reads the code of a line and nothing else. -/
theorem step_congr (reader : ManifestReader) (state : DocumentState) (number : Nat)
    (h : codePart later = codePart line) : reader.step state number later = reader.step state number line := by
  have harray : reader.arrayEntries later = reader.arrayEntries line := by
    funext number group
    have harray := Dialect.parse_congr .array (by simp) h reader.rule number group
    have hparentheses := Dialect.parse_congr .poetryParentheses (by simp) h reader.rule number group
    simp only [Dialect.parse] at harray hparentheses
    simp only [arrayEntries, harray, hparentheses]
  have htable : reader.tableEntries later = reader.tableEntries line := by
    funext number table
    simp only [tableEntries, versionKeyDependency?_congr h, tableDependencies, h]
  simp only [step, harray, htable, tableHeader?_congr h, h]

theorem step_nil (reader : ManifestReader) (state : DocumentState) (number : Nat) :
    (reader.step state number []).1 = [] := by
  have harray : reader.arrayEntries [] number = fun _ => [] := by
    funext group
    have hplain : arrayDependencies reader.rule [] number group = [] := rfl
    have hparentheses : parenthesizedDependencies reader.rule [] number group = [] := rfl
    rw [arrayEntries, hplain, hparentheses]
    simp [mergeEntries, addDisjoint]
  have htable : reader.tableEntries [] number = fun _ => [] := by
    funext table
    unfold tableEntries
    split <;> rfl
  have hgroup : ∀ group : Option Group, (group.map fun _ => ([] : List Dependency)).getD [] = [] := by
    rintro (_ | group) <;> rfl
  by_cases hdepth : 0 < state.depth
  · rw [step_inside hdepth, harray]
    exact hgroup state.group
  · rw [step_entry (Int.not_lt.mp hdepth) rfl rfl, htable]
    cases state.table <;> rfl

end ManifestReader

end Code

/-! ### Whole documents -/

/-- The lines of a text and what becomes of them. A last line of which nothing is left is no line any more. -/
inductive RecommentedLines (kind : ManifestKind) : List (List Char) → List (List Char) → Prop
  | nil : RecommentedLines kind [] []
  | gone {line : List Char} (h : Recommented kind line []) : RecommentedLines kind [line] []
  | cons {line later : List Char} {lines laters : List (List Char)} (h : Recommented kind line later)
      (hrest : RecommentedLines kind lines laters) : RecommentedLines kind (line :: lines) (later :: laters)

theorem RecommentedLines.map {kind : ManifestKind} {lines : List (List Char)} {change : List Char → List Char}
    (h : ∀ line ∈ lines, Recommented kind line (change line)) :
    RecommentedLines kind lines (lines.map change) := by
  induction lines with
  | nil => exact .nil
  | cons line lines ih =>
      exact .cons (h line List.mem_cons_self) (ih fun other hother => h other (List.mem_cons_of_mem line hother))

/-- What ends a line in front of a text: a carriage return with a line feed, or any other break. -/
inductive BreaksBefore : List Char → List Char → Prop
  | pair (rest : List Char) : BreaksBefore ['\r', '\n'] rest
  | single {c : Char} {rest : List Char} (hbreak : isLineBreak c = true)
      (hwhole : c = '\r' → rest.head? ≠ some '\n') : BreaksBefore [c] rest

theorem splitLines_break {line ending rest : List Char} (hline : IsUnbroken line) (h : BreaksBefore ending rest) :
    splitLines (line ++ (ending ++ rest)) = line :: splitLines rest := by
  rw [splitLines, splitLinesFrom_unbroken hline]
  cases h with
  | pair => simp [splitLinesFrom_return, splitLines]
  | single hbreak hwhole =>
      rw [List.cons_append, List.nil_append, splitLinesFrom_break hbreak hwhole]
      simp [splitLines]

/-- Two texts that differ in nothing but the comments of their lines, and maybe in what ends the lines. Where it is
left as it was it still has to end the line: a carriage return and a line feed that had a comment between them do not
become one. -/
inductive RecommentedText (kind : ManifestKind) : List Char → List Char → Prop
  | last {line later : List Char} (hline : IsUnbroken line) (h : Recommented kind line later) :
      RecommentedText kind line later
  | line {line later ending other text changed : List Char} (hline : IsUnbroken line)
      (h : Recommented kind line later) (hending : BreaksBefore ending text) (hother : BreaksBefore other changed)
      (hrest : RecommentedText kind text changed) :
      RecommentedText kind (line ++ (ending ++ text)) (later ++ (other ++ changed))

/-- Without its comment the second of three lines would be lost between the halves of a break. -/
example : (splitLines "\r# c\nx".toList).length = 3 ∧ (splitLines "\r\nx".toList).length = 2 := by decide

theorem splitLines_of_isUnbroken {line : List Char} (h : IsUnbroken line) :
    splitLines line = if line = [] then [] else [line] := by
  have hsplit := splitLinesFrom_unbroken h [] []
  rw [List.append_nil, List.append_nil] at hsplit
  rw [splitLines, hsplit, splitLinesFrom]
  simp

theorem RecommentedText.lines {kind : ManifestKind} {text changed : List Char}
    (h : RecommentedText kind text changed) : RecommentedLines kind (splitLines text) (splitLines changed) := by
  induction h with
  | @last line later hline h =>
      rw [splitLines_of_isUnbroken hline, splitLines_of_isUnbroken (h.isUnbroken hline)]
      by_cases hempty : line = []
      · subst hempty
        rw [h.eq_nil]
        exact .nil
      · rw [if_neg hempty]
        split
        · next hgone => exact .gone (hgone ▸ h)
        · exact .cons h .nil
  | line hline h hending hother _ ih =>
      rw [splitLines_break hline hending, splitLines_break (h.isUnbroken hline) hother]
      exact .cons h ih

namespace ManifestReader

variable {reader : ManifestReader} {kind : ManifestKind} {lines laters : List (List Char)}

theorem readFrom_congr (h : RecommentedLines .pyproject lines laters) (state : DocumentState) (number : Nat) :
    reader.readFrom state number laters = reader.readFrom state number lines := by
  induction h generalizing state number with
  | nil => rfl
  | gone h =>
      rw [readFrom_cons, ← reader.step_congr state number h.codeOf_eq, step_nil]
      rfl
  | cons h _ ih => rw [readFrom_cons, readFrom_cons, reader.step_congr state number h.codeOf_eq, ih]

theorem readRequirements_congr (h : RecommentedLines .requirements lines laters) (number : Nat) :
    reader.readRequirements number laters = reader.readRequirements number lines := by
  induction h generalizing number with
  | nil => rfl
  | gone h =>
      rw [readRequirements, readRequirements, ← requirementsDependencies_congr h.codeOf_eq]
      rfl
  | cons h _ ih => rw [readRequirements, readRequirements, requirementsDependencies_congr h.codeOf_eq, ih]

/-- **A whole document.** -/
theorem readAll_congr (h : RecommentedLines kind lines laters) :
    reader.readAll kind laters = reader.readAll kind lines := by
  cases kind with
  | pyproject => exact readFrom_congr h .start 0
  | requirements => exact readRequirements_congr h 0

/-- What a reader finds is not told by comments. -/
structure IgnoresComments (reader : ManifestReader) : Prop where
  /-- Comments may be cut off or say something else in the text as it stands, whatever ends its lines. -/
  inPlace : ∀ (kind : ManifestKind) (text changed : List Char), RecommentedText kind text changed →
    reader.readText changed kind = reader.readText text kind
  /-- The lines of any text may be changed so and put together again. -/
  rejoined : ∀ (kind : ManifestKind) (text : List Char) (change : List Char → List Char),
    (∀ line ∈ splitLines text, Recommented kind line (change line)) →
      reader.readText (withLineFeeds ((splitLines text).map change)) kind = reader.readText text kind
  /-- What a dialect of TOML manifests finds in a text is told by the code before its comment. -/
  dialect : ∀ (dialect : Dialect) (text : List Char) (number : Nat) (group : Group),
    dialect ≠ .requirementsLine →
      dialect.parse reader.rule text number group = dialect.parse reader.rule (codePart text) number group
  versionKey : ∀ (text package : List Char) (number : Nat) (group : Group),
    versionKeyDependency? reader.rule text package number group
      = versionKeyDependency? reader.rule (codePart text) package number group
  header : ∀ text : List Char, tableHeader? text = tableHeader? (codePart text)

/-- **Comments cannot influence what is read.** -/
theorem ignoresComments (reader : ManifestReader) : reader.IgnoresComments := by
  have hcode : ∀ text : List Char, codePart text = codePart (codePart text) :=
    fun text => (codeFrom_codeFrom none text).symm
  refine ⟨fun kind text changed h => readAll_congr h.lines, fun kind text change h => ?_,
    fun dialect text number group hdialect => dialect.parse_congr hdialect (hcode text) reader.rule number group,
    fun text package number group => versionKeyDependency?_congr (hcode text) reader.rule package number group,
    fun text => tableHeader?_congr (hcode text)⟩
  have hunbroken : ∀ line ∈ (splitLines text).map change, IsUnbroken line := by
    intro line hline
    obtain ⟨old, hold, rfl⟩ := List.mem_map.mp hline
    exact (h old hold).isUnbroken (isUnbroken_of_mem_splitLinesFrom isUnbroken_nil hold)
  rw [readText, readText, splitLines_of_written (written_withLineFeeds hunbroken)]
  exact readAll_congr (.map h)

end ManifestReader

end ManifestLens
