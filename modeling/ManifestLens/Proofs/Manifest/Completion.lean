import ManifestLens.Manifest.Completion
import ManifestLens.Proofs.Constraint.Operator
import ManifestLens.Proofs.Manifest.Slices
import ManifestLens.Proofs.Manifest.Statement
import ManifestLens.Proofs.Text.Lines

/-!
# Where completions go

A cursor that touches the constraint of a dependency touches one of the pieces that its commas cut it into,
and only one, because a comma lies between the end of a piece and the start of the next. The piece is white
space, an operator or nothing, white space, the version, and white space, and the version is what a
completion replaces. Main statement: there is a site exactly where the cursor touches a constraint, and every
site is placed like this.
-/

namespace ManifestLens

open Text

theorem Span.contains_iff {span : Span} {column : Int} :
    span.contains column = true ↔ (span.start : Int) ≤ column ∧ column ≤ span.stop := by
  rw [contains, Bool.and_eq_true, decide_eq_true_eq, decide_eq_true_eq]

theorem Span.covers_slice {span : Span} {line : List Char} (h : span.stop ≤ line.length) :
    span.Covers line (span.slice line) := by
  rw [Span.stop] at h
  refine ⟨line.take span.start, line.drop span.stop, ?_, ?_⟩
  · rw [slice, stop, List.append_assoc, ← List.drop_drop, List.take_append_drop, List.take_append_drop]
  · rw [slice, List.length_take, List.length_take, List.length_drop, Nat.min_eq_left (by omega),
      Nat.min_eq_left (by omega)]

namespace Dependency

/-! ### Pieces between commas -/

/-- The span is one of the pieces that the commas cut the constraint into. -/
def IsPiece (d : Dependency) (piece : Span) : Prop :=
  ∃ left word right, d.constraint = left ++ word ++ right ∧
    piece = ⟨d.span.start + left.length, word.length⟩ ∧ ',' ∉ word ∧
    (left = [] ∨ ∃ more, left = more ++ [',']) ∧ (right = [] ∨ ∃ more, right = ',' :: more)

variable {d : Dependency} {column : Int} {pieces : List (List Char)} {start : Nat} {span : Span}

theorem pieceAt?_isSome (hne : pieces ≠ []) (hstart : (start : Int) ≤ column)
    (hstop : column ≤ (start + (joinWith [','] pieces).length : Nat)) :
    (pieceAt? column start pieces).isSome = true := by
  induction pieces generalizing start with
  | nil => exact absurd rfl hne
  | cons piece rest ih =>
      rw [pieceAt?]
      split
      · rfl
      · next hmiss =>
          rw [Span.contains_iff] at hmiss
          simp only [Span.stop] at hmiss
          cases rest with
          | nil => exact absurd ⟨hstart, by simpa [joinWith] using hstop⟩ hmiss
          | cons next more =>
              have hlength : (joinWith [','] (piece :: next :: more)).length
                  = piece.length + 1 + (joinWith [','] (next :: more)).length := by
                simp [joinWith]
                omega
              rw [hlength] at hstop
              exact ih (by simp) (by simp only [Span.stop]; omega) (by simp only [Span.stop]; omega)

/-- The piece that a column touches, between what commas cut off on either side of it. -/
theorem exists_of_pieceAt? (h : pieceAt? column start pieces = some span) :
    ∃ left piece right, joinWith [','] pieces = left ++ piece ++ right ∧
      span = ⟨start + left.length, piece.length⟩ ∧ piece ∈ pieces ∧ span.contains column = true ∧
      (left = [] ∨ ∃ more, left = more ++ [',']) ∧ (right = [] ∨ ∃ more, right = ',' :: more) := by
  induction pieces generalizing start with
  | nil => cases h
  | cons piece rest ih =>
      have hright : ∃ right, joinWith [','] (piece :: rest) = piece ++ right ∧
          (right = [] ∨ ∃ more, right = ',' :: more) := by
        cases rest with
        | nil => exact ⟨[], by simp [joinWith], Or.inl rfl⟩
        | cons next later =>
            exact ⟨',' :: joinWith [','] (next :: later), by simp [joinWith], Or.inr ⟨_, rfl⟩⟩
      obtain ⟨right, hjoin, hcomma⟩ := hright
      rw [pieceAt?] at h
      split at h
      · next htouches =>
          obtain rfl := (Option.some.inj h).symm
          exact ⟨[], piece, right, hjoin, rfl, by simp, htouches, Or.inl rfl, hcomma⟩
      · obtain ⟨left, found, behind, hwhole, rfl, hmem, htouches, hleft, hbehind⟩ := ih h
        refine ⟨piece ++ ',' :: left, found, behind, ?_, ?_, by simp [hmem], ?_, ?_, hbehind⟩
        · cases rest with
          | nil => cases h
          | cons next later => simp [joinWith, hwhole]
        · simp only [Span.stop, List.length_append, List.length_cons, Span.mk.injEq, and_true]
          omega
        · exact htouches
        · rcases hleft with rfl | ⟨more, rfl⟩
          · exact Or.inr ⟨piece, rfl⟩
          · exact Or.inr ⟨piece ++ ',' :: more, by simp⟩

/-- A comma in a constraint is in none of its pieces, so it comes behind a piece that starts before it. -/
theorem stop_le_of_comma {constraint left word right more rest : List Char}
    (hpiece : constraint = left ++ word ++ right) (hword : ',' ∉ word)
    (hcomma : constraint = more ++ ',' :: rest) (hstart : left.length ≤ more.length) :
    left.length + word.length ≤ more.length := by
  by_contra hlt
  have hat : (left ++ word ++ right)[more.length]? = some ',' := by
    rw [← hpiece, hcomma, List.getElem?_append_right le_rfl, Nat.sub_self]
    rfl
  rw [List.append_assoc, List.getElem?_append_right hstart, List.getElem?_append_left (by omega)] at hat
  exact hword (List.mem_of_getElem? hat)

theorem IsPiece.eq_of_contains {piece other : Span} (hpiece : d.IsPiece piece) (hother : d.IsPiece other)
    (hcolumn : piece.contains column = true) (hcolumn' : other.contains column = true) : piece = other := by
  -- Of two pieces the later one starts behind a comma that ends the earlier one.
  have hbehind : ∀ {left word right left' word' right' : List Char},
      d.constraint = left ++ word ++ right → ',' ∉ word → d.constraint = left' ++ word' ++ right' →
      (left' = [] ∨ ∃ more, left' = more ++ [',']) → left.length < left'.length →
      left.length + word.length < left'.length := by
    intro left word right left' word' right' htext hword htext' hleft' hlt
    rcases hleft' with rfl | ⟨more, rfl⟩
    · simp at hlt
    · rw [List.length_append, List.length_singleton] at hlt ⊢
      have hcomma : d.constraint = more ++ ',' :: (word' ++ right') := by
        rw [htext']
        simp
      have := stop_le_of_comma htext hword hcomma (by omega)
      omega
  obtain ⟨left, word, right, htext, rfl, hword, hleft, hright⟩ := hpiece
  obtain ⟨left', word', right', htext', rfl, hword', hleft', hright'⟩ := hother
  rw [Span.contains_iff] at hcolumn hcolumn'
  simp only [Span.stop] at hcolumn hcolumn'
  rcases Nat.lt_trichotomy left.length left'.length with hlt | heq | hgt
  · have := hbehind htext hword htext' hleft' hlt
    omega
  · rw [htext, List.append_assoc, List.append_assoc] at htext'
    obtain ⟨rfl, hrest⟩ := List.append_inj htext' heq
    have hstop : ∀ {text : List Char}, (text = [] ∨ ∃ more, text = ',' :: more) →
        HeadNot (· != ',') text := by
      rintro text (rfl | ⟨more, rfl⟩)
      · exact headNot_nil
      · exact headNot_cons.mpr (by decide)
    have hrun : ∀ {text : List Char}, ',' ∉ text → ∀ c ∈ text, (c != ',') = true := by
      intro text hcomma c hc
      have hne : c ≠ ',' := fun heq => hcomma (heq ▸ hc)
      simpa using hne
    obtain rfl : word = word' := by
      rw [← takeWhile_run (hrun hword) (hstop hright), hrest, takeWhile_run (hrun hword') (hstop hright')]
    rfl
  · have := hbehind htext' hword' htext hleft hgt
    omega

end Dependency

/-! ### The version of a piece -/

/-- A piece of a constraint: white space, the operator if it has one, and the rest. -/
theorem Operator.exists_of_detect? (piece : List Char) :
    ∃ lead body, piece = lead ++ textOf (detect? piece) ++ body ∧ IsBlankRun lead ∧
      piece.takeWhile isBlank = lead := by
  obtain ⟨lead, rest, htext, hlead, hrest, htake, -⟩ := exists_run isBlank piece
  cases hdetect : detect? piece with
  | none => exact ⟨lead, rest, by simpa [textOf] using htext, hlead, htake⟩
  | some operator =>
      have hprefix := prefix_of_detect? hdetect
      rw [htext, trimLeft_margin hlead hrest] at hprefix
      obtain ⟨body, rfl⟩ := hprefix
      exact ⟨lead, body, by rw [htext, textOf, List.append_assoc], hlead, htake⟩

theorem Operator.eq_none_of_textOf_eq_nil {operator : Option Operator} (h : textOf operator = []) :
    operator = none := by
  cases operator with
  | none => rfl
  | some operator =>
      obtain ⟨⟨c, rest, htext, -⟩, -⟩ := operator.exists_text
      rw [textOf, htext] at h
      cases h

namespace Dependency

/-- The columns that a completion in a piece of the line replaces: those of what is left of the piece without
white space, the operator, and white space again at either end. -/
theorem replace_pieceSite (d : Dependency) (before after : List Char) {piece lead gap version trail : List Char}
    (column : Int) (hpiece : piece = lead ++ Operator.textOf (Operator.detect? piece) ++ gap ++ version ++ trail)
    (hlead : piece.takeWhile isBlank = lead) (hgap : IsBlankRun gap) (hversion : IsTrimmed version)
    (htrail : IsBlankRun trail) (hbare : version = [] → trail = []) :
    (d.pieceSite (before ++ piece ++ after) column ⟨before.length, piece.length⟩).replace
      = ⟨before.length + (lead ++ Operator.textOf (Operator.detect? piece) ++ gap).length, version.length⟩ := by
  generalize hoperator : Operator.textOf (Operator.detect? piece) = operator at hpiece ⊢
  have hslice : (⟨before.length, piece.length⟩ : Span).slice (before ++ piece ++ after) = piece :=
    Span.slice_of_covers ⟨before, after, rfl, rfl⟩
  have hline : before ++ piece ++ after
      = (before ++ lead ++ operator) ++ (gap ++ version ++ trail) ++ after := by
    rw [hpiece]
    simp
  have hbetween : Span.between (before.length + lead.length + operator.length)
        (before.length + piece.length)
      = ⟨(before ++ lead ++ operator).length, (gap ++ version ++ trail).length⟩ := by
    rw [hpiece]
    simp only [List.length_append, Span.between, Span.mk.injEq, true_and]
    omega
  simp only [pieceSite, hslice, hlead, hoperator, Span.stop, hbetween]
  rw [hline, Span.trimmed_margins _ _ hgap hversion htrail hbare]
  simp only [Span.mk.injEq, List.length_append, and_true]
  omega

/-- A piece of the line is white space, its operator, white space, the version that a completion there
replaces, and white space. -/
theorem exists_of_pieceSite (d : Dependency) (before piece after : List Char) (column : Int) :
    ∃ lead gap version trail,
      piece = lead ++ Operator.textOf (Operator.detect? piece) ++ gap ++ version ++ trail ∧
      IsBlankRun lead ∧ IsBlankRun gap ∧ IsBlankRun trail ∧ IsTrimmed version ∧ (version = [] → trail = []) ∧
      (d.pieceSite (before ++ piece ++ after) column ⟨before.length, piece.length⟩).replace
        = ⟨before.length + (lead ++ Operator.textOf (Operator.detect? piece) ++ gap).length,
            version.length⟩ := by
  obtain ⟨lead, body, hpiece, hlead, hblanks⟩ := Operator.exists_of_detect? piece
  obtain ⟨gap, trail, hbody, hgap, htrail, htrimmed, -, hbare⟩ := exists_margins body
  have hparts : piece = lead ++ Operator.textOf (Operator.detect? piece) ++ gap ++ trim body ++ trail := by
    conv_lhs => rw [hpiece, hbody]
    simp only [List.append_assoc]
  exact ⟨lead, gap, trim body, trail, hparts, hlead, hgap, htrail, htrimmed, hbare,
    d.replace_pieceSite before after column hparts hblanks hgap htrimmed htrail hbare⟩

end Dependency

/-! ### Sites -/

/-- How a site stands on its line with the cursor at a column. -/
structure CompletionSite.WellPlaced (site : CompletionSite) (text : List Char) (column : Int) (piece : Span) :
    Prop where
  /-- The cursor touches a piece of the constraint, and no other. -/
  is_piece : site.dependency.IsPiece piece
  touched : piece.contains column = true
  only : ∀ other, site.dependency.IsPiece other → other.contains column = true → other = piece
  /-- The replaced columns lie in the constraint and in the piece. -/
  in_constraint : site.dependency.span.start ≤ site.replace.start ∧ site.replace.stop ≤ site.dependency.span.stop
  in_piece : piece.start ≤ site.replace.start ∧ site.replace.stop ≤ piece.stop
  /-- The piece is white space, its operator, white space, the replaced text and white space. -/
  parts : ∃ lead gap trail, IsBlankRun lead ∧ IsBlankRun gap ∧ IsBlankRun trail ∧
    piece.slice text = lead ++ Operator.textOf (Operator.detect? (piece.slice text)) ++ gap
      ++ site.replace.slice text ++ trail ∧
    site.replace.start
      = piece.start + (lead ++ Operator.textOf (Operator.detect? (piece.slice text)) ++ gap).length
  no_comma : ',' ∉ site.replace.slice text
  trimmed : IsTrimmed (site.replace.slice text)
  /-- What is typed already is the replaced text up to a cursor in it. -/
  typed : site.typed = if site.replace.contains column
    then (site.replace.slice text).take (column.toNat - site.replace.start) else []
  /-- An operator is needed where the piece has none, unless the syntax does without. -/
  needsOperator : site.needsOperator = true ↔
    Operator.detect? (piece.slice text) = none ∧ site.dependency.dialect ≠ .poetryTable

theorem Span.slice_between {span : Span} {column : Int} (h : span.contains column = true) (text : List Char) :
    (Span.between span.start column.toNat).slice text
      = (span.slice text).take (column.toNat - span.start) := by
  rw [contains_iff, stop] at h
  rw [slice, slice, between, List.take_take, Nat.min_eq_left (by omega)]

namespace Dependency

variable {d : Dependency} {text : List Char} {column : Int}

/-- A piece lies in the constraint. -/
theorem IsPiece.inside (hcovers : d.span.Covers text d.constraint) {piece : Span} (h : d.IsPiece piece) :
    d.span.start ≤ piece.start ∧ piece.stop ≤ d.span.stop := by
  obtain ⟨before, after, -, hspan⟩ := hcovers
  obtain ⟨left, word, right, hconstraint, rfl, -⟩ := h
  have hlength : d.span.length = left.length + word.length + right.length := by
    rw [hspan, hconstraint]
    simp only [List.length_append]
  simp only [Span.stop]
  omega

theorem wellPlaced_of_piece (hcovers : d.span.Covers text d.constraint) {piece : Span} (hpiece : d.IsPiece piece)
    (hcolumn : piece.contains column = true) : (d.pieceSite text column piece).WellPlaced text column piece := by
  have hinside := hpiece.inside hcovers
  have hIs := hpiece
  obtain ⟨before, after, hline, hspan⟩ := hcovers
  obtain ⟨left, word, right, hconstraint, rfl, hcomma, -, -⟩ := hpiece
  have hwhole : text = (before ++ left) ++ word ++ (right ++ after) := by
    rw [hline, hconstraint]
    simp
  have hstart : d.span.start + left.length = (before ++ left).length := by rw [hspan, List.length_append]
  have hslice : (⟨d.span.start + left.length, word.length⟩ : Span).slice text = word :=
    Span.slice_of_covers ⟨before ++ left, right ++ after, hwhole, by rw [hstart]⟩
  obtain ⟨lead, gap, version, trail, hword, hlead, hgap, htrail, htrimmed, -, hreplace⟩ :=
    d.exists_of_pieceSite (before ++ left) word (right ++ after) column
  rw [← hwhole, ← hstart] at hreplace
  generalize hfront : lead ++ Operator.textOf (Operator.detect? word) ++ gap = front at hword hreplace
  have hversion : (d.pieceSite text column ⟨d.span.start + left.length, word.length⟩).replace.slice text
      = version := by
    refine Span.slice_of_covers ⟨before ++ left ++ front, trail ++ (right ++ after), ?_, ?_⟩
    · conv_lhs => rw [hwhole, hword]
      simp
    · have hlength : (before ++ left ++ front).length = d.span.start + left.length + front.length := by
        rw [List.length_append, hstart]
      rw [hreplace, hlength]
  have hlength : word.length = front.length + version.length + trail.length := by
    rw [hword]
    simp only [List.length_append]
  have hwithin : d.span.start + left.length
        ≤ (d.pieceSite text column ⟨d.span.start + left.length, word.length⟩).replace.start ∧
      (d.pieceSite text column ⟨d.span.start + left.length, word.length⟩).replace.stop
        ≤ d.span.start + left.length + word.length := by
    rw [hreplace]
    simp only [Span.stop]
    omega
  exact {
    is_piece := hIs
    touched := hcolumn
    only := fun other hother htouched => hother.eq_of_contains hIs htouched hcolumn
    in_constraint := ⟨hinside.1.trans hwithin.1, hwithin.2.trans hinside.2⟩
    in_piece := hwithin
    parts := ⟨lead, gap, trail, hlead, hgap, htrail, by rw [hslice, hversion, hfront]; exact hword,
      by rw [hreplace, hslice, hfront]⟩
    no_comma := by
      rw [hversion]
      exact fun hmem => hcomma (by rw [hword]; simp [hmem])
    trimmed := by rwa [hversion]
    typed := by
      by_cases hcontains :
          (d.pieceSite text column ⟨d.span.start + left.length, word.length⟩).replace.contains column = true
      · rw [if_pos hcontains, ← Span.slice_between hcontains]
        exact if_pos hcontains
      · rw [if_neg hcontains]
        exact if_neg hcontains
    needsOperator := by simp [pieceSite, hslice] }

/-- A cursor that touches the constraint touches one of its pieces. -/
theorem exists_piece (hcovers : d.span.Covers text d.constraint) (hcolumn : d.span.contains column = true) :
    ∃ piece, pieceAt? column d.span.start (splitOn ',' d.constraint) = some piece ∧ d.IsPiece piece ∧
      piece.contains column = true := by
  have hsome : (pieceAt? column d.span.start (splitOn ',' d.constraint)).isSome = true := by
    obtain ⟨before, after, -, hspan⟩ := hcovers
    rw [Span.contains_iff, Span.stop] at hcolumn
    refine pieceAt?_isSome (splitOn_ne_nil ',' _) hcolumn.1 ?_
    rw [joinWith_splitOn]
    simpa [hspan] using hcolumn.2
  obtain ⟨piece, hpiece⟩ := Option.isSome_iff_exists.mp hsome
  obtain ⟨left, word, right, hjoin, rfl, hmem, htouches, hleft, hright⟩ := exists_of_pieceAt? hpiece
  rw [joinWith_splitOn] at hjoin
  exact ⟨_, hpiece, ⟨left, word, right, hjoin, rfl, notMem_of_mem_splitOn hmem, hleft, hright⟩, htouches⟩

/-- A bare name has one piece, the empty span where its constraint would go, and its site is there. -/
theorem pieceSite_bare {start : Nat} (hspan : d.span = ⟨start, 0⟩) :
    d.pieceSite text column ⟨start, 0⟩
      = ⟨d, d.span, [], d.dialect != .poetryTable, .default⟩ := by
  have hslice : (⟨start, 0⟩ : Span).slice text = [] := by rw [Span.slice, List.take_zero]
  have hdetect : Operator.detect? [] = none := by decide
  have hreplace : (Span.between start start).trimmed text = ⟨start, 0⟩ := by
    simp [Span.trimmed, Span.between, hslice, trim, dropAround, dropLeading, dropTrailing]
  have htyped : column = start → (Span.between start column.toNat).slice text = [] := by
    rintro rfl
    simp [Span.between, Span.slice]
  simp only [pieceSite, hslice, hdetect, List.takeWhile_nil, List.length_nil, Operator.textOf, Nat.add_zero,
    Span.stop, hreplace, Option.isNone_none, Bool.true_and, hspan, Span.contains_iff]
  split
  · next h => rw [htyped (by omega)]
  · rfl

theorem completionSite?_eq (hcovers : d.span.Covers text d.constraint) {piece : Span} (hpiece : d.IsPiece piece)
    (hcolumn : piece.contains column = true) :
    d.completionSite? text column = some (d.pieceSite text column piece) := by
  have hinside := hpiece.inside hcovers
  have hspan : d.span.contains column = true := by
    rw [Span.contains_iff] at hcolumn ⊢
    omega
  rw [completionSite?, hspan, Bool.not_true, if_neg Bool.false_ne_true]
  split
  · next hempty =>
      have hstop : d.span.start = d.span.stop := Span.isEmpty_iff.mp hempty
      obtain ⟨start, length⟩ := piece
      simp only [Span.stop] at hinside hstop
      obtain rfl : length = 0 := by omega
      rw [pieceSite_bare (by cases hd : d.span; simp only [hd] at hinside hstop ⊢; congr 1 <;> omega)]
  · obtain ⟨found, hfound, hfoundPiece, htouches⟩ := exists_piece hcovers hspan
    rw [Span.slice_of_covers hcovers, hfound, hfoundPiece.eq_of_contains hpiece htouches hcolumn, Option.map_some]

/-- A dependency has a site where the cursor touches its constraint, and nowhere else. -/
theorem completionSite?_isSome (hcovers : d.span.Covers text d.constraint) :
    (d.completionSite? text column).isSome = true ↔ d.span.contains column = true := by
  constructor
  · intro h
    by_contra hcolumn
    rw [completionSite?, Bool.not_eq_true _ |>.mp hcolumn] at h
    cases h
  · intro hcolumn
    obtain ⟨piece, -, hpiece, htouches⟩ := exists_piece hcovers hcolumn
    rw [completionSite?_eq hcovers hpiece htouches]
    rfl

theorem wellPlaced_of_completionSite? (hcovers : d.span.Covers text d.constraint) {site : CompletionSite}
    (h : d.completionSite? text column = some site) :
    site.dependency = d ∧ ∃ piece, site.WellPlaced text column piece := by
  have hcolumn : d.span.contains column = true := by
    rw [← completionSite?_isSome hcovers, h]
    rfl
  obtain ⟨piece, -, hpiece, htouches⟩ := exists_piece hcovers hcolumn
  rw [completionSite?_eq hcovers hpiece htouches] at h
  obtain rfl := Option.some.inj h
  exact ⟨rfl, piece, wellPlaced_of_piece hcovers hpiece htouches⟩

end Dependency

/-! ### One entry among those of a line -/

section Merge

variable {found batch : List Dependency} {batches : List (List Dependency)} {d : Dependency}

theorem mem_addDisjoint_of_mem (h : d ∈ found) : d ∈ addDisjoint found batch := by
  induction batch generalizing found with
  | nil => exact h
  | cons e rest ih =>
      rw [addDisjoint, List.foldl_cons]
      refine ih ?_
      split
      · exact h
      · exact List.mem_append_left [e] h

theorem mem_addDisjoint_of_apart (hd : d ∈ batch)
    (hapart : ∀ e ∈ found ++ batch, e = d ∨ d.nameSpan.overlaps e.nameSpan = false) :
    d ∈ addDisjoint found batch := by
  induction batch generalizing found with
  | nil => cases hd
  | cons e rest ih =>
      rw [addDisjoint, List.foldl_cons]
      rcases List.mem_cons.mp hd with rfl | hd
      · refine mem_addDisjoint_of_mem ?_
        split
        · next hoverlaps =>
            obtain ⟨other, hother, hoverlaps⟩ := List.any_eq_true.mp hoverlaps
            rcases hapart other (List.mem_append_left _ hother) with rfl | hfree
            · exact hother
            · rw [hoverlaps] at hfree
              cases hfree
        · simp
      · refine ih hd fun other hother => hapart other ?_
        rcases List.mem_append.mp hother with hother | hother
        · split at hother
          · exact List.mem_append_left _ hother
          · rcases List.mem_append.mp hother with hother | hother
            · exact List.mem_append_left _ hother
            · exact List.mem_append_right _ (List.mem_cons.mpr (Or.inl (List.mem_singleton.mp hother)))
        · exact List.mem_append_right _ (List.mem_cons_of_mem e hother)

theorem mem_mergeEntries {batch : List Dependency} (hbatch : batch ∈ batches) (hd : d ∈ batch)
    (hapart : ∀ batch ∈ batches, ∀ e ∈ batch, e = d ∨ d.nameSpan.overlaps e.nameSpan = false) :
    d ∈ mergeEntries batches := by
  have hfold : ∀ (batches : List (List Dependency)) (found : List Dependency),
      (∀ e ∈ found, e = d ∨ d.nameSpan.overlaps e.nameSpan = false) →
      (∀ batch ∈ batches, ∀ e ∈ batch, e = d ∨ d.nameSpan.overlaps e.nameSpan = false) →
      (d ∈ found ∨ ∃ batch ∈ batches, d ∈ batch) → d ∈ batches.foldl addDisjoint found := by
    intro batches
    induction batches with
    | nil => exact fun found _ _ hd => hd.resolve_right (by simp)
    | cons first rest ih =>
        intro found hfound hbatches hd
        have hfirst := hbatches first (by simp)
        refine ih _ (fun e he => (mem_addDisjoint he).elim (hfound e) (hfirst e))
          (fun batch hbatch => hbatches batch (List.mem_cons_of_mem first hbatch)) ?_
        rcases hd with hd | ⟨batch, hbatch, hd⟩
        · exact Or.inl (mem_addDisjoint_of_mem hd)
        · rcases List.mem_cons.mp hbatch with rfl | hbatch
          · refine Or.inl (mem_addDisjoint_of_apart hd fun e he => ?_)
            exact (List.mem_append.mp he).elim (hfound e) (hfirst e)
          · exact Or.inr ⟨batch, hbatch, hd⟩
  rw [mergeEntries, List.mem_mergeSort]
  exact hfold batches [] (by simp) hapart (Or.inr ⟨batch, hbatch, hd⟩)

end Merge

namespace ManifestReader

section Line

variable {reader : ManifestReader} {text : List Char} {number : Nat} {kind : ManifestKind}
  {table : Option (List Char)} {column : Int}

/-- In a table that is about no single package a line has the entries of all admitted dialects. -/
theorem readLine_eq_mergeEntries (h : kind.packageOf? table = none) :
    reader.readLine text number kind table = mergeEntries ((admittedDialects kind table).map fun dialect =>
      dialect.parse reader.rule text number ((Group.ofTable? table none).getD .main)) := by
  have hnamed : (table.bind PoetryTable.ofTable?).bind (fun poetry =>
      if kind = .pyproject then poetry.package.map (poetry.group, ·) else none) = none := by
    cases kind with
    | requirements => cases table.bind PoetryTable.ofTable? <;> rfl
    | pyproject =>
        cases htable : table.bind PoetryTable.ofTable? with
        | none => rfl
        | some poetry =>
            have hpackage : poetry.package = none := by simpa [ManifestKind.packageOf?, htable] using h
            simp [hpackage]
  simp only [readLine, Option.bind_eq_bind, hnamed]
  rfl

/-- The site of an entry is that of the line if every other entry has its name elsewhere and its constraint
away from the cursor. -/
theorem completionSite?_of_only {d : Dependency} {dialect : Dialect} {site : CompletionSite}
    (hpackage : kind.packageOf? table = none) (hdialect : dialect ∈ admittedDialects kind table)
    (hd : d ∈ dialect.parse reader.rule text number ((Group.ofTable? table none).getD .main))
    (honly : ∀ dialect ∈ admittedDialects kind table,
      ∀ e ∈ dialect.parse reader.rule text number ((Group.ofTable? table none).getD .main),
        e = d ∨ d.nameSpan.overlaps e.nameSpan = false ∧ e.span.contains column = false)
    (hsite : d.completionSite? text column = some site) :
    reader.completionSite? text column number kind table = some site := by
  have hmem : d ∈ reader.readLine text number kind table := by
    rw [readLine_eq_mergeEntries hpackage]
    refine mem_mergeEntries (List.mem_map_of_mem hdialect) hd fun batch hbatch e he => ?_
    obtain ⟨other, hother, rfl⟩ := List.mem_map.mp hbatch
    exact (honly other hother e he).imp_right And.left
  have hsome : (reader.completionSite? text column number kind table).isSome = true := by
    rw [completionSite?, List.findSome?_isSome_iff]
    exact ⟨d, hmem, by rw [hsite]; rfl⟩
  obtain ⟨found, hfound⟩ := Option.isSome_iff_exists.mp hsome
  have hentry := hfound
  rw [completionSite?] at hentry
  obtain ⟨e, he, hsite'⟩ := List.exists_of_findSome?_eq_some hentry
  rw [readLine_eq_mergeEntries hpackage] at he
  obtain ⟨batch, hbatch, he⟩ := exists_of_mem_mergeEntries he
  obtain ⟨other, hother, rfl⟩ := List.mem_map.mp hbatch
  rcases honly other hother e he with rfl | ⟨-, haway⟩
  · rw [hfound, ← hsite, hsite']
  · rw [Dependency.completionSite?, haway] at hsite'
    cases hsite'

end Line

/-- **Completions are well placed.** With the cursor at a column of a line there is a site exactly if it touches
the constraint of a dependency that the line is read to have, and a site belongs to such a dependency and is
placed in the one piece of the constraint that the cursor touches. -/
theorem completionSite?_wellPlaced (reader : ManifestReader) (text : List Char) (column : Int) (number : Nat)
    (kind : ManifestKind) (table : Option (List Char)) :
    ((reader.completionSite? text column number kind table).isSome = true ↔
      ∃ d ∈ reader.readLine text number kind table,
        (d.span.start : Int) ≤ column ∧ column ≤ d.span.stop) ∧
    ∀ site, reader.completionSite? text column number kind table = some site →
      site.dependency ∈ reader.readLine text number kind table ∧
        ∃ piece, site.WellPlaced text column piece := by
  have hcovers : ∀ d ∈ reader.readLine text number kind table, d.span.Covers text d.constraint := by
    intro d hd
    have hpoints := (reader.reports_readLine text number kind table none).pointsInto d hd
    rw [← hpoints.slice_span]
    exact Span.covers_slice hpoints.span_inside
  constructor
  · rw [completionSite?, List.findSome?_isSome_iff]
    refine exists_congr fun d => and_congr_right fun hd => ?_
    rw [Dependency.completionSite?_isSome (hcovers d hd), Span.contains_iff]
  · intro site hsite
    obtain ⟨d, hd, hsite⟩ := List.exists_of_findSome?_eq_some hsite
    obtain ⟨rfl, hplaced⟩ := Dependency.wellPlaced_of_completionSite? (hcovers d hd) hsite
    exact ⟨hd, hplaced⟩

end ManifestReader

end ManifestLens
