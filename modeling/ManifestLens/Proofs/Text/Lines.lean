import ManifestLens.Proofs.Text.Trim
import ManifestLens.Text.Trim

/-!
# Lines and their breaks

A text is put together from lines and the breaks between them. `WrittenLines` is the relation for the two
breaks that editors write, a line feed alone or behind a carriage return; these are the texts that break
into the same lines whoever splits them. In such a text one line can be exchanged and the others stay.
-/

namespace ManifestLens.Text

/-- No character of the text breaks a line. -/
def IsUnbroken (text : List Char) : Prop := ∀ c ∈ text, isLineBreak c = false

/-- Every line break of the text is a line feed, alone or behind a carriage return. At the very end a
carriage return may stand alone. -/
def breaksPlainly : List Char → Bool
  | [] => true
  | c :: rest =>
      (if c = '\r' then rest.head? == none || rest.head? == some '\n'
        else c == '\n' || !isLineBreak c) && breaksPlainly rest

/-- The lines that a text consists of, where a line feed ends each of them, with or without a carriage
return before it. The last one may end with the text if it is not empty. -/
inductive WrittenLines : List (List Char) → List Char → Prop
  | nil : WrittenLines [] []
  | last {line ending : List Char} : IsUnbroken line → ending = [] ∧ line ≠ [] ∨ ending = ['\r'] →
      WrittenLines [line] (line ++ ending)
  | line {line ending text : List Char} {lines : List (List Char)} : IsUnbroken line →
      ending = [] ∨ ending = ['\r'] → WrittenLines lines text →
      WrittenLines (line :: lines) (line ++ (ending ++ '\n' :: text))

section Lines

variable {line text : List Char} {lines : List (List Char)}

theorem isBlank_of_isLineBreak {c : Char} (h : isLineBreak c = true) : isBlank c = true := by
  simp only [isLineBreak, isBlank, Bool.or_eq_true, Bool.and_eq_true, decide_eq_true_eq,
    beq_iff_eq] at h ⊢
  omega

theorem isUnbroken_nil : IsUnbroken [] := by
  intro c hc
  cases hc

theorem IsUnbroken.append {left right : List Char} (hleft : IsUnbroken left)
    (hright : IsUnbroken right) : IsUnbroken (left ++ right) := by
  intro c hc
  rcases List.mem_append.mp hc with h | h
  · exact hleft c h
  · exact hright c h

theorem IsUnbroken.of_append {left right : List Char} (h : IsUnbroken (left ++ right)) :
    IsUnbroken left ∧ IsUnbroken right :=
  ⟨fun c hc => h c (List.mem_append_left _ hc), fun c hc => h c (List.mem_append_right _ hc)⟩

theorem IsUnbroken.notMem {c : Char} (h : IsUnbroken text) (hc : isLineBreak c = true) : c ∉ text := by
  intro hmem
  rw [h c hmem] at hc
  cases hc

theorem isUnbroken_of_not_blank (h : ∀ c ∈ text, isBlank c = false) : IsUnbroken text := by
  intro c hc
  by_contra hbreak
  have := isBlank_of_isLineBreak (by simpa using hbreak)
  rw [h c hc] at this
  cases this

/-! ### Splitting -/

theorem splitLinesFrom_char {c : Char} (h : isLineBreak c = false) (reversed rest : List Char) :
    splitLinesFrom reversed (c :: rest) = splitLinesFrom (c :: reversed) rest := by
  have hreturn : c ≠ '\r' := by
    rintro rfl
    revert h
    decide
  rw [splitLinesFrom.eq_def]
  split
  · next heq => cases heq
  · next heq => exact absurd (List.cons.inj heq).1 hreturn
  · next heq =>
      obtain ⟨rfl, rfl⟩ := List.cons.inj heq
      rw [if_neg (by simp [h])]

theorem splitLinesFrom_break {c : Char} {rest : List Char} (h : isLineBreak c = true)
    (hwhole : c = '\r' → rest.head? ≠ some '\n') (reversed : List Char) :
    splitLinesFrom reversed (c :: rest) = reversed.reverse :: splitLinesFrom [] rest := by
  rw [splitLinesFrom.eq_def]
  split
  · next heq => cases heq
  · next heq =>
      obtain ⟨rfl, rfl⟩ := List.cons.inj heq
      exact absurd rfl (hwhole rfl)
  · next heq =>
      obtain ⟨rfl, rfl⟩ := List.cons.inj heq
      rw [if_pos h]

theorem splitLinesFrom_lineFeed (reversed rest : List Char) :
    splitLinesFrom reversed ('\n' :: rest) = reversed.reverse :: splitLinesFrom [] rest :=
  splitLinesFrom_break (by decide) (fun h => absurd h (by decide)) reversed

theorem splitLinesFrom_return (reversed rest : List Char) :
    splitLinesFrom reversed ('\r' :: '\n' :: rest) = reversed.reverse :: splitLinesFrom [] rest := by
  rw [splitLinesFrom]

theorem splitLinesFrom_unbroken (h : IsUnbroken line) (reversed rest : List Char) :
    splitLinesFrom reversed (line ++ rest) = splitLinesFrom (line.reverse ++ reversed) rest := by
  induction line generalizing reversed with
  | nil => rfl
  | cons c more ih =>
      have hmore := ih (fun x hx => h x (List.mem_cons_of_mem c hx)) (c :: reversed)
      rw [List.cons_append, splitLinesFrom_char (h c (by simp)), hmore]
      simp

theorem splitLines_of_written (h : WrittenLines lines text) : splitLines text = lines := by
  induction h with
  | nil => rfl
  | @last line ending hline hending =>
      rw [splitLines, splitLinesFrom_unbroken hline]
      rcases hending with ⟨rfl, hne⟩ | rfl
      · simp [splitLinesFrom, hne]
      · simp [splitLinesFrom, isLineBreak]
  | @line line ending text lines hline hending _ ih =>
      rw [splitLines, splitLinesFrom_unbroken hline]
      rw [splitLines] at ih
      rcases hending with rfl | rfl
      · rw [List.nil_append, splitLinesFrom_lineFeed, ih]
        simp
      · rw [List.cons_append, List.nil_append, splitLinesFrom_return, ih]
        simp

theorem breaksPlainly_append_unbroken (h : IsUnbroken line) :
    breaksPlainly (line ++ text) = breaksPlainly text := by
  induction line with
  | nil => rfl
  | cons c more ih =>
      have hc := h c (by simp)
      have hreturn : c ≠ '\r' := by
        rintro rfl
        revert hc
        decide
      have hmore := ih fun x hx => h x (List.mem_cons_of_mem c hx)
      simp [breaksPlainly, hreturn, hc, hmore]

/-- A text with plain breaks only consists of lines. -/
theorem exists_writtenLines (h : breaksPlainly text = true) : ∃ lines, WrittenLines lines text := by
  induction hlength : text.length using Nat.strong_induction_on generalizing text with
  | _ n ih =>
      obtain ⟨line, rest, rfl, hrun, hrest, -, -⟩ := exists_run (fun c => !isLineBreak c) text
      have hline : IsUnbroken line := fun c hc => by simpa using hrun c hc
      rw [breaksPlainly_append_unbroken hline] at h
      cases rest with
      | nil =>
          by_cases hne : line = []
          · exact ⟨[], by simpa [hne] using WrittenLines.nil⟩
          · exact ⟨[line], WrittenLines.last hline (Or.inl ⟨rfl, hne⟩)⟩
      | cons c more =>
          have hbreak : isLineBreak c = true := by simpa using headNot_cons.mp hrest
          rw [List.length_append, List.length_cons] at hlength
          simp only [breaksPlainly, Bool.and_eq_true] at h
          obtain ⟨hhere, hmore⟩ := h
          split at hhere
          · next hc =>
              subst hc
              cases more with
              | nil => exact ⟨[line], WrittenLines.last hline (Or.inr rfl)⟩
              | cons d more =>
                  obtain rfl : d = '\n' := by simpa using hhere
                  simp only [breaksPlainly, Bool.and_eq_true] at hmore
                  rw [List.length_cons] at hlength
                  obtain ⟨lines, hlines⟩ := ih more.length (by omega) hmore.2 rfl
                  exact ⟨line :: lines, WrittenLines.line hline (Or.inr rfl) hlines⟩
          · obtain rfl : c = '\n' := by simpa [hbreak] using hhere
            obtain ⟨lines, hlines⟩ := ih more.length (by omega) hmore rfl
            exact ⟨line :: lines, WrittenLines.line hline (Or.inl rfl) hlines⟩

theorem isUnbroken_of_mem (h : WrittenLines lines text) (hline : line ∈ lines) : IsUnbroken line := by
  induction h with
  | nil => cases hline
  | last hlast _ =>
      obtain rfl := List.mem_singleton.mp hline
      exact hlast
  | line hfirst _ _ ih =>
      rcases List.mem_cons.mp hline with rfl | hline
      · exact hfirst
      · exact ih hline

/-! ### Splitting at line feeds -/

theorem splitOn_of_notMem {separator : Char} (h : separator ∉ text) : splitOn separator text = [text] := by
  induction text with
  | nil => rfl
  | cons c rest ih =>
      simp only [List.mem_cons, not_or] at h
      rw [splitOn, if_neg (Ne.symm h.1), ih h.2]

theorem splitOn_append {separator : Char} (h : separator ∉ line) (rest : List Char) :
    splitOn separator (line ++ separator :: rest) = line :: splitOn separator rest := by
  induction line with
  | nil => simp [splitOn]
  | cons c more ih =>
      simp only [List.mem_cons, not_or] at h
      rw [List.cons_append, splitOn, if_neg (Ne.symm h.1), ih h.2]

theorem splitOn_append_left {separator : Char} (h : separator ∉ line) {piece : List Char}
    {pieces : List (List Char)} (htext : splitOn separator text = piece :: pieces) :
    splitOn separator (line ++ text) = (line ++ piece) :: pieces := by
  induction line with
  | nil => exact htext
  | cons c more ih =>
      simp only [List.mem_cons, not_or] at h
      rw [List.cons_append, splitOn, if_neg (Ne.symm h.1), ih h.2]
      rfl

theorem splitOn_append_separator (separator : Char) (text rest : List Char) :
    splitOn separator (text ++ separator :: rest) = splitOn separator text ++ splitOn separator rest := by
  induction text with
  | nil => simp [splitOn]
  | cons c more ih =>
      rw [List.cons_append, splitOn, splitOn, ih]
      split
      · rfl
      · cases hsplit : splitOn separator more with
        | nil => exact absurd hsplit (splitOn_ne_nil separator more)
        | cons piece pieces => rfl

theorem splitOn_joinWith {separator : Char} {pieces : List (List Char)} (hne : pieces ≠ [])
    (h : ∀ piece ∈ pieces, separator ∉ piece) :
    splitOn separator (joinWith [separator] pieces) = pieces := by
  induction pieces with
  | nil => exact absurd rfl hne
  | cons piece rest ih =>
      cases rest with
      | nil => exact splitOn_of_notMem (h piece (by simp))
      | cons next more =>
          have hrest := ih (by simp) fun other hother => h other (List.mem_cons_of_mem piece hother)
          have hjoin : joinWith [separator] (piece :: next :: more)
              = piece ++ separator :: joinWith [separator] (next :: more) := by
            simp [joinWith]
          rw [hjoin, splitOn_append (h piece (by simp)), hrest]

theorem notMem_of_mem_splitOn {separator : Char} {piece : List Char}
    (h : piece ∈ splitOn separator text) : separator ∉ piece := by
  induction text generalizing piece with
  | nil => simp_all [splitOn]
  | cons c rest ih =>
      rw [splitOn] at h
      split at h
      · rcases List.mem_cons.mp h with rfl | h
        · exact List.not_mem_nil
        · exact ih h
      · next hc =>
          cases hsplit : splitOn separator rest with
          | nil => exact absurd hsplit (splitOn_ne_nil separator rest)
          | cons first more =>
              rw [hsplit] at h ih
              rcases List.mem_cons.mp h with rfl | h
              · have := ih (List.mem_cons_self ..)
                simpa [this] using Ne.symm hc
              · exact ih (List.mem_cons_of_mem _ h)

theorem joinWith_cons {separator piece : List Char} {pieces : List (List Char)} (h : pieces ≠ []) :
    joinWith separator (piece :: pieces) = piece ++ separator ++ joinWith separator pieces :=
  joinWith.eq_3 _ _ _ fun hnil => h hnil

theorem joinWith_append_last (separator : List Char) (pieces : List (List Char)) (last rest : List Char) :
    joinWith separator (pieces ++ [last]) ++ rest = joinWith separator (pieces ++ [last ++ rest]) := by
  induction pieces with
  | nil => rfl
  | cons piece more ih =>
      rw [List.cons_append, List.cons_append, joinWith_cons (by simp), joinWith_cons (by simp), List.append_assoc, ih]

theorem splitOn_append_right {separator : Char} {rest : List Char} (h : separator ∉ rest) {last : List Char}
    {pieces : List (List Char)} (htext : splitOn separator text = pieces ++ [last]) :
    splitOn separator (text ++ rest) = pieces ++ [last ++ rest] := by
  have hwhole : text ++ rest = joinWith [separator] (pieces ++ [last ++ rest]) := by
    rw [← joinWith_append_last, ← htext, joinWith_splitOn]
  have hpieces : ∀ piece ∈ pieces ++ [last], separator ∉ piece := by
    intro piece hpiece
    rw [← htext] at hpiece
    exact notMem_of_mem_splitOn hpiece
  rw [hwhole]
  apply splitOn_joinWith (by simp)
  intro piece hpiece
  rcases List.mem_append.mp hpiece with hmem | hmem
  · exact hpieces piece (List.mem_append_left _ hmem)
  · rw [List.mem_singleton.mp hmem, List.mem_append, not_or]
    exact ⟨hpieces last (by simp), h⟩

theorem map_trim_splitOn {separator : Char} (h : isBlank separator = false) (text : List Char) :
    (splitOn separator (trim text)).map trim = (splitOn separator text).map trim := by
  obtain ⟨lead, trail, htext, hlead, htrail, -⟩ := exists_margins text
  generalize trim text = core at htext
  subst htext
  obtain ⟨pieces, last, hcore⟩ : ∃ pieces last, splitOn separator core = pieces ++ [last] :=
    ⟨_, _, (List.dropLast_concat_getLast (splitOn_ne_nil separator core)).symm⟩
  have htrailing : splitOn separator (core ++ trail) = pieces ++ [last ++ trail] :=
    splitOn_append_right (htrail.notMem h) hcore
  have hlast : trim (last ++ trail) = trim last := trim_between isBlankRun_nil htrail
  rw [List.append_assoc, hcore]
  cases pieces with
  | nil =>
      rw [splitOn_append_left (hlead.notMem h) htrailing, List.nil_append, List.map_singleton, List.map_singleton,
        trim_between hlead htrail]
  | cons first more =>
      have hfirst : trim (lead ++ first) = trim first := by
        have hbetween : trim (lead ++ (first ++ [])) = trim first := trim_between hlead isBlankRun_nil
        rwa [List.append_nil] at hbetween
      rw [List.cons_append] at htrailing
      rw [splitOn_append_left (hlead.notMem h) htrailing, List.cons_append, List.map_cons, List.map_cons,
        List.map_append, List.map_append, List.map_singleton, List.map_singleton, hfirst, hlast]

theorem infix_of_mem_joinWith {separator piece : List Char} {pieces : List (List Char)} (h : piece ∈ pieces) :
    piece <:+: joinWith separator pieces := by
  induction pieces with
  | nil => cases h
  | cons first more ih =>
      cases more with
      | nil =>
          rw [List.mem_singleton.mp h]
          exact List.infix_refl _
      | cons second rest =>
          rw [joinWith.eq_3 _ _ _ (by simp)]
          rcases List.mem_cons.mp h with rfl | h
          · exact ((List.prefix_append ..).trans (List.prefix_append ..)).isInfix
          · exact (ih h).trans (List.suffix_append ..).isInfix

theorem infix_of_mem_splitOn {separator : Char} {piece : List Char} (h : piece ∈ splitOn separator text) :
    piece <:+: text :=
  joinWith_splitOn separator text ▸ infix_of_mem_joinWith h

/-! ### Lines that are ended by line feeds -/

def withLineFeeds (lines : List (List Char)) : List Char := lines.flatMap (· ++ ['\n'])

theorem withLineFeeds_splitOn (text : List Char) : withLineFeeds (splitOn '\n' text) = text ++ ['\n'] := by
  induction text with
  | nil => rfl
  | cons c rest ih =>
      rw [splitOn]
      split
      · next hc => simp [withLineFeeds, hc, ← ih]
      · cases hsplit : splitOn '\n' rest with
        | nil => exact absurd hsplit (splitOn_ne_nil '\n' rest)
        | cons first more =>
            rw [hsplit] at ih
            simpa [withLineFeeds] using ih

theorem written_withLineFeeds (h : ∀ line ∈ lines, IsUnbroken line) :
    WrittenLines lines (withLineFeeds lines) := by
  induction lines with
  | nil => exact WrittenLines.nil
  | cons line rest ih =>
      have hrest := ih fun other hother => h other (List.mem_cons_of_mem line hother)
      simpa [withLineFeeds] using WrittenLines.line (h line (by simp)) (Or.inl rfl) hrest

theorem splitOn_withLineFeeds (h : ∀ line ∈ lines, IsUnbroken line) :
    splitOn '\n' (withLineFeeds lines) = lines ++ [[]] := by
  induction lines with
  | nil => rfl
  | cons line rest ih =>
      have hrest := ih fun other hother => h other (List.mem_cons_of_mem line hother)
      have hsplit : withLineFeeds (line :: rest) = line ++ '\n' :: withLineFeeds rest := by
        simp [withLineFeeds]
      rw [hsplit, splitOn_append ((h line (by simp)).notMem (by decide)), hrest]
      rfl

theorem breaksPlainly_of_written (h : WrittenLines lines text) : breaksPlainly text = true := by
  induction h with
  | nil => rfl
  | last hline hending =>
      rw [breaksPlainly_append_unbroken hline]
      rcases hending with ⟨rfl, -⟩ | rfl <;> rfl
  | line hline hending _ ih =>
      rw [breaksPlainly_append_unbroken hline]
      rcases hending with rfl | rfl <;> simpa [breaksPlainly] using ih

theorem head?_ne_of_whole {c : Char} {rest : List Char}
    (h : ∀ more, c = '\r' → rest = '\n' :: more → False) (hc : c = '\r') : rest.head? ≠ some '\n' := by
  intro hhead
  obtain ⟨more, rfl⟩ := List.head?_eq_some_iff.mp hhead
  exact h more hc rfl

theorem isUnbroken_of_mem_splitLinesFrom {reversed : List Char} (hreversed : IsUnbroken reversed)
    (h : line ∈ splitLinesFrom reversed text) : IsUnbroken line := by
  have hreverse : ∀ {reversed : List Char}, IsUnbroken reversed → IsUnbroken reversed.reverse :=
    fun hreversed c hc => hreversed c (List.mem_reverse.mp hc)
  induction reversed, text using splitLinesFrom.induct with
  | case1 reversed hempty => simp [splitLinesFrom, hempty] at h
  | case2 reversed hempty =>
      simp only [splitLinesFrom, hempty] at h
      obtain rfl : line = reversed.reverse := by simpa using h
      exact hreverse hreversed
  | case3 reversed rest ih =>
      rw [splitLinesFrom_return] at h
      rcases List.mem_cons.mp h with rfl | h
      · exact hreverse hreversed
      · exact ih isUnbroken_nil h
  | case4 reversed c rest hwhole hbreak ih =>
      rw [splitLinesFrom_break hbreak (head?_ne_of_whole hwhole)] at h
      rcases List.mem_cons.mp h with rfl | h
      · exact hreverse hreversed
      · exact ih isUnbroken_nil h
  | case5 reversed c rest hwhole hbreak ih =>
      have hchar : isLineBreak c = false := by simpa using hbreak
      rw [splitLinesFrom_char hchar] at h
      refine ih ?_ h
      intro x hx
      rcases List.mem_cons.mp hx with rfl | hx
      · exact hchar
      · exact hreversed x hx

theorem head?_splitLinesFrom {reversed : List Char} (h : (splitLinesFrom reversed text).head? = some line) :
    line = reversed.reverse ++ text.takeWhile (!isLineBreak ·) := by
  induction reversed, text using splitLinesFrom.induct with
  | case1 reversed hempty => simp [splitLinesFrom, hempty] at h
  | case2 reversed hempty =>
      simp only [splitLinesFrom, hempty] at h
      simpa using h.symm
  | case3 reversed rest ih =>
      rw [splitLinesFrom_return] at h
      have hbreak : isLineBreak '\r' = true := by decide
      simpa [hbreak] using h.symm
  | case4 reversed c rest hwhole hbreak ih =>
      rw [splitLinesFrom_break hbreak (head?_ne_of_whole hwhole)] at h
      simpa [hbreak] using h.symm
  | case5 reversed c rest hwhole hbreak ih =>
      have hchar : isLineBreak c = false := by simpa using hbreak
      rw [splitLinesFrom_char hchar] at h
      simpa [hchar] using ih h

theorem splitLinesFrom_isPrefix (reversed text : List Char) :
    splitLinesFrom reversed text <+: splitLinesFrom reversed (text ++ ['\n']) := by
  induction reversed, text using splitLinesFrom.induct with
  | case1 reversed hempty => simp [splitLinesFrom, hempty]
  | case2 reversed hempty =>
      rw [List.nil_append, splitLinesFrom_lineFeed]
      simp [splitLinesFrom, hempty]
  | case3 reversed rest ih =>
      rw [List.cons_append, List.cons_append, splitLinesFrom_return, splitLinesFrom_return]
      exact (List.prefix_cons_inj _).mpr ih
  | case4 reversed c rest hwhole hbreak ih =>
      have hreturn := head?_ne_of_whole hwhole
      cases rest with
      | nil =>
          rw [splitLinesFrom_break hbreak hreturn]
          cases hc : decide (c = '\r') with
          | true =>
              obtain rfl : c = '\r' := by simpa using hc
              simpa only [List.singleton_append, splitLinesFrom_return] using List.prefix_rfl
          | false =>
              have hne : c ≠ '\r' := by simpa using hc
              rw [List.singleton_append, splitLinesFrom_break hbreak fun h => absurd h hne]
              exact (List.prefix_cons_inj _).mpr (List.nil_prefix ..)
      | cons d more =>
          rw [List.cons_append, splitLinesFrom_break hbreak hreturn,
            splitLinesFrom_break hbreak (by simpa using hreturn)]
          exact (List.prefix_cons_inj _).mpr ih
  | case5 reversed c rest hwhole hbreak ih =>
      have hchar : isLineBreak c = false := by simpa using hbreak
      rw [List.cons_append, splitLinesFrom_char hchar, splitLinesFrom_char hchar]
      exact ih

/-! ### Counting -/

/-- A line feed at the end of a text ends a line in any case, so the lines behind it are those of the rest
alone. -/
theorem splitLinesFrom_append (reversed text rest : List Char) :
    splitLinesFrom reversed (text ++ '\n' :: rest)
      = splitLinesFrom reversed (text ++ ['\n']) ++ splitLinesFrom [] rest := by
  induction hlength : text.length using Nat.strong_induction_on generalizing reversed text with
  | _ n ih =>
      cases text with
      | nil =>
          rw [List.nil_append, List.nil_append, splitLinesFrom_lineFeed, splitLinesFrom_lineFeed]
          simp [splitLinesFrom]
      | cons c more =>
          rw [List.length_cons] at hlength
          have hmore := fun reversed => ih more.length (by omega) reversed more rfl
          cases hbreak : isLineBreak c with
          | false =>
              rw [List.cons_append, List.cons_append, splitLinesFrom_char hbreak,
                splitLinesFrom_char hbreak, hmore]
          | true =>
              by_cases hpair : c = '\r' ∧ (more ++ ['\n']).head? = some '\n'
              · obtain ⟨rfl, hhead⟩ := hpair
                cases more with
                | nil => simp [splitLinesFrom_return, splitLinesFrom]
                | cons d more =>
                    obtain rfl : d = '\n' := by simpa using hhead
                    rw [List.length_cons] at hlength
                    have htail := ih more.length (by omega) [] more rfl
                    simp only [List.cons_append, splitLinesFrom_return, htail]
              · have hwhole : ∀ tail : List Char, c = '\r' →
                    (more ++ '\n' :: tail).head? ≠ some '\n' := by
                  intro tail hc hhead
                  refine hpair ⟨hc, ?_⟩
                  cases more with
                  | nil => rfl
                  | cons d more => simpa using hhead
                rw [List.cons_append, List.cons_append, splitLinesFrom_break hbreak (hwhole rest),
                  splitLinesFrom_break hbreak (hwhole []), hmore]
                simp

/-- A text breaks at each of its line feeds, and at others besides if its breaks are not plain. -/
theorem count_lt_length_splitLinesFrom (reversed text : List Char) :
    text.count '\n' + 1 ≤ (splitLinesFrom reversed (text ++ ['\n'])).length ∧
      (breaksPlainly text = false →
        text.count '\n' + 1 < (splitLinesFrom reversed (text ++ ['\n'])).length) := by
  induction hlength : text.length using Nat.strong_induction_on generalizing reversed text with
  | _ n ih =>
      cases text with
      | nil => simp [splitLinesFrom_lineFeed, breaksPlainly]
      | cons c more =>
          rw [List.length_cons] at hlength
          have hmore := fun reversed => ih more.length (by omega) reversed more rfl
          cases hbreak : isLineBreak c with
          | false =>
              have hunbroken : IsUnbroken [c] := by simpa [IsUnbroken] using hbreak
              have hplain : breaksPlainly (c :: more) = breaksPlainly more :=
                breaksPlainly_append_unbroken hunbroken
              have hfeed : c ≠ '\n' := by
                rintro rfl
                revert hbreak
                decide
              rw [List.cons_append, splitLinesFrom_char hbreak, hplain, List.count_cons_of_ne hfeed]
              exact hmore (c :: reversed)
          | true =>
              by_cases hpair : c = '\r' ∧ (more ++ ['\n']).head? = some '\n'
              · obtain ⟨rfl, hhead⟩ := hpair
                cases more with
                | nil => simp [splitLinesFrom_return, breaksPlainly]
                | cons d more =>
                    obtain rfl : d = '\n' := by simpa using hhead
                    rw [List.length_cons] at hlength
                    obtain ⟨hle, hlt⟩ := ih more.length (by omega) [] more rfl
                    have hplain : breaksPlainly ('\r' :: '\n' :: more) = breaksPlainly more := by
                      simp [breaksPlainly]
                    rw [List.cons_append, List.cons_append, splitLinesFrom_return, hplain,
                      List.count_cons_of_ne (by decide), List.count_cons_self, List.length_cons]
                    exact ⟨by omega, fun h => by have := hlt h; omega⟩
              · obtain ⟨hle, hlt⟩ := hmore []
                have hsplit : splitLinesFrom reversed (c :: more ++ ['\n'])
                    = reversed.reverse :: splitLinesFrom [] (more ++ ['\n']) :=
                  splitLinesFrom_break hbreak (fun hc hhead => hpair ⟨hc, hhead⟩) reversed
                rw [hsplit, List.length_cons]
                by_cases hfeed : c = '\n'
                · subst hfeed
                  have hplain : breaksPlainly ('\n' :: more) = breaksPlainly more := by
                    simp [breaksPlainly]
                  rw [hplain, List.count_cons_self]
                  exact ⟨by omega, fun h => by have := hlt h; omega⟩
                · rw [List.count_cons_of_ne hfeed]
                  exact ⟨by omega, fun _ => by omega⟩

theorem breaksPlainly_eq_false {c : Char} (h : c ∈ text) (hbreak : isLineBreak c = true) (hfeed : c ≠ '\n')
    (hreturn : c ≠ '\r') : breaksPlainly text = false := by
  induction text with
  | nil => cases h
  | cons d rest ih =>
      rcases List.mem_cons.mp h with rfl | h
      · simp [breaksPlainly, hbreak, hfeed, hreturn]
      · rw [breaksPlainly, ih h, Bool.and_false]

theorem splitLines_withLineFeeds_cons (line : List Char) (lines : List (List Char)) (rest : List Char) :
    splitLines (withLineFeeds (line :: lines) ++ rest)
      = splitLinesFrom [] (line ++ ['\n']) ++ splitLines (withLineFeeds lines ++ rest) := by
  have hsplit : withLineFeeds (line :: lines) ++ rest = line ++ '\n' :: (withLineFeeds lines ++ rest) := by
    simp [withLineFeeds]
  rw [hsplit, splitLines, splitLinesFrom_append]
  rfl

theorem splitLines_withLineFeeds_append (lines : List (List Char)) (rest : List Char) :
    splitLines (withLineFeeds lines ++ rest) = splitLines (withLineFeeds lines) ++ splitLines rest := by
  induction lines with
  | nil => rfl
  | cons line more ih =>
      have hline := splitLines_withLineFeeds_cons line more []
      rw [List.append_nil, List.append_nil] at hline
      rw [splitLines_withLineFeeds_cons, ih, hline, List.append_assoc]

theorem length_lt_length_splitLines (hfeeds : ∀ line ∈ lines, '\n' ∉ line)
    (hbroken : ∃ line ∈ lines, breaksPlainly line = false) :
    lines.length < (splitLines (withLineFeeds lines)).length := by
  have hcount : ∀ line : List Char, '\n' ∉ line → 1 ≤ (splitLinesFrom [] (line ++ ['\n'])).length ∧
      (breaksPlainly line = false → 1 < (splitLinesFrom [] (line ++ ['\n'])).length) := by
    intro line hline
    have hcount := count_lt_length_splitLinesFrom [] line
    rwa [List.count_eq_zero_of_not_mem hline, Nat.zero_add] at hcount
  have hle : ∀ lines : List (List Char), (∀ line ∈ lines, '\n' ∉ line) →
      lines.length ≤ (splitLines (withLineFeeds lines)).length := by
    intro lines
    induction lines with
    | nil => exact fun _ => Nat.zero_le _
    | cons line more ih =>
        intro hfeeds
        have hsplit := splitLines_withLineFeeds_cons line more []
        have hline := (hcount line (hfeeds line (by simp))).1
        have hmore := ih fun x hx => hfeeds x (List.mem_cons_of_mem line hx)
        rw [List.append_nil, List.append_nil] at hsplit
        rw [hsplit, List.length_append, List.length_cons]
        omega
  induction lines with
  | nil => obtain ⟨line, hline, -⟩ := hbroken; cases hline
  | cons line more ih =>
      have hsplit := splitLines_withLineFeeds_cons line more []
      have hmoreFeeds : ∀ x ∈ more, '\n' ∉ x := fun x hx => hfeeds x (List.mem_cons_of_mem line hx)
      obtain ⟨hline, hlineBroken⟩ := hcount line (hfeeds line (by simp))
      rw [List.append_nil, List.append_nil] at hsplit
      rw [hsplit, List.length_append, List.length_cons]
      obtain ⟨broken, hmem, hbreaks⟩ := hbroken
      rcases List.mem_cons.mp hmem with rfl | hmem
      · have := hle more hmoreFeeds
        have := hlineBroken hbreaks
        omega
      · have := ih hmoreFeeds ⟨broken, hmem, hbreaks⟩
        omega

theorem length_splitLines_plain (hfeeds : ∀ line ∈ lines, '\n' ∉ line)
    (hplain : ∀ line ∈ lines, breaksPlainly line = true) :
    (splitLines (withLineFeeds lines)).length = lines.length := by
  have hone : ∀ line : List Char, '\n' ∉ line → breaksPlainly line = true →
      (splitLinesFrom [] (line ++ ['\n'])).length = 1 := by
    intro line hline hplain
    obtain ⟨lines, hlines⟩ := exists_writtenLines hplain
    cases hlines with
    | nil => rfl
    | last hunbroken hending =>
        rw [List.append_assoc, splitLinesFrom_unbroken hunbroken]
        rcases hending with ⟨rfl, -⟩ | rfl
        · rw [List.nil_append, splitLinesFrom_lineFeed]
          rfl
        · rw [List.singleton_append, splitLinesFrom_return]
          rfl
    | line hunbroken hending hrest => exact absurd (by simp) hline
  induction lines with
  | nil => rfl
  | cons line more ih =>
      have hsplit := splitLines_withLineFeeds_cons line more []
      have hmore := ih (fun x hx => hfeeds x (List.mem_cons_of_mem line hx))
        fun x hx => hplain x (List.mem_cons_of_mem line hx)
      rw [List.append_nil, List.append_nil] at hsplit
      rw [hsplit, List.length_append, hone line (hfeeds line (by simp)) (hplain line (by simp)), hmore,
        List.length_cons, Nat.add_comm]

end Lines

end ManifestLens.Text
