import ManifestLens.Buffer.Basic
import ManifestLens.Proofs.Manifest.Span
import ManifestLens.Proofs.Text.Lines

/-!
# Lines of a buffer and edits in them

A buffer counts its lines by line feeds. A line of it stands at one place of the text, behind as many line
feeds as its number says, and an edit of columns that the line has replaces the characters at these
columns and nothing else. Where the text has plain breaks only, the lines of the buffer are those of the
text.
-/

namespace ManifestLens

open Text

namespace Buffer

/-! ### Places in the text -/

/-- A line with a number stands in the text behind as many line feeds, at the offset where the buffer lets
it start. It goes from one line feed to the next, or to an end of the text. -/
theorem exists_place_between {text raw : List Char} {number : Nat}
    (h : (splitOn '\n' text)[number]? = some raw) :
    ∃ before after, text = before ++ raw ++ after ∧
      lineStart (splitOn '\n' text) number = before.length ∧ before.count '\n' = number ∧
      '\n' ∉ raw ∧ LastNot (· != '\n') before ∧ HeadNot (· != '\n') after := by
  induction hlength : text.length using Nat.strong_induction_on generalizing text number with
  | _ n ih =>
      obtain ⟨line, rest, rfl, hrun, hrest, -, -⟩ := exists_run (· != '\n') text
      have hline : '\n' ∉ line := fun hmem => by simpa using hrun '\n' hmem
      cases rest with
      | nil =>
          rw [List.append_nil] at h ⊢
          rw [splitOn_of_notMem hline] at h ⊢
          cases number with
          | zero =>
              obtain rfl : line = raw := by simpa using h
              exact ⟨[], [], by simp, rfl, rfl, hline, by simp [LastNot], headNot_nil⟩
          | succ number => simp at h
      | cons c more =>
          obtain rfl : c = '\n' := by simpa using headNot_cons.mp hrest
          rw [splitOn_append hline] at h ⊢
          cases number with
          | zero =>
              obtain rfl : line = raw := by simpa using h
              exact ⟨[], '\n' :: more, by simp, rfl, rfl, hline, by simp [LastNot], hrest⟩
          | succ number =>
              rw [List.getElem?_cons_succ] at h
              rw [List.length_append, List.length_cons] at hlength
              obtain ⟨before, after, hmore, hstart, hcount, hraw, hlast, hafter⟩ :=
                ih more.length (by omega) h rfl
              refine ⟨line ++ '\n' :: before, after, by simp [hmore], ?_, ?_, hraw, ?_, hafter⟩
              · rw [lineStart, hstart, List.length_append, List.length_cons]
                omega
              · rw [List.count_append, List.count_eq_zero.mpr hline, List.count_cons_self, hcount,
                  Nat.zero_add]
              · cases before with
                | nil => simp [LastNot]
                | cons d before => simpa [LastNot] using hlast

theorem exists_place {text raw : List Char} {number : Nat}
    (h : (splitOn '\n' text)[number]? = some raw) :
    ∃ before after, text = before ++ raw ++ after ∧
      lineStart (splitOn '\n' text) number = before.length ∧ before.count '\n' = number ∧
      '\n' ∉ raw := by
  obtain ⟨before, after, htext, hstart, hcount, hraw, -, -⟩ := exists_place_between h
  exact ⟨before, after, htext, hstart, hcount, hraw⟩

theorem exists_withoutReturns_append (raw : List Char) : ∃ returns, raw = withoutReturns raw ++ returns := by
  obtain ⟨returns, hsplit, -⟩ := exists_trailing (· == '\r') raw
  exact ⟨returns, hsplit⟩

theorem exists_of_lineAt? {buffer : Buffer} {number : Nat} {line : List Char}
    (h : buffer.lineAt? number = some line) :
    ∃ raw, (splitOn '\n' buffer.text)[number]? = some raw ∧ line = withoutReturns raw := by
  rw [lineAt?, if_neg (by omega), Int.toNat_natCast, lines, List.getElem?_map] at h
  obtain ⟨raw, hraw, rfl⟩ := Option.map_eq_some_iff.mp h
  exact ⟨raw, hraw, rfl⟩

theorem offsetAt_eq {buffer : Buffer} {number : Nat} {raw : List Char}
    (h : (splitOn '\n' buffer.text)[number]? = some raw) (column : Nat) : buffer.offsetAt ⟨number, column⟩
      = lineStart (splitOn '\n' buffer.text) number + min column (withoutReturns raw).length := by
  have hlength := (List.getElem?_eq_some_iff.mp h).1
  have hline : clamp (number : Int) ((splitOn '\n' buffer.text).length - 1) = number := by
    simp only [clamp, Int.toNat_natCast]
    omega
  have hraw : (splitOn '\n' buffer.text).getD number [] = raw := by
    rw [List.getD_eq_getElem?_getD, h, Option.getD_some]
  simp only [offsetAt, rawLines, hline, hraw]
  rfl

/-- **One edit in a line.** The columns of the edit, as far as the line has them, are exchanged, and everything
else stays: what stands before the line, the rest of the line and what comes after it. -/
theorem exists_place_of_withEdits {buffer : Buffer} {number : Nat} {line : List Char}
    (hline : buffer.lineAt? number = some line) (span : Span) (new : List Char) :
    ∃ front rest, buffer.text = front ++ line ++ rest ∧ front.count '\n' = number ∧ '\n' ∉ line ∧
      front.length = lineStart buffer.rawLines number ∧
      buffer.withEdits [⟨number, span, new⟩]
        = .ok (front ++ line.take span.start ++ new ++ (line.drop span.stop ++ rest)) := by
  obtain ⟨raw, hraw, rfl⟩ := exists_of_lineAt? hline
  obtain ⟨front, after, htext, hstart, hcount, hfeed⟩ := exists_place hraw
  obtain ⟨returns, hreturns⟩ := exists_withoutReturns_append raw
  have hfeed : '\n' ∉ withoutReturns raw := fun hmem => hfeed (by rw [hreturns]; simp [hmem])
  have hrange : buffer.replacement ⟨number, span, new⟩
      = ⟨front.length + min span.start (withoutReturns raw).length,
          front.length + min span.stop (withoutReturns raw).length, new⟩ := by
    simp only [replacement, offsetAt_eq hraw, hstart]
  have hsplit : buffer.text = front ++ (withoutReturns raw ++ (returns ++ after)) := by
    rw [htext, ← List.append_assoc (withoutReturns raw), ← hreturns, List.append_assoc]
  have htake : buffer.text.take (front.length + min span.start (withoutReturns raw).length)
      = front ++ (withoutReturns raw).take span.start := by
    rw [hsplit, List.take_length_add_append, List.take_append_of_le_length (Nat.min_le_right ..),
      ← List.take_eq_take_min]
  have hdrop : buffer.text.drop (front.length + min span.stop (withoutReturns raw).length)
      = (withoutReturns raw).drop span.stop ++ (returns ++ after) := by
    rw [hsplit, List.drop_length_add_append, List.drop_append_of_le_length (Nat.min_le_right ..)]
    congr 1
    rcases Nat.le_total span.stop (withoutReturns raw).length with hle | hle
    · rw [Nat.min_eq_left hle]
    · rw [Nat.min_eq_right hle, List.drop_length, List.drop_eq_nil_of_le hle]
  refine ⟨front, returns ++ after, by rw [hsplit, List.append_assoc], hcount, hfeed, by rw [rawLines, hstart], ?_⟩
  simp only [withEdits, List.map_cons, List.map_nil, hrange, List.mergeSort_singleton, Replacement.overlap,
    Bool.false_eq_true, if_false, List.foldr_cons, List.foldr_nil, Replacement.apply, htake, hdrop]

/-- An edit of columns that the line has exchanges the word at these columns, which stands behind as many line
feeds as the number of the line says. -/
theorem exists_of_withEdits {buffer : Buffer} {number : Nat} {line word : List Char} {span : Span}
    (hline : buffer.lineAt? number = some line) (hcovers : span.Covers line word) (new : List Char) :
    ∃ before after, buffer.text = before ++ word ++ after ∧ before.count '\n' = number ∧
      before.length = lineStart buffer.rawLines number + span.start ∧
      buffer.withEdits [⟨number, span, new⟩] = .ok (before ++ new ++ after) := by
  obtain ⟨left, right, rfl, rfl⟩ := hcovers
  obtain ⟨front, rest, htext, hcount, hfeed, hstart, hedited⟩ :=
    exists_place_of_withEdits hline ⟨left.length, word.length⟩ new
  have hleft : '\n' ∉ left := fun hmem => hfeed (by simp [hmem])
  have htake : (left ++ word ++ right).take left.length = left := by
    rw [List.append_assoc, List.take_left]
  have hdrop : (left ++ word ++ right).drop (left.length + word.length) = right := by
    rw [← List.length_append, List.drop_left]
  refine ⟨front ++ left, right ++ rest, by simp [htext], ?_, ?_, ?_⟩
  · rw [List.count_append, List.count_eq_zero.mpr hleft, hcount, Nat.add_zero]
  · rw [List.length_append, hstart]
  · rw [hedited]
    simp only [Span.stop, htake, hdrop]

/-! ### The lines of a plainly broken text -/

theorem withoutReturns_line {line ending : List Char} (hline : IsUnbroken line)
    (hending : ending = [] ∨ ending = ['\r']) : withoutReturns (line ++ ending) = line := by
  have hlast : LastNot (· == '\r') line := by
    intro c hc
    have hne : c ≠ '\r' := by
      rintro rfl
      exact hline.notMem (by decide) (List.mem_of_getLast? hc)
    simpa using hne
  rw [withoutReturns, dropTrailing_append, dropTrailing_of_lastNot hlast]
  rcases hending with rfl | rfl <;> simp

/-- The buffer has the lines that the text is written with, and maybe an empty one at the end. -/
theorem lines_of_written {lines : List (List Char)} {text : List Char}
    (h : WrittenLines lines text) :
    (splitOn '\n' text).map withoutReturns = lines ∨
      (splitOn '\n' text).map withoutReturns = lines ++ [[]] := by
  induction h with
  | nil => exact Or.inr rfl
  | @last line ending hline hending =>
      have hreturn : ending = [] ∨ ending = ['\r'] := hending.imp_left And.left
      have hfeed : '\n' ∉ line ++ ending := by
        have := hline.notMem (c := '\n') (by decide)
        rcases hreturn with rfl | rfl <;> simpa using this
      refine Or.inl ?_
      rw [splitOn_of_notMem hfeed, List.map_singleton, withoutReturns_line hline hreturn]
  | @line line ending text lines hline hending _ ih =>
      have hfeed : '\n' ∉ line ++ ending := by
        have := hline.notMem (c := '\n') (by decide)
        rcases hending with rfl | rfl <;> simpa using this
      rw [← List.append_assoc, splitOn_append hfeed, List.map_cons, withoutReturns_line hline hending]
      exact ih.imp (fun h => by rw [h]) fun h => by rw [h]; rfl

theorem lineAt?_of_written {buffer : Buffer} {lines : List (List Char)} {number : Nat}
    {line : List Char} (h : WrittenLines lines buffer.text) (hline : lines[number]? = some line) :
    buffer.lineAt? number = some line := by
  rw [lineAt?, if_neg (by omega), Int.toNat_natCast, Buffer.lines, rawLines]
  rcases lines_of_written h with hlines | hlines
  · rw [hlines, hline]
  · rw [hlines, List.getElem?_append_left, hline]
    by_contra hge
    rw [List.getElem?_eq_none (by omega)] at hline
    cases hline

/-- Behind plain breaks a line that the text breaks into is the front of the buffer's line with the same
number. -/
theorem exists_lineAt?_of_splitLines {buffer : Buffer} {number : Nat} {piece : List Char}
    (hplain : ∀ raw ∈ buffer.rawLines.take number, breaksPlainly raw = true)
    (hlength : number < buffer.rawLines.length) (h : (splitLines buffer.text)[number]? = some piece) :
    ∃ more, buffer.lineAt? number = some (piece ++ more) := by
  have hfeeds : ∀ raw ∈ buffer.rawLines, '\n' ∉ raw := fun raw hraw => notMem_of_mem_splitOn hraw
  obtain ⟨raw, rest, hdrop⟩ : ∃ raw rest, buffer.rawLines.drop number = raw :: rest :=
    ⟨_, _, List.drop_eq_getElem_cons hlength⟩
  have hraw : buffer.rawLines[number]? = some raw := by
    rw [← List.head?_drop, hdrop]
    rfl
  have hpiece : (splitLines (buffer.text ++ ['\n']))[number]? = some piece := by
    obtain ⟨tail, htail⟩ := splitLinesFrom_isPrefix [] buffer.text
    rw [splitLines] at h ⊢
    rw [← htail, List.getElem?_append_left (List.getElem?_eq_some_iff.mp h).1, h]
  have hsplit : buffer.text ++ ['\n']
      = withLineFeeds (buffer.rawLines.take number) ++ (raw ++ '\n' :: withLineFeeds rest) :=
    calc buffer.text ++ ['\n'] = withLineFeeds buffer.rawLines := (withLineFeeds_splitOn _).symm
      _ = withLineFeeds (buffer.rawLines.take number ++ raw :: rest) := by
          rw [← hdrop, List.take_append_drop]
      _ = _ := by simp [withLineFeeds]
  have hcount := length_splitLines_plain
    (fun raw hraw => hfeeds raw (List.mem_of_mem_take hraw)) hplain
  rw [List.length_take, Nat.min_eq_left hlength.le] at hcount
  rw [hsplit, splitLines_withLineFeeds_append, List.getElem?_append_right hcount.le, hcount,
    Nat.sub_self, ← List.head?_eq_getElem?] at hpiece
  have hfront : piece = (raw ++ '\n' :: withLineFeeds rest).takeWhile (!isLineBreak ·) :=
    head?_splitLinesFrom hpiece
  -- The first break of the line is one within it, or else the returns or the line feed at its end.
  obtain ⟨returns, hreturns, hrun, -⟩ := exists_trailing (· == '\r') raw
  obtain ⟨front, more, hwhole, hunbroken, hmore, -⟩ := exists_run (!isLineBreak ·) (withoutReturns raw)
  have hstop : HeadNot (!isLineBreak ·) (more ++ (returns ++ '\n' :: withLineFeeds rest)) := by
    refine hmore.append fun _ => HeadNot.append ?_ fun _ => headNot_cons.mpr (by decide)
    intro c hc
    obtain rfl : c = '\r' := by simpa using hrun c (List.mem_of_head? hc)
    decide
  have hraws : raw ++ '\n' :: withLineFeeds rest
      = front ++ (more ++ (returns ++ '\n' :: withLineFeeds rest)) := by
    rw [← List.append_assoc, ← hwhole, withoutReturns, ← List.append_assoc, ← hreturns]
  rw [hraws, takeWhile_run hunbroken hstop] at hfront
  refine ⟨more, ?_⟩
  rw [lineAt?, if_neg (by omega), Int.toNat_natCast, lines, List.getElem?_map, hraw, Option.map_some,
    hwhole, hfront]

/-- **One line exchanged.** A line stands in the text where the buffer lets it start, and the text with
another line in its place consists of the same lines but for this one. -/
theorem exists_focus {lines : List (List Char)} {text line : List Char} {number : Nat}
    (h : WrittenLines lines text) (hline : lines[number]? = some line) :
    ∃ before after, text = before ++ line ++ after ∧
      before.length = lineStart (splitOn '\n' text) number ∧
      ∀ other, IsUnbroken other → other ≠ [] →
        WrittenLines (lines.set number other) (before ++ other ++ after) := by
  induction h generalizing number with
  | nil => simp at hline
  | @last first ending hfirst hending =>
      cases number with
      | zero =>
          obtain rfl : first = line := by simpa using hline
          refine ⟨[], ending, rfl, by cases splitOn '\n' (first ++ ending) <;> rfl, ?_⟩
          intro other hother hne
          exact WrittenLines.last hother (hending.imp_left fun h => ⟨h.1, hne⟩)
      | succ number => simp at hline
  | @line first ending text lines hfirst hending hrest ih =>
      cases number with
      | zero =>
          obtain rfl : first = line := by simpa using hline
          refine ⟨[], ending ++ '\n' :: text, by simp, ?_, ?_⟩
          · cases splitOn '\n' (first ++ (ending ++ '\n' :: text)) <;> rfl
          · intro other hother hne
            simpa using WrittenLines.line hother hending hrest
      | succ number =>
          rw [List.getElem?_cons_succ] at hline
          obtain ⟨before, after, htext, hstart, hexchange⟩ := ih hline
          have hfeed : '\n' ∉ first ++ ending := by
            have := hfirst.notMem (c := '\n') (by decide)
            rcases hending with rfl | rfl <;> simpa using this
          refine ⟨first ++ (ending ++ '\n' :: before), after, by simp [htext], ?_, ?_⟩
          · have hsplit : splitOn '\n' (first ++ (ending ++ '\n' :: text))
                = (first ++ ending) :: splitOn '\n' text := by
              rw [← List.append_assoc, splitOn_append hfeed]
            rw [hsplit, lineStart, ← hstart]
            simp only [List.length_append, List.length_cons]
            omega
          · intro other hother hne
            have := WrittenLines.line hfirst hending (hexchange other hother hne)
            simpa using this

end Buffer

end ManifestLens
