import ManifestLens.Proofs.Buffer.Edit
import Mathlib.Data.Prod.Lex
import Mathlib.Order.Bounds.Basic

/-!
# Offsets and positions

A cursor stands in a line, between its characters or at one of its ends; the carriage returns in front of a
line feed are no place for it. Each position of a cursor is that of its offset. An offset has the position of
the last cursor that is not behind it, which is another offset only among the returns that end a line, so
the two conversions are the two sides of a Galois connection.

The line of an offset is the one that starts at or before it and reaches up to it (`exists_positionIn`), and
it is the only one, since every later line starts behind the line feed of an earlier one (`lineStart_lt`).
-/

namespace ManifestLens

open Text

namespace Buffer

/-! ### Where lines start -/

section Lines

variable {lines : List (List Char)} {n m : Nat} {raw : List Char}

theorem lineStart_lt (hraw : lines[n]? = some raw) (hnm : n < m) (hm : m < lines.length) :
    lineStart lines n + raw.length < lineStart lines m := by
  induction lines generalizing n m with
  | nil => simp at hm
  | cons line rest ih =>
      obtain ⟨k, rfl⟩ := Nat.exists_eq_succ_of_ne_zero (Nat.ne_zero_of_lt hnm)
      rw [List.length_cons, Nat.succ_lt_succ_iff] at hm
      cases n with
      | zero =>
          obtain rfl : line = raw := by simpa using hraw
          rw [lineStart, lineStart.eq_2 _ _ (by simp)]
          omega
      | succ n =>
          have hmore := ih (by simpa using hraw) (Nat.succ_lt_succ_iff.mp hnm) hm
          rw [lineStart, lineStart]
          omega

/-- The line of an offset starts at or before it and reaches up to it. -/
theorem exists_positionIn (hne : lines ≠ []) (line : Nat) {offset : Nat}
    (hoffset : offset ≤ (joinWith ['\n'] lines).length) :
    ∃ n raw, lines[n]? = some raw ∧ lineStart lines n ≤ offset ∧ offset ≤ lineStart lines n + raw.length ∧
      positionIn line offset lines
        = (line + n, min (offset - lineStart lines n) (withoutReturns raw).length) := by
  induction lines generalizing line offset with
  | nil => exact absurd rfl hne
  | cons first rest ih =>
      cases rest with
      | nil => exact ⟨0, first, rfl, Nat.zero_le _, by simpa [joinWith, lineStart] using hoffset, rfl⟩
      | cons second more =>
          rw [positionIn.eq_3 _ _ _ _ (List.cons_ne_nil second more)]
          split
          · next hle => exact ⟨0, first, rfl, Nat.zero_le _, by simpa [lineStart] using hle, rfl⟩
          · next hgt =>
              rw [joinWith_cons (by simp), List.length_append, List.length_append,
                List.length_singleton] at hoffset
              have hinner : offset - (first.length + 1) ≤ (joinWith ['\n'] (second :: more)).length := by omega
              obtain ⟨n, raw, hraw, hstart, hstop, hposition⟩ := ih (by simp) (line + 1) hinner
              refine ⟨n + 1, raw, hraw, ?_, ?_, ?_⟩
              · rw [lineStart]
                omega
              · rw [lineStart]
                omega
              · rw [hposition, lineStart, Nat.sub_sub, Nat.add_assoc line, Nat.add_comm 1 n]

end Lines

/-! ### Places of a cursor -/

/-- The position is in the text: its line is one of the lines, and its character stands in the line or at the
end of it. -/
def Has (buffer : Buffer) (position : Position) : Prop :=
  ∃ text, buffer.lineAt position.line = .ok text ∧ 0 ≤ position.character ∧ position.character ≤ text.length

/-- The position of an offset, as one that can be asked for. -/
def cursorOf (buffer : Buffer) (offset : Int) : Position :=
  ⟨(buffer.positionAt offset).1, (buffer.positionAt offset).2⟩

/-- The offset of a position in the text. -/
def IsCursor (buffer : Buffer) (offset : Nat) : Prop :=
  ∃ position, buffer.Has position ∧ buffer.offsetAt position = offset

/-- The offset stands behind a carriage return that belongs to the end of its line: only others stand between
it and the line feed or the end of the text. -/
def BehindReturn (text : List Char) (offset : Nat) : Prop :=
  ∃ before returns after, text = before ++ '\r' :: (returns ++ after) ∧ offset = before.length + 1 ∧
    (∀ c ∈ returns, c = '\r') ∧ HeadNot (· != '\n') after

variable {buffer : Buffer} {n : Nat} {raw : List Char} {position : Position}

theorem rawLines_ne_nil (buffer : Buffer) : buffer.rawLines ≠ [] := splitOn_ne_nil '\n' buffer.text

/-- The offset of a position is counted from the start of its line, or of the nearest one. -/
theorem exists_offsetAt (buffer : Buffer) (line : Int) :
    ∃ raw, buffer.rawLines[clamp line (buffer.lineCount - 1)]? = some raw ∧
      ∀ character, buffer.offsetAt ⟨line, character⟩
        = lineStart buffer.rawLines (clamp line (buffer.lineCount - 1))
          + clamp character (withoutReturns raw).length := by
  have hpos : 0 < buffer.rawLines.length := List.length_pos_iff.mpr buffer.rawLines_ne_nil
  have hlt : clamp line (buffer.rawLines.length - 1) < buffer.rawLines.length := by
    rw [clamp]
    omega
  refine ⟨buffer.rawLines[clamp line (buffer.rawLines.length - 1)], List.getElem?_eq_getElem hlt,
    fun character => ?_⟩
  rw [offsetAt, lineCount, List.getD_eq_getElem?_getD, List.getElem?_eq_getElem hlt, Option.getD_some]

theorem exists_positionAt (buffer : Buffer) (offset : Int) :
    ∃ n raw, buffer.rawLines[n]? = some raw ∧
      lineStart buffer.rawLines n ≤ clamp offset buffer.text.length ∧
      clamp offset buffer.text.length ≤ lineStart buffer.rawLines n + raw.length ∧
      buffer.positionAt offset
        = (n, min (clamp offset buffer.text.length - lineStart buffer.rawLines n)
          (withoutReturns raw).length) := by
  have hoffset : clamp offset buffer.text.length ≤ (joinWith ['\n'] buffer.rawLines).length := by
    rw [rawLines, joinWith_splitOn]
    exact Nat.min_le_right ..
  rw [positionAt]
  simpa using exists_positionIn buffer.rawLines_ne_nil 0 hoffset

theorem clamp_of_le {value : Int} {bound : Nat} (h : value ≤ bound) : clamp value bound = value.toNat := by
  rw [clamp]
  omega

theorem length_withoutReturns_le (raw : List Char) : (withoutReturns raw).length ≤ raw.length := by
  obtain ⟨returns, hsplit⟩ := exists_withoutReturns_append raw
  conv_rhs => rw [hsplit]
  simp

theorem lineStart_add_le (h : buffer.rawLines[n]? = some raw) :
    lineStart buffer.rawLines n + raw.length ≤ buffer.text.length := by
  obtain ⟨before, after, htext, hstart, -, -⟩ := exists_place h
  rw [rawLines, hstart, htext, List.length_append, List.length_append]
  omega

theorem offsetAt_le_length (buffer : Buffer) (position : Position) :
    buffer.offsetAt position ≤ buffer.text.length := by
  obtain ⟨raw, hraw, hoffset⟩ := buffer.exists_offsetAt position.line
  have hend := lineStart_add_le hraw
  have hstripped := length_withoutReturns_le raw
  have hcolumn : clamp position.character (withoutReturns raw).length ≤ (withoutReturns raw).length :=
    Nat.min_le_right ..
  rw [hoffset position.character]
  omega

theorem lineAt_eq_ok_iff {line : Int} {text : List Char} : buffer.lineAt line = .ok text ↔
    ∃ (n : Nat) (raw : List Char), line = n ∧ buffer.rawLines[n]? = some raw ∧ text = withoutReturns raw := by
  rw [lineAt, lineAt?]
  constructor
  · intro h
    by_cases hneg : line < 0
    · simp [hneg] at h
    · obtain ⟨n, rfl⟩ := Int.eq_ofNat_of_zero_le (Int.not_lt.mp hneg)
      rw [if_neg hneg, Int.toNat_natCast, lines, List.getElem?_map] at h
      cases hraw : buffer.rawLines[n]? with
      | none => simp [hraw] at h
      | some raw => exact ⟨n, raw, rfl, hraw, by simpa [hraw] using h.symm⟩
  · rintro ⟨n, raw, rfl, hraw, rfl⟩
    rw [if_neg (by omega), Int.toNat_natCast, lines, List.getElem?_map, hraw]
    rfl

/-- A position in the text names one of its lines and a character up to its end. -/
theorem Has.exists_rawLine (h : buffer.Has position) :
    ∃ (n character : Nat) (raw : List Char), position = ⟨n, character⟩ ∧ buffer.rawLines[n]? = some raw ∧
      character ≤ (withoutReturns raw).length ∧
      buffer.offsetAt position = lineStart buffer.rawLines n + character := by
  obtain ⟨line, character⟩ := position
  obtain ⟨text, hline, hpos, hle⟩ := h
  obtain ⟨n, raw, rfl, hraw, rfl⟩ := lineAt_eq_ok_iff.mp hline
  obtain ⟨character, rfl⟩ := Int.eq_ofNat_of_zero_le hpos
  have hcharacter : character ≤ (withoutReturns raw).length := Int.ofNat_le.mp hle
  refine ⟨n, character, raw, rfl, hraw, hcharacter, ?_⟩
  rw [offsetAt_eq hraw, Nat.min_eq_left hcharacter, rawLines]

theorem has_of_rawLine {character : Nat} (hraw : buffer.rawLines[n]? = some raw)
    (h : character ≤ (withoutReturns raw).length) : buffer.Has ⟨n, character⟩ :=
  ⟨withoutReturns raw, lineAt_eq_ok_iff.mpr ⟨n, raw, rfl, hraw, rfl⟩, Int.natCast_nonneg _, Int.ofNat_le.mpr h⟩

theorem eq_of_between {m : Nat} {other : List Char} {offset : Nat} (hn : buffer.rawLines[n]? = some raw)
    (hm : buffer.rawLines[m]? = some other) (hstart : lineStart buffer.rawLines n ≤ offset)
    (hstop : offset ≤ lineStart buffer.rawLines n + raw.length)
    (hstart' : lineStart buffer.rawLines m ≤ offset)
    (hstop' : offset ≤ lineStart buffer.rawLines m + other.length) : n = m := by
  rcases Nat.lt_trichotomy n m with hlt | heq | hgt
  · have := lineStart_lt hn hlt (List.getElem?_eq_some_iff.mp hm).1
    omega
  · exact heq
  · have := lineStart_lt hm hgt (List.getElem?_eq_some_iff.mp hn).1
    omega

/-! ### There and back -/

/-- **A position comes back from its offset.** -/
theorem cursorOf_offsetAt (h : buffer.Has position) : buffer.cursorOf (buffer.offsetAt position) = position := by
  obtain ⟨n, character, raw, rfl, hraw, hcharacter, hoffset⟩ := h.exists_rawLine
  obtain ⟨m, other, hother, hstart, hstop, hposition⟩ := buffer.exists_positionAt (buffer.offsetAt ⟨n, character⟩)
  have hlength := buffer.offsetAt_le_length ⟨n, character⟩
  have hstripped := length_withoutReturns_le raw
  rw [clamp_of_le (by exact_mod_cast hlength), Int.toNat_natCast, hoffset] at hstart hstop hposition
  obtain rfl : n = m := eq_of_between hraw hother (by omega) (by omega) hstart hstop
  obtain rfl : raw = other := Option.some_inj.mp (hraw.symm.trans hother)
  rw [cursorOf, hoffset, hposition, Nat.add_sub_cancel_left, Nat.min_eq_left hcharacter]

/-- The position of an offset is in the text, and it stands at the offset or else at the end of the line, in
front of the returns. -/
theorem exists_offsetAt_cursorOf {offset : Nat} (hoffset : offset ≤ buffer.text.length) :
    ∃ n raw, buffer.rawLines[n]? = some raw ∧ lineStart buffer.rawLines n ≤ offset ∧
      offset ≤ lineStart buffer.rawLines n + raw.length ∧ buffer.Has (buffer.cursorOf offset) ∧
      buffer.offsetAt (buffer.cursorOf offset) = lineStart buffer.rawLines n
        + min (offset - lineStart buffer.rawLines n) (withoutReturns raw).length := by
  obtain ⟨n, raw, hraw, hstart, hstop, hposition⟩ := buffer.exists_positionAt offset
  rw [clamp_of_le (by exact_mod_cast hoffset), Int.toNat_natCast] at hstart hstop hposition
  have hcharacter := Nat.min_le_right (offset - lineStart buffer.rawLines n) (withoutReturns raw).length
  refine ⟨n, raw, hraw, hstart, hstop, ?_, ?_⟩
  · rw [cursorOf, hposition]
    exact has_of_rawLine hraw hcharacter
  · rw [cursorOf, hposition, offsetAt_eq hraw, Nat.min_eq_left hcharacter, rawLines]

/-- **An offset has the position of the last cursor up to it.** -/
theorem isGreatest_cursorOf {offset : Nat} (hoffset : offset ≤ buffer.text.length) :
    IsGreatest {cursor | buffer.IsCursor cursor ∧ cursor ≤ offset} (buffer.offsetAt (buffer.cursorOf offset)) := by
  obtain ⟨n, raw, hraw, hstart, hstop, hhas, hcursor⟩ := exists_offsetAt_cursorOf hoffset
  constructor
  · exact ⟨⟨buffer.cursorOf offset, hhas, rfl⟩, by omega⟩
  · rintro cursor ⟨⟨position, hposition, rfl⟩, hle⟩
    obtain ⟨m, character, other, rfl, hother, hin, hat⟩ := hposition.exists_rawLine
    have hstripped := length_withoutReturns_le other
    rw [hcursor]
    rw [hat] at hle ⊢
    rcases Nat.lt_trichotomy m n with hlt | rfl | hgt
    · have := lineStart_lt hother hlt (List.getElem?_eq_some_iff.mp hraw).1
      omega
    · obtain rfl : other = raw := Option.some_inj.mp (hother.symm.trans hraw)
      omega
    · have := lineStart_lt hraw hgt (List.getElem?_eq_some_iff.mp hother).1
      omega

/-! ### Between the returns of a line end -/

theorem behindReturn_of_lt {before raw after : List Char} {offset : Nat} (hafter : HeadNot (· != '\n') after)
    (hlt : before.length + (withoutReturns raw).length < offset) (hle : offset ≤ before.length + raw.length) :
    BehindReturn (before ++ raw ++ after) offset := by
  obtain ⟨returns, hraw, hreturns, -⟩ := exists_trailing (· == '\r') raw
  have hlength : raw.length = (withoutReturns raw).length + returns.length := by
    conv_lhs => rw [hraw]
    rw [List.length_append, withoutReturns]
  obtain ⟨j, hj⟩ := Nat.exists_eq_add_of_lt hlt
  have hin : j < returns.length := by omega
  have hreturn : returns[j] = '\r' := by simpa using hreturns _ (List.getElem_mem hin)
  refine ⟨before ++ withoutReturns raw ++ returns.take j, returns.drop (j + 1), after, ?_, ?_, ?_, hafter⟩
  · conv_lhs => rw [hraw, ← List.take_append_drop j returns, List.drop_eq_getElem_cons hin, hreturn]
    simp [withoutReturns]
  · rw [hj, List.length_append, List.length_append, List.length_take, Nat.min_eq_left hin.le]
  · intro c hc
    simpa using hreturns c (List.mem_of_mem_drop hc)

theorem lt_of_behindReturn {before raw after : List Char} {offset : Nat} (hfeed : '\n' ∉ raw)
    (hbefore : LastNot (· != '\n') before) (hafter : HeadNot (· != '\n') after)
    (hge : before.length ≤ offset) (hle : offset ≤ before.length + raw.length)
    (h : BehindReturn (before ++ raw ++ after) offset) : before.length + (withoutReturns raw).length < offset := by
  obtain ⟨front, returns, rest, htext, rfl, hreturns, hrest⟩ := h
  have hprefix : front ++ ['\r'] <+: before ++ raw ++ after := ⟨returns ++ rest, by simp [htext]⟩
  rw [List.append_assoc] at hprefix htext
  by_cases hshort : before.length ≤ front.length
  · -- The return stands in the line, so the others up to the line feed are the rest of the line.
    obtain ⟨inner, rfl⟩ := List.prefix_of_prefix_length_le ⟨raw ++ after, rfl⟩
      ((List.prefix_append front ['\r']).trans hprefix) hshort
    rw [List.append_assoc, List.append_cancel_left_eq] at htext
    rw [List.append_assoc, List.prefix_append_right_inj] at hprefix
    obtain ⟨tail, rfl⟩ := List.prefix_of_prefix_length_le hprefix ⟨after, rfl⟩ (by simp at hle ⊢; omega)
    have htail : tail ++ after = returns ++ rest := by simpa using htext
    have hrun : ∀ c ∈ tail, (c != '\n') = true := fun c hc => by
      have hne : c ≠ '\n' := fun heq => hfeed (by simp [heq ▸ hc])
      simpa using hne
    have hreturnRun : ∀ c ∈ returns, (c != '\n') = true := fun c hc => by
      rw [hreturns c hc]
      decide
    obtain rfl : tail = returns := by
      rw [← takeWhile_run hrun hafter, htail, takeWhile_run hreturnRun hrest]
    have hstripped : withoutReturns (inner ++ ['\r'] ++ tail) = withoutReturns inner := by
      rw [List.append_assoc]
      refine dropTrailing_append fun c hc => ?_
      rcases List.mem_cons.mp hc with rfl | hc
      · rfl
      · simpa using hreturns c hc
    have := length_withoutReturns_le inner
    rw [hstripped, List.length_append]
    omega
  · -- The line starts behind the return, where only a line feed could stand.
    have hlength : (front ++ ['\r']).length = before.length := by
      rw [List.length_append, List.length_singleton]
      omega
    obtain rfl : front ++ ['\r'] = before :=
      (List.prefix_of_prefix_length_le hprefix ⟨raw ++ after, rfl⟩ hlength.le).eq_of_length hlength
    exact absurd (hbefore '\r' (by simp)) (by decide)

/-- **Where an offset is lost.** The position of an offset has that very offset, unless it is behind a return at
the end of its line. -/
theorem offsetAt_cursorOf_eq_iff {offset : Nat} (hoffset : offset ≤ buffer.text.length) :
    buffer.offsetAt (buffer.cursorOf offset) = offset ↔ ¬ BehindReturn buffer.text offset := by
  obtain ⟨n, raw, hraw, hstart, hstop, -, hcursor⟩ := exists_offsetAt_cursorOf hoffset
  obtain ⟨before, after, htext, hplace, -, hfeed, hbefore, hafter⟩ := exists_place_between hraw
  rw [rawLines, hplace] at hstart hstop hcursor
  have hbehind : BehindReturn buffer.text offset ↔ before.length + (withoutReturns raw).length < offset := by
    rw [htext]
    exact ⟨lt_of_behindReturn hfeed hbefore hafter hstart hstop, fun hlt => behindReturn_of_lt hafter hlt hstop⟩
  rw [hbehind, hcursor]
  omega

/-! ### Order -/

/-- **A later offset has no earlier position.** -/
theorem positionAt_mono {a b : Int} (hab : a ≤ b) : toLex (buffer.positionAt a) ≤ toLex (buffer.positionAt b) := by
  obtain ⟨n, raw, hraw, hstart, hstop, hposition⟩ := buffer.exists_positionAt a
  obtain ⟨m, other, hother, hstart', hstop', hposition'⟩ := buffer.exists_positionAt b
  have hclamp : clamp a buffer.text.length ≤ clamp b buffer.text.length := by
    simp only [clamp]
    omega
  rw [hposition, hposition', Prod.Lex.toLex_le_toLex]
  rcases Nat.lt_trichotomy n m with hlt | rfl | hgt
  · exact Or.inl hlt
  · obtain rfl : raw = other := Option.some_inj.mp (hraw.symm.trans hother)
    exact Or.inr ⟨rfl, by simp only; omega⟩
  · have := lineStart_lt hother hgt (List.getElem?_eq_some_iff.mp hraw).1
    omega

/-- **A later position has no smaller offset**, where a line outside the text counts as the nearest one. -/
theorem offsetAt_mono {p q : Position}
    (h : toLex (clamp p.line (buffer.lineCount - 1), p.character)
      ≤ toLex (clamp q.line (buffer.lineCount - 1), q.character)) : buffer.offsetAt p ≤ buffer.offsetAt q := by
  obtain ⟨raw, hraw, hp⟩ := buffer.exists_offsetAt p.line
  obtain ⟨other, hother, hq⟩ := buffer.exists_offsetAt q.line
  have hcolumn : clamp p.character (withoutReturns raw).length ≤ (withoutReturns raw).length := Nat.min_le_right ..
  have hstripped := length_withoutReturns_le raw
  rw [hp p.character, hq q.character]
  rcases Prod.Lex.toLex_le_toLex.mp h with hlt | ⟨heq, hle⟩
  · have hbehind : lineStart buffer.rawLines (clamp p.line (buffer.lineCount - 1)) + raw.length
        < lineStart buffer.rawLines (clamp q.line (buffer.lineCount - 1)) :=
      lineStart_lt hraw hlt (List.getElem?_eq_some_iff.mp hother).1
    omega
  · simp only at heq hle
    rw [heq] at hraw ⊢
    obtain rfl : raw = other := Option.some_inj.mp (hraw.symm.trans hother)
    have : clamp p.character (withoutReturns raw).length ≤ clamp q.character (withoutReturns raw).length := by
      simp only [clamp]
      omega
    omega

theorem clean_of_lineAt {line : Int} {text : List Char} (h : buffer.lineAt line = .ok text) :
    '\n' ∉ text ∧ text.getLast? ≠ some '\r' := by
  obtain ⟨n, raw, rfl, hraw, rfl⟩ := lineAt_eq_ok_iff.mp h
  obtain ⟨returns, hsplit, -, hlast⟩ := exists_trailing (· == '\r') raw
  obtain ⟨-, -, -, -, -, hfeed⟩ := exists_place hraw
  constructor
  · exact fun hmem => hfeed (by rw [hsplit]; exact List.mem_append_left _ hmem)
  · intro hreturn
    simpa using hlast '\r' hreturn

/-! ### Both conversions -/

/-- How the offsets and the positions of a buffer belong together. -/
structure ConvertsWithoutDrift (buffer : Buffer) : Prop where
  /-- A position in the text comes back from its offset. -/
  position : ∀ position, buffer.Has position → buffer.cursorOf (buffer.offsetAt position) = position
  /-- The position of an offset is that of the last cursor which is not behind the offset. -/
  greatest : ∀ offset ≤ buffer.text.length,
    IsGreatest {cursor | buffer.IsCursor cursor ∧ cursor ≤ offset} (buffer.offsetAt (buffer.cursorOf offset))
  /-- So an offset comes back from its position, unless it is behind a return that ends its line. -/
  offset : ∀ offset ≤ buffer.text.length,
    buffer.offsetAt (buffer.cursorOf offset) = offset ↔ ¬ BehindReturn buffer.text offset
  /-- Later offsets, also those outside the text, have no earlier positions. -/
  positions_ordered : ∀ a b : Int, a ≤ b → toLex (buffer.positionAt a) ≤ toLex (buffer.positionAt b)
  /-- Later positions have no smaller offsets. Lines outside the text count as the nearest ones. -/
  offsets_ordered : ∀ p q : Position,
    toLex (clamp p.line (buffer.lineCount - 1), p.character)
      ≤ toLex (clamp q.line (buffer.lineCount - 1), q.character) → buffer.offsetAt p ≤ buffer.offsetAt q
  /-- Lines hold neither a line feed nor a return at their end. -/
  lines_clean : ∀ line text, buffer.lineAt line = .ok text → '\n' ∉ text ∧ text.getLast? ≠ some '\r'

/-- **Offsets and positions.** Every text, with any mixture of line feeds and carriage returns, converts between
them without drift. -/
theorem convertsWithoutDrift (buffer : Buffer) : buffer.ConvertsWithoutDrift where
  position _ h := cursorOf_offsetAt h
  greatest _ h := isGreatest_cursorOf h
  offset _ h := offsetAt_cursorOf_eq_iff h
  positions_ordered _ _ h := positionAt_mono h
  offsets_ordered _ _ h := offsetAt_mono h
  lines_clean _ _ h := clean_of_lineAt h

/-- Two things that might be expected and do not hold. A return at the very end of a text is no place for a
cursor either, so the offset behind it is lost although neither a return nor a line feed follows. And a
character counts also where the line lies before the text and is moved into it. -/
theorem last_return_and_line_before_text :
    let buffer : Buffer := { text := ['a', '\r'] }
    2 ≤ buffer.text.length ∧ ¬ (buffer.text[2]? = some '\r' ∨ buffer.text[2]? = some '\n') ∧
      buffer.positionAt 2 = (0, 1) ∧ buffer.offsetAt (buffer.cursorOf 2) = 1 ∧
      buffer.offsetAt ⟨0, 0⟩ < buffer.offsetAt ⟨-1, 1⟩ := by
  decide

end Buffer

end ManifestLens
