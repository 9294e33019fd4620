import ManifestLens.Console.Screen
import ManifestLens.Proofs.Console.Markup
import ManifestLens.Proofs.Text.Trim
import ManifestLens.Proofs.Text.Lines
import Mathlib.Data.List.Forall2

/-!
# Messages on the screen

A line of text that is wider than the terminal is cut into parts, and each part is shown on a line of its own. The
parts together are the line, so nothing gets lost between them, and only at the end of a part that is too wide blanks
may be left out. The terminal has room for a wide character, or such a character would be cut through.

A message is read as markup before. So it is shown whole just if nothing in it means anything else; the mark before it
makes no difference.
-/

namespace ManifestLens

/-! ### Cells -/

namespace Cells

variable {width : Nat} {text piece first second : List Char}

theorem count_cons (c : Char) (text : List Char) : count (c :: text) = ofChar c + count text := by
  rw [count, count, ← List.sum_eq_foldl, ← List.sum_eq_foldl, List.map_cons, List.sum_cons]

@[simp]
theorem count_singleton (c : Char) : count [c] = ofChar c := by simp [count]

theorem count_append (first second : List Char) : count (first ++ second) = count first + count second := by
  induction first with
  | nil => simp [count]
  | cons c first ih => rw [List.cons_append, count_cons, count_cons, ih, Nat.add_assoc]

theorem ofChar_le_two (c : Char) : ofChar c ≤ 2 := by
  unfold ofChar
  simp only
  split_ifs <;> omega

theorem chop_spec (hwidth : 2 ≤ width) (hpiece : count piece ≤ width) (hcount : 0 < count (piece ++ text)) :
    (chop width piece text).flatten = piece ++ text ∧ (∀ part ∈ chop width piece text, count part ≤ width) ∧
      chop width piece text ≠ [] := by
  induction text generalizing piece with
  | nil =>
      rw [List.append_nil] at hcount
      rw [chop, if_neg (by omega)]
      simpa using hpiece
  | cons c rest ih =>
      rw [chop]
      split
      · next hover =>
        have hc := ofChar_le_two c
        have hone : count [c] ≤ width := by
          rw [count_singleton]
          omega
        have hpositive : 0 < count ([c] ++ rest) := by
          rw [count_append, count_singleton]
          omega
        obtain ⟨hflatten, hfits, -⟩ := ih hone hpositive
        refine ⟨by simp [hflatten], ?_, by simp⟩
        exact List.forall_mem_cons.mpr ⟨hpiece, hfits⟩
      · next hroom =>
        have hone : count (piece ++ [c]) ≤ width := by
          rw [count_append, count_singleton]
          omega
        obtain ⟨hflatten, hfits, hne⟩ := ih hone (by rwa [List.append_assoc, List.singleton_append])
        exact ⟨by rw [hflatten, List.append_assoc, List.singleton_append], hfits, hne⟩

theorem isBlankRun_blanks (n : Nat) : Text.IsBlankRun (blanks n) := by
  intro c hc
  rw [List.eq_of_mem_replicate hc]
  decide

theorem isBlankRun_fit (h : Text.IsBlankRun text) (n : Nat) : Text.IsBlankRun (fit n text) := by
  fun_induction fit n text with
  | case1 cells => exact isBlankRun_blanks cells
  | case2 cells c rest hroom ih =>
      obtain ⟨hc, hrest⟩ := List.forall_mem_cons.mp h
      exact List.forall_mem_cons.mpr ⟨hc, ih hrest⟩
  | case3 cells => exact isBlankRun_blanks cells

theorem fit_append (h : count first ≤ width) (second : List Char) :
    fit width (first ++ second) = first ++ fit (width - count first) second := by
  induction first generalizing width with
  | nil => rfl
  | cons c first ih =>
      rw [count_cons] at h
      rw [List.cons_append, fit, if_pos (by omega), ih (by omega), count_cons, Nat.sub_sub]
      rfl

end Cells

/-! ### Blanks at the end -/

namespace Text

variable {text run first second : List Char}

theorem exists_blankEnd (text : List Char) : ∃ run, text = trimRight text ++ run ∧ IsBlankRun run := by
  obtain ⟨run, htext, hrun, -⟩ := exists_trailing isBlank text
  exact ⟨run, htext, hrun⟩

theorem trimRight_append (h : IsBlankRun run) (text : List Char) : trimRight (text ++ run) = trimRight text :=
  dropTrailing_append h

@[simp]
theorem trimRight_trimRight (text : List Char) : trimRight (trimRight text) = trimRight text := by
  obtain ⟨-, -, -, hlast⟩ := exists_trailing isBlank text
  exact dropTrailing_of_lastNot hlast

theorem count_trimRight_le (text : List Char) : Cells.count (trimRight text) ≤ Cells.count text := by
  obtain ⟨run, htext, -⟩ := exists_blankEnd text
  have hcount := congrArg Cells.count htext
  rw [Cells.count_append] at hcount
  omega

theorem count_trimRight_append_le (first second : List Char) :
    Cells.count (trimRight (first ++ second)) ≤ Cells.count first + Cells.count (trimRight second) := by
  obtain ⟨run, hsecond, hrun⟩ := exists_blankEnd second
  calc Cells.count (trimRight (first ++ second))
      = Cells.count (trimRight (first ++ trimRight second)) := by
        rw [← trimRight_append hrun (first ++ trimRight second), List.append_assoc, ← hsecond]
    _ ≤ Cells.count (first ++ trimRight second) := count_trimRight_le _
    _ = Cells.count first + Cells.count (trimRight second) := Cells.count_append ..

end Text

/-! ### Lines -/

namespace Layout

open Cells (count)

variable {width : Nat} {line part shown : List Char} {parts : List (List Char)}

theorem eq_nil_of_isBlankRun (hhead : Text.HeadNot Text.isBlank line) (h : Text.IsBlankRun line) : line = [] := by
  cases line with
  | nil => rfl
  | cons c rest => exact absurd (h c List.mem_cons_self) (by simp [Text.headNot_cons.mp hhead])

theorem flatten_words {fuel : Nat} (hfuel : line.length ≤ fuel) :
    (words fuel line).flatten = line ∨ Text.IsBlankRun line ∧ words fuel line = [] := by
  induction fuel generalizing line with
  | zero =>
      obtain rfl := List.eq_nil_of_length_eq_zero (Nat.le_zero.mp hfuel)
      exact .inr ⟨Text.isBlankRun_nil, rfl⟩
  | succ fuel ih =>
      obtain ⟨before, rest, rfl, hbefore, hrest, -, -⟩ := Text.exists_run Text.isBlank line
      obtain ⟨body, rest, rfl, hbody, hafter, -, -⟩ := Text.exists_run (!Text.isBlank ·) rest
      obtain ⟨after, rest, rfl, hrun, hnext, -, -⟩ := Text.exists_run Text.isBlank rest
      simp only [words, List.span_eq_takeWhile_dropWhile, Text.takeWhile_run hbefore hrest,
        Text.dropWhile_run hbefore hrest, Text.takeWhile_run hbody hafter, Text.dropWhile_run hbody hafter,
        Text.takeWhile_run hrun hnext, Text.dropWhile_run hrun hnext]
      cases body with
      | nil =>
          have hblank : after ++ rest = [] := by
            cases hshape : after ++ rest with
            | nil => rfl
            | cons c more =>
                rw [hshape] at hrest hafter
                have hc := Text.headNot_cons.mp hafter
                simp [Text.headNot_cons.mp hrest] at hc
          refine .inr ⟨?_, rfl⟩
          rwa [List.nil_append, hblank, List.append_nil]
      | cons c body =>
          have hlength : rest.length ≤ fuel := by
            simp only [List.length_append, List.length_cons] at hfuel
            omega
          have hwords : (words fuel rest).flatten = rest := by
            rcases ih hlength with hflatten | ⟨hblank, hnil⟩
            · exact hflatten
            · rw [hnil, eq_nil_of_isBlankRun hnext hblank]
              rfl
          refine .inl ?_
          simp [hwords]

/-- A part of a line that has room as soon as the blanks at its end are left out. -/
def HasRoom (width : Nat) (part : List Char) : Prop := count (Text.trimRight part) ≤ width

theorem hasRoom_of_count_le (h : count part ≤ width) : HasRoom width part := (Text.count_trimRight_le part).trans h

theorem flatten_finished (line : List Char) : (finished line).flatten = line := by
  unfold finished
  split
  · next hempty =>
    rw [List.isEmpty_iff.mp hempty]
    rfl
  · simp

theorem forall_finished (h : HasRoom width line) : ∀ part ∈ finished line, HasRoom width part := by
  unfold finished
  split
  · simp
  · simpa using h

theorem fill_spec (hwidth : 2 ≤ width) (parts : List (List Char)) (hline : HasRoom width line) :
    (fill width .fold line parts).flatten = line ++ parts.flatten ∧
      ∀ part ∈ fill width .fold line parts, HasRoom width part := by
  induction parts generalizing line with
  | nil =>
      rw [fill, flatten_finished, List.flatten_nil, List.append_nil]
      exact ⟨rfl, forall_finished hline⟩
  | cons word rest ih =>
      rw [fill]
      simp only
      split_ifs with hroom hlong
      · have hnext : HasRoom width (line ++ word) := (Text.count_trimRight_append_le line word).trans hroom
        obtain ⟨hflatten, hfits⟩ := ih hnext
        exact ⟨by rw [hflatten, List.flatten_cons, List.append_assoc], hfits⟩
      · -- The word is cut, and its last piece begins the next line.
        have hless : width < count word := by
          have hsize : width < count (Text.trimRight word) := by simpa using hlong
          exact hsize.trans_le (Text.count_trimRight_le word)
        have hpositive : 0 < count ([] ++ word) := (Nat.zero_le width).trans_lt hless
        obtain ⟨hpieces, hshort, hne⟩ := Cells.chop_spec hwidth (by simp [count]) hpositive
        obtain ⟨front, last, hchop⟩ := (List.eq_nil_or_concat' _).resolve_left hne
        rw [hchop] at hpieces hshort ⊢
        rw [List.dropLast_concat, List.getLast?_concat, Option.getD_some]
        have hlast : HasRoom width last := hasRoom_of_count_le (hshort last (by simp))
        obtain ⟨hflatten, hfits⟩ := ih hlast
        constructor
        · rw [List.nil_append, List.flatten_concat] at hpieces
          rw [List.flatten_append, List.flatten_append, flatten_finished, hflatten, List.flatten_cons, ← hpieces]
          simp only [List.append_assoc]
        · intro part hpart
          simp only [List.mem_append] at hpart
          rcases hpart with (hpart | hpart) | hpart
          · exact forall_finished hline part hpart
          · exact hasRoom_of_count_le (hshort part (by simp [hpart]))
          · exact hfits part hpart
      · have hword : HasRoom width word := by
          simpa [HasRoom] using hlong
        obtain ⟨hflatten, hfits⟩ := ih hword
        constructor
        · rw [List.flatten_append, flatten_finished, hflatten, List.flatten_cons]
        · intro part hpart
          exact (List.mem_append.mp hpart).elim (forall_finished hline part) (hfits part)

theorem breakLine_spec (hwidth : 2 ≤ width) (line : List Char) :
    (breakLine width .fold line).flatten = line ∧ ∀ part ∈ breakLine width .fold line, HasRoom width part := by
  unfold breakLine
  split
  · next hwords =>
    have hblank : Text.IsBlankRun line := by
      rcases flatten_words (le_refl line.length) with hflatten | ⟨hblank, -⟩
      · rw [hwords, List.flatten_nil] at hflatten
        rw [← hflatten]
        exact Text.isBlankRun_nil
      · exact hblank
    have hroom : HasRoom width line := by
      have htrim : Text.trimRight line = [] := Text.trimRight_append hblank []
      simp [HasRoom, htrim, count]
    exact ⟨by simp, by simpa using hroom⟩
  · next hwords =>
    have hnone : HasRoom width [] := hasRoom_of_count_le (Nat.zero_le width)
    obtain ⟨hflatten, hfits⟩ := fill_spec hwidth (words line.length line) hnone
    rcases flatten_words (le_refl line.length) with hline | ⟨-, hnil⟩
    · exact ⟨by rw [hflatten, hline, List.nil_append], hfits⟩
    · exact absurd hnil hwords

theorem exists_take {n : Nat} (h : (Text.trimRight part).length ≤ n) :
    ∃ run, Text.IsBlankRun run ∧ part.take n = Text.trimRight part ++ run := by
  obtain ⟨run, hpart, hrun⟩ := Text.exists_blankEnd part
  refine ⟨run.take (n - (Text.trimRight part).length), fun c hc => hrun c (List.mem_of_mem_take hc), ?_⟩
  calc part.take n = (Text.trimRight part ++ run).take n := by rw [← hpart]
    _ = Text.trimRight part ++ run.take (n - (Text.trimRight part).length) := by
      rw [List.take_append, List.take_of_length_le h]

/-- Only blanks stick out, and only of a part that is too long. -/
theorem exists_trimOverhang (width : Nat) (part : List Char) : ∃ run, Text.IsBlankRun run ∧
    trimOverhang width part = Text.trimRight part ++ run := by
  obtain ⟨run, hpart, -⟩ := Text.exists_blankEnd part
  have hlength := congrArg List.length hpart
  rw [List.length_append] at hlength
  exact exists_take (by omega)

theorem trimOverhang_of_length_le (h : part.length ≤ width) : trimOverhang width part = part := by
  rw [trimOverhang, List.take_of_length_le (by omega)]

/-- What is shown of a part: all of it, apart from blanks at the end of one that is too wide. -/
def Shows (width : Nat) (part shown : List Char) : Prop :=
  shown = part ∨ width < max part.length (count part) ∧ Text.trimRight shown = Text.trimRight part

theorem shows_shorten (h : HasRoom width part) :
    Shows width part (shorten width .fold (trimOverhang width part)) := by
  obtain ⟨run, hrun, htrim⟩ := exists_trimOverhang width part
  by_cases hwide : width < max part.length (count part)
  · refine .inr ⟨hwide, ?_⟩
    rw [htrim, shorten]
    split
    · rw [Text.trimRight_append hrun, Text.trimRight_trimRight]
    · rw [Cells.fit_append h, Text.trimRight_append (Cells.isBlankRun_fit hrun _), Text.trimRight_trimRight]
  · obtain ⟨hlength, hcount⟩ := Nat.max_le.mp (Nat.not_lt.mp hwide)
    rw [trimOverhang_of_length_le hlength, shorten, if_pos hcount]
    exact .inl rfl

/-- A line as it is shown: in parts, one after another. -/
def IsWrapped (width : Nat) (line : List Char) (shown : List (List Char)) : Prop :=
  ∃ parts : List (List Char), parts.flatten = line ∧ List.Forall₂ (Shows width) parts shown

def widened (line : List Char) : List Char := if line.contains '\t' then expandTabs 0 line else line

/-- A text as it is shown, line by line. -/
def IsLaidOut (width : Nat) (text : List Char) (shown : List (List Char)) : Prop :=
  ∃ wrapped : List (List (List Char)), wrapped.flatten = shown ∧
    List.Forall₂ (fun line shown => IsWrapped width (widened line) shown) (Text.splitOn '\n' text) wrapped

theorem isWrapped_breakLine (hwidth : 2 ≤ width) (line : List Char) : IsWrapped width line
    (((breakLine width .fold line).map (trimOverhang width)).map (shorten width .fold)) := by
  obtain ⟨hflatten, hfits⟩ := breakLine_spec hwidth line
  refine ⟨breakLine width .fold line, hflatten, ?_⟩
  rw [List.map_map, List.forall₂_map_right_iff, List.forall₂_same]
  exact fun part hpart => shows_shorten (hfits part hpart)

/-- **Wrapping loses nothing** but blanks at the end of what is too wide. -/
theorem isLaidOut_lines (hwidth : 2 ≤ width) (text : List Char) :
    IsLaidOut width text (({} : Layout).lines width text) := by
  refine ⟨_, (List.flatMap_def ..).symm, ?_⟩
  rw [List.forall₂_map_right_iff, List.forall₂_same]
  intro line _
  have hshown (parts : List (List Char)) (last : Nat → Bool) : (parts.mapIdx fun index part =>
      shorten width .fold (({} : Layout).align width (last index) part)) = parts.map (shorten width .fold) :=
    List.ext_getElem (by simp) fun index _ _ => by simp [align]
  simpa [widened, hshown] using isWrapped_breakLine hwidth (widened line)

end Layout

/-! ### Marks -/

namespace Markup

variable {pictures : List (String × String)} {c : Char} {front rest text : List Char}

theorem slashedTagAt?_of_ne (hopen : c ≠ '[') (hslash : c ≠ '\\') : slashedTagAt? (c :: rest) = none := by
  have htag : tagAt? (c :: rest) = none := by
    unfold tagAt?
    split
    · next heq => exact absurd (List.cons.inj heq).1 hopen
    · rfl
  simp [slashedTagAt?, hslash, htag]

theorem isUnmarked_append (hopen : '[' ∉ front) (hslash : '\\' ∉ front) :
    IsUnmarked (front ++ text) ↔ IsUnmarked text := by
  induction front with
  | nil => rfl
  | cons c front ih =>
      obtain ⟨hc, hopen⟩ := List.ne_and_not_mem_of_not_mem_cons hopen
      obtain ⟨hc', hslash⟩ := List.ne_and_not_mem_of_not_mem_cons hslash
      rw [List.cons_append, ← ih hopen hslash]
      exact isUnmarked_cons (slashedTagAt?_of_ne hc.symm hc'.symm) fun h => hc' h.1.symm

/-- A mark in brackets that begins like no tag means only itself, whatever follows. -/
structure IsMark (mark : List Char) : Prop where
  bracket : ∃ c rest, mark = '[' :: c :: rest ∧ startsTag c = false ∧ '[' ∉ c :: rest ∧ '\\' ∉ c :: rest
  colon : ':' ∉ mark
  controls : ∀ c ∈ mark, isControl c = false

theorem isLiteral_append (h : IsMark front) : IsLiteral pictures (front ++ text) ↔ IsLiteral pictures text := by
  have hunmarked : IsUnmarked (front ++ text) ↔ IsUnmarked text := by
    obtain ⟨c, rest, rfl, hstart, hopen, hslash⟩ := h.bracket
    have hbracket : IsUnmarked ('[' :: c :: rest ++ text) ↔ IsUnmarked (c :: rest ++ text) :=
      isUnmarked_cons (by simp [slashedTagAt?, tagAt?, hstart]) (by simp)
    rw [hbracket, isUnmarked_append hopen hslash]
  have hdrawn : drawn pictures (front ++ text).length (front ++ text) = front ++ text ↔
      drawn pictures text.length text = text := by
    rw [List.length_append, drawn_append h.colon, List.append_cancel_left_eq]
  constructor
  · intro hliteral
    exact ⟨hunmarked.mp hliteral.toIsUnmarked, hdrawn.mp hliteral.pictures, fun c hc =>
      hliteral.controls c (List.mem_append_right front hc)⟩
  · intro hliteral
    refine ⟨hunmarked.mpr hliteral.toIsUnmarked, hdrawn.mpr hliteral.pictures, fun c hc => ?_⟩
    exact (List.mem_append.mp hc).elim (h.controls c) (hliteral.controls c)

end Markup

namespace Screen

variable {screen later : Screen} {kind : MessageKind}

/-- What comes of printing a text. -/
structure Prints (screen : Screen) (text : List Char) (outcome : Except MarkupFault Screen) : Prop where
  /-- A text in which nothing means anything else is shown. -/
  literal : Markup.IsLiteral screen.pictures text →
    ∃ lines, outcome = .ok (screen.putLines lines) ∧ Layout.IsLaidOut screen.width text lines
  /-- In place of any other text another one is shown, which is not longer, if anything is. -/
  replaced : ¬Markup.IsLiteral screen.pictures text → ∀ later, outcome = .ok later →
    ∃ other lines, other ≠ text ∧ other.length ≤ text.length ∧ later = screen.putLines lines ∧
      Layout.IsLaidOut screen.width other lines
  /-- Only a tag that closes can keep a text from being shown. -/
  shown : (∀ tag, Markup.IsTag tag → Markup.bracketed tag <:+: text → tag.head? ≠ some '/') →
    ∃ later, outcome = .ok later

theorem print_eq_ok_iff {markup : String} : screen.print markup = .ok later ↔
    ∃ text, Markup.plain screen.pictures markup.toList = .ok text ∧
      later = screen.putLines (({} : Layout).lines screen.width text) := by
  simp only [print, laidOut, map_eq_ok_iff]
  constructor
  · rintro ⟨lines, ⟨text, htext, rfl⟩, rfl⟩
    exact ⟨text, htext, rfl⟩
  · rintro ⟨text, htext, rfl⟩
    exact ⟨_, ⟨text, htext, rfl⟩, rfl⟩

/-- **Printing a text with markup.** -/
theorem prints_print (markup : String) (hwidth : 2 ≤ screen.width) (hshort : Markup.AreShort screen.pictures) :
    screen.Prints markup.toList (screen.print markup) where
  literal hliteral := by
    refine ⟨_, ?_, Layout.isLaidOut_lines hwidth markup.toList⟩
    exact print_eq_ok_iff.mpr ⟨_, hliteral.plain, rfl⟩
  replaced hmarked later hlater := by
    obtain ⟨text, htext, rfl⟩ := print_eq_ok_iff.mp hlater
    have hlength : text.length ≤ markup.toList.length := by
      have hpieces := Markup.size_pieces_le markup.toList.length [] markup.toList
      rw [List.length_nil, Nat.zero_add] at hpieces
      exact (Markup.length_plain_le hshort htext).trans hpieces
    refine ⟨text, _, ?_, hlength, rfl, Layout.isLaidOut_lines hwidth text⟩
    rintro rfl
    exact hmarked ((Markup.plain_eq_ok_self_iff hshort).mp htext)
  shown htags := by
    obtain ⟨text, htext⟩ := Markup.exists_plain htags
    exact ⟨_, print_eq_ok_iff.mpr ⟨text, htext, rfl⟩⟩

theorem isMark_mark (kind : MessageKind) : Markup.IsMark (kind.mark ++ " ").toList := by
  cases kind with
  | success => exact ⟨⟨'O', "K] ".toList, by decide⟩, by decide, by decide⟩
  | error => exact ⟨⟨'E', "RROR] ".toList, by decide⟩, by decide, by decide⟩
  | warning => exact ⟨⟨'W', "ARNING] ".toList, by decide⟩, by decide, by decide⟩

/-- The text of a question, with what may be answered. -/
def promptOf (question : String) (default : Bool) : String := question ++ if default then " [Y/n]: " else " [y/N]: "

theorem exists_confirm_of_laidOut {question : String} {default : Bool} {lines : List (List Char)}
    (h : screen.laidOut (Markup.escape (promptOf question default).toList) = .ok lines) :
    ∃ answer later, screen.confirm question default = .ok (answer, later) ∧
      screen.shown ++ Text.joinWith ['\n'] lines <+: later.shown := by
  rw [promptOf] at h
  rw [confirm, h]
  cases htyped : screen.typed.isEmpty with
  | true => exact ⟨_, _, rfl, List.prefix_append ..⟩
  | false => exact ⟨_, _, rfl, List.prefix_rfl⟩

/-- A question is escaped first, so that its tags are shown. -/
theorem exists_confirm (question : String) (default : Bool) (hwidth : 2 ≤ screen.width)
    (h : Markup.HasOnlyTags screen.pictures (promptOf question default).toList) :
    ∃ lines answer later, screen.confirm question default = .ok (answer, later) ∧
      Layout.IsLaidOut screen.width (promptOf question default).toList lines ∧
      screen.shown ++ Text.joinWith ['\n'] lines <+: later.shown := by
  have hlaid : screen.laidOut (Markup.escape (promptOf question default).toList) =
      .ok (({} : Layout).lines screen.width (promptOf question default).toList) := by
    rw [laidOut, Markup.plain_escape h]
    rfl
  obtain ⟨answer, later, hconfirm, hshown⟩ := exists_confirm_of_laidOut hlaid
  exact ⟨_, answer, later, hconfirm, Layout.isLaidOut_lines hwidth _, hshown⟩

end Screen

end ManifestLens
