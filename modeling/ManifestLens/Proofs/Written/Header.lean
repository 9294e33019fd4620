import ManifestLens.Proofs.Manifest.ArrayKey

/-!
# Written keys and headers

A key and the name of a table are bare pieces with dots between them and blanks around them. They hold
neither brackets nor quotes, so the key reader takes off just what was written, and what stands between the
brackets of a header is the name.
-/

namespace ManifestLens

open Text

/-! ### The end of a line -/

/-- What stands behind the code of a line: blanks, and maybe a comment. -/
structure LineEnd where
  blanks : List Char
  comment : Option (List Char)
  blanks_blank : IsBlankRun blanks

namespace LineEnd

def commentText (lineEnd : LineEnd) : List Char := (lineEnd.comment.map ('#' :: ·)).getD []

def text (lineEnd : LineEnd) : List Char := lineEnd.blanks ++ lineEnd.commentText

/-- Nothing stands behind the code. -/
def plain : LineEnd := ⟨[], none, isBlankRun_nil⟩

theorem commentText_cases (lineEnd : LineEnd) :
    lineEnd.commentText = [] ∨ ∃ rest, lineEnd.commentText = '#' :: rest := by
  cases h : lineEnd.comment with
  | none => exact Or.inl (by simp [commentText, h])
  | some comment => exact Or.inr ⟨comment, by simp [commentText, h]⟩

theorem codePart_text (lineEnd : LineEnd) {code : List Char} (h : IsCode code) :
    codePart (code ++ lineEnd.text) = code ++ lineEnd.blanks := by
  rw [text, ← List.append_assoc]
  exact (h.append (IsCode.of_isBlankRun lineEnd.blanks_blank)).codePart_append lineEnd.commentText_cases

end LineEnd

/-! ### Dotted names -/

/-- A bare piece of a name with the blanks around it. -/
structure BarePart where
  lead : List Char
  name : List Char
  trail : List Char
  lead_blank : IsBlankRun lead
  name_ne_nil : name ≠ []
  name_bare : ∀ c ∈ name, isBareKeyChar c = true
  trail_blank : IsBlankRun trail

def BarePart.text (part : BarePart) : List Char := part.lead ++ part.name ++ part.trail

/-- A name of one piece or more. -/
inductive DottedName where
  | bare (part : BarePart)
  | dotted (part : BarePart) (rest : DottedName)

namespace DottedName

def parts : DottedName → List BarePart
  | bare part => [part]
  | dotted part rest => part :: rest.parts

def text : DottedName → List Char
  | bare part => part.text
  | dotted part rest => part.text ++ '.' :: rest.text

/-- The name that the pieces make up. -/
def name (written : DottedName) : List Char := joinWith ['.'] (written.parts.map BarePart.name)

end DottedName

theorem BarePart.mem_text {part : BarePart} {c : Char} (h : c ∈ part.text) :
    isBareKeyChar c = true ∨ isBlank c = true := by
  simp only [text, List.mem_append] at h
  rcases h with (h | h) | h
  · exact Or.inr (part.lead_blank c h)
  · exact Or.inl (part.name_bare c h)
  · exact Or.inr (part.trail_blank c h)

theorem BarePart.isTrimmed_name (part : BarePart) : IsTrimmed part.name where
  head := fun c hc => (isQuote_of_isBareKeyChar (part.name_bare c (List.mem_of_head? hc))).2.1
  last := fun c hc => (isQuote_of_isBareKeyChar (part.name_bare c (List.mem_of_getLast? hc))).2.1

theorem BarePart.unquoted_text (part : BarePart) : dropAround isQuote (trim part.text) = part.name := by
  have hhead : HeadNot isQuote part.name := fun c hc =>
    (isQuote_of_isBareKeyChar (part.name_bare c (List.mem_of_head? hc))).1
  have hlast : LastNot isQuote part.name := fun c hc =>
    (isQuote_of_isBareKeyChar (part.name_bare c (List.mem_of_getLast? hc))).1
  have hdrop : part.name.dropWhile isQuote = part.name := by
    simpa using @dropWhile_run isQuote [] part.name (by simp) hhead
  rw [text, trim_margins part.lead_blank part.isTrimmed_name part.trail_blank, dropAround, dropLeading,
    hdrop, dropTrailing_of_lastNot hlast]

/-- A piece starts with a character that is neither blank nor a bracket. -/
theorem BarePart.exists_head (part : BarePart) : ∃ c rest, part.text = part.lead ++ c :: rest ∧
    isBareKeyChar c = true ∧ isBlank c = false ∧ c ≠ '[' := by
  obtain ⟨c, rest, hname⟩ := List.exists_cons_of_ne_nil part.name_ne_nil
  have hbare := part.name_bare c (by simp [hname])
  obtain ⟨-, hblank, -, hbracket, -⟩ := isQuote_of_isBareKeyChar hbare
  exact ⟨c, rest ++ part.trail, by simp [BarePart.text, hname], hbare, hblank, hbracket⟩

namespace DottedName

variable {written : DottedName}

theorem mem_text {c : Char} (h : c ∈ written.text) :
    isBareKeyChar c = true ∨ isBlank c = true ∨ c = '.' := by
  induction written with
  | bare part => exact (part.mem_text h).imp_right Or.inl
  | dotted part rest ih =>
      simp only [text, List.mem_append, List.mem_cons] at h
      rcases h with h | h | h
      · exact (part.mem_text h).imp_right Or.inl
      · exact Or.inr (Or.inr h)
      · exact ih h

theorem notMem_text {c : Char} (hbare : isBareKeyChar c = false) (hblank : isBlank c = false)
    (hdot : c ≠ '.') : c ∉ written.text := by
  intro hmem
  rcases mem_text hmem with h | h | h
  · rw [hbare] at h
    cases h
  · rw [hblank] at h
    cases h
  · exact hdot h

theorem isPlain_text : IsPlain written.text := by
  intro c hc
  rcases mem_text hc with h | h | rfl
  · obtain ⟨hquote, -, hhash, -⟩ := isQuote_of_isBareKeyChar h
    exact ⟨hquote, hhash⟩
  · exact ⟨(ne_equals_of_isBlank h).1, ne_hash_of_isBlank h⟩
  · decide

/-- A name starts with a character that is neither blank nor a bracket. -/
theorem exists_head (written : DottedName) : ∃ run c rest, written.text = run ++ c :: rest ∧
    IsBlankRun run ∧ isBlank c = false ∧ c ≠ '[' := by
  cases written with
  | bare part =>
      obtain ⟨c, rest, htext, -, hblank, hbracket⟩ := part.exists_head
      exact ⟨part.lead, c, rest, htext, part.lead_blank, hblank, hbracket⟩
  | dotted part more =>
      obtain ⟨c, rest, htext, -, hblank, hbracket⟩ := part.exists_head
      exact ⟨part.lead, c, rest ++ '.' :: more.text, by simp [text, htext], part.lead_blank, hblank,
        hbracket⟩

/-! ### Reading a name -/

theorem isUnquotedBefore_of_isPlain {rest : List Char} (h : IsPlain rest) : isUnquotedBefore rest = true := by
  have hcount : rest.countP isQuote = 0 := List.countP_eq_zero.mpr fun c hc => by simp [(h c hc).1]
  rw [isUnquotedBefore, hcount]
  rfl

theorem dottedPieces_append {piece rest first : List Char} {pieces : List (List Char)}
    (hpiece : '.' ∉ piece) (hrest : dottedPieces rest = first :: pieces) :
    dottedPieces (piece ++ rest) = (piece ++ first) :: pieces := by
  induction piece with
  | nil => exact hrest
  | cons c more ih =>
      simp only [List.mem_cons, not_or] at hpiece
      have hdot : c ≠ '.' := fun heq => hpiece.1 heq.symm
      simp [dottedPieces, hdot, ih hpiece.2]

theorem dottedPieces_text (written : DottedName) :
    dottedPieces written.text = written.parts.map BarePart.text := by
  have hpart : ∀ part : BarePart, '.' ∉ part.text := by
    intro part hmem
    rcases part.mem_text hmem with h | h <;> revert h <;> decide
  induction written with
  | bare part =>
      have hpiece : dottedPieces (part.text ++ []) = [part.text ++ []] :=
        dottedPieces_append (hpart part) rfl
      simpa [text, parts] using hpiece
  | dotted part rest ih =>
      have hrest : dottedPieces ('.' :: rest.text) = [] :: rest.parts.map BarePart.text := by
        simp [dottedPieces, isUnquotedBefore_of_isPlain isPlain_text, ih]
      rw [text, dottedPieces_append (hpart part) hrest]
      simp [parts]

theorem unquoteParts_text (written : DottedName) : unquoteParts written.text = written.name := by
  rw [unquoteParts, dottedPieces_text, List.map_map, name]
  congr 1
  exact List.map_congr_left fun part _ => part.unquoted_text

end DottedName

/-! ### Reading a key -/

/-- Behind a piece of a key the key reader stands where the key may end. -/
theorem exists_dottedKeyFrom_blanks {state : KeyState} {run : List Char} (hstate : state.endsKey = true)
    (hrun : IsBlankRun run) : ∃ next : KeyState, next.endsKey = true ∧ ∀ reversed rest,
      dottedKeyFrom state reversed (run ++ rest)
        = dottedKeyFrom next (run.reverse ++ reversed) rest := by
  induction run generalizing state with
  | nil => exact ⟨state, hstate, fun _ _ => rfl⟩
  | cons c more ih =>
      have hc := hrun c (by simp)
      have hequals := (ne_equals_of_isBlank hc).2
      have hnext : state.next? c = some .complete := by
        cases state with
        | bare =>
            have hbare : isBareKeyChar c = false := by
              by_contra hbare
              rw [(isQuote_of_isBareKeyChar (by simpa using hbare)).2.1] at hc
              cases hc
            simp [KeyState.next?, hbare, hc]
        | complete => simp [KeyState.next?, hc]
        | expecting | quoted => cases hstate
      obtain ⟨next, hends, hmore⟩ := @ih .complete rfl fun x hx => hrun x (List.mem_cons_of_mem c hx)
      refine ⟨next, hends, fun reversed rest => ?_⟩
      rw [List.cons_append, dottedKeyFrom_cons, if_neg fun h => hequals h.2, hnext, Option.bind_some, hmore]
      simp

theorem dottedKeyFrom_bare {run rest reversed : List Char} (hrun : ∀ c ∈ run, isBareKeyChar c = true) :
    dottedKeyFrom .bare reversed (run ++ rest) = dottedKeyFrom .bare (run.reverse ++ reversed) rest := by
  induction run generalizing reversed with
  | nil => rfl
  | cons c more ih =>
      have hmore := @ih (c :: reversed) fun x hx => hrun x (List.mem_cons_of_mem c hx)
      simp only [List.cons_append, dottedKeyFrom, hrun c (by simp), if_true, hmore]
      simp

theorem BarePart.exists_dottedKeyFrom (part : BarePart) : ∃ next : KeyState, next.endsKey = true ∧
    ∀ reversed rest, dottedKeyFrom .expecting reversed (part.text ++ rest)
      = dottedKeyFrom next (part.text.reverse ++ reversed) rest := by
  obtain ⟨next, hends, hblanks⟩ := exists_dottedKeyFrom_blanks (rfl : KeyState.bare.endsKey = true)
    part.trail_blank
  refine ⟨next, hends, fun reversed rest => ?_⟩
  obtain ⟨c, more, hname⟩ := List.exists_cons_of_ne_nil part.name_ne_nil
  have hbare := part.name_bare c (by simp [hname])
  obtain ⟨hquote, hblank, -⟩ := isQuote_of_isBareKeyChar hbare
  have hmore : ∀ x ∈ more, isBareKeyChar x = true := fun x hx => part.name_bare x (by simp [hname, hx])
  have hsplit : part.text ++ rest = part.lead ++ (c :: (more ++ (part.trail ++ rest))) := by
    simp [BarePart.text, hname]
  rw [hsplit, dottedKeyFrom_blanks part.lead_blank, dottedKeyFrom]
  simp only [hblank, hquote, hbare, Bool.false_eq_true, if_false, if_true]
  rw [dottedKeyFrom_bare hmore, hblanks]
  simp [BarePart.text, hname]

/-- **A written key** is taken off up to its equals sign. -/
theorem DottedName.dottedKeyFrom_text (written : DottedName) (reversed rest : List Char) :
    dottedKeyFrom .expecting reversed (written.text ++ '=' :: rest)
      = some (reversed.reverse ++ written.text, rest) := by
  induction written generalizing reversed with
  | bare part =>
      obtain ⟨next, hends, hread⟩ := part.exists_dottedKeyFrom
      rw [text, hread, dottedKeyFrom_cons, if_pos ⟨hends, rfl⟩]
      simp
  | dotted part more ih =>
      obtain ⟨next, hends, hread⟩ := part.exists_dottedKeyFrom
      have hdot : next.next? '.' = some .expecting := by
        cases next with
        | expecting | quoted => cases hends
        | bare | complete => rfl
      have hsplit : (dotted part more).text ++ '=' :: rest
          = part.text ++ ('.' :: (more.text ++ '=' :: rest)) := by simp [text]
      rw [hsplit, hread, dottedKeyFrom_cons, if_neg (by simp), hdot, Option.bind_some, ih]
      simp [text]

/-! ### Lines with a key -/

section KeyLine

variable {key : DottedName} {after value line : List Char}

theorem openedArray?_key (key : DottedName) (hafter : IsBlankRun after) (hvalue : HeadNot isBlank value) :
    openedArray? (key.text ++ '=' :: (after ++ value))
      = if value.head? = some '[' then some (key.name, value) else none := by
  have htrim : trimLeft (after ++ value) = value := trimLeft_margin hafter hvalue
  simp [openedArray?, key.dottedKeyFrom_text, key.unquoteParts_text, htrim]

theorem tableHeader?_key (key : DottedName) (hcode : codePart line = key.text ++ value) :
    tableHeader? line = none := by
  obtain ⟨run, c, rest, htext, hrun, hblank, hbracket⟩ := key.exists_head
  refine tableHeader?_eq_none (rest ++ value) ?_ hrun hblank hbracket
  rw [hcode, htext, List.append_assoc, List.cons_append]

end KeyLine

/-! ### Headers -/

/-- A table header, with one bracket on either side or with two, and what stands around it on its line. -/
structure WrittenHeader where
  indent : List Char
  isDouble : Bool
  written : DottedName
  lineEnd : LineEnd
  indent_blank : IsBlankRun indent

namespace WrittenHeader

def brackets (header : WrittenHeader) (c : Char) : List Char := if header.isDouble then [c, c] else [c]

/-- The header up to the end of the line. -/
def code (header : WrittenHeader) : List Char :=
  header.indent ++ header.brackets '[' ++ header.written.text ++ header.brackets ']'

def text (header : WrittenHeader) : List Char := header.code ++ header.lineEnd.text

theorem isCode_code (header : WrittenHeader) : IsCode header.code := by
  have hbrackets : ∀ c, c = '[' ∨ c = ']' → IsPlain (header.brackets c) := by
    intro c hc x hx
    obtain rfl : x = c := by
      rw [brackets] at hx
      split at hx <;> simpa using hx
    rcases hc with rfl | rfl <;> decide
  exact (((IsCode.of_isBlankRun header.indent_blank).append
    (IsCode.of_isPlain (hbrackets _ (by simp)))).append
      (IsCode.of_isPlain DottedName.isPlain_text)).append (IsCode.of_isPlain (hbrackets _ (by simp)))

/-- **A written header** is read as the name of its table. -/
theorem tableHeader?_text (header : WrittenHeader) :
    tableHeader? header.text = some header.written.name := by
  have hcode := header.lineEnd.codePart_text header.isCode_code
  have hinner : ∀ c ∈ header.written.text, (c != '[' && c != ']') = true := by
    intro c hc
    simp only [Bool.and_eq_true, bne_iff_ne, ne_eq]
    refine ⟨?_, ?_⟩ <;> rintro rfl <;>
      exact DottedName.notMem_text (by decide) (by decide) (by decide) hc
  obtain ⟨first, more, hcons⟩ : ∃ first more, header.written.text = first :: more := by
    obtain ⟨run, c, rest, htext, -⟩ := header.written.exists_head
    exact List.exists_cons_of_ne_nil (by simp [htext])
  have hfirst : first ≠ '[' := by
    have := hinner first (by simp [hcons])
    simp only [Bool.and_eq_true, bne_iff_ne] at this
    exact this.1
  have hblanks := header.lineEnd.blanks_blank
  have hall : header.lineEnd.blanks.all isBlank = true := List.all_eq_true.mpr hblanks
  have hopen : ∀ text, HeadNot isBlank ('[' :: text) := fun text => headNot_cons.mpr (by decide)
  have hclose : ∀ text, HeadNot (fun c => c != '[' && c != ']') (']' :: text) := fun text =>
    headNot_cons.mpr (by decide)
  have hname : headerName? (header.code ++ header.lineEnd.blanks) = some header.written.text := by
    cases hdouble : header.isDouble with
    | false =>
        have hsplit : header.code ++ header.lineEnd.blanks
            = header.indent ++ '[' :: (header.written.text ++ ']' :: header.lineEnd.blanks) := by
          simp [code, brackets, hdouble]
        have htrim := trimLeft_margin header.indent_blank
          (hopen (header.written.text ++ ']' :: header.lineEnd.blanks))
        rw [hsplit, headerName?, htrim]
        simp only [hcons, List.cons_append]
        split
        · next heq => exact absurd (List.cons.inj heq).1 hfirst
        · rw [← List.cons_append, ← hcons]
          simp only [takeWhile_run hinner (hclose _), List.drop_left]
          rw [if_neg (by simp [hcons])]
          split
          · next heq =>
              have hmem : ']' ∈ header.lineEnd.blanks := by
                rw [(List.cons.inj heq).2]
                simp
              exact absurd hmem (hblanks.notMem (by decide))
          · next heq => rw [← (List.cons.inj heq).2, hall, if_pos rfl]
          · next hno => exact absurd rfl (hno _)
    | true =>
        have hsplit : header.code ++ header.lineEnd.blanks = header.indent
            ++ '[' :: '[' :: (header.written.text ++ ']' :: ']' :: header.lineEnd.blanks) := by
          simp [code, brackets, hdouble]
        have htrim := trimLeft_margin header.indent_blank
          (hopen ('[' :: (header.written.text ++ ']' :: ']' :: header.lineEnd.blanks)))
        rw [hsplit, headerName?, htrim]
        simp only [takeWhile_run hinner (hclose _), List.drop_left, hall, if_true]
        rw [if_neg (by simp [hcons])]
  rw [tableHeader?, text, hcode, hname, Option.map_some, DottedName.unquoteParts_text]

end WrittenHeader

end ManifestLens
