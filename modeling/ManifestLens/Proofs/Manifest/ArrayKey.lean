import ManifestLens.Proofs.Manifest.TableKey

/-!
# Lines that open an array

Outside arrays a line opens one if a key, an equals sign and a bracket come first. The key is read
character by character; here is what the other readers of the line make of the same characters. The
quotes are the same for all of them, no string of the key is an array element unless the key starts with
it, and everything that follows the bracket is left to the readers of array lines.
-/

namespace ManifestLens

open Text

def KeyState.quote? : KeyState → Option Char
  | .quoted quote => some quote
  | _ => none

/-! ### Keys of entries -/

/-- Outside quotes the key reader stops at the first equals sign, with or without success. -/
theorem dottedKeyFrom_plain {text : List Char} (rest reversed : List Char) {state : KeyState}
    (htext : ∀ c ∈ text, isQuote c = false ∧ c ≠ '=') (hstate : state.quote? = none) :
    dottedKeyFrom state reversed (text ++ '=' :: rest) = none ∨
      ∃ key, dottedKeyFrom state reversed (text ++ '=' :: rest) = some (key, rest) := by
  induction text generalizing state reversed with
  | nil =>
      have hblank : isBlank '=' = false := by decide
      have hbare : isBareKeyChar '=' = false := by decide
      have hquote : isQuote '=' = false := by decide
      cases state with
      | expecting => exact Or.inl (by simp [dottedKeyFrom, hblank, hbare, hquote])
      | bare => exact Or.inr ⟨_, by simp [dottedKeyFrom, hblank, hbare]; rfl⟩
      | quoted q => cases hstate
      | complete => exact Or.inr ⟨_, by simp [dottedKeyFrom, hblank]; rfl⟩
  | cons c more ih =>
      obtain ⟨hquote, hne⟩ := htext c (by simp)
      have hmore := fun x hx => htext x (List.mem_cons_of_mem c hx)
      cases state with
      | expecting =>
          simp only [List.cons_append, dottedKeyFrom, hquote, Bool.false_eq_true, if_false]
          split
          · exact ih _ hmore rfl
          · split
            · exact ih _ hmore rfl
            · exact Or.inl rfl
      | bare =>
          simp only [List.cons_append, dottedKeyFrom, hne, if_false]
          split
          · exact ih _ hmore rfl
          · split
            · exact ih _ hmore rfl
            · split
              · exact ih _ hmore rfl
              · exact Or.inl rfl
      | quoted q => cases hstate
      | complete =>
          simp only [List.cons_append, dottedKeyFrom, hne, if_false]
          split
          · exact ih _ hmore rfl
          · split
            · exact ih _ hmore rfl
            · exact Or.inl rfl

theorem dottedKeyFrom_blanks {run rest reversed : List Char} (hrun : IsBlankRun run) :
    dottedKeyFrom .expecting reversed (run ++ rest)
      = dottedKeyFrom .expecting (run.reverse ++ reversed) rest := by
  induction run generalizing reversed with
  | nil => rfl
  | cons c more ih =>
      have hc := hrun c (by simp)
      have hmore := @ih (c :: reversed) fun x hx => hrun x (List.mem_cons_of_mem c hx)
      simp only [List.cons_append, dottedKeyFrom, hc, if_true, hmore]
      simp

theorem dottedKeyFrom_quoted {quote : Char} {content rest reversed : List Char}
    (h : quote ∉ content) :
    dottedKeyFrom (.quoted quote) reversed (content ++ quote :: rest)
      = dottedKeyFrom .complete (quote :: (content.reverse ++ reversed)) rest := by
  induction content generalizing reversed with
  | nil => simp [dottedKeyFrom]
  | cons c more ih =>
      simp only [List.mem_cons, not_or] at h
      have hc : c ≠ quote := fun heq => h.1 heq.symm
      have hmore := @ih (c :: reversed) h.2
      simp only [List.cons_append, dottedKeyFrom, hc, if_false, hmore]
      simp

theorem ne_equals_of_isBlank {c : Char} (h : isBlank c = true) : isQuote c = false ∧ c ≠ '=' := by
  refine ⟨?_, ?_⟩
  · by_contra hquote
    rw [isBlank_of_isQuote (by simpa using hquote)] at h
    cases h
  · rintro rfl
    revert h
    decide

theorem ne_equals_of_isNameChar {c : Char} (h : Package.isNameChar c = true) :
    isQuote c = false ∧ c ≠ '=' := by
  refine ⟨isQuote_of_isNameChar h, ?_⟩
  rintro rfl
  revert h
  decide

/-- Where an entry is read, the value behind its key decides whether an array opens. -/
theorem KeyForm.openedArray?_eq_none (form : KeyForm) {value : List Char}
    (hvalue : HeadNot isBlank value) (hhead : value.head? ≠ some '[') :
    openedArray? (form.text ++ value) = none := by
  have hsplit : form.text ++ value
      = form.indent ++ (form.keyText ++ (form.before ++ '=' :: (form.after ++ value))) := by
    simp [text]
  have hread : dottedKeyFrom .expecting [] (form.text ++ value) = none ∨
      ∃ key, dottedKeyFrom .expecting [] (form.text ++ value) = some (key, form.after ++ value) := by
    rw [hsplit, dottedKeyFrom_blanks form.indent_blank]
    cases hquote : form.quote with
    | none =>
        have hwritten := form.bare_name hquote
        have hplain : ∀ c ∈ form.name ++ form.before, isQuote c = false ∧ c ≠ '=' := by
          intro c hc
          rcases List.mem_append.mp hc with hc | hc
          · exact ne_equals_of_isNameChar (hwritten.all c hc)
          · exact ne_equals_of_isBlank (form.before_blank c hc)
        have := dottedKeyFrom_plain (form.after ++ value) (form.indent.reverse ++ []) hplain
          (rfl : KeyState.quote? .expecting = none)
        simpa [keyText, hquote] using this
    | some q =>
        obtain ⟨hq, -, hmem⟩ := form.quoted_name q hquote
        have hblank := isBlank_of_isQuote hq
        have hplain : ∀ c ∈ form.before, isQuote c = false ∧ c ≠ '=' :=
          fun c hc => ne_equals_of_isBlank (form.before_blank c hc)
        have := dottedKeyFrom_plain (form.after ++ value)
          (q :: (form.name.reverse ++ q :: (form.indent.reverse ++ []))) hplain
          (rfl : KeyState.quote? .complete = none)
        rw [← dottedKeyFrom_quoted hmem] at this
        simpa [keyText, hquote, dottedKeyFrom, hblank, hq] using this
  rw [openedArray?]
  rcases hread with h | ⟨key, h⟩
  · simp [h]
  · have htrim : trimLeft (form.after ++ value) = value := trimLeft_margin form.after_blank hvalue
    simp [h, htrim, hhead]

/-! ### Keys of arrays -/

namespace KeyState

/-- The state after a character that belongs to the key. -/
def next? : KeyState → Char → Option KeyState
  | .expecting, c =>
      if isBlank c then some .expecting
      else if isQuote c then some (.quoted c)
      else if isBareKeyChar c then some .bare
      else none
  | .bare, c =>
      if isBareKeyChar c then some .bare
      else if isBlank c then some .complete
      else if c = '.' then some .expecting
      else none
  | .quoted quote, c => some (if c = quote then .complete else .quoted quote)
  | .complete, c =>
      if isBlank c then some .complete
      else if c = '.' then some .expecting
      else none

/-- An equals sign ends the key here. -/
def endsKey : KeyState → Bool
  | .bare => true
  | .complete => true
  | _ => false

/-- Where the string scanner stands while the key is read: in no string and behind a character that
opens no element, or in a string that is none. -/
def Fits (state : KeyState) (last : Option Char) (current : Option QuotedString.Partial) : Prop :=
  match state with
  | .quoted quote => isQuote quote = true ∧ ∃ p, current = some p ∧ p.quote = quote ∧ p.isElement = false
  | _ => current = none ∧ QuotedString.opensElement last = false

end KeyState

theorem dottedKeyFrom_cons (state : KeyState) (reversed : List Char) (c : Char) (rest : List Char) :
    dottedKeyFrom state reversed (c :: rest)
      = if state.endsKey = true ∧ c = '=' then some (reversed.reverse, rest)
        else (state.next? c).bind fun next => dottedKeyFrom next (c :: reversed) rest := by
  have hblank : isBlank '=' = false := by decide
  have hbare : isBareKeyChar '=' = false := by decide
  have hquote : isQuote '=' = false := by decide
  cases state <;> grind [dottedKeyFrom, KeyState.next?, KeyState.endsKey]

theorem isQuote_of_isBareKeyChar {c : Char} (h : isBareKeyChar c = true) :
    isQuote c = false ∧ isBlank c = false ∧ c ≠ '#' ∧ c ≠ '[' ∧ c ≠ ',' := by
  simp only [isBareKeyChar, Bool.or_eq_true, beq_iff_eq] at h
  rcases h with (halnum | rfl) | rfl
  · have hbounds := isAsciiAlnum_bounds halnum
    refine ⟨KeyForm.isQuote_of_isAsciiAlnum halnum, isBlank_of_isAsciiAlnum halnum, ?_, ?_, ?_⟩
    all_goals
      rintro rfl
      revert halnum
      decide
  all_goals decide

theorem ne_hash_of_isBlank {c : Char} (h : isBlank c = true) : c ≠ '#' := by
  rintro rfl
  revert h
  decide

/-- What a character of the key can be: a blank, the quote that opens a piece, a bare character, a dot, or a
character of a quoted piece. -/
theorem next?_cases {state next : KeyState} {c : Char} (h : state.next? c = some next) :
    state.quote? = none ∧ isBlank c = true ∧ next.quote? = none ∨
      state.quote? = none ∧ isBlank c = false ∧ isQuote c = true ∧ next = .quoted c ∨
      state.quote? = none ∧ isBareKeyChar c = true ∧ next = .bare ∨
      state.quote? = none ∧ c = '.' ∧ next = .expecting ∨
      ∃ quote, state = .quoted quote ∧ next = if c = quote then .complete else .quoted quote := by
  cases state with
  | expecting =>
      simp only [KeyState.next?] at h
      split at h
      · next hblank => exact Or.inl ⟨rfl, hblank, by cases h; rfl⟩
      · next hblank =>
          have hvisible : isBlank c = false := by simpa using hblank
          split at h
          · next hquote => exact Or.inr (Or.inl ⟨rfl, hvisible, hquote, (Option.some.inj h).symm⟩)
          · split at h
            · next hbare => exact Or.inr (Or.inr (Or.inl ⟨rfl, hbare, (Option.some.inj h).symm⟩))
            · cases h
  | bare =>
      simp only [KeyState.next?] at h
      split at h
      · next hbare => exact Or.inr (Or.inr (Or.inl ⟨rfl, hbare, (Option.some.inj h).symm⟩))
      · split at h
        · next hblank => exact Or.inl ⟨rfl, hblank, by cases h; rfl⟩
        · split at h
          · next hdot => exact Or.inr (Or.inr (Or.inr (Or.inl ⟨rfl, hdot, (Option.some.inj h).symm⟩)))
          · cases h
  | quoted quote =>
      exact Or.inr (Or.inr (Or.inr (Or.inr ⟨quote, rfl, (Option.some.inj h).symm⟩)))
  | complete =>
      simp only [KeyState.next?] at h
      split at h
      · next hblank => exact Or.inl ⟨rfl, hblank, by cases h; rfl⟩
      · split at h
        · next hdot => exact Or.inr (Or.inr (Or.inr (Or.inl ⟨rfl, hdot, (Option.some.inj h).symm⟩)))
        · cases h

theorem quoteAfter_next {state next : KeyState} {c : Char} (h : state.next? c = some next) :
    quoteAfter state.quote? c = next.quote? ∧ (state.quote? = none → c ≠ '#') := by
  rcases next?_cases h with ⟨hstate, hblank, hnext⟩ | ⟨hstate, -, hquote, rfl⟩ | ⟨hstate, hbare, rfl⟩ |
    ⟨hstate, rfl, rfl⟩ | ⟨quote, rfl, rfl⟩
  · have hquote := (ne_equals_of_isBlank hblank).1
    exact ⟨by simp [hstate, hnext, quoteAfter, hquote], fun _ => ne_hash_of_isBlank hblank⟩
  · exact ⟨by rw [hstate]; simp [quoteAfter, KeyState.quote?, hquote],
      fun _ => ne_hash_of_isQuote hquote⟩
  · obtain ⟨hquote, -, hhash, -⟩ := isQuote_of_isBareKeyChar hbare
    exact ⟨by rw [hstate]; simp [quoteAfter, KeyState.quote?, hquote], fun _ => hhash⟩
  · exact ⟨by rw [hstate]; rfl, fun _ => by decide⟩
  · refine ⟨?_, fun hstate => by cases hstate⟩
    by_cases hc : c = quote <;> simp [quoteAfter, KeyState.quote?, hc]

theorem scan_cons_plain {c : Char} (hquote : isQuote c = false) (column : Nat) (last : Option Char)
    (rest : List Char) :
    QuotedString.scan column last none (c :: rest)
      = QuotedString.scan (column + 1) (if isBlank c then last else some c) none rest := by
  simp [QuotedString.scan, hquote]

/-- Past a character of the key the scanner finds no element, and its place fits the next state. -/
theorem exists_fits_next {state next : KeyState} {c : Char} {last : Option Char}
    {current : Option QuotedString.Partial} (hfits : state.Fits last current)
    (h : state.next? c = some next) (hline : c ≠ '\n') (column : Nat) :
    ∃ last' current', next.Fits last' current' ∧ ∀ rest,
      (QuotedString.scan column last current (c :: rest)).filter QuotedString.isElement
        = (QuotedString.scan (column + 1) last' current' rest).filter QuotedString.isElement := by
  have houtside : ∀ {state : KeyState}, state.quote? = none →
      (state.Fits last current ↔ current = none ∧ QuotedString.opensElement last = false) := by
    intro state hstate
    cases state with
    | quoted q => cases hstate
    | _ => exact Iff.rfl
  -- A character that opens no string leaves the scanner outside, behind what opens no element.
  have hplain : state.quote? = none → next.quote? = none → isQuote c = false →
      (isBlank c = false → QuotedString.opensElement (some c) = false) →
      ∃ last' current', next.Fits last' current' ∧ ∀ rest,
        (QuotedString.scan column last current (c :: rest)).filter QuotedString.isElement
          = (QuotedString.scan (column + 1) last' current' rest).filter QuotedString.isElement := by
    intro hstate hnext hquote hopens
    obtain ⟨rfl, hlast⟩ := (houtside hstate).mp hfits
    refine ⟨if isBlank c then last else some c, none, ?_, fun rest => by rw [scan_cons_plain hquote]⟩
    have hopens' : QuotedString.opensElement (if isBlank c then last else some c) = false := by
      split
      · exact hlast
      · next hblank => exact hopens (by simpa using hblank)
    cases next with
    | quoted q => cases hnext
    | _ => exact ⟨rfl, hopens'⟩
  rcases next?_cases h with ⟨hstate, hblank, hnext⟩ | ⟨hstate, hblank, hquote, rfl⟩ |
    ⟨hstate, hbare, rfl⟩ | ⟨hstate, rfl, rfl⟩ | ⟨quote, rfl, rfl⟩
  · exact hplain hstate hnext (ne_equals_of_isBlank hblank).1 fun h => by simp [hblank] at h
  · obtain ⟨rfl, hlast⟩ := (houtside hstate).mp hfits
    refine ⟨some c, some ⟨c, column + 1, [], false⟩, ⟨hquote, _, rfl, rfl, rfl⟩, fun rest => ?_⟩
    simp [QuotedString.scan, hquote, hblank, hlast]
  · obtain ⟨hquote, -, -, hbracket, hcomma⟩ := isQuote_of_isBareKeyChar hbare
    exact hplain hstate rfl hquote fun _ => by simp [QuotedString.opensElement, hbracket, hcomma]
  · exact hplain hstate rfl (by decide) fun _ => by decide
  · obtain ⟨hquote, p, rfl, rfl, helement⟩ := hfits
    by_cases hc : c = p.quote
    · rw [if_pos hc]
      refine ⟨some p.quote, none, ⟨rfl, ?_⟩, fun rest => ?_⟩
      · simp only [isQuote, Bool.or_eq_true, beq_iff_eq] at hquote
        rcases hquote with h | h <;> rw [h] <;> decide
      · have hblank := isBlank_of_isQuote hquote
        simp [QuotedString.scan, hc, hblank, QuotedString.Partial.close, helement]
    · rw [if_neg hc]
      refine ⟨if isBlank c then last else some c, some { p with reversed := c :: p.reversed },
        ⟨hquote, _, rfl, rfl, helement⟩, fun rest => ?_⟩
      simp [QuotedString.scan, hc, hline]

/-- **The key of an array.** What the key reader takes off is followed by an equals sign. It holds no
comment and closes its quotes, the same key is read whatever comes behind the sign, and the scanner
finds no element in it. -/
theorem exists_of_dottedKeyFrom {state : KeyState} {reversed code key rest : List Char}
    (h : dottedKeyFrom state reversed code = some (key, rest)) :
    ∃ text, code = text ++ '=' :: rest ∧
      (∀ other, dottedKeyFrom state reversed (text ++ '=' :: other) = some (key, other)) ∧
      codeFrom state.quote? (text ++ ['=']) = text ++ ['='] ∧
      quoteState state.quote? (text ++ ['=']) = none ∧
      ∀ column last current, state.Fits last current → '\n' ∉ text → ∀ other,
        (QuotedString.scan column last current (text ++ '=' :: other)).filter QuotedString.isElement
          = (QuotedString.scan (column + text.length + 1) (some '=') none other).filter
              QuotedString.isElement := by
  induction code generalizing state reversed with
  | nil => simp [dottedKeyFrom] at h
  | cons c more ih =>
      rw [dottedKeyFrom_cons] at h
      by_cases hend : state.endsKey = true ∧ c = '='
      · rw [if_pos hend] at h
        obtain ⟨hstate, rfl⟩ := hend
        obtain ⟨rfl, rfl⟩ := Prod.mk.inj (Option.some.inj h)
        have hquote : state.quote? = none := by
          cases state with
          | quoted q => cases hstate
          | _ => rfl
        refine ⟨[], rfl, fun other => ?_, ?_, ?_, ?_⟩
        · rw [List.nil_append, dottedKeyFrom_cons, if_pos ⟨hstate, rfl⟩]
        · rw [hquote]
          rfl
        · rw [hquote]
          rfl
        · intro column last current hfits _ other
          have hcurrent : current = none := by
            cases state with
            | quoted q => cases hstate
            | _ => exact hfits.1
          have hblank : isBlank '=' = false := by decide
          rw [hcurrent, List.nil_append, scan_cons_plain (by decide)]
          simp [hblank]
      · rw [if_neg hend] at h
        obtain ⟨next, hnext, hrest⟩ := Option.bind_eq_some_iff.mp h
        obtain ⟨text, rfl, hread, hcode, hstate, hscan⟩ := ih hrest
        obtain ⟨hquote, hhash⟩ := quoteAfter_next hnext
        refine ⟨c :: text, rfl, fun other => ?_, ?_, ?_, ?_⟩
        · rw [List.cons_append, dottedKeyFrom_cons, if_neg hend, hnext]
          exact hread other
        · have hno : ¬(state.quote? = none ∧ c = '#') := fun hboth => hhash hboth.1 hboth.2
          rw [List.cons_append, codeFrom, if_neg hno, hquote, hcode]
        · simpa [quoteState, hquote] using hstate
        · intro column last current hfits hline other
          simp only [List.mem_cons, not_or] at hline
          obtain ⟨last', current', hfits', hstep⟩ :=
            exists_fits_next hfits hnext (fun heq => hline.1 heq.symm) column
          have hlength : column + 1 + text.length + 1 = column + (c :: text).length + 1 := by
            rw [List.length_cons]
            omega
          rw [List.cons_append, hstep, hscan _ _ _ hfits' hline.2 other, hlength]

/-! ### The line as a whole -/

theorem lastVisible_of_isBlankRun {run : List Char} (h : IsBlankRun run) (last : Option Char) :
    lastVisible last run = last := by
  induction run with
  | nil => rfl
  | cons c rest ih =>
      have hc := h c (by simp)
      have hrest := ih fun x hx => h x (List.mem_cons_of_mem c hx)
      simpa [lastVisible, hc] using hrest

theorem head?_trimLeft_codePart {line : List Char} (h : trimLeft (codePart line) ≠ []) :
    (trimLeft line).head? = (trimLeft (codePart line)).head? := by
  obtain ⟨comment, hcomment⟩ := codePart_isPrefix line
  obtain ⟨run, body, hcode, hrun, hbody, -, -⟩ := exists_run isBlank (codePart line)
  rw [hcode, trimLeft_margin hrun hbody] at h
  cases body with
  | nil => exact absurd rfl h
  | cons c more =>
      have hwhole : trimLeft line = c :: more ++ comment := by
        rw [← hcomment, hcode, List.append_assoc]
        exact trimLeft_margin hrun (hbody.append (by simp))
      have hbefore : trimLeft (codePart line) = c :: more := by
        rw [hcode]
        exact trimLeft_margin hrun hbody
      rw [hwhole, hbefore]
      rfl

theorem tableHeader?_eq_none {line run : List Char} {c : Char} (rest : List Char)
    (hcode : codePart line = run ++ c :: rest) (hrun : IsBlankRun run)
    (hblank : isBlank c = false) (hbracket : c ≠ '[') : tableHeader? line = none := by
  have htrim : trimLeft (run ++ c :: rest) = c :: rest :=
    trimLeft_margin hrun (headNot_cons.mpr hblank)
  rw [tableHeader?, hcode, headerName?, htrim]
  split
  · next heq =>
      obtain ⟨rfl, -⟩ := List.cons.inj heq
      exact absurd rfl hbracket
  · rfl

/-- What stands before the value of an array key, up to the blanks behind the equals sign: whatever array
stands behind it is opened under the key, and the front holds none of its elements. -/
structure ArrayFront (key front : List Char) : Prop where
  isCode : IsCode front
  start : ∃ run c rest, front = run ++ c :: rest ∧ IsBlankRun run ∧ isBlank c = false ∧ c ≠ '['
  opens : ∀ value, value.head? = some '[' → openedArray? (front ++ value) = some (key, value)
  elements : ∀ rest, (QuotedString.scan 0 none none (front ++ rest)).filter QuotedString.isElement
    = (QuotedString.scan front.length (some '=') none rest).filter QuotedString.isElement

namespace ArrayFront

variable {key front back : List Char}

theorem codePart_append (h : ArrayFront key front) (back : List Char) :
    codePart (front ++ back) = front ++ codePart back := by
  rw [codePart, codeFrom_append h.isCode.code, h.isCode.closed, codePart]

theorem openedArray?_append (h : ArrayFront key front) (hback : back.head? = some '[') :
    openedArray? (codePart (front ++ back)) = some (key, codePart back) := by
  rw [h.codePart_append]
  refine h.opens _ ?_
  obtain ⟨rest, rfl⟩ := List.head?_eq_some_iff.mp hback
  rfl

theorem tableHeader?_append (h : ArrayFront key front) (back : List Char) :
    tableHeader? (front ++ back) = none := by
  obtain ⟨run, c, rest, hfront, hrun, hblank, hbracket⟩ := h.start
  refine tableHeader?_eq_none (rest ++ codePart back) ?_ hrun hblank hbracket
  rw [h.codePart_append, hfront, List.append_assoc, List.cons_append]

theorem elementsOfLine_append (h : ArrayFront key front) (back : List Char) :
    QuotedString.elementsOfLine (front ++ back)
      = (QuotedString.stringsFrom front.length (some '=') back).filter QuotedString.isElement := by
  rw [QuotedString.elementsOfLine, QuotedString.ofLine, h.codePart_append, h.elements]
  rfl

end ArrayFront

theorem arrayFront_of_dottedKeyFrom {run gap more raw rest : List Char} {c : Char}
    (hrun : IsBlankRun run) (hbare : isBareKeyChar c = true) (hgap : IsBlankRun gap)
    (hread : dottedKeyFrom .bare (c :: run.reverse) more = some (raw, rest)) (hline : '\n' ∉ more) :
    ∃ text, more = text ++ '=' :: rest ∧
      ArrayFront (unquoteParts raw) (run ++ c :: (text ++ '=' :: gap)) := by
  obtain ⟨hquote, hblank, hhash, hbracket, hcomma⟩ := isQuote_of_isBareKeyChar hbare
  obtain ⟨text, rfl, hread', hcode, hstate, hscan⟩ := exists_of_dottedKeyFrom hread
  have hnext : KeyState.expecting.next? c = some .bare := by
    simp [KeyState.next?, hblank, hquote, hbare]
  have htext : IsCode (text ++ ['=']) := ⟨hcode, hstate⟩
  refine ⟨text, rfl, ?_, ⟨run, c, text ++ '=' :: gap, rfl, hrun, hblank, hbracket⟩, fun value hvalue => ?_,
    fun other => ?_⟩
  · have := (htext.append (IsCode.of_isBlankRun hgap)).cons hquote hhash
    simpa using (IsCode.of_isBlankRun hrun).append this
  · have hhead : HeadNot isBlank value := by
      intro d hd
      rw [hvalue] at hd
      obtain rfl := Option.some.inj hd
      decide
    have htrim : trimLeft (gap ++ value) = value := trimLeft_margin hgap hhead
    have hkey : dottedKeyFrom .expecting [] (run ++ (c :: (text ++ '=' :: (gap ++ value))))
        = some (raw, gap ++ value) := by
      rw [dottedKeyFrom_blanks hrun, List.append_nil, dottedKeyFrom_cons, hnext]
      simpa [KeyState.endsKey] using hread' (gap ++ value)
    have hsplit : (run ++ c :: (text ++ '=' :: gap)) ++ value
        = run ++ (c :: (text ++ '=' :: (gap ++ value))) := by simp
    rw [hsplit, openedArray?, hkey]
    simp [htrim, hvalue]
  · have hfits : KeyState.bare.Fits (some c) none :=
      ⟨rfl, by simp [QuotedString.opensElement, hbracket, hcomma]⟩
    have hscanText := hscan (run.length + 1) (some c) none hfits
      (fun hmem => hline (List.mem_append_left _ hmem)) (gap ++ other)
    have hlength : run.length + 1 + text.length + 1 + gap.length
        = (run ++ c :: (text ++ '=' :: gap)).length := by
      simp
      omega
    have hsplit : (run ++ c :: (text ++ '=' :: gap)) ++ other
        = run ++ (c :: (text ++ '=' :: (gap ++ other))) := by simp
    rw [hsplit, QuotedString.scan_plain (isPlain_of_isBlankRun hrun), lastVisible_of_isBlankRun hrun,
      scan_cons_plain hquote, Nat.zero_add, hblank, if_neg (by simp), hscanText,
      QuotedString.scan_plain (isPlain_of_isBlankRun hgap), lastVisible_of_isBlankRun hgap, hlength]

/-- **A line that opens an array**, under a key that does not start with a quote, is such a front with the
array behind it. -/
theorem exists_opening {line key value : List Char} (hline : '\n' ∉ line)
    (h : openedArray? (codePart line) = some (key, value))
    (hfirst : ∀ c, (trimLeft line).head? = some c → isQuote c = false) :
    ∃ front back, line = front ++ back ∧ value = codePart back ∧ back.head? = some '[' ∧
      ArrayFront key front := by
  rw [openedArray?] at h
  obtain ⟨⟨raw, rest⟩, hread, hvalue⟩ := Option.bind_eq_some_iff.mp h
  simp only at hvalue
  split at hvalue
  · next hhead =>
      obtain ⟨rfl, rfl⟩ := Prod.mk.inj (Option.some.inj hvalue)
      -- The key starts with a bare character behind the indentation.
      obtain ⟨run, body, hcode, hrun, hbody, -, -⟩ := exists_run isBlank (codePart line)
      obtain ⟨comment, hcomment⟩ := codePart_isPrefix line
      rw [hcode, dottedKeyFrom_blanks hrun, List.append_nil] at hread
      cases body with
      | nil => simp [dottedKeyFrom] at hread
      | cons c more =>
          have hblank := headNot_cons.mp hbody
          have hquote : isQuote c = false := by
            have htrim : trimLeft (codePart line) = c :: more := by
              rw [hcode]
              exact trimLeft_margin hrun hbody
            refine hfirst c ?_
            rw [head?_trimLeft_codePart (by simp [htrim]), htrim]
            rfl
          have hbare : isBareKeyChar c = true := by
            by_contra hnot
            simp [dottedKeyFrom, hblank, hquote, hnot] at hread
          have hmore : dottedKeyFrom .bare (c :: run.reverse) more = some (raw, rest) := by
            simpa [dottedKeyFrom, hblank, hquote, hbare] using hread
          -- The front goes up to the bracket.
          obtain ⟨gap, back, hrest, hgap, hback, -, -⟩ := exists_run isBlank rest
          have htrim : trimLeft rest = back := by
            rw [hrest]
            exact trimLeft_margin hgap hback
          rw [htrim] at hhead ⊢
          have hfeed : '\n' ∉ more := fun hmem => hline (by rw [← hcomment, hcode]; simp [hmem])
          obtain ⟨text, htext, hfront⟩ := arrayFront_of_dottedKeyFrom hrun hbare hgap hmore hfeed
          have hsplit : line = (run ++ c :: (text ++ '=' :: gap)) ++ (back ++ comment) := by
            rw [← hcomment, hcode, htext, hrest]
            simp
          refine ⟨_, back ++ comment, hsplit, ?_, ?_, hfront⟩
          · have hwhole := hcode
            rw [hsplit, hfront.codePart_append, htext, hrest] at hwhole
            simpa using hwhole.symm
          · obtain ⟨tail, rfl⟩ := List.head?_eq_some_iff.mp hhead
            rfl
  · cases hvalue

end ManifestLens
