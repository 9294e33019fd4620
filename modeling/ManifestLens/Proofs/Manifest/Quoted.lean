import ManifestLens.Manifest.Table
import ManifestLens.Proofs.Text.Trim

/-!
# Strings and comments of a line

The scanner for quoted strings, the search for the comment and the bracket count all run over a line
with the quote that is open. This module says what they do on the two kinds of stretches that a line
consists of, text outside quotes and a quoted string, and from that what happens to the strings of a
line when the content of one of them is exchanged: the strings before it stay, those behind it move.
-/

namespace ManifestLens

open Text

theorem isBlank_of_isQuote {c : Char} (h : isQuote c = true) : isBlank c = false := by
  simp only [isQuote, Bool.or_eq_true, beq_iff_eq] at h
  rcases h with rfl | rfl <;> decide

theorem isQuote_of_isNameChar {c : Char} (h : Package.isNameChar c = true) : isQuote c = false := by
  have hbounds := isNameChar_bounds h
  rw [isQuote, Bool.or_eq_false_iff, beq_eq_false_iff_ne, beq_eq_false_iff_ne]
  refine ⟨?_, ?_⟩ <;> rintro rfl <;> simp at hbounds

theorem ne_hash_of_isQuote {c : Char} (h : isQuote c = true) : c ≠ '#' := by
  rintro rfl
  revert h
  decide

theorem ne_bracket_of_isQuote {quote : Char} (hquote : isQuote quote = true) :
    quote ≠ '[' ∧ quote ≠ ']' := by
  simp only [isQuote, Bool.or_eq_true, beq_iff_eq] at hquote
  rcases hquote with rfl | rfl <;> decide

/-- Text outside quotes that opens no string and no comment. -/
def IsPlain (text : List Char) : Prop := ∀ c ∈ text, isQuote c = false ∧ c ≠ '#'

theorem isPlain_of_isBlankRun {run : List Char} (h : IsBlankRun run) : IsPlain run := by
  intro c hc
  refine ⟨?_, ?_⟩
  · by_contra hquote
    exact h.notMem (isBlank_of_isQuote (by simpa using hquote)) hc
  · rintro rfl
    exact h.notMem (by decide) hc

/-- The quote that is open after a text. -/
def quoteState (quote : Option Char) (text : List Char) : Option Char := text.foldl quoteAfter quote

theorem quoteState_append (quote : Option Char) (left right : List Char) :
    quoteState quote (left ++ right) = quoteState (quoteState quote left) right := by
  simp [quoteState]

theorem quoteState_plain {text : List Char} (h : IsPlain text) : quoteState none text = none := by
  induction text with
  | nil => rfl
  | cons c rest ih =>
      have hc := (h c (by simp)).1
      simpa [quoteState, quoteAfter, hc] using ih fun x hx => h x (List.mem_cons_of_mem c hx)

theorem quoteState_content {quote : Char} {content : List Char} (h : quote ∉ content) :
    quoteState (some quote) content = some quote := by
  induction content with
  | nil => rfl
  | cons c rest ih =>
      simp only [List.mem_cons, not_or] at h
      have hc : c ≠ quote := fun heq => h.1 heq.symm
      simpa [quoteState, quoteAfter, hc] using ih h.2

/-! ### The comment -/

section Comment

variable {quote : Char} {content rest text : List Char}

theorem codeFrom_plain (h : IsPlain text) : codeFrom none (text ++ rest) = text ++ codeFrom none rest := by
  induction text with
  | nil => rfl
  | cons c more ih =>
      obtain ⟨hc, hhash⟩ := h c (by simp)
      have hmore := ih fun x hx => h x (List.mem_cons_of_mem c hx)
      simp [codeFrom, hhash, quoteAfter, hc, hmore]

theorem codeFrom_content (h : quote ∉ content) :
    codeFrom (some quote) (content ++ rest) = content ++ codeFrom (some quote) rest := by
  induction content with
  | nil => rfl
  | cons c more ih =>
      simp only [List.mem_cons, not_or] at h
      have hc : c ≠ quote := fun heq => h.1 heq.symm
      simp [codeFrom, quoteAfter, hc, ih h.2]

theorem codeFrom_open (hquote : isQuote quote = true) :
    codeFrom none (quote :: rest) = quote :: codeFrom (some quote) rest := by
  simp [codeFrom, quoteAfter, hquote, ne_hash_of_isQuote hquote]

theorem codeFrom_close : codeFrom (some quote) (quote :: rest) = quote :: codeFrom none rest := by
  simp [codeFrom, quoteAfter]

theorem codeFrom_quoted (hquote : isQuote quote = true) (h : quote ∉ content) :
    codeFrom none (quote :: (content ++ quote :: rest))
      = quote :: (content ++ quote :: codeFrom none rest) := by
  rw [codeFrom_open hquote, codeFrom_content h, codeFrom_close]

theorem codeFrom_unclosed (hquote : isQuote quote = true) (h : quote ∉ content) :
    codeFrom none (quote :: content) = quote :: content := by
  have : codeFrom (some quote) (content ++ []) = content ++ codeFrom (some quote) [] :=
    codeFrom_content h
  rw [codeFrom_open hquote]
  simpa [codeFrom] using this

theorem codeFrom_comment : codeFrom none ('#' :: rest) = [] := by simp [codeFrom]

/-- Once a stretch of a line holds no comment, what follows is read with the quote open after it. -/
theorem codeFrom_append {state : Option Char} (h : codeFrom state text = text) :
    codeFrom state (text ++ rest) = text ++ codeFrom (quoteState state text) rest := by
  induction text generalizing state with
  | nil => rfl
  | cons c more ih =>
      simp only [codeFrom] at h
      split at h
      · cases h
      · next hcode =>
          have hmore := ih (List.cons.inj h).2
          simp only [List.cons_append, codeFrom, if_neg hcode, hmore, quoteState, List.foldl_cons]

theorem of_codeFrom_append {state : Option Char} {code : List Char}
    (h : codeFrom state (text ++ rest) = text ++ code) :
    codeFrom state text = text ∧ codeFrom (quoteState state text) rest = code := by
  induction text generalizing state with
  | nil => exact ⟨rfl, h⟩
  | cons c more ih =>
      simp only [List.cons_append, codeFrom] at h ⊢
      split at h
      · cases h
      · next hcode =>
          obtain ⟨hmore, hrest⟩ := ih (List.cons.inj h).2
          exact ⟨by rw [if_neg hcode, hmore], hrest⟩

end Comment

theorem isQuote_of_quoteState {state : Option Char} {text : List Char} {quote : Char}
    (hstate : ∀ q, state = some q → isQuote q = true) (h : quoteState state text = some quote) :
    isQuote quote = true := by
  induction text generalizing state with
  | nil => exact hstate quote h
  | cons c rest ih =>
      refine @ih (quoteAfter state c) ?_ h
      intro q hq
      cases state with
      | some open' =>
          simp only [quoteAfter] at hq
          split at hq
          · cases hq
          · exact hstate q (by rw [← hq])
      | none =>
          simp only [quoteAfter] at hq
          split at hq
          · next hquote => exact Option.some.inj hq ▸ hquote
          · cases hq

theorem codeFrom_of_isPlain {state : Option Char} {text : List Char}
    (hstate : ∀ q, state = some q → isQuote q = true) (h : IsPlain text) (rest : List Char) :
    codeFrom state (text ++ rest) = text ++ codeFrom state rest := by
  cases state with
  | none => exact codeFrom_plain h
  | some quote =>
      refine codeFrom_content fun hmem => ?_
      have := (h quote hmem).1
      rw [hstate quote rfl] at this
      cases this

/-- The text holds no comment and leaves no quote open. -/
structure IsCode (text : List Char) : Prop where
  code : codeFrom none text = text
  closed : quoteState none text = none

namespace IsCode

variable {left right text : List Char} {quote : Char}

theorem of_isPlain (h : IsPlain text) : IsCode text where
  code := by
    have : codeFrom none (text ++ []) = text ++ codeFrom none [] := codeFrom_plain h
    simpa [codeFrom] using this
  closed := quoteState_plain h

theorem of_isBlankRun (h : IsBlankRun text) : IsCode text := of_isPlain (isPlain_of_isBlankRun h)

theorem of_quoted (hquote : isQuote quote = true) (h : quote ∉ text) :
    IsCode (quote :: (text ++ [quote])) where
  code := by rw [codeFrom_quoted hquote h, codeFrom]
  closed := by
    have hcontent := quoteState_content h
    simp only [quoteState] at hcontent
    simp [quoteState, quoteAfter, hquote, hcontent]

theorem append (hleft : IsCode left) (hright : IsCode right) : IsCode (left ++ right) where
  code := by rw [codeFrom_append hleft.code, hleft.closed, hright.code]
  closed := by rw [quoteState_append, hleft.closed, hright.closed]

theorem of_append (hleft : IsCode left) (h : IsCode (left ++ right)) : IsCode right where
  code := by
    have hright := (of_codeFrom_append h.code).2
    rwa [hleft.closed] at hright
  closed := by
    have hclosed := h.closed
    rwa [quoteState_append, hleft.closed] at hclosed

theorem cons {c : Char} (hquote : isQuote c = false) (hhash : c ≠ '#') (h : IsCode text) :
    IsCode (c :: text) := by
  have hplain : IsPlain [c] := by simpa [IsPlain] using ⟨hquote, hhash⟩
  exact (of_isPlain hplain).append h

theorem codePart_append (h : IsCode text) {comment : List Char}
    (hcomment : comment = [] ∨ ∃ rest, comment = '#' :: rest) : codePart (text ++ comment) = text := by
  rw [codePart, codeFrom_append h.code, h.closed]
  rcases hcomment with rfl | ⟨rest, rfl⟩
  · rw [codeFrom, List.append_nil]
  · rw [codeFrom_comment, List.append_nil]

end IsCode

/-- **The comment behind an exchanged text.** Text that opens no string and no comment may be exchanged
for other such text, inside a string and outside, without moving where the comment starts. -/
theorem codePart_exchange (head tail rest : List Char) {old new : List Char} (hold : IsPlain old)
    (hnew : IsPlain new)
    (h : codePart (head ++ old ++ tail ++ rest) = head ++ old ++ tail) :
    codePart (head ++ new ++ tail ++ rest) = head ++ new ++ tail := by
  simp only [List.append_assoc, codePart] at h ⊢
  obtain ⟨hhead, hbehind⟩ := of_codeFrom_append h
  have hnone : ∀ q, (none : Option Char) = some q → isQuote q = true := by simp
  have hstate : ∀ q, quoteState none head = some q → isQuote q = true := fun q hq =>
    isQuote_of_quoteState hnone hq
  rw [codeFrom_of_isPlain hstate hold] at hbehind
  rw [codeFrom_append hhead, codeFrom_of_isPlain hstate hnew, List.append_cancel_left hbehind]

/-! ### Brackets -/

theorem bracketBalance_append (quote : Option Char) (left right : List Char) :
    bracketBalance quote (left ++ right)
      = bracketBalance quote left + bracketBalance (quoteState quote left) right := by
  induction left generalizing quote with
  | nil => simp [bracketBalance, quoteState]
  | cons c rest ih =>
      simp only [List.cons_append, bracketBalance, ih, quoteState, List.foldl_cons]
      omega

theorem bracketBalance_content {quote : Char} {content : List Char} (h : quote ∉ content) :
    bracketBalance (some quote) content = 0 := by
  induction content with
  | nil => rfl
  | cons c rest ih =>
      simp only [List.mem_cons, not_or] at h
      have hc : c ≠ quote := fun heq => h.1 heq.symm
      simp [bracketBalance, quoteAfter, hc, ih h.2]

/-! ### The scanner -/

/-- The last visible character of a text, or the one before it if the text is blank. -/
def lastVisible (last : Option Char) (text : List Char) : Option Char :=
  text.foldl (fun last c => if isBlank c then last else some c) last

namespace QuotedString

/-- The string some columns further to the right. -/
def moved (shift : Nat) (s : QuotedString) : QuotedString := { s with column := s.column + shift }

section Scan

variable {column : Nat} {last : Option Char} {quote : Char} {content rest text : List Char}

theorem scan_plain (h : IsPlain text) :
    scan column last none (text ++ rest)
      = scan (column + text.length) (lastVisible last text) none rest := by
  induction text generalizing column last with
  | nil => simp [lastVisible]
  | cons c more ih =>
      have hc := (h c (by simp)).1
      have hmore := @ih (column + 1) (if isBlank c then last else some c)
        fun x hx => h x (List.mem_cons_of_mem c hx)
      have hlength : column + 1 + more.length = column + (c :: more).length := by
        rw [List.length_cons]
        omega
      simp only [List.cons_append, scan, hc, Bool.false_eq_true, if_false]
      rw [hmore, hlength]
      rfl

theorem scan_content {p : Partial} (h : p.quote ∉ content) (hline : '\n' ∉ content) :
    ∃ last', scan column last (some p) (content ++ rest)
      = scan (column + content.length) last'
          (some { p with reversed := content.reverse ++ p.reversed }) rest := by
  induction content generalizing column last p with
  | nil => exact ⟨last, by simp⟩
  | cons c more ih =>
      simp only [List.mem_cons, not_or] at h hline
      have hc : ¬(c = p.quote ∨ c = '\n') := by
        rintro (heq | heq)
        · exact h.1 heq.symm
        · exact hline.1 heq.symm
      obtain ⟨last', hmore⟩ := @ih (column + 1) (if isBlank c then last else some c)
        { p with reversed := c :: p.reversed } h.2 hline.2
      refine ⟨last', ?_⟩
      have hlength : column + 1 + more.length = column + (c :: more).length := by
        rw [List.length_cons]
        omega
      simp only [List.cons_append, scan, if_neg hc]
      rw [hmore, hlength]
      simp

/-- A string is reported with its column and content, and scanning goes on behind its quote, which is
the last visible character then. -/
theorem scan_quoted (hquote : isQuote quote = true) (h : quote ∉ content) (hline : '\n' ∉ content) :
    scan column last none (quote :: (content ++ quote :: rest))
      = ⟨column + 1, content, opensElement last⟩
          :: scan (column + content.length + 2) (some quote) none rest := by
  have hblank := isBlank_of_isQuote hquote
  obtain ⟨last', hcontent⟩ := @scan_content (column + 1) (some quote) content (quote :: rest)
    ⟨quote, column + 1, [], opensElement last⟩ h hline
  have hcolumn : column + 1 + content.length + 1 = column + content.length + 2 := by omega
  simp only [scan, hblank, Bool.false_eq_true, if_false, hquote, if_true]
  rw [hcontent]
  simp [scan, Partial.close, hblank, hcolumn]

theorem scan_unclosed (hquote : isQuote quote = true) (h : quote ∉ content) (hline : '\n' ∉ content) :
    scan column last none (quote :: content) = [⟨column + 1, content, opensElement last⟩] := by
  have hblank := isBlank_of_isQuote hquote
  obtain ⟨last', hcontent⟩ := @scan_content (column + 1) (some quote) content []
    ⟨quote, column + 1, [], opensElement last⟩ h hline
  rw [List.append_nil] at hcontent
  simp only [scan, hblank, Bool.false_eq_true, if_false, hquote, if_true]
  rw [hcontent]
  simp [scan, Partial.close]

theorem scan_moved (shift column : Nat) (last : Option Char) (current : Option Partial)
    (text : List Char) :
    scan (column + shift) last (current.map fun p => { p with column := p.column + shift }) text
      = (scan column last current text).map (moved shift) := by
  induction text generalizing column last current with
  | nil => cases current <;> simp [scan, Partial.close, moved]
  | cons c rest ih =>
      have hcolumn : column + shift + 1 = column + 1 + shift := by omega
      cases current with
      | none =>
          simp only [Option.map_none, scan, hcolumn]
          rw [← ih]
          split <;> simp
      | some p =>
          simp only [Option.map_some, scan, hcolumn]
          split
          · have hrest := ih (column + 1) (if isBlank c then last else some c) none
            rw [Option.map_none] at hrest
            rw [hrest]
            simp [Partial.close, moved]
          · have hrest := ih (column + 1) (if isBlank c then last else some c)
              (some { p with reversed := c :: p.reversed })
            simpa using hrest

/-- The strings that are found stand one behind another, the open one first. A line feed that ends a string keeps
the next one at a distance as a quote does. -/
theorem pairwise_scan (column : Nat) (last : Option Char) (current : Option Partial) (text : List Char)
    (hopen : ∀ p, current = some p → p.column + p.reversed.length = column) :
    (∀ s ∈ scan column last current text, (current.map Partial.column).getD (column + 1) ≤ s.column) ∧
      (scan column last current text).Pairwise fun a b => a.column + a.content.length < b.column := by
  induction text generalizing column last current with
  | nil => cases current <;> simp [scan, Partial.close]
  | cons c rest ih =>
      cases current with
      | none =>
          simp only [scan, Option.map_none, Option.getD_none]
          obtain ⟨hbound, hpairwise⟩ := ih (column + 1) (if isBlank c then last else some c)
            (if isQuote c then some ⟨c, column + 1, [], opensElement last⟩ else none) (by split <;> simp)
          refine ⟨fun s hs => Nat.le_trans ?_ (hbound s hs), hpairwise⟩
          split <;> simp
      | some p =>
          have hcolumn := hopen p rfl
          simp only [scan, Option.map_some, Option.getD_some]
          split
          · obtain ⟨hbound, hpairwise⟩ := ih (column + 1) (if isBlank c then last else some c) none (by simp)
            simp only [Option.map_none, Option.getD_none] at hbound
            have hbehind : ∀ s ∈ scan (column + 1) (if isBlank c then last else some c) none rest,
                p.close.column + p.close.content.length < s.column := by
              intro s hs
              have := hbound s hs
              simp only [Partial.close, List.length_reverse]
              omega
            refine ⟨?_, List.pairwise_cons.mpr ⟨hbehind, hpairwise⟩⟩
            intro s hs
            rcases List.mem_cons.mp hs with rfl | hs
            · exact Nat.le_refl _
            · have := hbehind s hs
              simp only [Partial.close] at this
              omega
          · obtain ⟨hbound, hpairwise⟩ := ih (column + 1) (if isBlank c then last else some c)
              (some { p with reversed := c :: p.reversed }) (by simp; omega)
            exact ⟨hbound, hpairwise⟩

end Scan

end QuotedString

/-! ### Lines cut at their strings -/

/-- A line as the scanner meets it: stretches outside quotes, each ended by the end of the line, by a
comment, by a string left open, or by a closed string behind which the line goes on. -/
inductive LineShape : List Char → Prop
  | plain {text : List Char} : IsPlain text → LineShape text
  | comment {text comment : List Char} : IsPlain text → LineShape (text ++ '#' :: comment)
  | unclosed {text content : List Char} {quote : Char} : IsPlain text → isQuote quote = true →
      quote ∉ content → LineShape (text ++ quote :: content)
  | quoted {text content rest : List Char} {quote : Char} : IsPlain text → isQuote quote = true →
      quote ∉ content → LineShape rest → LineShape (text ++ quote :: (content ++ quote :: rest))

/-- Every line has such a shape. -/
theorem lineShape (line : List Char) : LineShape line := by
  induction hlength : line.length using Nat.strong_induction_on generalizing line with
  | _ n ih =>
      obtain ⟨text, rest, rfl, htext, hrest, -, -⟩ :=
        exists_run (fun c => !isQuote c && c != '#') line
      have hplain : IsPlain text := fun c hc => by simpa using htext c hc
      cases rest with
      | nil => simpa using LineShape.plain hplain
      | cons c more =>
          have hc : isQuote c = true ∨ c = '#' := by
            have := headNot_cons.mp hrest
            simp only [Bool.and_eq_false_iff, Bool.not_eq_false', bne_eq_false_iff_eq] at this
            exact this
          rcases hc with hquote | rfl
          · obtain ⟨content, after, rfl, hcontent, hafter, -, -⟩ := exists_run (· != c) more
            have hmem : c ∉ content := fun hmem => by simpa using hcontent c hmem
            cases after with
            | nil => simpa using LineShape.unclosed hplain hquote hmem
            | cons d after =>
                have hd : d = c := by simpa using headNot_cons.mp hafter
                subst hd
                refine LineShape.quoted hplain hquote hmem (ih after.length ?_ after rfl)
                simp only [List.length_append, List.length_cons] at hlength
                omega
          · exact LineShape.comment hplain

namespace QuotedString

/-- The strings that are found in a line which starts at a column, behind a last visible character. -/
def stringsFrom (column : Nat) (last : Option Char) (line : List Char) : List QuotedString :=
  scan column last none (codeFrom none line)

section StringsFrom

variable {column : Nat} {last : Option Char} {quote : Char} {content rest text : List Char}

theorem stringsFrom_plain (h : IsPlain text) :
    stringsFrom column last (text ++ rest)
      = stringsFrom (column + text.length) (lastVisible last text) rest := by
  rw [stringsFrom, codeFrom_plain h, scan_plain h, stringsFrom]

theorem stringsFrom_nil : stringsFrom column last [] = [] := rfl

theorem stringsFrom_comment : stringsFrom column last ('#' :: rest) = [] := by
  rw [stringsFrom, codeFrom_comment]
  rfl

theorem stringsFrom_unclosed (hquote : isQuote quote = true) (h : quote ∉ content)
    (hline : '\n' ∉ content) :
    stringsFrom column last (quote :: content) = [⟨column + 1, content, opensElement last⟩] := by
  rw [stringsFrom, codeFrom_unclosed hquote h, scan_unclosed hquote h hline]

theorem stringsFrom_quoted (hquote : isQuote quote = true) (h : quote ∉ content)
    (hline : '\n' ∉ content) :
    stringsFrom column last (quote :: (content ++ quote :: rest))
      = ⟨column + 1, content, opensElement last⟩
          :: stringsFrom (column + content.length + 2) (some quote) rest := by
  rw [stringsFrom, codeFrom_quoted hquote h, scan_quoted hquote h hline, stringsFrom]

theorem stringsFrom_moved (shift : Nat) :
    stringsFrom (column + shift) last text = (stringsFrom column last text).map (moved shift) := by
  have := scan_moved shift column last none (codeFrom none text)
  rwa [Option.map_none] at this

/-- The strings of a line stand one behind another. -/
theorem pairwise_stringsFrom (column : Nat) (last : Option Char) (text : List Char) :
    (∀ s ∈ stringsFrom column last text, column < s.column) ∧
      (stringsFrom column last text).Pairwise fun a b => a.column + a.content.length < b.column :=
  pairwise_scan column last none (codeFrom none text) (by simp)

/-- **One string exchanged.** A string that is found in a line stands there between its quotes. With
another content in its place the strings before it are the same, and those behind it are the same
further to the right. -/
theorem exists_site (hline : '\n' ∉ text) {s : QuotedString}
    (hs : s ∈ stringsFrom column last text) :
    ∃ (before after : List Char) (quote : Char) (earlier later : List QuotedString),
      isQuote quote = true ∧ quote ∉ s.content ∧ text = before ++ quote :: (s.content ++ after) ∧
      s.column = column + before.length + 1 ∧ codeFrom none before = before ∧
      quoteState none before = none ∧ (after = [] ∨ ∃ rest, after = quote :: rest) ∧
      (∀ e ∈ earlier, e.column + e.content.length < s.column) ∧
      (∀ e ∈ later, column + 1 ≤ e.column) ∧
      ∀ content, quote ∉ content → '\n' ∉ content →
        stringsFrom column last (before ++ quote :: (content ++ after))
          = earlier ++ ⟨s.column, content, s.isElement⟩
              :: later.map (moved (before.length + 1 + content.length)) := by
  induction lineShape text generalizing column last with
  | @plain text h =>
      have : stringsFrom column last (text ++ []) = _ := stringsFrom_plain h
      rw [List.append_nil] at this
      simp [this, stringsFrom_nil] at hs
  | comment h => simp [stringsFrom_plain h, stringsFrom_comment] at hs
  | @unclosed before content quote h hquote hmem =>
      simp only [List.mem_append, List.mem_cons, not_or] at hline
      rw [stringsFrom_plain h, stringsFrom_unclosed hquote hmem hline.2.2] at hs
      obtain rfl := List.mem_singleton.mp hs
      refine ⟨before, [], quote, [], [], hquote, hmem, by simp, rfl, ?_, quoteState_plain h,
        Or.inl rfl, by simp, by simp, ?_⟩
      · have : codeFrom none (before ++ []) = before ++ codeFrom none [] := codeFrom_plain h
        simpa [codeFrom] using this
      · intro content hcontent hcontentLine
        rw [List.append_nil, stringsFrom_plain h, stringsFrom_unclosed hquote hcontent hcontentLine]
        simp
  | @quoted front content rest quote h hquote hmem hshape ih =>
      simp only [List.mem_append, List.mem_cons, not_or] at hline
      rw [stringsFrom_plain h, stringsFrom_quoted hquote hmem hline.2.2.1] at hs
      have hcode : codeFrom none front = front := by
        have : codeFrom none (front ++ []) = front ++ codeFrom none [] := codeFrom_plain h
        simpa [codeFrom] using this
      rcases List.mem_cons.mp hs with rfl | hs
      · -- the string itself: what is behind it moves with the length of the content
        refine ⟨front, quote :: rest, quote, [], stringsFrom (column + 1) (some quote) rest, hquote,
          hmem, rfl, rfl, hcode, quoteState_plain h, Or.inr ⟨rest, rfl⟩, by simp, ?_, ?_⟩
        · intro e he
          have := (pairwise_stringsFrom (column + 1) (some quote) rest).1 e he
          omega
        · intro other hother hotherLine
          have hcolumn : column + front.length + other.length + 2
              = column + 1 + (front.length + 1 + other.length) := by omega
          rw [stringsFrom_plain h, stringsFrom_quoted hquote hother hotherLine, hcolumn,
            stringsFrom_moved]
          rfl
      · -- a string further on
        obtain ⟨before, after, inner, earlier, later, hinner, hinnerMem, hrest, hcolumn, hbefore,
          hstate, hafter, hearlier, hlater, hexchange⟩ := ih hline.2.2.2.2 hs
        refine ⟨front ++ quote :: (content ++ quote :: before), after, inner,
          ⟨column + front.length + 1, content, opensElement (lastVisible last front)⟩ :: earlier,
          later.map fun e => { e with column := e.column - (front.length + content.length + 2) },
          hinner, hinnerMem, ?_, ?_, ?_, ?_, hafter, ?_, ?_, ?_⟩
        · simp [hrest]
        · rw [hcolumn]
          simp only [List.length_append, List.length_cons]
          omega
        · rw [codeFrom_plain h, codeFrom_quoted hquote hmem, hbefore]
        · rw [quoteState_append, quoteState_plain h]
          have hopen : quoteState none (quote :: (content ++ quote :: before))
              = quoteState (some quote) (content ++ quote :: before) := by
            simp [quoteState, quoteAfter, hquote]
          have hclose : quoteState (some quote) (quote :: before) = quoteState none before := by
            simp [quoteState, quoteAfter]
          rw [hopen, quoteState_append, quoteState_content hmem, hclose, hstate]
        · intro e he
          rcases List.mem_cons.mp he with rfl | he
          · simp only
            omega
          · exact hearlier e he
        · intro e he
          obtain ⟨other, hother, rfl⟩ := List.mem_map.mp he
          have := hlater other hother
          simp only
          omega
        · intro other hother hotherLine
          have hassoc : front ++ quote :: (content ++ quote :: before) ++ inner :: (other ++ after)
              = front ++ (quote :: (content ++ quote :: (before ++ inner :: (other ++ after)))) := by
            simp
          rw [hassoc, stringsFrom_plain h, stringsFrom_quoted hquote hmem hline.2.2.1,
            hexchange other hother hotherLine, List.cons_append, List.map_map]
          congr 3
          refine List.map_congr_left fun e he => ?_
          have := hlater e he
          simp only [moved, Function.comp, List.length_append, List.length_cons]
          congr 1
          omega

end StringsFrom

end QuotedString

end ManifestLens
