import ManifestLens.Proofs.Manifest.ArrayKey
import ManifestLens.Proofs.Manifest.Completion
import ManifestLens.Proofs.Manifest.PoetryTable

/-!
# The string that is open

A string without its closing quote is the last one of its line. If it opens an array element, its entry is told
from all others of the line by the columns: the strings before it are closed, and what is read as an entry of a
table has a string of its own, which is the open one only where an equals sign stands before it.
-/

namespace ManifestLens

open Text

/-! ### The string that is open -/

theorem lastVisible_append (last : Option Char) (left right : List Char) :
    lastVisible last (left ++ right) = lastVisible (lastVisible last left) right := by
  simp [lastVisible]

theorem lastVisible_cons {c : Char} (h : isBlank c = false) (last : Option Char) (text : List Char) :
    lastVisible last (c :: text) = lastVisible (some c) text := by
  simp [lastVisible, h]

section Open

variable {front content : List Char} {quote : Char}

theorem stringsFrom_open (hfront : IsCode front) (hquote : isQuote quote = true) (hcontent : quote ∉ content)
    (hline : '\n' ∉ front ++ quote :: content) (column : Nat) (last : Option Char) :
    QuotedString.stringsFrom column last (front ++ quote :: content)
      = QuotedString.stringsFrom column last front
        ++ [⟨column + front.length + 1, content, QuotedString.opensElement (lastVisible last front)⟩] := by
  have hfeed : '\n' ∉ front ∧ '\n' ∉ content := by
    simp only [List.mem_append, List.mem_cons, not_or] at hline
    exact ⟨hline.1, hline.2.2⟩
  obtain ⟨hfeedFront, hfeed⟩ := hfeed
  clear hline
  induction lineShape front generalizing column last with
  | @plain text h =>
      have hnone : QuotedString.stringsFrom column last (text ++ []) = _ := QuotedString.stringsFrom_plain h
      rw [List.append_nil] at hnone
      rw [QuotedString.stringsFrom_plain h, QuotedString.stringsFrom_unclosed hquote hcontent hfeed, hnone]
      rfl
  | @comment text comment h =>
      have hcode := hfront.code
      rw [codeFrom_plain h, codeFrom_comment] at hcode
      simp at hcode
  | @unclosed text inner other h hother hinner =>
      have hclosed := hfront.closed
      have hopen : quoteState none [other] = some other := by simp [quoteState, quoteAfter, hother]
      rw [quoteState_append, quoteState_plain h, ← List.singleton_append, quoteState_append, hopen,
        quoteState_content hinner] at hclosed
      cases hclosed
  | @quoted text inner rest other h hother hinner hshape ih =>
      have hsplit : text ++ other :: (inner ++ other :: rest) = (text ++ other :: (inner ++ [other])) ++ rest := by
        simp
      have hquoted : IsCode (text ++ other :: (inner ++ [other])) :=
        (IsCode.of_isPlain h).append (IsCode.of_quoted hother hinner)
      have hrest : IsCode rest := hquoted.of_append (hsplit ▸ hfront)
      simp only [List.mem_append, List.mem_cons, not_or] at hfeedFront
      have hvisible : lastVisible last (text ++ other :: (inner ++ other :: rest))
          = lastVisible (some other) rest := by
        rw [hsplit, lastVisible_append, lastVisible_append, ← List.cons_append, lastVisible_append,
          lastVisible_cons (isBlank_of_isQuote hother)]
        rfl
      have hwhole : text ++ other :: (inner ++ other :: rest) ++ quote :: content
          = text ++ other :: (inner ++ other :: (rest ++ quote :: content)) := by simp
      rw [hwhole, QuotedString.stringsFrom_plain h, QuotedString.stringsFrom_quoted hother hinner hfeedFront.2.2.1,
        QuotedString.stringsFrom_plain h, QuotedString.stringsFrom_quoted hother hinner hfeedFront.2.2.1,
        ih hrest _ _ hfeedFront.2.2.2.2, hvisible]
      simp only [List.cons_append, List.length_append, List.length_cons]
      congr 4
      omega

theorem quote_notMem (hquote : isQuote quote = true) (hplain : ∀ c ∈ content, isQuote c = false) :
    quote ∉ content := fun hmem => by
  have := hplain quote hmem
  rw [hquote] at this
  cases this

theorem codePart_open (hfront : IsCode front) (hquote : isQuote quote = true) (hcontent : quote ∉ content) :
    codePart (front ++ quote :: content) = front ++ quote :: content := by
  rw [codePart, codeFrom_append hfront.code, hfront.closed, codeFrom_unclosed hquote hcontent]

theorem length_le_of_quote {left right : List Char} {other : Char} (hother : isQuote other = true)
    (hplain : ∀ c ∈ content, isQuote c = false) (h : left ++ other :: right = front ++ quote :: content) :
    left.length ≤ front.length := by
  by_contra hlt
  obtain ⟨k, hk⟩ := Nat.exists_eq_add_of_lt (Nat.not_le.mp hlt)
  have hat : (front ++ quote :: content)[left.length]? = some other := by
    rw [← h, List.getElem?_append_right le_rfl, Nat.sub_self]
    rfl
  rw [hk, List.getElem?_append_right (by omega), Nat.add_assoc, Nat.add_sub_cancel_left,
    List.getElem?_cons_succ] at hat
  have := hplain other (List.mem_of_getElem? hat)
  rw [hother] at this
  cases this

end Open

/-! ### Entries of a table beside it -/

theorem lastVisible_equals {after : List Char} (hafter : IsBlankRun after) (last : Option Char)
    (left : List Char) : lastVisible last (left ++ '=' :: after) = some '=' := by
  rw [lastVisible_append, lastVisible_cons (by decide), lastVisible_of_isBlankRun hafter]

theorem TableForm.lastVisible_opening (form : TableForm) :
    lastVisible none (form.key.text ++ form.opening) = some '=' := by
  rcases form.opened with hnil | ⟨-, hfound⟩
  · rw [hnil, List.append_nil, KeyForm.text]
    exact lastVisible_equals form.key.after_blank none _
  · obtain ⟨front, before, after, htext, hafter, -, -⟩ := exists_of_firstField hfound
    have hopening : form.opening = front ++ ("version".toList ++ (before ++ '=' :: after)) := by
      have hcut : form.opening ++ form.quote :: (form.lead ++ form.constraint ++ form.trail ++ form.rest)
          = front ++ ("version".toList ++ (before ++ '=' :: after))
            ++ form.quote :: (form.lead ++ form.constraint ++ form.trail ++ form.rest) := by
        rw [htext]
        simp
      exact List.append_cancel_right hcut
    rw [hopening, ← List.append_assoc, ← List.append_assoc, ← List.append_assoc]
    exact lastVisible_equals hafter none _

/-- Behind the text a quote opens an array element: no comment starts in the text, no quote is open at its end,
and a bracket or a comma is the last that is visible of it, or nothing. -/
structure OpensElement (front : List Char) (quote : Char) : Prop where
  code : IsCode front
  opens : QuotedString.opensElement (lastVisible none front) = true
  quote_isQuote : isQuote quote = true

/-- With an array string left open, an entry of a table has its name and its constraint in front of it. -/
theorem away_of_mem_tableDependencies {front content : List Char} {quote : Char} {rule : NameRule}
    {number : Nat} {group : Group} {e : Dependency} (hline : '\n' ∉ front ++ quote :: content)
    (hopen : OpensElement front quote) (hplain : ∀ c ∈ content, isQuote c = false)
    (he : e ∈ tableDependencies rule (front ++ quote :: content) number group) :
    e.nameSpan.stop ≤ front.length ∧ e.span.stop < (front ++ quote :: content).length := by
  obtain ⟨form, hcode, -, hdependency⟩ := exists_of_mem_tableDependencies hline he
  obtain ⟨-, rfl⟩ := Requirement.toDependency?_eq_some_iff.mp hdependency
  rw [codePart_open hopen.code hopen.quote_isQuote (quote_notMem hopen.quote_isQuote hplain)] at hcode
  have hsplit : (form.key.text ++ form.opening) ++ form.quote :: (form.content ++ form.rest)
      = front ++ quote :: content := by
    rw [hcode, TableForm.text, TableForm.value, List.append_assoc]
  have hstart := length_le_of_quote form.quote_isQuote hplain hsplit
  rw [List.length_append] at hstart
  constructor
  · have hname : (form.key.key form.value).span.stop ≤ form.key.text.length := by
      simp only [KeyForm.key, Span.stop, KeyForm.text, KeyForm.keyText, List.length_append]
      omega
    exact hname.trans (by omega)
  · by_contra hstop
    -- The constraint goes up to the end of the line, so its string is the one that is open.
    have hlength : (front ++ quote :: content).length
        = form.head.length + form.constraint.length + form.tail.length := by
      rw [hcode, form.text_eq]
      simp only [List.length_append]
    have hrest : form.rest = [] := by
      have htail : form.tail.length = 0 := by
        simp only [TableForm.requirement, Span.stop] at hstop
        omega
      exact (List.append_eq_nil_iff.mp (List.length_eq_zero_iff.mp htail)).2
    have hcontent : ∀ c ∈ form.content ++ form.rest, isQuote c = false := by
      intro c hc
      rw [hrest, List.append_nil, TableForm.content] at hc
      rcases List.mem_append.mp hc with hc | hc
      · rcases List.mem_append.mp hc with hc | hc
        · exact (isPlain_of_isBlankRun form.lead_blank c hc).1
        · exact (isPlain_of_isTableConstraint form.constraint_text c hc).1
      · exact (isPlain_of_isBlankRun form.trail_blank c hc).1
    have hback := length_le_of_quote hopen.quote_isQuote hcontent hsplit.symm
    obtain ⟨rfl, -⟩ := List.append_inj hsplit.symm (by rw [List.length_append] at hback ⊢; omega)
    have hopens := hopen.opens
    rw [form.lastVisible_opening] at hopens
    cases hopens

/-! ### The entry of the open string -/

section Only

variable {front content : List Char} {quote : Char} {rule : NameRule} {number : Nat} {group : Group}
  {d e : Dependency}

/-- The elements of the line are those in front of the open string, and this string if it opens one. -/
theorem elementsOfLine_open (hline : '\n' ∉ front ++ quote :: content) (hopen : OpensElement front quote)
    (hplain : ∀ c ∈ content, isQuote c = false) :
    QuotedString.elementsOfLine (front ++ quote :: content)
      = QuotedString.elementsOfLine front ++ [⟨front.length + 1, content, true⟩] := by
  have hstrings := stringsFrom_open hopen.code hopen.quote_isQuote (quote_notMem hopen.quote_isQuote hplain)
    hline 0 none
  rw [Nat.zero_add, hopen.opens] at hstrings
  change (QuotedString.stringsFrom 0 none (front ++ quote :: content)).filter _ = _
  rw [hstrings, List.filter_append]
  rfl

theorem away_of_dependency? {s : QuotedString} (hs : s ∈ QuotedString.elementsOfLine front)
    (he : s.dependency? rule number group = some e) :
    e.nameSpan.stop ≤ front.length ∧ e.span.stop ≤ front.length := by
  obtain ⟨before, after, hcode, hcolumn⟩ := QuotedString.exists_of_mem_ofLine (List.mem_filter.mp hs).1
  have hlength := (codePart_isPrefix front).length_le
  rw [hcode, List.length_append, List.length_append, ← hcolumn] at hlength
  have hwithin := QuotedString.within_of_dependency? he
  have hordered := hwithin.ordered
  have hstop := hwithin.stop_le
  simp only [Span.stop] at hordered hstop ⊢
  omega

/-- **The entry at the end of the line.** What the open string states is read from the line, and every other
entry has its name and its constraint in front of the string or elsewhere away from the end. -/
theorem only_of_open {dialect : Dialect} (hline : '\n' ∉ front ++ quote :: content)
    (hopen : OpensElement front quote) (hplain : ∀ c ∈ content, isQuote c = false)
    (hd : (⟨front.length + 1, content, true⟩ : QuotedString).dependency? rule number group = some d)
    (hdialect : dialect ≠ .requirementsLine)
    (he : e ∈ dialect.parse rule (front ++ quote :: content) number group) :
    e = d ∨ d.nameSpan.overlaps e.nameSpan = false ∧
      e.span.contains ((front ++ quote :: content).length : Nat) = false := by
  have hwithin := QuotedString.within_of_dependency? hd
  have hstart := hwithin.start_le
  have haway : e.nameSpan.stop ≤ front.length → e.span.stop < (front ++ quote :: content).length →
      d.nameSpan.overlaps e.nameSpan = false ∧
        e.span.contains ((front ++ quote :: content).length : Nat) = false := by
    intro hname hspan
    refine ⟨Span.overlaps_eq_false (Or.inr (by simp only at hstart; omega)), ?_⟩
    rw [← Bool.not_eq_true, Span.contains_iff]
    omega
  -- Of an element the entry is read in one of the two forms.
  have helement : ∀ s ∈ QuotedString.elementsOfLine (front ++ quote :: content),
      s.dependency? rule number group = some e → e = d ∨ d.nameSpan.overlaps e.nameSpan = false ∧
        e.span.contains ((front ++ quote :: content).length : Nat) = false := by
    intro s hs hstates
    rw [elementsOfLine_open hline hopen hplain] at hs
    rcases List.mem_append.mp hs with hs | hs
    · have hstop := away_of_dependency? hs hstates
      exact Or.inr (haway hstop.1 (by rw [List.length_append, List.length_cons]; omega))
    · obtain rfl := List.mem_singleton.mp hs
      exact Or.inl (Option.some.inj (hstates.symm.trans hd))
  cases dialect with
  | requirementsLine => exact absurd rfl hdialect
  | poetryTable =>
      have hstop := away_of_mem_tableDependencies hline hopen hplain he
      exact Or.inr (haway hstop.1 hstop.2)
  | array =>
      obtain ⟨s, hs, hstates⟩ := List.mem_filterMap.mp he
      exact helement s hs (QuotedString.dependency?_eq_some_iff.mpr (Or.inl hstates))
  | poetryParentheses =>
      obtain ⟨s, hs, hstates⟩ := List.mem_filterMap.mp he
      exact helement s hs (QuotedString.dependency?_eq_some_iff.mpr (Or.inr hstates))

theorem mem_parse_of_open (hline : '\n' ∉ front ++ quote :: content) (hopen : OpensElement front quote)
    (hplain : ∀ c ∈ content, isQuote c = false)
    (hd : (⟨front.length + 1, content, true⟩ : QuotedString).dependency? rule number group = some d) :
    d ∈ d.dialect.parse rule (front ++ quote :: content) number group := by
  have hmem : (⟨front.length + 1, content, true⟩ : QuotedString)
      ∈ QuotedString.elementsOfLine (front ++ quote :: content) := by
    rw [elementsOfLine_open hline hopen hplain]
    simp
  rcases QuotedString.dependency?_eq_some_iff.mp hd with hd | hd
  · obtain ⟨r, -, hr⟩ := Option.bind_eq_some_iff.mp hd
    obtain ⟨-, rfl⟩ := Requirement.toDependency?_eq_some_iff.mp hr
    exact List.mem_filterMap.mpr ⟨_, hmem, hd⟩
  · obtain ⟨r, -, hr⟩ := Option.bind_eq_some_iff.mp hd
    obtain ⟨-, rfl⟩ := Requirement.toDependency?_eq_some_iff.mp hr
    exact List.mem_filterMap.mpr ⟨_, hmem, hd⟩

end Only

end ManifestLens
