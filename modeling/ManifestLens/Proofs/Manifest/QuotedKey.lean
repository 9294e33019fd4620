import ManifestLens.Proofs.Manifest.Slices
import ManifestLens.Proofs.Manifest.Revision

/-!
# Keys in quotes

What a string of an array line is, is decided by what stands before it: nothing, a bracket or a comma. A key in
quotes differs from an element only in what stands behind it, and where it is the first of its line, or of its
inline table behind a comma, nothing tells the two apart. So a key of this kind states a dependency just where its
text does. Every name that an array line yields lies in one string, and the strings of a line stand apart; from
this it follows which of the keys are taken for dependencies.
-/

namespace ManifestLens

open Text

/-! ### Keys -/

namespace QuotedString

/-- The string is a key, or a piece of a dotted one: behind its closing quote and white space stands an equals
sign or a dot. -/
def isKey (line : List Char) (s : QuotedString) : Bool :=
  match trimLeft ((codePart line).drop (s.column + s.content.length + 1)) with
  | c :: _ => c == '=' || c == '.'
  | [] => false

theorem isKey_of_split {line before after : List Char} {quote c : Char} {s : QuotedString}
    (hcode : codePart line = before ++ quote :: (s.content ++ quote :: after))
    (hcolumn : s.column = before.length + 1) (hafter : (trimLeft after).head? = some c)
    (hc : c = '=' ∨ c = '.') : s.isKey line = true := by
  have hdrop : (codePart line).drop (s.column + s.content.length + 1) = after := by
    have hsplit : codePart line = (before ++ quote :: (s.content ++ [quote])) ++ after := by
      rw [hcode]
      simp
    have hlength : s.column + s.content.length + 1 = (before ++ quote :: (s.content ++ [quote])).length := by
      rw [hcolumn]
      simp
      omega
    rw [hsplit, hlength, List.drop_left]
  obtain ⟨rest, hrest⟩ := List.head?_eq_some_iff.mp hafter
  rw [isKey, hdrop, hrest]
  rcases hc with rfl | rfl <;> rfl

end QuotedString

/-- No name among the dependencies lies in a key of the line. -/
def NamesNoKey (line : List Char) (found : List Dependency) : Prop :=
  ∀ d ∈ found, ∀ key ∈ QuotedString.ofLine line, key.isKey line = true → ¬ d.NamedIn key

/-- None of the keys of the line that stand where an element would states anything. -/
def KeysStateNothing (line : List Char) (states : QuotedString → Option Dependency) : Prop :=
  ∀ key ∈ QuotedString.ofLine line, key.isKey line = true → key.isElement = true → states key = none

section Names

variable {line : List Char} {states : QuotedString → Option Dependency}

/-- **Which names lie in keys**, where every name comes from an element that it lies in. -/
theorem namesNoKey_iff (hstates : ∀ s d, states s = some d → d.Within s.column (s.column + s.content.length)) :
    NamesNoKey line ((QuotedString.elementsOfLine line).filterMap states) ↔ KeysStateNothing line states := by
  constructor
  · intro h key hkey hisKey helement
    cases hstated : states key with
    | none => rfl
    | some d =>
        have hwithin := hstates key d hstated
        have hmem : d ∈ (QuotedString.elementsOfLine line).filterMap states :=
          List.mem_filterMap.mpr ⟨key, List.mem_filter.mpr ⟨hkey, helement⟩, hstated⟩
        have hstop : d.nameSpan.stop ≤ key.column + key.content.length :=
          Nat.le_trans hwithin.ordered (Nat.le_trans (Nat.le_add_right ..) hwithin.stop_le)
        exact absurd ⟨hwithin.start_le, hstop⟩ (h d hmem key hkey hisKey)
  · intro h d hd key hkey hisKey hnamed
    obtain ⟨s, hs, hstated⟩ := List.mem_filterMap.mp hd
    obtain ⟨hmem, helement⟩ := List.mem_filter.mp hs
    obtain rfl := eq_of_namedIn hmem hkey (hstates s d hstated) hnamed
    rw [h s hmem hisKey helement] at hstated
    cases hstated

end Names

/-! ### The key that opens an array -/

/-- The key of a line that starts with a quote, up to its first closing quote. -/
def leadingKey? (line : List Char) : Option QuotedString :=
  ((trimLeft line).head?.filter isQuote).bind fun _ => (QuotedString.ofLine line).head?

theorem head?_of_dottedKeyFrom_complete {reversed code raw rest : List Char}
    (h : dottedKeyFrom .complete reversed code = some (raw, rest)) :
    ∃ c, (trimLeft code).head? = some c ∧ (c = '=' ∨ c = '.') := by
  induction code generalizing reversed with
  | nil => cases h
  | cons c more ih =>
      simp only [dottedKeyFrom] at h
      split at h
      · next hblank =>
          rw [show trimLeft (c :: more) = trimLeft more by simp [trimLeft, dropLeading, hblank]]
          exact ih h
      · next hblank =>
          have htrim : trimLeft (c :: more) = c :: more := by
            simp [trimLeft, dropLeading, hblank]
          refine ⟨c, by rw [htrim]; rfl, ?_⟩
          split at h
          · next hdot => exact .inr hdot
          · split at h
            · next hequals => exact .inl hequals
            · cases h

theorem dottedKeyFrom_unclosed {quote : Char} {content reversed : List Char} (h : quote ∉ content) :
    dottedKeyFrom (.quoted quote) reversed content = none := by
  induction content generalizing reversed with
  | nil => rfl
  | cons c more ih =>
      simp only [List.mem_cons, not_or] at h
      have hc : c ≠ quote := fun heq => h.1 heq.symm
      simpa only [dottedKeyFrom, hc, if_false] using ih h.2

/-- **A key in quotes**, up to its equals sign: blanks, a closed string, and what a closed piece may be followed
by, in which the scanner finds no element. -/
theorem exists_quoted_key {code raw rest : List Char} {quote : Char}
    (hread : dottedKeyFrom .expecting [] code = some (raw, rest)) (hfirst : (trimLeft code).head? = some quote)
    (hquote : isQuote quote = true) :
    ∃ run content text, code = run ++ quote :: (content ++ quote :: (text ++ '=' :: rest)) ∧ IsBlankRun run ∧
      quote ∉ content ∧ IsCode (text ++ ['=']) ∧
      (∃ mark, (trimLeft (text ++ '=' :: rest)).head? = some mark ∧ (mark = '=' ∨ mark = '.')) ∧
      ∀ column, '\n' ∉ text → ∀ other,
        (QuotedString.scan column (some quote) none (text ++ '=' :: other)).filter QuotedString.isElement
          = (QuotedString.scan (column + text.length + 1) (some '=') none other).filter QuotedString.isElement := by
  have hblank := isBlank_of_isQuote hquote
  have hopens : QuotedString.opensElement (some quote) = false := by
    simp only [isQuote, Bool.or_eq_true, beq_iff_eq] at hquote
    rcases hquote with rfl | rfl <;> decide
  obtain ⟨run, body, rfl, hrun, hbody, -, -⟩ := exists_run isBlank code
  rw [trimLeft_margin hrun hbody] at hfirst
  obtain ⟨more, rfl⟩ := List.head?_eq_some_iff.mp hfirst
  rw [dottedKeyFrom_blanks hrun, List.append_nil] at hread
  simp only [dottedKeyFrom, hblank, hquote, Bool.false_eq_true, if_false, if_true] at hread
  obtain ⟨content, after, rfl, hcontent, hafter, -, -⟩ := exists_run (· != quote) more
  have hmem : quote ∉ content := fun hmem => by simpa using hcontent quote hmem
  cases after with
  | nil =>
      rw [List.append_nil, dottedKeyFrom_unclosed hmem] at hread
      cases hread
  | cons d tail =>
      obtain rfl : d = quote := by simpa using headNot_cons.mp hafter
      rw [dottedKeyFrom_quoted hmem] at hread
      obtain ⟨text, rfl, -, hcode, hstate, hscan⟩ := exists_of_dottedKeyFrom hread
      exact ⟨run, content, text, rfl, hrun, hmem, ⟨hcode, hstate⟩, head?_of_dottedKeyFrom_complete hread,
        fun column => hscan column (some d) none ⟨rfl, hopens⟩⟩

/-- **A line that opens an array under a key in quotes**, cut before the bracket: the first element that the
scanner finds is the key, and all others stand behind the bracket. -/
theorem exists_quoted_opening {line key value : List Char} {quote : Char} (hline : '\n' ∉ line)
    (h : openedArray? (codePart line) = some (key, value)) (hfirst : (trimLeft line).head? = some quote)
    (hquote : isQuote quote = true) :
    ∃ (front back : List Char) (s : QuotedString), line = front ++ back ∧ value = codePart back ∧
      back.head? = some '[' ∧ leadingKey? line = some s ∧ s.isKey line = true ∧
      QuotedString.elementsOfLine line
        = s :: (QuotedString.stringsFrom front.length (some '=') back).filter QuotedString.isElement := by
  rw [openedArray?] at h
  obtain ⟨⟨raw, rest⟩, hread, hvalue⟩ := Option.bind_eq_some_iff.mp h
  obtain ⟨hhead, hvalue⟩ := Option.ite_none_right_eq_some.mp hvalue
  obtain ⟨-, rfl⟩ := Prod.mk.inj (Option.some.inj hvalue)
  have hvisible : trimLeft (codePart line) ≠ [] := by
    intro hnil
    obtain ⟨run, body, hcode, hrun, hbody, -, -⟩ := exists_run isBlank (codePart line)
    rw [hcode, trimLeft_margin hrun hbody] at hnil
    rw [hcode, hnil, dottedKeyFrom_blanks hrun] at hread
    cases hread
  have hfirstCode := (head?_trimLeft_codePart hvisible).symm.trans hfirst
  obtain ⟨run, content, text, hcode, hrun, hmem, htext, ⟨mark, hmark, hends⟩, hscan⟩ :=
    exists_quoted_key hread hfirstCode hquote
  obtain ⟨comment, hcomment⟩ := codePart_isPrefix line
  obtain ⟨gap, back, rfl, hgap, hback, -, -⟩ := exists_run isBlank rest
  rw [trimLeft_margin hgap hback] at hhead ⊢
  have hfeed : '\n' ∉ run ++ quote :: (content ++ quote :: (text ++ '=' :: (gap ++ back))) := fun hmem =>
    hline (by rw [← hcomment, hcode]; exact List.mem_append_left _ hmem)
  simp only [List.mem_append, List.mem_cons, not_or] at hfeed
  have hfront : IsCode (run ++ quote :: (content ++ quote :: (text ++ '=' :: gap))) := by
    have := (IsCode.of_quoted hquote hmem).append (htext.append (IsCode.of_isBlankRun hgap))
    simpa using (IsCode.of_isBlankRun hrun).append this
  have hsplit : line = (run ++ quote :: (content ++ quote :: (text ++ '=' :: gap))) ++ (back ++ comment) := by
    rw [← hcomment, hcode]
    simp
  have hbackCode : codePart (back ++ comment) = back := by
    have hwhole := hcode
    rw [hsplit, codePart, codeFrom_append hfront.code, hfront.closed, ← codePart] at hwhole
    simpa using hwhole
  have hstrings : QuotedString.ofLine line = ⟨run.length + 1, content, true⟩
      :: QuotedString.scan (run.length + content.length + 2) (some quote) none (text ++ '=' :: (gap ++ back)) := by
    rw [QuotedString.ofLine, hcode, QuotedString.scan_plain (isPlain_of_isBlankRun hrun),
      lastVisible_of_isBlankRun hrun, QuotedString.scan_quoted hquote hmem hfeed.2.2.1, Nat.zero_add]
    rfl
  refine ⟨_, back ++ comment, ⟨run.length + 1, content, true⟩, hsplit, hbackCode.symm, ?_, ?_, ?_, ?_⟩
  · obtain ⟨tail, rfl⟩ := List.head?_eq_some_iff.mp hhead
    rfl
  · rw [leadingKey?, hfirst, Option.filter_some_pos hquote, hstrings]
    rfl
  · exact QuotedString.isKey_of_split hcode rfl hmark hends
  · have hlength : run.length + content.length + 2 + text.length + 1 + gap.length
        = (run ++ quote :: (content ++ quote :: (text ++ '=' :: gap))).length := by
      simp
      omega
    rw [QuotedString.elementsOfLine, hstrings, List.filter_cons_of_pos rfl, hscan _ hfeed.2.2.2.2.1,
      QuotedString.scan_plain (isPlain_of_isBlankRun hgap), lastVisible_of_isBlankRun hgap, hlength,
      QuotedString.stringsFrom, ← codePart, hbackCode]

/-! ### Lines of arrays -/

section Lines

variable {reader : ManifestReader} {line : List Char} {number : Nat} {group : Group}

theorem isKey_of_leadingKey? {key value : List Char} (hline : '\n' ∉ line)
    (h : openedArray? (codePart line) = some (key, value)) {s : QuotedString} (hs : leadingKey? line = some s) :
    s.isKey line = true := by
  obtain ⟨quote, hquoted, -⟩ := Option.bind_eq_some_iff.mp hs
  obtain ⟨hfirst, hquote⟩ := Option.filter_eq_some_iff.mp hquoted
  obtain ⟨-, -, key, -, -, -, hkey, hisKey, -⟩ := exists_quoted_opening hline h hfirst hquote
  obtain rfl := Option.some.inj (hs.symm.trans hkey)
  exact hisKey

/-- Behind a bracket nothing depends on what stands before it, apart from the columns. -/
theorem entries_of_bracket {back : List Char} (hhead : back.head? = some '[') (column : Nat) (last : Option Char) :
    ((QuotedString.stringsFrom column last back).filter QuotedString.isElement).filterMap
        (QuotedString.dependency? reader.rule number group)
      = (reader.arrayEntries back number group).map (Dependency.moved column) := by
  obtain ⟨tail, rfl⟩ := List.head?_eq_some_iff.mp hhead
  have hplain : IsPlain ['['] := by simp [IsPlain, isQuote]
  have hbracket : ∀ column last, QuotedString.stringsFrom column last ('[' :: tail)
      = QuotedString.stringsFrom (column + 1) (some '[') tail := fun _ _ => QuotedString.stringsFrom_plain hplain
  have hmoved : QuotedString.stringsFrom column last ('[' :: tail)
      = (QuotedString.stringsFrom 0 none ('[' :: tail)).map (QuotedString.moved column) :=
    calc QuotedString.stringsFrom column last ('[' :: tail)
        = QuotedString.stringsFrom (column + 1) (some '[') tail := hbracket _ _
      _ = QuotedString.stringsFrom (0 + column) none ('[' :: tail) := by rw [Nat.zero_add, hbracket]
      _ = (QuotedString.stringsFrom 0 none ('[' :: tail)).map (QuotedString.moved column) :=
        QuotedString.stringsFrom_moved column
  rw [hmoved, QuotedString.entries_moved, arrayEntries_eq reader]
  rfl

/-- **What the line that opens an array states**: what its array does, and before this what the key states if it
starts with a quote. -/
theorem exists_opening_entries {key value : List Char} (hline : '\n' ∉ line)
    (h : openedArray? (codePart line) = some (key, value)) (reader : ManifestReader) (number : Nat) (group : Group) :
    ∃ front back, line = front ++ back ∧ value = codePart back ∧ back.head? = some '[' ∧
      reader.arrayEntries line number group
        = ((leadingKey? line).bind (QuotedString.dependency? reader.rule number group)).toList
          ++ (reader.arrayEntries back number group).map (Dependency.moved front.length) := by
  cases hquoted : (trimLeft line).head?.filter isQuote with
  | some quote =>
      obtain ⟨hfirst, hquote⟩ := Option.filter_eq_some_iff.mp hquoted
      obtain ⟨front, back, s, hsplit, hvalue, hhead, hkey, -, helements⟩ :=
        exists_quoted_opening hline h hfirst hquote
      refine ⟨front, back, hsplit, hvalue, hhead, ?_⟩
      calc reader.arrayEntries line number group
          = (s :: (QuotedString.stringsFrom front.length (some '=') back).filter QuotedString.isElement).filterMap
              (QuotedString.dependency? reader.rule number group) := by
            rw [arrayEntries_eq reader, helements]
        _ = (s.dependency? reader.rule number group).toList
              ++ ((QuotedString.stringsFrom front.length (some '=') back).filter
                QuotedString.isElement).filterMap (QuotedString.dependency? reader.rule number group) := by
            rw [List.filterMap_cons]
            cases s.dependency? reader.rule number group <;> rfl
        _ = ((leadingKey? line).bind (QuotedString.dependency? reader.rule number group)).toList
              ++ (reader.arrayEntries back number group).map (Dependency.moved front.length) := by
            rw [entries_of_bracket hhead, hkey, Option.bind_some]
  | none =>
      have hfirst : ∀ c, (trimLeft line).head? = some c → isQuote c = false := fun c hc => by
        simpa using Option.filter_eq_none_iff.mp hquoted c hc
      obtain ⟨front, back, hsplit, hvalue, hhead, hfront⟩ := exists_opening hline h hfirst
      refine ⟨front, back, hsplit, hvalue, hhead, ?_⟩
      rw [← entries_of_bracket hhead front.length (some '='),
        ← hfront.elementsOfLine_append, ← hsplit, arrayEntries_eq reader, leadingKey?, hquoted]
      rfl

/-- **Keys among the entries of an array line**, as its two readers see it and as a document does. For each of the
three no name lies in a key just if no key that stands where an element would reads as one. A line that opens an
array states what the array does, and before this only what its key reads as if it starts with a quote. -/
theorem ManifestReader.namesNoKey_array_lines (reader : ManifestReader) (number : Nat) (group : Group) :
    (∀ line : List Char, '\n' ∉ line →
      (NamesNoKey line (arrayDependencies reader.rule line number group) ↔
        KeysStateNothing line (QuotedString.plainDependency? reader.rule number group)) ∧
      (NamesNoKey line (parenthesizedDependencies reader.rule line number group) ↔
        KeysStateNothing line (QuotedString.parenthesizedDependency? reader.rule number group))) ∧
    ∀ text line : List Char, (splitLines text)[number]? = some line →
      (reader.stateBefore text number).arrayGroup? line = some (some group) →
      (NamesNoKey line ((reader.readText text).filter fun d => d.line == number) ↔
        KeysStateNothing line (QuotedString.dependency? reader.rule number group)) ∧
      ((reader.stateBefore text number).depth ≤ 0 →
        ∃ front back, line = front ++ back ∧ back.head? = some '[' ∧
          (openedArray? (codePart line)).map Prod.snd = some (codePart back) ∧
          (∀ key, leadingKey? line = some key → key.isKey line = true) ∧
          ((reader.readText text).filter fun d => d.line == number)
            = ((leadingKey? line).bind (QuotedString.dependency? reader.rule number group)).toList
              ++ (reader.arrayEntries back number group).map (Dependency.moved front.length)) := by
  constructor
  · intro line _
    exact ⟨namesNoKey_iff fun s d h =>
        QuotedString.within_of_dependency? (QuotedString.dependency?_eq_some_iff.mpr (.inl h)),
      namesNoKey_iff fun s d h =>
        QuotedString.within_of_dependency? (QuotedString.dependency?_eq_some_iff.mpr (.inr h))⟩
  · intro text line hat hgroup
    have hline : '\n' ∉ line := (isUnbroken_of_mem_splitLinesFrom isUnbroken_nil
      (List.mem_of_getElem? hat)).notMem (by decide)
    have hfound : ((reader.readText text).filter fun d => d.line == number)
        = reader.arrayEntries line number group := by
      rw [filter_line_readText hat, step_of_arrayGroup? hgroup]
      rfl
    rw [hfound]
    refine ⟨?_, fun hdepth => ?_⟩
    · rw [arrayEntries_eq reader]
      exact namesNoKey_iff fun s d h => QuotedString.within_of_dependency? h
    · rw [DocumentState.arrayGroup?, if_neg (Int.not_lt.mpr hdepth)] at hgroup
      obtain ⟨-, hopened⟩ := Option.ite_none_left_eq_some.mp hgroup
      obtain ⟨⟨key, value⟩, hopened, -⟩ := Option.map_eq_some_iff.mp hopened
      obtain ⟨front, back, hsplit, hvalue, hhead, hentries⟩ :=
        exists_opening_entries hline hopened reader number group
      refine ⟨front, back, hsplit, hhead, ?_, fun key => isKey_of_leadingKey? hline hopened, hentries⟩
      rw [hopened, hvalue]
      rfl

/-- A key in quotes that reads as a name is taken for a dependency by the reader of array lines and in the document,
ahead of what its array holds. -/
theorem ManifestReader.namesNoKey_array_lines_group :
    ¬ NamesNoKey "\"dev-tools\" = [\"pytest>=7\"]".toList
        (arrayDependencies .standard "\"dev-tools\" = [\"pytest>=7\"]".toList 1 .extra) ∧
      ¬ NamesNoKey "\"dev-tools\" = [\"pytest>=7\"]".toList ((ManifestReader.standard.readText
        "[project.optional-dependencies]\n\"dev-tools\" = [\"pytest>=7\"]".toList).filter fun d => d.line == 1) ∧
      ∃ front back, "\"dev-tools\" = [\"pytest>=7\"]".toList = front ++ back ∧ back.head? = some '[' ∧
        ((ManifestReader.standard.readText
            "[project.optional-dependencies]\n\"dev-tools\" = [\"pytest>=7\"]".toList).filter
          fun d => d.line == 1)
          = ⟨"dev-tools".toList, [], ⟨10, 0⟩, ⟨1, 9⟩, 1, .extra, .array, []⟩
            :: (ManifestReader.standard.arrayEntries back 1 .extra).map (Dependency.moved front.length) := by
  obtain ⟨hreaders, hdocument⟩ := namesNoKey_array_lines .standard 1 .extra
  obtain ⟨hnames, hopening⟩ := hdocument
    "[project.optional-dependencies]\n\"dev-tools\" = [\"pytest>=7\"]".toList _ rfl rfl
  obtain ⟨front, back, hsplit, hhead, -, -, hfound⟩ := hopening (by decide)
  refine ⟨fun h => ?_, fun h => ?_, front, back, hsplit, hhead, hfound⟩
  · have := (hreaders _ (by decide)).1.mp h ⟨1, "dev-tools".toList, true⟩ (by decide) (by decide) rfl
    exact absurd this (by decide)
  · have := hnames.mp h ⟨1, "dev-tools".toList, true⟩ (by decide) (by decide) rfl
    exact absurd this (by decide)

end Lines

end ManifestLens
