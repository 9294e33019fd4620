import ManifestLens.Proofs.Manifest.ArrayLine
import ManifestLens.Proofs.Manifest.Placement
import ManifestLens.Proofs.Written.Header

/-!
# Written arrays

An array is a tree of values with gaps between them, and a gap may go on over any number of lines. The
reader does not see the tree: it takes the lines one by one, with the number of brackets that are open. So
the tree is written as a row of tokens first, and what the reader needs to know of the row is that a
bracket is open wherever a line ends, and that each string stands behind a bracket, a comma or the start of
its line.
-/

namespace ManifestLens

open Text

/-! ### Entries without columns -/

/-- What a dependency states, and on which line. -/
structure ManifestEntry where
  line : Nat
  name : List Char
  constraint : List Char
  extras : List (List Char)
  group : Group
  dialect : Dialect
deriving DecidableEq

/-- The dependency without its columns. -/
def Dependency.entry (d : Dependency) : ManifestEntry where
  line := d.line
  name := d.name
  constraint := d.constraint
  extras := d.extras
  group := d.group
  dialect := d.dialect

/-- A string between quotes of a kind that it does not hold. -/
structure WrittenString where
  quote : Char
  content : List Char
  quote_isQuote : isQuote quote = true
  closed : quote ∉ content

namespace WrittenString

def text (string : WrittenString) : List Char := string.quote :: (string.content ++ [string.quote])

theorem bracketBalance_text (string : WrittenString) : bracketBalance none string.text = 0 := by
  have hcontent := bracketBalance_append (some string.quote) string.content [string.quote]
  rw [bracketBalance_content string.closed, quoteState_content string.closed] at hcontent
  obtain ⟨hopen, hclose⟩ := ne_bracket_of_isQuote string.quote_isQuote
  simp only [text, bracketBalance, quoteAfter, string.quote_isQuote, if_true, hcontent]
  simp [hopen, hclose]

/-- The entry that the string states as an element of an array, if it states one. -/
def states? (string : WrittenString) (rule : NameRule) (number : Nat) (group : Group) :
    Option ManifestEntry :=
  (QuotedString.dependency? rule number group ⟨0, string.content, true⟩).map Dependency.entry

theorem map_entry_dependency? (string : WrittenString) (rule : NameRule) (number : Nat) (group : Group)
    (column : Nat) (isElement : Bool) :
    (QuotedString.dependency? rule number group ⟨column, string.content, isElement⟩).map
        Dependency.entry
      = string.states? rule number group := by
  have hmoved : QuotedString.dependency? rule number group ⟨column, string.content, isElement⟩
      = (QuotedString.dependency? rule number group ⟨0, string.content, true⟩).map
          (Dependency.moved column) := by
    rw [← QuotedString.dependency?_moved]
    simp [QuotedString.dependency?, QuotedString.plainDependency?, QuotedString.parenthesizedDependency?,
      QuotedString.moved]
  rw [hmoved, Option.map_map, states?]
  rfl

end WrittenString

/-! ### Tokens -/

/-- A piece of an array: text without strings and comments, a string, or the end of a line. -/
inductive ArrayToken where
  | code (text : List Char)
  | quoted (string : WrittenString)
  | lineEnd (ending : LineEnd)

def beforeFirst (text : List Char) : List (List Char) → List (List Char)
  | [] => [text]
  | line :: lines => (text ++ line) :: lines

namespace ArrayToken

/-- The lines that tokens are written on, where a text ends the last one. -/
def lines (tail : List Char) : List ArrayToken → List (List Char)
  | [] => [tail]
  | code text :: rest => beforeFirst text (lines tail rest)
  | quoted string :: rest => beforeFirst string.text (lines tail rest)
  | lineEnd ending :: rest => ending.text :: lines tail rest

/-- The entries that the strings state, where the first line has the given number. -/
def entries (rule : NameRule) (group : Option Group) (number : Nat) :
    List ArrayToken → List ManifestEntry
  | [] => []
  | code _ :: rest => entries rule group number rest
  | quoted string :: rest =>
      (group.bind (string.states? rule number)).toList ++ entries rule group number rest
  | lineEnd _ :: rest => entries rule group (number + 1) rest

/-- With a number of brackets open and behind a last visible character, the tokens close all brackets, but
not before the last line, and their strings open elements. -/
def ClosesFrom (depth : Int) (last : Option Char) : List ArrayToken → Prop
  | [] => depth = 0
  | code text :: rest =>
      IsPlain text ∧ ClosesFrom (depth + bracketBalance none text) (lastVisible last text) rest
  | quoted string :: rest =>
      QuotedString.opensElement last = true ∧ ClosesFrom depth (some string.quote) rest
  | lineEnd _ :: rest => 0 < depth ∧ ClosesFrom depth none rest

theorem exists_lines (tail : List Char) (tokens : List ArrayToken) :
    ∃ line more, lines tail tokens = line :: more := by
  cases tokens with
  | nil => exact ⟨tail, [], rfl⟩
  | cons token rest =>
      cases token with
      | lineEnd ending => exact ⟨ending.text, lines tail rest, rfl⟩
      | code | quoted =>
          simp only [lines]
          cases lines tail rest with
          | nil => exact ⟨_, [], rfl⟩
          | cons line more => exact ⟨_, more, rfl⟩

end ArrayToken

/-! ### Reading tokens -/

theorem bracketBalance_blanks {run : List Char} (h : IsBlankRun run) : bracketBalance none run = 0 := by
  induction run with
  | nil => rfl
  | cons c rest ih =>
      have hc := h c (by simp)
      have hquote := (ne_equals_of_isBlank hc).1
      have hbracket : c ≠ '[' ∧ c ≠ ']' := by
        refine ⟨?_, ?_⟩ <;> rintro rfl <;> revert hc <;> decide
      have hrest := ih fun x hx => h x (List.mem_cons_of_mem c hx)
      simp [bracketBalance, quoteAfter, hquote, hbracket, hrest]

/-- A place within a line of an array: how many brackets are open there, and what of the line is read. -/
structure ArrayPlace where
  table : Option (List Char)
  group : Option Group
  depth : Int
  number : Nat
  column : Nat
  last : Option Char

namespace ManifestReader

/-- What is read from a place within an array on. The first line is what is left of the line with the
place. -/
def readWithin (reader : ManifestReader) (place : ArrayPlace) : List (List Char) → List Dependency
  | [] => []
  | line :: rest =>
      ((QuotedString.stringsFrom place.column place.last line).filter QuotedString.isElement).filterMap
          (fun string => place.group.bind fun group =>
            string.dependency? reader.rule place.number group)
        ++ reader.readFrom
            ⟨place.table, place.group, place.depth + bracketBalance none (codePart line)⟩
            (place.number + 1) rest

section ReadWithin

variable {reader : ManifestReader} {place : ArrayPlace} {line : List Char} {lines : List (List Char)}

theorem arrayEntries_group (reader : ManifestReader) (number : Nat) (group : Option Group) :
    (group.map (reader.arrayEntries line number)).getD []
      = (QuotedString.elementsOfLine line).filterMap fun string =>
          group.bind fun group => string.dependency? reader.rule number group := by
  cases group with
  | none => simp
  | some group => exact arrayEntries_eq reader _ number group

theorem readFrom_inside (hdepth : 0 < place.depth) (hcolumn : place.column = 0)
    (hlast : place.last = none) :
    reader.readFrom ⟨place.table, place.group, place.depth⟩ place.number (line :: lines)
      = reader.readWithin place (line :: lines) := by
  rw [readFrom_cons, step_inside hdepth, arrayEntries_group reader, readWithin, hcolumn, hlast]
  rfl

theorem readWithin_code {text : List Char} (htext : IsPlain text) :
    reader.readWithin place (beforeFirst text (line :: lines))
      = reader.readWithin
          { place with
            depth := place.depth + bracketBalance none text
            column := place.column + text.length
            last := lastVisible place.last text } (line :: lines) := by
  have hbalance : bracketBalance none (codePart (text ++ line))
      = bracketBalance none text + bracketBalance none (codePart line) := by
    rw [codePart, codeFrom_plain htext, bracketBalance_append, quoteState_plain htext, codePart]
  simp only [beforeFirst, readWithin, QuotedString.stringsFrom_plain htext, hbalance, Int.add_assoc]

theorem readWithin_string {string : WrittenString} (hopens : QuotedString.opensElement place.last = true)
    (hline : '\n' ∉ string.content) :
    reader.readWithin place (beforeFirst string.text (line :: lines))
      = (place.group.bind fun group => QuotedString.dependency? reader.rule place.number group
            ⟨place.column + 1, string.content, true⟩).toList
          ++ reader.readWithin
              { place with
                column := place.column + string.content.length + 2
                last := some string.quote } (line :: lines) := by
  have hsplit : string.text ++ line = string.quote :: (string.content ++ string.quote :: line) := by
    simp [WrittenString.text]
  have hcode : IsCode string.text := IsCode.of_quoted string.quote_isQuote string.closed
  have hbalance : bracketBalance none (codePart (string.text ++ line))
      = bracketBalance none (codePart line) := by
    rw [codePart, codeFrom_append hcode.code, bracketBalance_append, hcode.closed,
      string.bracketBalance_text, Int.zero_add, codePart]
  simp only [beforeFirst, readWithin, hbalance]
  rw [hsplit, QuotedString.stringsFrom_quoted string.quote_isQuote string.closed hline, hopens,
    List.filter_cons_of_pos (by rfl), List.filterMap_cons]
  cases place.group.bind fun group => QuotedString.dependency? reader.rule place.number group
    ⟨place.column + 1, string.content, true⟩ <;> simp

theorem readWithin_lineEnd (ending : LineEnd) :
    reader.readWithin place (ending.text :: lines)
      = reader.readFrom ⟨place.table, place.group, place.depth⟩ (place.number + 1) lines := by
  have hcode : codePart ending.text = ending.blanks :=
    ending.codePart_text (IsCode.of_isBlankRun isBlankRun_nil)
  have hplain := isPlain_of_isBlankRun ending.blanks_blank
  have hstrings : QuotedString.stringsFrom place.column place.last ending.text = [] := by
    rw [LineEnd.text, QuotedString.stringsFrom_plain hplain]
    rcases ending.commentText_cases with h | ⟨rest, h⟩
    · rw [h, QuotedString.stringsFrom_nil]
    · rw [h, QuotedString.stringsFrom_comment]
  simp only [readWithin, hstrings, hcode, bracketBalance_blanks ending.blanks_blank, Int.add_zero]
  rfl

/-- **The lines of an array** yield what their strings state, and behind them no bracket is open. -/
theorem readWithin_tokens {tokens : List ArrayToken} (ending : LineEnd) (more : List (List Char))
    (hcloses : ArrayToken.ClosesFrom place.depth place.last tokens)
    (hlines : ∀ line ∈ ArrayToken.lines ending.text tokens, '\n' ∉ line) :
    (reader.readWithin place (ArrayToken.lines ending.text tokens ++ more)).map Dependency.entry
      = ArrayToken.entries reader.rule place.group place.number tokens
          ++ (reader.readFrom ⟨place.table, place.group, 0⟩
              (place.number + (ArrayToken.lines ending.text tokens).length) more).map
                Dependency.entry := by
  induction tokens generalizing place with
  | nil =>
      have hdepth : place.depth = 0 := hcloses
      have hread : reader.readWithin place (ending.text :: more)
          = reader.readFrom ⟨place.table, place.group, place.depth⟩ (place.number + 1) more :=
        readWithin_lineEnd ending
      rw [hdepth] at hread
      exact congrArg (List.map Dependency.entry) hread
  | cons token rest ih =>
      obtain ⟨line, others, hsplit⟩ := ArrayToken.exists_lines ending.text rest
      cases token with
      | code text =>
          obtain ⟨htext, hrest⟩ := hcloses
          simp only [ArrayToken.lines, hsplit, beforeFirst, List.mem_cons, forall_eq_or_imp,
            List.mem_append, not_or] at hlines
          have hmore := @ih
            { place with
              depth := place.depth + bracketBalance none text
              column := place.column + text.length
              last := lastVisible place.last text } hrest
            (by
              rw [hsplit]
              exact List.forall_mem_cons.mpr ⟨hlines.1.2, hlines.2⟩)
          rw [hsplit, List.cons_append, ← readWithin_code htext] at hmore
          simpa [ArrayToken.lines, ArrayToken.entries, hsplit, beforeFirst] using hmore
      | quoted string =>
          obtain ⟨hopens, hrest⟩ := hcloses
          simp only [ArrayToken.lines, hsplit, beforeFirst, List.mem_cons, forall_eq_or_imp,
            List.mem_append, not_or, WrittenString.text] at hlines
          have hmore := @ih
            { place with
              column := place.column + string.content.length + 2
              last := some string.quote } hrest
            (by
              rw [hsplit]
              exact List.forall_mem_cons.mpr ⟨hlines.1.2, hlines.2⟩)
          have hstring := @readWithin_string reader place line (others ++ more) string hopens
            hlines.1.1.2.1
          have hentry : ((place.group.bind fun group => QuotedString.dependency? reader.rule place.number
              group ⟨place.column + 1, string.content, true⟩).toList).map Dependency.entry
                = (place.group.bind (string.states? reader.rule place.number)).toList := by
            cases place.group with
            | none => rfl
            | some group =>
                rw [Option.bind_some, Option.bind_some, ← string.map_entry_dependency? reader.rule
                  place.number group (place.column + 1) true]
                cases QuotedString.dependency? reader.rule place.number group
                  ⟨place.column + 1, string.content, true⟩ <;> rfl
          rw [hsplit, List.cons_append] at hmore
          rw [ArrayToken.lines, hsplit, ArrayToken.entries, List.append_assoc]
          simp only [beforeFirst, List.cons_append, List.length_cons] at hstring hmore ⊢
          rw [hstring, List.map_append, hentry, hmore]
      | lineEnd next =>
          obtain ⟨hdepth, hrest⟩ := hcloses
          simp only [ArrayToken.lines, List.mem_cons, forall_eq_or_imp] at hlines
          have hmore := @ih { place with number := place.number + 1, column := 0, last := none } hrest
            hlines.2
          have hinside := @readFrom_inside reader
            { place with number := place.number + 1, column := 0, last := none } line (others ++ more) hdepth
            rfl rfl
          rw [hsplit, List.cons_append, ← hinside] at hmore
          rw [ArrayToken.lines, List.cons_append, readWithin_lineEnd, hsplit, List.cons_append,
            ArrayToken.entries, hmore]
          have hnumber : place.number + 1 + (others.length + 1)
              = place.number + (others.length + 1 + 1) := by omega
          simp only [List.length_cons, hnumber]

end ReadWithin

end ManifestReader

/-! ### Arrays -/

/-- A value without quotes, such as a number or a date. -/
structure BareScalar where
  text : List Char
  text_ne_nil : text ≠ []
  head : HeadNot isBlank text
  all : ∀ c ∈ text, isQuote c = false ∧ c ∉ "#[],\x7b\x7d".toList

/-- What may stand between two parts of an array: any number of line ends, each maybe behind a comment,
and blanks. -/
structure ArrayGap where
  endings : List LineEnd
  indent : List Char
  indent_blank : IsBlankRun indent

def ArrayGap.tokens (gap : ArrayGap) : List ArrayToken := gap.endings.map .lineEnd ++ [.code gap.indent]

mutual

/-- A value of an array, which may be an array itself. -/
inductive ArrayItem where
  | string (string : WrittenString)
  | scalar (scalar : BareScalar)
  | array (gap : ArrayGap) (body : ArrayBody)

/-- What follows the opening bracket of an array and the gap behind it, up to the closing bracket. The
last value may have a comma behind it. -/
inductive ArrayBody where
  | close
  | last (item : ArrayItem) (gap : ArrayGap)
  | next (item : ArrayItem) (before after : ArrayGap) (rest : ArrayBody)

end

mutual

def ArrayItem.tokens : ArrayItem → List ArrayToken
  | .string string => [.quoted string]
  | .scalar scalar => [.code scalar.text]
  | .array gap body => .code ['['] :: (gap.tokens ++ body.tokens)

def ArrayBody.tokens : ArrayBody → List ArrayToken
  | .close => [.code [']']]
  | .last item gap => item.tokens ++ (gap.tokens ++ [.code [']']])
  | .next item before after rest =>
      item.tokens ++ (before.tokens ++ .code [','] :: (after.tokens ++ rest.tokens))

end

section Tree

variable {depth : Int} {last : Option Char} {rest : List ArrayToken}

theorem bracketBalance_scalar {text : List Char}
    (h : ∀ c ∈ text, isQuote c = false ∧ c ∉ "#[],\x7b\x7d".toList) : bracketBalance none text = 0 := by
  induction text with
  | nil => rfl
  | cons c more ih =>
      obtain ⟨hquote, hmark⟩ := h c (by simp)
      have hbracket : c ≠ '[' ∧ c ≠ ']' := by
        refine ⟨?_, ?_⟩ <;> rintro rfl <;> exact hmark (by decide)
      have hmore := ih fun x hx => h x (List.mem_cons_of_mem c hx)
      simp [bracketBalance, quoteAfter, hquote, hbracket, hmore]

theorem BareScalar.isPlain (scalar : BareScalar) : IsPlain scalar.text := by
  intro c hc
  obtain ⟨hquote, hmark⟩ := scalar.all c hc
  refine ⟨hquote, ?_⟩
  rintro rfl
  exact hmark (by decide)

/-- Behind a gap the last visible character is the one before it or, on a new line, none. -/
theorem ArrayGap.closesFrom (gap : ArrayGap) (hdepth : 0 < depth)
    (hsame : ArrayToken.ClosesFrom depth last rest) (hnew : ArrayToken.ClosesFrom depth none rest) :
    ArrayToken.ClosesFrom depth last (gap.tokens ++ rest) := by
  have hindent : ∀ {last}, ArrayToken.ClosesFrom depth last rest →
      ArrayToken.ClosesFrom depth last (.code gap.indent :: rest) := by
    intro last h
    refine ⟨isPlain_of_isBlankRun gap.indent_blank, ?_⟩
    rwa [bracketBalance_blanks gap.indent_blank, Int.add_zero, lastVisible_of_isBlankRun gap.indent_blank]
  rw [ArrayGap.tokens, List.append_assoc]
  induction gap.endings generalizing last with
  | nil => exact hindent hsame
  | cons ending more ih => exact ⟨hdepth, ih hnew⟩

theorem ArrayToken.closesFrom_mark {c : Char} {balance : Int}
    (hc : isQuote c = false ∧ c ≠ '#' ∧ isBlank c = false) (hbalance : bracketBalance none [c] = balance)
    (h : ClosesFrom (depth + balance) (some c) rest) : ClosesFrom depth last (.code [c] :: rest) := by
  refine ⟨?_, ?_⟩
  · intro x hx
    obtain rfl := List.mem_singleton.mp hx
    exact ⟨hc.1, hc.2.1⟩
  · have hlast : lastVisible last [c] = some c := by simp [lastVisible, hc.2.2]
    rwa [hbalance, hlast]

end Tree

mutual

/-- Where an element may open, a value leaves as many brackets open as there were. -/
theorem ArrayItem.closesFrom (item : ArrayItem) {depth : Int} {last : Option Char}
    {rest : List ArrayToken} (hdepth : 0 < depth) (hopens : QuotedString.opensElement last = true)
    (hrest : ∀ last, ArrayToken.ClosesFrom depth last rest) :
    ArrayToken.ClosesFrom depth last (item.tokens ++ rest) := by
  cases item with
  | string string => exact ⟨hopens, hrest _⟩
  | scalar scalar =>
      refine ⟨scalar.isPlain, ?_⟩
      rw [bracketBalance_scalar scalar.all, Int.add_zero]
      exact hrest _
  | array gap body =>
      have hbody : ∀ last, QuotedString.opensElement last = true →
          ArrayToken.ClosesFrom (depth + 1) last (body.tokens ++ rest) := by
        intro last hlast
        refine body.closesFrom (by omega) hlast fun last => ?_
        rw [Int.add_sub_cancel]
        exact hrest last
      rw [ArrayItem.tokens, List.cons_append, List.append_assoc]
      exact ArrayToken.closesFrom_mark (by decide) (by decide : bracketBalance none ['['] = 1)
        (gap.closesFrom (by omega) (hbody _ rfl) (hbody _ rfl))

/-- The rest of an array closes its bracket. -/
theorem ArrayBody.closesFrom (body : ArrayBody) {depth : Int} {last : Option Char}
    {rest : List ArrayToken} (hdepth : 0 < depth) (hopens : QuotedString.opensElement last = true)
    (hrest : ∀ last, ArrayToken.ClosesFrom (depth - 1) last rest) :
    ArrayToken.ClosesFrom depth last (body.tokens ++ rest) := by
  have hclose : ∀ last, ArrayToken.ClosesFrom depth last (.code [']'] :: rest) := fun last =>
    ArrayToken.closesFrom_mark (by decide) (by decide : bracketBalance none [']'] = -1) (hrest _)
  cases body with
  | close => exact hclose last
  | last item gap =>
      rw [ArrayBody.tokens, List.append_assoc, List.append_assoc]
      exact item.closesFrom hdepth hopens fun last => gap.closesFrom hdepth (hclose _) (hclose _)
  | next item before after more =>
      have hmore : ∀ last, QuotedString.opensElement last = true →
          ArrayToken.ClosesFrom depth last (more.tokens ++ rest) := fun last hlast =>
        more.closesFrom hdepth hlast hrest
      have hcomma : ∀ last, ArrayToken.ClosesFrom depth last
          (.code [','] :: (after.tokens ++ (more.tokens ++ rest))) := by
        intro last
        refine ArrayToken.closesFrom_mark (by decide) (by decide : bracketBalance none [','] = 0) ?_
        rw [Int.add_zero]
        exact after.closesFrom hdepth (hmore _ rfl) (hmore _ rfl)
      simp only [ArrayBody.tokens, List.append_assoc, List.cons_append]
      exact item.closesFrom hdepth hopens fun last => before.closesFrom hdepth (hcomma _) (hcomma _)

end

/-- An array that is the value of a key: the key with the blanks behind its equals sign, the array, and the
end of its last line. -/
structure WrittenArray where
  key : DottedName
  after : List Char
  gap : ArrayGap
  body : ArrayBody
  ending : LineEnd
  after_blank : IsBlankRun after

namespace WrittenArray

def tokens (array : WrittenArray) : List ArrayToken := (ArrayItem.array array.gap array.body).tokens

def front (array : WrittenArray) : List Char := array.key.text ++ '=' :: array.after

def lines (array : WrittenArray) : List (List Char) :=
  beforeFirst array.front (ArrayToken.lines array.ending.text array.tokens)

theorem isPlain_front (array : WrittenArray) : IsPlain array.front := by
  intro c hc
  rcases List.mem_append.mp hc with hc | hc
  · exact DottedName.isPlain_text c hc
  · rcases List.mem_cons.mp hc with rfl | hc
    · decide
    · exact isPlain_of_isBlankRun array.after_blank c hc

theorem closesFrom_tokens (array : WrittenArray) (last : Option Char) :
    ArrayToken.ClosesFrom 0 last array.tokens := by
  have hbody : ∀ last, QuotedString.opensElement last = true →
      ArrayToken.ClosesFrom 1 last (array.body.tokens ++ []) := fun last hlast =>
    array.body.closesFrom (by decide) hlast fun last => rfl
  have hgap := array.gap.closesFrom (by decide) (hbody (some '[') rfl) (hbody none rfl)
  rw [List.append_nil] at hgap
  exact ArrayToken.closesFrom_mark (by decide) (by decide : bracketBalance none ['['] = 1) hgap

/-- **A written array** yields what its strings state, if its key is that of a group, and the reader
stands outside arrays behind it. -/
theorem readFrom_lines (array : WrittenArray) (reader : ManifestReader) (table : Option (List Char))
    (group : Option Group) (number : Nat) (more : List (List Char))
    (hlines : ∀ line ∈ array.lines, '\n' ∉ line) :
    (reader.readFrom ⟨table, group, 0⟩ number (array.lines ++ more)).map Dependency.entry
      = ArrayToken.entries reader.rule (Group.ofTable? table (some array.key.name)) number array.tokens
          ++ (reader.readFrom ⟨table, Group.ofTable? table (some array.key.name), 0⟩
              (number + array.lines.length) more).map Dependency.entry := by
  obtain ⟨line, others, hsplit⟩ := ArrayToken.exists_lines array.ending.text
    (array.gap.tokens ++ array.body.tokens)
  have htokens : ArrayToken.lines array.ending.text array.tokens = ('[' :: line) :: others := by
    rw [tokens, ArrayItem.tokens, ArrayToken.lines, hsplit]
    rfl
  simp only [lines, htokens, beforeFirst, List.mem_cons, forall_eq_or_imp] at hlines
  have hfeed : '\n' ∉ '[' :: line := fun hmem => hlines.1 (List.mem_append_right _ hmem)
  have hcode : codePart (array.front ++ '[' :: line) = array.front ++ '[' :: codePart line :=
    codeFrom_plain array.isPlain_front
  have hkey : array.front ++ '[' :: codePart line
      = array.key.text ++ '=' :: (array.after ++ '[' :: codePart line) := by simp [front]
  have hopened : openedArray? (codePart (array.front ++ '[' :: line))
      = some (array.key.name, '[' :: codePart line) := by
    rw [hcode, hkey, openedArray?_key array.key array.after_blank (headNot_cons.mpr (by decide))]
    rfl
  have hheader : tableHeader? (array.front ++ '[' :: line) = none :=
    tableHeader?_key array.key (hcode.trans hkey)
  have hstrings : QuotedString.elementsOfLine (array.front ++ '[' :: line)
      = (QuotedString.stringsFrom array.front.length (lastVisible none array.front)
          ('[' :: line)).filter QuotedString.isElement := by
    have hplain : QuotedString.stringsFrom 0 none (array.front ++ '[' :: line) = _ :=
      QuotedString.stringsFrom_plain array.isPlain_front
    rw [Nat.zero_add] at hplain
    rw [← hplain]
    rfl
  -- From the bracket on the line is one within the array, before whose bracket none is open.
  have hread : reader.readFrom ⟨table, group, 0⟩ number (array.lines ++ more)
      = reader.readWithin ⟨table, Group.ofTable? table (some array.key.name), 0, number,
          array.front.length, lastVisible none array.front⟩
          (ArrayToken.lines array.ending.text array.tokens ++ more) := by
    rw [lines, htokens, beforeFirst, List.cons_append, List.cons_append, ManifestReader.readFrom_cons,
      ManifestReader.step_opening (Int.le_refl 0) hheader hopened,
      ManifestReader.arrayEntries_group reader, hstrings, ManifestReader.readWithin, Int.zero_add]
    rfl
  have htoken := @ManifestReader.readWithin_tokens reader
    ⟨table, Group.ofTable? table (some array.key.name), 0, number, array.front.length,
      lastVisible none array.front⟩ array.tokens array.ending more (array.closesFrom_tokens _) (by
        rw [htokens]
        exact List.forall_mem_cons.mpr ⟨hfeed, hlines.2⟩)
  rw [hread, htoken, lines, htokens]
  rfl

end WrittenArray

end ManifestLens
