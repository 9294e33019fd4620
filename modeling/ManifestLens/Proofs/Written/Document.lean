import ManifestLens.Proofs.Manifest.Placement
import ManifestLens.Proofs.Text.Lines
import ManifestLens.Proofs.Written.Value

/-!
# Written documents

A document is a list of tables, each with its header, its pairs and its arrays, and with blank and comment
lines between them. The reader goes through it line by line; between two items it stands outside arrays in
the table of the last header, so it finds in each item what the item states there, and nothing else. All
this is about the lines that were written: a character in a comment or a string at which the text breaks
all the same makes two lines of one.
-/

namespace ManifestLens

open Text

/-! ### Tables -/

/-- A line or an array of a table. -/
inductive TableItem where
  | blank (ending : LineEnd)
  | pair (written : WrittenPair)
  | array (written : WrittenArray)

namespace TableItem

def lines : TableItem → List (List Char)
  | .blank ending => [ending.text]
  | .pair written => [written.text]
  | .array written => written.lines

/-- The entries that the item states in a table, where its first line has the given number. -/
def entries (rule : NameRule) (table : List Char) (number : Nat) : TableItem → List ManifestEntry
  | .blank _ => []
  | .pair written => written.entries rule table number
  | .array written =>
      ArrayToken.entries rule (Group.ofTable? (some table) (some written.key.name)) number written.tokens

def allEntries (rule : NameRule) (table : List Char) (number : Nat) : List TableItem → List ManifestEntry
  | [] => []
  | item :: rest =>
      item.entries rule table number ++ allEntries rule table (number + item.lines.length) rest

end TableItem

/-- A table: its header and its items. -/
structure WrittenTable where
  header : WrittenHeader
  items : List TableItem

namespace WrittenTable

def lines (table : WrittenTable) : List (List Char) :=
  table.header.text :: table.items.flatMap TableItem.lines

def entries (rule : NameRule) (number : Nat) (table : WrittenTable) : List ManifestEntry :=
  TableItem.allEntries rule table.header.written.name (number + 1) table.items

def allEntries (rule : NameRule) (number : Nat) : List WrittenTable → List ManifestEntry
  | [] => []
  | table :: rest => table.entries rule number ++ allEntries rule (number + table.lines.length) rest

end WrittenTable

/-- A document: tables, and blank and comment lines before the first one. -/
structure WrittenDocument where
  preamble : List LineEnd
  tables : List WrittenTable

namespace WrittenDocument

def lines (document : WrittenDocument) : List (List Char) :=
  document.preamble.map LineEnd.text ++ document.tables.flatMap WrittenTable.lines

def entries (document : WrittenDocument) (rule : NameRule) : List ManifestEntry :=
  WrittenTable.allEntries rule document.preamble.length document.tables

def extend (document : WrittenDocument) (table : WrittenTable) : WrittenDocument :=
  { document with tables := document.tables ++ [table] }

end WrittenDocument

/-! ### Reading items -/

theorem read?_blanks {run : List Char} (h : IsBlankRun run) : TableKey.read? run = none := by
  have htake : run.takeWhile isBlank = run := takeWhile_all h
  simp [TableKey.read?, htake]

theorem openedArray?_blanks {run : List Char} (h : IsBlankRun run) : openedArray? run = none := by
  have hread : dottedKeyFrom .expecting [] (run ++ []) = _ := dottedKeyFrom_blanks h
  rw [List.append_nil] at hread
  simp [openedArray?, hread, dottedKeyFrom]

theorem headerName?_blanks {run : List Char} (h : IsBlankRun run) : headerName? run = none := by
  have htrim : trimLeft run = [] := by simpa using trimLeft_margin h headNot_nil
  rw [headerName?, htrim]

namespace ManifestReader

variable {reader : ManifestReader} {more : List (List Char)}

theorem readFrom_outside (reader : ManifestReader) (table : Option (List Char)) (group : Option Group)
    (number : Nat) (lines : List (List Char)) :
    reader.readFrom ⟨table, group, 0⟩ number lines = reader.readFrom ⟨table, none, 0⟩ number lines := by
  cases lines with
  | nil => rfl
  | cons line rest => simp [readFrom_cons, step]

theorem readFrom_blank (reader : ManifestReader) (table : Option (List Char)) (number : Nat)
    (ending : LineEnd) (more : List (List Char)) :
    reader.readFrom ⟨table, none, 0⟩ number (ending.text :: more)
      = reader.readFrom ⟨table, none, 0⟩ (number + 1) more := by
  have hcode : codePart ending.text = ending.blanks :=
    ending.codePart_text (IsCode.of_isBlankRun isBlankRun_nil)
  have hblanks := ending.blanks_blank
  have hentries : ∀ table, reader.tableEntries ending.text number table = [] := by
    intro table
    rw [tableEntries]
    split
    · rfl
    · rw [versionKeyDependency?, hcode, read?_blanks hblanks]
      rfl
    · rw [tableDependencies, hcode, entryOfTable?, read?_blanks hblanks]
      rfl
  have hheader : tableHeader? ending.text = none := by
    rw [tableHeader?, hcode, headerName?_blanks hblanks, Option.map_none]
  have hopened : openedArray? (codePart ending.text) = none := by
    rw [hcode, openedArray?_blanks hblanks]
  rw [readFrom_cons, step_entry (Int.le_refl 0) hheader hopened]
  cases table <;> simp [hentries]

/-- **An item** yields what it states in the table where the reader stands, and behind it the reader
stands there again. -/
theorem readFrom_item (item : TableItem) (table : List Char) (number : Nat)
    (hlines : ∀ line ∈ item.lines, '\n' ∉ line) :
    (reader.readFrom ⟨some table, none, 0⟩ number (item.lines ++ more)).map Dependency.entry
      = item.entries reader.rule table number
          ++ (reader.readFrom ⟨some table, none, 0⟩ (number + item.lines.length) more).map
            Dependency.entry := by
  cases item with
  | blank ending => rw [TableItem.lines, List.singleton_append, readFrom_blank]; rfl
  | pair pair =>
      have hline : '\n' ∉ pair.text := hlines _ (List.mem_singleton.mpr rfl)
      rw [TableItem.lines, List.singleton_append, readFrom_cons,
        step_entry (Int.le_refl 0) pair.tableHeader?_text pair.openedArray?_text, List.map_append,
        Option.map_some, Option.getD_some, pair.tableEntries_text reader table number hline]
      rfl
  | array array =>
      rw [TableItem.lines, array.readFrom_lines reader (some table) none number more hlines,
        readFrom_outside]
      rfl

theorem readFrom_items (items : List TableItem) (table : List Char) (number : Nat)
    (hlines : ∀ line ∈ items.flatMap TableItem.lines, '\n' ∉ line) :
    (reader.readFrom ⟨some table, none, 0⟩ number (items.flatMap TableItem.lines ++ more)).map
        Dependency.entry
      = TableItem.allEntries reader.rule table number items
          ++ (reader.readFrom ⟨some table, none, 0⟩
              (number + (items.flatMap TableItem.lines).length) more).map Dependency.entry := by
  induction items generalizing number with
  | nil => rfl
  | cons item rest ih =>
      rw [List.flatMap_cons] at hlines ⊢
      have hitem := @readFrom_item reader (rest.flatMap TableItem.lines ++ more) item table number
        fun line hline => hlines line (List.mem_append_left _ hline)
      have hrest := ih (number + item.lines.length) fun line hline =>
        hlines line (List.mem_append_right _ hline)
      rw [List.append_assoc, hitem, hrest, TableItem.allEntries, List.length_append, List.append_assoc,
        Nat.add_assoc]

/-- **A table** yields what its items state, whatever table the reader comes from. -/
theorem readFrom_tables (tables : List WrittenTable) (from? : Option (List Char)) (number : Nat)
    (hlines : ∀ line ∈ tables.flatMap WrittenTable.lines, '\n' ∉ line) :
    (reader.readFrom ⟨from?, none, 0⟩ number (tables.flatMap WrittenTable.lines)).map Dependency.entry
      = WrittenTable.allEntries reader.rule number tables := by
  induction tables generalizing from? number with
  | nil => rfl
  | cons table rest ih =>
      rw [List.flatMap_cons] at hlines ⊢
      simp only [WrittenTable.lines, List.cons_append, List.mem_cons, forall_eq_or_imp] at hlines
      have hitems := @readFrom_items reader (rest.flatMap WrittenTable.lines) table.items
        table.header.written.name (number + 1) fun line hline =>
          hlines.2 line (List.mem_append_left _ hline)
      have hrest := ih (some table.header.written.name)
        (number + 1 + (table.items.flatMap TableItem.lines).length) fun line hline =>
          hlines.2 line (List.mem_append_right _ hline)
      rw [WrittenTable.lines, List.cons_append, readFrom_cons,
        step_header (Int.le_refl 0) table.header.tableHeader?_text, List.nil_append, hitems, hrest,
        WrittenTable.allEntries, WrittenTable.entries, WrittenTable.lines, List.length_cons]
      have hnumber : number + 1 + (table.items.flatMap TableItem.lines).length
          = number + ((table.items.flatMap TableItem.lines).length + 1) := by omega
      rw [hnumber]

theorem readFrom_preamble (preamble : List LineEnd) (number : Nat) (more : List (List Char)) :
    reader.readFrom .start number (preamble.map LineEnd.text ++ more)
      = reader.readFrom .start (number + preamble.length) more := by
  induction preamble generalizing number with
  | nil => rfl
  | cons ending rest ih =>
      have hrest := ih (number + 1)
      rw [DocumentState.start] at hrest ⊢
      rw [List.map_cons, List.cons_append, readFrom_blank, hrest, List.length_cons, Nat.add_assoc,
        Nat.add_comm 1]

theorem readAll_lines (document : WrittenDocument) (hlines : ∀ line ∈ document.lines, '\n' ∉ line) :
    (reader.readAll .pyproject document.lines).map Dependency.entry = document.entries reader.rule := by
  rw [readAll, WrittenDocument.lines, readFrom_preamble, Nat.zero_add, WrittenDocument.entries]
  exact readFrom_tables document.tables none _ fun line hline =>
    hlines line (List.mem_append_right _ hline)

end ManifestReader

/-! ### Where the lines are others -/

def longVersion (count : Nat) : List Char := List.replicate (count + 1) '1'

theorem longVersion_all {count : Nat} {c : Char} (hc : c ∈ longVersion count) : c = '1' :=
  List.eq_of_mem_replicate hc

theorem isPlainVersion_longVersion (count : Nat) : IsPlainVersion (longVersion count) where
  head := ⟨'1', _, List.replicate_succ, by decide⟩
  all := fun c hc => by
    rw [longVersion_all hc]
    decide

/-- The requirement on a package of exactly the long version. -/
def longRequirement (count : Nat) : WrittenRequirement where
  statement := ⟨"aa".toList, [], [⟨.standard .equal, [], longVersion count, isBlankRun_nil,
    isPlainVersion_longVersion count⟩], by simp⟩
  indent := []
  gap := []
  trail := []
  marker := none
  indent_blank := isBlankRun_nil
  gap_blank := isBlankRun_nil
  trail_blank := isBlankRun_nil
  gap_of_bare := fun h => by cases h

def longString (count : Nat) : WrittenString where
  quote := '"'
  content := "aa==".toList ++ longVersion count
  quote_isQuote := rfl
  closed := by
    intro hmem
    rcases List.mem_append.mp hmem with hmem | hmem
    · revert hmem
      decide
    · exact absurd (longVersion_all hmem) (by decide)

def longTable (count : Nat) : WrittenTable where
  header := ⟨[], false, .bare ⟨[], "project".toList, [], isBlankRun_nil, by decide, by decide,
    isBlankRun_nil⟩, .plain, isBlankRun_nil⟩
  items := [.array ⟨.bare ⟨[], "dependencies".toList, [], isBlankRun_nil, by decide, by decide,
    isBlankRun_nil⟩, [], ⟨[], [], isBlankRun_nil⟩, .last (.string (longString count))
      ⟨[], [], isBlankRun_nil⟩, .plain, isBlankRun_nil⟩]

theorem lines_longTable (count : Nat) : (longTable count).lines
    = ["[project]".toList, "dependencies=[\"aa==".toList ++ (longVersion count ++ "\"]".toList)] := by
  simp [longTable, longString, WrittenTable.lines, WrittenHeader.text, WrittenHeader.code,
    WrittenHeader.brackets, DottedName.text, BarePart.text, LineEnd.text, LineEnd.plain,
    LineEnd.commentText, TableItem.lines, WrittenArray.lines, WrittenArray.front, WrittenArray.tokens,
    ArrayItem.tokens, ArrayBody.tokens, ArrayGap.tokens, ArrayToken.lines, beforeFirst,
    WrittenString.text]

def longEntry (count number : Nat) : ManifestEntry :=
  ⟨number, "aa".toList, "==".toList ++ longVersion count, [], .main, .array⟩

theorem states?_longString (count number : Nat) :
    (longString count).states? NameRule.standard number .main = some (longEntry count number) := by
  have htext : (longRequirement count).text = (longString count).content := by
    simp [longRequirement, longString, WrittenRequirement.text, Statement.line, Statement.head,
      Statement.bracket, Statement.constraint, markerText, joinWith, WrittenPiece.text, Operator.text,
      Relation.text, bracketText]
  have haccepts : NameRule.standard.accepts "aa".toList = true := by decide
  have hfeed : '\n' ∉ "aa".toList := by decide
  have hplain : QuotedString.plainDependency? NameRule.standard number .main
      ⟨0, (longString count).content, true⟩ = some ((longRequirement count).dependency number .main 0) := by
    rw [QuotedString.plainDependency?, ← htext]
    exact WrittenRequirement.read?_text number .main haccepts
      (isWrittenName_of_accepts haccepts hfeed) 0
  rw [WrittenString.states?, QuotedString.dependency?, hplain]
  rfl

theorem entries_longTable (count number : Nat) :
    (longTable count).entries NameRule.standard number = [longEntry count (number + 1)] := by
  have hgroup : Group.ofTable? (some "project".toList) (some "dependencies".toList) = some .main := by
    decide
  have hentries : (longTable count).entries NameRule.standard number
      = ((Group.ofTable? (some "project".toList) (some "dependencies".toList)).bind
          ((longString count).states? NameRule.standard (number + 1))).toList ++ [] ++ [] := rfl
  rw [hentries, hgroup, Option.bind_some, states?_longString]
  rfl

theorem isUnbroken_lines_longTable (count : Nat) : ∀ line ∈ (longTable count).lines, IsUnbroken line := by
  have hlong : IsUnbroken (longVersion count) := fun c hc => by
    rw [longVersion_all hc]
    decide
  have hplain : IsUnbroken "[project]".toList ∧ IsUnbroken "dependencies=[\"aa==".toList ∧
      IsUnbroken "\"]".toList := by
    unfold IsUnbroken
    decide
  rw [lines_longTable]
  intro line hline
  simp only [List.mem_cons, List.not_mem_nil, or_false] at hline
  rcases hline with rfl | rfl
  · exact hplain.1
  · exact hplain.2.1.append (hlong.append hplain.2.2)

namespace WrittenDocument

theorem lines_extend (document : WrittenDocument) (table : WrittenTable) :
    (document.extend table).lines = document.lines ++ table.lines := by
  simp [extend, lines]

theorem mem_entries_extend (document : WrittenDocument) {table : WrittenTable} {rule : NameRule}
    {entry : ManifestEntry} (h : entry ∈ table.entries rule document.lines.length) :
    entry ∈ (document.extend table).entries rule := by
  have htables : ∀ (tables : List WrittenTable) (number : Nat),
      entry ∈ table.entries rule (number + (tables.flatMap WrittenTable.lines).length) →
        entry ∈ WrittenTable.allEntries rule number (tables ++ [table]) := by
    intro tables
    induction tables with
    | nil => exact fun number h => List.mem_append_left _ h
    | cons first rest ih =>
        intro number h
        refine List.mem_append_right _ (ih _ ?_)
        rwa [List.flatMap_cons, List.length_append, ← Nat.add_assoc] at h
  refine htables document.tables document.preamble.length ?_
  rwa [lines, List.length_append, List.length_map] at h

/-- Behind a break within a written line every entry is found further down than it is written, so one
that was longer than all lines before it is not found where it is written. -/
theorem exists_misread (document : WrittenDocument)
    (hwhole : ∀ line ∈ document.lines, '\n' ∉ line ∧ '\r' ∉ line)
    (hbroken : ∃ line ∈ document.lines, ¬IsUnbroken line) :
    ∃ table : WrittenTable, (∀ line ∈ table.lines, IsUnbroken line) ∧
      (ManifestReader.standard.readText (withLineFeeds (document.extend table).lines)).map
          Dependency.entry
        ≠ (document.extend table).entries NameRule.standard := by
  generalize hfirst : splitLines (withLineFeeds document.lines) = first
  have hlonger : document.lines.length < first.length := by
    rw [← hfirst]
    refine length_lt_length_splitLines (fun line hline => (hwhole line hline).1) ?_
    obtain ⟨line, hline, hbreaks⟩ := hbroken
    simp only [IsUnbroken, not_forall, Bool.not_eq_false] at hbreaks
    obtain ⟨c, hc, hbreak⟩ := hbreaks
    refine ⟨line, hline, breaksPlainly_eq_false hc hbreak ?_ ?_⟩ <;> rintro rfl
    · exact (hwhole line hline).1 hc
    · exact (hwhole line hline).2 hc
  let count := first.flatten.length + 9
  have hunbroken := isUnbroken_lines_longTable count
  have hsplit : splitLines (withLineFeeds (document.extend (longTable count)).lines)
      = first ++ (longTable count).lines := by
    have happend : withLineFeeds (document.lines ++ (longTable count).lines)
        = withLineFeeds document.lines ++ withLineFeeds (longTable count).lines := by
      simp [withLineFeeds]
    rw [lines_extend, happend, splitLines_withLineFeeds_append, hfirst,
      splitLines_of_written (written_withLineFeeds hunbroken)]
  have hlines : ∀ line ∈ first ++ (longTable count).lines, '\n' ∉ line := by
    intro line hline
    rw [← hsplit] at hline
    exact (isUnbroken_of_mem_splitLinesFrom isUnbroken_nil hline).notMem (by decide)
  refine ⟨longTable count, hunbroken, fun hread => ?_⟩
  have hmem : longEntry count (document.lines.length + 1)
      ∈ (document.extend (longTable count)).entries NameRule.standard :=
    document.mem_entries_extend (by rw [entries_longTable]; exact List.mem_singleton.mpr rfl)
  rw [← hread, ManifestReader.readText, hsplit] at hmem
  obtain ⟨d, hd, hentry⟩ := List.mem_map.mp hmem
  obtain ⟨line, hline, hstands⟩ := ManifestReader.standsOn_of_mem_readAll hlines hd
  have hnumber : d.line = document.lines.length + 1 := congrArg ManifestEntry.line hentry
  have hconstraint : d.constraint = "==".toList ++ longVersion count :=
    congrArg ManifestEntry.constraint hentry
  -- The constraint is longer than any line it could be on.
  have hlong : count + 3 ≤ line.length := by
    have hstop := Span.stop_le_of_covers hstands.covers
    obtain ⟨before, after, -, hspan⟩ := hstands.covers
    rw [hspan, hconstraint, Span.stop] at hstop
    simp [longVersion] at hstop
    omega
  rw [hnumber] at hline
  rcases Nat.lt_or_ge (document.lines.length + 1) first.length with hless | hge
  · rw [List.getElem?_append_left hless] at hline
    have hshort : line.length ≤ first.flatten.length :=
      (List.sublist_flatten_of_mem (List.mem_of_getElem? hline)).length_le
    omega
  · rw [List.getElem?_append_right hge, lines_longTable] at hline
    have hindex : document.lines.length + 1 - first.length = 0 := by omega
    rw [hindex] at hline
    obtain rfl := Option.some.inj hline
    have : "[project]".toList.length = 9 := by decide
    omega

end WrittenDocument

/-- **Documents are read as they were written exactly where their lines do not break.** However the values
of a document are laid out, the entries that are read are those that its tables and arrays state, on the
lines where they stand, and no others. If there is a break within one of its lines, as in a comment or in a
string, some table put at the end of the document is misread. -/
theorem readText_written (document : WrittenDocument) :
    (∀ (reader : ManifestReader) (text : List Char), WrittenLines document.lines text →
      (reader.readText text).map Dependency.entry = document.entries reader.rule) ∧
    ((∀ line ∈ document.lines, '\n' ∉ line ∧ '\r' ∉ line) →
      (∃ line ∈ document.lines, ¬IsUnbroken line) →
        ∃ table : WrittenTable, (∀ line ∈ table.lines, IsUnbroken line) ∧
          (ManifestReader.standard.readText (withLineFeeds (document.extend table).lines)).map
              Dependency.entry
            ≠ (document.extend table).entries NameRule.standard) := by
  refine ⟨fun reader text h => ?_, document.exists_misread⟩
  rw [ManifestReader.readText, splitLines_of_written h]
  exact ManifestReader.readAll_lines document fun line hline =>
    (isUnbroken_of_mem h hline).notMem (by decide)

def plainName (name : List Char) (hne : name ≠ []) (hbare : ∀ c ∈ name, isBareKeyChar c = true) :
    DottedName :=
  .bare ⟨[], name, [], isBlankRun_nil, hne, hbare, isBlankRun_nil⟩

/-- The table `[project]` with an array of two strings on three lines. -/
def sampleTable (comment : List Char) : WrittenTable where
  header := ⟨[], false, plainName "project".toList (by decide) (by decide), .plain, isBlankRun_nil⟩
  items :=
    [.blank ⟨[], some comment, isBlankRun_nil⟩,
      .array
        { key := plainName "dependencies".toList (by decide) (by decide)
          after := []
          gap := ⟨[⟨[], some " ] \"x\"".toList, isBlankRun_nil⟩], [], isBlankRun_nil⟩
          body := .next (.string ⟨'"', "requests>=2".toList, by decide, by decide⟩)
            ⟨[], [], isBlankRun_nil⟩ ⟨[.plain], [], isBlankRun_nil⟩
            (.last (.string ⟨'\'', "flask".toList, by decide, by decide⟩) ⟨[], [], isBlankRun_nil⟩)
          ending := .plain
          after_blank := isBlankRun_nil }]

/-- An array on three lines is read, with a bracket in the comment behind its own; with a line separator in
the comment before it some table further down is not. -/
theorem readText_written_array :
    (ManifestReader.standard.readText
        "[project]\n# a\ndependencies=[# ] \"x\"\n\"requests>=2\",\n'flask']\n".toList).map Dependency.entry
      = [⟨3, "requests".toList, ">=2".toList, [], .main, .array⟩,
          ⟨4, "flask".toList, [], [], .main, .array⟩] ∧
    ∃ table : WrittenTable,
      (ManifestReader.standard.readText (withLineFeeds
          ((WrittenDocument.mk [] [sampleTable [' ', 'a', '\u2028']]).extend table).lines)).map
            Dependency.entry
        ≠ ((WrittenDocument.mk [] [sampleTable [' ', 'a', '\u2028']]).extend table).entries
          NameRule.standard := by
  refine ⟨?_, ?_⟩
  · have hunbroken : ∀ line ∈ (WrittenDocument.mk [] [sampleTable " a".toList]).lines, IsUnbroken line := by
      unfold IsUnbroken
      decide
    have hread := (readText_written (WrittenDocument.mk [] [sampleTable " a".toList])).1 .standard _
      (written_withLineFeeds hunbroken)
    exact hread
  · obtain ⟨table, -, hmisread⟩ := (readText_written
      (WrittenDocument.mk [] [sampleTable [' ', 'a', '\u2028']])).2 (by decide)
      ⟨['#', ' ', 'a', '\u2028'], by decide, fun h => absurd (h '\u2028' (by decide)) (by decide)⟩
    exact ⟨table, hmisread⟩

end ManifestLens
