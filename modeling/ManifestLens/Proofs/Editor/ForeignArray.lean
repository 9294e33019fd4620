import ManifestLens.Proofs.Editor.Line
import ManifestLens.Proofs.Manifest.Slices
import ManifestLens.Proofs.Manifest.Completion

/-!
# Arrays that hold no dependencies

A document reports nothing on the lines of an array that holds no dependencies. The editor asks the document
first; where that knows nothing of a line, the line is read by itself under the nearest header, and the key of the
array is forgotten. So nothing is offered on such a line just if it states nothing by itself.
-/

namespace ManifestLens

open Text

/-! ### Lines by themselves -/

/-- The string reads as a requirement on a package that the rule accepts, in one of the two forms. -/
def QuotedString.States (rule : NameRule) (s : QuotedString) : Prop :=
  ∃ r, (Requirement.read? s.content s.column = some r ∨
    Requirement.readParenthesized? s.content s.column = some r) ∧ rule.accepts r.name = true

/-- The line reads as an entry of a Poetry table. -/
def StatesEntry (rule : NameRule) (line : List Char) : Prop :=
  ∃ r, entryOfTable? (codePart line) = some r ∧ rule.accepts r.name = true

/-- The line reads as the version of a package that has a table of its own. -/
def StatesVersion (rule : NameRule) (package line : List Char) : Prop :=
  ∃ key span r, TableKey.read? (codePart line) = some key ∧ key.isBare = true ∧ key.name = "version".toList ∧
    stringValue? key.valueColumn key.value = some span ∧
    tableRequirement? (codePart line) package key.span [] span = some r ∧ rule.accepts r.name = true

/-- The line states a dependency where no more is known of its place than the table that a header has opened. -/
def StatesUnder (rule : NameRule) (table : Option (List Char)) (line : List Char) : Prop :=
  match table.bind PoetryTable.ofTable? with
  | some ⟨_, some package⟩ => StatesVersion rule package line
  | some ⟨_, none⟩ => StatesEntry rule line
  | none => (∃ s ∈ QuotedString.elementsOfLine line, s.States rule) ∨ table = none ∧ StatesEntry rule line

theorem addDisjoint_eq_nil_iff {found batch : List Dependency} :
    addDisjoint found batch = [] ↔ found = [] ∧ batch = [] := by
  constructor
  · intro h
    have hkept : ∀ {found batch : List Dependency}, addDisjoint found batch = [] → found = [] := fun h =>
      List.eq_nil_iff_forall_not_mem.mpr fun d hd => List.not_mem_nil (h ▸ mem_addDisjoint_of_mem hd)
    obtain rfl := hkept h
    cases batch with
    | nil => exact ⟨rfl, rfl⟩
    | cons d rest =>
        have hfirst : addDisjoint [d] rest = [] := h
        cases hkept hfirst
  · rintro ⟨rfl, rfl⟩
    rfl

theorem mergeEntries_eq_nil_iff {batches : List (List Dependency)} :
    mergeEntries batches = [] ↔ ∀ batch ∈ batches, batch = [] := by
  have hfold : ∀ found, batches.foldl addDisjoint found = [] ↔
      found = [] ∧ ∀ batch ∈ batches, batch = [] := by
    induction batches with
    | nil => simp
    | cons first rest ih =>
        intro found
        rw [List.foldl_cons, ih, addDisjoint_eq_nil_iff, List.forall_mem_cons, and_assoc]
  rw [mergeEntries, ← List.length_eq_zero_iff, List.length_mergeSort, List.length_eq_zero_iff, hfold]
  exact and_iff_right rfl

section Line

variable {reader : ManifestReader} {rule : NameRule} {line : List Char} {number : Nat} {group : Group}

theorem bind_toDependency?_eq_none_iff {read : Option Requirement} {dialect : Dialect} :
    read.bind (Requirement.toDependency? rule dialect number group) = none
      ↔ ¬ ∃ r, read = some r ∧ rule.accepts r.name = true := by
  rw [Option.bind_eq_none_iff]
  constructor
  · rintro h ⟨r, hread, haccepts⟩
    have := h r hread
    rw [Requirement.toDependency?_eq_some_iff.mpr ⟨haccepts, rfl⟩] at this
    cases this
  · intro h r hread
    by_contra hsome
    obtain ⟨d, hd⟩ := Option.ne_none_iff_exists'.mp hsome
    exact h ⟨r, hread, (Requirement.toDependency?_eq_some_iff.mp hd).1⟩

theorem arrayReaders_eq_nil_iff :
    arrayDependencies rule line number group = [] ∧ parenthesizedDependencies rule line number group = []
      ↔ ¬ ∃ s ∈ QuotedString.elementsOfLine line, s.States rule := by
  have hplain : arrayDependencies rule line number group = [] ↔ ∀ s ∈ QuotedString.elementsOfLine line,
      ¬ ∃ r, Requirement.read? s.content s.column = some r ∧ rule.accepts r.name = true :=
    List.filterMap_eq_nil_iff.trans (forall₂_congr fun _ _ => bind_toDependency?_eq_none_iff)
  have hparenthesized : parenthesizedDependencies rule line number group = [] ↔
      ∀ s ∈ QuotedString.elementsOfLine line,
        ¬ ∃ r, Requirement.readParenthesized? s.content s.column = some r ∧ rule.accepts r.name = true :=
    List.filterMap_eq_nil_iff.trans (forall₂_congr fun _ _ => bind_toDependency?_eq_none_iff)
  rw [hplain, hparenthesized]
  constructor
  · rintro ⟨h, h'⟩ ⟨s, hs, r, hread | hread, haccepts⟩
    · exact h s hs ⟨r, hread, haccepts⟩
    · exact h' s hs ⟨r, hread, haccepts⟩
  · intro h
    exact ⟨fun s hs ⟨r, hread, haccepts⟩ => h ⟨s, hs, r, .inl hread, haccepts⟩,
      fun s hs ⟨r, hread, haccepts⟩ => h ⟨s, hs, r, .inr hread, haccepts⟩⟩

theorem tableDependencies_eq_nil_iff : tableDependencies rule line number group = [] ↔ ¬ StatesEntry rule line :=
  Option.toList_eq_nil_iff.trans bind_toDependency?_eq_none_iff

theorem versionKeyDependency?_eq_none_iff {package : List Char} :
    versionKeyDependency? rule line package number group = none ↔ ¬ StatesVersion rule package line := by
  constructor
  · rintro h ⟨key, span, r, hkey, hbare, hname, hspan, hread, haccepts⟩
    have hsome : r.toDependency? rule .poetryTable number group = some _ :=
      Requirement.toDependency?_eq_some_iff.mpr ⟨haccepts, rfl⟩
    have hversion : (key.isBare && decide (key.name = "version".toList)) = true := by
      rw [hbare, hname, decide_eq_true rfl, Bool.true_and]
    have hentry : versionKeyDependency? rule line package number group = some _ :=
      Option.bind_eq_some_iff.mpr ⟨key, hkey, Option.ite_none_right_eq_some.mpr ⟨hversion,
        Option.bind_eq_some_iff.mpr ⟨span, hspan, Option.bind_eq_some_iff.mpr ⟨r, hread, hsome⟩⟩⟩⟩
    rw [h] at hentry
    cases hentry
  · intro h
    by_contra hsome
    obtain ⟨d, hd⟩ := Option.ne_none_iff_exists'.mp hsome
    obtain ⟨key, hkey, hentry⟩ := Option.bind_eq_some_iff.mp hd
    obtain ⟨hversion, hentry⟩ := Option.ite_none_right_eq_some.mp hentry
    obtain ⟨span, hspan, hrest⟩ := Option.bind_eq_some_iff.mp hentry
    obtain ⟨r, hread, hd⟩ := Option.bind_eq_some_iff.mp hrest
    obtain ⟨hbare, hname⟩ := Bool.and_eq_true_iff.mp hversion
    exact h ⟨key, span, r, hkey, hbare, of_decide_eq_true hname, hspan, hread,
      (Requirement.toDependency?_eq_some_iff.mp hd).1⟩

/-- **A line by itself** yields something just if it states something. -/
theorem readLine_eq_nil_iff (table : Option (List Char)) :
    reader.readLine line number .pyproject table = [] ↔ ¬ StatesUnder reader.rule table line := by
  cases htable : table.bind PoetryTable.ofTable? with
  | some poetry =>
      obtain ⟨kin, package⟩ := poetry
      obtain ⟨name, rfl, hname⟩ := Option.bind_eq_some_iff.mp htable
      cases package with
      | some package =>
          have hread : reader.readLine line number .pyproject (some name)
              = (versionKeyDependency? reader.rule line package number kin).toList := by
            simp [ManifestReader.readLine, hname]
          rw [hread, Option.toList_eq_nil_iff, versionKeyDependency?_eq_none_iff, StatesUnder, htable]
      | none =>
          have hpackage : ManifestKind.pyproject.packageOf? (some name) = none := by
            simp [ManifestKind.packageOf?, hname]
          have hdialects : admittedDialects .pyproject (some name) = [.poetryTable] := by
            simp [admittedDialects, hname]
          rw [ManifestReader.readLine_eq_mergeEntries hpackage, mergeEntries_eq_nil_iff, hdialects,
            List.map_singleton, List.forall_mem_singleton, Dialect.parse, tableDependencies_eq_nil_iff, StatesUnder,
            htable]
  | none =>
      have hpackage : ManifestKind.pyproject.packageOf? table = none := by
        rw [ManifestKind.packageOf?, htable]
        rfl
      rw [ManifestReader.readLine_eq_mergeEntries hpackage, mergeEntries_eq_nil_iff, StatesUnder, htable]
      cases table with
      | none =>
          have hdialects : admittedDialects .pyproject none = [.array, .poetryTable, .poetryParentheses] := rfl
          simp only [hdialects, List.map_cons, List.map_nil, List.forall_mem_cons, List.not_mem_nil,
            IsEmpty.forall_iff, implies_true, and_true, Dialect.parse, tableDependencies_eq_nil_iff, true_and]
          rw [not_or, ← arrayReaders_eq_nil_iff]
          exact and_left_comm.trans and_comm
      | some name =>
          have hdialects : admittedDialects .pyproject (some name) = [.array, .poetryParentheses] := by
            simp [admittedDialects, show PoetryTable.ofTable? name = none from htable]
          simp only [hdialects, List.map_cons, List.map_nil, List.forall_mem_cons, List.not_mem_nil,
            IsEmpty.forall_iff, implies_true, and_true, Dialect.parse, reduceCtorEq, false_and, or_false]
          exact arrayReaders_eq_nil_iff

end Line

/-! ### Lines of a buffer -/

namespace Buffer

variable {buffer : Buffer} {n : Nat}

/-- The line states something by itself, under the nearest header. -/
def StatesAlone (buffer : Buffer) (n : Nat) : Prop :=
  ∃ text, buffer.lineAt? n = some text ∧ StatesUnder .standard (enclosingTable? buffer.lines n) text

theorem dependenciesOn_unknown {text : List Char} (htext : buffer.lineAt? n = some text)
    (hfound : ((ManifestReader.standard.readText buffer.text buffer.kind).filter fun d => d.line == n) = []) :
    buffer.dependenciesOn n
      = ManifestReader.standard.readLine text n buffer.kind (enclosingTable? buffer.lines n) := by
  simp only [dependenciesOn, htext, Int.toNat_natCast, hfound, List.isEmpty_nil, if_true]

theorem dependenciesOn_eq_nil_iff (hkind : buffer.kind = .pyproject)
    (hfound : ((ManifestReader.standard.readText buffer.text).filter fun d => d.line == n) = []) :
    buffer.dependenciesOn n = [] ↔ ¬ buffer.StatesAlone n := by
  cases htext : buffer.lineAt? n with
  | none => simp [dependenciesOn, StatesAlone, htext]
  | some text =>
      rw [dependenciesOn_unknown htext (hkind ▸ hfound), hkind, readLine_eq_nil_iff, StatesAlone]
      simp [htext, ManifestReader.standard]

/-- Hovering finds a dependency at some column of a line just if the line has one. -/
theorem exists_dependencyNamedAt?_iff :
    (∃ column, (buffer.dependencyNamedAt? ⟨n, column⟩).isSome = true) ↔ buffer.dependenciesOn n ≠ [] := by
  constructor
  · rintro ⟨column, h⟩ hnil
    simp [dependencyNamedAt?, hnil] at h
  · intro h
    obtain ⟨d, hd⟩ := List.exists_mem_of_ne_nil _ h
    have htouches : d.nameSpan.contains d.nameSpan.start = true :=
      Span.contains_iff.mpr ⟨Int.le_refl _, Int.ofNat_le.mpr (Nat.le_add_right ..)⟩
    exact ⟨d.nameSpan.start, List.find?_isSome.mpr ⟨d, hd, htouches⟩⟩

/-- A version is completed at some column of a line just if the line has a dependency. -/
theorem exists_completionSite?_iff {text : List Char} (htext : buffer.lineAt? n = some text)
    (hcovers : ∀ d ∈ buffer.dependenciesOn n, d.span.Covers text d.constraint) :
    (∃ column, (buffer.completionSite? ⟨n, column⟩).isSome = true) ↔ buffer.dependenciesOn n ≠ [] := by
  simp only [completionSite?, htext, Option.bind_some, List.findSome?_isSome_iff]
  constructor
  · rintro ⟨column, d, hd, -⟩ hnil
    exact List.not_mem_nil (hnil ▸ hd)
  · intro h
    obtain ⟨d, hd⟩ := List.exists_mem_of_ne_nil _ h
    have htouches : d.span.contains d.span.start = true :=
      Span.contains_iff.mpr ⟨Int.le_refl _, Int.ofNat_le.mpr (Nat.le_add_right ..)⟩
    exact ⟨d.span.start, d, hd, (Dependency.completionSite?_isSome (hcovers d hd)).mpr htouches⟩

/-- **Arrays that hold no dependencies.** The document reports nothing on their lines. On such a line the editor has
a dependency, a name to hover and a version to complete just if the line states something by itself; where it does
not, no actions are offered either. Under a header that opens no Poetry table the line is read as one of an array of
dependencies would be. -/
theorem offers_in_foreign_array {buffer : Buffer} (hkind : buffer.kind = .pyproject) {n : Nat} {line : List Char}
    (hline : (splitLines buffer.text)[n]? = some line)
    (hforeign : (ManifestReader.standard.stateBefore buffer.text n).arrayGroup? line = some none) :
    ((ManifestReader.standard.readText buffer.text).filter fun d => d.line == n) = [] ∧
      (buffer.dependenciesOn n = [] ↔ ¬ buffer.StatesAlone n) ∧
      ((∃ column, (buffer.dependencyNamedAt? ⟨n, column⟩).isSome = true) ↔ buffer.StatesAlone n) ∧
      ((∃ column, (buffer.completionSite? ⟨n, column⟩).isSome = true) ↔ buffer.StatesAlone n) ∧
      (¬ buffer.StatesAlone n →
        ∀ (company : Company World Outcome) (world after : World) (all : List QuickAction),
          (Work.actions buffer n).run.ComesTo company world after (.ok all) → all = []) ∧
      ∀ text table, buffer.lineAt? n = some text → enclosingTable? buffer.lines n = some table →
        PoetryTable.ofTable? table = none →
          buffer.dependenciesOn n = ManifestReader.standard.arrayEntries text n .main := by
  have hfound : ((ManifestReader.standard.readText buffer.text).filter fun d => d.line == n) = [] := by
    rw [ManifestReader.filter_line_readText hline, ManifestReader.step_of_arrayGroup? hforeign]
    rfl
  have hnil := dependenciesOn_eq_nil_iff hkind hfound
  refine ⟨hfound, hnil, ?_, ?_, ?_, ?_⟩
  · rw [exists_dependencyNamedAt?_iff, Ne, hnil, not_not]
  · cases htext : buffer.lineAt? n with
    | none => simp [completionSite?, StatesAlone, htext]
    | some text =>
        rw [exists_completionSite?_iff htext, Ne, hnil, not_not]
        rw [dependenciesOn_unknown htext (hkind ▸ hfound)]
        intro d hd
        have hpoints := (ManifestReader.standard.reports_readLine text n buffer.kind _ none).pointsInto d hd
        rw [← hpoints.slice_span]
        exact Span.covers_slice hpoints.span_inside
  · intro halone company world after all h
    refine List.eq_nil_iff_forall_not_mem.mpr fun action haction => ?_
    obtain ⟨d, hd, -⟩ := Work.exists_of_comesTo_actions h haction
    rw [hnil.mpr halone] at hd
    cases hd
  · intro text table htext htable hpoetry
    have hpackage : ManifestKind.pyproject.packageOf? (some table) = none := by
      simp [ManifestKind.packageOf?, hpoetry]
    rw [dependenciesOn_unknown htext (hkind ▸ hfound), hkind, htable,
      ManifestReader.readLine_eq_mergeEntries hpackage]
    simp [admittedDialects, hpoetry, Group.ofTable?, ManifestReader.arrayEntries, Dialect.parse]

/-- A manifest that has nothing but a keyword. -/
def keywordBuffer (keyword : String) : Buffer :=
  ⟨"[project]\nkeywords = [\"".toList ++ keyword.toList ++ "\"]".toList, none, none⟩

/-- A keyword that reads as a name is found as a dependency and hovered as one; for a keyword that does not nothing
is offered, whatever an index answers. -/
theorem offers_in_foreign_array_keywords :
    (keywordBuffer "cli-tool").dependenciesOn (1 : Nat)
        = [⟨"cli-tool".toList, [], ⟨21, 0⟩, ⟨13, 8⟩, 1, .main, .array, []⟩] ∧
      (∃ column, ((keywordBuffer "cli-tool").dependencyNamedAt? ⟨(1 : Nat), column⟩).isSome = true) ∧
      ∀ (company : Company World Outcome) (world after : World) (all : List QuickAction),
        (Work.actions (keywordBuffer "a tool") (1 : Nat)).run.ComesTo company world after (.ok all) → all = [] := by
  have hkind : (keywordBuffer "cli-tool").kind = .pyproject := rfl
  have hline : (splitLines (keywordBuffer "cli-tool").text)[1]? = some "keywords = [\"cli-tool\"]".toList := rfl
  obtain ⟨-, hnil, hnamed, -, -, hlisted⟩ := offers_in_foreign_array hkind hline (by decide)
  have hfound : (keywordBuffer "cli-tool").dependenciesOn (1 : Nat)
      = [⟨"cli-tool".toList, [], ⟨21, 0⟩, ⟨13, 8⟩, 1, .main, .array, []⟩] := by
    rw [hlisted "keywords = [\"cli-tool\"]".toList "project".toList rfl rfl rfl, arrayEntries_eq]
    rfl
  refine ⟨hfound, hnamed.mpr ?_, ?_⟩
  · by_contra halone
    rw [hnil.mpr halone] at hfound
    cases hfound
  · have hkind : (keywordBuffer "a tool").kind = .pyproject := rfl
    have hline : (splitLines (keywordBuffer "a tool").text)[1]? = some "keywords = [\"a tool\"]".toList := rfl
    obtain ⟨-, hnil, -, -, hactions, -⟩ := offers_in_foreign_array hkind hline (by decide)
    exact hactions (hnil.mp (by decide +kernel))

end Buffer

end ManifestLens
