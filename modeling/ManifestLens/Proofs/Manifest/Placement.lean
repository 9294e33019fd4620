import ManifestLens.Manifest.Document
import ManifestLens.Proofs.Manifest.ArrayLine
import ManifestLens.Proofs.Manifest.PoetryTable
import ManifestLens.Proofs.Manifest.RequirementsLine

/-!
# Reading line by line

The reader of a TOML manifest takes four kinds of steps: inside an array, at a header, at the opening of
an array and at an entry of a table. What it finds in a text is what it finds in the first lines, and then
in the rest from where it stands after them.
-/

namespace ManifestLens

namespace ManifestReader

section Step

variable {reader : ManifestReader} {state : DocumentState} {line : List Char}

theorem step_inside (h : 0 < state.depth) (number : Nat) : reader.step state number line
    = ((state.group.map (reader.arrayEntries line number)).getD [],
        { state with depth := state.depth + bracketBalance none (codePart line) }) := by
  simp only [step, if_pos h]

theorem step_header (h : state.depth ≤ 0) {header : List Char} (hline : tableHeader? line = some header)
    (number : Nat) : reader.step state number line = ([], ⟨some header, none, 0⟩) := by
  simp only [step, if_neg (Int.not_lt.mpr h), hline]

theorem step_opening (h : state.depth ≤ 0) (hline : tableHeader? line = none) {key value : List Char}
    (hopened : openedArray? (codePart line) = some (key, value)) (number : Nat) :
    reader.step state number line
      = (((Group.ofTable? state.table (some key)).map (reader.arrayEntries line number)).getD [],
          ⟨state.table, Group.ofTable? state.table (some key), bracketBalance none value⟩) := by
  simp only [step, if_neg (Int.not_lt.mpr h), hline, hopened]

theorem step_entry (h : state.depth ≤ 0) (hline : tableHeader? line = none)
    (hopened : openedArray? (codePart line) = none) (number : Nat) : reader.step state number line
      = ((state.table.map (reader.tableEntries line number)).getD [], ⟨state.table, none, 0⟩) := by
  simp only [step, if_neg (Int.not_lt.mpr h), hline, hopened]

end Step

/-- Where the reading stands after lines of which the first has the given number. -/
def stateAfter (reader : ManifestReader) (state : DocumentState) (number : Nat) :
    List (List Char) → DocumentState
  | [] => state
  | line :: rest => reader.stateAfter (reader.step state number line).2 (number + 1) rest

theorem readFrom_cons (reader : ManifestReader) (state : DocumentState) (number : Nat)
    (line : List Char) (rest : List (List Char)) : reader.readFrom state number (line :: rest)
      = (reader.step state number line).1
        ++ reader.readFrom (reader.step state number line).2 (number + 1) rest := rfl

theorem readFrom_append (reader : ManifestReader) (state : DocumentState) (number : Nat)
    (first second : List (List Char)) : reader.readFrom state number (first ++ second)
      = reader.readFrom state number first
        ++ reader.readFrom (reader.stateAfter state number first) (number + first.length) second := by
  induction first generalizing state number with
  | nil => rfl
  | cons line rest ih =>
      simp only [List.cons_append, readFrom, stateAfter, ih, List.length_cons, List.append_assoc]
      rw [Nat.add_assoc, Nat.add_comm 1]

theorem readRequirements_append (reader : ManifestReader) (number : Nat)
    (first second : List (List Char)) : reader.readRequirements number (first ++ second)
      = reader.readRequirements number first
        ++ reader.readRequirements (number + first.length) second := by
  induction first generalizing number with
  | nil => rfl
  | cons line rest ih =>
      simp only [List.cons_append, readRequirements, ih, List.length_cons, List.append_assoc]
      rw [Nat.add_assoc, Nat.add_comm 1]

end ManifestReader

end ManifestLens

/-!
## Where dependencies stand

Whatever dialect and whatever reader finds a dependency, it is reported with the number of the line it was
found in, and with the columns at which that line has its constraint.
-/

namespace ManifestLens

open Text

/-- A text that may stand as a constraint in a dialect. -/
def Dialect.Accepts (dialect : Dialect) (constraint : List Char) : Prop :=
  match dialect with
  | .poetryTable => IsTableConstraint constraint
  | _ => IsConstraintText constraint

/-- The dependency is on a line with the given number and text: the line has its constraint at its
columns, and its dialect allows it. -/
structure Dependency.StandsOn (number : Nat) (text : List Char) (d : Dependency) : Prop where
  line : d.line = number
  covers : d.span.Covers text d.constraint
  accepted : d.dialect.Accepts d.constraint

section Dialects

variable {rule : NameRule} {text : List Char} {number : Nat} {group : Group} {d : Dependency}

theorem Requirement.standsOn_of_toDependency? {r : Requirement} {dialect : Dialect}
    (h : r.toDependency? rule dialect number group = some d) (hcovers : r.span.Covers text r.constraint)
    (haccepted : dialect.Accepts r.constraint) : d.StandsOn number text := by
  obtain ⟨-, rfl⟩ := toDependency?_eq_some_iff.mp h
  exact ⟨rfl, hcovers, haccepted⟩

theorem QuotedString.covers_of_mem (hline : '\n' ∉ text) {s : QuotedString}
    (hs : s ∈ elementsOfLine text) {span : Span} {word : List Char} (h : span.Covers s.content word) :
    (span.moved s.column).Covers text word := by
  have hmem : s ∈ stringsFrom 0 none text := (List.mem_filter.mp hs).1
  obtain ⟨before, after, quote, -, -, -, -, htext, hcolumn, -⟩ := exists_site hline hmem
  have hlength : s.column = (before ++ [quote]).length := by
    rw [hcolumn, List.length_append, List.length_singleton]
    omega
  have := h.append (before ++ [quote]) after
  rw [← hlength] at this
  rw [htext]
  simpa using this

theorem standsOn_of_mem_arrayDependencies (hline : '\n' ∉ text)
    (h : d ∈ arrayDependencies rule text number group) : d.StandsOn number text := by
  obtain ⟨s, hs, hentry⟩ := List.mem_filterMap.mp h
  obtain ⟨r, hread, hdependency⟩ := Option.bind_eq_some_iff.mp hentry
  rw [Requirement.read?_eq_moved] at hread
  obtain ⟨r, hplain, rfl⟩ := Option.map_eq_some_iff.mp hread
  have hplaced := Requirement.placedIn_of_read? hplain
  exact Requirement.standsOn_of_toDependency? hdependency
    (QuotedString.covers_of_mem hline hs hplaced.constraint) hplaced.constraint_text

theorem standsOn_of_mem_parenthesizedDependencies (hline : '\n' ∉ text)
    (h : d ∈ parenthesizedDependencies rule text number group) : d.StandsOn number text := by
  obtain ⟨s, hs, hentry⟩ := List.mem_filterMap.mp h
  obtain ⟨r, hread, hdependency⟩ := Option.bind_eq_some_iff.mp hentry
  rw [Requirement.readParenthesized?_eq_moved] at hread
  obtain ⟨r, hplain, rfl⟩ := Option.map_eq_some_iff.mp hread
  have hplaced := Requirement.placedIn_of_readParenthesized? hplain
  exact Requirement.standsOn_of_toDependency? hdependency
    (QuotedString.covers_of_mem hline hs hplaced.constraint) hplaced.constraint_text

/-- The constraint of a table line stands on the line before its comment. -/
theorem TableForm.covers (form : TableForm) (hcode : codePart text = form.text) (name : List Char) :
    (form.requirement name).span.Covers text (form.requirement name).constraint := by
  obtain ⟨comment, hcomment⟩ := codePart_isPrefix text
  have hform : (form.requirement name).span.Covers form.text form.constraint :=
    ⟨form.head, form.tail, form.text_eq, rfl⟩
  rw [← hcomment, hcode]
  exact hform.append_right comment

theorem standsOn_of_mem_tableDependencies (hline : '\n' ∉ text)
    (h : d ∈ tableDependencies rule text number group) : d.StandsOn number text := by
  obtain ⟨form, hcode, -, hdependency⟩ := exists_of_mem_tableDependencies hline h
  exact Requirement.standsOn_of_toDependency? hdependency (form.covers hcode _) form.constraint_text

theorem standsOn_of_versionKeyDependency? {package : List Char}
    (h : versionKeyDependency? rule text package number group = some d) : d.StandsOn number text := by
  obtain ⟨form, hcode, -, -, -, hdependency⟩ := exists_of_versionKeyDependency? h
  exact Requirement.standsOn_of_toDependency? hdependency (form.covers hcode _) form.constraint_text

theorem standsOn_of_mem_requirementsDependencies
    (h : d ∈ requirementsDependencies rule text number group) : d.StandsOn number text := by
  obtain ⟨form, hpart, -, -, hdependency⟩ := exists_of_mem_requirementsDependencies h
  obtain ⟨rest, hrest⟩ := requirementPart_isPrefix text
  refine Requirement.standsOn_of_toDependency? hdependency ?_ form.constraint_text
  rw [← hrest, hpart]
  exact form.placedIn.constraint.append_right rest

/-- **Every dialect** reports a dependency with the place of its constraint. -/
theorem standsOn_of_mem_parse (hline : '\n' ∉ text) {dialect : Dialect}
    (h : d ∈ dialect.parse rule text number group) : d.StandsOn number text := by
  cases dialect with
  | array => exact standsOn_of_mem_arrayDependencies hline h
  | poetryTable => exact standsOn_of_mem_tableDependencies hline h
  | poetryParentheses => exact standsOn_of_mem_parenthesizedDependencies hline h
  | requirementsLine => exact standsOn_of_mem_requirementsDependencies h

end Dialects

/-! ### Lines -/

theorem mem_addDisjoint {found batch : List Dependency} {d : Dependency}
    (h : d ∈ addDisjoint found batch) : d ∈ found ∨ d ∈ batch := by
  induction batch generalizing found with
  | nil => exact Or.inl h
  | cons e rest ih =>
      simp only [addDisjoint, List.foldl_cons] at h
      rcases ih h with hfound | hrest
      · split at hfound
        · exact Or.inl hfound
        · rcases List.mem_append.mp hfound with hfound | he
          · exact Or.inl hfound
          · exact Or.inr (by simp [List.mem_singleton.mp he])
      · exact Or.inr (List.mem_cons_of_mem e hrest)

/-- Merging makes no entries. -/
theorem exists_of_mem_mergeEntries {batches : List (List Dependency)} {d : Dependency}
    (h : d ∈ mergeEntries batches) : ∃ batch ∈ batches, d ∈ batch := by
  rw [mergeEntries, List.mem_mergeSort] at h
  have hfold : ∀ (batches : List (List Dependency)) (found : List Dependency),
      d ∈ batches.foldl addDisjoint found → d ∈ found ∨ ∃ batch ∈ batches, d ∈ batch := by
    intro batches
    induction batches with
    | nil => exact fun found hd => Or.inl hd
    | cons batch rest ih =>
        intro found hd
        rcases ih _ hd with hfound | ⟨other, hother, hd⟩
        · rcases mem_addDisjoint hfound with hfound | hbatch
          · exact Or.inl hfound
          · exact Or.inr ⟨batch, by simp, hbatch⟩
        · exact Or.inr ⟨other, List.mem_cons_of_mem batch hother, hd⟩
  simpa using hfold batches [] h

namespace ManifestReader

section Line

variable {reader : ManifestReader} {text : List Char} {number : Nat} {d : Dependency}

theorem standsOn_of_mem_readLine (hline : '\n' ∉ text) {kind : ManifestKind}
    {table : Option (List Char)} {group : Option Group}
    (h : d ∈ reader.readLine text number kind table group) : d.StandsOn number text := by
  rw [readLine] at h
  simp only at h
  split at h
  · exact standsOn_of_versionKeyDependency? (Option.mem_toList.mp h)
  · obtain ⟨batch, hbatch, hd⟩ := exists_of_mem_mergeEntries h
    obtain ⟨dialect, -, rfl⟩ := List.mem_map.mp hbatch
    exact standsOn_of_mem_parse hline hd

theorem standsOn_of_mem_arrayEntries (hline : '\n' ∉ text) {group : Group}
    (h : d ∈ reader.arrayEntries text number group) : d.StandsOn number text := by
  obtain ⟨batch, hbatch, hd⟩ := exists_of_mem_mergeEntries h
  simp only [List.mem_cons, List.not_mem_nil, or_false] at hbatch
  rcases hbatch with rfl | rfl
  · exact standsOn_of_mem_arrayDependencies hline hd
  · exact standsOn_of_mem_parenthesizedDependencies hline hd

theorem standsOn_of_mem_tableEntries (hline : '\n' ∉ text) {table : List Char}
    (h : d ∈ reader.tableEntries text number table) : d.StandsOn number text := by
  rw [tableEntries] at h
  split at h
  · cases h
  · exact standsOn_of_versionKeyDependency? (Option.mem_toList.mp h)
  · exact standsOn_of_mem_tableDependencies hline h

/-- **One line of a document**: what it yields stands on it. -/
theorem standsOn_of_mem_step (hline : '\n' ∉ text) {state : DocumentState}
    (h : d ∈ (reader.step state number text).1) : d.StandsOn number text := by
  have hoption : ∀ {α : Type} (entries : α → List Dependency) (found : Option α),
      (∀ x, d ∈ entries x → d.StandsOn number text) → d ∈ (found.map entries).getD [] →
        d.StandsOn number text := by
    intro α entries found hentries hd
    cases found with
    | none => cases hd
    | some x => exact hentries x hd
  rw [step] at h
  simp only at h
  split at h
  · exact hoption _ _ (fun _ => standsOn_of_mem_arrayEntries hline) h
  · split at h
    · cases h
    · split at h
      · exact hoption _ _ (fun _ => standsOn_of_mem_arrayEntries hline) h
      · exact hoption _ _ (fun _ => standsOn_of_mem_tableEntries hline) h

end Line

/-! ### Documents -/

/-- What holds of the entries of every single line holds of all entries, each with the number and text
of its line. -/
theorem exists_of_mem_readFrom {reader : ManifestReader} {state : DocumentState} {first : Nat}
    {lines : List (List Char)} {d : Dependency} (h : d ∈ reader.readFrom state first lines) :
    ∃ number line state', lines[number]? = some line ∧
      d ∈ (reader.step state' (first + number) line).1 := by
  induction lines generalizing state first with
  | nil => cases h
  | cons line rest ih =>
      simp only [readFrom, List.mem_append] at h
      rcases h with h | h
      · exact ⟨0, line, state, rfl, h⟩
      · obtain ⟨number, text, state', htext, hd⟩ := ih h
        refine ⟨number + 1, text, state', by simpa using htext, ?_⟩
        rwa [Nat.add_assoc, Nat.add_comm 1 number] at hd

theorem exists_of_mem_readRequirements {reader : ManifestReader} {first : Nat}
    {lines : List (List Char)} {d : Dependency} (h : d ∈ reader.readRequirements first lines) :
    ∃ number line, lines[number]? = some line ∧
      d ∈ requirementsDependencies reader.rule line (first + number) .main := by
  induction lines generalizing first with
  | nil => cases h
  | cons line rest ih =>
      simp only [readRequirements, List.mem_append] at h
      rcases h with h | h
      · exact ⟨0, line, rfl, h⟩
      · obtain ⟨number, text, htext, hd⟩ := ih h
        refine ⟨number + 1, text, by simpa using htext, ?_⟩
        rwa [Nat.add_assoc, Nat.add_comm 1 number] at hd

/-- **A whole document.** Every entry stands on the line whose number it has. -/
theorem standsOn_of_mem_readAll {reader : ManifestReader} {kind : ManifestKind}
    {lines : List (List Char)} (hlines : ∀ line ∈ lines, '\n' ∉ line) {d : Dependency}
    (h : d ∈ reader.readAll kind lines) :
    ∃ line, lines[d.line]? = some line ∧ d.StandsOn d.line line := by
  obtain ⟨number, line, hline, hd⟩ : ∃ number line, lines[number]? = some line ∧
      d.StandsOn number line := by
    cases kind with
    | requirements =>
        obtain ⟨number, line, hline, hd⟩ := exists_of_mem_readRequirements h
        rw [Nat.zero_add] at hd
        exact ⟨number, line, hline, standsOn_of_mem_requirementsDependencies hd⟩
    | pyproject =>
        obtain ⟨number, line, state, hline, hd⟩ := exists_of_mem_readFrom h
        rw [Nat.zero_add] at hd
        exact ⟨number, line, hline,
          standsOn_of_mem_step (hlines line (List.mem_of_getElem? hline)) hd⟩
  rw [hd.line]
  exact ⟨line, hline, hd⟩

end ManifestReader

end ManifestLens
