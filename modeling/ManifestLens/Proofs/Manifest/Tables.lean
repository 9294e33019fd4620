import ManifestLens.Proofs.Manifest.Slices
import Mathlib.Data.List.Flatten

/-!
# Tables one after another

The reader carries a table, the group of an open array and a count of brackets from line to line. The count
may fall below zero, and an array may stay open past the end of what a person would call its table. None of
this reaches past a header that is read as one: outside arrays the step at a header forgets all three. What
numbers the lines have matters to no step either, so that a table states the same wherever it stands.
-/

namespace ManifestLens

/-! ### Entries further down -/

def Dependency.lowered (lines : Nat) (d : Dependency) : Dependency := { d with line := d.line + lines }

theorem Dependency.lowered_zero : Dependency.lowered 0 = id := rfl

section Lowered

variable (rule : NameRule) (text : List Char) (number lines : Nat) (group : Group)

theorem Requirement.toDependency?_lowered (dialect : Dialect) (r : Requirement) :
    r.toDependency? rule dialect (number + lines) group
      = (r.toDependency? rule dialect number group).map (Dependency.lowered lines) := by
  by_cases h : rule.accepts r.name = true
  · simp [toDependency?, h, Dependency.lowered]
  · simp [toDependency?, h]

theorem Requirement.bind_toDependency?_lowered (dialect : Dialect) (read : Option Requirement) :
    read.bind (Requirement.toDependency? rule dialect (number + lines) group)
      = (read.bind (Requirement.toDependency? rule dialect number group)).map
          (Dependency.lowered lines) := by
  cases read with
  | none => rfl
  | some r => exact r.toDependency?_lowered rule number lines group dialect

theorem arrayDependencies_lowered : arrayDependencies rule text (number + lines) group
    = (arrayDependencies rule text number group).map (Dependency.lowered lines) := by
  rw [arrayDependencies, arrayDependencies, List.map_filterMap]
  exact List.filterMap_congr fun element _ =>
    Requirement.bind_toDependency?_lowered rule number lines group .array _

theorem parenthesizedDependencies_lowered : parenthesizedDependencies rule text (number + lines) group
    = (parenthesizedDependencies rule text number group).map (Dependency.lowered lines) := by
  rw [parenthesizedDependencies, parenthesizedDependencies, List.map_filterMap]
  exact List.filterMap_congr fun element _ =>
    Requirement.bind_toDependency?_lowered rule number lines group .poetryParentheses _

theorem tableDependencies_lowered : tableDependencies rule text (number + lines) group
    = (tableDependencies rule text number group).map (Dependency.lowered lines) := by
  rw [tableDependencies, tableDependencies, Requirement.bind_toDependency?_lowered, Option.toList_map]

theorem versionKeyDependency?_lowered (package : List Char) :
    versionKeyDependency? rule text package (number + lines) group
      = (versionKeyDependency? rule text package number group).map (Dependency.lowered lines) := by
  simp only [versionKeyDependency?, Option.bind_eq_bind, Option.map_bind]
  congr 1
  funext key
  simp only [Function.comp]
  split
  · rw [Option.map_bind]
    congr 1
    funext span
    exact Requirement.bind_toDependency?_lowered rule number lines group .poetryTable _
  · rfl

end Lowered

/-! ### Merging -/

section Merge

variable {f : Dependency → Dependency}

theorem addDisjoint_map (hf : ∀ d, (f d).nameSpan = d.nameSpan) (found batch : List Dependency) :
    addDisjoint (found.map f) (batch.map f) = (addDisjoint found batch).map f := by
  induction batch generalizing found with
  | nil => rfl
  | cons d rest ih =>
      have hany : ((found.map f).any fun other => (f d).nameSpan.overlaps other.nameSpan)
          = found.any fun other => d.nameSpan.overlaps other.nameSpan := by
        rw [List.any_map]
        exact congrArg found.any (funext fun other => by rw [Function.comp, hf, hf])
      simp only [addDisjoint, List.map_cons, List.foldl_cons, hany] at ih ⊢
      split
      · exact ih found
      · simpa using ih (found ++ [d])

theorem mergeEntries_map (hf : ∀ d, (f d).nameSpan = d.nameSpan) (batches : List (List Dependency)) :
    mergeEntries (batches.map (List.map f)) = (mergeEntries batches).map f := by
  have hfold : ∀ found, (batches.map (List.map f)).foldl addDisjoint (found.map f)
      = (batches.foldl addDisjoint found).map f := by
    induction batches with
    | nil => exact fun found => rfl
    | cons batch rest ih =>
        intro found
        rw [List.map_cons, List.foldl_cons, List.foldl_cons, addDisjoint_map hf]
        exact ih (addDisjoint found batch)
  have hsort : ∀ a b, decide (a.nameSpan.start ≤ b.nameSpan.start)
      = decide ((f a).nameSpan.start ≤ (f b).nameSpan.start) := fun a b => by rw [hf, hf]
  rw [mergeEntries, mergeEntries, ← List.map_nil (f := f), hfold []]
  exact (List.map_mergeSort fun a _ b _ => hsort a b).symm

end Merge

namespace ManifestReader

variable (reader : ManifestReader)

/-! ### One line -/

section Step

variable (line : List Char) (number lines : Nat)

theorem arrayEntries_lowered (group : Group) : reader.arrayEntries line (number + lines) group
    = (reader.arrayEntries line number group).map (Dependency.lowered lines) := by
  rw [arrayEntries, arrayDependencies_lowered, parenthesizedDependencies_lowered]
  exact mergeEntries_map (f := Dependency.lowered lines) (fun d => rfl) [_, _]

theorem tableEntries_lowered (table : List Char) : reader.tableEntries line (number + lines) table
    = (reader.tableEntries line number table).map (Dependency.lowered lines) := by
  rw [tableEntries, tableEntries]
  split
  · rfl
  · rw [versionKeyDependency?_lowered, Option.toList_map]
  · exact tableDependencies_lowered reader.rule line number lines _

/-- **The number of a line** goes into what is found there and into nothing else. -/
theorem step_lowered (state : DocumentState) : reader.step state (number + lines) line
    = ((reader.step state number line).1.map (Dependency.lowered lines),
        (reader.step state number line).2) := by
  have harray : ∀ group : Option Group,
      (group.map (reader.arrayEntries line (number + lines))).getD []
        = ((group.map (reader.arrayEntries line number)).getD []).map (Dependency.lowered lines) := by
    intro group
    cases group with
    | none => rfl
    | some group => exact reader.arrayEntries_lowered line number lines group
  by_cases hdepth : 0 < state.depth
  · rw [step_inside hdepth, step_inside hdepth, harray]
  · have hdepth := Int.not_lt.mp hdepth
    cases hheader : tableHeader? line with
    | some header => rw [step_header hdepth hheader, step_header hdepth hheader, List.map_nil]
    | none =>
        cases hopened : openedArray? (codePart line) with
        | some opened =>
            rw [step_opening hdepth hheader hopened, step_opening hdepth hheader hopened, harray]
        | none =>
            rw [step_entry hdepth hheader hopened, step_entry hdepth hheader hopened]
            cases state.table with
            | none => rfl
            | some table =>
                exact congrArg (·, _) (reader.tableEntries_lowered line number lines table)

end Step

/-! ### Many lines -/

theorem readFrom_lowered (state : DocumentState) (number lines : Nat) (text : List (List Char)) :
    reader.readFrom state (number + lines) text
      = (reader.readFrom state number text).map (Dependency.lowered lines) := by
  induction text generalizing state number with
  | nil => rfl
  | cons line rest ih =>
      rw [readFrom_cons, readFrom_cons, step_lowered, List.map_append, Nat.add_right_comm, ih]

theorem stateAfter_lowered (state : DocumentState) (number lines : Nat) (text : List (List Char)) :
    reader.stateAfter state (number + lines) text = reader.stateAfter state number text := by
  induction text generalizing state number with
  | nil => rfl
  | cons line rest ih => rw [stateAfter, stateAfter, step_lowered, Nat.add_right_comm, ih]

theorem stateAfter_append (state : DocumentState) (number : Nat) (first second : List (List Char)) :
    reader.stateAfter state number (first ++ second)
      = reader.stateAfter (reader.stateAfter state number first) (number + first.length) second := by
  induction first generalizing state number with
  | nil => rfl
  | cons line rest ih =>
      rw [List.cons_append, stateAfter, stateAfter, ih, List.length_cons, Nat.add_assoc,
        Nat.add_comm 1 rest.length]

/-- A header forgets everything before it: outside arrays one state is as good as another. -/
theorem step_header_congr {state other : DocumentState} (hstate : state.depth ≤ 0)
    (hother : other.depth ≤ 0) {line : List Char} (hline : (tableHeader? line).isSome = true)
    (number : Nat) : reader.step state number line = reader.step other number line := by
  obtain ⟨header, hheader⟩ := Option.isSome_iff_exists.mp hline
  rw [step_header hstate hheader, step_header hother hheader]

/-! ### Whole tables -/

theorem depth_start : DocumentState.start.depth ≤ 0 := Int.le_refl 0

/-- Lines after which no array is open, by the reader's own count of brackets. -/
def Closes (text : List (List Char)) : Prop := (reader.stateAfter .start 0 text).depth ≤ 0

instance (text : List (List Char)) : Decidable (reader.Closes text) :=
  inferInstanceAs (Decidable ((reader.stateAfter .start 0 text).depth ≤ 0))

/-- Lines that start with a header. -/
def StartsTable (text : List (List Char)) : Prop :=
  ∃ line rest, text = line :: rest ∧ (tableHeader? line).isSome = true

/-- What is found in tables, of which the first one starts at the given line. -/
def readTables (reader : ManifestReader) (first : Nat) : List (List (List Char)) → List Dependency
  | [] => []
  | table :: rest =>
      (reader.readAll .pyproject table).map (Dependency.lowered first)
        ++ reader.readTables (first + table.length) rest

variable {reader} {before table : List (List Char)}

/-- What is found from a header on is the same after any lines that leave no array open. -/
theorem readFrom_of_startsTable (hbefore : reader.Closes before) (htable : StartsTable table)
    (number : Nat) : reader.readFrom (reader.stateAfter .start 0 before) number table
      = reader.readFrom .start number table := by
  obtain ⟨line, rest, rfl, hline⟩ := htable
  rw [readFrom_cons, readFrom_cons, reader.step_header_congr hbefore depth_start hline]

theorem closes_append (hbefore : reader.Closes before) (htable : StartsTable table)
    (hcloses : reader.Closes table) : reader.Closes (before ++ table) := by
  obtain ⟨line, rest, rfl, hline⟩ := htable
  have hstep := reader.step_header_congr hbefore depth_start hline (0 + before.length)
  rw [Closes, stateAfter_append, stateAfter, hstep, ← stateAfter, stateAfter_lowered]
  exact hcloses

theorem readAll_append (hbefore : reader.Closes before) (htable : StartsTable table) :
    reader.readAll .pyproject (before ++ table)
      = reader.readAll .pyproject before
        ++ (reader.readAll .pyproject table).map (Dependency.lowered before.length) := by
  simp only [readAll]
  rw [readFrom_append, readFrom_of_startsTable hbefore htable, readFrom_lowered]

/-- The tables after a preamble are read one by one. The induction is on the tables; what is carried through
it is that no array is open before the next one. -/
theorem readAll_tables {tables : List (List (List Char))} (hbefore : reader.Closes before)
    (htables : ∀ table ∈ tables, StartsTable table ∧ reader.Closes table) :
    reader.readAll .pyproject (before ++ tables.flatten)
      = reader.readAll .pyproject before ++ reader.readTables before.length tables := by
  induction tables generalizing before with
  | nil => simp [readTables]
  | cons table rest ih =>
      obtain ⟨⟨hstarts, hcloses⟩, hrest⟩ := List.forall_mem_cons.mp htables
      rw [List.flatten_cons, ← List.append_assoc, ih (closes_append hbefore hstarts hcloses) hrest,
        readAll_append hbefore hstarts, readTables, List.length_append, List.append_assoc]

/-! ### Tables in another order -/

/-- A dependency without the number of its line, and the text of the line. -/
def onLine (lines : List (List Char)) (d : Dependency) : Dependency × Option (List Char) :=
  ({ d with line := 0 }, lines[d.line]?)

theorem line_lt_of_mem_readAll {d : Dependency} (h : d ∈ reader.readAll .pyproject table) :
    d.line < table.length := by
  obtain ⟨number, line, hnumber, hline, -⟩ := (reports_readFrom reader
    (show KeepsApart .start from fun h => absurd h (by simp [DocumentState.start])) 0 table).1 d h
  have hlength := (List.getElem?_eq_some_iff.mp hline).1
  omega

theorem map_onLine (before after : List (List Char)) :
    ((reader.readAll .pyproject table).map (Dependency.lowered before.length)).map
        (onLine (before ++ table ++ after))
      = (reader.readAll .pyproject table).map (onLine table) := by
  rw [List.map_map]
  refine List.map_congr_left fun d hd => ?_
  have hlt := line_lt_of_mem_readAll hd
  have hline : (before ++ table ++ after)[d.line + before.length]? = table[d.line]? := by
    rw [List.append_assoc, List.getElem?_append_right (by omega), Nat.add_sub_cancel,
      List.getElem?_append_left hlt]
  simp only [Function.comp, onLine, Dependency.lowered, hline]

theorem map_onLine_readTables (before : List (List Char)) (tables : List (List (List Char))) :
    (reader.readTables before.length tables).map (onLine (before ++ tables.flatten))
      = tables.flatMap fun table => (reader.readAll .pyproject table).map (onLine table) := by
  induction tables generalizing before with
  | nil => rfl
  | cons table rest ih =>
      have hrest := ih (before ++ table)
      rw [List.length_append] at hrest
      rw [readTables, List.map_append, List.flatMap_cons, List.flatten_cons, ← List.append_assoc,
        map_onLine, hrest]

/-- **Tables do not leak into each other.** After lines that leave no array open, by the reader's own count,
whatever follows from a header on states what it states by itself, further down. So a preamble and whole tables
state what the preamble states and then, table by table, what each of them states by itself; and with the tables
in another order the same dependencies are found on the same texts of lines. -/
theorem readAll_table_by_table (reader : ManifestReader) (before : List (List Char))
    (hbefore : reader.Closes before) :
    (∀ after : List (List Char), StartsTable after →
      reader.readAll .pyproject (before ++ after)
        = reader.readAll .pyproject before
          ++ (reader.readAll .pyproject after).map (Dependency.lowered before.length)) ∧
    ∀ tables : List (List (List Char)), (∀ table ∈ tables, StartsTable table ∧ reader.Closes table) →
      reader.readAll .pyproject (before ++ tables.flatten)
          = reader.readAll .pyproject before ++ reader.readTables before.length tables ∧
        ∀ reordered : List (List (List Char)), reordered.Perm tables →
          ((reader.readAll .pyproject (before ++ reordered.flatten)).map
              (onLine (before ++ reordered.flatten))).Perm
            ((reader.readAll .pyproject (before ++ tables.flatten)).map
              (onLine (before ++ tables.flatten))) := by
  refine ⟨fun after hafter => readAll_append hbefore hafter, fun tables htables => ⟨?_, ?_⟩⟩
  · exact readAll_tables hbefore htables
  · intro reordered hperm
    -- In either order, the preamble and each table contribute what they state by themselves.
    have hmap : ∀ order : List (List (List Char)),
        (∀ table ∈ order, StartsTable table ∧ reader.Closes table) →
        (reader.readAll .pyproject (before ++ order.flatten)).map (onLine (before ++ order.flatten))
          = (reader.readAll .pyproject before).map (onLine before)
            ++ order.flatMap fun table => (reader.readAll .pyproject table).map (onLine table) := by
      intro order horder
      have hpreamble : (reader.readAll .pyproject before).map (onLine (before ++ order.flatten))
          = (reader.readAll .pyproject before).map (onLine before) := by
        simpa [Dependency.lowered_zero] using map_onLine [] order.flatten
      rw [readAll_tables hbefore horder, List.map_append, map_onLine_readTables, hpreamble]
    rw [hmap tables htables, hmap reordered fun table h => htables table (hperm.mem_iff.mp h)]
    exact (hperm.flatMap_right _).append_left _

/-- Lines with one closing bracket too many. -/
def strayBracket : List (List Char) := ["[project]", "dependencies = [\"aa\"]]"].map String.toList

def entryTable : List (List Char) := ["[tool.poetry.dependencies]", "bb = \"^1\""].map String.toList

def arrayTable : List (List Char) :=
  ["[project.optional-dependencies]", "test = [", "  \"cc\",", "]"].map String.toList

/-- Behind the stray bracket the count stands below zero, and the two tables are read as they are by
themselves, in either order. -/
theorem readAll_table_by_table_stray :
    (standard.stateAfter .start 0 strayBracket).depth = -1 ∧
      standard.readAll .pyproject (strayBracket ++ [entryTable, arrayTable].flatten)
        = standard.readAll .pyproject strayBracket ++ standard.readTables 2 [entryTable, arrayTable] ∧
      ((standard.readAll .pyproject (strayBracket ++ [arrayTable, entryTable].flatten)).map
          (onLine (strayBracket ++ [arrayTable, entryTable].flatten))).Perm
        ((standard.readAll .pyproject (strayBracket ++ [entryTable, arrayTable].flatten)).map
          (onLine (strayBracket ++ [entryTable, arrayTable].flatten))) ∧
      (standard.readTables 2 [entryTable, arrayTable]).map (fun d => (d.name, d.line))
        = [("bb".toList, 3), ("cc".toList, 6)] ∧
      (standard.readTables 2 [arrayTable, entryTable]).map (fun d => (d.name, d.line))
        = [("cc".toList, 4), ("bb".toList, 7)] := by
  have htables : ∀ table ∈ [entryTable, arrayTable], StartsTable table ∧ standard.Closes table := by
    intro table htable
    rcases List.mem_pair.mp htable with rfl | rfl
    · exact ⟨⟨_, _, rfl, by decide⟩, by decide⟩
    · exact ⟨⟨_, _, rfl, by decide⟩, by decide⟩
  obtain ⟨hread, hreordered⟩ :=
    (readAll_table_by_table standard strayBracket (by decide)).2 [entryTable, arrayTable] htables
  exact ⟨by decide, hread, hreordered _ (.swap _ _ _), by decide +kernel, by decide +kernel⟩

end ManifestReader

end ManifestLens
