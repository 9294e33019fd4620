import ManifestLens.Proofs.Manifest.Columns
import ManifestLens.Proofs.Manifest.Placement

/-!
# Spans point at what was read

A fix is applied to the columns that a reader reports, so a wrong column corrupts the file. Main statement:
of every dependency on a line or in a document, the line has its constraint at its span and its name at its
name span, and neither span reaches beyond the part of the line that is read. Only in the table of a single
package does the line not have the name; there the name span covers the key `version`.

On one line the entries stand apart and in order. This is no property of the dialects, which do overlap, but
of merging their results, and it needs that no name is empty: two spans that share no column and start in
order may still have the empty one inside the other.
-/

namespace ManifestLens

open Text

/-! ### Merging -/

theorem Span.apart_of_overlaps_eq_false {a b : Span} (h : a.overlaps b = false) : a.Apart b := by
  rw [Span.overlaps, Bool.and_eq_false_iff, decide_eq_false_iff_not, decide_eq_false_iff_not] at h
  rcases h with h | h
  · exact Or.inr (Nat.not_lt.mp h)
  · exact Or.inl (Nat.not_lt.mp h)

theorem Span.overlaps_comm (a b : Span) : a.overlaps b = b.overlaps a := Bool.and_comm ..

/-- The names of the two dependencies share no column. -/
def Dependency.Apart (a b : Dependency) : Prop := a.nameSpan.Apart b.nameSpan

theorem Dependency.Apart.symm {a b : Dependency} (h : a.Apart b) : b.Apart a := Or.symm h

theorem pairwise_addDisjoint {found batch : List Dependency}
    (h : found.Pairwise Dependency.Apart) : (addDisjoint found batch).Pairwise Dependency.Apart := by
  induction batch generalizing found with
  | nil => exact h
  | cons d rest ih =>
      simp only [addDisjoint, List.foldl_cons]
      refine ih ?_
      split
      · exact h
      · next hfree =>
          refine List.pairwise_append.mpr ⟨h, List.pairwise_singleton _ d, ?_⟩
          intro other hother e he
          obtain rfl := List.mem_singleton.mp he
          have hoverlaps : e.nameSpan.overlaps other.nameSpan = false := by
            rw [Bool.not_eq_true, List.any_eq_false] at hfree
            simpa using hfree other hother
          exact Dependency.Apart.symm (Span.apart_of_overlaps_eq_false hoverlaps)

/-- Merged entries have their names apart. -/
theorem pairwise_apart_mergeEntries (batches : List (List Dependency)) :
    (mergeEntries batches).Pairwise Dependency.Apart := by
  have hfold : ∀ (batches : List (List Dependency)) (found : List Dependency),
      found.Pairwise Dependency.Apart → (batches.foldl addDisjoint found).Pairwise Dependency.Apart := by
    intro batches
    induction batches with
    | nil => exact fun found h => h
    | cons batch rest ih => exact fun found h => ih _ (pairwise_addDisjoint h)
  exact (hfold batches [] List.Pairwise.nil).perm (List.mergeSort_perm _ _).symm Dependency.Apart.symm

/-- **Merged entries** stand one behind another, if none of them has an empty name. -/
theorem pairwise_mergeEntries {batches : List (List Dependency)}
    (hnamed : ∀ d ∈ mergeEntries batches, 0 < d.nameSpan.length) :
    (mergeEntries batches).Pairwise fun a b => a.nameSpan.stop ≤ b.nameSpan.start := by
  have hsorted : (mergeEntries batches).Pairwise
      fun a b => decide (a.nameSpan.start ≤ b.nameSpan.start) = true := by
    refine List.pairwise_mergeSort ?_ ?_ _
    · intro a b c hab hbc
      rw [decide_eq_true_eq] at hab hbc ⊢
      exact Nat.le_trans hab hbc
    · intro a b
      rw [Bool.or_eq_true, decide_eq_true_eq, decide_eq_true_eq]
      exact Nat.le_total _ _
  refine ((pairwise_apart_mergeEntries batches).and hsorted).imp_of_mem fun {a b} _ hb h => ?_
  obtain ⟨hapart, hstart⟩ := h
  have hlength := hnamed b hb
  rw [decide_eq_true_eq] at hstart
  rcases hapart with hapart | hapart
  · exact hapart
  · simp only [Span.stop] at hapart
    omega

theorem pairwise_toList {α : Type} (R : α → α → Prop) (found : Option α) : found.toList.Pairwise R := by
  cases found with
  | none => exact List.Pairwise.nil
  | some a => exact List.pairwise_singleton R a

/-! ### What a dependency points at -/

/-- The part of a line that is read: up to the comment, in a requirements file up to the options. -/
def ManifestKind.readPart (kind : ManifestKind) (line : List Char) : List Char :=
  match kind with
  | .pyproject => codePart line
  | .requirements => requirementPart line

/-- The package that a table of the manifest is about, if it is about a single one. -/
def ManifestKind.packageOf? (kind : ManifestKind) (table : Option (List Char)) : Option (List Char) :=
  match kind with
  | .pyproject => (table.bind PoetryTable.ofTable?).bind PoetryTable.package
  | .requirements => none

/-- The dependency points into a line, where `package` is the package that the table of the line is
about. -/
structure Dependency.PointsInto (rule : NameRule) (kind : ManifestKind)
    (package : Option (List Char)) (line : List Char) (d : Dependency) : Prop where
  nameSpan_inside : d.nameSpan.stop ≤ line.length
  span_inside : d.span.stop ≤ line.length
  nameSpan_nonempty : d.nameSpan.isEmpty = false
  ordered : d.nameSpan.stop ≤ d.span.start
  slice_span : d.span.slice line = d.constraint
  slice_nameSpan : match package with
    | none => d.nameSpan.slice line = d.name
    | some package => d.nameSpan.slice line = "version".toList ∧ d.name = package
  accepted : rule.accepts d.name = true
  trimmed : trim d.constraint = d.constraint
  undelimited : ∀ c ∈ d.constraint, c ∉ delimiters
  before_comment : d.span.stop ≤ (kind.readPart line).length

theorem ManifestKind.readPart_isPrefix (kind : ManifestKind) (line : List Char) :
    kind.readPart line <+: line := by
  cases kind with
  | pyproject => exact codePart_isPrefix line
  | requirements => exact requirementPart_isPrefix line

/-- What is stated in the part that is read is what the spans cover. -/
theorem Dependency.StatedIn.pointsInto {rule : NameRule} (kind : ManifestKind) {number : Nat}
    {line key : List Char} (package : Option (List Char)) {d : Dependency}
    (h : d.StatedIn rule number (kind.readPart line) key)
    (hkey : match package with
      | none => d.name = key
      | some package => key = "version".toList ∧ d.name = package) :
    d.PointsInto rule kind package line := by
  obtain ⟨rest, hrest⟩ := ManifestKind.readPart_isPrefix kind line
  have hnamed : d.nameSpan.Covers line key := by
    rw [← hrest]
    exact h.named.append_right rest
  have hcovers : d.span.Covers line d.constraint := by
    rw [← hrest]
    exact h.covers.append_right rest
  have hslice := Span.slice_of_covers hnamed
  refine ⟨Span.stop_le_of_covers hnamed, Span.stop_le_of_covers hcovers, ?_, h.ordered,
    Span.slice_of_covers hcovers, ?_, h.accepted, trim_of_isTrimmed h.trimmed, h.undelimited,
    Span.stop_le_of_covers h.covers⟩
  · have := h.length_pos
    rw [Span.isEmpty, beq_eq_false_iff_ne]
    omega
  · cases package with
    | none => exact hslice.trans hkey.symm
    | some package => exact ⟨hslice.trans hkey.1, hkey.2⟩

namespace ManifestReader

/-! ### Lines -/

section Line

variable {reader : ManifestReader} {text : List Char} {number : Nat} {d : Dependency}

theorem readPart_of_mem_admittedDialects {kind : ManifestKind} {table : Option (List Char)}
    {dialect : Dialect} (h : dialect ∈ admittedDialects kind table) :
    dialect.readPart text = kind.readPart text := by
  cases kind with
  | requirements =>
      obtain rfl := List.mem_singleton.mp h
      rfl
  | pyproject =>
      cases dialect with
      | requirementsLine =>
          cases table with
          | none => simp [admittedDialects] at h
          | some table =>
              simp only [admittedDialects] at h
              split at h <;> simp at h
      | _ => rfl

/-- The entries of a line that a reader finds, one behind another. -/
structure Reports (reader : ManifestReader) (kind : ManifestKind) (package : Option (List Char))
    (number : Nat) (line : List Char) (found : List Dependency) : Prop where
  numbered : ∀ d ∈ found, d.line = number
  pointsInto : ∀ d ∈ found, d.PointsInto reader.rule kind package line
  ordered : found.Pairwise fun a b => a.nameSpan.stop ≤ b.nameSpan.start

theorem reports_nil {kind : ManifestKind} {package : Option (List Char)} :
    reader.Reports kind package number text [] where
  numbered := by simp
  pointsInto := by simp
  ordered := List.Pairwise.nil

theorem reports_of_statedIn (kind : ManifestKind) {found : List Dependency}
    (h : ∀ d ∈ found, d.StatedIn reader.rule number (kind.readPart text) d.name)
    (hordered : found.Pairwise fun a b => a.nameSpan.stop ≤ b.nameSpan.start) :
    reader.Reports kind none number text found where
  numbered d hd := (h d hd).line
  pointsInto d hd := (h d hd).pointsInto kind none rfl
  ordered := hordered

theorem reports_mergeEntries (kind : ManifestKind) {batches : List (List Dependency)}
    (h : ∀ batch ∈ batches, ∀ d ∈ batch,
      d.StatedIn reader.rule number (kind.readPart text) d.name) :
    reader.Reports kind none number text (mergeEntries batches) := by
  have hstated : ∀ d ∈ mergeEntries batches,
      d.StatedIn reader.rule number (kind.readPart text) d.name := by
    intro d hd
    obtain ⟨batch, hbatch, hd⟩ := exists_of_mem_mergeEntries hd
    exact h batch hbatch d hd
  exact reports_of_statedIn kind hstated (pairwise_mergeEntries fun d hd => (hstated d hd).length_pos)

theorem reports_versionKey (reader : ManifestReader) (package : List Char) (group : Group) :
    reader.Reports .pyproject (some package) number text
      (versionKeyDependency? reader.rule text package number group).toList where
  numbered d hd := (statedIn_of_versionKeyDependency? (Option.mem_toList.mp hd)).1.line
  pointsInto d hd := by
    obtain ⟨hstated, hname⟩ := statedIn_of_versionKeyDependency? (Option.mem_toList.mp hd)
    exact hstated.pointsInto .pyproject (some package) ⟨rfl, hname⟩
  ordered := pairwise_toList _ _

/-- **A line by itself.** -/
theorem reports_readLine (reader : ManifestReader) (text : List Char) (number : Nat) (kind : ManifestKind)
    (table : Option (List Char)) (group : Option Group) :
    reader.Reports kind (kind.packageOf? table) number text
      (reader.readLine text number kind table group) := by
  have hmerged : reader.Reports kind none number text
      (mergeEntries ((admittedDialects kind table).map fun dialect =>
        dialect.parse reader.rule text number ((group <|> Group.ofTable? table none).getD .main))) := by
    refine reports_mergeEntries kind fun batch hbatch d hd => ?_
    obtain ⟨dialect, hdialect, rfl⟩ := List.mem_map.mp hbatch
    rw [← readPart_of_mem_admittedDialects hdialect]
    exact statedIn_of_mem_parse hd
  cases kind with
  | requirements =>
      cases htable : table.bind PoetryTable.ofTable? with
      | none => simpa [readLine, htable, ManifestKind.packageOf?] using hmerged
      | some poetry => simpa [readLine, htable, ManifestKind.packageOf?] using hmerged
  | pyproject =>
      cases htable : table.bind PoetryTable.ofTable? with
      | none => simpa [readLine, htable, ManifestKind.packageOf?] using hmerged
      | some poetry =>
          cases hpackage : poetry.package with
          | none => simpa [readLine, htable, hpackage, ManifestKind.packageOf?] using hmerged
          | some package =>
              simpa [readLine, htable, hpackage, ManifestKind.packageOf?] using
                reports_versionKey reader package poetry.group

end Line

/-! ### Documents -/

section Document

variable {reader : ManifestReader} {line : List Char} {number : Nat}

/-- The package that the reading of a document has come to, if the line belongs to the table of a single
package. -/
def packageAt? (reader : ManifestReader) (kind : ManifestKind) (lines : List (List Char))
    (number : Nat) : Option (List Char) :=
  kind.packageOf? (reader.stateAfter .start 0 (lines.take number)).table

/-- Arrays of dependencies are opened in tables that are about no single package. -/
def KeepsApart (state : DocumentState) : Prop :=
  state.group.isSome = true → ManifestKind.pyproject.packageOf? state.table = none

theorem packageOf?_of_group {table : Option (List Char)} {key : List Char} {group : Group}
    (h : Group.ofTable? table (some key) = some group) :
    ManifestKind.pyproject.packageOf? table = none := by
  cases table with
  | none => rfl
  | some table =>
      have hnone : PoetryTable.ofTable? table = none := by
        simp only [Group.ofTable?, Option.bind_eq_bind, Option.bind_some] at h
        split at h
        · next hproject =>
            rw [hproject]
            decide
        · split at h
          · next hextras =>
              rw [hextras]
              decide
          · split at h
            · next hgroups =>
                rw [hgroups]
                decide
            · split at h
              · next hpoetry =>
                  rw [Bool.and_eq_true, decide_eq_true_eq] at hpoetry
                  rw [hpoetry.1]
                  decide
              · cases h
      simp only [ManifestKind.packageOf?, Option.bind_some, hnone, Option.bind_none]

theorem reports_arrayEntries (group : Group) :
    reader.Reports .pyproject none number line (reader.arrayEntries line number group) := by
  refine reports_mergeEntries .pyproject fun batch hbatch d hd => ?_
  rcases List.mem_pair.mp hbatch with rfl | rfl
  · exact statedIn_of_mem_arrayDependencies hd
  · exact statedIn_of_mem_parenthesizedDependencies hd

theorem reports_tableEntries (table : List Char) :
    reader.Reports .pyproject (ManifestKind.pyproject.packageOf? (some table)) number line
      (reader.tableEntries line number table) := by
  have hpackage : ManifestKind.pyproject.packageOf? (some table)
      = (PoetryTable.ofTable? table).bind PoetryTable.package := rfl
  rw [tableEntries, hpackage]
  split
  · exact reports_nil
  · next group package htable =>
      rw [htable]
      exact reports_versionKey reader package group
  · next group htable =>
      rw [htable]
      exact reports_of_statedIn .pyproject (fun d hd => statedIn_of_mem_tableDependencies hd) (pairwise_toList _ _)

/-- **One line of a document.** What is found there points into it, and arrays stay in tables that are about
no single package. -/
theorem reports_step (reader : ManifestReader) (line : List Char) (number : Nat) {state : DocumentState}
    (hstate : KeepsApart state) :
    reader.Reports .pyproject (ManifestKind.pyproject.packageOf? state.table) number line
        (reader.step state number line).1 ∧
      KeepsApart (reader.step state number line).2 := by
  have harray : ∀ group : Option Group,
      (group.isSome = true → ManifestKind.pyproject.packageOf? state.table = none) →
      reader.Reports .pyproject (ManifestKind.pyproject.packageOf? state.table) number line
        ((group.map (reader.arrayEntries line number)).getD []) := by
    intro group hgroup
    cases group with
    | none => exact reports_nil
    | some group =>
        rw [hgroup rfl]
        exact reports_arrayEntries group
  by_cases hdepth : 0 < state.depth
  · rw [step_inside hdepth]
    exact ⟨harray state.group hstate, hstate⟩
  · have hdepth := Int.not_lt.mp hdepth
    cases hheader : tableHeader? line with
    | some header =>
        rw [step_header hdepth hheader]
        exact ⟨reports_nil, fun h => absurd h (by simp)⟩
    | none =>
        cases hopened : openedArray? (codePart line) with
        | some opened =>
            rw [step_opening hdepth hheader hopened]
            have hgroup : (Group.ofTable? state.table (some opened.1)).isSome = true →
                ManifestKind.pyproject.packageOf? state.table = none := by
              intro h
              obtain ⟨group, hgroup⟩ := Option.isSome_iff_exists.mp h
              exact packageOf?_of_group hgroup
            exact ⟨harray _ hgroup, hgroup⟩
        | none =>
            rw [step_entry hdepth hheader hopened]
            refine ⟨?_, fun h => absurd h (by simp)⟩
            cases state.table with
            | none => exact reports_nil
            | some table => exact reports_tableEntries table

/-- The entries of a document, in the order of lines and of columns. -/
def FollowsInText (a b : Dependency) : Prop :=
  a.line < b.line ∨ a.line = b.line ∧ a.nameSpan.stop ≤ b.nameSpan.start

/-- The entries of one line and those of later lines. -/
theorem Reports.pairwise_append {kind : ManifestKind} {package : Option (List Char)}
    {found later : List Dependency} (h : reader.Reports kind package number line found)
    (hlater : ∀ d ∈ later, number < d.line) (hpairwise : later.Pairwise FollowsInText) :
    (found ++ later).Pairwise FollowsInText := by
  refine List.pairwise_append.mpr ⟨?_, hpairwise, ?_⟩
  · refine h.ordered.imp_of_mem fun {a b} ha hb hab => Or.inr ⟨?_, hab⟩
    rw [h.numbered a ha, h.numbered b hb]
  · intro a ha b hb
    refine Or.inl ?_
    rw [h.numbered a ha]
    exact hlater b hb

/-- The entries of one line and those of later lines, each with the number and text of its line. -/
theorem exists_line_of_mem_append {found later : List Dependency} {first : Nat} {line : List Char}
    {rest : List (List Char)} (P : Nat → List Char → Dependency → Prop)
    (hfound : ∀ d ∈ found, d.line = first ∧ P 0 line d)
    (hlater : ∀ d ∈ later, ∃ number text, d.line = first + 1 + number ∧ rest[number]? = some text ∧
      P (number + 1) text d) {d : Dependency} (hd : d ∈ found ++ later) :
    ∃ number text, d.line = first + number ∧ (line :: rest)[number]? = some text ∧ P number text d := by
  rcases List.mem_append.mp hd with hd | hd
  · obtain ⟨hline, hd⟩ := hfound d hd
    exact ⟨0, line, hline, rfl, hd⟩
  · obtain ⟨number, text, hnumber, htext, hd⟩ := hlater d hd
    exact ⟨number + 1, text, by omega, by simpa using htext, hd⟩

/-- The entries of lines from a state on. The induction is on the lines; the state before each of them is
the one after the lines before. -/
theorem reports_readFrom (reader : ManifestReader) {state : DocumentState} (hstate : KeepsApart state)
    (first : Nat) (lines : List (List Char)) :
    (∀ d ∈ reader.readFrom state first lines, ∃ number line, d.line = first + number ∧
      lines[number]? = some line ∧ d.PointsInto reader.rule .pyproject
        (ManifestKind.pyproject.packageOf? (reader.stateAfter state first (lines.take number)).table)
        line) ∧
      (reader.readFrom state first lines).Pairwise FollowsInText := by
  induction lines generalizing state first with
  | nil => exact ⟨by simp [readFrom], List.Pairwise.nil⟩
  | cons line rest ih =>
      obtain ⟨hreports, hnext⟩ := reports_step reader line first hstate
      obtain ⟨hpoints, hpairwise⟩ := ih hnext (first + 1)
      rw [readFrom_cons]
      refine ⟨?_, hreports.pairwise_append ?_ hpairwise⟩
      · exact fun d hd => exists_line_of_mem_append
          (fun number text d => d.PointsInto reader.rule .pyproject (ManifestKind.pyproject.packageOf?
            (reader.stateAfter state first ((line :: rest).take number)).table) text)
          (fun d hd => ⟨hreports.numbered d hd, hreports.pointsInto d hd⟩) hpoints hd
      · intro d hd
        obtain ⟨number, -, hnumber, -⟩ := hpoints d hd
        omega

theorem reports_readRequirements (reader : ManifestReader) (first : Nat) (lines : List (List Char)) :
    (∀ d ∈ reader.readRequirements first lines, ∃ number line, d.line = first + number ∧
      lines[number]? = some line ∧ d.PointsInto reader.rule .requirements none line) ∧
      (reader.readRequirements first lines).Pairwise FollowsInText := by
  induction lines generalizing first with
  | nil => exact ⟨by simp [readRequirements], List.Pairwise.nil⟩
  | cons line rest ih =>
      obtain ⟨hpoints, hpairwise⟩ := ih (first + 1)
      have hreports : reader.Reports .requirements none first line
          (requirementsDependencies reader.rule line first .main) := by
        refine reports_of_statedIn .requirements
          (fun d hd => statedIn_of_mem_requirementsDependencies hd) ?_
        rw [requirementsDependencies]
        split
        · exact List.Pairwise.nil
        · simp only
          split
          · exact List.Pairwise.nil
          · exact pairwise_toList _ _
      rw [readRequirements]
      refine ⟨?_, hreports.pairwise_append ?_ hpairwise⟩
      · exact fun d hd => exists_line_of_mem_append
          (fun _ text d => d.PointsInto reader.rule .requirements none text)
          (fun d hd => ⟨hreports.numbered d hd, hreports.pointsInto d hd⟩) hpoints hd
      · intro d hd
        obtain ⟨number, -, hnumber, -⟩ := hpoints d hd
        omega

/-- **A whole document.** -/
theorem reports_readText (kind : ManifestKind) (text : List Char) :
    (∀ d ∈ reader.readText text kind, ∃ line, (splitLines text)[d.line]? = some line ∧
      d.PointsInto reader.rule kind (reader.packageAt? kind (splitLines text) d.line) line) ∧
      (reader.readText text kind).Pairwise FollowsInText := by
  cases kind with
  | pyproject =>
      obtain ⟨hpoints, hpairwise⟩ := reports_readFrom reader
        (show KeepsApart .start from fun h => absurd h (by simp [DocumentState.start])) 0 (splitLines text)
      refine ⟨fun d hd => ?_, hpairwise⟩
      obtain ⟨number, line, hnumber, hline, hd⟩ := hpoints d hd
      obtain rfl : d.line = number := by omega
      exact ⟨line, hline, hd⟩
  | requirements =>
      obtain ⟨hpoints, hpairwise⟩ := reports_readRequirements reader 0 (splitLines text)
      refine ⟨fun d hd => ?_, hpairwise⟩
      obtain ⟨number, line, hnumber, hline, hd⟩ := hpoints d hd
      obtain rfl : d.line = number := by omega
      exact ⟨line, hline, hd⟩

end Document

/-- **Spans point at what was read.** On a line by itself and in a document, every dependency points into its
line: its spans lie in the part of the line that is read, the name before the constraint, and cover the
constraint and the name, or the key `version` in the table of the package with that name; the name is
accepted, and the constraint has no blanks around it and no delimiter in it. The names on one line stand apart
and in order, and the lines of a document follow one another. -/
theorem spans_point_at_what_was_read (reader : ManifestReader) (kind : ManifestKind) :
    (∀ (text : List Char) (number : Nat) (table : Option (List Char)) (group : Option Group),
      (∀ d ∈ reader.readLine text number kind table group,
        d.line = number ∧ d.PointsInto reader.rule kind (kind.packageOf? table) text) ∧
      (reader.readLine text number kind table group).Pairwise
        fun a b => a.nameSpan.stop ≤ b.nameSpan.start) ∧
    ∀ text : List Char,
      (∀ d ∈ reader.readText text kind, ∃ line, (splitLines text)[d.line]? = some line ∧
        d.PointsInto reader.rule kind (reader.packageAt? kind (splitLines text) d.line) line) ∧
      (reader.readText text kind).Pairwise
        fun a b => a.line < b.line ∨ a.line = b.line ∧ a.nameSpan.stop ≤ b.nameSpan.start := by
  refine ⟨fun text number table group => ?_, fun text => reports_readText kind text⟩
  have hreports := reports_readLine reader text number kind table group
  exact ⟨fun d hd => ⟨hreports.numbered d hd, hreports.pointsInto d hd⟩, hreports.ordered⟩

end ManifestReader

end ManifestLens

/-!
## The arrays of a document, line by line

Where the reading stands before a line tells whether the line belongs to an array, and to which group the
elements of that array belong. What a document states on a line of an array is what the line states as one of
that array, and nothing if the array holds no dependencies.
-/

namespace ManifestLens

open Text

/-- The array that a line belongs to: the group of its elements, which is none where they are no dependencies.
A line outside arrays that opens none belongs to none. -/
def DocumentState.arrayGroup? (state : DocumentState) (line : List Char) : Option (Option Group) :=
  if 0 < state.depth then some state.group
  else if (tableHeader? line).isSome then none
  else (openedArray? (codePart line)).map fun opened => Group.ofTable? state.table (some opened.1)

namespace ManifestReader

variable {reader : ManifestReader} {state : DocumentState} {line : List Char} {number : Nat}

theorem step_of_arrayGroup? {group : Option Group} (h : state.arrayGroup? line = some group) :
    (reader.step state number line).1 = (group.map (reader.arrayEntries line number)).getD [] := by
  unfold DocumentState.arrayGroup? at h
  split at h
  · next hdepth =>
      cases h
      rw [step_inside hdepth]
  · next hdepth =>
      split at h
      · cases h
      · next hheader =>
          obtain ⟨⟨key, value⟩, hopened, rfl⟩ := Option.map_eq_some_iff.mp h
          rw [step_opening (Int.not_lt.mp hdepth) (by simpa using hheader) hopened]

theorem keepsApart_start : KeepsApart .start := fun h => absurd h (by simp [DocumentState.start])

theorem keepsApart_stateAfter (reader : ManifestReader) (hstate : KeepsApart state) (number : Nat)
    (lines : List (List Char)) : KeepsApart (reader.stateAfter state number lines) := by
  induction lines generalizing state number with
  | nil => exact hstate
  | cons line rest ih => exact ih (reports_step reader line number hstate).2 (number + 1)

/-- **What a document states on a line** is what the step at this line finds. -/
theorem filter_line_readFrom (hstate : KeepsApart state) {lines : List (List Char)} {n : Nat}
    (hline : lines[n]? = some line) : ((reader.readFrom state 0 lines).filter fun d => d.line == n)
      = (reader.step (reader.stateAfter state 0 (lines.take n)) n line).1 := by
  have hlength : n < lines.length := (List.getElem?_eq_some_iff.mp hline).1
  have hsplit : lines = lines.take n ++ line :: lines.drop (n + 1) := by
    obtain ⟨-, rfl⟩ := List.getElem?_eq_some_iff.mp hline
    rw [← List.drop_eq_getElem_cons, List.take_append_drop]
  have htake : (lines.take n).length = n := List.length_take_of_le (Nat.le_of_lt hlength)
  have hbefore := keepsApart_stateAfter reader hstate 0 (lines.take n)
  obtain ⟨hreports, hafter⟩ := reports_step reader line n hbefore
  have hfirst : (reader.readFrom state 0 (lines.take n)).filter (fun d => d.line == n) = [] := by
    refine List.filter_eq_nil_iff.mpr fun d hd heq => ?_
    obtain ⟨number, text, hnumber, htext, -⟩ := (reports_readFrom reader hstate 0 (lines.take n)).1 d hd
    have := (List.getElem?_eq_some_iff.mp htext).1
    have := beq_iff_eq.mp heq
    omega
  have hlast : (reader.readFrom (reader.step (reader.stateAfter state 0 (lines.take n)) n line).2 (n + 1)
      (lines.drop (n + 1))).filter (fun d => d.line == n) = [] := by
    refine List.filter_eq_nil_iff.mpr fun d hd heq => ?_
    obtain ⟨number, -, hnumber, -⟩ := (reports_readFrom reader hafter (n + 1) (lines.drop (n + 1))).1 d hd
    have := beq_iff_eq.mp heq
    omega
  have hstep : ((reader.step (reader.stateAfter state 0 (lines.take n)) n line).1).filter (fun d => d.line == n)
      = (reader.step (reader.stateAfter state 0 (lines.take n)) n line).1 :=
    List.filter_eq_self.mpr fun d hd => beq_iff_eq.mpr (hreports.numbered d hd)
  calc (reader.readFrom state 0 lines).filter (fun d => d.line == n)
      = (reader.readFrom state 0 (lines.take n ++ line :: lines.drop (n + 1))).filter (fun d => d.line == n) := by
        rw [← hsplit]
    _ = (reader.step (reader.stateAfter state 0 (lines.take n)) n line).1 := by
        rw [readFrom_append, readFrom_cons, htake, Nat.zero_add, List.filter_append, List.filter_append, hfirst,
          hlast, hstep, List.nil_append, List.append_nil]

/-- Where the reading of a document stands before a line. -/
def stateBefore (reader : ManifestReader) (text : List Char) (n : Nat) : DocumentState :=
  reader.stateAfter .start 0 ((splitLines text).take n)

theorem filter_line_readText {text : List Char} {n : Nat} (hline : (splitLines text)[n]? = some line) :
    ((reader.readText text).filter fun d => d.line == n) = (reader.step (reader.stateBefore text n) n line).1 :=
  filter_line_readFrom keepsApart_start hline

end ManifestReader

end ManifestLens
