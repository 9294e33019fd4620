import ManifestLens.Proofs.Editor.Line
import ManifestLens.Proofs.Editor.Offer
import ManifestLens.Proofs.Manifest.Rereading
import ManifestLens.Proofs.Written.Typed

/-!
# Updates settle

An update to the latest release must not be offered again once it has been applied, or a file that is fixed over and
over would never come to rest. The update writes an operator before a version that starts with a digit, and operators
are read up to the first digit, so what has just been written comes apart into the same operator and version. The
line is read again as before, with the new constraint in the old place, and there the latest release is the current
one: nothing is preferred any more, and no update leads to it.
-/

namespace ManifestLens

open Text

/-! ### What has been written -/

section Written

variable {version : List Char}

theorem IsPlainVersion.isTrimmed (h : IsPlainVersion version) : IsTrimmed version :=
  ⟨h.headNot.2, fun c hc => (isConstraintChar_of_isVersionChar (h.all c (List.mem_of_getLast? hc))).2⟩

theorem operatorAndVersion_plain (h : IsPlainVersion version) (operator : Option Operator) :
    operatorAndVersion (Operator.textOf operator ++ version) = (operator, version) := by
  obtain ⟨c, rest, hversion, hdigit⟩ := h.head
  have hhead : ∀ x, version.head? = some x → isDecimal x = true := by
    intro x hx
    rw [hversion] at hx
    exact Option.some.inj hx ▸ isDecimal_of_isAsciiDigit hdigit
  simpa using operatorAndVersion_parts operator isBlankRun_nil h.isTrimmed.last hhead

theorem comma_notMem_of_isPlainVersion (h : IsPlainVersion version) (operator : Option Operator) :
    ',' ∉ Operator.textOf operator ++ version := by
  intro hmem
  rcases List.mem_append.mp hmem with hmem | hmem
  · cases operator with
    | none => cases hmem
    | some operator => exact absurd (operator.exists_text.2 ',' hmem) (by decide)
  · exact absurd (h.all ',' hmem) (by decide)

end Written

namespace Dependency

variable {d : Dependency} {metadata : PackageOverview} {operator : Option Operator} {latest : String}

theorem firstConstraint_of_plain {version : List Char} (h : IsPlainVersion version)
    (hconstraint : d.constraint = Operator.textOf operator ++ version) :
    QuickAction.firstConstraint d = (operator, version) := by
  have hcomma : ∀ c ∈ d.constraint, (c != ',') = true := by
    intro c hc
    rw [bne_iff_ne]
    rintro rfl
    exact comma_notMem_of_isPlainVersion h operator (hconstraint ▸ hc)
  rw [QuickAction.firstConstraint, List.takeWhile_eq_self_iff.mpr hcomma, hconstraint,
    trim_of_isTrimmed (isPatch_of_isPlainVersion h operator).isTrimmed, operatorAndVersion_plain h]

/-- A dependency whose constraint is the latest release behind an operator, and what is offered for it: nothing is
preferred, and every update writes another version behind the same operator. -/
structure IsSettled (d : Dependency) (metadata : PackageOverview) (operator : Option Operator) (latest : String) :
    Prop where
  constraint : operatorAndVersion d.constraint = (operator, latest.toList)
  unpreferred : ∀ action ∈ QuickAction.ofMetadata d metadata, action.isPreferred = false
  updates : ∀ action ∈ QuickAction.ofMetadata d metadata, action.kind = .update →
    ∃ version, version ≠ latest ∧ QuickAction.Writes d action operator version.toList

theorem isSettled_of_constraint (hlatest : metadata.latest = .string latest) (hplain : IsPlainVersion latest.toList)
    (hconstraint : d.constraint = Operator.textOf operator ++ latest.toList)
    (hoperator : operator = none → d.dialect = .poetryTable) : d.IsSettled metadata operator latest := by
  have hfirst := firstConstraint_of_plain hplain hconstraint
  have hupdate : QuickAction.updateOperator d = operator := by
    rw [QuickAction.updateOperator, hfirst]
    cases operator with
    | some operator => rfl
    | none => exact if_pos (hoperator rfl)
  have hcurrent : QuickAction.latestUpdate? d latest metadata.latest = none := by
    rw [QuickAction.latestUpdate?, hlatest]
    simp [QuickAction.isCurrent]
  have hofMetadata : QuickAction.ofMetadata d metadata
      = QuickAction.recentUpdates d latest metadata ++ QuickAction.operatorChanges d latest.toList := by
    simp only [QuickAction.ofMetadata, hfirst, String.ofList_toList, hcurrent, Option.toList_none, List.nil_append]
  refine ⟨hconstraint ▸ operatorAndVersion_plain hplain operator, fun action haction => ?_,
    fun action haction hkind => ?_⟩
  · rw [hofMetadata, List.mem_append] at haction
    rcases haction with haction | haction
    · obtain ⟨_, -, rfl⟩ := List.mem_map.mp haction
      rfl
    · unfold QuickAction.operatorChanges at haction
      split at haction
      · obtain ⟨_, -, rfl⟩ := List.mem_map.mp haction
        rfl
      · cases haction
  · rw [hofMetadata, List.mem_append] at haction
    rcases haction with haction | haction
    · obtain ⟨⟨version, index⟩, hmem, rfl⟩ := List.mem_map.mp haction
      have hother : version ≠ latest := by simpa using (List.mem_filter.mp hmem).2
      refine ⟨version, hother, by rw [← hupdate]; rfl, ?_⟩
      exact ⟨("Update " ++ String.ofList d.name ++ " to version ").toList,
        (if index = 0 then " (latest)" else "").toList, by simp⟩
    · unfold QuickAction.operatorChanges at haction
      split at haction
      · obtain ⟨_, -, rfl⟩ := List.mem_map.mp haction
        cases hkind
      · cases haction

end Dependency

/-! ### The update -/

namespace QuickAction

variable {d : Dependency} {metadata : PackageOverview} {latest : String} {action : QuickAction}

theorem edits_of_isPreferred (hlatest : metadata.latest = .string latest) (haction : action ∈ ofMetadata d metadata)
    (hpreferred : action.isPreferred = true) : action.edits = [updateEdit d latest] := by
  rw [ofMetadata, List.mem_append, List.mem_append] at haction
  rcases haction with (haction | haction) | haction
  · rw [Option.mem_toList] at haction
    unfold latestUpdate? at haction
    split at haction
    · cases haction
    · obtain rfl := (Option.some.inj haction).symm
      rw [hlatest]
      rfl
  · obtain ⟨_, -, rfl⟩ := List.mem_map.mp haction
    cases hpreferred
  · unfold operatorChanges at haction
    split at haction
    · obtain ⟨_, -, rfl⟩ := List.mem_map.mp haction
      cases hpreferred
    · cases haction

/-- Writing a version over the whole constraint is a revision. -/
theorem exists_revision_of_updateEdit {number : Nat} {line : List Char} (hstands : d.StandsOn number line)
    {version : String} (hplain : IsPlainVersion version.toList) : ∃ revision : Revision d,
      revision.edit = updateEdit d version ∧
        revision.constraint = Operator.textOf (updateOperator d) ++ version.toList := by
  have hpatch := isPatch_of_isPlainVersion hplain (updateOperator d)
  have haccepted := @Dialect.accepts_exchange [] d.constraint _ [] d.dialect
    (by simpa using hstands.accepted) hpatch (fun _ hdialect => by
      obtain ⟨operator, hoperator⟩ := Option.isSome_iff_exists.mp (isSome_updateOperator hdialect)
      obtain ⟨⟨c, rest, htext, hc⟩, -⟩ := operator.exists_text
      exact ⟨c, rest ++ version.toList, by rw [hoperator, Operator.textOf, htext]; rfl, hc⟩) (fun _ => rfl)
  refine ⟨{ front := [], old := d.constraint, new := Operator.textOf (updateOperator d) ++ version.toList, back := []
            constraint_eq := by simp
            ne_nil := by simp [hpatch.ne_nil]
            accepted := haccepted
            unbroken := by simpa using isUnbroken_of_not_blank fun c hc => (hpatch.all c hc).2
            patch := fun _ => hpatch }, ?_, ?_⟩
  · rw [updateEdit, constraintEdit, hstands.span_eq]
    rfl
  · simp [Revision.constraint]

end QuickAction

def Edit.onLine (edit : Edit) (line : List Char) : List Char :=
  Replacement.apply ⟨edit.span.start, edit.span.stop, edit.text⟩ line

/-- The text after the preferred action for a dependency. Without one the text stays. -/
def Buffer.fixed (buffer : Buffer) (d : Dependency) (metadata : PackageOverview) : Except BufferFailure (List Char) :=
  match (QuickAction.ofMetadata d metadata).find? (·.isPreferred) with
  | some action => buffer.withEdits action.edits
  | none => .ok buffer.text

theorem Buffer.fixed_of_isSettled (buffer : Buffer) {d : Dependency} {metadata : PackageOverview}
    {operator : Option Operator} {latest : String} (h : d.IsSettled metadata operator latest) :
    buffer.fixed d metadata = .ok buffer.text := by
  have hnone : (QuickAction.ofMetadata d metadata).find? (·.isPreferred) = none := by
    rw [List.find?_eq_none]
    intro action haction
    rw [h.unpreferred action haction]
    exact Bool.false_ne_true
  rw [fixed, hnone]

theorem Buffer.fixed_of_isPreferred (buffer : Buffer) {d : Dependency} {metadata : PackageOverview} {latest : String}
    (hlatest : metadata.latest = .string latest) {action : QuickAction}
    (haction : action ∈ QuickAction.ofMetadata d metadata) (hpreferred : action.isPreferred = true) :
    buffer.fixed d metadata = buffer.withEdits [QuickAction.updateEdit d latest] := by
  obtain ⟨first, hfirst⟩ := Option.isSome_iff_exists.mp
    (List.find?_isSome.mpr ⟨action, haction, hpreferred⟩)
  rw [fixed, hfirst]
  simp only
  rw [QuickAction.edits_of_isPreferred hlatest (List.mem_of_find?_eq_some hfirst) (List.find?_some hfirst)]

/-! ### Readings -/

/-- How a dependency is found: on a line that is read by itself, as one of a table, or in a whole document. -/
inductive Reading where
  | line (number : Nat) (kind : ManifestKind) (table : Option (List Char)) (group : Option Group)
  | document (kind : ManifestKind)

namespace Reading

variable {reading : Reading} {reader : ManifestReader} {lines : List (List Char)} {line : List Char} {d : Dependency}

def found (reader : ManifestReader) (lines : List (List Char)) : Reading → List Dependency
  | .line number kind table group =>
      (lines[number]?.map fun line => reader.readLine line number kind table group).getD []
  | .document kind => reader.readAll kind lines

theorem mem_found_line_iff {number : Nat} {kind : ManifestKind} {table : Option (List Char)} {group : Option Group}
    (hline : lines[number]? = some line) : d ∈ (Reading.line number kind table group).found reader lines ↔
      d ∈ reader.readLine line number kind table group := by
  rw [found, hline]
  rfl

theorem line_of_mem_found {number : Nat} {kind : ManifestKind} {table : Option (List Char)} {group : Option Group}
    (h : d ∈ (Reading.line number kind table group).found reader lines) : d.line = number := by
  rw [found] at h
  cases hline : lines[number]? with
  | none => simp [hline] at h
  | some line =>
      rw [hline] at h
      exact (reader.reports_readLine line number kind table group).numbered d h

theorem standsOn_of_mem_found (hfeed : '\n' ∉ line) (hline : lines[d.line]? = some line)
    (h : d ∈ reading.found reader lines) : d.StandsOn d.line line := by
  cases reading with
  | line number kind table group =>
      obtain rfl := line_of_mem_found h
      exact ManifestReader.standsOn_of_mem_readLine hfeed ((mem_found_line_iff hline).mp h)
  | document kind =>
      have hentry := (ManifestReader.mem_readAll_iff hline).mp h
      cases kind with
      | requirements => exact standsOn_of_mem_requirementsDependencies hentry
      | pyproject => exact ManifestReader.standsOn_of_mem_step hfeed hentry

/-- **A revised line** has the revised dependency, in every reading. -/
theorem exists_revised_of_mem_found (hfeed : '\n' ∉ line) (hline : lines[d.line]? = some line)
    (h : d ∈ reading.found reader lines) (hkey : ¬ opensQuotedKey line) (hclosed : d.HasClosedExtras line)
    (revision : Revision d) :
    ∃ d' ∈ reading.found reader (lines.set d.line (d.revisedLine line revision.constraint)),
      d.IsRevised revision.constraint d' := by
  cases reading with
  | line number kind table group =>
      obtain rfl := line_of_mem_found h
      obtain ⟨d', hd', hrevised⟩ := ManifestReader.exists_revised_of_mem_readLine hfeed
        ((mem_found_line_iff hline).mp h) hclosed revision
      have hset := List.getElem?_set_self (a := d.revisedLine line revision.constraint)
        (List.getElem?_eq_some_iff.mp hline).1
      exact ⟨d', (mem_found_line_iff hset).mpr hd', hrevised⟩
  | document kind => exact ManifestReader.exists_revised_of_mem_readAll hline hfeed h hkey hclosed revision

theorem eq_of_mem_found {other : Dependency} (hother : other ∈ reading.found reader lines)
    (h : d ∈ reading.found reader lines) (hplace : ManifestReader.SamePlace other d) : other = d := by
  cases reading with
  | line number kind table group =>
      rw [found] at hother h
      cases hline : lines[number]? with
      | none => simp [hline] at h
      | some line =>
          rw [hline] at hother h
          exact ManifestReader.eq_of_mem_readLine hother h hplace
  | document kind => exact ManifestReader.eq_of_mem_readAll hother h hplace

end Reading

/-- **Updates settle.** After the preferred action for a dependency, whose extras are closed and whose line opens no
array under a key in quotes, its line is read again with one dependency in the same place. It is the same one save for
its constraint, which is the latest release behind the operator of the old one (or the default operator, or none in a
table), and it is settled. A text with plain breaks is changed in that line, and the next fix leaves it as it is. -/
theorem QuickAction.update_settles {reading : Reading} {reader : ManifestReader} {lines : List (List Char)}
    {line : List Char} {d : Dependency} {metadata : PackageOverview} {latest : String} {action : QuickAction}
    (hfeed : '\n' ∉ line) (hline : lines[d.line]? = some line) (hd : d ∈ reading.found reader lines)
    (hkey : ¬ opensQuotedKey line) (hclosed : d.HasClosedExtras line) (hlatest : metadata.latest = .string latest)
    (hplain : IsPlainVersion latest.toList) (haction : action ∈ ofMetadata d metadata)
    (hpreferred : action.isPreferred = true) :
    ∃ edit, action.edits = [edit] ∧ edit.line = d.line ∧
      ∃ d' ∈ reading.found reader (lines.set d.line (edit.onLine line)),
        (∀ other ∈ reading.found reader (lines.set d.line (edit.onLine line)),
          ManifestReader.SamePlace other d → other = d') ∧
        d.IsRevised (Operator.textOf (updateOperator d) ++ latest.toList) d' ∧
        d'.IsSettled metadata (updateOperator d) latest ∧
        ∀ buffer : Buffer, breaksPlainly buffer.text = true → splitLines buffer.text = lines →
          ∃ edited, buffer.fixed d metadata = .ok edited ∧
            splitLines edited = lines.set d.line (edit.onLine line) ∧
            Buffer.fixed { buffer with text := edited } d' metadata = .ok edited := by
  have hstands := Reading.standsOn_of_mem_found hfeed hline hd
  obtain ⟨revision, hedit, hconstraint⟩ := exists_revision_of_updateEdit hstands hplain
  have hrevisedLine : (updateEdit d latest).onLine line = d.revisedLine line revision.constraint := by
    rw [hconstraint]
    rfl
  obtain ⟨d', hd', hrevised⟩ := Reading.exists_revised_of_mem_found hfeed hline hd hkey hclosed revision
  obtain ⟨extras, hfields⟩ := id hrevised
  have hsettled : d'.IsSettled metadata (updateOperator d) latest := by
    refine Dependency.isSettled_of_constraint hlatest hplain (by rw [hfields]; exact hconstraint) fun hnone => ?_
    rw [hfields]
    by_contra hdialect
    have hsome := isSome_updateOperator (d := d) hdialect
    rw [hnone] at hsome
    cases hsome
  refine ⟨updateEdit d latest, edits_of_isPreferred hlatest haction hpreferred, rfl, d', ?_,
    fun other hother hplace => ?_, hconstraint ▸ hrevised, hsettled, fun buffer hbreaks hlines => ?_⟩
  · rw [hrevisedLine]
    exact hd'
  · rw [hrevisedLine] at hother
    refine Reading.eq_of_mem_found hother hd' ?_
    rw [hfields]
    exact hplace
  · obtain ⟨written, hwritten⟩ := exists_writtenLines hbreaks
    obtain rfl : written = lines := (splitLines_of_written hwritten).symm.trans hlines
    obtain ⟨edited, hedits, hafter⟩ := Buffer.exists_withEdits_revision hwritten hline hstands.covers revision
    refine ⟨edited, ?_, ?_, Buffer.fixed_of_isSettled _ hsettled⟩
    · rw [buffer.fixed_of_isPreferred hlatest haction hpreferred, ← hedit, hedits]
    · rw [splitLines_of_written hafter, hrevisedLine]

/-- A requirement between two bounds, and a package whose latest release is past them. -/
def boundedEntry : Dependency :=
  ⟨"requests".toList, ">=1.0,<2.0".toList, ⟨15, 10⟩, ⟨0, 8⟩, 0, .main, .requirementsLine, ["socks".toList]⟩

def threeReleases : PackageOverview := ⟨.null, ["3.0", "2.0", "1.0"], .string "3.0", .null, [], .null, [], []⟩

/-- The update of the bounded requirement leaves the lower bound, moved to the latest release, and is not offered
again; updates to the earlier releases still are. -/
theorem QuickAction.update_settles_bounds :
    let line := "requests[socks]>=1.0,<2.0 ; python_version < '3'".toList
    let line' := "requests[socks]>=3.0 ; python_version < '3'".toList
    boundedEntry ∈ ManifestReader.standard.readAll .requirements [line] ∧
      ∃ d' ∈ ManifestReader.standard.readAll .requirements [line'],
        d'.constraint = ">=3.0".toList ∧ d'.IsSettled threeReleases (some (.standard .atLeast)) "3.0" := by
  intro line line'
  have hd : boundedEntry ∈ ManifestReader.standard.readAll .requirements [line] := by decide
  have hkey : ¬ opensQuotedKey line := not_opensQuotedKey (by decide)
  have hplain : IsPlainVersion "3.0".toList := ⟨⟨'3', _, rfl, by decide⟩, by decide⟩
  obtain ⟨edit, hedits, -, d', hd', -, ⟨extras, hfields⟩, hsettled, -⟩ :=
    @QuickAction.update_settles (.document .requirements) .standard [line] line boundedEntry threeReleases "3.0"
      ⟨"Update requests to latest version (3.0)", .update, [⟨0, ⟨15, 10⟩, ">=3.0".toList⟩], true⟩
      (by decide) rfl hd hkey (fun _ _ => by decide) rfl hplain (by decide) rfl
  obtain rfl := List.singleton_inj.mp hedits
  exact ⟨hd, d', hd', by rw [hfields]; rfl, hsettled⟩

end ManifestLens
