import ManifestLens.Editor.Action
import ManifestLens.Editor.Line
import ManifestLens.Editor.Request
import ManifestLens.Proofs.Buffer.Edit
import ManifestLens.Proofs.Constraint.Allowing
import ManifestLens.Proofs.Manifest.Placement
import ManifestLens.Proofs.Schedule.Company

/-!
# Actions and the versions they name

Every action writes one operator before one version that its title names. An update takes the operator over from
the constraint it replaces, whatever that operator says, so whether the text then allows the version is decided by
the operator and the spelling of the version alone.
-/

namespace ManifestLens

open Version

namespace QuickAction

variable {dependency : Dependency} {metadata : PackageOverview}

/-- The operator and the version that an action of a kind puts together. -/
inductive Proposes (dependency : Dependency) (metadata : PackageOverview) :
    ActionKind → Option Operator → List Char → Prop
  | latest (hlatest : metadata.latest.isTrue = true) :
      Proposes dependency metadata .update (updateOperator dependency) metadata.latest.display.toList
  | recent {version : String} (hrecent : version ∈ metadata.stableVersions.take maxRecent) :
      Proposes dependency metadata .update (updateOperator dependency) version.toList
  | change {operator : Operator} {meaning : String} (hchoice : (operator, meaning) ∈ operatorChoices)
      (harray : dependency.dialect = .array) (hsingle : ',' ∉ dependency.constraint) :
      Proposes dependency metadata .operatorChange (some operator) (firstConstraint dependency).2

/-- An action writes an operator before a version over the constraint, and its title names the version. -/
structure Writes (dependency : Dependency) (action : QuickAction) (operator : Option Operator)
    (version : List Char) : Prop where
  edits : action.edits = [constraintEdit dependency operator version]
  title : version <:+: action.title.toList

section Members

variable {action : QuickAction}

theorem exists_of_mem_latestUpdate? {current : String}
    (h : action ∈ latestUpdate? dependency current metadata.latest) :
    Proposes dependency metadata action.kind (updateOperator dependency) metadata.latest.display.toList ∧
      Writes dependency action (updateOperator dependency) metadata.latest.display.toList := by
  unfold latestUpdate? at h
  split at h
  · cases h
  · next hlatest =>
      obtain rfl := (Option.some.inj h).symm
      refine ⟨.latest (by simp_all), rfl, ?_⟩
      exact ⟨("Update " ++ String.ofList dependency.name ++ " to latest version (").toList, ")".toList, by simp⟩

theorem exists_of_mem_recentUpdates {current : String} (h : action ∈ recentUpdates dependency current metadata) :
    ∃ version, Proposes dependency metadata action.kind (updateOperator dependency) version ∧
      Writes dependency action (updateOperator dependency) version := by
  obtain ⟨⟨version, index⟩, hmem, rfl⟩ := List.mem_map.mp h
  refine ⟨version.toList, .recent (List.fst_mem_of_mem_zipIdx (List.mem_of_mem_filter hmem)), rfl, ?_⟩
  exact ⟨("Update " ++ String.ofList dependency.name ++ " to version ").toList,
    (if index = 0 then " (latest)" else "").toList, by simp⟩

theorem exists_of_mem_operatorChanges
    (h : action ∈ operatorChanges dependency (firstConstraint dependency).2) :
    ∃ operator, Proposes dependency metadata action.kind (some operator) (firstConstraint dependency).2 ∧
      Writes dependency action (some operator) (firstConstraint dependency).2 := by
  unfold operatorChanges at h
  split at h
  · next hconditions =>
      obtain ⟨⟨operator, meaning⟩, hmem, rfl⟩ := List.mem_map.mp h
      refine ⟨operator, .change (List.mem_of_mem_filter hmem) hconditions.1 hconditions.2.2, rfl, ?_⟩
      exact ⟨("Change " ++ String.ofList dependency.name ++ " to ").toList ++ operator.text,
        (" (" ++ meaning ++ ")").toList, by simp [constraintEdit, Operator.textOf]⟩
  · cases h

theorem exists_of_mem_ofMetadata (h : action ∈ ofMetadata dependency metadata) :
    ∃ operator version, Proposes dependency metadata action.kind operator version ∧
      Writes dependency action operator version := by
  rw [ofMetadata, List.mem_append, List.mem_append] at h
  rcases h with (hlatest | hrecent) | hchange
  · exact ⟨_, _, exists_of_mem_latestUpdate? (Option.mem_toList.mp hlatest)⟩
  · exact ⟨_, exists_of_mem_recentUpdates hrecent⟩
  · obtain ⟨operator, hoperator⟩ := exists_of_mem_operatorChanges hchange
    exact ⟨_, _, hoperator⟩

end Members

/-- An entry whose first piece is its upper bound. -/
def upperBounded : Dependency :=
  ⟨"requests".toList, "<2.0,>=1.0".toList, ⟨8, 10⟩, ⟨0, 8⟩, 0, .main, .requirementsLine, []⟩

def pastBound : PackageOverview := ⟨.null, ["3.0"], .string "3.0", .null, [], .null, [], []⟩

def pastBoundUpdate : QuickAction :=
  ⟨"Update requests to latest version (3.0)", .update, [⟨0, ⟨8, 10⟩, "<3.0".toList⟩], true⟩

end QuickAction

end ManifestLens

/-!
## Line numbers of documents and buffers

A document is read by the lines that its text breaks into, of whatever kind the breaks are; a buffer
counts line feeds. The two agree as long as the breaks are plain. Any other break makes the document count
one line more than the buffer from there on, and then a dependency further down is looked for, and edited,
in a line that is not its own.
-/

namespace ManifestLens

open Text

namespace Buffer

/-! ### Where the numbers agree -/

theorem notMem_lineFeed_of_lineAt? {buffer : Buffer} {number : Nat} {line : List Char}
    (h : buffer.lineAt? number = some line) : '\n' ∉ line := by
  obtain ⟨raw, hraw, rfl⟩ := exists_of_lineAt? h
  obtain ⟨-, -, -, -, -, hfeed⟩ := exists_place hraw
  obtain ⟨returns, hreturns⟩ := exists_withoutReturns_append raw
  intro hmem
  exact hfeed (by rw [hreturns]; simp [hmem])

/-- What is found on a line has the number of the line, wherever its constraint may stand. -/
theorem exists_lineAt?_of_mem_dependenciesOn {buffer : Buffer} {number : Int} {d : Dependency}
    (h : d ∈ buffer.dependenciesOn number) :
    ∃ line, buffer.lineAt? number = some line ∧ (d.line : Int) = number := by
  rw [dependenciesOn] at h
  cases hline : buffer.lineAt? number with
  | none => simp [hline] at h
  | some line =>
      have hnonneg : 0 ≤ number := by
        by_contra hneg
        rw [lineAt?, if_pos (by omega)] at hline
        cases hline
      refine ⟨line, rfl, ?_⟩
      obtain ⟨n, rfl⟩ := Int.eq_ofNat_of_zero_le hnonneg
      simp only [hline, Int.toNat_natCast] at h
      split at h
      · rw [(ManifestReader.standsOn_of_mem_readLine (notMem_lineFeed_of_lineAt? hline) h).line]
      · obtain ⟨-, hnumber⟩ := List.mem_filter.mp h
        rw [beq_iff_eq.mp hnumber]

/-- A dependency that is found on a line of the buffer, behind plain breaks, has its constraint there. -/
theorem exists_covers {buffer : Buffer} {number : Int}
    (hplain : ∀ raw ∈ buffer.rawLines.take number.toNat, breaksPlainly raw = true)
    {d : Dependency} (h : d ∈ buffer.dependenciesOn number) :
    ∃ line, buffer.lineAt? number = some line ∧ (d.line : Int) = number ∧
      d.span.Covers line d.constraint := by
  rw [dependenciesOn] at h
  cases hline : buffer.lineAt? number with
  | none => simp [hline] at h
  | some line =>
      have hnonneg : 0 ≤ number := by
        by_contra hneg
        rw [lineAt?, if_pos (by omega)] at hline
        cases hline
      obtain ⟨n, rfl⟩ := Int.eq_ofNat_of_zero_le hnonneg
      refine ⟨line, rfl, ?_⟩
      simp only [hline, Int.toNat_natCast] at h hplain
      split at h
      · -- The line is read by itself.
        have hstands := ManifestReader.standsOn_of_mem_readLine (notMem_lineFeed_of_lineAt? hline) h
        rw [hstands.line]
        exact ⟨rfl, hstands.covers⟩
      · obtain ⟨hfound, hnumber⟩ := List.mem_filter.mp h
        obtain rfl : d.line = n := by simpa using hnumber
        rw [ManifestReader.readText] at hfound
        obtain ⟨piece, hpiece, hstands⟩ := ManifestReader.standsOn_of_mem_readAll
          (fun line hmem =>
            (isUnbroken_of_mem_splitLinesFrom isUnbroken_nil hmem).notMem (by decide)) hfound
        obtain ⟨raw, hraw, -⟩ := exists_of_lineAt? hline
        obtain ⟨more, hmore⟩ := exists_lineAt?_of_splitLines hplain (List.getElem?_eq_some_iff.mp hraw).1
          hpiece
        rw [hline] at hmore
        obtain rfl := Option.some.inj hmore
        exact ⟨rfl, hstands.covers.append_right more⟩

/-! ### Where they do not -/

/-- A dependency in a line of its own, and what is found there. -/
def sampleLine : ManifestKind → List Char
  | .requirements => "aa==1".toList
  | .pyproject => "dependencies = [\"aa==1\"]".toList

def sampleEntry (number : Nat) : ManifestKind → Dependency
  | .requirements => ⟨"aa".toList, "==1".toList, ⟨2, 3⟩, ⟨0, 2⟩, number, .main, .requirementsLine, []⟩
  | .pyproject => ⟨"aa".toList, "==1".toList, ⟨19, 3⟩, ⟨17, 2⟩, number, .main, .array, []⟩

/-- A line with a closing bracket only closes one bracket, and then there is none left to close. -/
theorem depth_after_closers (reader : ManifestReader) (state : DocumentState) (number count : Nat) :
    (reader.stateAfter state number (List.replicate count [']'])).depth ≤ max (state.depth - count) 0 ∨
      count = 0 := by
  induction count generalizing state number with
  | zero => exact Or.inr rfl
  | succ count ih =>
      refine Or.inl ?_
      have hbalance : bracketBalance none (codePart [']']) = -1 := by decide
      have hheader : tableHeader? [']'] = none := by decide
      have hopened : openedArray? (codePart [']']) = none := by decide
      have hstep : (reader.step state number [']']).2.depth ≤ max (state.depth - 1) 0 := by
        by_cases hdepth : 0 < state.depth
        · rw [ManifestReader.step_inside hdepth, hbalance]
          simp only
          omega
        · rw [ManifestReader.step_entry (by omega) hheader hopened]
          exact Int.le_max_right _ _
      rw [List.replicate_succ, ManifestReader.stateAfter]
      rcases ih (reader.step state number [']']).2 (number + 1) with h | rfl
      · push_cast
        omega
      · rw [List.replicate_zero, ManifestReader.stateAfter]
        push_cast
        omega

/-- Outside arrays the line with the header opens the table and the line with the entries yields them. -/
theorem mem_readFrom_project {state : DocumentState} (hdepth : state.depth ≤ 0) (number : Nat)
    (after : List (List Char)) :
    sampleEntry (number + 1) .pyproject ∈ ManifestReader.standard.readFrom state number
      ("[project]".toList :: sampleLine .pyproject :: after) := by
  have hheader : tableHeader? "[project]".toList = some "project".toList := by decide
  have hnone : tableHeader? (sampleLine .pyproject) = none := by decide
  have hopened : openedArray? (codePart (sampleLine .pyproject))
      = some ("dependencies".toList, "[\"aa==1\"]".toList) := by decide
  have hgroup : Group.ofTable? (some "project".toList) (some "dependencies".toList) = some .main := by
    decide
  have hentries : ManifestReader.standard.arrayEntries (sampleLine .pyproject) (number + 1) .main
      = [sampleEntry (number + 1) .pyproject] := by
    rw [arrayEntries_eq]
    rfl
  rw [ManifestReader.readFrom_cons, ManifestReader.step_header hdepth hheader,
    ManifestReader.readFrom_cons, ManifestReader.step_opening (Int.le_refl 0) hnone hopened, hgroup,
    Option.map_some, Option.getD_some, hentries]
  exact List.mem_append_right _ (List.mem_append_left _ (List.mem_singleton.mpr rfl))

/-- Behind any lines a dependency can be written that is found in its line. -/
theorem exists_sampleEntry_mem (kind : ManifestKind) (lines : List (List Char)) :
    ∃ before, (∀ line ∈ before, IsUnbroken line) ∧ ∀ after,
      sampleEntry (lines.length + before.length) kind
        ∈ ManifestReader.standard.readAll kind (lines ++ (before ++ sampleLine kind :: after)) := by
  cases kind with
  | requirements =>
      refine ⟨[], by simp, fun after => ?_⟩
      rw [ManifestReader.readAll, ManifestReader.readRequirements_append]
      refine List.mem_append_right _ (List.mem_append_left _ ?_)
      rw [Nat.zero_add, List.length_nil, Nat.add_zero]
      exact List.mem_singleton.mpr rfl
  | pyproject =>
      -- First every bracket that is still open is closed.
      let state := ManifestReader.standard.stateAfter .start 0 lines
      let closers := List.replicate state.depth.toNat [']']
      refine ⟨closers ++ ["[project]".toList], ?_, fun after => ?_⟩
      · intro line hline
        rcases List.mem_append.mp hline with h | h
        · rw [(List.mem_replicate.mp h).2]
          unfold IsUnbroken
          decide
        · rw [List.mem_singleton.mp h]
          unfold IsUnbroken
          decide
      · have hdepth : (ManifestReader.standard.stateAfter state (0 + lines.length) closers).depth ≤ 0 := by
          simp only [closers]
          rcases depth_after_closers .standard state (0 + lines.length) state.depth.toNat with h | h
          · omega
          · rw [h, List.replicate_zero, ManifestReader.stateAfter]
            omega
        have hmem := mem_readFrom_project hdepth (0 + lines.length + closers.length) after
        rw [ManifestReader.readAll, ManifestReader.readFrom_append, List.append_assoc,
          ManifestReader.readFrom_append]
        refine List.mem_append_right _ (List.mem_append_right _ ?_)
        rw [List.length_append, List.length_singleton]
        have hnumber : lines.length + (closers.length + 1) = 0 + lines.length + closers.length + 1 := by
          omega
        rw [hnumber]
        exact hmem

/-- The buffer with more text behind a line feed. -/
def extend (buffer : Buffer) (rest : List Char) : Buffer :=
  { buffer with text := buffer.text ++ '\n' :: rest }

theorem lineAt?_extend (buffer : Buffer) {rest : List Char} {lines : List (List Char)}
    (hrest : splitOn '\n' rest = lines ++ [[]]) :
    (buffer.extend rest).lineAt? (((splitOn '\n' buffer.text).length + lines.length : Nat) : Int)
      = some [] := by
  have htext : (buffer.extend rest).text = buffer.text ++ '\n' :: rest := rfl
  rw [lineAt?, if_neg (by omega), Int.toNat_natCast, Buffer.lines, rawLines, List.getElem?_map, htext,
    splitOn_append_separator, List.getElem?_append_right (Nat.le_add_right _ _),
    Nat.add_sub_cancel_left, hrest, List.getElem?_concat_length]
  rfl

/-- Behind a break that is not plain the buffer looks for a dependency in another line. -/
theorem exists_misplaced (buffer : Buffer) (h : ∃ raw ∈ buffer.rawLines, breaksPlainly raw = false) :
    ∃ rest, breaksPlainly rest = true ∧ ∃ (number : Int) (line : List Char) (d : Dependency),
      (buffer.extend rest).lineAt? number = some line ∧
      d ∈ (buffer.extend rest).dependenciesOn number ∧ d.span.slice line ≠ d.constraint := by
  -- The document counts more lines than the buffer; so many empty lines are put behind the sample.
  have hcount : (splitOn '\n' buffer.text).length < (splitLines (buffer.text ++ ['\n'])).length := by
    rw [← withLineFeeds_splitOn]
    exact length_lt_length_splitLines (fun raw hraw => notMem_of_mem_splitOn hraw) h
  have hsplit := splitLinesFrom_append [] buffer.text
  rw [← splitLines] at hsplit
  generalize splitLines (buffer.text ++ ['\n']) = first at hcount hsplit
  obtain ⟨extra, hextra⟩ : ∃ extra, first.length = (splitOn '\n' buffer.text).length + (extra + 1) :=
    ⟨first.length - ((splitOn '\n' buffer.text).length + 1), by omega⟩
  obtain ⟨before, hbefore, hmem⟩ := exists_sampleEntry_mem buffer.kind first
  have hsample : IsUnbroken (sampleLine buffer.kind) := by
    unfold IsUnbroken
    cases buffer.kind <;> decide
  have hlines : ∀ line ∈ before ++ sampleLine buffer.kind :: List.replicate extra [],
      IsUnbroken line := by
    intro line hline
    rcases List.mem_append.mp hline with hline | hline
    · exact hbefore line hline
    · rcases List.mem_cons.mp hline with rfl | hline
      · exact hsample
      · rw [(List.mem_replicate.mp hline).2]
        exact isUnbroken_nil
  have hwritten := written_withLineFeeds hlines
  have hread := hmem (List.replicate extra [])
  have hraw := splitOn_withLineFeeds hlines
  generalize hrest : withLineFeeds (before ++ sampleLine buffer.kind :: List.replicate extra []) = rest
    at hwritten hraw
  have hline : (buffer.extend rest).lineAt? ((first.length + before.length : Nat) : Int) = some [] := by
    rw [← buffer.lineAt?_extend hraw]
    congr 2
    simp only [List.length_append, List.length_cons, List.length_replicate]
    omega
  have hfound : sampleEntry (first.length + before.length) buffer.kind
      ∈ ManifestReader.standard.readText (buffer.text ++ '\n' :: rest) buffer.kind := by
    rw [ManifestReader.readText, splitLines, hsplit, ← splitLines, splitLines_of_written hwritten]
    exact hread
  have hfilter : sampleEntry (first.length + before.length) buffer.kind
      ∈ (ManifestReader.standard.readText (buffer.text ++ '\n' :: rest) buffer.kind).filter
        (·.line == first.length + before.length) := by
    refine List.mem_filter.mpr ⟨hfound, ?_⟩
    cases buffer.kind <;> simp [sampleEntry]
  have hkind : (buffer.extend rest).kind = buffer.kind := rfl
  have htext : (buffer.extend rest).text = buffer.text ++ '\n' :: rest := rfl
  refine ⟨rest, breaksPlainly_of_written hwritten, ((first.length + before.length : Nat) : Int), [],
    sampleEntry (first.length + before.length) buffer.kind, hline, ?_, ?_⟩
  · simp only [dependenciesOn, hline, Int.toNat_natCast, hkind, htext]
    rw [if_neg (by simpa using List.ne_nil_of_mem hfilter)]
    exact hfilter
  · cases buffer.kind <;> simp [sampleEntry, Span.slice]

/-- **Documents and buffers number lines alike exactly behind plain breaks.** If the lines before a line of
a buffer have no other breaks, every dependency that is found on the line has its number, stands there at
its columns, and its edit exchanges the constraint, in this place of the text and nowhere else. Behind a
line with another break some text can follow, itself with plain breaks only, in which a dependency is found
on a line that does not have its constraint at these columns. -/
theorem dependenciesOn_numbered (buffer : Buffer) :
    (∀ number : Int, (∀ raw ∈ buffer.rawLines.take number.toNat, breaksPlainly raw = true) →
      ∀ d ∈ buffer.dependenciesOn number, ∃ line, buffer.lineAt? number = some line ∧
        (d.line : Int) = number ∧ d.span.slice line = d.constraint ∧
        ∀ operator version, ∃ before after, buffer.text = before ++ d.constraint ++ after ∧
          before.count '\n' = d.line ∧
          before.length = lineStart buffer.rawLines d.line + d.span.start ∧
          buffer.withEdits [QuickAction.constraintEdit d operator version]
            = .ok (before ++ (Operator.textOf operator ++ version) ++ after)) ∧
    ((∃ raw ∈ buffer.rawLines, breaksPlainly raw = false) →
      ∃ rest, breaksPlainly rest = true ∧ ∃ (number : Int) (line : List Char) (d : Dependency),
        (buffer.extend rest).lineAt? number = some line ∧
        d ∈ (buffer.extend rest).dependenciesOn number ∧ d.span.slice line ≠ d.constraint) := by
  refine ⟨fun number hplain d hd => ?_, buffer.exists_misplaced⟩
  obtain ⟨line, hline, hnumber, hcovers⟩ := exists_covers hplain hd
  refine ⟨line, hline, hnumber, Span.slice_of_covers hcovers, fun operator version => ?_⟩
  rw [← hnumber] at hline
  exact exists_of_withEdits hline hcovers _

/-- Behind a carriage return and a line feed the second requirement is found on its line, whatever breaks
follow it; behind a form feed some requirement is not. -/
theorem dependenciesOn_numbered_break :
    (∃ line, (Buffer.mk "flask==2.0\r\nrequests==1.0 # \x0c".toList none (some .requirements)).lineAt? 1
        = some line ∧
      Span.slice ⟨8, 5⟩ line = "==1.0".toList) ∧
    ∃ rest number line d,
      ((Buffer.mk ['\x0c'] none (some .requirements)).extend rest).lineAt? number = some line ∧
      d ∈ ((Buffer.mk ['\x0c'] none (some .requirements)).extend rest).dependenciesOn number ∧
      d.span.slice line ≠ d.constraint := by
  refine ⟨?_, ?_⟩
  · obtain ⟨line, hline, -, hslice, -⟩ := (dependenciesOn_numbered
      (Buffer.mk "flask==2.0\r\nrequests==1.0 # \x0c".toList none (some .requirements))).1 1 (by decide)
      ⟨"requests".toList, "==1.0".toList, ⟨8, 5⟩, ⟨0, 8⟩, 1, .main, .requirementsLine, []⟩ (by decide)
    exact ⟨line, hline, hslice⟩
  · obtain ⟨rest, -, number, line, d, hline, hd, hslice⟩ :=
      (dependenciesOn_numbered (Buffer.mk ['\x0c'] none (some .requirements))).2 (by decide)
    exact ⟨rest, number, line, d, hline, hd, hslice⟩

end Buffer

end ManifestLens

/-!
## The edits of quick actions

Whatever an index answers, every quick action that is offered for a line is one edit of that line.
-/

namespace ManifestLens

namespace Work

variable {company : Company World Outcome} {world after : World} {action : QuickAction}

theorem exists_of_comesTo_actionsFor {found all : List QuickAction} {dependencies : List Dependency}
    (h : (actionsFor found dependencies).run.ComesTo company world after (.ok (some all)))
    (haction : action ∈ all) :
    action ∈ found ∨ ∃ d ∈ dependencies, ∃ metadata, action ∈ QuickAction.ofMetadata d metadata := by
  induction dependencies generalizing found world with
  | nil =>
      obtain ⟨-, heq⟩ := h
      cases heq
      exact .inl haction
  | cons dependency rest ih =>
      have hrest {found : List QuickAction} {world : World}
          (h : (actionsFor found rest).run.ComesTo company world after (.ok (some all))) :=
        (ih h).imp_right fun ⟨d, hd, hmetadata⟩ => (⟨d, List.mem_cons_of_mem _ hd, hmetadata⟩ :
          ∃ d ∈ dependency :: rest, ∃ metadata, action ∈ QuickAction.ofMetadata d metadata)
      rw [actionsFor] at h
      obtain ⟨mid, cancelled, -, h⟩ := Process.comesTo_bind_lift_iff.mp h
      cases cancelled with
      | true =>
          obtain ⟨-, heq⟩ := h
          cases heq
      | false =>
          rcases Process.comesTo_bind_iff.mp h with ⟨begun, result, -, h⟩ | ⟨fault, -, heq⟩
          · cases result with
            | none =>
                obtain ⟨later, cancelled, -, h⟩ := Process.comesTo_bind_lift_iff.mp h
                cases cancelled with
                | true =>
                    obtain ⟨-, heq⟩ := h
                    cases heq
                | false => exact hrest h
            | some metadata =>
                rcases hrest h with hfound | hlater
                · exact (List.mem_append.mp hfound).imp_right fun hmem =>
                    ⟨dependency, List.mem_cons_self .., metadata, hmem⟩
                · exact .inr hlater
          · cases heq

theorem exists_of_comesTo_actions {buffer : Buffer} {line : Int} {all : List QuickAction}
    (h : (actions buffer line).run.ComesTo company world after (.ok all)) (haction : action ∈ all) :
    ∃ d ∈ buffer.dependenciesOn line, ∃ metadata, action ∈ QuickAction.ofMetadata d metadata := by
  obtain ⟨begun, -, -, h⟩ := Process.comesTo_bind_lift_iff.mp h
  rcases Process.comesTo_bind_iff.mp h with ⟨mid, found, hfor, h⟩ | ⟨fault, -, heq⟩
  · cases found with
    | none =>
        obtain ⟨-, heq⟩ := h
        cases heq
        cases haction
    | some found =>
        obtain ⟨_, -, -, -, heq⟩ := Process.comesTo_bind_lift_iff.mp h
        cases heq
        exact (exists_of_comesTo_actionsFor hfor haction).resolve_left List.not_mem_nil
  · cases heq

/-- **One edit in its line.** An action that is offered for a line replaces columns of this line, which the buffer
has. -/
theorem exists_edit_of_comesTo_actions {buffer : Buffer} {line : Int} {all : List QuickAction}
    (h : (actions buffer line).run.ComesTo company world after (.ok all)) (haction : action ∈ all) :
    ∃ (number : Nat) (span : Span) (new content : List Char), action.edits = [⟨number, span, new⟩] ∧ line = number ∧
      buffer.lineAt? number = some content := by
  obtain ⟨d, hd, metadata, hmem⟩ := exists_of_comesTo_actions h haction
  obtain ⟨content, hcontent, hnumber⟩ := Buffer.exists_lineAt?_of_mem_dependenciesOn hd
  obtain ⟨operator, version, -, hwrites⟩ := QuickAction.exists_of_mem_ofMetadata hmem
  exact ⟨d.line, d.span, _, content, hwrites.edits, hnumber.symm, hnumber ▸ hcontent⟩

end Work

end ManifestLens
