import ManifestLens.Editor.Action
import ManifestLens.Editor.Completion
import ManifestLens.Proofs.Buffer.Edit
import ManifestLens.Proofs.Manifest.Revision

/-!
# What an edit carries over

An action and a completion exchange columns of one constraint. Read again, the edited manifest states the
same dependencies, with the one constraint changed at these columns and everything behind them on the line
moved by the difference in length: nothing is lost or gained, and no dependency changes its name, its group
or its line.
-/

namespace ManifestLens

open Text

/-! ### Dependencies after an edit -/

namespace Edit

/-- The dependency with the columns of the edit exchanged in its constraint. -/
def revise (edit : Edit) (d : Dependency) : Dependency :=
  d.revised (d.constraint.take (edit.span.start - d.span.start) ++ edit.text
    ++ d.constraint.drop (edit.span.stop - d.span.start))

/-- What becomes of a dependency by an edit of the constraint of another one, or of its own. -/
def carry (edit : Edit) (target d : Dependency) : Dependency :=
  if d = target then edit.revise d
  else if (d.line : Int) = edit.line ∧ edit.span.stop ≤ d.nameSpan.start then
    d.shifted edit.span.length edit.text.length
  else d

end Edit

def Revision.edit {d : Dependency} (revision : Revision d) : Edit :=
  ⟨d.line, ⟨d.span.start + revision.front.length, revision.old.length⟩, revision.new⟩

section Carry

variable {d : Dependency}

theorem Revision.revise_edit (revision : Revision d) :
    revision.edit.revise d = d.revised revision.constraint := by
  have hfront : d.span.start + revision.front.length - d.span.start = revision.front.length := by omega
  have hstop : d.span.start + revision.front.length + revision.old.length - d.span.start
      = (revision.front ++ revision.old).length := by
    rw [List.length_append]
    omega
  have htake : d.constraint.take revision.front.length = revision.front := by
    rw [revision.constraint_eq, List.append_assoc, List.take_left]
  have hdrop : d.constraint.drop (revision.front ++ revision.old).length = revision.back := by
    rw [revision.constraint_eq, List.drop_left]
  simp only [Edit.revise, Revision.edit, Span.stop, hfront, hstop, htake, hdrop, constraint]

theorem Edit.carry_of_line_ne {edit : Edit} {other : Dependency} (hline : edit.line = d.line)
    (h : other.line ≠ d.line) : edit.carry d other = other := by
  have hne : other ≠ d := by
    rintro rfl
    exact h rfl
  rw [carry, if_neg hne, if_neg]
  rintro ⟨heq, -⟩
  exact h (by omega)

theorem Edit.map_carry_of_line_ne {edit : Edit} {found : List Dependency} (hline : edit.line = d.line)
    (h : ∀ other ∈ found, other.line ≠ d.line) : found.map (edit.carry d) = found := by
  have : found.map (edit.carry d) = found.map id :=
    List.map_congr_left fun other hother => carry_of_line_ne hline (h other hother)
  rw [this, List.map_id]

/-- On the line of the edit the dependencies that are found after a revision are those before it, carried
over. -/
theorem Revises.eq_map_carry {found found' : List Dependency} (revision : Revision d)
    (h : Revises d revision.constraint found found') (hlines : ∀ other ∈ found, other.line = d.line)
    (hspan : d.span.length = d.constraint.length) :
    found' = found.map (revision.edit.carry d) := by
  obtain ⟨earlier, later, rfl, rfl, hearlier, hlater⟩ := h
  have hlength : d.constraint.length
      = revision.front.length + revision.old.length + revision.back.length := by
    rw [revision.constraint_eq, List.length_append, List.length_append]
  have hnew : revision.constraint.length
      = revision.front.length + revision.new.length + revision.back.length := by
    rw [Revision.constraint, List.length_append, List.length_append]
  rw [List.map_append, List.map_cons]
  congr 1
  · refine (List.map_id earlier).symm.trans (List.map_congr_left fun other hother => ?_)
    obtain ⟨hne, hstart⟩ := hearlier other hother
    rw [Edit.carry, if_neg hne, if_neg]
    · rfl
    · rintro ⟨-, hstop⟩
      simp only [Revision.edit, Span.stop] at hstop
      omega
  · congr 1
    · rw [Edit.carry, if_pos rfl, revision.revise_edit]
    · refine List.map_congr_left fun other hother => ?_
      obtain ⟨hne, hname, hstart⟩ := hlater other hother
      have hline := hlines other (by simp [hother])
      simp only [Span.stop] at hname hstart
      rw [Edit.carry, if_neg hne, if_pos]
      · simp only [Dependency.shifted, Revision.edit, hlength, hnew]
        congr 2
        · omega
        · omega
      · refine ⟨by rw [hline]; rfl, ?_⟩
        simp only [Revision.edit, Span.stop]
        omega

end Carry

/-! ### Documents after an edit -/

namespace ManifestReader

variable {reader : ManifestReader} {lines : List (List Char)} {d : Dependency}

theorem line_of_mem_readFrom {state : DocumentState} {first : Nat}
    (hlines : ∀ line ∈ lines, '\n' ∉ line) (h : d ∈ reader.readFrom state first lines) :
    first ≤ d.line ∧ d.line < first + lines.length := by
  obtain ⟨number, line, state', hline, hd⟩ := exists_of_mem_readFrom h
  have hstands := standsOn_of_mem_step (hlines line (List.mem_of_getElem? hline)) hd
  have hnumber : number < lines.length := by
    by_contra hge
    rw [List.getElem?_eq_none (by omega)] at hline
    cases hline
  rw [hstands.line]
  omega

theorem line_of_mem_readRequirements {first : Nat} (h : d ∈ reader.readRequirements first lines) :
    first ≤ d.line ∧ d.line < first + lines.length := by
  obtain ⟨number, line, hline, hd⟩ := exists_of_mem_readRequirements h
  have hstands := standsOn_of_mem_requirementsDependencies hd
  have hnumber : number < lines.length := by
    by_contra hge
    rw [List.getElem?_eq_none (by omega)] at hline
    cases hline
  rw [hstands.line]
  omega

/-- **A revised document.** With one line revised, a document states what it stated before, carried over
by the edit. -/
theorem readAll_revised {kind : ManifestKind} (hlines : ∀ line ∈ lines, '\n' ∉ line)
    (hkeys : ∀ line ∈ lines, ¬ opensQuotedKey line) (hd : d ∈ reader.readAll kind lines)
    {line : List Char} (hline : lines[d.line]? = some line) (houtside : d.OutsideExtras line)
    (revision : Revision d) :
    reader.readAll kind (lines.set d.line (d.revisedLine line revision.constraint))
      = (reader.readAll kind lines).map (revision.edit.carry d) := by
  have hmem := List.mem_of_getElem? hline
  have hfeed := hlines line hmem
  have hedit : revision.edit.line = d.line := rfl
  have hspan : d.span.length = d.constraint.length := by
    obtain ⟨text, -, hstands⟩ := standsOn_of_mem_readAll hlines hd
    obtain ⟨left, right, -, hspan⟩ := hstands.covers
    rw [hspan]
  obtain ⟨before, after, rfl, htake⟩ : ∃ before after, lines = before ++ line :: after ∧
      before.length = d.line := by
    obtain ⟨hnumber, hget⟩ := List.getElem?_eq_some_iff.mp hline
    refine ⟨lines.take d.line, lines.drop (d.line + 1), ?_, by rw [List.length_take]; omega⟩
    rw [← hget, List.cons_getElem_drop_succ, List.take_append_drop]
  have hset : (before ++ line :: after).set d.line (d.revisedLine line revision.constraint)
      = before ++ d.revisedLine line revision.constraint :: after := by
    rw [List.set_append_right _ _ (by omega), htake, Nat.sub_self, List.set_cons_zero]
  have hbefore : ∀ other ∈ before, '\n' ∉ other := fun other hother => hlines other (by simp [hother])
  have hafter : ∀ other ∈ after, '\n' ∉ other := fun other hother => hlines other (by simp [hother])
  rw [hset]
  cases kind with
  | requirements =>
      simp only [readAll, readRequirements_append, readRequirements, List.mem_append, List.map_append,
        htake, Nat.zero_add] at hd ⊢
      have hthere : ∀ other ∈ reader.readRequirements 0 before, other.line ≠ d.line := by
        intro other hother
        have := (line_of_mem_readRequirements hother).2
        omega
      have hbehind : ∀ other ∈ reader.readRequirements (d.line + 1) after, other.line ≠ d.line := by
        intro other hother
        have := (line_of_mem_readRequirements hother).1
        omega
      have hhere : d ∈ requirementsDependencies reader.rule line d.line .main := by
        rcases hd with hd | hd | hd
        · exact absurd rfl (hthere d hd)
        · exact hd
        · exact absurd rfl (hbehind d hd)
      have hrevises := revises_requirementsDependencies hhere houtside revision
      rw [Edit.map_carry_of_line_ne hedit hthere, Edit.map_carry_of_line_ne hedit hbehind,
        hrevises.eq_map_carry revision (fun other hother =>
          (standsOn_of_mem_requirementsDependencies hother).line) hspan]
  | pyproject =>
      simp only [readAll, readFrom_append, readFrom_cons, List.mem_append, List.map_append, htake,
        Nat.zero_add] at hd ⊢
      have hthere : ∀ other ∈ reader.readFrom .start 0 before, other.line ≠ d.line := by
        intro other hother
        have := (line_of_mem_readFrom hbefore hother).2
        omega
      have hbehind : ∀ state, ∀ other ∈ reader.readFrom state (d.line + 1) after,
          other.line ≠ d.line := by
        intro state other hother
        have := (line_of_mem_readFrom hafter hother).1
        omega
      have hhere : d ∈ (reader.step (reader.stateAfter .start 0 before) d.line line).1 := by
        rcases hd with hd | hd | hd
        · exact absurd rfl (hthere d hd)
        · exact hd
        · exact absurd rfl (hbehind _ d hd)
      obtain ⟨hrevises, hstate⟩ :=
        revises_step hfeed hhere (hkeys line hmem) houtside revision
      rw [hstate, Edit.map_carry_of_line_ne hedit hthere, Edit.map_carry_of_line_ne hedit (hbehind _),
        hrevises.eq_map_carry revision (fun other hother =>
          (standsOn_of_mem_step hfeed hother).line) hspan]

end ManifestReader

/-! ### Texts after an edit -/

/-- **A revision in its text.** The edit that makes a revision goes through, and of the lines of the text it changes
the one on which the constraint stands. -/
theorem Buffer.exists_withEdits_revision {buffer : Buffer} {lines : List (List Char)} {d : Dependency}
    {line : List Char} (hlines : WrittenLines lines buffer.text) (hline : lines[d.line]? = some line)
    (hcovers : d.span.Covers line d.constraint) (revision : Revision d) :
    ∃ edited, buffer.withEdits [revision.edit] = .ok edited ∧
      WrittenLines (lines.set d.line (d.revisedLine line revision.constraint)) edited := by
  obtain ⟨left, right, hsplit, hspan⟩ := hcovers
  -- The edited columns on the line, and the line in the text.
  have hcovers : revision.edit.span.Covers line revision.old := by
    refine ⟨left ++ revision.front, revision.back ++ right, ?_, ?_⟩
    · rw [hsplit, revision.constraint_eq]
      simp
    · rw [Revision.edit, hspan, List.length_append]
  obtain ⟨before, after, hwhole, -, hlength, hedits⟩ :=
    Buffer.exists_of_withEdits (Buffer.lineAt?_of_written hlines hline) hcovers revision.new
  obtain ⟨above, below, hplace, hstart, hexchange⟩ := Buffer.exists_focus hlines hline
  have hparts : buffer.text = (above ++ left ++ revision.front) ++ revision.old
      ++ (revision.back ++ right ++ below) := by
    rw [hplace, hsplit, revision.constraint_eq]
    simp
  have hbefore : before = above ++ left ++ revision.front := by
    have hequal : before.length = (above ++ left ++ revision.front).length := by
      rw [hlength, Buffer.rawLines, ← hstart, Revision.edit, hspan]
      simp only [List.length_append]
      omega
    have hboth : before ++ (revision.old ++ after) = (above ++ left ++ revision.front)
        ++ (revision.old ++ (revision.back ++ right ++ below)) := by
      simpa only [List.append_assoc] using hwhole.symm.trans hparts
    exact (List.append_inj hboth hequal).1
  have hafter : after = revision.back ++ right ++ below := by
    rw [hparts, ← hbefore] at hwhole
    exact (List.append_cancel_left hwhole).symm
  have hrevisedLine : d.revisedLine line revision.constraint = left ++ revision.constraint ++ right := by
    rw [hsplit]
    exact Dependency.revisedLine_eq hspan _
  have hunbroken := isUnbroken_of_mem hlines (List.mem_of_getElem? hline)
  refine ⟨before ++ revision.new ++ after, hedits, ?_⟩
  have hwritten := hexchange (d.revisedLine line revision.constraint) (by
    rw [hsplit] at hunbroken
    rw [hrevisedLine]
    exact ((hunbroken.of_append.1).of_append.1.append revision.unbroken).append
      hunbroken.of_append.2) (by
    rw [hrevisedLine]
    have := revision.ne_nil
    simp [Revision.constraint] at this ⊢
    grind)
  rw [hbefore, hafter]
  rw [hrevisedLine, Revision.constraint] at hwritten ⊢
  simpa using hwritten

/-- **A revised text.** The edit that makes a revision goes through, and the edited text states what the
text stated before, carried over. -/
theorem readText_revised {reader : ManifestReader} {buffer : Buffer} {kind : ManifestKind}
    {d : Dependency} {line : List Char} (hplain : breaksPlainly buffer.text = true)
    (hkeys : ∀ line ∈ splitLines buffer.text, ¬ opensQuotedKey line)
    (hd : d ∈ reader.readText buffer.text kind) (hline : buffer.lineAt? d.line = some line)
    (houtside : d.OutsideExtras line) (revision : Revision d) :
    ∃ edited, buffer.withEdits [revision.edit] = .ok edited ∧
      reader.readText edited kind
        = (reader.readText buffer.text kind).map (revision.edit.carry d) := by
  obtain ⟨lines, hlines⟩ := exists_writtenLines hplain
  have hfeeds : ∀ line ∈ lines, '\n' ∉ line := fun line hmem =>
    (isUnbroken_of_mem hlines hmem).notMem (by decide)
  rw [splitLines_of_written hlines] at hkeys
  rw [ManifestReader.readText, splitLines_of_written hlines] at hd ⊢
  obtain ⟨text, htext, hstands⟩ := ManifestReader.standsOn_of_mem_readAll hfeeds hd
  obtain rfl : text = line := by
    rw [Buffer.lineAt?_of_written hlines htext] at hline
    exact Option.some.inj hline
  obtain ⟨edited, hedits, hwritten⟩ := Buffer.exists_withEdits_revision hlines htext hstands.covers revision
  refine ⟨edited, hedits, ?_⟩
  rw [ManifestReader.readText, splitLines_of_written hwritten]
  exact ManifestReader.readAll_revised hfeeds hkeys hd htext houtside revision

end ManifestLens
