import ManifestLens.Proofs.Manifest.Completion
import ManifestLens.Proofs.Manifest.Revision
import ManifestLens.Proofs.Manifest.Slices

/-!
# Reading a revised line again

A line on which one constraint has been exchanged is read again, by itself or within its document, and the dependency
is found where it was, with the new constraint. For this the extras behind its name have to be closed, since an open
bracket swallows whatever stands behind it. In a table the extras are a field of their own; they may come out
different, but the constraint is found without them.

A line in no table is read in every dialect, and there a dependency could be lost to another one of the same name.
It is not: a string that stands for a name stands behind the key of the line, or is that key.
-/

namespace ManifestLens

open Text

namespace Dependency

/-- The extras that follow the name are closed. Those of a table do not follow it. -/
def HasClosedExtras (d : Dependency) (line : List Char) : Prop :=
  d.dialect ≠ .poetryTable → '[' ∈ d.beforeConstraint line → ']' ∈ (d.beforeConstraint line).dropWhile (· != '[')

theorem HasClosedExtras.outsideExtras {d : Dependency} {line : List Char} (h : d.HasClosedExtras line)
    (hdialect : d.dialect ≠ .poetryTable) : d.OutsideExtras line := by
  intro extras hextras
  unfold extrasBefore? at hextras
  split at hextras
  · next htable => exact absurd htable hdialect
  · split at hextras
    · next hopen => exact Option.some.inj hextras ▸ h hdialect hopen
    · cases hextras

/-- The dependency has the constraint in the place of another one, whatever its extras are read to be. -/
def IsRevised (d : Dependency) (constraint : List Char) (other : Dependency) : Prop :=
  ∃ extras, other = { d.revised constraint with extras }

theorem isRevised_revised (d : Dependency) (constraint : List Char) : d.IsRevised constraint (d.revised constraint) :=
  ⟨d.extras, rfl⟩

end Dependency

theorem Revises.mem {d : Dependency} {constraint : List Char} {found found' : List Dependency}
    (h : Revises d constraint found found') : d.revised constraint ∈ found' := by
  obtain ⟨earlier, later, -, rfl, -, -⟩ := h
  exact List.mem_append_right _ (List.mem_cons_self ..)

variable {rule : NameRule} {reader : ManifestReader} {number : Nat} {group : Group} {line : List Char} {d : Dependency}

/-! ### Tables -/

namespace TableForm

def nameSpan (form : TableForm) : Span := (form.key.key form.value).span

theorem exists_isRevised (form : TableForm) {name : List Char}
    (hd : (form.requirement name).toDependency? rule .poetryTable number group = some d) {constraint : List Char}
    (hconstraint : IsTableConstraint constraint) (hne : constraint ≠ []) :
    ∃ d', ((form.withConstraint constraint hconstraint hne).requirement name).toDependency? rule .poetryTable number
      group = some d' ∧ d.IsRevised constraint d' := by
  obtain ⟨haccepts, rfl⟩ := Requirement.toDependency?_eq_some_iff.mp hd
  exact ⟨_, Requirement.toDependency?_eq_some_iff.mpr ⟨haccepts, rfl⟩, _, rfl⟩

theorem notMem_lineFeed_withConstraint (form : TableForm) (hcode : codePart line = form.text) (hline : '\n' ∉ line)
    {constraint : List Char} (hconstraint : IsTableConstraint constraint) (hne : constraint ≠ [])
    (hunbroken : IsUnbroken constraint) : '\n' ∉ (form.withConstraint constraint hconstraint hne).text := by
  have hfeed : '\n' ∉ form.text := by
    rw [← hcode]
    exact fun hmem => hline ((codePart_isPrefix line).subset hmem)
  rw [form.text_eq] at hfeed
  rw [TableForm.text_eq]
  simp only [List.mem_append, not_or] at hfeed ⊢
  exact ⟨⟨hfeed.1.1, hunbroken.notMem (by decide)⟩, hfeed.2⟩

end TableForm

/-- **A revised line of a table.** It is written with the same key, and is neither a header nor the opening of an
array. -/
theorem exists_revised_of_mem_tableDependencies (hline : '\n' ∉ line)
    (hd : d ∈ tableDependencies rule line number group) (revision : Revision d) :
    ∃ form form' : TableForm, codePart line = form.text ∧
      codePart (d.revisedLine line revision.constraint) = form'.text ∧ form'.key = form.key ∧
      d.nameSpan = form.nameSpan ∧
      ∃ d' ∈ tableDependencies rule (d.revisedLine line revision.constraint) number group,
        d.IsRevised revision.constraint d' := by
  obtain ⟨form, hcode, hfree, hdependency⟩ := exists_of_mem_tableDependencies hline hd
  have haccepted := revision.isTableConstraint (Requirement.dialect_of_toDependency? hdependency)
  have hcode' := form.codePart_revisedLine hcode hdependency haccepted revision.ne_nil
  obtain ⟨d', hd', hrevised⟩ := form.exists_isRevised hdependency haccepted revision.ne_nil
  have hfeed' := form.notMem_lineFeed_withConstraint hcode hline haccepted revision.ne_nil revision.unbroken
  refine ⟨form, _, hcode, hcode', rfl, ?_, d', ?_, hrevised⟩
  · rw [(Requirement.toDependency?_eq_some_iff.mp hdependency).2]
    rfl
  · rw [tableDependencies_text rule number group _ hcode' hfeed' hfree, Option.mem_toList]
    exact hd'

/-- **A revised line of the table of a package.** -/
theorem exists_revised_of_versionKeyDependency? {package : List Char}
    (h : versionKeyDependency? rule line package number group = some d) (revision : Revision d) :
    ∃ form' : TableForm, codePart (d.revisedLine line revision.constraint) = form'.text ∧
      ∃ d', versionKeyDependency? rule (d.revisedLine line revision.constraint) package number group = some d' ∧
        d.IsRevised revision.constraint d' := by
  obtain ⟨form, hcode, hopening, hbare, hversion, hdependency⟩ := exists_of_versionKeyDependency? h
  have haccepted := revision.isTableConstraint (Requirement.dialect_of_toDependency? hdependency)
  have hcode' := form.codePart_revisedLine hcode hdependency haccepted revision.ne_nil
  obtain ⟨d', hd', hrevised⟩ := form.exists_isRevised hdependency haccepted revision.ne_nil
  refine ⟨_, hcode', d', ?_, hrevised⟩
  rw [versionKeyDependency?_text rule package number group _ hcode' hopening hbare hversion]
  exact hd'

/-! ### Strings of an array -/

/-- The entries of the strings of a line, of both dialects. -/
def stringEntries (rule : NameRule) (line : List Char) (number : Nat) (group : Group) : List Dependency :=
  (QuotedString.elementsOfLine line).filterMap (QuotedString.dependency? rule number group)

theorem mem_stringEntries_iff : d ∈ stringEntries rule line number group ↔
    d ∈ arrayDependencies rule line number group ∨ d ∈ parenthesizedDependencies rule line number group := by
  have harray : arrayDependencies rule line number group
      = (QuotedString.elementsOfLine line).filterMap (QuotedString.plainDependency? rule number group) := rfl
  have hparenthesized : parenthesizedDependencies rule line number group
      = (QuotedString.elementsOfLine line).filterMap (QuotedString.parenthesizedDependency? rule number group) := rfl
  rw [harray, hparenthesized, stringEntries]
  simp only [List.mem_filterMap, QuotedString.dependency?_eq_some_iff, and_or_left, exists_or]

theorem dialect_of_mem_arrayDependencies (h : d ∈ arrayDependencies rule line number group) : d.dialect = .array := by
  obtain ⟨s, -, hentry⟩ := List.mem_filterMap.mp h
  obtain ⟨r, -, hdependency⟩ := Option.bind_eq_some_iff.mp hentry
  exact Requirement.dialect_of_toDependency? hdependency

theorem dialect_of_mem_parenthesizedDependencies (h : d ∈ parenthesizedDependencies rule line number group) :
    d.dialect = .poetryParentheses := by
  obtain ⟨s, -, hentry⟩ := List.mem_filterMap.mp h
  obtain ⟨r, -, hdependency⟩ := Option.bind_eq_some_iff.mp hentry
  exact Requirement.dialect_of_toDependency? hdependency

theorem mem_arrayDependencies_iff :
    d ∈ arrayDependencies rule line number group ↔ d ∈ stringEntries rule line number group ∧ d.dialect = .array := by
  rw [mem_stringEntries_iff, or_and_right]
  refine ⟨fun h => .inl ⟨h, dialect_of_mem_arrayDependencies h⟩, ?_⟩
  rintro (⟨h, -⟩ | ⟨h, hdialect⟩)
  · exact h
  · rw [dialect_of_mem_parenthesizedDependencies h] at hdialect
    cases hdialect

theorem mem_parenthesizedDependencies_iff : d ∈ parenthesizedDependencies rule line number group ↔
    d ∈ stringEntries rule line number group ∧ d.dialect = .poetryParentheses := by
  rw [mem_stringEntries_iff, or_and_right]
  refine ⟨fun h => .inr ⟨h, dialect_of_mem_parenthesizedDependencies h⟩, ?_⟩
  rintro (⟨h, hdialect⟩ | ⟨h, -⟩)
  · rw [dialect_of_mem_arrayDependencies h] at hdialect
    cases hdialect
  · exact h

theorem dialect_of_mem_tableDependencies (h : d ∈ tableDependencies rule line number group) :
    d.dialect = .poetryTable := by
  rw [tableDependencies, Option.mem_toList] at h
  obtain ⟨r, -, hdependency⟩ := Option.bind_eq_some_iff.mp h
  exact Requirement.dialect_of_toDependency? hdependency

theorem dialect_of_mem_requirementsDependencies (h : d ∈ requirementsDependencies rule line number group) :
    d.dialect = .requirementsLine := by
  obtain ⟨form, -, -, -, hdependency⟩ := exists_of_mem_requirementsDependencies h
  exact Requirement.dialect_of_toDependency? hdependency

theorem dialect_of_mem_stringEntries (h : d ∈ stringEntries rule line number group) : d.dialect ≠ .poetryTable := by
  obtain ⟨s, -, hentry⟩ := List.mem_filterMap.mp h
  exact QuotedString.dialect_of_dependency? hentry

theorem eq_or_apart_of_mem_stringEntries {other : Dependency}
    (hother : other ∈ stringEntries rule line number group) (hd : d ∈ stringEntries rule line number group) :
    other = d ∨ d.nameSpan.overlaps other.nameSpan = false := by
  have hordered : (stringEntries rule line number group).Pairwise Dependency.Apart :=
    (pairwise_entries rule number group
      ((QuotedString.pairwise_stringsFrom 0 none line).2.filter _)).imp .inl
  have : Std.Symm Dependency.Apart := ⟨fun _ _ h => h.symm⟩
  by_cases heq : other = d
  · exact .inl heq
  · exact .inr (Span.overlaps_eq_false (hordered.forall hd hother (Ne.symm heq)))

/-- **A revised line of an array.** -/
theorem mem_stringEntries_revisedLine (hline : '\n' ∉ line) (hd : d ∈ stringEntries rule line number group)
    (hclosed : d.HasClosedExtras line) (revision : Revision d) :
    d.revised revision.constraint ∈ stringEntries rule (d.revisedLine line revision.constraint) number group := by
  obtain ⟨other, hother, -, -, -, hrevises⟩ := revises_arrayStrings none [] hline hd
    (hclosed.outsideExtras (dialect_of_mem_stringEntries hd)) revision
  rw [List.nil_append, List.nil_append] at hother
  rw [hother]
  exact hrevises.mem

/-! ### Keys among strings -/

namespace TableForm

/-- What a line with an entry holds behind the key. -/
theorem exists_behind_key (form : TableForm) (hcode : codePart line = form.text) :
    ∃ behind, line = form.key.indent ++ (form.key.keyText ++ behind) := by
  obtain ⟨comment, hcomment⟩ := codePart_isPrefix line
  refine ⟨form.key.before ++ '=' :: form.key.after ++ form.value ++ comment, ?_⟩
  rw [← hcomment, hcode]
  simp [text, KeyForm.text]

theorem stop_le_of_bare (form : TableForm) (hcode : codePart line = form.text) (hbare : form.key.quote = none)
    {s : QuotedString} (hs : s ∈ QuotedString.elementsOfLine line) :
    form.nameSpan.stop ≤ s.column := by
  obtain ⟨behind, hsplit⟩ := form.exists_behind_key hcode
  rw [KeyForm.keyText, hbare, Option.toList_none, List.nil_append, List.append_nil, ← List.append_assoc] at hsplit
  have hplain : IsPlain (form.key.indent ++ form.key.name) := by
    intro c hc
    rcases List.mem_append.mp hc with hc | hc
    · exact isPlain_of_isBlankRun form.key.indent_blank c hc
    · have hname := (form.key.bare_name hbare).all c hc
      refine ⟨isQuote_of_isNameChar hname, ?_⟩
      rintro rfl
      exact absurd hname (by decide)
  have hfound : s ∈ QuotedString.stringsFrom 0 none line := (List.mem_filter.mp hs).1
  rw [hsplit, QuotedString.stringsFrom_plain hplain] at hfound
  have hcolumn := (QuotedString.pairwise_stringsFrom _ _ _).1 s hfound
  simp only [List.length_append] at hcolumn
  simp only [nameSpan, KeyForm.key, hbare, Span.stop, Option.toList_none, List.length_nil]
  omega

/-- A key in quotes is the first of the strings. -/
theorem exists_of_quoted (form : TableForm) (hcode : codePart line = form.text) (hline : '\n' ∉ line) {q : Char}
    (hquoted : form.key.quote = some q) :
    ∃ rest, QuotedString.elementsOfLine line = ⟨form.nameSpan.start, form.key.name, true⟩ :: rest ∧
      ∀ s ∈ rest, form.nameSpan.stop ≤ s.column := by
  obtain ⟨hquote, -, hmem⟩ := form.key.quoted_name q hquoted
  obtain ⟨behind, hsplit⟩ := form.exists_behind_key hcode
  have hkey : form.key.keyText ++ behind = q :: (form.key.name ++ q :: behind) := by
    simp [KeyForm.keyText, hquoted]
  rw [hkey] at hsplit
  have hfound : QuotedString.stringsFrom 0 none line
      = ⟨form.nameSpan.start, form.key.name, true⟩
        :: QuotedString.stringsFrom (form.key.indent.length + form.key.name.length + 2) (some q) behind := by
    rw [hsplit] at hline
    simp only [List.mem_append, List.mem_cons, not_or] at hline
    rw [hsplit, QuotedString.stringsFrom_plain (isPlain_of_isBlankRun form.key.indent_blank),
      lastVisible_of_isBlankRun form.key.indent_blank, QuotedString.stringsFrom_quoted hquote hmem hline.2.2.1,
      nameSpan, KeyForm.key, hquoted, Nat.zero_add]
    rfl
  refine ⟨(QuotedString.stringsFrom (form.key.indent.length + form.key.name.length + 2) (some q) behind).filter
    QuotedString.isElement, ?_, fun s hs => ?_⟩
  · rw [← List.filter_cons_of_pos (p := QuotedString.isElement) rfl, ← hfound]
    rfl
  · have hcolumn := (QuotedString.pairwise_stringsFrom _ _ _).1 s (List.mem_filter.mp hs).1
    simp only [nameSpan, KeyForm.key, hquoted, Span.stop, Option.toList_some, List.length_singleton]
    omega

end TableForm

/-! ### Entries of several dialects -/

theorem mem_foldl_addDisjoint_of_mem {found : List Dependency} (batches : List (List Dependency)) (h : d ∈ found) :
    d ∈ batches.foldl addDisjoint found := by
  induction batches generalizing found with
  | nil => exact h
  | cons batch rest ih => exact ih (mem_addDisjoint_of_mem h)

theorem mem_mergeEntries_of_earlier (before : List (List Dependency)) {after : List (List Dependency)}
    {batch : List Dependency} (hd : d ∈ batch)
    (hapart : ∀ earlier ∈ before ++ [batch], ∀ e ∈ earlier, e = d ∨ d.nameSpan.overlaps e.nameSpan = false) :
    d ∈ mergeEntries (before ++ batch :: after) := by
  have hfirst : d ∈ mergeEntries (before ++ [batch]) := mem_mergeEntries (by simp) hd hapart
  rw [mergeEntries, List.mem_mergeSort] at hfirst ⊢
  rw [List.append_cons, List.foldl_append]
  exact mem_foldl_addDisjoint_of_mem after hfirst

theorem eq_of_mem_tableDependencies {other : Dependency} (hother : other ∈ tableDependencies rule line number group)
    (hd : d ∈ tableDependencies rule line number group) : other = d := by
  rw [tableDependencies, Option.mem_toList] at hother hd
  exact Option.some.inj (hother.symm.trans hd)

theorem eq_of_mem_requirementsDependencies {other : Dependency}
    (hother : other ∈ requirementsDependencies rule line number group)
    (hd : d ∈ requirementsDependencies rule line number group) : other = d := by
  obtain ⟨form, hpart, hnamed, hhere, hdependency⟩ := exists_of_mem_requirementsDependencies hd
  rw [requirementsDependencies_eq rule number group form hpart hnamed hhere, Option.mem_toList] at hother
  exact Option.some.inj (hother.symm.trans hdependency)

theorem notMem_lineFeed_revisedLine (hline : '\n' ∉ line) (revision : Revision d) :
    '\n' ∉ d.revisedLine line revision.constraint := by
  intro hmem
  rcases List.mem_append.mp hmem with hmem | hmem
  · rcases List.mem_append.mp hmem with hmem | hmem
    · exact hline (List.mem_of_mem_take hmem)
    · exact revision.unbroken.notMem (by decide) hmem
  · exact hline (List.mem_of_mem_drop hmem)

def anyEntries (rule : NameRule) (line : List Char) (number : Nat) (group : Group) : List Dependency :=
  mergeEntries [arrayDependencies rule line number group, tableDependencies rule line number group,
    parenthesizedDependencies rule line number group]

theorem mem_anyEntries_of_mem_arrayDependencies (hd : d ∈ arrayDependencies rule line number group) :
    d ∈ anyEntries rule line number group := by
  refine mem_mergeEntries_of_earlier [] hd fun earlier hearlier e he => ?_
  obtain rfl := List.mem_singleton.mp hearlier
  exact eq_or_apart_of_mem_stringEntries (mem_stringEntries_iff.mpr (.inl he))
    (mem_stringEntries_iff.mpr (.inl hd))

/-- A string whose name shares a column with the key of an entry is the key in quotes. -/
theorem TableForm.eq_key_of_overlaps (form : TableForm) (hcode : codePart line = form.text) (hline : '\n' ∉ line)
    {s : QuotedString} (hs : s ∈ QuotedString.elementsOfLine line) (hentry : s.dependency? rule number group = some d)
    (hoverlaps : form.nameSpan.overlaps d.nameSpan = true) :
    ∃ q, form.key.quote = some q ∧ s = ⟨form.nameSpan.start, form.key.name, true⟩ := by
  have hstart := (QuotedString.within_of_dependency? hentry).start_le
  have hnot : ¬ form.nameSpan.stop ≤ s.column := by
    intro hstop
    have hapart : form.nameSpan.Apart d.nameSpan := .inl (Nat.le_trans hstop hstart)
    rw [Span.overlaps_eq_false hapart] at hoverlaps
    cases hoverlaps
  cases hquote : form.key.quote with
  | none => exact absurd (form.stop_le_of_bare hcode hquote hs) hnot
  | some q =>
      obtain ⟨rest, helements, hrest⟩ := form.exists_of_quoted hcode hline hquote
      rw [helements] at hs
      rcases List.mem_cons.mp hs with rfl | hs
      · exact ⟨q, rfl, rfl⟩
      · exact absurd (hrest s hs) hnot

/-- An entry of a table is lost to a plain string just if that string is its key in quotes, and then it was lost
before the revision. -/
theorem apart_of_mem_arrayDependencies {form form' : TableForm} {line' : List Char} (hline : '\n' ∉ line)
    (hline' : '\n' ∉ line') (hcode : codePart line = form.text) (hcode' : codePart line' = form'.text)
    (hkey : form'.key = form.key) (hname : d.nameSpan = form.nameSpan) (hdialect : d.dialect = .poetryTable)
    (hd : d ∈ anyEntries rule line number group) {e : Dependency}
    (he : e ∈ arrayDependencies rule line' number group) : d.nameSpan.overlaps e.nameSpan = false := by
  by_contra hoverlaps
  rw [Bool.not_eq_false, hname] at hoverlaps
  obtain ⟨s, hs, hentry⟩ := List.mem_filterMap.mp he
  have hplain : s.plainDependency? rule number group = some e := hentry
  have hspan : form'.nameSpan = form.nameSpan := by
    rw [TableForm.nameSpan, TableForm.nameSpan, hkey]
    rfl
  obtain ⟨q, hquote, rfl⟩ := form'.eq_key_of_overlaps hcode' hline' hs
    (QuotedString.dependency?_eq_some_iff.mpr (.inl hplain)) (hspan ▸ hoverlaps)
  -- The key in quotes stands on the line before the revision, too.
  obtain ⟨rest, helements, -⟩ := form.exists_of_quoted hcode hline (hkey ▸ hquote)
  rw [hspan, hkey] at hplain
  have hbefore : e ∈ arrayDependencies rule line number group := by
    refine List.mem_filterMap.mpr ⟨_, ?_, hplain⟩
    rw [helements]
    exact List.mem_cons_self ..
  have hne : d ≠ e := by
    rintro rfl
    rw [dialect_of_mem_arrayDependencies he] at hdialect
    cases hdialect
  have : Std.Symm Dependency.Apart := ⟨fun _ _ h => h.symm⟩
  have hapart := (pairwise_apart_mergeEntries _).forall hd (mem_anyEntries_of_mem_arrayDependencies hbefore) hne
  rw [← hname, Span.overlaps_eq_false hapart] at hoverlaps
  cases hoverlaps

/-- A name holds no parenthesis, so a string with parentheses is no key and stands behind it. -/
theorem apart_of_mem_tableDependencies (hline : '\n' ∉ line)
    (hd : d ∈ parenthesizedDependencies rule line number group) {e : Dependency}
    (he : e ∈ tableDependencies rule line number group) : d.nameSpan.overlaps e.nameSpan = false := by
  by_contra hoverlaps
  rw [Bool.not_eq_false, Span.overlaps_comm] at hoverlaps
  obtain ⟨form, hcode, -, hdependency⟩ := exists_of_mem_tableDependencies hline he
  obtain ⟨haccepts, heq⟩ := Requirement.toDependency?_eq_some_iff.mp hdependency
  have hname : e.nameSpan = form.nameSpan := by
    rw [heq]
    rfl
  obtain ⟨s, hs, hentry⟩ := List.mem_filterMap.mp hd
  have hparenthesized : s.parenthesizedDependency? rule number group = some d := hentry
  obtain ⟨q, hquote, rfl⟩ := form.eq_key_of_overlaps hcode hline hs
    (QuotedString.dependency?_eq_some_iff.mpr (.inr hparenthesized)) (hname ▸ hoverlaps)
  obtain ⟨r, hread, -⟩ := Option.bind_eq_some_iff.mp hparenthesized
  obtain ⟨written, htext, -⟩ := exists_parenthesizedForm hread
  have hopen : '(' ∈ form.key.name := by
    change written.text = form.key.name at htext
    rw [← htext]
    simp [ParenthesizedForm.text, ParenthesizedForm.head]
  have hfeed : '\n' ∉ form.key.name := by
    obtain ⟨behind, hsplit⟩ := form.exists_behind_key hcode
    intro hmem
    exact hline (by rw [hsplit]; simp [KeyForm.keyText, hmem])
  have hchar := (isWrittenName_of_accepts haccepts hfeed).all '(' hopen
  revert hchar
  decide

/-- **A revised line in no table.** -/
theorem exists_revised_of_mem_anyEntries (hline : '\n' ∉ line) (hd : d ∈ anyEntries rule line number group)
    (hclosed : d.HasClosedExtras line) (revision : Revision d) :
    ∃ d' ∈ anyEntries rule (d.revisedLine line revision.constraint) number group,
      d.IsRevised revision.constraint d' := by
  have hline' := notMem_lineFeed_revisedLine hline revision
  obtain ⟨batch, hbatch, hentry⟩ := exists_of_mem_mergeEntries hd
  simp only [List.mem_cons, List.not_mem_nil, or_false] at hbatch
  rcases hbatch with rfl | rfl | rfl
  · -- a plain string
    obtain ⟨hstring, hdialect⟩ := mem_arrayDependencies_iff.mp hentry
    have hrevised := mem_arrayDependencies_iff.mpr
      ⟨mem_stringEntries_revisedLine hline hstring hclosed revision, hdialect⟩
    exact ⟨_, mem_anyEntries_of_mem_arrayDependencies hrevised, d.isRevised_revised _⟩
  · -- an entry of a table
    obtain ⟨form, form', hcode, hcode', hkey, hname, d', hd', hrevised⟩ :=
      exists_revised_of_mem_tableDependencies hline hentry revision
    have hspan : d'.nameSpan = d.nameSpan := by
      obtain ⟨extras, rfl⟩ := hrevised
      rfl
    refine ⟨d', mem_mergeEntries_of_earlier [_] hd' fun earlier hearlier e he => ?_, hrevised⟩
    simp only [List.cons_append, List.nil_append, List.mem_cons, List.not_mem_nil, or_false] at hearlier
    rcases hearlier with rfl | rfl
    · rw [hspan]
      exact .inr (apart_of_mem_arrayDependencies hline hline' hcode hcode' hkey hname
        (dialect_of_mem_tableDependencies hentry) hd he)
    · exact .inl (eq_of_mem_tableDependencies he hd')
  · -- a string with parentheses
    obtain ⟨hstring, hdialect⟩ := mem_parenthesizedDependencies_iff.mp hentry
    have hrevised := mem_stringEntries_revisedLine hline hstring hclosed revision
    have hparenthesized := mem_parenthesizedDependencies_iff.mpr ⟨hrevised, hdialect⟩
    refine ⟨_, mem_mergeEntries_of_earlier [_, _] hparenthesized fun earlier hearlier e he => ?_,
      d.isRevised_revised _⟩
    simp only [List.cons_append, List.nil_append, List.mem_cons, List.not_mem_nil, or_false] at hearlier
    rcases hearlier with rfl | rfl | rfl
    · exact eq_or_apart_of_mem_stringEntries (mem_stringEntries_iff.mpr (.inl he)) hrevised
    · exact .inr (apart_of_mem_tableDependencies hline' hparenthesized he)
    · exact eq_or_apart_of_mem_stringEntries (mem_stringEntries_iff.mpr (.inr he)) hrevised

/-! ### Lines -/

namespace ManifestReader

/-- A line by itself is read in the table of a package, or in the dialects that its table admits. -/
theorem readLine_cases (reader : ManifestReader) (number : Nat) (kind : ManifestKind) (table : Option (List Char))
    (group : Option Group) :
    (∃ kin package, ∀ line, reader.readLine line number kind table group
      = (versionKeyDependency? reader.rule line package number kin).toList) ∨
    ∃ kin, ∀ line, reader.readLine line number kind table group
      = mergeEntries ((admittedDialects kind table).map fun dialect =>
          dialect.parse reader.rule line number kin) := by
  simp only [readLine]
  split
  · exact .inl ⟨_, _, fun _ => rfl⟩
  · exact .inr ⟨_, fun _ => rfl⟩

/-- **A revised line by itself** has the revised dependency. -/
theorem exists_revised_of_mem_readLine {kind : ManifestKind} {table : Option (List Char)} {group : Option Group}
    (hline : '\n' ∉ line) (hd : d ∈ reader.readLine line number kind table group) (hclosed : d.HasClosedExtras line)
    (revision : Revision d) :
    ∃ d' ∈ reader.readLine (d.revisedLine line revision.constraint) number kind table group,
      d.IsRevised revision.constraint d' := by
  rcases reader.readLine_cases number kind table group with ⟨kin, package, hread⟩ | ⟨kin, hread⟩
  · rw [hread, Option.mem_toList] at hd
    obtain ⟨-, -, d', hd', hrevised⟩ := exists_revised_of_versionKeyDependency? hd revision
    exact ⟨d', by rw [hread, Option.mem_toList]; exact hd', hrevised⟩
  · rw [hread] at hd
    simp only [hread]
    cases kind with
    | requirements =>
        obtain ⟨batch, hbatch, hentry⟩ := exists_of_mem_mergeEntries hd
        obtain rfl := List.mem_singleton.mp hbatch
        have hdialect := dialect_of_mem_requirementsDependencies hentry
        have hrevised := (revises_requirementsDependencies hentry
          (hclosed.outsideExtras (by rw [hdialect]; simp)) revision).mem
        refine ⟨_, mem_mergeEntries_of_earlier [] hrevised fun earlier hearlier e he => ?_,
          d.isRevised_revised _⟩
        obtain rfl := List.mem_singleton.mp hearlier
        exact .inl (eq_of_mem_requirementsDependencies he hrevised)
    | pyproject =>
        cases table with
        | none => exact exists_revised_of_mem_anyEntries hline hd hclosed revision
        | some table =>
            by_cases hpoetry : (PoetryTable.ofTable? table).isSome = true
            · simp only [admittedDialects, hpoetry, if_true, List.map_cons, List.map_nil, Dialect.parse] at hd ⊢
              obtain ⟨batch, hbatch, hentry⟩ := exists_of_mem_mergeEntries hd
              obtain rfl := List.mem_singleton.mp hbatch
              obtain ⟨-, -, -, -, -, -, d', hd', hrevised⟩ :=
                exists_revised_of_mem_tableDependencies hline hentry revision
              refine ⟨d', mem_mergeEntries_of_earlier [] hd' fun earlier hearlier e he => ?_, hrevised⟩
              obtain rfl := List.mem_singleton.mp hearlier
              exact .inl (eq_of_mem_tableDependencies he hd')
            · simp only [admittedDialects, hpoetry, Bool.false_eq_true, if_false, List.map_cons, List.map_nil,
                Dialect.parse] at hd ⊢
              have harray : ∀ text, mergeEntries [arrayDependencies reader.rule text number kin,
                  parenthesizedDependencies reader.rule text number kin] = reader.arrayEntries text number kin :=
                fun _ => rfl
              rw [harray, arrayEntries_eq reader] at hd
              rw [harray, arrayEntries_eq reader]
              exact ⟨_, mem_stringEntries_revisedLine hline hd hclosed revision, d.isRevised_revised _⟩

/-! ### Lines of a document -/

section Step

variable {state : DocumentState} {table : List Char}

theorem exists_revised_of_mem_tableEntries (hline : '\n' ∉ line) (hd : d ∈ reader.tableEntries line number table)
    (revision : Revision d) :
    tableHeader? (d.revisedLine line revision.constraint) = none ∧
      openedArray? (codePart (d.revisedLine line revision.constraint)) = none ∧
      ∃ d' ∈ reader.tableEntries (d.revisedLine line revision.constraint) number table,
        d.IsRevised revision.constraint d' := by
  cases htable : PoetryTable.ofTable? table with
  | none => simp [tableEntries, htable] at hd
  | some poetry =>
      obtain ⟨kin, package⟩ := poetry
      cases package with
      | some package =>
          simp only [tableEntries, htable, Option.mem_toList] at hd ⊢
          obtain ⟨form', hcode', d', hd', hrevised⟩ := exists_revised_of_versionKeyDependency? hd revision
          obtain ⟨hheader, hopened⟩ := form'.not_header hcode'
          exact ⟨hheader, hopened, d', hd', hrevised⟩
      | none =>
          simp only [tableEntries, htable] at hd ⊢
          obtain ⟨form, form', -, hcode', -, -, d', hd', hrevised⟩ :=
            exists_revised_of_mem_tableDependencies hline hd revision
          obtain ⟨hheader, hopened⟩ := form'.not_header hcode'
          exact ⟨hheader, hopened, d', hd', hrevised⟩

theorem dialect_of_mem_arrayEntries (h : d ∈ reader.arrayEntries line number group) : d.dialect ≠ .poetryTable := by
  obtain ⟨batch, hbatch, hd⟩ := exists_of_mem_mergeEntries h
  simp only [List.mem_cons, List.not_mem_nil, or_false] at hbatch
  rcases hbatch with rfl | rfl
  · rw [dialect_of_mem_arrayDependencies hd]
    simp
  · rw [dialect_of_mem_parenthesizedDependencies hd]
    simp

/-- An entry of a table is found outside arrays. -/
theorem exists_table_of_mem_step (hd : d ∈ (reader.step state number line).1) (hdialect : d.dialect = .poetryTable) :
    state.depth ≤ 0 ∧ ∃ table, state.table = some table ∧ d ∈ reader.tableEntries line number table := by
  have harray : ∀ found : Option Group, d ∉ (found.map (reader.arrayEntries line number)).getD [] := by
    rintro (_ | found) hmem
    · cases hmem
    · exact dialect_of_mem_arrayEntries hmem hdialect
  by_cases hdepth : 0 < state.depth
  · rw [step_inside hdepth] at hd
    exact absurd hd (harray _)
  have hclosed : state.depth ≤ 0 := Int.not_lt.mp hdepth
  cases hheader : tableHeader? line with
  | some header =>
      rw [step_header hclosed hheader] at hd
      cases hd
  | none =>
      cases hopened : openedArray? (codePart line) with
      | some opened =>
          rw [step_opening hclosed hheader hopened] at hd
          exact absurd hd (harray _)
      | none =>
          rw [step_entry hclosed hheader hopened] at hd
          cases htable : state.table with
          | none => simp [htable] at hd
          | some table =>
              rw [htable] at hd
              exact ⟨hclosed, table, rfl, hd⟩

/-- **A revised line of a document** has the revised dependency. -/
theorem exists_revised_of_mem_step (hline : '\n' ∉ line) (hd : d ∈ (reader.step state number line).1)
    (hkey : ¬ opensQuotedKey line) (hclosed : d.HasClosedExtras line) (revision : Revision d) :
    ∃ d' ∈ (reader.step state number (d.revisedLine line revision.constraint)).1,
      d.IsRevised revision.constraint d' := by
  by_cases hdialect : d.dialect = .poetryTable
  · obtain ⟨hdepth, table, htable, hentry⟩ := exists_table_of_mem_step hd hdialect
    obtain ⟨hheader, hopened, hrevised⟩ := exists_revised_of_mem_tableEntries hline hentry revision
    rwa [step_entry hdepth hheader hopened, htable]
  · have hrevises := (revises_step hline hd hkey (hclosed.outsideExtras hdialect) revision).1
    exact ⟨_, hrevises.mem, d.isRevised_revised _⟩

end Step

/-! ### Documents -/

section Documents

variable {kind : ManifestKind} {lines : List (List Char)}

/-- What a document states on a line of the given number. -/
def entriesAt (reader : ManifestReader) (kind : ManifestKind) (lines : List (List Char)) (n : Nat)
    (line : List Char) : List Dependency :=
  match kind with
  | .requirements => requirementsDependencies reader.rule line n .main
  | .pyproject => (reader.step (reader.stateAfter .start 0 (lines.take n)) n line).1

theorem entriesAt_set (reader : ManifestReader) (kind : ManifestKind) (lines : List (List Char)) (n : Nat)
    (other line : List Char) :
    reader.entriesAt kind (lines.set n other) n line = reader.entriesAt kind lines n line := by
  cases kind with
  | requirements => rfl
  | pyproject => rw [entriesAt, entriesAt, List.take_set_of_le (Nat.le_refl n)]

theorem mem_readAll_iff (hline : lines[d.line]? = some line) :
    d ∈ reader.readAll kind lines ↔ d ∈ reader.entriesAt kind lines d.line line := by
  cases kind with
  | requirements =>
      constructor
      · intro hd
        obtain ⟨number, text, htext, hentry⟩ := exists_of_mem_readRequirements hd
        have hnumber := (standsOn_of_mem_requirementsDependencies hentry).line
        rw [Nat.zero_add] at hnumber hentry
        rw [← hnumber, hline] at htext
        rwa [← hnumber, ← Option.some.inj htext] at hentry
      · intro hd
        have hlength := (List.getElem?_eq_some_iff.mp hline).1
        have hsplit : lines = lines.take d.line ++ line :: lines.drop (d.line + 1) := by
          obtain ⟨-, rfl⟩ := List.getElem?_eq_some_iff.mp hline
          rw [← List.drop_eq_getElem_cons, List.take_append_drop]
        have htake : (lines.take d.line).length = d.line := List.length_take_of_le (Nat.le_of_lt hlength)
        rw [readAll, hsplit, readRequirements_append, htake, Nat.zero_add]
        exact List.mem_append_right _ (List.mem_append_left _ hd)
  | pyproject =>
      rw [entriesAt, ← filter_line_readFrom keepsApart_start hline, List.mem_filter]
      simp [readAll]

/-- **A revised document** has the revised dependency. -/
theorem exists_revised_of_mem_readAll (hline : lines[d.line]? = some line) (hfeed : '\n' ∉ line)
    (hd : d ∈ reader.readAll kind lines) (hkey : ¬ opensQuotedKey line) (hclosed : d.HasClosedExtras line)
    (revision : Revision d) :
    ∃ d' ∈ reader.readAll kind (lines.set d.line (d.revisedLine line revision.constraint)),
      d.IsRevised revision.constraint d' := by
  have hentry := (mem_readAll_iff hline).mp hd
  obtain ⟨d', hd', hrevised⟩ : ∃ d' ∈ reader.entriesAt kind lines d.line (d.revisedLine line revision.constraint),
      d.IsRevised revision.constraint d' := by
    cases kind with
    | requirements =>
        have hdialect := dialect_of_mem_requirementsDependencies hentry
        have hrevises := revises_requirementsDependencies hentry
          (hclosed.outsideExtras (by rw [hdialect]; simp)) revision
        exact ⟨_, hrevises.mem, d.isRevised_revised _⟩
    | pyproject => exact exists_revised_of_mem_step hfeed hentry hkey hclosed revision
  refine ⟨d', ?_, hrevised⟩
  have hnumber : d'.line = d.line := by
    obtain ⟨extras, rfl⟩ := hrevised
    rfl
  have hset : (lines.set d.line (d.revisedLine line revision.constraint))[d'.line]?
      = some (d.revisedLine line revision.constraint) := by
    rw [hnumber, List.getElem?_set_self (List.getElem?_eq_some_iff.mp hline).1]
  rw [mem_readAll_iff hset, hnumber, entriesAt_set]
  exact hd'

end Documents

/-! ### One dependency in one place -/

/-- The names of the two start in the same column of the same line. -/
def SamePlace (a b : Dependency) : Prop := a.line = b.line ∧ a.nameSpan.start = b.nameSpan.start

theorem eq_of_samePlace {found : List Dependency} (hordered : found.Pairwise FollowsInText)
    (hnamed : ∀ d ∈ found, d.nameSpan.isEmpty = false) {a b : Dependency} (ha : a ∈ found) (hb : b ∈ found)
    (hplace : SamePlace a b) : a = b := by
  have hapart : found.Pairwise fun a b => FollowsInText a b ∨ FollowsInText b a := hordered.imp .inl
  have : Std.Symm fun a b : Dependency => FollowsInText a b ∨ FollowsInText b a := ⟨fun _ _ => Or.symm⟩
  by_contra hne
  have hfirst := hnamed a ha
  have hsecond := hnamed b hb
  obtain ⟨hline, hstart⟩ := hplace
  rw [Span.isEmpty, beq_eq_false_iff_ne] at hfirst hsecond
  rcases hapart.forall ha hb hne with (h | ⟨-, h⟩) | h | ⟨-, h⟩
  · omega
  · rw [Span.stop] at h
    omega
  · omega
  · rw [Span.stop] at h
    omega

theorem eq_of_mem_readLine {kind : ManifestKind} {table : Option (List Char)} {group : Option Group}
    {other : Dependency} (hother : other ∈ reader.readLine line number kind table group)
    (hd : d ∈ reader.readLine line number kind table group) (hplace : SamePlace other d) : other = d := by
  have hreports := reader.reports_readLine line number kind table group
  refine eq_of_samePlace (hreports.ordered.imp_of_mem fun {a b} ha hb hab => .inr ⟨?_, hab⟩)
    (fun e he => (hreports.pointsInto e he).nameSpan_nonempty) hother hd hplace
  rw [hreports.numbered a ha, hreports.numbered b hb]

theorem eq_of_mem_readAll {kind : ManifestKind} {lines : List (List Char)} {other : Dependency}
    (hother : other ∈ reader.readAll kind lines) (hd : d ∈ reader.readAll kind lines)
    (hplace : SamePlace other d) : other = d := by
  cases kind with
  | requirements =>
      obtain ⟨hpoints, hordered⟩ := reader.reports_readRequirements 0 lines
      refine eq_of_samePlace hordered (fun e he => ?_) hother hd hplace
      obtain ⟨_, _, -, -, hinto⟩ := hpoints e he
      exact hinto.nameSpan_nonempty
  | pyproject =>
      obtain ⟨hpoints, hordered⟩ := reader.reports_readFrom keepsApart_start 0 lines
      refine eq_of_samePlace hordered (fun e he => ?_) hother hd hplace
      obtain ⟨_, _, -, -, hinto⟩ := hpoints e he
      exact hinto.nameSpan_nonempty

end ManifestReader

end ManifestLens
