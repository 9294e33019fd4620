import ManifestLens.Proofs.Manifest.ArrayKey
import ManifestLens.Proofs.Manifest.Placement
import ManifestLens.Proofs.Text.Lines

/-!
# One constraint revised

An edit exchanges a part of one constraint. Here is what the readers make of the line then, in each
dialect and in each kind of step: the same entries as before, with the one constraint revised and those
behind it further on, and the same state after the line. The one thing that can go wrong is a bracket of
extras that is open where the constraint stands, because the constraint is a part of the extras then.
-/

namespace ManifestLens

open Text

/-! ### Revisions -/

namespace Dependency

/-- What stands on the line between the name and the constraint. -/
def beforeConstraint (d : Dependency) (line : List Char) : List Char :=
  (line.take d.span.start).drop d.nameSpan.stop

/-- The extras from their bracket up to the constraint, if the bracket opens before the constraint. In a
table they are a field of their own, elsewhere they follow the name. -/
def extrasBefore? (d : Dependency) (line : List Char) : Option (List Char) :=
  match d.dialect with
  | .poetryTable =>
      (firstField "extras".toList isListStart ' ' 0 (d.beforeConstraint line)).map Prod.snd
  | _ =>
      if '[' ∈ d.beforeConstraint line then some ((d.beforeConstraint line).dropWhile (· != '['))
      else none

/-- Extras that open before the constraint are closed before it. -/
def OutsideExtras (d : Dependency) (line : List Char) : Prop :=
  ∀ extras, d.extrasBefore? line = some extras → ']' ∈ extras

def revised (d : Dependency) (constraint : List Char) : Dependency :=
  { d with constraint, span := ⟨d.span.start, constraint.length⟩ }

def revisedLine (d : Dependency) (line constraint : List Char) : List Char :=
  line.take d.span.start ++ constraint ++ line.drop d.span.stop

/-- The dependency behind a text whose length has changed. -/
def shifted (old new : Nat) (d : Dependency) : Dependency :=
  { d with
    nameSpan := ⟨d.nameSpan.start - old + new, d.nameSpan.length⟩
    span := ⟨d.span.start - old + new, d.span.length⟩ }

end Dependency

/-- A part of the constraint of a dependency is exchanged for another text, and what comes out may stand
as a constraint again. In a requirements line the new text has to be a patch, since a line is cut where an
option starts. -/
structure Revision (d : Dependency) where
  front : List Char
  old : List Char
  new : List Char
  back : List Char
  constraint_eq : d.constraint = front ++ old ++ back
  ne_nil : front ++ new ++ back ≠ []
  accepted : d.dialect.Accepts (front ++ new ++ back)
  unbroken : IsUnbroken (front ++ new ++ back)
  patch : d.dialect = .requirementsLine → IsPatch new

def Revision.constraint {d : Dependency} (revision : Revision d) : List Char :=
  revision.front ++ revision.new ++ revision.back

theorem Revision.isTableConstraint {d : Dependency} (revision : Revision d)
    (h : d.dialect = .poetryTable) : IsTableConstraint revision.constraint := by
  have haccepted := revision.accepted
  unfold Dialect.Accepts at haccepted
  rw [h] at haccepted
  exact haccepted

theorem Revision.isConstraintText {d : Dependency} (revision : Revision d)
    (h : d.dialect ≠ .poetryTable) : IsConstraintText revision.constraint := by
  have haccepted := revision.accepted
  unfold Dialect.Accepts at haccepted
  split at haccepted
  · next heq => exact absurd heq h
  · exact haccepted

theorem Requirement.dialect_of_toDependency? {rule : NameRule} {dialect : Dialect} {number : Nat}
    {group : Group} {r : Requirement} {d : Dependency}
    (h : r.toDependency? rule dialect number group = some d) : d.dialect = dialect := by
  rw [(toDependency?_eq_some_iff.mp h).2]

/-- The entries found after a revision are those found before it: the earlier ones as they were, the
revised one, and the later ones further on. -/
def Revises (d : Dependency) (constraint : List Char) (found found' : List Dependency) : Prop :=
  ∃ earlier later, found = earlier ++ d :: later ∧
    found' = earlier ++ d.revised constraint
      :: later.map (Dependency.shifted d.constraint.length constraint.length) ∧
    (∀ other ∈ earlier, other ≠ d ∧ other.nameSpan.start < d.span.start) ∧
    ∀ other ∈ later, other ≠ d ∧ d.span.stop ≤ other.nameSpan.start ∧
      d.span.stop ≤ other.span.start

theorem revises_singleton (d : Dependency) (constraint : List Char) :
    Revises d constraint [d] [d.revised constraint] :=
  ⟨[], [], rfl, rfl, by simp, by simp⟩

theorem Dependency.revisedLine_eq {d : Dependency} {before after : List Char}
    (hspan : d.span = ⟨before.length, d.constraint.length⟩) (constraint : List Char) :
    d.revisedLine (before ++ d.constraint ++ after) constraint = before ++ constraint ++ after := by
  have hstop : d.span.stop = (before ++ d.constraint).length := by
    rw [hspan, Span.stop, List.length_append]
  rw [revisedLine, hstop, List.drop_left, hspan, List.append_assoc before, List.take_left]

/-! ### Strings of an array line -/

theorem RequirementForm.isClosed_of_between (form : RequirementForm)
    (h : '[' ∈ bracketText form.bracket ++ form.gap →
      ']' ∈ (bracketText form.bracket ++ form.gap).dropWhile (· != '[')) :
    ∀ b, form.bracket = some b → b.isClosed = true := by
  intro b hb
  by_contra hopen
  have hfalse : b.isClosed = false := by simpa using hopen
  obtain ⟨hgap, -⟩ := form.nothing_after_open b hb hfalse
  have htext : bracketText form.bracket ++ form.gap = b.gap ++ '[' :: b.inner := by
    simp [hb, bracketText, ExtrasForm.text, hfalse, hgap]
  rw [htext] at h
  have hmem := (List.dropWhile_sublist (· != '[')).subset (h (by simp))
  rcases List.mem_append.mp hmem with hmem | hmem
  · exact b.gap_blank.notMem (by decide) hmem
  · rcases List.mem_cons.mp hmem with hmem | hmem
    · exact absurd hmem (by decide)
    · exact b.inner_open hmem

namespace QuotedString

variable {rule : NameRule} {number : Nat} {group : Group} {d : Dependency}

theorem dependency?_eq_of_read? {s : QuotedString} {r : Requirement}
    (h : Requirement.read? s.content 0 = some r) (haccepts : rule.accepts r.name = true) :
    s.dependency? rule number group = some ⟨r.name, r.constraint, r.span.moved s.column,
      r.nameSpan.moved s.column, number, group, .array, r.extras⟩ := by
  have hplain : s.plainDependency? rule number group = some ⟨r.name, r.constraint, r.span.moved s.column,
      r.nameSpan.moved s.column, number, group, .array, r.extras⟩ := by
    rw [plainDependency?, Requirement.read?_eq_moved, h, Option.map_some, Option.bind_some,
      Requirement.toDependency?_eq_some_iff]
    exact ⟨haccepts, rfl⟩
  rw [dependency?, hplain]
  rfl

theorem dependency?_eq_of_readParenthesized? {s : QuotedString} {r : Requirement}
    (h : Requirement.readParenthesized? s.content 0 = some r) (haccepts : rule.accepts r.name = true) :
    s.dependency? rule number group = some ⟨r.name, r.constraint, r.span.moved s.column,
      r.nameSpan.moved s.column, number, group, .poetryParentheses, r.extras⟩ := by
  have hplain : s.plainDependency? rule number group = none := by
    rw [plainDependency?, Requirement.read?_eq_moved, read?_eq_none_of_parenthesized h]
    rfl
  have hparenthesized : s.parenthesizedDependency? rule number group = some ⟨r.name, r.constraint,
      r.span.moved s.column, r.nameSpan.moved s.column, number, group, .poetryParentheses,
      r.extras⟩ := by
    rw [parenthesizedDependency?, Requirement.readParenthesized?_eq_moved, h, Option.map_some,
      Option.bind_some, Requirement.toDependency?_eq_some_iff]
    exact ⟨haccepts, rfl⟩
  rw [dependency?, hplain, hparenthesized]
  rfl

/-- **The string of a revised entry.** The content of the string is cut at the constraint, and with
the revised constraint in its place it states the revised entry. -/
theorem exists_revised_dependency? {s : QuotedString} (hs : s.dependency? rule number group = some d)
    (revision : Revision d)
    (hextras : ∀ between, between = (s.content.take (d.span.start - s.column)).drop
        (d.nameSpan.stop - s.column) →
      '[' ∈ between → ']' ∈ between.dropWhile (· != '[')) :
    ∃ head tail, s.content = head ++ d.constraint ++ tail ∧
      d.span = ⟨s.column + head.length, d.constraint.length⟩ ∧
      (∀ c ∈ revision.constraint, isConstraintChar c = true) ∧
      (⟨s.column, head ++ revision.constraint ++ tail, s.isElement⟩ : QuotedString).dependency? rule number
        group = some (d.revised revision.constraint) := by
  have hne := revision.ne_nil
  obtain ⟨dialect, r, hread, haccepts, rfl⟩ := exists_of_dependency? hs
  rcases hread with ⟨rfl, hread⟩ | ⟨rfl, hread⟩
  · obtain ⟨form, hform, rfl⟩ := exists_requirementForm hread
    have hbetween : bracketText form.bracket ++ form.gap
        = (s.content.take (form.head.length + s.column - s.column)).drop
            (form.indent.length + s.column + form.name.length - s.column) := by
      have hstart : form.head.length + s.column - s.column = form.head.length := by omega
      have hstop : form.indent.length + s.column + form.name.length - s.column
          = (form.indent ++ form.name).length := by
        rw [List.length_append]
        omega
      have hhead : form.head = (form.indent ++ form.name) ++ (bracketText form.bracket ++ form.gap) := by
        simp [RequirementForm.head]
      rw [hstart, hstop, ← hform, RequirementForm.text, List.append_assoc, List.take_left, hhead,
        List.drop_left]
    have hclosed := form.isClosed_of_between (hextras _ (by
      simpa [RequirementForm.requirement, Span.moved, Span.stop] using hbetween))
    have hvalid := revision.isConstraintText (by simp)
    refine ⟨form.head, form.tail, hform.symm, ?_, hvalid.all, ?_⟩
    · simp [RequirementForm.requirement, Span.moved, Nat.add_comm]
    · have hnew := (form.withConstraint revision.constraint hvalid hne hclosed).read?_text 0
      have hname : rule.accepts ((form.withConstraint revision.constraint hvalid hne
        hclosed).requirement 0).name = true := haccepts
      exact dependency?_eq_of_read? hnew hname
  · obtain ⟨form, hform, rfl⟩ := exists_parenthesizedForm hread
    have hvalid := revision.isConstraintText (by simp)
    refine ⟨form.head, form.tail, hform.symm, ?_, hvalid.all, ?_⟩
    · simp [ParenthesizedForm.requirement, Span.moved, Nat.add_comm]
    · have hnew := (form.withConstraint revision.constraint hvalid hne).read?_text 0
      have hname : rule.accepts ((form.withConstraint revision.constraint hvalid hne).requirement
        0).name = true := haccepts
      exact dependency?_eq_of_readParenthesized? hnew hname

theorem bracketBalance_exchange {before content other after : List Char} {quote : Char}
    (hquote : isQuote quote = true) (hbefore : codeFrom none before = before)
    (hstate : quoteState none before = none) (hcontent : quote ∉ content) (hother : quote ∉ other) :
    bracketBalance none (codePart (before ++ quote :: (other ++ after)))
      = bracketBalance none (codePart (before ++ quote :: (content ++ after))) := by
  have hbalance : ∀ text : List Char, quote ∉ text →
      bracketBalance none (codePart (before ++ quote :: (text ++ after)))
        = bracketBalance none (before ++ [quote]) + bracketBalance (some quote)
            (codeFrom (some quote) after) := by
    intro text htext
    have hopen : quoteState none (before ++ [quote]) = some quote := by
      rw [quoteState_append, hstate]
      simp [quoteState, quoteAfter, hquote]
    have hsplit : before ++ quote :: (text ++ codeFrom (some quote) after)
        = (before ++ [quote]) ++ (text ++ codeFrom (some quote) after) := by simp
    have hinside : bracketBalance (some quote) (text ++ codeFrom (some quote) after)
        = bracketBalance (some quote) (codeFrom (some quote) after) := by
      rw [bracketBalance_append, bracketBalance_content htext, quoteState_content htext, Int.zero_add]
    rw [codePart, codeFrom_append hbefore, hstate, codeFrom_open hquote, codeFrom_content htext, hsplit,
      bracketBalance_append, hopen, hinside]
  rw [hbalance other hother, hbalance content hcontent]

theorem entries_moved (shift : Nat) (strings : List QuotedString) :
    ((strings.map (moved shift)).filter isElement).filterMap (dependency? rule number group)
      = ((strings.filter isElement).filterMap (dependency? rule number group)).map
          (Dependency.moved shift) := by
  rw [List.filter_map, List.filterMap_map, List.map_filterMap]
  congr 1
  funext s
  exact dependency?_moved shift

theorem shifted_moved {old new shift : Nat} (h : old ≤ shift) (d : Dependency) :
    (d.moved shift).shifted old new = d.moved (shift - old + new) := by
  simp only [Dependency.shifted, Dependency.moved, Span.moved]
  congr 2
  · omega
  · omega

theorem slice_content {before content after : List Char} {quote : Char} {column start stop : Nat}
    (hstart : column + before.length + 1 ≤ start) (hordered : start ≤ stop)
    (hstop : stop ≤ column + before.length + 1 + content.length) :
    ((before ++ quote :: (content ++ after)).take (stop - column)).drop (start - column)
      = (content.take (stop - (column + before.length + 1))).drop (start - (column + before.length + 1)) := by
  have htake : stop - column = (before ++ [quote]).length + (stop - (column + before.length + 1)) := by
    simp only [List.length_append, List.length_singleton]
    omega
  have hdrop : start - column = (before ++ [quote]).length + (start - (column + before.length + 1)) := by
    simp only [List.length_append, List.length_singleton]
    omega
  have hsplit : before ++ quote :: (content ++ after) = (before ++ [quote]) ++ (content ++ after) := by simp
  have hinside : stop - (column + before.length + 1) ≤ content.length := by omega
  rw [htake, hdrop, hsplit, List.take_length_add_append, List.drop_length_add_append,
    List.take_append_of_le_length hinside]

/-- The entries of the strings around that of a revised entry: those before it end before it, and those behind it
have moved as far as the content has grown. -/
theorem revises_around {column offset : Nat} {earlier later : List QuotedString} {content constraint : List Char}
    (helement : s.isElement = true) (hentry : s.dependency? rule number group = some d)
    (hrevised : (⟨s.column, content, s.isElement⟩ : QuotedString).dependency? rule number group
      = some (d.revised constraint))
    (hcolumn : s.column = column + offset) (hearlier : ∀ e ∈ earlier, e.column + e.content.length < s.column)
    (hlater : ∀ e ∈ later, column + 1 ≤ e.column)
    (hlength : content.length + d.constraint.length = s.content.length + constraint.length)
    (hfits : d.constraint.length ≤ s.content.length) :
    Revises d constraint
      (((earlier ++ s :: later.map (moved (offset + s.content.length))).filter
        isElement).filterMap (dependency? rule number group))
      (((earlier ++ ⟨s.column, content, s.isElement⟩ :: later.map (moved (offset + content.length))).filter
        isElement).filterMap (dependency? rule number group)) := by
  have hwithin := within_of_dependency? hentry
  have hordered := hwithin.ordered
  have hstart := hwithin.start_le
  have hstopLe := hwithin.stop_le
  have hnamed := hwithin.named
  simp only [Span.stop] at hordered hstopLe
  refine ⟨(earlier.filter isElement).filterMap (dependency? rule number group),
    ((later.map (moved (offset + s.content.length))).filter isElement).filterMap
      (dependency? rule number group), ?_, ?_, ?_, ?_⟩
  · rw [List.filter_append, List.filterMap_append, List.filter_cons_of_pos helement,
      List.filterMap_cons_some hentry]
  · rw [List.filter_append, List.filterMap_append, List.filter_cons_of_pos (by exact helement),
      List.filterMap_cons_some hrevised, entries_moved, entries_moved, List.map_map]
    congr 2
    refine List.map_congr_left fun e _ => ?_
    rw [Function.comp, shifted_moved (by omega)]
    congr 1
    omega
  · intro other hother
    obtain ⟨e, he, hentryE⟩ := List.mem_filterMap.mp hother
    have hwithinE := within_of_dependency? hentryE
    have hcolumns := hearlier e (List.mem_filter.mp he).1
    have hnamedE := hwithinE.named
    have horderedE := hwithinE.ordered
    have hstopE := hwithinE.stop_le
    simp only [Span.stop] at horderedE hstopE
    refine ⟨?_, by omega⟩
    rintro rfl
    omega
  · intro other hother
    obtain ⟨e, he, hentryE⟩ := List.mem_filterMap.mp hother
    obtain ⟨origin, horigin, rfl⟩ := List.mem_map.mp (List.mem_filter.mp he).1
    have hwithinE := within_of_dependency? hentryE
    have hcolumns := hlater origin horigin
    have hstartE := hwithinE.start_le
    have horderedE := hwithinE.ordered
    simp only [moved, Span.stop] at hstartE horderedE ⊢
    refine ⟨?_, by omega, by omega⟩
    rintro rfl
    omega

/-- **The strings of a revised line.** Among the entries of an array line one is revised: the strings
before its own are as they were, those behind it have moved. -/
theorem revises_strings {column : Nat} {last : Option Char} {text : List Char} (hline : '\n' ∉ text)
    (hd : d ∈ ((stringsFrom column last text).filter isElement).filterMap (dependency? rule number group))
    (revision : Revision d)
    (hextras : ∀ between, between = (text.take (d.span.start - column)).drop
        (d.nameSpan.stop - column) →
      '[' ∈ between → ']' ∈ between.dropWhile (· != '[')) :
    ∃ before after, text = before ++ d.constraint ++ after ∧
      d.span = ⟨column + before.length, d.constraint.length⟩ ∧
      (before ++ revision.constraint ++ after).head? = text.head? ∧
      bracketBalance none (codePart (before ++ revision.constraint ++ after))
        = bracketBalance none (codePart text) ∧
      Revises d revision.constraint
        (((stringsFrom column last text).filter isElement).filterMap (dependency? rule number group))
        (((stringsFrom column last (before ++ revision.constraint ++ after)).filter
          isElement).filterMap (dependency? rule number group)) := by
  obtain ⟨s, hs, hentry⟩ := List.mem_filterMap.mp hd
  obtain ⟨hmem, helement⟩ := List.mem_filter.mp hs
  obtain ⟨before, after, quote, earlier, later, hquote, hcontent, htext, hcolumn, hbefore, hstate, -,
    hearlier, hlater, hexchange⟩ := exists_site hline hmem
  have hwithin := within_of_dependency? hentry
  have hstart : column + before.length + 1 ≤ d.nameSpan.stop := by
    rw [← hcolumn]
    exact Nat.le_trans hwithin.start_le (Nat.le_add_right ..)
  have hstop : d.span.start ≤ column + before.length + 1 + s.content.length := by
    rw [← hcolumn]
    exact Nat.le_trans (Nat.le_add_right ..) hwithin.stop_le
  obtain ⟨head, tail, hparts, hspan, hchars, hrevised⟩ := exists_revised_dependency? hentry revision (by
    intro between hbetween
    refine hextras between ?_
    rw [hbetween, htext, hcolumn, slice_content hstart hwithin.ordered hstop])
  have hquoteChar : isConstraintChar quote = false := by
    simp only [isQuote, Bool.or_eq_true, beq_iff_eq] at hquote
    rcases hquote with rfl | rfl <;> decide
  have hfeedContent : '\n' ∉ s.content := fun hmem => hline (by rw [htext]; simp [hmem])
  have hnewQuote : quote ∉ head ++ revision.constraint ++ tail := by
    rw [hparts] at hcontent
    simp only [List.mem_append, not_or] at hcontent ⊢
    refine ⟨⟨hcontent.1.1, fun hmem => ?_⟩, hcontent.2⟩
    rw [hchars quote hmem] at hquoteChar
    cases hquoteChar
  have hnewFeed : '\n' ∉ head ++ revision.constraint ++ tail := by
    rw [hparts] at hfeedContent
    simp only [List.mem_append, not_or] at hfeedContent ⊢
    exact ⟨⟨hfeedContent.1.1, revision.unbroken.notMem (by decide)⟩, hfeedContent.2⟩
  have hfound := hexchange s.content hcontent hfeedContent
  have hfound' := hexchange (head ++ revision.constraint ++ tail) hnewQuote hnewFeed
  rw [← htext] at hfound
  have hnewText : (before ++ quote :: head) ++ revision.constraint ++ (tail ++ after)
      = before ++ quote :: ((head ++ revision.constraint ++ tail) ++ after) := by simp
  have hlength : s.content.length = head.length + d.constraint.length + tail.length := by
    rw [hparts, List.length_append, List.length_append]
  refine ⟨before ++ quote :: head, tail ++ after, by simp [htext, hparts], ?_, ?_, ?_, ?_⟩
  · rw [hspan, hcolumn]
    congr 1
    simp only [List.length_append, List.length_cons]
    omega
  · rw [htext]
    cases before <;> rfl
  · rw [hnewText, htext]
    exact bracketBalance_exchange hquote hbefore hstate hcontent hnewQuote
  · rw [hnewText, hfound, hfound']
    refine revises_around (s := s) helement hentry hrevised (by omega) hearlier hlater ?_ (by omega)
    simp only [List.length_append]
    omega

end QuotedString

/-! ### Entries of a table -/

namespace TableForm

variable {rule : NameRule} {number : Nat} {group : Group} {line name : List Char} {d : Dependency}

/-- The key and the sign, from behind the name on. -/
def sign (form : TableForm) : List Char :=
  form.key.quote.toList ++ form.key.before ++ '=' :: form.key.after

theorem bracket_notMem_sign (form : TableForm) : '[' ∉ form.sign := by
  intro hmem
  simp only [sign, List.mem_append, List.mem_cons] at hmem
  rcases hmem with (hmem | hmem) | hmem | hmem
  · have hquote := (form.key.quoted_name '[' (by simpa using hmem)).1
    exact absurd hquote (by decide)
  · exact form.key.before_blank.notMem (by decide) hmem
  · exact absurd hmem (by decide)
  · exact form.key.after_blank.notMem (by decide) hmem

theorem beforeConstraint_eq (form : TableForm) (hcode : codePart line = form.text)
    (hd : (form.requirement name).toDependency? rule .poetryTable number group = some d) :
    d.beforeConstraint line = form.sign ++ (form.opening ++ form.quote :: form.lead) := by
  obtain ⟨-, rfl⟩ := Requirement.toDependency?_eq_some_iff.mp hd
  obtain ⟨comment, hcomment⟩ := codePart_isPrefix line
  have htake : line.take form.head.length = form.head := by
    rw [← hcomment, hcode, form.text_eq, List.append_assoc, List.append_assoc, List.take_left]
  have hhead : form.head = (form.key.indent ++ form.key.quote.toList ++ form.key.name)
      ++ (form.sign ++ (form.opening ++ form.quote :: form.lead)) := by
    simp [head, sign, KeyForm.text, KeyForm.keyText]
  have hstop : (form.requirement name).nameSpan.stop
      = (form.key.indent ++ form.key.quote.toList ++ form.key.name).length := by
    simp [requirement, KeyForm.key, Span.stop]
    omega
  have hstart : (form.requirement name).span.start = form.head.length := rfl
  rw [Dependency.beforeConstraint]
  simp only [hstop, hstart, htake]
  rw [hhead, List.drop_left]

/-- Outside extras the field that lists them, if there is one before the constraint, is complete. -/
theorem extras_revised (form : TableForm) (hcode : codePart line = form.text)
    (hd : (form.requirement name).toDependency? rule .poetryTable number group = some d)
    (houtside : d.OutsideExtras line) {constraint : List Char}
    (hconstraint : IsTableConstraint constraint) (hne : constraint ≠ []) :
    (form.withConstraint constraint hconstraint hne).extras = form.extras := by
  by_cases hopening : form.opening = []
  · have : (form.withConstraint constraint hconstraint hne).opening = [] := hopening
    simp [extras, hopening, this]
  · refine form.extras_withConstraint hconstraint hne fun found hfound => ?_
    have hdialect : d.dialect = .poetryTable := by
      obtain ⟨-, rfl⟩ := Requirement.toDependency?_eq_some_iff.mp hd
      rfl
    obtain ⟨more, hmore⟩ : ∃ more, form.opening = '\x7b' :: more := by
      have hhead := (form.opened.resolve_left hopening).1
      cases hcases : form.opening with
      | nil => exact absurd hcases hopening
      | cons c more =>
          rw [hcases] at hhead
          exact ⟨more, by rw [Option.some.inj hhead]⟩
    have hbarrier : IsBarrier "extras".toList '\x7b' :=
      ⟨by decide, by decide, by decide, by decide⟩
    have hplain : ∀ c ∈ form.sign, isListStart (some c) = false := by
      intro c hc
      have hne : c ≠ '[' := by
        rintro rfl
        exact form.bracket_notMem_sign hc
      simpa [isListStart] using hne
    -- The search from behind the name and that from the brace on meet behind the brace.
    have hfar := firstField_skip isListStart ' ' 0 hbarrier hplain (by rfl)
      (more ++ form.quote :: form.lead)
    have hshift := firstField_column "extras".toList isListStart '\x7b' 1
      (more ++ form.quote :: form.lead) form.sign.length
    have hcolumn : 0 + form.sign.length + 1 = 1 + form.sign.length := by omega
    rw [hmore] at hfound
    rw [hcolumn, hshift] at hfar
    have hsame : firstField "extras".toList isListStart ' ' 0
        ('\x7b' :: more ++ form.quote :: form.lead) = firstField "extras".toList isListStart '\x7b' 1
          (more ++ form.quote :: form.lead) := firstField_barrier hbarrier _
    rw [hsame] at hfound
    rw [hfound] at hfar
    refine houtside found.2 ?_
    rw [Dependency.extrasBefore?, hdialect, form.beforeConstraint_eq hcode hd, hmore]
    simp only [List.cons_append]
    rw [hfar]
    rfl

/-- **A revised table line** is written with the revised constraint. -/
theorem codePart_revisedLine (form : TableForm) (hcode : codePart line = form.text)
    (hd : (form.requirement name).toDependency? rule .poetryTable number group = some d)
    {constraint : List Char} (hconstraint : IsTableConstraint constraint) (hne : constraint ≠ []) :
    codePart (d.revisedLine line constraint) = (form.withConstraint constraint hconstraint hne).text := by
  obtain ⟨-, rfl⟩ := Requirement.toDependency?_eq_some_iff.mp hd
  obtain ⟨comment, hcomment⟩ := codePart_isPrefix line
  have hsplit : line = form.head ++ form.constraint ++ (form.tail ++ comment) := by
    rw [← hcomment, hcode, form.text_eq, List.append_assoc]
  have hline : Dependency.revisedLine ⟨name, form.constraint, ⟨form.head.length,
      form.constraint.length⟩, (form.requirement name).nameSpan, number, group, .poetryTable,
      form.extras⟩ line constraint = form.head ++ constraint ++ (form.tail ++ comment) := by
    rw [hsplit]
    exact Dependency.revisedLine_eq rfl constraint
  have hexchange := codePart_exchange form.head form.tail comment
    (isPlain_of_isTableConstraint form.constraint_text) (isPlain_of_isTableConstraint hconstraint)
    (by rw [List.append_assoc, ← hsplit, hcode, form.text_eq])
  rw [TableForm.text_eq]
  refine Eq.trans ?_ hexchange
  rw [List.append_assoc (form.head ++ constraint)]
  exact congrArg codePart hline

theorem revisedLine_eq (form : TableForm) (hcode : codePart line = form.text)
    (hd : (form.requirement name).toDependency? rule .poetryTable number group = some d)
    (houtside : d.OutsideExtras line) {constraint : List Char}
    (hconstraint : IsTableConstraint constraint) (hne : constraint ≠ []) :
    codePart (d.revisedLine line constraint)
        = (form.withConstraint constraint hconstraint hne).text ∧
      ((form.withConstraint constraint hconstraint hne).requirement name).toDependency? rule
        .poetryTable number group = some (d.revised constraint) := by
  have hextras := form.extras_revised hcode hd houtside hconstraint hne
  refine ⟨form.codePart_revisedLine hcode hd hconstraint hne, ?_⟩
  obtain ⟨haccepts, rfl⟩ := Requirement.toDependency?_eq_some_iff.mp hd
  refine Requirement.toDependency?_eq_some_iff.mpr ⟨haccepts, ?_⟩
  simp only [Dependency.revised, requirement, hextras]
  rfl

theorem not_header (form : TableForm) (hcode : codePart line = form.text) :
    tableHeader? line = none ∧ openedArray? (codePart line) = none := by
  constructor
  · obtain ⟨first, rest, hkey, hfirst⟩ := form.key.exists_first
    have hvisible : isBlank first = false ∧ first ≠ '[' := by
      rcases hfirst with h | h
      · exact ⟨isBlank_of_isQuote h, (ne_bracket_of_isQuote h).1⟩
      · refine ⟨isBlank_of_isAsciiAlnum h, ?_⟩
        rintro rfl
        revert h
        decide
    refine tableHeader?_eq_none
      (rest ++ (form.key.before ++ '=' :: form.key.after ++ form.value)) ?_
      form.key.indent_blank hvisible.1 hvisible.2
    rw [hcode, text, KeyForm.text, hkey]
    simp
  · rw [hcode]
    refine form.key.openedArray?_eq_none form.headNot_isBlank_value ?_
    by_cases hopening : form.opening = []
    · rw [value, hopening, List.nil_append, List.head?_cons]
      intro h
      exact (ne_bracket_of_isQuote form.quote_isQuote).1 (Option.some.inj h)
    · rw [form.head?_value hopening]
      decide

end TableForm

/-! ### Lines -/

/-- The line opens an array under a key that starts with a quote. The scanner for strings takes such a
key for an element. -/
def opensQuotedKey (line : List Char) : Prop :=
  (openedArray? (codePart line)).isSome = true ∧ ∃ c, (trimLeft line).head? = some c ∧ isQuote c = true

section Line

variable {reader : ManifestReader} {state : DocumentState} {number : Nat} {line : List Char}
  {d : Dependency}

theorem Dependency.OutsideExtras.of_array (h : d.OutsideExtras line) (hdialect : d.dialect ≠ .poetryTable)
    (hmem : '[' ∈ d.beforeConstraint line) : ']' ∈ (d.beforeConstraint line).dropWhile (· != '[') := by
  refine h _ ?_
  rw [Dependency.extrasBefore?]
  split
  · next heq => exact absurd heq hdialect
  · rw [if_pos hmem]

theorem QuotedString.dialect_of_dependency? {rule : NameRule} {group : Group} {s : QuotedString}
    (h : s.dependency? rule number group = some d) : d.dialect ≠ .poetryTable := by
  obtain ⟨dialect, r, hread, -, rfl⟩ := exists_of_dependency? h
  rcases hread with ⟨rfl, -⟩ | ⟨rfl, -⟩ <;> simp

/-- **A revised array line.** From some column on, the line has the same brackets, and its entries are
those of before with one revised. -/
theorem revises_arrayStrings {rule : NameRule} {group : Group} (last : Option Char)
    (front : List Char) {back : List Char} (hline : '\n' ∉ back)
    (hd : d ∈ ((QuotedString.stringsFrom front.length last back).filter
      QuotedString.isElement).filterMap (QuotedString.dependency? rule number group))
    (houtside : d.OutsideExtras (front ++ back)) (revision : Revision d) :
    ∃ other, d.revisedLine (front ++ back) revision.constraint = front ++ other ∧
      other.head? = back.head? ∧
      bracketBalance none (codePart other) = bracketBalance none (codePart back) ∧ '\n' ∉ other ∧
      Revises d revision.constraint
        (((QuotedString.stringsFrom front.length last back).filter
          QuotedString.isElement).filterMap (QuotedString.dependency? rule number group))
        (((QuotedString.stringsFrom front.length last other).filter
          QuotedString.isElement).filterMap (QuotedString.dependency? rule number group)) := by
  obtain ⟨s, hs, hentry⟩ := List.mem_filterMap.mp hd
  have hcolumn := (QuotedString.pairwise_stringsFrom front.length last _).1 s (List.mem_filter.mp hs).1
  have hwithin := QuotedString.within_of_dependency? hentry
  have hnamed := hwithin.start_le
  have hordered := hwithin.ordered
  obtain ⟨before, after, hback, hspan, hhead, hbalance, hrevises⟩ :=
    QuotedString.revises_strings hline hd revision (by
      rintro between rfl hmem
      have hbetween : d.beforeConstraint (front ++ back)
          = (back.take (d.span.start - front.length)).drop (d.nameSpan.stop - front.length) := by
        simp only [Span.stop] at hordered
        have htake : d.span.start = front.length + (d.span.start - front.length) := by omega
        have hdrop : d.nameSpan.stop = front.length + (d.nameSpan.stop - front.length) := by
          simp only [Span.stop]
          omega
        rw [Dependency.beforeConstraint, htake, hdrop, List.take_length_add_append,
          List.drop_length_add_append, Nat.add_sub_cancel_left, Nat.add_sub_cancel_left]
      rw [← hbetween] at hmem ⊢
      exact houtside.of_array (QuotedString.dialect_of_dependency? hentry) hmem)
  refine ⟨before ++ revision.constraint ++ after, ?_, hhead, hbalance, ?_, hrevises⟩
  · have hsplit : front ++ back = (front ++ before) ++ d.constraint ++ after := by simp [hback]
    rw [hsplit, Dependency.revisedLine_eq (by rw [hspan, List.length_append])]
    simp
  · rw [hback] at hline
    simp only [List.mem_append, not_or] at hline ⊢
    exact ⟨⟨hline.1.1, revision.unbroken.notMem (by decide)⟩, hline.2⟩

/-- A revised line of a table is neither a header nor the opening of an array, and states the revised
entry. -/
theorem ManifestReader.revises_tableEntries {table : List Char} (hline : '\n' ∉ line)
    (hd : d ∈ reader.tableEntries line number table) (houtside : d.OutsideExtras line)
    (revision : Revision d) :
    Revises d revision.constraint (reader.tableEntries line number table)
        (reader.tableEntries (d.revisedLine line revision.constraint) number table) ∧
      tableHeader? (d.revisedLine line revision.constraint) = none ∧
      openedArray? (codePart (d.revisedLine line revision.constraint)) = none := by
  cases htable : PoetryTable.ofTable? table with
  | none => simp [tableEntries, htable] at hd
  | some poetry =>
      obtain ⟨group, package⟩ := poetry
      cases package with
      | some package =>
          simp only [tableEntries, htable] at hd ⊢
          have hfound := Option.mem_toList.mp hd
          obtain ⟨form, hcode, hopening, hbare, hversion, hdependency⟩ :=
            exists_of_versionKeyDependency? hfound
          have haccepted := revision.isTableConstraint
            (Requirement.dialect_of_toDependency? hdependency)
          obtain ⟨hcode', hdependency'⟩ :=
            form.revisedLine_eq hcode hdependency houtside haccepted revision.ne_nil
          have hfound' := versionKeyDependency?_text reader.rule package number group
            (form.withConstraint revision.constraint haccepted revision.ne_nil) hcode' hopening hbare
            hversion
          rw [hdependency'] at hfound'
          rw [hfound, hfound']
          exact ⟨revises_singleton d _, TableForm.not_header _ hcode'⟩
      | none =>
          simp only [tableEntries, htable] at hd ⊢
          obtain ⟨form, hcode, hfree, hdependency⟩ := exists_of_mem_tableDependencies hline hd
          have haccepted := revision.isTableConstraint
            (Requirement.dialect_of_toDependency? hdependency)
          obtain ⟨hcode', hdependency'⟩ :=
            form.revisedLine_eq hcode hdependency houtside haccepted revision.ne_nil
          have hfeed : '\n' ∉ form.text := by
            rw [← hcode]
            exact fun hmem => hline ((codePart_isPrefix line).subset hmem)
          have hfeed' : '\n' ∉ (form.withConstraint revision.constraint haccepted
              revision.ne_nil).text := by
            rw [form.text_eq] at hfeed
            rw [TableForm.text_eq]
            simp only [List.mem_append, not_or] at hfeed ⊢
            exact ⟨⟨hfeed.1.1, revision.unbroken.notMem (by decide)⟩, hfeed.2⟩
          have hfound := tableDependencies_text reader.rule number group form hcode hfeed hfree
          have hfound' := tableDependencies_text reader.rule number group _ hcode' hfeed' hfree
          rw [hdependency] at hfound
          rw [hfound, hfound']
          refine ⟨?_, TableForm.not_header _ hcode'⟩
          have hname : (form.withConstraint revision.constraint haccepted revision.ne_nil).key.name
              = form.key.name := rfl
          rw [hname, hdependency']
          exact revises_singleton d _

/-- **A revised requirements line.** -/
theorem revises_requirementsDependencies {rule : NameRule} {group : Group}
    (hd : d ∈ requirementsDependencies rule line number group) (houtside : d.OutsideExtras line)
    (revision : Revision d) :
    Revises d revision.constraint (requirementsDependencies rule line number group)
      (requirementsDependencies rule (d.revisedLine line revision.constraint) number group) := by
  obtain ⟨form, hpart, hnamed, hhere, hdependency⟩ := exists_of_mem_requirementsDependencies hd
  have hfound := requirementsDependencies_eq rule number group form hpart hnamed hhere
  rw [hdependency] at hfound
  obtain ⟨rest, hrest⟩ := requirementPart_isPrefix line
  rw [hpart] at hrest
  have hsplit : line = form.head ++ form.constraint ++ (form.tail ++ rest) := by
    rw [← hrest, RequirementForm.text, List.append_assoc]
  have hdialect := Requirement.dialect_of_toDependency? hdependency
  have hvalid := revision.isConstraintText (by rw [hdialect]; simp)
  obtain ⟨haccepts, hd'⟩ := Requirement.toDependency?_eq_some_iff.mp hdependency
  have hname : d.nameSpan = ⟨form.indent.length, form.name.length⟩ := by
    rw [hd', RequirementForm.requirement]
    simp
  have hspan : d.span = ⟨form.head.length, form.constraint.length⟩ := by
    rw [hd', RequirementForm.requirement]
    simp
  have hconstraint : d.constraint = form.constraint := by rw [hd', RequirementForm.requirement]
  have hbetween : d.beforeConstraint line = bracketText form.bracket ++ form.gap := by
    have hhead : form.head = (form.indent ++ form.name) ++ (bracketText form.bracket ++ form.gap) := by
      simp [RequirementForm.head]
    have hstop : d.nameSpan.stop = (form.indent ++ form.name).length := by
      rw [hname, Span.stop, List.length_append]
    rw [Dependency.beforeConstraint, hstop, hspan, hsplit, List.append_assoc, List.take_left, hhead,
      List.drop_left]
  have hclosed : ∀ b, form.bracket = some b → b.isClosed = true := by
    refine form.isClosed_of_between fun hmem => ?_
    rw [← hbetween] at hmem ⊢
    exact houtside.of_array (by rw [hdialect]; simp) hmem
  have hpartRest : requirementPart (form.text ++ rest) = form.text := by rw [hrest, hpart]
  have hexchange := requirementsDependencies_exchange rule number group form hpartRest hhere
    (by rw [← hconstraint, revision.constraint_eq]) (revision.patch hdialect) hvalid revision.ne_nil
    hclosed
  have hrevised : ((form.withConstraint revision.constraint hvalid revision.ne_nil
      hclosed).requirement 0).toDependency? rule .requirementsLine number group
      = some (d.revised revision.constraint) := by
    refine Requirement.toDependency?_eq_some_iff.mpr ⟨haccepts, ?_⟩
    subst hd'
    rfl
  have hline : d.revisedLine line revision.constraint
      = (form.withConstraint revision.constraint hvalid revision.ne_nil hclosed).text ++ rest := by
    rw [hsplit, ← hconstraint, Dependency.revisedLine_eq (by rw [hspan, hconstraint])]
    simp [RequirementForm.text, RequirementForm.withConstraint, RequirementForm.head,
      RequirementForm.tail]
  rw [hline, hfound]
  change Revises d revision.constraint [d] (requirementsDependencies rule
    ((form.withConstraint (revision.front ++ revision.new ++ revision.back) hvalid revision.ne_nil
      hclosed).text ++ rest) number group)
  rw [hexchange]
  have hentry := congrArg Option.toList hrevised
  exact hentry ▸ revises_singleton d _

/-- **One line of a document, revised.** The line yields the same entries with one revised, and the
reading goes on from the same state. -/
theorem ManifestReader.revises_step (hline : '\n' ∉ line) (hd : d ∈ (reader.step state number line).1)
    (hkey : ¬ opensQuotedKey line) (houtside : d.OutsideExtras line) (revision : Revision d) :
    Revises d revision.constraint (reader.step state number line).1
        (reader.step state number (d.revisedLine line revision.constraint)).1 ∧
      (reader.step state number (d.revisedLine line revision.constraint)).2
        = (reader.step state number line).2 := by
  by_cases hdepth : 0 < state.depth
  · -- inside an array
    rw [step_inside hdepth] at hd ⊢
    rw [step_inside hdepth]
    cases hgroup : state.group with
    | none => simp [hgroup] at hd
    | some group =>
        simp only [hgroup, Option.map_some, Option.getD_some] at hd ⊢
        rw [arrayEntries_eq reader] at hd ⊢
        obtain ⟨other, hother, -, hbalance, -, hrevises⟩ :=
          revises_arrayStrings none [] hline hd houtside revision
        rw [List.nil_append, List.nil_append] at hother
        rw [hother, arrayEntries_eq reader, hbalance]
        exact ⟨hrevises, rfl⟩
  · have hclosed : state.depth ≤ 0 := by omega
    cases hheader : tableHeader? line with
    | some header =>
        rw [step_header hclosed hheader] at hd
        cases hd
    | none =>
        cases hopened : openedArray? (codePart line) with
        | some opened =>
            obtain ⟨key, value⟩ := opened
            have hfirst : ∀ c, (trimLeft line).head? = some c → isQuote c = false := by
              intro c hc
              by_contra hquote
              exact hkey ⟨by rw [hopened]; rfl, c, hc, by simpa using hquote⟩
            obtain ⟨front, back, rfl, rfl, hback, hfront⟩ := exists_opening hline hopened hfirst
            have hbackLine : '\n' ∉ back := fun hmem => hline (by simp [hmem])
            rw [step_opening hclosed hheader hopened] at hd ⊢
            cases hgroup : Group.ofTable? state.table (some key) with
            | none => simp [hgroup] at hd
            | some group =>
                simp only [hgroup, Option.map_some, Option.getD_some] at hd ⊢
                rw [arrayEntries_eq reader, hfront.elementsOfLine_append] at hd ⊢
                obtain ⟨other, hother, hhead, hbalance, -, hrevises⟩ :=
                  revises_arrayStrings _ _ hbackLine hd houtside revision
                have hopened' := hfront.openedArray?_append (hhead.trans hback)
                rw [hother, step_opening hclosed (hfront.tableHeader?_append other) hopened', hgroup,
                  Option.map_some, Option.getD_some, arrayEntries_eq reader,
                  hfront.elementsOfLine_append, hbalance]
                exact ⟨hrevises, rfl⟩
        | none =>
            rw [step_entry hclosed hheader hopened] at hd ⊢
            cases htable : state.table with
            | none => simp [htable] at hd
            | some table =>
                simp only [htable, Option.map_some, Option.getD_some] at hd ⊢
                obtain ⟨hrevises, hheader', hopened'⟩ :=
                  revises_tableEntries hline hd houtside revision
                rw [step_entry hclosed hheader' hopened', htable, Option.map_some, Option.getD_some]
                exact ⟨hrevises, rfl⟩

end Line

end ManifestLens
