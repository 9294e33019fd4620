import ManifestLens.Manifest.Document
import ManifestLens.Proofs.Manifest.Parenthesized
import ManifestLens.Proofs.Manifest.Quoted
import Mathlib.Data.List.Pairwise

/-!
# The entries of an array line

A line of a dependency array is read twice, for plain requirements and for such with parentheses, and
the two results are merged by column. Since no string is both, and strings stand one behind another,
merging drops and reorders nothing: each string yields its own entry or none, in the order of the line.
-/

namespace ManifestLens

open Text

/-! ### Merging -/

/-- The two spans share no column. -/
def Span.Apart (a b : Span) : Prop := a.stop ≤ b.start ∨ b.stop ≤ a.start

theorem Span.overlaps_eq_false {a b : Span} (h : a.Apart b) : a.overlaps b = false := by
  simp only [Span.overlaps, Bool.and_eq_false_iff, decide_eq_false_iff_not]
  rcases h with h | h <;> omega

theorem addDisjoint_of_apart {found batch : List Dependency}
    (h : (found ++ batch).Pairwise fun a b => a.nameSpan.Apart b.nameSpan) :
    addDisjoint found batch = found ++ batch := by
  induction batch generalizing found with
  | nil => simp [addDisjoint]
  | cons d rest ih =>
      have hfree : (found.any fun other => d.nameSpan.overlaps other.nameSpan) = false := by
        rw [List.any_eq_false]
        intro other hother
        have hapart := (List.pairwise_append.mp h).2.2 other hother d (by simp)
        simp [Span.overlaps_eq_false hapart.symm]
      have hassoc : found ++ d :: rest = (found ++ [d]) ++ rest := by simp
      rw [hassoc] at h ⊢
      rw [← ih h]
      simp only [addDisjoint, List.foldl_cons, hfree, Bool.false_eq_true, if_false]

/-- What two readers find in a list, if no item is found by both, is what they find together. -/
theorem perm_filterMap_orElse {α β : Type} (f g : α → Option β) (items : List α)
    (hone : ∀ x ∈ items, f x = none ∨ g x = none) :
    (items.filterMap f ++ items.filterMap g).Perm (items.filterMap fun x => f x <|> g x) := by
  induction items with
  | nil => exact List.Perm.nil
  | cons x rest ih =>
      have hrest := ih fun y hy => hone y (List.mem_cons_of_mem x hy)
      cases hf : f x with
      | some a =>
          have hg : g x = none := (hone x (by simp)).resolve_left (by simp [hf])
          rw [List.filterMap_cons_some hf, List.filterMap_cons_none hg,
            List.filterMap_cons_some (b := a) (by simp [hf])]
          exact hrest.cons a
      | none =>
          cases hg : g x with
          | none =>
              rw [List.filterMap_cons_none hf, List.filterMap_cons_none hg,
                List.filterMap_cons_none (by simp [hf, hg])]
              exact hrest
          | some b =>
              rw [List.filterMap_cons_none hf, List.filterMap_cons_some hg,
                List.filterMap_cons_some (b := b) (by simp [hf, hg])]
              exact List.perm_middle.trans (hrest.cons b)

/-- Two batches are merged into one list that has the entries of both in the order of their names. -/
theorem mergeEntries_eq {first second merged : List Dependency}
    (hperm : (first ++ second).Perm merged)
    (hordered : merged.Pairwise fun a b => a.nameSpan.stop ≤ b.nameSpan.start)
    (hnamed : ∀ d ∈ merged, 0 < d.nameSpan.length) :
    mergeEntries [first, second] = merged := by
  have hapart : (first ++ second).Pairwise fun a b => a.nameSpan.Apart b.nameSpan :=
    (hordered.imp fun h => Or.inl h).perm hperm.symm fun h => h.symm
  have hfirst : addDisjoint [] first = first := by
    have := @addDisjoint_of_apart [] first (List.pairwise_append.mp hapart).1
    simpa using this
  have hunsorted : [first, second].foldl addDisjoint [] = first ++ second := by
    simp only [List.foldl_cons, List.foldl_nil, hfirst]
    exact addDisjoint_of_apart hapart
  have hstrict : merged.Pairwise fun a b => a.nameSpan.start < b.nameSpan.start := by
    refine hordered.imp_of_mem fun {a b} ha _ h => ?_
    have := hnamed a ha
    simp only [Span.stop] at h
    omega
  rw [mergeEntries, hunsorted]
  refine @List.Perm.eq_of_pairwise _ (fun a b => decide (a.nameSpan.start ≤ b.nameSpan.start) = true)
    _ _ ?_ (List.pairwise_mergeSort ?_ ?_ _) ?_ ((List.mergeSort_perm _ _).trans hperm)
  · intro a b ha hb hab hba
    simp only [decide_eq_true_eq] at hab hba
    have ha := hperm.subset (List.mem_mergeSort.mp ha)
    have : Std.Symm fun a b : Dependency => a.nameSpan.start ≠ b.nameSpan.start :=
      ⟨fun _ _ h => h.symm⟩
    by_contra hne
    exact (hstrict.imp fun h => Nat.ne_of_lt h).forall ha hb hne (Nat.le_antisymm hab hba)
  · intro a b c hab hbc
    simp only [decide_eq_true_eq] at hab hbc ⊢
    omega
  · intro a b
    simp only [Bool.or_eq_true, decide_eq_true_eq]
    omega
  · exact hstrict.imp fun h => by simpa using Nat.le_of_lt h

/-! ### Entries -/

/-- The dependency some columns further to the right. -/
def Dependency.moved (shift : Nat) (d : Dependency) : Dependency :=
  { d with nameSpan := d.nameSpan.moved shift, span := d.span.moved shift }

/-- A dependency lies within the columns of a line from one to another, its constraint behind its
name. -/
structure Dependency.Within (start stop : Nat) (d : Dependency) : Prop where
  start_le : start ≤ d.nameSpan.start
  named : 0 < d.nameSpan.length
  ordered : d.nameSpan.stop ≤ d.span.start
  stop_le : d.span.stop ≤ stop

namespace Requirement

theorem toDependency?_moved (rule : NameRule) (dialect : Dialect) (line : Nat) (group : Group)
    (shift : Nat) (r : Requirement) :
    (r.moved shift).toDependency? rule dialect line group
      = (r.toDependency? rule dialect line group).map (Dependency.moved shift) := by
  by_cases h : rule.accepts r.name = true
  · simp [toDependency?, moved, h, Dependency.moved]
  · simp [toDependency?, moved, h]

theorem bind_toDependency?_moved (rule : NameRule) (dialect : Dialect) (line : Nat) (group : Group)
    (column shift : Nat) (r? : Option Requirement) :
    (r?.map (moved (column + shift))).bind (toDependency? rule dialect line group)
      = ((r?.map (moved column)).bind (toDependency? rule dialect line group)).map (Dependency.moved shift) := by
  cases r? with
  | none => rfl
  | some r =>
      simp only [Option.map_some, Option.bind_some, toDependency?_moved, Option.map_map]
      congr 1
      funext d
      simp [Dependency.moved, Span.moved, Nat.add_assoc]

theorem toDependency?_eq_some_iff {rule : NameRule} {dialect : Dialect} {line : Nat} {group : Group}
    {r : Requirement} {d : Dependency} :
    r.toDependency? rule dialect line group = some d ↔ rule.accepts r.name = true ∧
      d = ⟨r.name, r.constraint, r.span, r.nameSpan, line, group, dialect, r.extras⟩ := by
  rw [toDependency?]
  split
  · next h =>
      rw [Option.some_inj]
      exact ⟨fun heq => ⟨h, heq.symm⟩, fun heq => heq.2.symm⟩
  · next h => simp [h]

end Requirement

/-- The name of a dependency lies in a string. -/
def Dependency.NamedIn (s : QuotedString) (d : Dependency) : Prop :=
  s.column ≤ d.nameSpan.start ∧ d.nameSpan.stop ≤ s.column + s.content.length

namespace QuotedString

def plainDependency? (rule : NameRule) (line : Nat) (group : Group) (s : QuotedString) :
    Option Dependency :=
  (Requirement.read? s.content s.column).bind (Requirement.toDependency? rule .array line group)

def parenthesizedDependency? (rule : NameRule) (line : Nat) (group : Group) (s : QuotedString) :
    Option Dependency :=
  (Requirement.readParenthesized? s.content s.column).bind
    (Requirement.toDependency? rule .poetryParentheses line group)

/-- The dependency that a string of an array states, in whichever of the two forms. -/
def dependency? (rule : NameRule) (line : Nat) (group : Group) (s : QuotedString) : Option Dependency :=
  s.plainDependency? rule line group <|> s.parenthesizedDependency? rule line group

section Entry

variable {rule : NameRule} {line : Nat} {group : Group} {s : QuotedString} {d : Dependency}

theorem plainDependency?_or_parenthesizedDependency? (rule : NameRule) (line : Nat) (group : Group)
    (s : QuotedString) :
    s.plainDependency? rule line group = none ∨ s.parenthesizedDependency? rule line group = none := by
  cases h : Requirement.readParenthesized? s.content s.column with
  | none => exact Or.inr (by simp [parenthesizedDependency?, h])
  | some found => exact Or.inl (by simp [plainDependency?, read?_eq_none_of_parenthesized h])

theorem dependency?_eq_some_iff : s.dependency? rule line group = some d ↔
    s.plainDependency? rule line group = some d ∨ s.parenthesizedDependency? rule line group = some d := by
  rw [dependency?]
  rcases s.plainDependency?_or_parenthesizedDependency? rule line group with hnone | hnone
  · simp [hnone]
  · simp [hnone]

theorem dependency?_moved (shift : Nat) :
    (s.moved shift).dependency? rule line group
      = (s.dependency? rule line group).map (Dependency.moved shift) := by
  have hplain : (s.moved shift).plainDependency? rule line group
      = (s.plainDependency? rule line group).map (Dependency.moved shift) := by
    simp only [plainDependency?, moved]
    rw [Requirement.read?_eq_moved s.content (s.column + shift),
      Requirement.read?_eq_moved s.content s.column]
    exact Requirement.bind_toDependency?_moved rule .array line group s.column shift _
  have hparenthesized : (s.moved shift).parenthesizedDependency? rule line group
      = (s.parenthesizedDependency? rule line group).map (Dependency.moved shift) := by
    simp only [parenthesizedDependency?, moved]
    rw [Requirement.readParenthesized?_eq_moved s.content (s.column + shift),
      Requirement.readParenthesized?_eq_moved s.content s.column]
    exact Requirement.bind_toDependency?_moved rule .poetryParentheses line group s.column shift _
  rw [dependency?, hplain, hparenthesized, dependency?]
  cases s.plainDependency? rule line group <;> rfl

/-- An entry is the requirement of its string, in one of the two forms. -/
theorem exists_of_dependency? (h : s.dependency? rule line group = some d) :
    ∃ (dialect : Dialect) (r : Requirement),
      (dialect = .array ∧ Requirement.read? s.content 0 = some r ∨
        dialect = .poetryParentheses ∧ Requirement.readParenthesized? s.content 0 = some r) ∧
      rule.accepts r.name = true ∧
      d = ⟨r.name, r.constraint, r.span.moved s.column, r.nameSpan.moved s.column, line, group,
        dialect, r.extras⟩ := by
  cases hplain : s.plainDependency? rule line group with
  | some found =>
      rw [dependency?, hplain] at h
      obtain rfl : found = d := Option.some.inj h
      rw [plainDependency?, Requirement.read?_eq_moved] at hplain
      cases hread : Requirement.read? s.content 0 with
      | none => simp [hread] at hplain
      | some r =>
          simp only [hread, Option.map_some, Option.bind_some,
            Requirement.toDependency?_eq_some_iff] at hplain
          exact ⟨.array, r, Or.inl ⟨rfl, rfl⟩, hplain.1, hplain.2⟩
  | none =>
      rw [dependency?, hplain] at h
      change s.parenthesizedDependency? rule line group = some d at h
      rw [parenthesizedDependency?, Requirement.readParenthesized?_eq_moved] at h
      cases hread : Requirement.readParenthesized? s.content 0 with
      | none => simp [hread] at h
      | some r =>
          simp only [hread, Option.map_some, Option.bind_some,
            Requirement.toDependency?_eq_some_iff] at h
          exact ⟨.poetryParentheses, r, Or.inr ⟨rfl, rfl⟩, h.1, h.2⟩

/-- An entry stands in its string. -/
theorem exists_placedIn_of_dependency? (h : s.dependency? rule line group = some d) :
    ∃ r : Requirement, r.PlacedIn s.content ∧ rule.accepts d.name = true ∧ d.line = line ∧
      d.group = group ∧ d.name = r.name ∧ d.constraint = r.constraint ∧
      d.nameSpan = r.nameSpan.moved s.column ∧ d.span = r.span.moved s.column := by
  obtain ⟨dialect, r, hread, haccepts, rfl⟩ := exists_of_dependency? h
  refine ⟨r, ?_, haccepts, rfl, rfl, rfl, rfl, rfl, rfl⟩
  rcases hread with ⟨-, hread⟩ | ⟨-, hread⟩
  · exact Requirement.placedIn_of_read? hread
  · exact Requirement.placedIn_of_readParenthesized? hread

theorem within_of_dependency? (h : s.dependency? rule line group = some d) :
    d.Within s.column (s.column + s.content.length) := by
  obtain ⟨r, hplaced, -, -, -, hname, -, hnameSpan, hspan⟩ := exists_placedIn_of_dependency? h
  obtain ⟨before, after, -, hat⟩ := hplaced.name
  have hpositive := List.length_pos_iff.mpr hplaced.name_ne_nil
  have hstop := Span.stop_le_of_covers hplaced.constraint
  have hordered := hplaced.ordered
  constructor
  · rw [hnameSpan, Span.moved]
    simp
  · rw [hnameSpan, hat, Span.moved]
    exact hpositive
  · rw [hnameSpan, hspan]
    simp only [Span.stop, Span.moved] at hordered ⊢
    omega
  · rw [hspan]
    simp only [Span.stop, Span.moved] at hstop ⊢
    omega

end Entry

end QuotedString

/-- The entries of strings that stand one behind another do so as well. -/
theorem pairwise_entries (rule : NameRule) (number : Nat) (group : Group)
    {strings : List QuotedString}
    (h : strings.Pairwise fun a b => a.column + a.content.length < b.column) :
    (strings.filterMap (QuotedString.dependency? rule number group)).Pairwise
      fun a b => a.nameSpan.stop ≤ b.nameSpan.start := by
  refine h.filterMap _ fun a b hab d hd e he => ?_
  have hd := QuotedString.within_of_dependency? (Option.mem_def.mp hd)
  have he := QuotedString.within_of_dependency? (Option.mem_def.mp he)
  have h1 := hd.ordered
  have h2 := hd.stop_le
  have h3 := he.start_le
  simp only [Span.stop] at h1 h2 ⊢
  omega

theorem eq_of_namedIn {line : List Char} {s key : QuotedString} (hs : s ∈ QuotedString.ofLine line)
    (hkey : key ∈ QuotedString.ofLine line) {d : Dependency} (hd : d.Within s.column (s.column + s.content.length))
    (hnamed : d.NamedIn key) : s = key := by
  have hapart : (QuotedString.ofLine line).Pairwise fun a b =>
      a.column + a.content.length < b.column ∨ b.column + b.content.length < a.column :=
    (QuotedString.pairwise_stringsFrom 0 none line).2.imp .inl
  have : Std.Symm fun a b : QuotedString =>
      a.column + a.content.length < b.column ∨ b.column + b.content.length < a.column := ⟨fun _ _ => Or.symm⟩
  by_contra hne
  have hordered := hd.ordered
  have hstop := hd.stop_le
  have hstart := hd.start_le
  have hpositive := hd.named
  obtain ⟨hleft, hright⟩ := hnamed
  simp only [Span.stop] at hordered hstop hright
  rcases hapart.forall hs hkey hne with h | h <;> omega

/-- The elements of a line stand one behind another. -/
theorem pairwise_elementsOfLine (line : List Char) :
    (QuotedString.elementsOfLine line).Pairwise fun a b => a.column + a.content.length < b.column :=
  (QuotedString.pairwise_stringsFrom 0 none line).2.filter _

/-- **The entries of an array line.** Every string that opens an element states one dependency or none,
and the line yields these in the order in which they stand. -/
theorem arrayEntries_eq (reader : ManifestReader) (line : List Char) (number : Nat) (group : Group) :
    reader.arrayEntries line number group
      = (QuotedString.elementsOfLine line).filterMap
          (QuotedString.dependency? reader.rule number group) := by
  refine mergeEntries_eq ?_ (pairwise_entries reader.rule number group (pairwise_elementsOfLine line)) ?_
  · exact perm_filterMap_orElse _ _ _ fun s _ =>
      QuotedString.plainDependency?_or_parenthesizedDependency? reader.rule number group s
  · intro d hd
    obtain ⟨s, -, hs⟩ := List.mem_filterMap.mp hd
    exact (QuotedString.within_of_dependency? hs).named

/-- **Both forms are kept.** No string states a dependency in both forms, so merging drops none of either reading: the
entries of an array line are all of both, in the order of their names. Each has its name in an element of the line,
and no two have it in the same string. -/
theorem arrayEntries_keep_both (reader : ManifestReader) (line : List Char) (number : Nat) (group : Group) :
    (∀ s : QuotedString, s.plainDependency? reader.rule number group = none ∨
      s.parenthesizedDependency? reader.rule number group = none) ∧
    (reader.arrayEntries line number group).Perm
      (arrayDependencies reader.rule line number group ++ parenthesizedDependencies reader.rule line number group) ∧
    ((reader.arrayEntries line number group).Pairwise fun d e => d.nameSpan.start < e.nameSpan.start) ∧
    (∀ d ∈ reader.arrayEntries line number group, ∃ s ∈ QuotedString.elementsOfLine line, d.NamedIn s) ∧
    ∀ s ∈ QuotedString.ofLine line, ∀ d ∈ reader.arrayEntries line number group,
      ∀ e ∈ reader.arrayEntries line number group, d.NamedIn s → e.NamedIn s → d = e := by
  have hone := QuotedString.plainDependency?_or_parenthesizedDependency? reader.rule number group
  rw [arrayEntries_eq]
  have hwithin : ∀ d ∈ (QuotedString.elementsOfLine line).filterMap (QuotedString.dependency? reader.rule number group),
      ∃ s ∈ QuotedString.elementsOfLine line, s.dependency? reader.rule number group = some d ∧
        d.Within s.column (s.column + s.content.length) := by
    intro d hd
    obtain ⟨s, hs, hstates⟩ := List.mem_filterMap.mp hd
    exact ⟨s, hs, hstates, QuotedString.within_of_dependency? hstates⟩
  refine ⟨hone, ?_, ?_, ?_, ?_⟩
  · exact (perm_filterMap_orElse _ _ _ fun s _ => hone s).symm
  · refine (pairwise_entries reader.rule number group (pairwise_elementsOfLine line)).imp_of_mem ?_
    intro d e hd _ hordered
    obtain ⟨s, -, -, hd⟩ := hwithin d hd
    have hnamed := hd.named
    simp only [Span.stop] at hordered
    omega
  · intro d hd
    obtain ⟨s, hs, -, hd⟩ := hwithin d hd
    exact ⟨s, hs, hd.start_le, hd.ordered.trans ((Nat.le_add_right _ _).trans hd.stop_le)⟩
  · intro s hs d hd e he hdnamed henamed
    obtain ⟨first, hfirst, hstates, hd⟩ := hwithin d hd
    obtain ⟨second, hsecond, hstates', he⟩ := hwithin e he
    obtain rfl := eq_of_namedIn (List.mem_filter.mp hfirst).1 hs hd hdnamed
    obtain rfl := eq_of_namedIn (List.mem_filter.mp hsecond).1 hs he henamed
    exact Option.some.inj (hstates.symm.trans hstates')

end ManifestLens
