import ManifestLens.Proofs.Constraint.Operator
import ManifestLens.Proofs.Manifest.Quoted
import ManifestLens.Proofs.Manifest.Requirement
import ManifestLens.Proofs.Text.Lines
import Mathlib.Data.List.Basic

/-!
# What an entry states

A package, its extras and the constraints on it. Every dialect writes these three in an order and between
marks of its own, but what is written for each of them is the same, and so is what the readers make of it:
the constraint is a constraint text, and the list of extras comes apart at its commas.
-/

namespace ManifestLens

open Text

/-! ### Plain versions -/

/-- A character that a plain version may hold. -/
def isVersionChar (c : Char) : Bool := isAsciiAlnum c || ".!+_*-".toList.contains c

/-- A version that starts with a digit and holds nothing out of the ordinary. -/
structure IsPlainVersion (version : List Char) : Prop where
  head : ∃ c rest, version = c :: rest ∧ isAsciiDigit c = true
  all : ∀ c ∈ version, isVersionChar c = true

theorem isConstraintChar_of_isVersionChar {c : Char} (h : isVersionChar c = true) :
    isConstraintChar c = true ∧ isBlank c = false := by
  simp only [isVersionChar, Bool.or_eq_true, List.contains_eq_mem, decide_eq_true_eq] at h
  rcases h with halnum | hmem
  · have hbounds := isAsciiAlnum_bounds halnum
    exact ⟨by simp [isConstraintChar, isWordChar, halnum], isBlank_eq_false (by omega) (by omega)⟩
  · have hlist : ".!+_*-".toList = ['.', '!', '+', '_', '*', '-'] := by decide
    rw [hlist] at hmem
    simp only [List.mem_cons, List.not_mem_nil, or_false] at hmem
    rcases hmem with rfl | rfl | rfl | rfl | rfl | rfl <;> decide

/-- A plain version starts neither with an operator nor with a blank. -/
theorem IsPlainVersion.headNot {version : List Char} (h : IsPlainVersion version) :
    HeadNot isOperatorStart version ∧ HeadNot isBlank version := by
  obtain ⟨c, rest, rfl, hdigit⟩ := h.head
  refine ⟨headNot_cons.mpr ?_, headNot_cons.mpr (isBlank_of_isAsciiDigit hdigit)⟩
  by_contra hstart
  rcases isOperatorStart_iff.mp (by simpa using hstart) with rfl | rfl | rfl | rfl | rfl | rfl <;>
    revert hdigit <;> decide

/-! ### Constraints -/

/-- One constraint: an operator and a version, with blanks between them. -/
structure WrittenPiece where
  operator : Operator
  gap : List Char
  version : List Char
  gap_blank : IsBlankRun gap
  version_plain : IsPlainVersion version

namespace WrittenPiece

def text (piece : WrittenPiece) : List Char := piece.operator.text ++ piece.gap ++ piece.version

theorem isConstraintText (piece : WrittenPiece) : IsConstraintText piece.text := by
  obtain ⟨⟨first, more, hoperator, hfirst⟩, hall⟩ := piece.operator.exists_text
  have hversion : ∀ c ∈ piece.version, isConstraintChar c = true ∧ isBlank c = false :=
    fun c hc => isConstraintChar_of_isVersionChar (piece.version_plain.all c hc)
  have htext : piece.text = first :: (more ++ piece.gap ++ piece.version) := by
    simp [text, hoperator]
  refine ⟨⟨?_, ?_⟩, fun _ => ?_⟩
  · rw [htext]
    exact headNot_cons.mpr (isOperatorStart_excludes hfirst).1
  · obtain ⟨c, rest, hne, -⟩ := piece.version_plain.head
    intro x hx
    rw [text, List.getLast?_append_of_ne_nil _ (by simp [hne])] at hx
    exact (hversion x (List.mem_of_getLast? hx)).2
  · rw [htext, isOperatorConstraint, hfirst, Bool.true_and, List.all_eq_true]
    intro x hx
    rcases List.mem_append.mp hx with hx | hx
    · rcases List.mem_append.mp hx with hx | hx
      · exact isConstraintChar_of_isOperatorStart (hall x (by simp [hoperator, hx]))
      · simp [isConstraintChar, piece.gap_blank x hx]
    · exact (hversion x hx).1

theorem ne_nil (piece : WrittenPiece) : piece.text ≠ [] := by
  obtain ⟨⟨first, more, hoperator, -⟩, -⟩ := piece.operator.exists_text
  simp [text, hoperator]

end WrittenPiece

/-- Constraints are joined by a comma. -/
theorem IsConstraintText.join {left right : List Char} (hleft : IsConstraintText left)
    (hright : IsConstraintText right) (hleftNe : left ≠ []) (hrightNe : right ≠ []) :
    IsConstraintText (left ++ ',' :: right) := by
  obtain ⟨c, rest, rfl, hc, hrest⟩ := hleft.exists_head hleftNe
  refine ⟨⟨headNot_cons.mpr (isOperatorStart_excludes hc).1, ?_⟩, fun _ => ?_⟩
  · intro x hx
    refine hright.trimmed.last x ?_
    rwa [List.getLast?_append_of_ne_nil _ (by simp), List.getLast?_cons_of_ne_nil hrightNe] at hx
  · have hcomma : isConstraintChar ',' = true := by decide
    rw [List.cons_append, isOperatorConstraint, hc, Bool.true_and, List.all_eq_true]
    intro x hx
    rcases List.mem_append.mp hx with hx | hx
    · exact hrest x hx
    · rcases List.mem_cons.mp hx with rfl | hx
      · exact hcomma
      · exact hright.all x hx

/-! ### Lists between commas -/

theorem extrasOf_joinWith {Item : Type} {write name : Item → List Char} {items : List Item}
    (hcomma : ∀ item ∈ items, ',' ∉ write item)
    (hname : ∀ item ∈ items, dropAround (fun c => c == '"' || c == '\'') (trim (write item))
      = name item ∧ name item ≠ []) :
    extrasOf (joinWith [','] (items.map write)) = items.map name := by
  cases items with
  | nil => rfl
  | cons first rest =>
      rw [extrasOf, splitOn_joinWith (by simp) (by simpa using hcomma), List.map_map,
        List.filter_eq_self.mpr]
      · exact List.map_congr_left fun item hitem => (hname item hitem).1
      · intro piece hpiece
        obtain ⟨item, hitem, rfl⟩ := List.mem_map.mp hpiece
        have := (hname item hitem).2
        simpa [(hname item hitem).1] using this

/-! ### Statements -/

/-- A package with extras and constraints. -/
structure Statement where
  name : List Char
  extras : List (List Char)
  pieces : List WrittenPiece
  extras_written : ∀ extra ∈ extras, extra ≠ [] ∧ ∀ c ∈ extra, Package.isNameChar c = true

namespace Statement

def constraint (s : Statement) : List Char := joinWith [','] (s.pieces.map WrittenPiece.text)

def inner (s : Statement) : List Char := joinWith [','] s.extras

/-- The entry that states this, with the columns of the name and of the constraint. -/
def dependency (s : Statement) (dialect : Dialect) (number : Nat) (group : Group)
    (nameColumn column : Nat) : Dependency :=
  ⟨s.name, s.constraint, ⟨column, s.constraint.length⟩, ⟨nameColumn, s.name.length⟩, number, group,
    dialect, s.extras⟩

theorem constraint_eq_nil_iff {s : Statement} : s.constraint = [] ↔ s.pieces = [] := by
  rw [constraint]
  cases hpieces : s.pieces with
  | nil => simp [joinWith]
  | cons piece rest => cases rest <;> simp [joinWith, piece.ne_nil]

theorem isConstraintText (s : Statement) : IsConstraintText s.constraint := by
  rw [constraint]
  generalize s.pieces = pieces
  induction pieces with
  | nil => exact isConstraintText_nil
  | cons piece rest ih =>
      cases rest with
      | nil => exact piece.isConstraintText
      | cons next more =>
          have hjoin : joinWith [','] ((piece :: next :: more).map WrittenPiece.text)
              = piece.text ++ ',' :: joinWith [','] ((next :: more).map WrittenPiece.text) := by
            simp [joinWith]
          rw [hjoin]
          refine piece.isConstraintText.join ih piece.ne_nil ?_
          cases more <;> simp [joinWith, next.ne_nil]

theorem isNameChar_or_comma_of_mem_inner {s : Statement} {c : Char} (h : c ∈ s.inner) :
    Package.isNameChar c = true ∨ c = ',' := by
  have hall := s.extras_written
  rw [inner] at h
  generalize s.extras = extras at h hall
  induction extras with
  | nil => cases h
  | cons extra rest ih =>
      cases rest with
      | nil => exact Or.inl ((hall extra (by simp)).2 c h)
      | cons next more =>
          have hjoin : joinWith [','] (extra :: next :: more)
              = extra ++ ',' :: joinWith [','] (next :: more) := by
            simp [joinWith]
          rw [hjoin] at h
          rcases List.mem_append.mp h with h | h
          · exact Or.inl ((hall extra (by simp)).2 c h)
          · rcases List.mem_cons.mp h with h | h
            · exact Or.inr h
            · exact ih h fun other hother => hall other (List.mem_cons_of_mem extra hother)

theorem extrasOf_inner (s : Statement) : extrasOf s.inner = s.extras := by
  have hname : ∀ extra ∈ s.extras,
      dropAround (fun c => c == '"' || c == '\'') (trim (id extra)) = id extra ∧ id extra ≠ [] := by
    intro extra hextra
    obtain ⟨hne, hall⟩ := s.extras_written extra hextra
    have htrimmed : IsTrimmed extra :=
      ⟨fun c hc => isBlank_of_isNameChar (hall c (List.mem_of_head? hc)),
        fun c hc => isBlank_of_isNameChar (hall c (List.mem_of_getLast? hc))⟩
    have hquote : ∀ c ∈ extra, (c == '"' || c == '\'') = false :=
      fun c hc => isQuote_of_isNameChar (hall c hc)
    refine ⟨?_, hne⟩
    rw [id, trim_of_isTrimmed htrimmed, dropAround, dropLeading,
      List.dropWhile_eq_self_iff.mpr, dropTrailing_of_lastNot]
    · exact fun c hc => hquote c (List.mem_of_getLast? hc)
    · intro hlength
      simpa using hquote _ (List.getElem_mem hlength)
  have hcomma : ∀ extra ∈ s.extras, ',' ∉ id extra := by
    intro extra hextra hmem
    have := (s.extras_written extra hextra).2 ',' hmem
    revert this
    decide
  have := extrasOf_joinWith hcomma hname
  rwa [List.map_id] at this

def bracket (s : Statement) : Option ExtrasForm :=
  if s.extras = [] then none
  else some {
    gap := []
    inner := s.inner
    isClosed := true
    gap_blank := isBlankRun_nil
    inner_open := fun h => by
      rcases isNameChar_or_comma_of_mem_inner h with h | h
      · revert h
        decide
      · cases h }

/-- The name and the extras as they are written. -/
def head (s : Statement) : List Char := s.name ++ bracketText s.bracket

theorem isClosed_of_bracket {s : Statement} {form : ExtrasForm} (h : s.bracket = some form) :
    form.isClosed = true := by
  rw [bracket] at h
  split at h
  · cases h
  · obtain rfl := (Option.some.inj h).symm
    rfl

theorem extras_eq (s : Statement) :
    (s.bracket.map fun form => extrasOf form.inner).getD [] = s.extras := by
  rw [bracket]
  split
  · next h => exact h.symm
  · exact s.extrasOf_inner

theorem bracketText_bracket (s : Statement) :
    bracketText s.bracket = if s.extras = [] then [] else '[' :: s.inner ++ [']'] := by
  rw [bracket]
  split
  · rfl
  · simp [bracketText, ExtrasForm.text]

theorem isNameChar_or_mark_of_mem_head {s : Statement} (hname : IsWrittenName s.name) {c : Char}
    (h : c ∈ s.head) : Package.isNameChar c = true ∨ c = '[' ∨ c = ',' ∨ c = ']' := by
  rw [head, bracketText_bracket] at h
  rcases List.mem_append.mp h with h | h
  · exact Or.inl (hname.all c h)
  · split at h
    · cases h
    · simp only [List.cons_append, List.mem_cons, List.mem_append, List.not_mem_nil, or_false] at h
      rcases h with h | h | h
      · exact Or.inr (Or.inl h)
      · rcases isNameChar_or_comma_of_mem_inner h with h | h
        · exact Or.inl h
        · exact Or.inr (Or.inr (Or.inl h))
      · exact Or.inr (Or.inr (Or.inr h))

end Statement

theorem isWrittenName_of_accepts {rule : NameRule} {name : List Char} (h : rule.accepts name = true)
    (hfeed : '\n' ∉ name) : IsWrittenName name := by
  have hname : Package.isName name = true := by
    rw [NameRule.accepts, Bool.and_eq_true] at h
    exact h.1
  unfold Package.isName at hname
  split at hname
  · next hlast => exact absurd (List.mem_of_getLast? hlast) hfeed
  · dsimp only at hname
    split at hname
    · next first second rest _ =>
        rw [Bool.and_eq_true, List.all_eq_true] at hname
        refine ⟨⟨first, second :: rest, rfl, hname.1⟩, fun c hc => ?_⟩
        rcases List.mem_cons.mp hc with rfl | hc
        · simp [Package.isNameChar, hname.1]
        · exact hname.2 c hc
    · cases hname

end ManifestLens
