import ManifestLens.Proofs.Constraint.Bound
import ManifestLens.Proofs.Constraint.Compound
import ManifestLens.Proofs.Constraint.Series

/-!
# An operator before a version

A constraint that is written as an operator and a version without a local segment is read as exactly these two,
whatever blanks stand around the version. Whether it allows the very version that it names is up to the operator:
an exclusive or negative one never does, a compatible release needs a second number, and carets and tildes do not
count with a written epoch.
-/

namespace ManifestLens

open Version

namespace Operator

theorem detect?_eq_none {text : List Char} (h : ∀ c ∈ text, isSpellingChar c = true) : detect? text = none := by
  have hforeign : ∀ operator ∈ all, operator.text.all isSpellingChar = false := by decide
  refine detect?_eq_none_iff.mpr fun operator hprefix => ?_
  obtain ⟨c, hmem, hc⟩ := List.all_eq_false.mp (hforeign operator (mem_all operator))
  have hsub := hprefix.subset hmem
  exact hc (h c (List.dropWhile_subset _ hsub))

end Operator

namespace Constraint

/-- The specifiers that an operator before a version stands for. -/
def specifiersOf (operator : Option Operator) (version : List Char) : List Specifier :=
  match operator with
  | some .caret => [⟨.atLeast, version⟩, ⟨.below, caretBound version⟩]
  | some .tilde => [⟨.atLeast, version⟩, ⟨.below, tildeBound version⟩]
  | some (.standard relation) => [⟨relation, version⟩]
  | none => [⟨.equal, version⟩]

section Written

variable {version : List Char} {v : Version} (h : parse? version = some v) (hlocal : v.localParts = [])

include h hlocal

theorem notMem_of_parse {c : Char} (hblank : Text.isBlank c = false) (hspelling : isSpellingChar c = false) :
    c ∉ version := by
  obtain ⟨lead, trail, hversion, hlead, htrail, -, -, -⟩ := Text.exists_margins version
  intro hmem
  rw [hversion, List.append_assoc, List.mem_append, List.mem_append] at hmem
  rcases hmem with hmem | hmem | hmem
  · exact hlead.notMem hblank hmem
  · rw [isSpellingChar_of_parse h hlocal c hmem] at hspelling
    cases hspelling
  · exact htrail.notMem hblank hmem

theorem operatorAndVersion_written (operator : Option Operator) :
    operatorAndVersion (Operator.textOf operator ++ version) = (operator, Text.trim version) := by
  obtain ⟨lead, trail, hversion, hlead, htrail, htrimmed, -, -⟩ := Text.exists_margins version
  have hne := trim_ne_nil_of_parse h hlocal
  cases operator with
  | none =>
      have hnone := Operator.detect?_eq_none (isSpellingChar_of_parse h hlocal)
      have htrim : Text.trim (Text.trim version) = Text.trim version := Text.trim_of_isTrimmed htrimmed
      simp only [operatorAndVersion, Operator.textOf, List.nil_append, hnone, List.length_nil, List.drop_zero, htrim]
  | some operator =>
      have hbody : Text.trim (operator.text ++ version) = operator.text ++ (lead ++ Text.trim version) := by
        have htext : Text.IsTrimmed (operator.text ++ (lead ++ Text.trim version)) := by
          refine ⟨?_, fun c hc => htrimmed.last c ?_⟩
          · intro c hc
            rw [List.head?_append_of_ne_nil _ (Operator.text_ne_nil operator)] at hc
            exact (Operator.mem_text (List.mem_of_head? hc)).1
          · rw [← List.append_assoc, List.getLast?_append_of_ne_nil _ hne] at hc
            exact hc
        have hmargins := Text.trim_margins Text.isBlankRun_nil htext htrail
        rw [← hmargins]
        congr 1
        conv_lhs => rw [hversion]
        simp
      have hhead : (lead ++ Text.trim version).head? ≠ some '=' := by
        intro hhead
        have hmem : '=' ∈ version := by
          rw [hversion]
          exact List.mem_append_left _ (List.mem_of_head? hhead)
        exact notMem_of_parse h hlocal (by decide) (by decide) hmem
      have htrim : Text.trim (lead ++ Text.trim version) = Text.trim version := by
        simpa using Text.trim_margins hlead htrimmed Text.isBlankRun_nil
      simp only [operatorAndVersion, Operator.textOf, hbody, Operator.detect?_text operator hhead, List.drop_left,
        htrim]

end Written

/-! ### What is read -/

theorem pieceTexts?_eq {piece version : List Char} {operator : Option Operator}
    (h : operatorAndVersion piece = (operator, version)) (hne : version ≠ []) :
    pieceTexts? piece = some ((specifiersOf operator version).map Specifier.text) := by
  simp only [pieceTexts?, h, List.isEmpty_iff, if_neg hne]
  cases operator with
  | none => rfl
  | some operator => cases operator <;> rfl

/-- A version text that a specifier can hold. -/
structure IsWord (text : List Char) : Prop where
  trimmed : Text.IsTrimmed text
  ne_nil : text ≠ []
  head : text.head? ≠ some '='

theorem IsWord.of_isSpellingChar {text : List Char} (h : ∀ c ∈ text, isSpellingChar c = true) (hne : text ≠ []) :
    IsWord text := by
  refine ⟨⟨fun c hc => ?_, fun c hc => ?_⟩, hne, fun hhead => ?_⟩
  · exact isBlank_of_isSpellingChar (h c (List.mem_of_head? hc))
  · exact isBlank_of_isSpellingChar (h c (List.mem_of_getLast? hc))
  · exact absurd (h _ (List.mem_of_head? hhead)) (by decide)

theorem isWord_releaseText {numbers : List Nat} (h : numbers ≠ []) : IsWord (releaseText numbers) := by
  obtain ⟨major, minors, rfl⟩ := List.exists_cons_of_ne_nil h
  refine .of_isSpellingChar (fun c hc => isSpellingChar_of_isPlainChar ?_) ?_
  · rcases isPlainChar_of_mem_releaseText hc with hdigit | rfl
    · simp [isPlainChar, hdigit]
    · decide
  · rw [releaseText_cons]
    exact List.append_ne_nil_of_left_ne_nil (numberText_ne_nil major) _

theorem find?_relation (relation : Relation) {rest : List Char} (h : rest.head? ≠ some '=') :
    (Relation.all.find? fun other => other.text.isPrefixOf (relation.text ++ rest)) = some relation := by
  cases rest with
  | nil =>
      rw [List.append_nil]
      cases relation <;> decide
  | cons c more =>
      have hc : ¬ '=' = c := by simpa [eq_comm] using h
      cases relation <;> simp [Relation.all, Relation.text, hc]

theorem parse?_text {specifier : Specifier} (h : IsWord specifier.version) : Specifier.parse? specifier.text
    = if Specifier.isVersionFor specifier.relation specifier.version then some specifier else none := by
  obtain ⟨relation, version⟩ := specifier
  have hne : relation.text ≠ [] := Operator.text_ne_nil (.standard relation)
  have htrimmed : Text.IsTrimmed (relation.text ++ version) := by
    refine ⟨?_, fun c hc => h.trimmed.last c ?_⟩
    · intro c hc
      rw [List.head?_append_of_ne_nil _ hne] at hc
      exact (@Operator.mem_text (.standard relation) c (List.mem_of_head? hc)).1
    · rw [List.getLast?_append_of_ne_nil _ h.ne_nil] at hc
      exact hc
  simp only [Specifier.parse?, Specifier.text, Text.trim_of_isTrimmed htrimmed, find?_relation relation h.head,
    List.drop_left, Text.trim_of_isTrimmed h.trimmed, Option.bind_eq_bind, Option.bind_some]

theorem mapM_parse?_eq_some_iff {specifiers found : List Specifier}
    (h : ∀ specifier ∈ specifiers, IsWord specifier.version) :
    (specifiers.map Specifier.text).mapM Specifier.parse? = some found ↔ found = specifiers ∧
      ∀ specifier ∈ specifiers, Specifier.isVersionFor specifier.relation specifier.version = true := by
  induction specifiers generalizing found with
  | nil =>
      constructor
      · rintro ⟨⟩
        exact ⟨rfl, by simp⟩
      · rintro ⟨rfl, -⟩
        rfl
  | cons specifier rest ih =>
      have hfirst := parse?_text (h specifier (List.mem_cons_self ..))
      have hrest := fun other hother => h other (List.mem_cons_of_mem _ hother)
      simp only [List.map_cons, List.mapM_cons, Option.bind_eq_bind, Option.bind_eq_some_iff, hfirst, ih hrest,
        Option.pure_def, Option.some.injEq, List.forall_mem_cons]
      constructor
      · rintro ⟨first, hfirst, more, ⟨rfl, hall⟩, rfl⟩
        split at hfirst
        · next hvalid =>
            cases hfirst
            exact ⟨rfl, hvalid, hall⟩
        · cases hfirst
      · rintro ⟨rfl, hvalid, hall⟩
        exact ⟨specifier, if_pos hvalid, rest, ⟨rfl, hall⟩, rfl⟩

section Satisfied

variable {version : List Char} {v : Version} (h : parse? version = some v) (hlocal : v.localParts = [])

include h hlocal

theorem isWord_of_mem_specifiersOf {operator : Option Operator} {specifier : Specifier}
    (hmem : specifier ∈ specifiersOf operator (Text.trim version)) : IsWord specifier.version := by
  have hversion : IsWord (Text.trim version) :=
    .of_isSpellingChar (isSpellingChar_of_parse h hlocal) (trim_ne_nil_of_parse h hlocal)
  have hnumbers : leadingNumbers (Text.trim version) ≠ [] := leadingNumbers_ne_nil h hlocal
  match operator with
  | none =>
      rw [List.mem_singleton.mp hmem]
      exact hversion
  | some (.standard relation) =>
      rw [List.mem_singleton.mp hmem]
      exact hversion
  | some .caret =>
      rcases List.mem_cons.mp hmem with rfl | hmem
      · exact hversion
      · rw [List.mem_singleton.mp hmem]
        exact isWord_releaseText (bumpSignificant_ne_nil hnumbers)
  | some .tilde =>
      rcases List.mem_cons.mp hmem with rfl | hmem
      · exact hversion
      · rw [List.mem_singleton.mp hmem, tildeBound_eq hnumbers]
        exact isWord_releaseText (bumpMinor_ne_nil hnumbers)

theorem notMem_written {c : Char} (hblank : Text.isBlank c = false) (hspelling : isSpellingChar c = false)
    (hoperator : ∀ operator : Operator, c ∉ operator.text) (operator : Option Operator) :
    c ∉ Operator.textOf operator ++ version := by
  intro hmem
  rcases List.mem_append.mp hmem with hmem | hmem
  · cases operator with
    | none => cases hmem
    | some operator => exact hoperator operator hmem
  · exact notMem_of_parse h hlocal hblank hspelling hmem

theorem isSingle_written (operator : Option Operator) : IsSingle (Operator.textOf operator ++ version) where
  comma := notMem_written h hlocal (by decide) (by decide) (fun _ hmem => (Operator.mem_text hmem).2.1 rfl) operator
  bars := by
    rw [Text.hasInfix_iff]
    intro hwithin
    exact notMem_written h hlocal (c := '|') (by decide) (by decide)
      (fun _ hmem => (Operator.mem_text hmem).2.2.1 rfl) operator (hwithin.subset (by simp))
  visible := by
    obtain ⟨c, rest, hversion⟩ := List.exists_cons_of_ne_nil (trim_ne_nil_of_parse h hlocal)
    have hc : c ∈ Text.trim version := by simp [hversion]
    have hblank := isBlank_of_isSpellingChar (isSpellingChar_of_parse h hlocal c hc)
    exact List.ne_nil_of_mem (Text.mem_trim hblank (List.mem_append_right _ (Text.mem_of_mem_trim hc)))
  star := by
    intro hstar
    have hmem : '*' ∈ Text.trim (Operator.textOf operator ++ version) := by simp [hstar]
    exact notMem_written h hlocal (by decide) (by decide) (fun _ hmem => (Operator.mem_text hmem).2.2.2 rfl)
      operator (Text.mem_of_mem_trim hmem)

/-- **What is written is read.** A constraint of an operator and a version stands for their specifiers if the
relations admit the versions, and for nothing otherwise. -/
theorem specifiers?_written (operator : Option Operator) (found : List Specifier) :
    specifiers? (Operator.textOf operator ++ version) = some found
      ↔ found = specifiersOf operator (Text.trim version) ∧
        ∀ specifier ∈ specifiersOf operator (Text.trim version),
          Specifier.isVersionFor specifier.relation specifier.version = true := by
  rw [(isSingle_written h hlocal operator).specifiers?_eq, pieceSpecifiers?,
    pieceTexts?_eq (operatorAndVersion_written h hlocal operator) (trim_ne_nil_of_parse h hlocal), Option.bind_some]
  exact mapM_parse?_eq_some_iff fun _ hmem => isWord_of_mem_specifiersOf h hlocal hmem

/-- A constraint of an operator and a version allows a version if all its specifiers are valid and contain it. -/
theorem satisfies_written_iff (operator : Option Operator) (other : List Char) :
    satisfies other (Operator.textOf operator ++ version) = true
      ↔ ∀ specifier ∈ specifiersOf operator (Text.trim version),
        Specifier.isVersionFor specifier.relation specifier.version = true ∧ specifier.contains other = true := by
  unfold satisfies
  cases hfound : specifiers? (Operator.textOf operator ++ version) with
  | none =>
      refine iff_of_false (by simp) fun hall => ?_
      have hsome := (specifiers?_written h hlocal operator _).mpr ⟨rfl, fun s hs => (hall s hs).1⟩
      rw [hfound] at hsome
      cases hsome
  | some found =>
      obtain ⟨rfl, hvalid⟩ := (specifiers?_written h hlocal operator found).mp hfound
      simp only [List.all_eq_true]
      exact ⟨fun hall s hs => ⟨hvalid s hs, hall s hs⟩, fun hall s hs => (hall s hs).2⟩

end Satisfied

theorem isSome_specifiers?_of_satisfies {version constraint : List Char} (h : satisfies version constraint = true) :
    (specifiers? constraint).isSome = true := by
  unfold satisfies at h
  cases hfound : specifiers? constraint with
  | none => simp [hfound] at h
  | some found => rfl

end Constraint

end ManifestLens

/-!
## Which operators allow the version behind them

The condition under which a constraint of an operator and a version allows that very version, for each operator.
-/

namespace ManifestLens

open Version

/-- What a relation asks of the version in its specifier for the specifier to allow it. -/
def Relation.AllowsItself (relation : Relation) (version : List Char) (v : Version) : Prop :=
  match relation with
  | .equal | .atLeast | .atMost => True
  | .notEqual | .above | .below => False
  | .arbitrary => Text.trim version = version
  | .compatible => v.minors ≠ [] ∧ Specifier.startsWith v (Specifier.seriesText (Text.trim version)) = true

namespace Constraint

/-- What an operator asks of the version behind it for the constraint to allow it. -/
def AllowsItself (operator : Option Operator) (version : List Char) (v : Version) : Prop :=
  match operator with
  | none => True
  | some (.standard relation) => relation.AllowsItself version v
  | some .caret => '!' ∉ Text.trim version ∨ (v.epoch = 0 ∧ ∀ n ∈ v.release.take 3, n = 0)
  | some .tilde => '!' ∉ Text.trim version ∨ (v.epoch = 0 ∧ ∀ n ∈ v.release.take 2, n = 0)

/-! ### Spellings -/

theorem length_lowerAfter (before text : List Char) : (Text.lowerAfter before text).length
    = text.length + text.countP fun c => c.toNat == 0x130 := by
  induction text generalizing before with
  | nil => rfl
  | cons c rest ih =>
      rw [Text.lowerAfter]
      by_cases hdotted : c.toNat = 0x130
      · simp [hdotted, ih]
        omega
      · by_cases hsigma : c.toNat = 0x3A3
        · simp [hsigma, ih]
          omega
        · simp [hdotted, hsigma, ih]
          omega

theorem lower_eq_lower_trim_iff (text : List Char) :
    Text.lower text = Text.lower (Text.trim text) ↔ Text.trim text = text := by
  refine ⟨fun h => ?_, fun h => by rw [h]⟩
  obtain ⟨lead, trail, htext, -, -, -, -, -⟩ := Text.exists_margins text
  have hlength := congrArg List.length h
  generalize Text.trim text = core at *
  subst htext
  simp only [Text.lower, length_lowerAfter, List.countP_append, List.length_append] at hlength
  have hlead : lead = [] := List.eq_nil_of_length_eq_zero (by omega)
  have htrail : trail = [] := List.eq_nil_of_length_eq_zero (by omega)
  simp [hlead, htrail]

section Relations

variable {version : List Char} {v : Version} (h : parse? version = some v) (hlocal : v.localParts = [])

include h hlocal

theorem isVersionFor_arbitrary : Specifier.isVersionFor .arbitrary (Text.trim version) = true := by
  simp only [Specifier.isVersionFor, Bool.not_eq_true', List.any_eq_false, Bool.or_eq_true, beq_iff_eq, not_or]
  intro c hc
  have hspelling := isSpellingChar_of_parse h hlocal c hc
  refine ⟨⟨by simp [isBlank_of_isSpellingChar hspelling], ?_⟩, ?_⟩
  · rintro rfl
    exact absurd hspelling (by decide)
  · rintro rfl
    exact absurd hspelling (by decide)

theorem beforeWildcard?_eq_none : Specifier.beforeWildcard? (Text.trim version) = none := by
  unfold Specifier.beforeWildcard?
  split
  · next rest hreverse =>
      have hmem : '*' ∈ Text.trim version := by
        rw [← List.mem_reverse, hreverse]
        simp
      exact absurd (isSpellingChar_of_parse h hlocal _ hmem) (by decide)
  · rfl

theorem equals_self : Specifier.equals (Text.trim version) v = true := by
  have hwithout : v.withoutLocal = v := by
    rw [withoutLocal, ← hlocal]
  simp only [Specifier.equals, beforeWildcard?_eq_none h hlocal, parse?_trim, h, hlocal, List.isEmpty_nil, if_true,
    hwithout, same_self]

/-- **Relations.** -/
theorem contains_iff_allowsItself (relation : Relation) :
    (Specifier.isVersionFor relation (Text.trim version) = true ∧
      (Specifier.mk relation (Text.trim version)).contains version = true) ↔ relation.AllowsItself version v := by
  have hparse : parse? (Text.trim version) = some v := (parse?_trim version).trans h
  have hwithout : v.withoutLocal = v := by
    rw [withoutLocal, ← hlocal]
  cases relation with
  | arbitrary =>
      simp only [Specifier.contains, isVersionFor_arbitrary h hlocal, true_and, beq_iff_eq,
        lower_eq_lower_trim_iff, Relation.AllowsItself]
  | equal =>
      simp [Specifier.isVersionFor, Specifier.contains, Specifier.admits, beforeWildcard?_eq_none h hlocal, hparse, h,
        equals_self h hlocal, Relation.AllowsItself]
  | notEqual =>
      simp [Specifier.contains, Specifier.admits, h, equals_self h hlocal, Relation.AllowsItself]
  | compatible =>
      simp [Specifier.isVersionFor, Specifier.contains, Specifier.admits, hparse, h, hlocal, hwithout, le_self,
        Relation.AllowsItself]
  | atLeast =>
      simp [Specifier.isVersionFor, Specifier.contains, Specifier.admits, hparse, h, hlocal, hwithout, le_self,
        Relation.AllowsItself]
  | atMost =>
      simp [Specifier.isVersionFor, Specifier.contains, Specifier.admits, hparse, h, hlocal, hwithout, le_self,
        Relation.AllowsItself]
  | above =>
      simp [Specifier.contains, Specifier.admits, hparse, h, not_lt_self, Relation.AllowsItself]
  | below =>
      simp [Specifier.contains, Specifier.admits, hparse, h, not_lt_self, Relation.AllowsItself]

omit h hlocal in
theorem isVersionFor_below {numbers : List Nat} (hne : numbers ≠ []) :
    Specifier.isVersionFor .below (releaseText numbers) = true := by
  obtain ⟨major, minors, rfl⟩ := List.exists_cons_of_ne_nil hne
  have hparse : parse? (releaseText (major :: minors)) = some (plain 0 major minors) :=
    parse?_releaseText .unwritten major minors
  simp only [Specifier.isVersionFor, hparse]
  rfl

omit hlocal in
theorem contains_below (text : List Char) :
    (Specifier.mk .below text).contains version = (Specifier.mk .below text).admits v := by
  simp only [Specifier.contains, h, Option.any_some]

theorem bounded_iff {numbers : List Nat} (hne : numbers ≠ []) :
    (∀ specifier ∈ [Specifier.mk .atLeast (Text.trim version), Specifier.mk .below (releaseText numbers)],
      Specifier.isVersionFor specifier.relation specifier.version = true ∧ specifier.contains version = true)
        ↔ (Specifier.mk .below (releaseText numbers)).admits v = true := by
  have hlower := (contains_iff_allowsItself h hlocal .atLeast).mpr trivial
  simp only [List.forall_mem_cons, hlower, true_and, isVersionFor_below hne, contains_below h]
  simp

/-- **Operators.** A constraint of an operator and a version allows that version under one condition for each
operator. -/
theorem satisfies_iff_allowsItself (operator : Option Operator) :
    satisfies version (Operator.textOf operator ++ version) = true ↔ AllowsItself operator version v := by
  rw [satisfies_written_iff h hlocal]
  have hnumbers := leadingNumbers_ne_nil h hlocal
  match operator with
  | none =>
      simp only [specifiersOf, List.mem_singleton, forall_eq]
      exact contains_iff_allowsItself h hlocal .equal
  | some (.standard relation) =>
      simp only [specifiersOf, List.mem_singleton, forall_eq]
      exact contains_iff_allowsItself h hlocal relation
  | some .caret =>
      exact (bounded_iff h hlocal (bumpSignificant_ne_nil hnumbers)).trans (admits_caretBound_iff h hlocal)
  | some .tilde =>
      rw [specifiersOf, tildeBound_eq hnumbers]
      refine (bounded_iff h hlocal (bumpMinor_ne_nil hnumbers)).trans ?_
      rw [← tildeBound_eq hnumbers]
      exact admits_tildeBound_iff h hlocal

end Relations

/-! ### The normalised spelling -/

/-- What is left to ask of a version in the normalised spelling. -/
def AllowsNormalized (operator : Option Operator) (v : Version) : Prop :=
  match operator with
  | some (.standard .notEqual) | some (.standard .above) | some (.standard .below) => False
  | some (.standard .compatible) => v.minors ≠ []
  | some .caret | some .tilde => v.epoch = 0
  | _ => True

theorem allowsItself_text_iff {v : Version} (hlocal : v.localParts = []) (operator : Option Operator) :
    AllowsItself operator v.text v ↔ AllowsNormalized operator v := by
  have hmark := Specifier.mem_text_mark_iff hlocal
  have htrim := Specifier.trim_text hlocal
  match operator with
  | none => exact Iff.rfl
  | some (.standard relation) =>
      cases relation with
      | arbitrary => exact iff_of_true htrim trivial
      | compatible =>
          simp only [AllowsItself, Relation.AllowsItself, AllowsNormalized, htrim]
          exact ⟨And.left, fun hminors => ⟨hminors, Specifier.startsWith_seriesText hlocal hminors⟩⟩
      | equal | notEqual | atLeast | atMost | above | below => exact Iff.rfl
  | some .caret =>
      simp only [AllowsItself, AllowsNormalized, htrim, hmark, not_not]
      exact ⟨fun hallows => hallows.elim id And.left, .inl⟩
  | some .tilde =>
      simp only [AllowsItself, AllowsNormalized, htrim, hmark, not_not]
      exact ⟨fun hallows => hallows.elim id And.left, .inl⟩

end Constraint

end ManifestLens
