import ManifestLens.Proofs.Constraint.Allowing
import ManifestLens.Proofs.Version.Agreement
import ManifestLens.Proofs.Version.Order

/-!
# What carets and tildes allow

A caret or a tilde is written out as a lower bound and an exclusive upper one, where the upper one is made of three
leading numbers at most. Above the lower bound, lying below the upper one comes to agreeing with the numbers up to the
one that is raised: a release that is not lower than the numbers either agrees with all of them up to there, or it is
higher in one of these places and no raised number is above it.
-/

namespace ManifestLens

open Version
open NaturalVersion (IsDotted numbers segments)

namespace Constraint

/-- How many leading places a caret holds fixed: up to the first of three numbers that is not zero, or all of them. -/
def caretPlaces (release : List Nat) : Nat :=
  match (release.take 3).findIdx? (· ≠ 0) with
  | some i => i + 1
  | none => min 3 release.length

/-- How many leading places a tilde holds fixed: a single number, or the first two. -/
def tildePlaces (release : List Nat) : Nat := if release.length = 1 then 1 else 2

/-! ### Comparing by the first number -/

theorem agreeIn_take_iff {places count : Nat} (h : places ≤ count) {left right : List Nat} :
    AgreeIn places left (right.take count) ↔ AgreeIn places left right := by
  apply forall_congr'
  intro i
  apply imp_congr_right
  intro hi
  rw [List.getD_eq_getElem?_getD, List.getD_eq_getElem?_getD, List.getD_eq_getElem?_getD,
    List.getElem?_take_of_lt (hi.trans_le h)]

section Cons

variable {places n : Nat} {left right : List Nat}

theorem agreeIn_cons_iff : AgreeIn (places + 1) left (n :: right)
    ↔ left.headD 0 = n ∧ AgreeIn places left.tail right := agreeIn_succ_iff

theorem compareRelease_cons_eq_lt_iff : compareRelease left (n :: right) = .lt
    ↔ left.headD 0 < n ∨ left.headD 0 = n ∧ compareRelease left.tail right = .lt := compareRelease_eq_lt_iff

theorem isLE_compareRelease_cons_iff : (compareRelease (n :: left) right).isLE = true
    ↔ n < right.headD 0 ∨ n = right.headD 0 ∧ (compareRelease left right.tail).isLE = true := isLE_compareRelease_iff

end Cons

theorem compareRelease_zeros_ne_lt (left rest : List Nat) : compareRelease left (rest.map fun _ => 0) ≠ .lt := by
  induction rest generalizing left with
  | nil => exact compareRelease_nil_ne_lt left
  | cons n more ih =>
      rw [List.map_cons, Ne, compareRelease_cons_eq_lt_iff]
      rintro (hlt | ⟨-, hlt⟩)
      · exact Nat.not_lt_zero _ hlt
      · exact ih left.tail hlt

/-! ### Raised numbers -/

/-- The places up to the number that a caret raises. -/
def raisedPlaces (numbers : List Nat) : Nat :=
  match numbers.findIdx? (· ≠ 0) with
  | some i => i + 1
  | none => numbers.length

theorem raisedPlaces_zero_cons (rest : List Nat) : raisedPlaces (0 :: rest) = raisedPlaces rest + 1 := by
  unfold raisedPlaces
  rw [List.findIdx?_cons, if_neg (by simp)]
  cases rest.findIdx? (· ≠ 0) <;> rfl

theorem raisedPlaces_cons {n : Nat} (hn : n ≠ 0) (rest : List Nat) : raisedPlaces (n :: rest) = 1 := by
  unfold raisedPlaces
  rw [List.findIdx?_cons, if_pos (by simpa using hn)]

theorem raisedPlaces_le_length (numbers : List Nat) : raisedPlaces numbers ≤ numbers.length := by
  induction numbers with
  | nil => exact Nat.le_refl 0
  | cons n rest ih =>
      rw [List.length_cons]
      by_cases hn : n = 0
      · subst hn
        rw [raisedPlaces_zero_cons]
        exact Nat.succ_le_succ ih
      · rw [raisedPlaces_cons hn]
        exact Nat.le_add_left 1 _

theorem caretPlaces_eq (release : List Nat) : caretPlaces release = raisedPlaces (release.take 3) := by
  unfold caretPlaces raisedPlaces
  rw [List.length_take]

theorem caretPlaces_le (release : List Nat) : caretPlaces release ≤ 3 := by
  rw [caretPlaces_eq]
  exact (raisedPlaces_le_length _).trans (List.length_take_le 3 release)

theorem tildePlaces_take (release : List Nat) : tildePlaces (release.take 3) = tildePlaces release := by
  have hone : (release.take 3).length = 1 ↔ release.length = 1 := by
    rw [List.length_take]
    omega
  simp only [tildePlaces, hone]

theorem tildePlaces_le (release : List Nat) : tildePlaces release ≤ 3 := by
  unfold tildePlaces
  split <;> decide

section Raised

variable {numbers more release : List Nat} (hne : numbers ≠ [])
  (h : (compareRelease (numbers ++ more) release).isLE = true)

include hne h

/-- By induction on the numbers: as long as they are zero, the release has to have zeros too. -/
theorem compareRelease_bumpSignificant_iff : compareRelease release (bumpSignificant numbers) = .lt
    ↔ AgreeIn (raisedPlaces numbers) release numbers := by
  induction numbers generalizing release with
  | nil => exact absurd rfl hne
  | cons n rest ih =>
      rw [List.cons_append, isLE_compareRelease_cons_iff] at h
      by_cases hn : n = 0
      · subst hn
        rw [raisedPlaces_zero_cons, agreeIn_cons_iff]
        by_cases hrest : rest = []
        · subst hrest
          have hlast := compareRelease_nil_ne_lt release.tail
          have hnone : AgreeIn (raisedPlaces []) release.tail [] := agreeIn_zero _ _
          rw [bumpSignificant, compareRelease_cons_eq_lt_iff]
          simp only [hlast, hnone, and_false, and_true, or_false]
          omega
        · rw [bumpSignificant_cons 0 hrest, if_pos rfl, compareRelease_cons_eq_lt_iff]
          constructor
          · rintro (hlt | ⟨hzero, hlt⟩)
            · exact absurd hlt (Nat.not_lt_zero _)
            · obtain ⟨-, hle⟩ := h.resolve_left (by omega)
              exact ⟨hzero, (ih hrest hle).mp hlt⟩
          · rintro ⟨hzero, hagree⟩
            obtain ⟨-, hle⟩ := h.resolve_left (by omega)
            exact .inr ⟨hzero, (ih hrest hle).mpr hagree⟩
      · have hraised : bumpSignificant (n :: rest) = (n + 1) :: rest.map fun _ => 0 := by
          by_cases hrest : rest = []
          · subst hrest
            rfl
          · rw [bumpSignificant_cons n hrest, if_neg hn]
        have hzeros := compareRelease_zeros_ne_lt release.tail rest
        rw [raisedPlaces_cons hn, agreeIn_cons_iff, hraised, compareRelease_cons_eq_lt_iff]
        simp only [hzeros, agreeIn_zero, and_false, and_true, or_false]
        omega

theorem compareRelease_bumpMinor_iff : compareRelease release (bumpMinor numbers) = .lt
    ↔ AgreeIn (tildePlaces numbers) release numbers := by
  match numbers, hne with
  | [n], _ =>
      have hlast := compareRelease_nil_ne_lt release.tail
      rw [List.cons_append, isLE_compareRelease_cons_iff] at h
      change compareRelease release [n + 1] = .lt ↔ AgreeIn 1 release [n]
      rw [compareRelease_cons_eq_lt_iff, agreeIn_cons_iff]
      simp only [hlast, agreeIn_zero, and_false, and_true, or_false]
      omega
  | m :: n :: rest, _ =>
      have hlast := compareRelease_zeros_ne_lt release.tail.tail [0]
      rw [List.cons_append, List.cons_append, isLE_compareRelease_cons_iff, isLE_compareRelease_cons_iff] at h
      have hplaces : tildePlaces (m :: n :: rest) = 2 := by simp [tildePlaces]
      change compareRelease release (m :: (n + 1) :: [0].map fun _ => 0) = .lt ↔ _
      rw [hplaces, compareRelease_cons_eq_lt_iff, compareRelease_cons_eq_lt_iff, agreeIn_cons_iff, agreeIn_cons_iff]
      simp only [hlast, agreeIn_zero, and_false, and_true, or_false]
      omega

end Raised

/-! ### Numbers between dots -/

theorem runs_numerals {digits : List Char} {numerals : List (List Char)}
    (h : ∀ word ∈ digits :: numerals, IsNumeral word) :
    leadingNumbers.runs (digits ++ numerals.flatMap ('.' :: ·)) = (digits :: numerals).map numberOf := by
  induction numerals generalizing digits with
  | nil =>
      obtain ⟨hne, hdigits⟩ := h digits (by simp)
      exact leadingNumbers.runsFrom_none_digits hdigits hne []
  | cons word more ih =>
      obtain ⟨⟨hne, hdigits⟩, hmore⟩ := List.forall_mem_cons.mp h
      calc leadingNumbers.runs (digits ++ (word :: more).flatMap ('.' :: ·))
          = leadingNumbers.runsFrom (some (numberOf digits)) ('.' :: (word ++ more.flatMap ('.' :: ·))) :=
            leadingNumbers.runsFrom_none_digits hdigits hne _
        _ = [numberOf digits] ++ leadingNumbers.runs (word ++ more.flatMap ('.' :: ·)) :=
            leadingNumbers.runsFrom_stop (by decide) (by decide) _ _
        _ = (digits :: word :: more).map numberOf := congrArg (numberOf digits :: ·) (ih hmore)

section Dotted

variable {bound version : List Char}

theorem length_numbers_pos (version : List Char) : 0 < (numbers version).length := by
  rw [numbers, List.length_map]
  exact List.length_pos_of_ne_nil (Text.splitOn_ne_nil '.' _)

theorem leadingNumbers_of_isDotted (h : IsDotted bound) :
    leadingNumbers (Text.trim bound) = (numbers bound).take 3 := by
  have hruns : leadingNumbers.runs (Text.trim bound) = numbers bound := by
    obtain ⟨digits, numerals, hsegments⟩ : ∃ digits numerals, segments bound = digits :: numerals :=
      List.exists_cons_of_ne_nil (Text.splitOn_ne_nil '.' _)
    have hnumerals : ∀ word ∈ digits :: numerals, IsNumeral word := by
      intro word hword
      exact h word (hsegments ▸ hword)
    rw [numbers, hsegments, eq_of_splitOn_dot hsegments]
    exact runs_numerals hnumerals
  rw [leadingNumbers, hruns]
  split
  · next hnil =>
      have hpos := length_numbers_pos bound
      rw [List.take_eq_nil_iff] at hnil
      rcases hnil with hnil | hnil
      · cases hnil
      · rw [hnil] at hpos
        exact absurd hpos (Nat.lt_irrefl 0)
  · rfl

theorem le_iff_of_plain {v w : Version} (hv : v.base = v) (hw : w.base = w) (hepoch : v.epoch = w.epoch) :
    v ≤ w ↔ (compareRelease v.release w.release).isLE = true := by
  have hcompare : v.compare w = compareRelease v.release w.release := by
    calc v.compare w = v.base.compare w.base := by rw [hv, hw]
      _ = v.compareBase w := compare_base_base v w
      _ = compareRelease v.release w.release := compareBase_of_epoch_eq hepoch
  rw [← hcompare]
  rfl

theorem bounded_iff_agreeIn {v w : Version} (hv : parse? bound = some v) (hw : parse? version = some w)
    (hvbase : v.base = v) (hwbase : w.base = w) (hvepoch : v.epoch = 0) (hwepoch : w.epoch = 0)
    {raised : List Nat} {places : Nat} (hne : raised ≠ [])
    (hraised : (compareRelease v.release w.release).isLE = true →
      (compareRelease w.release raised = .lt ↔ AgreeIn places w.release v.release)) :
    (∀ specifier ∈ [Specifier.mk .atLeast (Text.trim bound), Specifier.mk .below (releaseText raised)],
      Specifier.isVersionFor specifier.relation specifier.version = true ∧ specifier.contains version = true)
        ↔ v ≤ w ∧ AgreeIn places w.release v.release := by
  have hparse : parse? (Text.trim bound) = some v := (parse?_trim bound).trans hv
  have hvlocal : v.localParts = [] := by
    rw [← hvbase]
    rfl
  have hwithout : w.withoutLocal = w := by
    rw [← hwbase]
    rfl
  have hlower : Specifier.isVersionFor .atLeast (Text.trim bound) = true := by
    simp [Specifier.isVersionFor, hparse, hvlocal]
  have hlowerContains : (Specifier.mk .atLeast (Text.trim bound)).contains version = true ↔ v ≤ w := by
    simp [Specifier.contains, Specifier.admits, hw, hparse, hwithout]
  have hupper : (Specifier.mk .below (releaseText raised)).contains version = true
      ↔ compareRelease w.release raised = .lt := by
    rw [contains_below hw, admits_below_releaseText_iff hne]
    exact and_iff_right hwepoch
  simp only [List.forall_mem_cons, List.not_mem_nil, false_implies, implies_true, and_true, hlower,
    isVersionFor_below hne, true_and, hlowerContains, hupper]
  apply and_congr_right
  intro hle
  exact hraised ((le_iff_of_plain hvbase hwbase (hvepoch.trans hwepoch.symm)).mp hle)

section Both

variable {v w : Version} (hbound : IsDotted bound) (hversion : IsDotted version) (hv : parse? bound = some v)
  (hw : parse? version = some w)

include hbound hversion hv hw

/-- A shorthand that raises some of three leading numbers allows what is not lower and agrees up to the raised one. -/
theorem satisfies_bounded_iff (operator : Operator) {raise : List Nat → List Nat} {places : List Nat → Nat}
    (hspecifiers : specifiersOf operator (Text.trim bound)
      = [⟨.atLeast, Text.trim bound⟩, ⟨.below, releaseText (raise (leadingNumbers (Text.trim bound)))⟩])
    (hne : ∀ leading ≠ [], raise leading ≠ []) (hplaces : ∀ release, places release ≤ 3)
    (hraise : ∀ lower release : List Nat, lower ≠ [] → (compareRelease lower release).isLE = true →
      (compareRelease release (raise (lower.take 3)) = .lt ↔ AgreeIn (places lower) release (lower.take 3))) :
    satisfies version (operator.text ++ bound) = true
      ↔ v ≤ w ∧ AgreeIn (places (numbers bound)) (numbers version) (numbers bound) := by
  obtain ⟨v', hv', hvbase, hvepoch, hvrelease⟩ := hbound.parse
  obtain ⟨w', hw', hwbase, hwepoch, hwrelease⟩ := hversion.parse
  cases hv.symm.trans hv'
  cases hw.symm.trans hw'
  have hvlocal := hbound.localParts_eq_nil hv
  have hleading : leadingNumbers (Text.trim bound) = v.release.take 3 := hvrelease ▸ leadingNumbers_of_isDotted hbound
  have hnonempty : raise (v.release.take 3) ≠ [] := by
    apply hne
    exact hleading ▸ leadingNumbers_ne_nil hv hvlocal
  change satisfies version (Operator.textOf (some operator) ++ bound) = true ↔ _
  rw [satisfies_written_iff hv hvlocal, hspecifiers, hleading, ← hvrelease, ← hwrelease]
  apply bounded_iff_agreeIn hv hw hvbase hwbase hvepoch hwepoch hnonempty
  intro hle
  have hrelease : v.release ≠ [] := List.cons_ne_nil _ _
  rw [hraise v.release w.release hrelease hle, agreeIn_take_iff (hplaces _)]

theorem satisfies_caret_iff : satisfies version ('^' :: bound) = true
    ↔ v ≤ w ∧ AgreeIn (caretPlaces (numbers bound)) (numbers version) (numbers bound) := by
  apply satisfies_bounded_iff hbound hversion hv hw .caret rfl
    (fun _ => bumpSignificant_ne_nil) caretPlaces_le
  intro lower release hlower hle
  have hleading : lower.take 3 ≠ [] := by simpa using hlower
  rw [← List.take_append_drop 3 lower] at hle
  rw [compareRelease_bumpSignificant_iff hleading hle, caretPlaces_eq]

theorem satisfies_tilde_iff : satisfies version ('~' :: bound) = true
    ↔ v ≤ w ∧ AgreeIn (tildePlaces (numbers bound)) (numbers version) (numbers bound) := by
  have hleadingNe := leadingNumbers_ne_nil hv (hbound.localParts_eq_nil hv)
  apply satisfies_bounded_iff hbound hversion hv hw .tilde (by rw [specifiersOf, tildeBound_eq hleadingNe])
    (fun _ => bumpMinor_ne_nil) tildePlaces_le
  intro lower release hlower hle
  have hleading : lower.take 3 ≠ [] := by simpa using hlower
  rw [← List.take_append_drop 3 lower] at hle
  rw [compareRelease_bumpMinor_iff hleading hle, tildePlaces_take]

end Both

end Dotted

end Constraint

end ManifestLens
