import ManifestLens.Constraint.Satisfaction
import ManifestLens.Proofs.Version.Release

/-!
# The upper bounds of carets and tildes

A caret or a tilde puts an exclusive upper bound above the numbers that it finds in the text of its version.
Where the text has no epoch these are the numbers of the release, with those of later segments behind them if the
release is short, and the bound lies above the version. A written epoch counts as the first number, though, while
the bound itself has none, so the bound lies below nearly every version with a written epoch.
-/

namespace ManifestLens

open Version

namespace Constraint

/-! ### The numbers in a version -/

theorem decimalValue?_of_isAsciiDigit {c : Char} (h : Text.isAsciiDigit c = true) :
    Text.decimalValue? c = some (c.toNat - '0'.toNat) := by
  simp only [Text.isAsciiDigit, Bool.and_eq_true, decide_eq_true_eq, Char.le_def, UInt32.le_iff_toNat_le] at h
  exact if_pos h

theorem decimalValue?_of_isSpellingChar {c : Char} (h : isSpellingChar c = true)
    (hdigit : Text.isAsciiDigit c = false) : Text.decimalValue? c = none := by
  have hascii : c.toNat < 0x80 := by
    simp only [isSpellingChar, isSegmentChar, isSeparator, Bool.or_eq_true, beq_iff_eq] at h
    rcases h with (halnum | (rfl | rfl) | rfl) | rfl
    · have := Text.isAsciiAlnum_bounds halnum
      omega
    all_goals decide
  have hrange : ¬ ('0'.toNat ≤ c.toNat ∧ c.toNat ≤ '9'.toNat) := by
    simpa [Text.isAsciiDigit, Char.le_def, UInt32.le_iff_toNat_le] using hdigit
  rw [Text.decimalValue?, if_neg hrange, if_pos hascii]

namespace leadingNumbers

theorem runsFrom_digits {digits : List Char} (h : ∀ c ∈ digits, Text.isAsciiDigit c = true) (n : Nat)
    (rest : List Char) : runsFrom (some n) (digits ++ rest)
      = runsFrom (some (digits.foldl (fun n c => n * 10 + (c.toNat - '0'.toNat)) n)) rest := by
  induction digits generalizing n with
  | nil => rfl
  | cons c more ih =>
      rw [List.cons_append, runsFrom, decimalValue?_of_isAsciiDigit (h c (by simp)), List.foldl_cons,
        ← ih fun d hd => h d (by simp [hd])]
      rfl

theorem runsFrom_none_digits {digits : List Char} (h : ∀ c ∈ digits, Text.isAsciiDigit c = true)
    (hne : digits ≠ []) (rest : List Char) :
    runsFrom none (digits ++ rest) = runsFrom (some (numberOf digits)) rest := by
  cases digits with
  | nil => exact absurd rfl hne
  | cons c more =>
      rw [List.cons_append, runsFrom, decimalValue?_of_isAsciiDigit (h c (by simp)), numberOf, List.foldl_cons,
        ← runsFrom_digits fun d hd => h d (by simp [hd])]
      rfl

theorem runsFrom_stop {c : Char} (h : isSpellingChar c = true) (hdigit : Text.isAsciiDigit c = false)
    (current : Option Nat) (rest : List Char) :
    runsFrom current (c :: rest) = current.toList ++ runsFrom none rest := by
  rw [runsFrom, decimalValue?_of_isSpellingChar h hdigit]

/-- The numbers in a text that starts with a release are those of the release and others. -/
theorem exists_runsFrom_readRelease (current : Nat) (reversed : List Nat) (text : List Char)
    (h : ∀ c ∈ text, isSpellingChar c = true) :
    ∃ more others, (readRelease current reversed text).1 = reversed.reverse ++ more ∧
      runsFrom (some current) text = more ++ others := by
  fun_induction readRelease current reversed text with
  | case1 current reversed c rest hdigit ih =>
      obtain ⟨more, others, hnumbers, hruns⟩ := ih fun d hd => h d (by simp [hd])
      refine ⟨current :: more, others, by simpa using hnumbers, ?_⟩
      have hnumber : numberOf [c] = c.toNat - '0'.toNat := by simp [numberOf]
      have hdigits : ∀ d ∈ [c], Text.isAsciiDigit d = true := by simpa using hdigit
      rw [runsFrom_stop (by decide) (by decide), List.cons_append, ← hruns, ← hnumber,
        ← runsFrom_none_digits hdigits (by simp)]
      rfl
  | case2 current reversed c rest hdigit =>
      refine ⟨[current], runsFrom none (c :: rest), by simp, ?_⟩
      rw [runsFrom_stop (by decide) (by decide)]
      rfl
  | case3 current reversed c rest _ hdigit ih =>
      obtain ⟨more, others, hnumbers, hruns⟩ := ih fun d hd => h d (by simp [hd])
      have hdigits : ∀ d ∈ [c], Text.isAsciiDigit d = true := by simpa using hdigit
      exact ⟨more, others, hnumbers, (runsFrom_digits hdigits current rest).trans hruns⟩
  | case4 current reversed c rest _ hdigit =>
      refine ⟨[current], runsFrom none rest, by simp, ?_⟩
      rw [runsFrom_stop (h c (by simp)) (by simpa using hdigit)]
      rfl
  | case5 current reversed => exact ⟨[current], [], by simp, rfl⟩

end leadingNumbers

theorem decimalValue?_of_letter {c : Char} (hlow : '9'.toNat < c.toNat) (hhigh : c.toNat < 0x80) :
    Text.decimalValue? c = none := by
  rw [Text.decimalValue?, if_neg (by omega), if_pos hhigh]

theorem decimalValue?_asciiLowerChar (c : Char) :
    Text.decimalValue? (Text.asciiLowerChar c) = Text.decimalValue? c := by
  rcases Text.asciiLowerChar_cases c with h | ⟨hlow, hhigh, hlower⟩
  · rw [h]
  · have hnine : '9'.toNat = 57 := rfl
    rw [decimalValue?_of_letter (by omega) (by omega), decimalValue?_of_letter (by omega) (by omega)]

namespace leadingNumbers

theorem runsFrom_asciiLower (current : Option Nat) (text : List Char) :
    runsFrom current (Text.asciiLower text) = runsFrom current text := by
  induction text generalizing current with
  | nil => rfl
  | cons c rest ih =>
      have hcons : Text.asciiLower (c :: rest) = Text.asciiLowerChar c :: Text.asciiLower rest := rfl
      rw [hcons, runsFrom, runsFrom, decimalValue?_asciiLowerChar]
      simp only [ih]

/-- The numbers in the spelling of a version are its epoch, if that is written, its release, and others. -/
theorem exists_runs_of_spells {v : Version} {text : List Char} (h : Spells v text) : ∃ others,
    runs text = (if '!' ∈ text then [v.epoch] else []) ++ (v.release ++ others) := by
  have hall := h.all
  cases h with
  | @intro mark epoch tail first rest hmark hepoch hfirst hrelease htail =>
      have htakes := (Spells.takes hfirst hrelease htail).all
      have hrest : ∀ c ∈ rest, isSpellingChar c = true := fun c hc => by
        simp [isSpellingChar, htakes c (by simp [hc])]
      obtain ⟨more, others, hnumbers, hruns⟩ :=
        exists_runsFrom_readRelease (first.toNat - '0'.toNat) [] rest hrest
      rw [hrelease] at hnumbers
      obtain rfl : v.release = more := hnumbers
      have hbody : runsFrom none (first :: rest) = v.release ++ others := by
        rw [← hruns, runsFrom, decimalValue?_of_isAsciiDigit hfirst]
        simp only [Option.getD_none, Nat.zero_mul, Nat.zero_add]
      have hskip : runs (mark ++ (epoch ++ first :: rest)) = runsFrom none (epoch ++ first :: rest) := by
        rcases hmark with rfl | rfl
        · rfl
        · exact runsFrom_stop (by decide) (by decide) none _
      refine ⟨others, ?_⟩
      rw [hskip]
      generalize v.epoch = number at hepoch ⊢
      cases hepoch with
      | unwritten =>
          have hnone : '!' ∉ mark ++ ([] ++ first :: rest) := by
            intro hmem
            rw [List.nil_append, List.mem_append] at hmem
            rcases hmem with hmem | hmem
            · rcases hmark with rfl | rfl
              · cases hmem
              · exact absurd (List.mem_singleton.mp hmem) (by decide)
            · exact absurd (htakes _ hmem) (by decide)
          rw [if_neg hnone, List.nil_append, List.nil_append, hbody]
      | @written digits hdigits hne =>
          have hmem : '!' ∈ mark ++ (digits ++ ['!'] ++ first :: rest) := by simp
          rw [if_pos hmem, List.append_assoc, runsFrom_none_digits hdigits hne, List.singleton_append,
            runsFrom_stop (by decide) (by decide), hbody]
          rfl

end leadingNumbers

/-- The numbers from which a bound is made. -/
theorem exists_leadingNumbers {v : Version} {text : List Char} (h : parse? text = some v)
    (hlocal : v.localParts = []) : ∃ others, leadingNumbers (Text.trim text)
      = ((if '!' ∈ Text.trim text then [v.epoch] else []) ++ (v.release ++ others)).take 3 := by
  obtain ⟨others, hruns⟩ := leadingNumbers.exists_runs_of_spells (spells_of_parse h hlocal)
  rw [leadingNumbers.runs, leadingNumbers.runsFrom_asciiLower] at hruns
  simp only [mem_asciiLower_mark] at hruns
  refine ⟨others, ?_⟩
  rw [leadingNumbers, leadingNumbers.runs, hruns]
  split
  · next hnil =>
      rw [List.take_eq_nil_iff] at hnil
      simp [release] at hnil
  · rfl

/-! ### Exclusive upper bounds -/

/-- A version whose epoch and release are those of a bound without further segments comes before it only as a
pre-release of it. -/
theorem isPrerelease_of_lt_plain {v : Version} {epoch major : Nat} {minors : List Nat}
    (h : v < plain epoch major minors) (hbase : v.compareBase (plain epoch major minors) = .eq) :
    v.isPrerelease = true := by
  have hlt : v.compare (plain epoch major minors) = .lt := h
  rw [compare_eq_then, hbase] at hlt
  by_contra hstable
  obtain ⟨hpre, hdev⟩ : v.pre = none ∧ v.dev = none := by
    simpa [isPrerelease] using hstable
  have hlocal : Ord.compare v.localKey ([] : List (List Nat)) ≠ .lt := by
    cases v.localKey with
    | nil => exact (by decide : Ordering.eq ≠ .lt)
    | cons part parts =>
        rw [List.compare_cons_nil]
        decide
  cases hpost : v.post with
  | none =>
      have hkeys : v.publicKey.tail.tail = (plain epoch major minors).publicKey.tail.tail := by
        simp [publicKey, preKey, plain, hpre, hdev, hpost]
      rw [hkeys, Std.compare_self] at hlt
      exact hlocal hlt
  | some n =>
      have hkeys : Ord.compare v.publicKey.tail.tail (plain epoch major minors).publicKey.tail.tail = .gt := by
        simp only [publicKey, preKey, plain, hpre, hdev, hpost, List.tail_cons, List.compare_cons_cons,
          Std.compare_self]
        rfl
      rw [hkeys] at hlt
      cases hlt

/-- **Exclusive upper bounds.** Below a bound without further segments are the versions whose epoch and release
come before it. -/
theorem admits_below_iff {text : List Char} {epoch major : Nat} {minors : List Nat}
    (h : parse? text = some (plain epoch major minors)) (v : Version) :
    (Specifier.mk .below text).admits v = true ↔ v.compareBase (plain epoch major minors) = .lt := by
  have hsame : v.base.same (plain epoch major minors).base = true
      ↔ v.compareBase (plain epoch major minors) = .eq := by
    rw [same, compare_base_base, beq_iff_eq]
  have hstable : (plain epoch major minors).isPrerelease = false := rfl
  simp only [Specifier.admits, h, Option.any_some, hstable, Bool.not_false, Bool.true_and, Bool.and_eq_true,
    decide_eq_true_eq, Bool.not_eq_true', ← Bool.not_eq_true, hsame]
  constructor
  · rintro ⟨hlt, hother⟩
    cases hbase : v.compareBase (plain epoch major minors) with
    | lt => rfl
    | eq => exact absurd ⟨isPrerelease_of_lt_plain hlt hbase, hbase⟩ hother
    | gt =>
        have hcompare : v.compare (plain epoch major minors) = .lt := hlt
        rw [compare_eq_then, hbase] at hcompare
        cases hcompare
  · intro hbase
    refine ⟨?_, fun hother => ?_⟩
    · change v.compare (plain epoch major minors) = .lt
      rw [compare_eq_then, hbase]
      rfl
    · rw [hbase] at hother
      cases hother.2

theorem admits_below_releaseText_iff {numbers : List Nat} (hne : numbers ≠ []) (v : Version) :
    (Specifier.mk .below (releaseText numbers)).admits v = true
      ↔ v.epoch = 0 ∧ compareRelease v.release numbers = .lt := by
  obtain ⟨major, minors, rfl⟩ := List.exists_cons_of_ne_nil hne
  have hparse : parse? (releaseText (major :: minors)) = some (plain 0 major minors) :=
    parse?_releaseText .unwritten major minors
  rw [admits_below_iff hparse, compareBase]
  have hrelease : (plain 0 major minors).release = major :: minors := rfl
  have hepoch : (plain 0 major minors).epoch = 0 := rfl
  rw [hrelease, hepoch]
  cases hzero : v.epoch with
  | zero => simp [Std.compare_self]
  | succ n =>
      have hgt : Ord.compare (n + 1) 0 = .gt := Nat.compare_eq_gt.mpr (Nat.succ_pos n)
      simp [hgt]

/-! ### Carets -/

theorem bumpSignificant_cons (n : Nat) {rest : List Nat} (h : rest ≠ []) : bumpSignificant (n :: rest)
    = if n = 0 then 0 :: bumpSignificant rest else (n + 1) :: rest.map fun _ => 0 := by
  cases rest with
  | nil => exact absurd rfl h
  | cons m more => rfl

theorem bumpSignificant_ne_nil {numbers : List Nat} (h : numbers ≠ []) : bumpSignificant numbers ≠ [] := by
  match numbers with
  | [] => exact h
  | [n] => simp [bumpSignificant]
  | m :: n :: rest =>
      rw [bumpSignificant_cons m (List.cons_ne_nil n rest)]
      split <;> simp

theorem compare_succ (n : Nat) : Ord.compare n (n + 1) = .lt := Nat.compare_eq_lt.mpr (Nat.lt_succ_self n)

theorem compareRelease_nil_bumpSignificant {numbers : List Nat} (h : numbers ≠ []) :
    compareRelease [] (bumpSignificant numbers) = .lt := by
  induction numbers with
  | nil => exact absurd rfl h
  | cons n rest ih =>
      have hpositive : Ord.compare 0 (n + 1) = .lt := Nat.compare_eq_lt.mpr (Nat.succ_pos n)
      by_cases hrest : rest = []
      · rw [hrest, bumpSignificant, compareRelease_nil_cons, hpositive]
        rfl
      · rw [bumpSignificant_cons n hrest]
        split
        · rw [compareRelease_nil_cons, ih hrest]
          rfl
        · rw [compareRelease_nil_cons, hpositive]
          rfl

/-- Raising the first number that is not zero leads beyond every release that starts with the numbers. -/
theorem compareRelease_bumpSignificant (release others : List Nat) (count : Nat)
    (h : (release ++ others).take count ≠ []) :
    compareRelease release (bumpSignificant ((release ++ others).take count)) = .lt := by
  induction release generalizing count with
  | nil => exact compareRelease_nil_bumpSignificant h
  | cons n rest ih =>
      cases count with
      | zero => exact absurd rfl h
      | succ count =>
          rw [List.cons_append, List.take_succ_cons]
          by_cases hmore : (rest ++ others).take count = []
          · rw [hmore, bumpSignificant, compareRelease_cons_cons, compare_succ]
            rfl
          · rw [bumpSignificant_cons n hmore]
            split
            · next hzero =>
                rw [hzero, compareRelease_cons_cons, ih count hmore]
                rfl
            · rw [compareRelease_cons_cons, compare_succ]
              rfl

theorem compareRelease_cons_zero_iff {n : Nat} {release numbers : List Nat} :
    compareRelease (n :: release) (0 :: numbers) = .lt ↔ n = 0 ∧ compareRelease release numbers = .lt := by
  rw [compareRelease_cons_cons]
  cases n with
  | zero => simp [Std.compare_self]
  | succ n =>
      have hgt : Ord.compare (n + 1) 0 = .gt := Nat.compare_eq_gt.mpr (Nat.succ_pos n)
      simp [hgt]

theorem compareRelease_one_iff {n : Nat} {release : List Nat} :
    compareRelease (n :: release) [1] = .lt ↔ n = 0 := by
  rw [compareRelease_cons_cons]
  match n with
  | 0 => exact iff_of_true rfl rfl
  | 1 =>
      have hnext := compareRelease_nil_ne_lt release
      simpa [Std.compare_self] using hnext
  | n + 2 =>
      have hgt : Ord.compare (n + 2) 1 = .gt := Nat.compare_eq_gt.mpr (by omega)
      simp [hgt]

/-- A written epoch of zero takes the place of the first number, so the bound is made for a release one place
further down. -/
theorem compareRelease_bumpSignificant_zero (major : Nat) (minors others : List Nat) :
    compareRelease (major :: minors) (bumpSignificant ((0 :: (major :: minors ++ others)).take 3)) = .lt
      ↔ ∀ n ∈ (major :: minors).take 3, n = 0 := by
  have hnumbers : (0 :: (major :: minors ++ others)).take 3 = 0 :: major :: (minors ++ others).take 1 := rfl
  rw [hnumbers, bumpSignificant_cons 0 (List.cons_ne_nil _ _), if_pos rfl, compareRelease_cons_zero_iff]
  match minors with
  | [] =>
      simp only [compareRelease_nil_bumpSignificant (List.cons_ne_nil _ _), and_true, List.take_succ_cons,
        List.take_nil, List.mem_singleton, forall_eq]
  | minor :: rest =>
      have hrest : (minor :: rest ++ others).take 1 = [minor] := rfl
      rw [hrest, bumpSignificant_cons major (List.cons_ne_nil _ _)]
      by_cases hmajor : major = 0
      · rw [if_pos hmajor, bumpSignificant, compareRelease_cons_zero_iff]
        by_cases hminor : minor = 0
        · cases rest with
          | nil => simp [hmajor, hminor, compareRelease_nil_cons, Nat.compare_eq_lt.mpr]
          | cons patch more => simp [hmajor, hminor, compareRelease_one_iff]
        · simp [hminor]
      · simp [hmajor]

/-! ### Tildes -/

/-- The numbers with the second one raised and nothing but a zero behind it; a single one is raised itself. -/
def bumpMinor : List Nat → List Nat
  | major :: minor :: _ => [major, minor + 1, 0]
  | major :: _ => [major + 1]
  | [] => []

theorem tildeBound_eq {version : List Char} (h : leadingNumbers version ≠ []) :
    tildeBound version = releaseText (bumpMinor (leadingNumbers version)) := by
  unfold tildeBound
  generalize leadingNumbers version = numbers at h ⊢
  match numbers with
  | [] => exact absurd rfl h
  | [_] => rfl
  | _ :: _ :: _ => rfl

theorem compareRelease_bumpMinor (major : Nat) (minors others : List Nat) :
    compareRelease (major :: minors) (bumpMinor ((major :: minors ++ others).take 3)) = .lt := by
  match minors, others with
  | [], [] =>
      have hnumbers : bumpMinor (([major] ++ []).take 3) = [major + 1] := rfl
      rw [hnumbers, compareRelease_cons_cons, compare_succ]
      rfl
  | [], other :: more =>
      have hnumbers : bumpMinor (([major] ++ other :: more).take 3) = [major, other + 1, 0] := rfl
      rw [hnumbers, compareRelease_cons_cons, Std.compare_self, compareRelease_nil_cons,
        Nat.compare_eq_lt.mpr (Nat.succ_pos other)]
      rfl
  | minor :: rest, others =>
      have hnumbers : bumpMinor ((major :: minor :: rest ++ others).take 3) = [major, minor + 1, 0] := rfl
      rw [hnumbers, compareRelease_cons_cons, Std.compare_self, compareRelease_cons_cons, compare_succ]
      rfl

theorem compareRelease_bumpMinor_zero (major : Nat) (minors others : List Nat) :
    compareRelease (major :: minors) (bumpMinor ((0 :: (major :: minors ++ others)).take 3)) = .lt
      ↔ ∀ n ∈ (major :: minors).take 2, n = 0 := by
  have hnumbers : bumpMinor ((0 :: (major :: minors ++ others)).take 3) = [0, major + 1, 0] := rfl
  rw [hnumbers, compareRelease_cons_zero_iff]
  by_cases hmajor : major = 0
  · have hone : compareRelease minors [major + 1, 0] = compareRelease minors [1] := by
      rw [hmajor]
      rfl
    rw [hone]
    cases minors with
    | nil => simp [hmajor, compareRelease_nil_cons, Nat.compare_eq_lt.mpr]
    | cons minor rest => simp [hmajor, compareRelease_one_iff]
  · simp [hmajor]

theorem bumpMinor_ne_nil {numbers : List Nat} (h : numbers ≠ []) : bumpMinor numbers ≠ [] := by
  match numbers with
  | [] => exact absurd rfl h
  | [_] => exact List.cons_ne_nil _ _
  | _ :: _ :: _ => exact List.cons_ne_nil _ _

/-! ### Both -/

variable {v : Version} {text : List Char}

theorem leadingNumbers_ne_nil (h : parse? text = some v) (hlocal : v.localParts = []) :
    leadingNumbers (Text.trim text) ≠ [] := by
  obtain ⟨others, hnumbers⟩ := exists_leadingNumbers h hlocal
  rw [hnumbers]
  simp [release]

/-- A bound above the numbers of a version lies above the version unless the epoch is written, where it is made
for a release one place further down. -/
theorem admits_bound_iff (h : parse? text = some v) (hlocal : v.localParts = []) {bound : List Nat → List Nat}
    {count : Nat} (hne : ∀ numbers ≠ [], bound numbers ≠ [])
    (habove : ∀ major minors others,
      compareRelease (major :: minors) (bound ((major :: minors ++ others).take 3)) = .lt)
    (hzero : ∀ major minors others,
      compareRelease (major :: minors) (bound ((0 :: (major :: minors ++ others)).take 3)) = .lt
        ↔ ∀ n ∈ (major :: minors).take count, n = 0) :
    (Specifier.mk .below (releaseText (bound (leadingNumbers (Text.trim text))))).admits v = true
      ↔ '!' ∉ Text.trim text ∨ (v.epoch = 0 ∧ ∀ n ∈ v.release.take count, n = 0) := by
  obtain ⟨others, hnumbers⟩ := exists_leadingNumbers h hlocal
  rw [admits_below_releaseText_iff (hne _ (leadingNumbers_ne_nil h hlocal)), hnumbers]
  by_cases hmark : '!' ∈ Text.trim text
  · simp only [hmark, if_true, not_true_eq_false, false_or]
    refine and_congr_right fun hepoch => ?_
    rw [hepoch]
    exact hzero v.major v.minors others
  · simp only [hmark, if_false, not_false_eq_true, true_or, iff_true]
    exact ⟨epoch_eq_zero_of_parse h hlocal hmark, habove v.major v.minors others⟩

/-- **Carets.** A version lies below the bound of its caret unless its epoch is written, where only a release of
zeros does. -/
theorem admits_caretBound_iff (h : parse? text = some v) (hlocal : v.localParts = []) :
    (Specifier.mk .below (caretBound (Text.trim text))).admits v = true
      ↔ '!' ∉ Text.trim text ∨ (v.epoch = 0 ∧ ∀ n ∈ v.release.take 3, n = 0) :=
  admits_bound_iff h hlocal (fun _ hne => bumpSignificant_ne_nil hne)
    (fun major minors others => compareRelease_bumpSignificant (major :: minors) others 3 (by simp))
    compareRelease_bumpSignificant_zero

/-- **Tildes.** A version lies below the bound of its tilde unless its epoch is written, where only a release
that begins with two zeros does. -/
theorem admits_tildeBound_iff (h : parse? text = some v) (hlocal : v.localParts = []) :
    (Specifier.mk .below (tildeBound (Text.trim text))).admits v = true
      ↔ '!' ∉ Text.trim text ∨ (v.epoch = 0 ∧ ∀ n ∈ v.release.take 2, n = 0) := by
  rw [tildeBound_eq (leadingNumbers_ne_nil h hlocal)]
  exact admits_bound_iff h hlocal (fun _ hne => bumpMinor_ne_nil hne) compareRelease_bumpMinor
    compareRelease_bumpMinor_zero

end Constraint

end ManifestLens
