import ManifestLens.Proofs.Version.Spelling

/-!
# Releases

The bounds of carets and tildes and the series of a compatible release are written from numbers and read again.
A release that is written in decimal, with or without an epoch before it, spells itself.
-/

namespace ManifestLens

namespace Version

/-- The version that is nothing but an epoch and a release. -/
def plain (epoch major : Nat) (minors : List Nat) : Version :=
  { epoch, major, minors, pre := none, post := none, dev := none, localParts := [] }

/-! ### Numbers -/

theorem numberOf_numberText (n : Nat) : numberOf (numberText n) = n := by
  calc numberOf (numberText n) = Nat.ofDigitChars 10 (Nat.toDigits 10 n) 0 := by
        simp only [numberOf, numberText, Nat.ofDigitChars, Nat.mul_comm]
    _ = n := Nat.ofDigitChars_toDigits (by decide) (by decide)

theorem isAsciiDigit_of_mem_numberText {n : Nat} {c : Char} (h : c ∈ numberText n) :
    Text.isAsciiDigit c = true := by
  have hdigit := Nat.isDigit_of_mem_toDigits (by decide) (by decide) h
  simpa [Char.isDigit, Text.isAsciiDigit, Char.le_def] using hdigit

theorem numberText_ne_nil (n : Nat) : numberText n ≠ [] := Nat.toDigits_ne_nil

/-- Digits that spell a number; zeros may stand before it. -/
def IsNumeral (digits : List Char) : Prop := digits ≠ [] ∧ ∀ c ∈ digits, Text.isAsciiDigit c = true

instance : DecidablePred IsNumeral := fun _ => inferInstanceAs (Decidable (_ ∧ _))

theorem isNumeral_numberText (n : Nat) : IsNumeral (numberText n) :=
  ⟨numberText_ne_nil n, fun _ => isAsciiDigit_of_mem_numberText⟩

theorem numberOf_cons (first : Char) (digits : List Char) : numberOf (first :: digits)
    = digits.foldl (fun n c => n * 10 + (c.toNat - '0'.toNat)) (first.toNat - '0'.toNat) := by
  rw [numberOf, List.foldl_cons, Nat.zero_mul, Nat.zero_add]

/-! ### Releases -/

/-- The numbers after the first, each behind a dot. -/
def minorsText (minors : List Nat) : List Char := minors.flatMap fun n => '.' :: numberText n

theorem joinWith_dot (word : List Char) (words : List (List Char)) :
    Text.joinWith ['.'] (word :: words) = word ++ words.flatMap ('.' :: ·) := by
  induction words generalizing word with
  | nil => simp [Text.joinWith]
  | cons other more ih =>
      rw [Text.joinWith, ih]
      · simp
      · exact List.cons_ne_nil _ _

theorem eq_of_splitOn_dot {text word : List Char} {words : List (List Char)}
    (h : Text.splitOn '.' text = word :: words) : text = word ++ words.flatMap ('.' :: ·) := by
  rw [← joinWith_dot, ← h, Text.joinWith_splitOn]

theorem minorsText_eq (minors : List Nat) : minorsText minors = (minors.map numberText).flatMap ('.' :: ·) :=
  (List.flatMap_map ..).symm

theorem releaseText_cons (major : Nat) (minors : List Nat) :
    releaseText (major :: minors) = numberText major ++ minorsText minors := by
  rw [releaseText, List.map_cons, joinWith_dot, minorsText_eq]

theorem readRelease_digits {digits : List Char} (hdigits : ∀ c ∈ digits, Text.isAsciiDigit c = true)
    (current : Nat) (reversed : List Nat) (rest : List Char) :
    readRelease current reversed (digits ++ rest)
      = readRelease (digits.foldl (fun n c => n * 10 + (c.toNat - '0'.toNat)) current) reversed rest := by
  induction digits generalizing current with
  | nil => rfl
  | cons c more ih =>
      have hdigit : Text.isAsciiDigit c = true := hdigits c (by simp)
      have hdot : c ≠ '.' := by
        rintro rfl
        exact absurd hdigit (by decide)
      rw [List.foldl_cons, ← ih fun d hd => hdigits d (by simp [hd]), List.cons_append,
        readRelease.eq_2 _ _ _ _ (fun _ _ hc _ => hdot hc), if_pos hdigit]

theorem readRelease_numeral {digits : List Char} (h : IsNumeral digits) (current : Nat) (reversed : List Nat)
    (rest : List Char) : readRelease current reversed ('.' :: (digits ++ rest))
      = readRelease (numberOf digits) (current :: reversed) rest := by
  obtain ⟨hne, hdigits⟩ := h
  cases digits with
  | nil => exact absurd rfl hne
  | cons first more =>
      obtain ⟨hfirst, hmore⟩ := List.forall_mem_cons.mp hdigits
      rw [List.cons_append, readRelease, if_pos hfirst, readRelease_digits hmore, numberOf_cons]

theorem readRelease_numerals {numerals : List (List Char)} (h : ∀ digits ∈ numerals, IsNumeral digits)
    (current : Nat) (reversed : List Nat) : readRelease current reversed (numerals.flatMap ('.' :: ·))
      = (reversed.reverse ++ current :: numerals.map numberOf, []) := by
  induction numerals generalizing current reversed with
  | nil => simp [readRelease]
  | cons digits more ih =>
      obtain ⟨hdigits, hmore⟩ := List.forall_mem_cons.mp h
      rw [List.flatMap_cons, List.cons_append, readRelease_numeral hdigits, ih hmore]
      simp

theorem afterEpoch?_numerals (epoch : Nat) {digits : List Char} {numerals : List (List Char)}
    (h : ∀ word ∈ digits :: numerals, IsNumeral word) : afterEpoch? epoch (digits ++ numerals.flatMap ('.' :: ·))
      = some (plain epoch (numberOf digits) (numerals.map numberOf)) := by
  obtain ⟨⟨hne, hdigits⟩, hmore⟩ := List.forall_mem_cons.mp h
  cases digits with
  | nil => exact absurd rfl hne
  | cons first others =>
      obtain ⟨hfirst, hothers⟩ := List.forall_mem_cons.mp hdigits
      have hread : readRelease (first.toNat - '0'.toNat) [] (others ++ numerals.flatMap ('.' :: ·))
          = (numberOf (first :: others) :: numerals.map numberOf, []) := by
        rw [readRelease_digits hothers, ← numberOf_cons, readRelease_numerals hmore]
        rfl
      rw [List.cons_append]
      simp only [afterEpoch?, hfirst, hread]
      rfl

theorem afterEpoch?_releaseText (epoch major : Nat) (minors : List Nat) :
    afterEpoch? epoch (releaseText (major :: minors)) = some (plain epoch major minors) := by
  have hnumerals : ∀ word ∈ (major :: minors).map numberText, IsNumeral word :=
    List.forall_mem_map.mpr fun n _ => isNumeral_numberText n
  rw [releaseText_cons, minorsText_eq, afterEpoch?_numerals epoch hnumerals, numberOf_numberText, List.map_map]
  simp [Function.comp_def, numberOf_numberText]

/-! ### Epochs -/

theorem readEpoch_of_notMem {text : List Char} (h : '!' ∉ text) : readEpoch text = (0, text) := by
  unfold readEpoch
  split
  · rfl
  · next digits rest _ hdigits =>
      rw [digitRun_eq, Prod.mk.injEq] at hdigits
      have hmem : '!' ∈ text.dropWhile Text.isAsciiDigit := by simp [hdigits.2]
      exact absurd (List.dropWhile_subset _ hmem) h
  · rfl

theorem readEpoch_append {digits : List Char} (hdigits : ∀ c ∈ digits, Text.isAsciiDigit c = true)
    (hne : digits ≠ []) (rest : List Char) : readEpoch (digits ++ '!' :: rest) = (numberOf digits, rest) := by
  have hrun : digitRun (digits ++ '!' :: rest) = (digits, '!' :: rest) := by
    have hstop : Text.HeadNot Text.isAsciiDigit ('!' :: rest) := Text.headNot_cons.mpr (by decide)
    rw [digitRun_eq, Text.takeWhile_run hdigits hstop, Text.dropWhile_run hdigits hstop]
  unfold readEpoch
  rw [hrun]
  cases digits with
  | nil => exact absurd rfl hne
  | cons c more => rfl

/-! ### Whole texts -/

/-- The characters of a release with an epoch. -/
def isPlainChar (c : Char) : Bool := Text.isAsciiDigit c || c == '.' || c == '!'

theorem isPlainChar_of_mem_releaseText {major : Nat} {minors : List Nat} {c : Char}
    (h : c ∈ releaseText (major :: minors)) : Text.isAsciiDigit c = true ∨ c = '.' := by
  rw [releaseText_cons, List.mem_append] at h
  rcases h with h | h
  · exact .inl (isAsciiDigit_of_mem_numberText h)
  · obtain ⟨n, -, h⟩ := List.mem_flatMap.mp h
    rcases List.mem_cons.mp h with rfl | h
    · exact .inr rfl
    · exact .inl (isAsciiDigit_of_mem_numberText h)

theorem isSpellingChar_of_isPlainChar {c : Char} (h : isPlainChar c = true) : isSpellingChar c = true := by
  simp only [isPlainChar, Bool.or_eq_true, beq_iff_eq] at h
  rcases h with (hdigit | rfl) | rfl
  · simp [isSpellingChar, isSegmentChar_of_isAsciiDigit hdigit]
  all_goals decide

theorem asciiLowerChar_of_isPlainChar {c : Char} (h : isPlainChar c = true) : Text.asciiLowerChar c = c := by
  unfold Text.asciiLowerChar
  refine if_neg fun hcapital => ?_
  simp only [isPlainChar, Text.isAsciiDigit, Bool.or_eq_true, Bool.and_eq_true, decide_eq_true_eq, beq_iff_eq] at h
  simp only [Bool.and_eq_true, decide_eq_true_eq] at hcapital
  rcases h with (⟨-, hnine⟩ | rfl) | rfl
  · exact absurd (Char.le_trans hcapital.1 hnine) (by decide)
  · exact absurd hcapital.1 (by decide)
  · exact absurd hcapital.1 (by decide)

theorem parse?_of_isPlainChar {text : List Char} (h : ∀ c ∈ text, isPlainChar c = true) :
    parse? text = afterEpoch? (readEpoch text).1 (readEpoch text).2 := by
  have hblank (c : Char) (hc : c ∈ text) : Text.isBlank c = false :=
    isBlank_of_isSpellingChar (isSpellingChar_of_isPlainChar (h c hc))
  have htrim : Text.trim text = text := by
    refine Text.trim_of_isTrimmed ⟨fun c hc => hblank c ?_, fun c hc => hblank c ?_⟩
    · exact List.mem_of_head? hc
    · exact List.mem_of_getLast? hc
  have hlower : Text.asciiLower text = text := by
    refine (List.map_congr_left fun c hc => ?_).trans (List.map_id _)
    exact asciiLowerChar_of_isPlainChar (h c hc)
  have hmark : withoutMark text = text := by
    unfold withoutMark
    split
    · exact absurd (h 'v' (by simp)) (by decide)
    · rfl
  rw [parse?_eq, htrim, hlower, hmark]

/-- **Releases read back.** An epoch and the numbers of a release spell the version that is nothing else. -/
theorem parse?_releaseText {epoch : Nat} {epochText : List Char} (hepoch : IsEpoch epoch epochText)
    (major : Nat) (minors : List Nat) :
    parse? (epochText ++ releaseText (major :: minors)) = some (plain epoch major minors) := by
  have hplain : ∀ c ∈ epochText ++ releaseText (major :: minors), isPlainChar c = true := by
    intro c hc
    rcases List.mem_append.mp hc with hc | hc
    · cases hepoch with
      | unwritten => cases hc
      | written hdigits hne =>
          rcases List.mem_append.mp hc with hc | hc
          · simp [isPlainChar, hdigits c hc]
          · simp [isPlainChar, List.mem_singleton.mp hc]
    · rcases isPlainChar_of_mem_releaseText hc with hdigit | rfl
      · simp [isPlainChar, hdigit]
      · decide
  rw [parse?_of_isPlainChar hplain]
  cases hepoch with
  | unwritten =>
      have hnone : '!' ∉ releaseText (major :: minors) := fun hc =>
        (isPlainChar_of_mem_releaseText hc).elim (fun hdigit => absurd hdigit (by decide)) (by decide)
      rw [List.nil_append, readEpoch_of_notMem hnone]
      exact afterEpoch?_releaseText 0 major minors
  | written hdigits hne =>
      rw [List.append_assoc, List.singleton_append, readEpoch_append hdigits hne]
      exact afterEpoch?_releaseText _ major minors

end Version

end ManifestLens

/-!
## The order of versions

Epochs decide first and releases next, number by number, where a missing number counts as zero. A version that
is nothing but an epoch and a release, taken as an exclusive upper bound, therefore lets through the versions
whose epoch and release come before its own, whatever segments follow.
-/

namespace ManifestLens

namespace Version

/-! ### Releases -/

theorem significant_cons (n : Nat) (rest : List Nat) :
    significant (n :: rest) = if significant rest = [] ∧ n = 0 then [] else n :: significant rest := by
  simp only [significant, List.reverse_eq_nil_iff]
  rw [List.reverse_cons, List.dropWhile_append]
  by_cases hzero : (rest.reverse.dropWhile (· == 0)) = []
  · by_cases hn : n = 0 <;> simp [hzero, hn]
  · simp [hzero]

def compareRelease (left right : List Nat) : Ordering := Ord.compare (significant left) (significant right)

theorem compareRelease_cons_cons (m n : Nat) (left right : List Nat) :
    compareRelease (m :: left) (n :: right) = (Ord.compare m n).then (compareRelease left right) := by
  simp only [compareRelease, significant_cons]
  -- A significant rest stands above none, as any number but zero stands above zero.
  have hnil (rest : List Nat) (h : ¬ rest = []) :
      Ord.compare rest [] = .gt ∧ Ord.compare [] rest = .lt := by
    cases rest with
    | nil => exact absurd rfl h
    | cons k more => exact ⟨List.compare_cons_nil, List.compare_nil_cons⟩
  have hpos (k : Nat) (h : ¬ k = 0) : Ord.compare k 0 = .gt ∧ Ord.compare 0 k = .lt :=
    ⟨Nat.compare_eq_gt.mpr (Nat.pos_of_ne_zero h), Nat.compare_eq_lt.mpr (Nat.pos_of_ne_zero h)⟩
  by_cases hl : significant left = [] <;> by_cases hm : m = 0 <;>
    by_cases hr : significant right = [] <;> by_cases hn : n = 0 <;>
    simp_all [List.compare_cons_cons, Ordering.then]

theorem compareRelease_eq_then (left right : List Nat) : compareRelease left right
    = (Ord.compare (left.headD 0) (right.headD 0)).then (compareRelease left.tail right.tail) := by
  cases left with
  | nil =>
      cases right with
      | nil => rfl
      | cons n more => exact compareRelease_cons_cons 0 n [] more
  | cons m rest =>
      cases right with
      | nil => exact compareRelease_cons_cons m 0 rest []
      | cons n more => exact compareRelease_cons_cons m n rest more

theorem compareRelease_nil_cons (n : Nat) (right : List Nat) :
    compareRelease [] (n :: right) = (Ord.compare 0 n).then (compareRelease [] right) :=
  compareRelease_cons_cons 0 n [] right

theorem compareRelease_nil_ne_lt (numbers : List Nat) : compareRelease numbers [] ≠ .lt := by
  rw [compareRelease]
  cases significant numbers with
  | nil => exact (by decide : Ordering.eq ≠ .lt)
  | cons n rest =>
      rw [show significant [] = [] from rfl, List.compare_cons_nil]
      decide

/-! ### Versions -/

variable (v : Version)

theorem compare_self : v.compare v = .eq := by
  simp only [compare, Std.compare_self]
  rfl

theorem le_self : v ≤ v := by
  change (v.compare v).isLE = true
  rw [compare_self]
  rfl

theorem not_lt_self : ¬ v < v := by
  change ¬ v.compare v = .lt
  rw [compare_self]
  decide

theorem same_self : v.same v = true := by
  rw [same, compare_self]
  rfl

/-- Where epoch and release decide. -/
def compareBase (v bound : Version) : Ordering :=
  (Ord.compare v.epoch bound.epoch).then (compareRelease v.release bound.release)

theorem compare_eq_then (bound : Version) : v.compare bound
    = (v.compareBase bound).then ((Ord.compare v.publicKey.tail.tail bound.publicKey.tail.tail).then
        (Ord.compare v.localKey bound.localKey)) := by
  simp only [compare, publicKey, List.compare_cons_cons, List.compare_nil_nil, compareBase, compareRelease,
    List.tail_cons, Ordering.then_eq, Ordering.then_assoc]

theorem compare_base_base (bound : Version) : v.base.compare bound.base = v.compareBase bound := by
  rw [compare_eq_then]
  have hkeys : Ord.compare v.base.publicKey.tail.tail bound.base.publicKey.tail.tail = .eq := Std.compare_self
  rw [hkeys]
  exact Ordering.then_eq

end Version

end ManifestLens
