import ManifestLens.Proofs.Version.Preorder
import ManifestLens.Proofs.Version.PublicSpelling
import ManifestLens.Proofs.Version.Release

/-!
# Numbers between dots

Of a version text that is nothing but numbers between dots both orders read the numbers, and both count the
missing ones as zero, so there the natural order is the one of the packaging standard.
-/

namespace ManifestLens

open Version (IsNumeral compareRelease)

namespace NaturalVersion

/-! ### Segments that start with digits -/

namespace Segment

/-- The segment that is a number and nothing else. -/
def ofNumber (n : Nat) : Segment := ⟨some n, []⟩

theorem cmp_ofNumber (m n : Nat) : (ofNumber m).cmp (ofNumber n) = Ord.compare m n := Ordering.then_eq

theorem numberOf_eq {digits : List Char} (h : ∀ c ∈ digits, Text.isAsciiDigit c = true) :
    numberOf digits = Version.numberOf digits := by
  refine List.foldl_ext _ _ _ fun n c hc => ?_
  rw [Text.decimalValue?_of_isAsciiDigit (h c hc)]
  rfl

theorem withoutFinalBreak_of_notMem {text : List Char} (h : '\n' ∉ text) : withoutFinalBreak text = text :=
  if_neg fun hlast => h (List.mem_of_getLast? hlast)

theorem ofText_of_headNot {text : List Char} (hstop : Text.HeadNot Text.isDecimal text) (hline : '\n' ∉ text) :
    ofText text = ⟨none, text⟩ := by
  have hdigits : ([] ++ text).takeWhile Text.isDecimal = [] := Text.takeWhile_run (by simp) hstop
  rw [List.nil_append] at hdigits
  have hread : read text = .ok ⟨none, text⟩ := by
    simp [read, hdigits, withoutFinalBreak_of_notMem hline, hline]
  rw [ofText, hread]
  rfl

theorem ofText_append {digits suffix : List Char} (hdigits : IsNumeral digits)
    (hstop : Text.HeadNot Text.isDecimal suffix) (hline : '\n' ∉ suffix) (h : IsReadable (digits ++ suffix)) :
    ofText (digits ++ suffix) = ⟨some (Version.numberOf digits), suffix⟩ := by
  have htake : (digits ++ suffix).takeWhile Text.isDecimal = digits :=
    Text.takeWhile_run (fun c hc => Text.isDecimal_of_isAsciiDigit (hdigits.2 c hc)) hstop
  have hlength : ¬ maxDigits < digits.length := by
    have := h.2
    rw [htake] at this
    omega
  have hread : read (digits ++ suffix) = .ok ⟨some (Version.numberOf digits), suffix⟩ := by
    simp [read, htake, withoutFinalBreak_of_notMem hline, hline, hdigits.1, hlength, numberOf_eq hdigits.2]
  rw [ofText, hread]
  rfl

theorem ofText_numeral {digits : List Char} (hdigits : IsNumeral digits) (h : IsReadable digits) :
    ofText digits = ofNumber (Version.numberOf digits) := by
  have hempty := List.append_nil digits
  have htext := ofText_append hdigits Text.headNot_nil List.not_mem_nil (hempty.symm ▸ h)
  rwa [hempty] at htext

end Segment

/-! ### Numbers -/

theorem compareUpTo_numbers {count : Nat} {left right : List Nat} (hleft : left.length ≤ count)
    (hright : right.length ≤ count) :
    compareUpTo count (left.map Segment.ofNumber) (right.map Segment.ofNumber) = compareRelease left right := by
  induction count generalizing left right with
  | zero =>
      obtain rfl := List.length_eq_zero_iff.mp (Nat.le_zero.mp hleft)
      obtain rfl := List.length_eq_zero_iff.mp (Nat.le_zero.mp hright)
      rfl
  | succ count ih =>
      have hhead (numbers : List Nat) : (numbers.map Segment.ofNumber).headD .missing
          = Segment.ofNumber (numbers.headD 0) := by
        cases numbers <;> rfl
      have htails : compareUpTo count (left.map Segment.ofNumber).tail (right.map Segment.ofNumber).tail
          = compareRelease left.tail right.tail := by
        rw [← List.map_tail, ← List.map_tail]
        exact ih (length_tail_le hleft) (length_tail_le hright)
      rw [compareUpTo, hhead, hhead, Segment.cmp_ofNumber, htails, ← Version.compareRelease_eq_then]

/-- Between blanks the text is numbers and the dots between them. -/
def IsDotted (version : List Char) : Prop := ∀ segment ∈ segments version, IsNumeral segment

instance : DecidablePred IsDotted := fun version =>
  inferInstanceAs (Decidable (∀ segment ∈ segments version, IsNumeral segment))

def numbers (version : List Char) : List Nat := (segments version).map Version.numberOf

theorem IsDotted.keys_eq {version : List Char} (h : IsDotted version) (hreadable : IsReadable version) :
    keys version = (numbers version).map Segment.ofNumber := by
  rw [keys, numbers, List.map_map]
  refine List.map_congr_left fun segment hsegment => ?_
  exact Segment.ofText_numeral (h segment hsegment) (hreadable segment hsegment)

/-- The standard reads the release of these numbers, and no other part of a version. -/
theorem IsDotted.parse {version : List Char} (h : IsDotted version) :
    ∃ v : Version, Version.parse? version = some v ∧ v.base = v ∧ v.epoch = 0 ∧ v.release = numbers version := by
  obtain ⟨digits, numerals, hsegments⟩ : ∃ digits numerals, segments version = digits :: numerals :=
    List.exists_cons_of_ne_nil (Text.splitOn_ne_nil '.' _)
  have htrim : Text.trim version = digits ++ numerals.flatMap ('.' :: ·) := Version.eq_of_splitOn_dot hsegments
  have hnumerals : ∀ word ∈ digits :: numerals, IsNumeral word := fun word hword =>
    h word (hsegments ▸ hword)
  have hchars : ∀ c ∈ Text.trim version, Text.isAsciiDigit c = true ∨ c = '.' := by
    intro c hc
    rw [htrim, List.mem_append] at hc
    rcases hc with hc | hc
    · exact .inl ((hnumerals _ (by simp)).2 c hc)
    · obtain ⟨word, hword, hc⟩ := List.mem_flatMap.mp hc
      rcases List.mem_cons.mp hc with rfl | hc
      · exact .inr rfl
      · exact .inl ((hnumerals word (by simp [hword])).2 c hc)
  have hplain : ∀ c ∈ Text.trim version, Version.isPlainChar c = true := fun c hc => by
    rcases hchars c hc with hdigit | rfl
    · simp [Version.isPlainChar, hdigit]
    · decide
  have hmark : '!' ∉ Text.trim version := fun hc =>
    (hchars _ hc).elim (fun hdigit => absurd hdigit (by decide)) (by decide)
  refine ⟨.plain 0 (Version.numberOf digits) (numerals.map Version.numberOf), ?_, rfl, rfl, ?_⟩
  · rw [← Version.parse?_trim, Version.parse?_of_isPlainChar hplain, Version.readEpoch_of_notMem hmark, htrim]
    exact Version.afterEpoch?_numerals 0 hnumerals
  · rw [numbers, hsegments]
    rfl

theorem IsDotted.localParts_eq_nil {version : List Char} {v : Version} (h : IsDotted version)
    (hv : Version.parse? version = some v) : v.localParts = [] := by
  obtain ⟨w, hw, hbase, -, -⟩ := h.parse
  cases hv.symm.trans hw
  rw [← hbase]
  rfl

/-- **Numbers between dots** stand in the order of the packaging standard. -/
theorem IsDotted.order_eq {a b : List Char} (ha : IsDotted a) (hb : IsDotted b) (hreadable : IsReadable a)
    (hreadable' : IsReadable b) : ∃ v w, Version.parse? a = some v ∧ Version.parse? b = some w ∧
      order a b = v.compare w := by
  obtain ⟨v, hv, hvbase, hvepoch, hvrelease⟩ := ha.parse
  obtain ⟨w, hw, hwbase, hwepoch, hwrelease⟩ := hb.parse
  refine ⟨v, w, hv, hw, ?_⟩
  calc order a b
      = compareUpTo (max (segments a).length (segments b).length) (keys a) (keys b) := rfl
    _ = compareRelease (numbers a) (numbers b) := by
        rw [ha.keys_eq hreadable, hb.keys_eq hreadable']
        apply compareUpTo_numbers
        · exact (List.length_map _).le.trans (Nat.le_max_left ..)
        · exact (List.length_map _).le.trans (Nat.le_max_right ..)
    _ = v.compareBase w := by
        rw [Version.compareBase, hvepoch, hwepoch, hvrelease, hwrelease, Std.compare_self]
        rfl
    _ = v.compare w := by rw [← Version.compare_base_base, hvbase, hwbase]

/-! ### The order as a whole -/

/-- **Comparing version texts** of which all segments can be read, as those of texts in one line can whose runs of
digits are not too long, is a total preorder: turning the sides round turns the answer round, answers chain, and
equal texts, which are those with the same segments up to zeros at the end, may stand for each other. On numbers
between dots it is the order of the packaging standard. -/
theorem compare_isPreorder {a b c : List Char} (ha : IsReadable a) (hb : IsReadable b) (hc : IsReadable c) :
    (∃ order, compare a b = .ok order ∧ compare b a = .ok order.swap) ∧
    (∀ left right, compare a b = .ok left → compare b c = .ok right → left.isLE = true → right.isLE = true →
      ∃ order, compare a c = .ok order ∧ order.isLE = true) ∧
    (∃ left right, (segments a).mapM Segment.read = .ok left ∧ (segments b).mapM Segment.read = .ok right ∧
      (compare a b = .ok .eq ↔
        ∃ m n, left ++ List.replicate m .missing = right ++ List.replicate n .missing)) ∧
    (compare a b = .ok .eq → compare a c = compare b c ∧ compare c a = compare c b) ∧
    (IsDotted a → IsDotted b → ∃ v w, Version.parse? a = some v ∧ Version.parse? b = some w ∧
      compare a b = .ok (v.compare w)) := by
  rw [compare_eq_order ha hb, compare_eq_order hb ha, compare_eq_order ha hc, compare_eq_order hb hc,
    compare_eq_order hc ha, compare_eq_order hc hb]
  simp only [Except.ok.injEq]
  refine ⟨⟨_, rfl, Std.OrientedCmp.eq_swap⟩, ?_, ?_, ?_, fun hdotted hdotted' => ?_⟩
  · rintro _ _ rfl rfl hab hbc
    exact ⟨_, rfl, Std.TransCmp.isLE_trans hab hbc⟩
  · exact ⟨keys a, keys b, Segment.mapM_read ha, Segment.mapM_read hb, order_eq_iff⟩
  · intro heq
    exact ⟨Std.TransCmp.congr_left heq, Std.TransCmp.congr_right heq⟩
  · exact hdotted.order_eq hdotted' ha hb

/-- Missing segments and zeros do not count, nor do blanks around the text. -/
theorem compare_zero_segments :
    compare " 1.0 ".toList "1.0rc1".toList = compare "01.0.00".toList "1.0rc1".toList :=
  ((compare_isPreorder (a := " 1.0 ".toList) (b := "01.0.00".toList) (c := "1.0rc1".toList)
    (by decide) (by decide) (by decide)).2.2.2.1 (by decide)).1

end NaturalVersion

end ManifestLens

/-!
## What the natural order sees of a version

Segment by segment the natural order reads the numbers of the release, unless a letter stands before them, and takes
whatever follows the last of them as text. So it never puts a version of a lower release above one of a higher
release, and never puts anything of a release above its final version. Behind that the two orders part: what the
standard ranks above the final version, a post-release, is text behind the release like any other.
-/

namespace ManifestLens

open Text (HeadNot)

namespace NaturalVersion

open Version (IsNumeral EndsRelease IsPublicSpelling IsMarked isSpellingChar compareRelease)

/-! ### What is compared -/

/-- The segments of a text with the given release: its numbers, with nothing behind them if the version is final, and
otherwise with something right behind the last number or in a segment that starts with no number. -/
inductive IsKeyed : Bool → List Nat → List Segment → Prop where
  | final : IsKeyed true [] []
  | apart {key : Segment} (hkey : key.number = none) (more : List Segment) : IsKeyed false [] (key :: more)
  | behind (n : Nat) {suffix : List Char} (hsuffix : suffix ≠ []) (more : List Segment) :
      IsKeyed false [n] (⟨some n, suffix⟩ :: more)
  | cons (n : Nat) {final : Bool} {numbers : List Nat} {keys : List Segment} (h : IsKeyed final numbers keys) :
      IsKeyed final (n :: numbers) (.ofNumber n :: keys)

theorem toNat_lt_of_isSpellingChar {c : Char} (h : isSpellingChar c = true) : c.toNat < 0x80 := by
  simp only [isSpellingChar, Version.isSegmentChar, Version.isSeparator, Bool.or_eq_true, beq_iff_eq] at h
  rcases h with (halnum | (rfl | rfl) | rfl) | rfl
  · exact (Text.isAsciiAlnum_bounds halnum).2.trans_lt (by decide)
  all_goals decide

section Spelled

variable {text : List Char} (htext : ∀ c ∈ text, isSpellingChar c = true)

include htext

theorem headNot_isDecimal {rest : List Char} (h : HeadNot Text.isAsciiDigit (text ++ rest)) :
    HeadNot Text.isDecimal text := by
  cases text with
  | nil => exact Text.headNot_nil
  | cons c more =>
      have hdigit := Text.headNot_cons.mp h
      exact Text.headNot_cons.mpr (Text.isDecimal_of_ascii (toNat_lt_of_isSpellingChar (htext c (by simp))) hdigit)

theorem notMem_lineFeed : '\n' ∉ text := fun hmem => absurd (htext _ hmem) (by decide)

end Spelled

/-- By induction on the numerals: all but the last are segments of their own. -/
theorem isKeyed_splitOn {digits tail : List Char} {numerals : List (List Char)}
    (hnumerals : ∀ word ∈ digits :: numerals, IsNumeral word) (htail : EndsRelease tail)
    (hspelling : ∀ c ∈ tail, isSpellingChar c = true)
    (hreadable : ∀ segment ∈ Text.splitOn '.' (digits ++ numerals.flatMap ('.' :: ·) ++ tail),
      Segment.IsReadable segment) :
    IsKeyed tail.isEmpty ((digits :: numerals).map Version.numberOf)
      ((Text.splitOn '.' (digits ++ numerals.flatMap ('.' :: ·) ++ tail)).map Segment.ofText) := by
  induction numerals generalizing digits with
  | nil =>
      have hdigits := hnumerals digits (by simp)
      have hdot : '.' ∉ digits := fun hmem => absurd (hdigits.2 _ hmem) (by decide)
      obtain ⟨piece, pieces, hsplit⟩ := List.exists_cons_of_ne_nil (Text.splitOn_ne_nil '.' tail)
      have hjoin : tail = piece ++ pieces.flatMap ('.' :: ·) := Version.eq_of_splitOn_dot hsplit
      rw [List.flatMap_nil, List.append_nil, Text.splitOn_append_left hdot hsplit] at hreadable ⊢
      have hpiece : ∀ c ∈ piece, isSpellingChar c = true := fun c hc => hspelling c (by simp [hjoin, hc])
      have hstop : HeadNot Text.isDecimal piece := headNot_isDecimal hpiece (hjoin ▸ htail.1)
      have hfirst := Segment.ofText_append hdigits hstop (notMem_lineFeed hpiece) (hreadable _ (by simp))
      simp only [List.map_cons, hfirst, List.map_nil]
      by_cases hempty : piece = []
      · subst hempty
        cases pieces with
        | nil =>
            subst hjoin
            exact .cons _ .final
        | cons second others =>
            have hrest : tail = '.' :: (second ++ others.flatMap ('.' :: ·)) := by simpa using hjoin
            have hsecond : ∀ c ∈ second, isSpellingChar c = true := fun c hc => hspelling c (by simp [hrest, hc])
            have hapart : HeadNot Text.isDecimal second := headNot_isDecimal hsecond (htail.2 _ hrest)
            rw [hrest]
            refine .cons _ (.apart ?_ _)
            rw [Segment.ofText_of_headNot hapart (notMem_lineFeed hsecond)]
      · have hnotFinal : tail.isEmpty = false := by simp [hjoin, hempty]
        rw [hnotFinal]
        exact .behind _ hempty _
  | cons word more ih =>
      obtain ⟨hdigits, hmore⟩ := List.forall_mem_cons.mp hnumerals
      have hdot : '.' ∉ digits := fun hmem => absurd (hdigits.2 _ hmem) (by decide)
      have hwhole : digits ++ (word :: more).flatMap ('.' :: ·) ++ tail
          = digits ++ '.' :: (word ++ more.flatMap ('.' :: ·) ++ tail) := by simp
      rw [hwhole, Text.splitOn_append hdot] at hreadable ⊢
      obtain ⟨hfirst, hothers⟩ := List.forall_mem_cons.mp hreadable
      simp only [List.map_cons, Segment.ofText_numeral hdigits hfirst]
      exact .cons _ (ih hmore hothers)

/-! ### What decides -/

theorem Segment.cmp_of_number {a b : Segment} (h : compareNumbers a.number b.number = .lt) : a.cmp b = .lt := by
  rw [cmp, h]
  rfl

theorem Segment.cmp_of_suffix {n : Nat} {suffix : List Char} (h : suffix ≠ []) :
    cmp ⟨some n, suffix⟩ (ofNumber n) = .lt := by
  have hnumber : compareNumbers (some n) (some n) = .eq := Std.ReflCmp.compare_self
  have hsuffix : compareSuffixes suffix [] = .lt := by
    rw [compareSuffixes, if_neg h, if_neg (by simpa using h)]
    rfl
  rw [ofNumber, cmp, hnumber, hsuffix]
  rfl

/-- The first segment is the first number, or that number with something behind it, or it has no number. -/
theorem IsKeyed.head {final : Bool} {numbers : List Nat} {keys : List Segment} (h : IsKeyed final numbers keys) :
    (keys.headD .missing = .ofNumber (numbers.headD 0) ∧ IsKeyed final numbers.tail keys.tail) ∨
    (final = false ∧ numbers.tail = [] ∧
      ∃ suffix, suffix ≠ [] ∧ keys.headD .missing = ⟨some (numbers.headD 0), suffix⟩) ∨
    (final = false ∧ numbers = [] ∧ (keys.headD .missing).number = none) := by
  cases h with
  | final => exact .inl ⟨rfl, .final⟩
  | apart hkey more => exact .inr (.inr ⟨rfl, rfl, hkey⟩)
  | behind n hsuffix more => exact .inr (.inl ⟨rfl, rfl, _, hsuffix, rfl⟩)
  | cons n h => exact .inl ⟨rfl, h⟩

section Keyed

variable {final final' : Bool} {left right : List Nat} {keys keys' : List Segment} {count : Nat}

theorem IsKeyed.head_of_tail (h : IsKeyed final left keys) (htail : left.tail ≠ []) :
    keys.headD .missing = .ofNumber (left.headD 0) ∧ IsKeyed final left.tail keys.tail := by
  rcases h.head with hhead | ⟨-, hnone, -⟩ | ⟨-, rfl, -⟩
  · exact hhead
  · exact absurd hnone htail
  · exact absurd rfl htail

/-- **A lower release comes first**, whatever follows the two releases. -/
theorem IsKeyed.compareUpTo_of_lt (hleft : IsKeyed final left keys) (hright : IsKeyed final' right keys')
    (hkeys : keys.length ≤ count) (hkeys' : keys'.length ≤ count) (h : compareRelease left right = .lt) :
    compareUpTo count keys keys' = .lt := by
  induction count generalizing left right keys keys' with
  | zero =>
      obtain rfl := List.length_eq_zero_iff.mp (Nat.le_zero.mp hkeys')
      cases hright
      exact absurd h (Version.compareRelease_nil_ne_lt left)
  | succ count ih =>
      -- The higher release has a first number, or else it is no higher.
      have hnumber : (keys'.headD .missing).number = some (right.headD 0) := by
        rcases hright.head with ⟨hhead, -⟩ | ⟨-, -, suffix, -, hhead⟩ | ⟨-, rfl, -⟩
        · rw [hhead]
          rfl
        · rw [hhead]
        · exact absurd h (Version.compareRelease_nil_ne_lt left)
      rw [compareUpTo, Ordering.then_eq_lt]
      rw [Version.compareRelease_eq_then, Ordering.then_eq_lt] at h
      rcases hleft.head with ⟨hhead, hrest⟩ | ⟨-, -, suffix, hsuffix, hhead⟩ | ⟨-, -, hnone⟩
      · rcases h with hlt | ⟨heq, hlt⟩
        · refine .inl (Segment.cmp_of_number ?_)
          rw [hnumber, hhead]
          exact hlt
        · obtain ⟨hhead', hrest'⟩ := hright.head_of_tail fun hnil =>
            Version.compareRelease_nil_ne_lt left.tail (hnil ▸ hlt)
          refine .inr ⟨?_, ih hrest hrest' (length_tail_le hkeys) (length_tail_le hkeys') hlt⟩
          rw [hhead, hhead', Segment.cmp_ofNumber, heq]
      · refine .inl ?_
        rcases h with hlt | ⟨heq, hlt⟩
        · apply Segment.cmp_of_number
          rw [hnumber, hhead]
          exact hlt
        · obtain ⟨hhead', -⟩ := hright.head_of_tail fun hnil =>
            Version.compareRelease_nil_ne_lt left.tail (hnil ▸ hlt)
          rw [hhead, hhead', Nat.compare_eq_eq.mp heq]
          exact Segment.cmp_of_suffix hsuffix
      · refine .inl (Segment.cmp_of_number ?_)
        rw [hnumber, hnone]
        rfl

/-- **The final version comes last** of those with its release. -/
theorem IsKeyed.compareUpTo_of_final (hleft : IsKeyed false left keys) (hright : IsKeyed true right keys')
    (hkeys : keys.length ≤ count) (h : compareRelease left right = .eq) : compareUpTo count keys keys' = .lt := by
  induction count generalizing left right keys keys' with
  | zero =>
      obtain rfl := List.length_eq_zero_iff.mp (Nat.le_zero.mp hkeys)
      cases hleft
  | succ count ih =>
      obtain ⟨hhead', hrest'⟩ : keys'.headD .missing = .ofNumber (right.headD 0) ∧
          IsKeyed true right.tail keys'.tail := by
        simpa using hright.head
      rw [Version.compareRelease_eq_then, Ordering.then_eq_eq] at h
      obtain ⟨heq, hrest⟩ := h
      rw [compareUpTo, Ordering.then_eq_lt, hhead']
      rcases hleft.head with ⟨hhead, hleft⟩ | ⟨-, -, suffix, hsuffix, hhead⟩ | ⟨-, -, hnone⟩
      · refine .inr ⟨?_, ih hleft hrest' (length_tail_le hkeys) hrest⟩
        rw [hhead, Segment.cmp_ofNumber, heq]
      · refine .inl ?_
        rw [hhead, Nat.compare_eq_eq.mp heq]
        exact Segment.cmp_of_suffix hsuffix
      · refine .inl (Segment.cmp_of_number ?_)
        rw [hnone]
        rfl

end Keyed

/-! ### Version texts -/

section Texts

variable {a b : List Char} {v w : Version}

theorem isKeyed_keys (h : IsPublicSpelling a v) (hreadable : IsReadable a) (hunmarked : ¬ IsMarked a) :
    IsKeyed v.isFinal v.release (keys a) := by
  obtain ⟨digits, numerals, tail, htrim, hnumerals, hrelease, htail, hfinal⟩ := h.exists_numerals hunmarked
  have hspelling : ∀ c ∈ tail, isSpellingChar c = true := fun c hc =>
    Version.isSpellingChar_of_parse h.parse h.noLocal c (by simp [htrim, hc])
  have hempty : v.isFinal = tail.isEmpty := by
    rw [Bool.eq_iff_iff, List.isEmpty_iff, hfinal]
  rw [keys, segments, htrim, hrelease, hempty]
  refine isKeyed_splitOn hnumerals htail hspelling fun segment hsegment => hreadable segment ?_
  rwa [segments, htrim]

theorem order_of_isMarked (ha : IsPublicSpelling a v) (hmarked : IsMarked a) (hb : IsPublicSpelling b w)
    (hreadable : IsReadable b) (hunmarked : ¬ IsMarked b) : order a b = .lt := by
  obtain ⟨piece, pieces, hsegments⟩ : ∃ piece pieces, segments a = piece :: pieces :=
    List.exists_cons_of_ne_nil (Text.splitOn_ne_nil '.' _)
  have htrim : Text.trim a = piece ++ pieces.flatMap ('.' :: ·) := Version.eq_of_splitOn_dot hsegments
  have hpiece : ∀ c ∈ piece, isSpellingChar c = true := fun c hc =>
    Version.isSpellingChar_of_parse ha.parse ha.noLocal c (by simp [htrim, hc])
  have hhead : HeadNot Text.isAsciiDigit (Text.trim a) := by
    apply Version.headNot_of_asciiLower
    intro c hc
    cases hc.symm.trans hmarked
    decide
  have hnone : ((keys a).headD .missing).number = none := by
    rw [keys, hsegments, List.map_cons, List.headD_cons,
      Segment.ofText_of_headNot (headNot_isDecimal hpiece (htrim ▸ hhead)) (notMem_lineFeed hpiece)]
  have hsome : ((keys b).headD .missing).number = some w.major := by
    rcases (isKeyed_keys hb hreadable hunmarked).head with ⟨hkey, -⟩ | ⟨-, -, suffix, -, hkey⟩ | ⟨-, hnil, -⟩
    · rw [hkey]
      rfl
    · rw [hkey]
      rfl
    · cases hnil
  obtain ⟨count, hcount⟩ : ∃ count, max (segments a).length (segments b).length = count + 1 :=
    Nat.exists_eq_succ_of_ne_zero (by rw [hsegments, List.length_cons]; omega)
  have horder : order a b = compareUpTo (count + 1) (keys a) (keys b) := hcount ▸ rfl
  rw [horder, compareUpTo, Segment.cmp_of_number]
  · rfl
  · rw [hnone, hsome]
    rfl

/-- **Where the standard ranks higher** than the natural order does, a letter stands before the version, or the
release is the same. In the latter case it is no final version that the standard ranks higher, and one that it ranks
above the final version is a post-release. -/
theorem isMarked_or_of_lt (ha : IsPublicSpelling a v) (hb : IsPublicSpelling b w) (hreadable : IsReadable a)
    (hreadable' : IsReadable b) (horder : order a b ≠ .lt) (hlt : v < w) : IsMarked b ∨
      (v.base.same w.base = true ∧ w.isFinal = false ∧
        (v.isFinal = true → w.pre = none ∧ w.isPostrelease = true)) := by
  by_cases hmarked' : IsMarked b
  · exact .inl hmarked'
  have hmarked : ¬ IsMarked a := fun hmarked => horder (order_of_isMarked ha hmarked hb hreadable' hmarked')
  have hkeys := isKeyed_keys ha hreadable hmarked
  have hkeys' := isKeyed_keys hb hreadable' hmarked'
  have hlength : (keys a).length ≤ max (segments a).length (segments b).length :=
    (length_keys a).le.trans (Nat.le_max_left ..)
  have hlength' : (keys b).length ≤ max (segments a).length (segments b).length :=
    (length_keys b).le.trans (Nat.le_max_right ..)
  have hbase : v.compareBase w = compareRelease v.release w.release := by
    rw [Version.compareBase, ha.epoch_eq_zero, hb.epoch_eq_zero, Std.compare_self]
    rfl
  have hcompare : v.compare w = .lt := hlt
  rw [Version.compare_eq_then, Ordering.then_eq_lt, hbase] at hcompare
  rcases hcompare with hrelease | ⟨hrelease, hrest⟩
  · exact absurd (hkeys.compareUpTo_of_lt hkeys' hlength hlength' hrelease) horder
  have hlocal : Ord.compare v.localKey w.localKey = .eq := by
    rw [Version.localKey, Version.localKey, ha.noLocal, hb.noLocal]
    exact Std.compare_self
  rw [hlocal, Ordering.then_eq] at hrest
  refine .inr ⟨?_, ?_, ?_⟩
  · rw [Version.same, Version.compare_base_base, hbase, hrelease]
    rfl
  · by_contra hfinal
    have hfinal : w.isFinal = true := by simpa using hfinal
    cases hopen : v.isFinal with
    | true =>
        have hpost := (Version.isPostrelease_of_lt hopen hrest).2
        simp [Version.isFinal, hpost] at hfinal
    | false =>
        rw [hopen] at hkeys
        rw [hfinal] at hkeys'
        exact horder (hkeys.compareUpTo_of_final hkeys' hlength hrelease)
  · intro hfinal
    exact Version.isPostrelease_of_lt hfinal hrest

end Texts

end NaturalVersion

end ManifestLens
