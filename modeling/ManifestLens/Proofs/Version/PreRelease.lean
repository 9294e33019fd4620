import ManifestLens.Proofs.Version.PublicSpelling
import ManifestLens.Version.Natural

/-!
# Texts that are marked as pre-releases

A version text is searched for a digit with a label behind it. Behind the digits of an epoch stands a mark, and behind
a number of the release that is not the last one a dot and a digit, so the search comes to what stands behind the whole
release and, past a post-release, behind the number that this carries. In both places the search and the reader of
versions look for the same thing: both pass over one separator, and where one of them finds a long label the other
finds the short one that it starts with.
-/

namespace ManifestLens

open Text (HeadNot IsBlankRun)

namespace Version

/-! ### Where a version text is searched -/

/-- What follows the release in a version text. -/
def behindRelease (text : List Char) : List Char :=
  (readRelease 0 [] (readEpoch (withoutMark (Text.asciiLower (Text.trim text)))).2).2

/-- The post-release segment at the start of a text as it is written, or nothing. -/
def postText (text : List Char) : List Char := text.take (text.length - (readPost text).2.length)

/-- The post-release segment at the start of a text carries a number, if there is one: it ends with a digit. -/
def postNumbered (text : List Char) : Bool := (postText text).getLast?.all Text.isAsciiDigit

/-- The post-release segment of a version text carries a number, if there is one. -/
def numbersPost (text : List Char) : Bool := postNumbered (readPre (behindRelease text)).2

/-! ### Segments as they are written -/

/-- A segment is read off a text: characters that are no digits, then the digits of its number. -/
structure ReadsSegment (text front digits rest : List Char) : Prop where
  eq : text = front ++ (digits ++ rest)
  front_ne_nil : front ≠ []
  front_plain : ∀ c ∈ front, Text.isDecimal c = false
  digits_ascii : ∀ c ∈ digits, Text.isAsciiDigit c = true

variable {text rest : List Char}

theorem isSeparator_iff {c : Char} : isSeparator c = true ↔ c = '.' ∨ c = '_' ∨ c = '-' := by
  simp only [isSeparator, Bool.or_eq_true, beq_iff_eq, or_assoc]

theorem exists_skipSeparator (text : List Char) :
    ∃ separator, text = separator ++ skipSeparator text ∧ ∀ c ∈ separator, Text.isDecimal c = false := by
  cases text with
  | nil => exact ⟨[], rfl, by simp⟩
  | cons c more =>
      by_cases hc : isSeparator c = true
      · refine ⟨[c], by rw [skipSeparator, if_pos hc]; rfl, ?_⟩
        rcases isSeparator_iff.mp hc with rfl | rfl | rfl <;> decide
      · exact ⟨[], by rw [skipSeparator, if_neg hc]; rfl, by simp⟩

theorem isSome_labelled? {α : Type} (labels : List (List Char × α)) (text : List Char) :
    (labelled? labels text).isSome = labels.any fun label => label.1.isPrefixOf (skipSeparator text) := by
  rw [labelled?, Option.isSome_map, List.isSome_find?]

theorem readsSegment_of_labelled {α : Type} {labels : List (List Char × α)} {meaning : α} {n : Nat}
    (hlabels : ∀ label ∈ labels, label.1 ≠ [] ∧ ∀ c ∈ label.1, Text.isDecimal c = false)
    (h : labelled? labels text = some (meaning, n, rest)) : ∃ front digits, ReadsSegment text front digits rest := by
  simp only [labelled?, Option.map_eq_some_iff, Prod.mk.injEq] at h
  obtain ⟨⟨label, given⟩, hfind, -, -, hrest⟩ := h
  obtain ⟨hne, hplain⟩ := hlabels _ (List.mem_of_find?_eq_some hfind)
  obtain ⟨more, hmore⟩ : label <+: skipSeparator text := by
    rw [← List.isPrefixOf_iff_prefix]
    simpa using List.find?_some hfind
  obtain ⟨left, htext, hleft⟩ := exists_skipSeparator text
  obtain ⟨right, hright, hrightPlain⟩ := exists_skipSeparator more
  rw [← hmore, List.drop_left, digitRun_eq] at hrest
  refine ⟨left ++ label ++ right, (skipSeparator more).takeWhile Text.isAsciiDigit, ?_, ?_, ?_, ?_⟩
  · calc text = left ++ (label ++ (right ++ skipSeparator more)) := by rw [← hright, hmore, ← htext]
      _ = left ++ label ++ right ++ (_ ++ rest) := by
          rw [← hrest, List.takeWhile_append_dropWhile]
          simp only [List.append_assoc]
  · simp [hne]
  · intro c hc
    rcases List.mem_append.mp hc with hc | hc
    · rcases List.mem_append.mp hc with hc | hc
      · exact hleft c hc
      · exact hplain c hc
    · exact hrightPlain c hc
  · intro c hc
    exact List.all_eq_true.mp (List.all_takeWhile ..) c hc

theorem isSome_readPre (text : List Char) : (readPre text).1.isSome = (labelled? preLabels text).isSome := by
  unfold readPre
  split <;> simp [*]

theorem isSome_readDev (text : List Char) : (readDev text).1.isSome = (labelled? [("dev".toList, ())] text).isSome := by
  unfold readDev
  split <;> simp only [*, Option.isSome_some, Option.isSome_none]

theorem readsSegment_of_readDev (h : (readDev text).1.isSome = true) :
    ∃ front digits, ReadsSegment text front digits (readDev text).2 := by
  unfold readDev at h ⊢
  split at h
  · next n rest hlabelled => exact readsSegment_of_labelled (by decide) hlabelled
  · cases h

theorem readPost_cases (h : (readPost text).1.isSome = true) :
    (∃ digits, IsNumeral digits ∧ text = '-' :: (digits ++ (readPost text).2)) ∨
      ∃ n, labelled? postLabels text = some ((), n, (readPost text).2) := by
  simp only [readPost] at h ⊢
  split at h
  · next n rest _ hnumbered =>
      left
      split at hnumbered
      · next body =>
          split at hnumbered
          · cases hnumbered
          · next digits more hne hdigits =>
              cases hnumbered
              rw [digitRun_eq, Prod.mk.injEq] at hdigits
              obtain ⟨rfl, rfl⟩ := hdigits
              refine ⟨_, ⟨hne, fun c hc => ?_⟩, congrArg ('-' :: ·) List.takeWhile_append_dropWhile.symm⟩
              exact List.all_eq_true.mp (List.all_takeWhile ..) c hc
      · cases hnumbered
  · next hlabelled => exact .inr ⟨_, hlabelled⟩
  · cases h

theorem readsSegment_of_readPost (h : (readPost text).1.isSome = true) :
    ∃ front digits, ReadsSegment text front digits (readPost text).2 := by
  rcases readPost_cases h with ⟨digits, hdigits, htext⟩ | ⟨n, hlabelled⟩
  · exact ⟨['-'], digits, htext, List.cons_ne_nil _ _, by decide, hdigits.2⟩
  · exact readsSegment_of_labelled (by decide) hlabelled

theorem head?_of_isPrefixOf {label : List Char} (hne : label ≠ []) (h : label.isPrefixOf text = true) :
    text.head? = label.head? := by
  obtain ⟨rest, rfl⟩ := List.isPrefixOf_iff_prefix.mp h
  exact List.head?_append_of_ne_nil _ hne

theorem any_isPrefixOf_eq_false {labels : List (List Char)}
    (hlabels : ∀ label ∈ labels, label.head?.any Text.isAsciiLetter = true) (h : HeadNot Text.isAsciiLetter text) :
    (labels.any fun label => label.isPrefixOf text) = false := by
  rw [List.any_eq_false]
  intro label hlabel hprefix
  obtain ⟨c, hhead, hletter⟩ := (Option.any_eq_true ..).mp (hlabels label hlabel)
  have hne : label ≠ [] := by
    rintro rfl
    cases hhead
  have hnot := h c ((head?_of_isPrefixOf hne hprefix).trans hhead)
  rw [hletter] at hnot
  cases hnot

theorem headNot_of_isAsciiDigit {c : Char} (h : Text.isAsciiDigit c = true) (rest : List Char) :
    HeadNot Text.isAsciiLetter (c :: rest) := by
  rw [Text.headNot_cons]
  obtain ⟨-, hhigh⟩ := Text.isAsciiDigit_iff.mp h
  simp only [Text.isAsciiLetter, Bool.or_eq_false_iff, Bool.and_eq_false_iff, decide_eq_false_iff_not, Char.le_def,
    UInt32.le_iff_toNat_le]
  refine ⟨.inl ?_, .inl ?_⟩
  · exact fun hlow => absurd (hlow.trans hhigh) (by decide)
  · exact fun hlow => absurd (hlow.trans hhigh) (by decide)

theorem headNot_of_isNumeral {digits : List Char} (h : IsNumeral digits) (rest : List Char) :
    HeadNot Text.isAsciiLetter (digits ++ rest) := by
  obtain ⟨first, more, rfl⟩ := List.exists_cons_of_ne_nil h.1
  exact headNot_of_isAsciiDigit (h.2 first List.mem_cons_self) _

theorem readDev_of_readPost (h : (readPost text).1.isSome = true) : (readDev text).1.isSome = false := by
  rw [isSome_readDev, isSome_labelled?]
  rcases readPost_cases h with ⟨digits, hdigits, htext⟩ | ⟨n, hlabelled⟩
  · have hlabels : ∀ label ∈ ["dev".toList], label.head?.any Text.isAsciiLetter = true := by decide
    rw [htext]
    exact any_isPrefixOf_eq_false hlabels (headNot_of_isNumeral hdigits _)
  · have hpost := Option.isSome_of_eq_some hlabelled
    rw [isSome_labelled?, List.any_eq_true] at hpost
    obtain ⟨label, hlabel, hprefix⟩ := hpost
    have hlabels : ∀ label ∈ postLabels, label.1 ≠ [] ∧ label.1.head? ≠ some 'd' := by decide
    obtain ⟨hne, hhead⟩ := hlabels label hlabel
    rw [List.any_eq_false]
    intro dev hdev hdevPrefix
    obtain rfl := List.mem_singleton.mp hdev
    apply hhead
    rw [← head?_of_isPrefixOf hne hprefix]
    exact head?_of_isPrefixOf (by decide) hdevPrefix

theorem postNumbered_of_none (h : (readPost text).1 = none) : postNumbered text = true := by
  rw [postNumbered, postText, readPost_of_none h, Nat.sub_self]
  rfl

theorem postNumbered_iff {front digits : List Char} (h : ReadsSegment text front digits (readPost text).2) :
    postNumbered text = true ↔ digits ≠ [] := by
  have hpost : postText text = front ++ digits := by
    have hlength : text.length - (readPost text).2.length = (front ++ digits).length := by
      have hlengths := congrArg List.length h.eq
      simp only [List.length_append] at hlengths ⊢
      omega
    rw [postText, hlength, h.eq, ← List.append_assoc]
    exact List.take_left
  rw [postNumbered, hpost]
  cases digits using List.reverseRecOn with
  | nil =>
      have hlast := List.getLast_mem h.front_ne_nil
      have hnot : Text.isAsciiDigit (front.getLast h.front_ne_nil) = false := by
        by_contra hdigit
        have hdecimal := Text.isDecimal_of_isAsciiDigit (by simpa using hdigit)
        rw [h.front_plain _ hlast] at hdecimal
        cases hdecimal
      simp [List.getLast?_eq_some_getLast h.front_ne_nil, hnot]
  | append_singleton more last =>
      have hlast := h.digits_ascii last (by simp)
      simp [← List.append_assoc, hlast]

end Version

namespace NaturalVersion

open Version (IsNumeral skipSeparator isSeparator readPre readPost readDev behindRelease numbersPost)

variable {text rest : List Char}

/-! ### Labels -/

theorem isAsciiLetter_of_isSeparator {c : Char} (h : isSeparator c = true) : Text.isAsciiLetter c = false := by
  rcases Version.isSeparator_iff.mp h with rfl | rfl | rfl <;> decide

/-- The search looks for a label where the reader of versions does, behind one separator. -/
theorem startsPreLabel_eq (text : List Char) :
    startsPreLabel text = preLabels.any fun label => label.isPrefixOf (skipSeparator text) := by
  cases text with
  | nil => rfl
  | cons c rest =>
      have hseparator : (c == '.' || c == '-' || c == '_') = isSeparator c := Bool.or_right_comm ..
      simp only [startsPreLabel, hseparator, skipSeparator]
      by_cases hc : isSeparator c = true
      · have hnone : (preLabels.any fun label => label.isPrefixOf (c :: rest)) = false :=
          Version.any_isPrefixOf_eq_false (by decide) (Text.headNot_cons.mpr (isAsciiLetter_of_isSeparator hc))
        rw [hnone, if_pos hc, hc, Bool.false_or, Bool.true_and]
      · rw [if_neg hc, Bool.eq_false_iff.mpr hc, Bool.false_and, Bool.or_false]

theorem startsPreLabel_of_headNot (h : HeadNot Text.isAsciiLetter (skipSeparator text)) :
    startsPreLabel text = false := by
  rw [startsPreLabel_eq]
  exact Version.any_isPrefixOf_eq_false (by decide) h

/-- **A label is found** just where the reader of versions finds a pre-release or a development release. -/
theorem startsPreLabel_iff : startsPreLabel text = true
    ↔ (readPre text).1.isSome = true ∨ (readDev text).1.isSome = true := by
  rw [startsPreLabel_eq, Version.isSome_readPre, Version.isSome_readDev, Version.isSome_labelled?,
    Version.isSome_labelled?]
  simp only [List.any_eq_true, List.isPrefixOf_iff_prefix]
  constructor
  · rintro ⟨label, hlabel, hprefix⟩
    have hread : ∀ label ∈ preLabels, label ∈ Version.preLabels.map Prod.fst ∨ label = "dev".toList := by decide
    rcases hread label hlabel with hpre | rfl
    · obtain ⟨stage, hstage, rfl⟩ := List.mem_map.mp hpre
      exact .inl ⟨stage, hstage, hprefix⟩
    · exact .inr ⟨_, List.mem_singleton.mpr rfl, hprefix⟩
  · rintro (⟨stage, hstage, hprefix⟩ | ⟨dev, hdev, hprefix⟩)
    · have hshort : ∀ stage ∈ Version.preLabels, ∃ label ∈ preLabels, label <+: stage.1 := by decide
      obtain ⟨label, hlabel, hstart⟩ := hshort stage hstage
      exact ⟨label, hlabel, hstart.trans hprefix⟩
    · obtain rfl := List.mem_singleton.mp hdev
      exact ⟨_, by decide, hprefix⟩

/-! ### Searching -/

theorem marksPreRelease_skip {run : List Char} (h : ∀ c ∈ run, Text.isDecimal c = false) (rest : List Char) :
    marksPreRelease (run ++ rest) = marksPreRelease rest := by
  induction run with
  | nil => rfl
  | cons c more ih =>
      obtain ⟨hc, hmore⟩ := List.forall_mem_cons.mp h
      rw [List.cons_append, marksPreRelease, hc, Bool.false_and, Bool.false_or, ih hmore]

theorem skipSeparator_of_isAsciiDigit {c : Char} (h : Text.isAsciiDigit c = true) (rest : List Char) :
    skipSeparator (c :: rest) = c :: rest := by
  have hc : isSeparator c = false := by
    rw [Bool.eq_false_iff]
    intro hseparator
    rcases Version.isSeparator_iff.mp hseparator with rfl | rfl | rfl <;> exact absurd h (by decide)
  rw [skipSeparator, if_neg (by simp [hc])]

theorem startsPreLabel_digit {c : Char} (h : Text.isAsciiDigit c = true) (rest : List Char) :
    startsPreLabel (c :: rest) = false := by
  apply startsPreLabel_of_headNot
  rw [skipSeparator_of_isAsciiDigit h]
  exact Version.headNot_of_isAsciiDigit h rest

theorem marksPreRelease_numeral {digits : List Char} (h : IsNumeral digits) (rest : List Char) :
    marksPreRelease (digits ++ rest) = (startsPreLabel rest || marksPreRelease rest) := by
  obtain ⟨hne, hdigits⟩ := h
  induction digits with
  | nil => exact absurd rfl hne
  | cons c more ih =>
      obtain ⟨hc, hmore⟩ := List.forall_mem_cons.mp hdigits
      rw [List.cons_append, marksPreRelease, Text.isDecimal_of_isAsciiDigit hc, Bool.true_and]
      cases more with
      | nil => rfl
      | cons d others =>
          rw [List.cons_append, startsPreLabel_digit (hmore d List.mem_cons_self), Bool.false_or]
          exact ih (List.cons_ne_nil _ _) hmore

theorem marksPreRelease_numerals {digits : List Char} {numerals : List (List Char)}
    (h : ∀ word ∈ digits :: numerals, IsNumeral word) (rest : List Char) :
    marksPreRelease (digits ++ numerals.flatMap ('.' :: ·) ++ rest)
      = (startsPreLabel rest || marksPreRelease rest) := by
  induction numerals generalizing digits with
  | nil =>
      rw [List.flatMap_nil, List.append_nil]
      exact marksPreRelease_numeral (h digits (by simp)) rest
  | cons word more ih =>
      obtain ⟨hdigits, hmore⟩ := List.forall_mem_cons.mp h
      have hstart : startsPreLabel ('.' :: (word ++ more.flatMap ('.' :: ·) ++ rest)) = false := by
        apply startsPreLabel_of_headNot
        rw [skipSeparator, if_pos (by decide), List.append_assoc]
        exact Version.headNot_of_isNumeral (hmore word List.mem_cons_self) _
      calc marksPreRelease (digits ++ (word :: more).flatMap ('.' :: ·) ++ rest)
          = marksPreRelease (digits ++ '.' :: (word ++ more.flatMap ('.' :: ·) ++ rest)) := by simp
        _ = marksPreRelease (['.'] ++ (word ++ more.flatMap ('.' :: ·) ++ rest)) := by
            rw [marksPreRelease_numeral hdigits, hstart, Bool.false_or]
            rfl
        _ = (startsPreLabel rest || marksPreRelease rest) := by rw [marksPreRelease_skip (by decide), ih hmore]

/-! ### Behind the release -/

theorem marksPreRelease_segment {front digits : List Char} (h : Version.ReadsSegment text front digits rest) :
    marksPreRelease text = true ↔ digits ≠ [] ∧ startsPreLabel rest = true ∨ marksPreRelease rest = true := by
  rw [h.eq, marksPreRelease_skip h.front_plain]
  by_cases hne : digits = []
  · simp [hne]
  · rw [marksPreRelease_numeral ⟨hne, h.digits_ascii⟩]
    simp [hne]

section Behind

variable (hend : (readDev text).2 = [])

include hend

theorem marksPreRelease_of_end : marksPreRelease text = false := by
  cases hdev : (readDev text).1 with
  | none =>
      rw [← Version.readDev_of_none hdev, hend]
      rfl
  | some n =>
      obtain ⟨front, digits, hsegment⟩ := Version.readsSegment_of_readDev (Option.isSome_of_eq_some hdev)
      rw [hend] at hsegment
      rw [Bool.eq_false_iff, Ne, marksPreRelease_segment hsegment]
      rintro (⟨-, hlabel⟩ | hmark)
      · cases hlabel
      · cases hmark

theorem startsPreLabel_of_end : startsPreLabel text = true ↔ (readDev text).1.isSome = true := by
  rw [startsPreLabel_iff]
  refine ⟨?_, .inr⟩
  rintro (hpre | hdev)
  · by_contra hdev
    have hnone : (readDev text).1 = none := by simpa using hdev
    rw [← Version.readDev_of_none hnone, hend] at hpre
    cases hpre
  · exact hdev

end Behind

/-- Past a post-release a development release is found just if the post-release carries a number. -/
theorem marksPreRelease_behindPre (hpre : (readPre text).1 = none) (hend : (readDev (readPost text).2).2 = []) :
    (startsPreLabel text || marksPreRelease text) = true
      ↔ (readDev (readPost text).2).1.isSome = true ∧ Version.postNumbered text = true := by
  rw [Bool.or_eq_true]
  cases hpost : (readPost text).1 with
  | none =>
      rw [Version.readPost_of_none hpost] at hend ⊢
      rw [startsPreLabel_of_end hend, marksPreRelease_of_end hend, Version.postNumbered_of_none hpost]
      simp
  | some n =>
      have hsome := Option.isSome_of_eq_some hpost
      obtain ⟨front, digits, hsegment⟩ := Version.readsSegment_of_readPost hsome
      have hnone : startsPreLabel text = false := by
        rw [Bool.eq_false_iff, Ne, startsPreLabel_iff, hpre, Version.readDev_of_readPost hsome]
        simp
      rw [hnone, marksPreRelease_segment hsegment, marksPreRelease_of_end hend, startsPreLabel_of_end hend,
        Version.postNumbered_iff hsegment]
      simp [and_comm]

theorem marksPreRelease_behindRelease (hend : (readDev (readPost (readPre text).2).2).2 = []) :
    (startsPreLabel text || marksPreRelease text) = true ↔ (readPre text).1.isSome = true ∨
      (readDev (readPost (readPre text).2).2).1.isSome = true ∧ Version.postNumbered (readPre text).2 = true := by
  cases hpre : (readPre text).1 with
  | none =>
      rw [Version.readPre_of_none hpre] at hend ⊢
      rw [marksPreRelease_behindPre hpre hend]
      simp
  | some stage =>
      have hlabel : startsPreLabel text = true := by
        rw [startsPreLabel_iff, hpre]
        exact .inl rfl
      rw [hlabel]
      simp

/-! ### Margins -/

section Margins

variable {trail : List Char} (htrail : IsBlankRun trail)

include htrail

theorem isPrefixOf_append_blanks {label : List Char} (hlabel : ∀ c ∈ label, Text.isBlank c = false)
    (text : List Char) : label.isPrefixOf (text ++ trail) = label.isPrefixOf text := by
  rw [Bool.eq_iff_iff, List.isPrefixOf_iff_prefix, List.isPrefixOf_iff_prefix]
  constructor
  · intro hprefix
    rcases List.prefix_or_prefix_of_prefix hprefix (List.prefix_append text trail) with hshort | ⟨more, rfl⟩
    · exact hshort
    · have hmore : more <+: trail := (List.prefix_append_right_inj text).mp hprefix
      have hempty : more = [] := by
        rw [List.eq_nil_iff_forall_not_mem]
        intro c hc
        exact htrail.notMem (hlabel c (by simp [hc])) (hmore.subset hc)
      rw [hempty, List.append_nil]
  · intro hprefix
    exact hprefix.trans (List.prefix_append text trail)

theorem skipSeparator_append_blanks (text : List Char) :
    skipSeparator (text ++ trail) = skipSeparator text ++ trail := by
  cases text with
  | nil =>
      cases trail with
      | nil => rfl
      | cons c rest =>
          have hc : isSeparator c = false := by
            have hblank := htrail c List.mem_cons_self
            rw [Bool.eq_false_iff]
            intro hseparator
            rcases Version.isSeparator_iff.mp hseparator with rfl | rfl | rfl <;> exact absurd hblank (by decide)
          simp [skipSeparator, hc]
  | cons c rest =>
      rw [List.cons_append, skipSeparator, skipSeparator]
      split <;> rfl

theorem startsPreLabel_append_blanks (text : List Char) :
    startsPreLabel (text ++ trail) = startsPreLabel text := by
  rw [startsPreLabel_eq, startsPreLabel_eq, skipSeparator_append_blanks htrail]
  have hlabels : ∀ label ∈ preLabels, ∀ c ∈ label, Text.isBlank c = false := by decide
  rw [Bool.eq_iff_iff, List.any_eq_true, List.any_eq_true]
  apply exists_congr
  intro label
  apply and_congr_right
  intro hlabel
  rw [isPrefixOf_append_blanks htrail (hlabels label hlabel)]

theorem marksPreRelease_append_blanks (text : List Char) :
    marksPreRelease (text ++ trail) = marksPreRelease text := by
  induction text with
  | nil =>
      have hskip := marksPreRelease_skip (fun c hc => Text.isDecimal_of_isBlank (htrail c hc)) []
      rwa [List.append_nil] at hskip
  | cons c rest ih =>
      rw [List.cons_append, marksPreRelease, marksPreRelease, startsPreLabel_append_blanks htrail, ih]

end Margins

theorem asciiLower_of_isBlankRun {run : List Char} (h : IsBlankRun run) : Text.asciiLower run = run := by
  refine (List.map_congr_left fun c hc => ?_).trans (List.map_id _)
  exact Text.forall_isBlank (p := fun c => Text.asciiLowerChar c = c) (by decide) (h c hc)

theorem isPreRelease_trim (text : List Char) : isPreRelease (Text.trim text) = isPreRelease text := by
  obtain ⟨lead, trail, htext, hlead, htrail, -⟩ := Text.exists_margins text
  have hlower : Text.asciiLower text = lead ++ (Text.asciiLower (Text.trim text) ++ trail) := by
    calc Text.asciiLower text = Text.asciiLower (lead ++ Text.trim text ++ trail) := by rw [← htext]
      _ = Text.asciiLower lead ++ (Text.asciiLower (Text.trim text) ++ Text.asciiLower trail) := by
          simp only [Text.asciiLower, List.map_append, List.append_assoc]
      _ = lead ++ (Text.asciiLower (Text.trim text) ++ trail) := by
          rw [asciiLower_of_isBlankRun hlead, asciiLower_of_isBlankRun htrail]
  rw [isPreRelease, isPreRelease, hlower, marksPreRelease_skip fun c hc => Text.isDecimal_of_isBlank (hlead c hc),
    marksPreRelease_append_blanks htrail]

/-! ### Version texts -/

theorem marksPreRelease_epoch {number : Nat} {epoch : List Char} (h : Version.IsEpoch number epoch)
    (rest : List Char) : marksPreRelease (epoch ++ rest) = marksPreRelease rest := by
  cases h with
  | unwritten => rfl
  | @written digits hdigits hne =>
      have hmark : startsPreLabel ('!' :: rest) = false :=
        startsPreLabel_of_headNot (Text.headNot_cons.mpr (by decide))
      calc marksPreRelease (digits ++ ['!'] ++ rest) = marksPreRelease (digits ++ '!' :: rest) := by simp
        _ = marksPreRelease (['!'] ++ rest) := by
            rw [marksPreRelease_numeral ⟨hne, hdigits⟩, hmark, Bool.false_or]
            rfl
        _ = marksPreRelease rest := marksPreRelease_skip (by decide) rest

section Parsed

variable {v : Version} (h : Version.parse? text = some v) (hlocal : v.localParts = [])

include h hlocal

/-- **The mark of a pre-release.** A version text without local segment is marked just if it has a pre-release segment,
or a development segment that no post-release without number stands before. -/
theorem isPreRelease_iff_of_parse : isPreRelease text = true
    ↔ v.pre.isSome = true ∨ v.dev.isSome = true ∧ numbersPost text = true := by
  let body := Version.withoutMark (Text.asciiLower (Text.trim text))
  obtain ⟨mark, hmark, hlower⟩ := Version.exists_mark (Text.asciiLower (Text.trim text))
  obtain ⟨epoch, hepochText, hepoch⟩ := Version.isEpoch_readEpoch body
  have hparse : Version.afterEpoch? (Version.readEpoch body).1 (Version.readEpoch body).2 = some v := h
  obtain ⟨digits, numerals, tail, hbody, hall, -, hbehind, -, hsegments⟩ :=
    Version.exists_of_afterEpoch?_numerals hparse hlocal
  have hmarkPlain : ∀ c ∈ mark, Text.isDecimal c = false := by
    rcases hmark with rfl | rfl <;> decide
  have hmarks : isPreRelease text = (startsPreLabel tail || marksPreRelease tail) := by
    calc isPreRelease text = marksPreRelease (Text.asciiLower (Text.trim text)) := (isPreRelease_trim text).symm
      _ = marksPreRelease (mark ++ (epoch ++ (digits ++ numerals.flatMap ('.' :: ·) ++ tail))) := by
          rw [hlower, ← hbody, ← hepochText]
      _ = marksPreRelease (digits ++ numerals.flatMap ('.' :: ·) ++ tail) := by
          rw [marksPreRelease_skip hmarkPlain, marksPreRelease_epoch hepoch]
      _ = (startsPreLabel tail || marksPreRelease tail) := marksPreRelease_numerals hall tail
  have hnumbers : numbersPost text = Version.postNumbered (readPre tail).2 := by
    rw [numbersPost, ← hbehind]
    rfl
  rw [hmarks, marksPreRelease_behindRelease hsegments.rest, hsegments.pre, hsegments.dev, hnumbers]

end Parsed

end NaturalVersion

end ManifestLens
