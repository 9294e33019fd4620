import ManifestLens.Proofs.Version.Release

/-!
# Versions without epoch and local segment

The release is written first, unless a letter stands before it: numerals with dots between them. Nothing follows them
just if the version is final, and otherwise what follows does not go on as a number.
-/

namespace ManifestLens

open Text (HeadNot)

namespace Version

/-! ### The text behind the release -/

/-- What may follow a release: no digit, and no dot before a digit. -/
def EndsRelease (tail : List Char) : Prop :=
  HeadNot Text.isAsciiDigit tail ∧ ∀ rest, tail = '.' :: rest → HeadNot Text.isAsciiDigit rest

/-- The release is the digits that end the number so far, and numerals behind dots. -/
theorem exists_of_readRelease (current : Nat) (reversed : List Nat) (text : List Char) :
    ∃ (digits : List Char) (numerals : List (List Char)),
      text = digits ++ numerals.flatMap ('.' :: ·) ++ (readRelease current reversed text).2 ∧
      (∀ c ∈ digits, Text.isAsciiDigit c = true) ∧ (∀ word ∈ numerals, IsNumeral word) ∧
      EndsRelease (readRelease current reversed text).2 ∧
      (readRelease current reversed text).1 = reversed.reverse
        ++ digits.foldl (fun n c => n * 10 + (c.toNat - '0'.toNat)) current :: numerals.map numberOf := by
  fun_induction readRelease current reversed text with
  | case1 current reversed c rest hdigit ih =>
      obtain ⟨digits, numerals, htext, hdigits, hnumerals, htail, hrelease⟩ := ih
      have hnumeral : IsNumeral (c :: digits) := ⟨List.cons_ne_nil _ _, List.forall_mem_cons.mpr ⟨hdigit, hdigits⟩⟩
      refine ⟨[], (c :: digits) :: numerals, ?_, by simp, ?_, htail, ?_⟩
      · rw [List.flatMap_cons, List.nil_append, List.append_assoc, List.cons_append, List.cons_append,
          ← List.append_assoc, ← htext]
      · exact List.forall_mem_cons.mpr ⟨hnumeral, hnumerals⟩
      · rw [hrelease, List.map_cons, numberOf_cons]
        simp
  | case2 current reversed c rest hdigit =>
      refine ⟨[], [], rfl, by simp, by simp, ⟨Text.headNot_cons.mpr (by decide), ?_⟩, by simp⟩
      rintro _ ⟨⟩
      exact Text.headNot_cons.mpr (by simpa using hdigit)
  | case3 current reversed c rest _ hdigit ih =>
      obtain ⟨digits, numerals, htext, hdigits, hnumerals, htail, hrelease⟩ := ih
      refine ⟨c :: digits, numerals, ?_, List.forall_mem_cons.mpr ⟨hdigit, hdigits⟩, hnumerals, htail, hrelease⟩
      rw [List.cons_append, List.cons_append, ← htext]
  | case4 current reversed c rest hdot hdigit =>
      refine ⟨[], [], rfl, by simp, by simp, ⟨Text.headNot_cons.mpr (by simpa using hdigit), ?_⟩, by simp⟩
      rintro rest ⟨⟩
      cases rest with
      | nil => exact Text.headNot_nil
      | cons d more => exact (hdot d more rfl rfl).elim
  | case5 current reversed =>
      refine ⟨[], [], rfl, by simp, by simp, ⟨Text.headNot_nil, ?_⟩, by simp⟩
      rintro _ ⟨⟩

theorem readPre_of_none {text : List Char} (h : (readPre text).1 = none) : (readPre text).2 = text := by
  unfold readPre at h ⊢
  split at h
  · cases h
  · rfl

theorem readPost_of_none {text : List Char} (h : (readPost text).1 = none) : (readPost text).2 = text := by
  simp only [readPost] at h ⊢
  split at h
  · cases h
  · cases h
  · rfl

theorem readDev_of_none {text : List Char} (h : (readDev text).1 = none) : (readDev text).2 = text := by
  unfold readDev at h ⊢
  split at h
  · cases h
  · rfl

/-- The version is neither a pre-release nor a post-release. -/
def isFinal (v : Version) : Bool := !v.isPrerelease && !v.isPostrelease

theorem isFinal_iff {v : Version} : v.isFinal = true ↔ v.pre = none ∧ v.post = none ∧ v.dev = none := by
  simp only [isFinal, isPrerelease, isPostrelease, Bool.and_eq_true, Bool.not_eq_true', Bool.or_eq_false_iff,
    Option.isSome_eq_false_iff, Option.isNone_iff_eq_none]
  tauto

theorem isPostrelease_of_lt {v w : Version} (hfinal : v.isFinal = true)
    (h : Ord.compare v.publicKey.tail.tail w.publicKey.tail.tail = .lt) : w.pre = none ∧ w.isPostrelease = true := by
  obtain ⟨hpre, hpost, hdev⟩ := isFinal_iff.mp hfinal
  have hkeys : v.publicKey.tail.tail = [[2], [0], [1]] := by simp [publicKey, preKey, hpre, hpost, hdev]
  rw [hkeys, publicKey, List.tail_cons, List.tail_cons, List.compare_cons_cons] at h
  cases hwpre : w.pre with
  | some segment =>
      rw [preKey, hwpre] at h
      cases h
  | none =>
      refine ⟨rfl, ?_⟩
      cases hwpost : w.post with
      | some n => simp [isPostrelease, hwpost]
      | none => cases hwdev : w.dev <;> rw [preKey, hwpre, hwpost, hwdev] at h <;> cases h

/-- The segments of the version are read off the text, one after another, up to its end. -/
structure ReadsSegments (v : Version) (tail : List Char) : Prop where
  pre : v.pre = (readPre tail).1
  post : v.post = (readPost (readPre tail).2).1
  dev : v.dev = (readDev (readPost (readPre tail).2).2).1
  rest : (readDev (readPost (readPre tail).2).2).2 = []

theorem ReadsSegments.eq_nil_iff_isFinal {v : Version} {tail : List Char} (h : ReadsSegments v tail) :
    tail = [] ↔ v.isFinal = true := by
  rw [isFinal_iff]
  constructor
  · rintro rfl
    exact ⟨h.pre, h.post, h.dev⟩
  · rintro ⟨hpre, hpost, hdev⟩
    have hend := h.rest
    rwa [readDev_of_none (h.dev.symm.trans hdev), readPost_of_none (h.post.symm.trans hpost),
      readPre_of_none (h.pre.symm.trans hpre)] at hend

/-- Behind the epoch the release is written as numerals with dots between them, and the other segments follow. -/
theorem exists_of_afterEpoch?_numerals {epoch : Nat} {text : List Char} {v : Version}
    (h : afterEpoch? epoch text = some v) (hlocal : v.localParts = []) :
    ∃ (digits : List Char) (numerals : List (List Char)) (tail : List Char),
      text = digits ++ numerals.flatMap ('.' :: ·) ++ tail ∧ (∀ word ∈ digits :: numerals, IsNumeral word) ∧
      v.release = (digits :: numerals).map numberOf ∧ (readRelease 0 [] text).2 = tail ∧ EndsRelease tail ∧
      ReadsSegments v tail := by
  obtain ⟨first, rest, tail, rfl, hfirst, hrelease, -, hpre, hpost, hdev, hend⟩ := exists_of_afterEpoch? h hlocal
  obtain ⟨digits, numerals, hrest, hdigits, hnumerals, htail, hnumbers⟩ :=
    exists_of_readRelease (first.toNat - '0'.toNat) [] rest
  simp only [hrelease] at hrest htail hnumbers
  have hnumeral : IsNumeral (first :: digits) :=
    ⟨List.cons_ne_nil _ _, List.forall_mem_cons.mpr ⟨hfirst, hdigits⟩⟩
  refine ⟨first :: digits, numerals, tail, ?_, List.forall_mem_cons.mpr ⟨hnumeral, hnumerals⟩, ?_, ?_, htail,
    ⟨hpre, hpost, hdev, hend⟩⟩
  · rw [hrest, List.cons_append, List.cons_append]
  · rw [hnumbers, List.map_cons, numberOf_cons]
    rfl
  · have hdigit : ∀ c ∈ [first], Text.isAsciiDigit c = true := by simpa using hfirst
    have hread := readRelease_digits hdigit 0 [] rest
    rw [List.singleton_append, List.foldl_cons, List.foldl_nil, Nat.zero_mul, Nat.zero_add, hrelease] at hread
    rw [hread]

/-! ### Capitals -/

theorem eq_of_isPlainChar_asciiLowerChar {c : Char} (h : isPlainChar (Text.asciiLowerChar c) = true) :
    Text.asciiLowerChar c = c := by
  rcases Text.asciiLowerChar_cases c with heq | ⟨hlow, hhigh, hlower⟩
  · exact heq
  · generalize Text.asciiLowerChar c = lower at h hlower
    simp only [isPlainChar, Bool.or_eq_true, beq_iff_eq, Text.isAsciiDigit_iff] at h
    have hdot : '.'.toNat = 46 := rfl
    have hmark : '!'.toNat = 33 := rfl
    have hnine : '9'.toNat = 57 := rfl
    rcases h with (hdigit | rfl) | rfl <;> omega

theorem eq_of_asciiLower_eq {text run : List Char} (h : Text.asciiLower text = run)
    (hrun : ∀ c ∈ run, isPlainChar c = true) : text = run := by
  refine Eq.trans ?_ h
  symm
  refine (List.map_congr_left fun c hc => ?_).trans (List.map_id _)
  exact eq_of_isPlainChar_asciiLowerChar (hrun _ (h ▸ List.mem_map_of_mem hc))

theorem headNot_of_asciiLower {text : List Char} (h : HeadNot Text.isAsciiDigit (Text.asciiLower text)) :
    HeadNot Text.isAsciiDigit text := by
  cases text with
  | nil => exact Text.headNot_nil
  | cons c rest =>
      by_contra hhead
      have hdigit : Text.isAsciiDigit c = true := by simpa [Text.headNot_cons] using hhead
      have hlower := asciiLowerChar_of_isPlainChar (c := c) (by simp [isPlainChar, hdigit])
      have hnot := Text.headNot_cons.mp h
      rw [hlower, hdigit] at hnot
      cases hnot

theorem EndsRelease.of_asciiLower {tail : List Char} (h : EndsRelease (Text.asciiLower tail)) : EndsRelease tail := by
  refine ⟨headNot_of_asciiLower h.1, ?_⟩
  rintro rest rfl
  exact headNot_of_asciiLower (h.2 _ rfl)

/-! ### Version texts -/

/-- A letter stands before the version, as the standard allows. -/
def IsMarked (text : List Char) : Prop := (Text.asciiLower (Text.trim text)).head? = some 'v'

instance : DecidablePred IsMarked := fun _ => inferInstanceAs (Decidable (_ = _))

theorem withoutMark_of_not_isMarked {text : List Char} (h : ¬ IsMarked text) :
    withoutMark (Text.asciiLower (Text.trim text)) = Text.asciiLower (Text.trim text) := by
  unfold IsMarked at h
  unfold withoutMark
  split
  · next rest hlower =>
      rw [hlower] at h
      exact absurd rfl h
  · rfl

/-- A text spells a version, with neither an epoch nor a local segment written. -/
structure IsPublicSpelling (text : List Char) (v : Version) : Prop where
  parse : parse? text = some v
  noEpoch : '!' ∉ text
  noLocal : v.localParts = []

namespace IsPublicSpelling

variable {text : List Char} {v : Version}

theorem mem_trim_mark (h : IsPublicSpelling text v) : '!' ∉ Text.trim text := by
  obtain ⟨lead, trail, htext, -⟩ := Text.exists_margins text
  intro hmem
  refine h.noEpoch ?_
  rw [htext]
  simp [hmem]

theorem epoch_eq_zero (h : IsPublicSpelling text v) : v.epoch = 0 :=
  epoch_eq_zero_of_parse h.parse h.noLocal h.mem_trim_mark

/-- **The release is written first**, as numerals with dots between them, and what follows goes on as no number. -/
theorem exists_numerals (h : IsPublicSpelling text v) (hunmarked : ¬ IsMarked text) :
    ∃ (digits : List Char) (numerals : List (List Char)) (tail : List Char),
      Text.trim text = digits ++ numerals.flatMap ('.' :: ·) ++ tail ∧
      (∀ word ∈ digits :: numerals, IsNumeral word) ∧ v.release = (digits :: numerals).map numberOf ∧
      EndsRelease tail ∧ (tail = [] ↔ v.isFinal = true) := by
  have hparse : afterEpoch? 0 (Text.asciiLower (Text.trim text)) = some v := by
    have hparse := h.parse
    rwa [parse?_eq, withoutMark_of_not_isMarked hunmarked,
      readEpoch_of_notMem (mt mem_asciiLower_mark.mp h.mem_trim_mark)] at hparse
  obtain ⟨digits, numerals, tail, hwhole, hall, hnumbers, -, htail, hsegments⟩ :=
    exists_of_afterEpoch?_numerals hparse h.noLocal
  -- Only what follows the release may be written in capitals.
  obtain ⟨run, others, htext, hrun, hothers⟩ := List.map_eq_append_iff.mp hwhole
  have hplain : ∀ c ∈ digits ++ numerals.flatMap ('.' :: ·), isPlainChar c = true := by
    intro c hc
    rcases List.mem_append.mp hc with hc | hc
    · simp [isPlainChar, (hall digits List.mem_cons_self).2 c hc]
    · obtain ⟨word, hword, hc⟩ := List.mem_flatMap.mp hc
      rcases List.mem_cons.mp hc with rfl | hc
      · decide
      · simp [isPlainChar, (hall word (List.mem_cons_of_mem _ hword)).2 c hc]
  obtain rfl := eq_of_asciiLower_eq hrun hplain
  refine ⟨digits, numerals, others, htext, hall, hnumbers, ?_, ?_⟩
  · apply EndsRelease.of_asciiLower
    rwa [Text.asciiLower, hothers]
  · rw [← hsegments.eq_nil_iff_isFinal, ← hothers, List.map_eq_nil_iff]

end IsPublicSpelling

end Version

end ManifestLens
