import ManifestLens.Proofs.Text.Trim
import ManifestLens.Version.Parse

/-!
# How versions are spelled

Reading a version takes its segments off the text one by one. What is left of a text that spells a version
without a local segment is nothing, so the text is a mark, an epoch, the numbers of the release and the labelled
segments, in characters that no constraint uses for anything else.
-/

namespace ManifestLens

namespace Version

/-- A letter, a digit or a separator. -/
def isSegmentChar (c : Char) : Bool := Text.isAsciiAlnum c || isSeparator c

/-- A character of a version without a local segment. -/
def isSpellingChar (c : Char) : Bool := isSegmentChar c || c == '!'

/-- Reading takes segment characters off the start of the text and leaves the rest. -/
def Takes (text rest : List Char) : Prop := ∃ run, text = run ++ rest ∧ ∀ c ∈ run, isSegmentChar c = true

variable {text rest : List Char}

namespace Takes

theorem refl (text : List Char) : Takes text text := ⟨[], rfl, by simp⟩

theorem run {run : List Char} (h : ∀ c ∈ run, isSegmentChar c = true) (rest : List Char) :
    Takes (run ++ rest) rest := ⟨run, rfl, h⟩

theorem cons {c : Char} (hc : isSegmentChar c = true) (rest : List Char) : Takes (c :: rest) rest :=
  @run [c] (by simpa using hc) rest

theorem trans {middle : List Char} (hleft : Takes text middle) (hright : Takes middle rest) :
    Takes text rest := by
  obtain ⟨left, rfl, hl⟩ := hleft
  obtain ⟨right, rfl, hr⟩ := hright
  refine ⟨left ++ right, (List.append_assoc ..).symm, fun c hc => ?_⟩
  rcases List.mem_append.mp hc with hc | hc
  · exact hl c hc
  · exact hr c hc

theorem all (h : Takes text []) : ∀ c ∈ text, isSegmentChar c = true := by
  obtain ⟨run, rfl, hrun⟩ := h
  simpa using hrun

end Takes

theorem isSegmentChar_of_isAsciiDigit {c : Char} (h : Text.isAsciiDigit c = true) : isSegmentChar c = true := by
  simp [isSegmentChar, Text.isAsciiAlnum, h]

/-! ### Segments -/

theorem digitRun_eq (text : List Char) :
    digitRun text = (text.takeWhile Text.isAsciiDigit, text.dropWhile Text.isAsciiDigit) := by
  have hrest : text.drop (text.takeWhile Text.isAsciiDigit).length = text.dropWhile Text.isAsciiDigit := by
    induction text with
    | nil => rfl
    | cons c more ih =>
        rw [List.takeWhile_cons, List.dropWhile_cons]
        split
        · exact ih
        · rfl
  rw [digitRun, hrest]

theorem takes_digitRun (text : List Char) : Takes text (digitRun text).2 := by
  rw [digitRun_eq]
  refine ⟨text.takeWhile Text.isAsciiDigit, List.takeWhile_append_dropWhile.symm, fun c hc => ?_⟩
  exact isSegmentChar_of_isAsciiDigit (List.all_eq_true.mp (List.all_takeWhile ..) c hc)

theorem takes_skipSeparator (text : List Char) : Takes text (skipSeparator text) := by
  cases text with
  | nil => exact .refl _
  | cons c more =>
      rw [skipSeparator]
      split
      · next hseparator => exact .cons (by simp [isSegmentChar, hseparator]) more
      · exact .refl _

theorem takes_of_labelled {α : Type} {labels : List (List Char × α)} {meaning : α} {n : Nat}
    (hlabels : ∀ label ∈ labels, ∀ c ∈ label.1, isSegmentChar c = true)
    (h : labelled? labels text = some (meaning, n, rest)) : Takes text rest := by
  simp only [labelled?, Option.map_eq_some_iff, Prod.mk.injEq] at h
  obtain ⟨⟨label, given⟩, hfind, -, -, hrest⟩ := h
  have hprefix : label.isPrefixOf (skipSeparator text) = true := by
    simpa using List.find?_some hfind
  obtain ⟨more, hmore⟩ := List.isPrefixOf_iff_prefix.mp hprefix
  have hlabel : Takes (skipSeparator text) more := by
    rw [← hmore]
    exact .run (hlabels _ (List.mem_of_find?_eq_some hfind)) more
  have hdrop : (skipSeparator text).drop label.length = more := by
    rw [← hmore]
    exact List.drop_left
  rw [hdrop] at hrest
  rw [← hrest]
  exact (takes_skipSeparator text).trans (hlabel.trans ((takes_skipSeparator more).trans (takes_digitRun _)))

theorem takes_readPre (text : List Char) : Takes text (readPre text).2 := by
  unfold readPre
  split
  · next hlabelled => exact takes_of_labelled (by decide) hlabelled
  · exact .refl _

theorem takes_readPost (text : List Char) : Takes text (readPost text).2 := by
  simp only [readPost]
  split
  · next n rest _ hnumbered =>
      split at hnumbered
      · next body =>
          split at hnumbered
          · cases hnumbered
          · next digits more _ hdigits =>
              cases hnumbered
              have hbody := takes_digitRun body
              rw [hdigits] at hbody
              exact (Takes.cons (by decide) body).trans hbody
      · cases hnumbered
  · next hlabelled => exact takes_of_labelled (by decide) hlabelled
  · exact .refl _

theorem takes_readDev (text : List Char) : Takes text (readDev text).2 := by
  unfold readDev
  split
  · next hlabelled => exact takes_of_labelled (by decide) hlabelled
  · exact .refl _

theorem takes_readRelease (current : Nat) (reversed : List Nat) (text : List Char) :
    Takes text (readRelease current reversed text).2 := by
  fun_induction readRelease current reversed text with
  | case1 current reversed c rest hdigit ih =>
      exact (Takes.cons (by decide) _).trans ((Takes.cons (isSegmentChar_of_isAsciiDigit hdigit) _).trans ih)
  | case2 => exact .refl _
  | case3 current reversed c rest _ hdigit ih =>
      exact (Takes.cons (isSegmentChar_of_isAsciiDigit hdigit) _).trans ih
  | case4 => exact .refl _
  | case5 => exact .refl _

/-! ### The whole text -/

/-- An epoch as it is written: not at all, where it is zero, or as a number and a mark. -/
inductive IsEpoch : Nat → List Char → Prop where
  | unwritten : IsEpoch 0 []
  | written {digits : List Char} (hdigits : ∀ c ∈ digits, Text.isAsciiDigit c = true) (hne : digits ≠ []) :
      IsEpoch (numberOf digits) (digits ++ ['!'])

theorem isEpoch_readEpoch (text : List Char) :
    ∃ epoch, text = epoch ++ (readEpoch text).2 ∧ IsEpoch (readEpoch text).1 epoch := by
  unfold readEpoch
  split
  · exact ⟨[], rfl, .unwritten⟩
  · next digits rest hne hdigits =>
      rw [digitRun_eq, Prod.mk.injEq] at hdigits
      obtain ⟨htake, hdrop⟩ := hdigits
      refine ⟨digits ++ ['!'], ?_, .written (fun c hc => ?_) fun hnil => ?_⟩
      · rw [List.append_assoc, List.singleton_append, ← htake, ← hdrop, List.takeWhile_append_dropWhile]
      · exact List.all_eq_true.mp (List.all_takeWhile ..) c (htake ▸ hc)
      · exact hne hnil
  · exact ⟨[], rfl, .unwritten⟩

/-- A text spells a version without a local segment: a mark, the epoch, the release, and labelled segments. -/
inductive Spells (v : Version) : List Char → Prop where
  | intro {mark epoch tail : List Char} {first : Char} {rest : List Char} (hmark : mark = [] ∨ mark = ['v'])
      (hepoch : IsEpoch v.epoch epoch) (hfirst : Text.isAsciiDigit first = true)
      (hrelease : readRelease (first.toNat - '0'.toNat) [] rest = (v.release, tail)) (htail : Takes tail []) :
      Spells v (mark ++ (epoch ++ first :: rest))

theorem separatedPieces_ne_nil (text : List Char) : separatedPieces text ≠ [] := by
  cases text with
  | nil => simp [separatedPieces]
  | cons c more =>
      rw [separatedPieces]
      split
      · simp
      · split <;> simp

theorem eq_nil_of_readLocal {tail : List Char} (h : readLocal? tail = some []) : tail = [] := by
  unfold readLocal? at h
  split at h
  · rfl
  · next body =>
      cases hpieces : separatedPieces body with
      | nil => exact absurd hpieces (separatedPieces_ne_nil body)
      | cons piece pieces => simp [hpieces, List.mapM_cons, Option.bind_eq_some_iff] at h
  · cases h

/-- The text without the letter that may stand before a version. -/
def withoutMark (text : List Char) : List Char :=
  match text with
  | 'v' :: rest => rest
  | _ => text

theorem exists_mark (text : List Char) : ∃ mark, (mark = [] ∨ mark = ['v']) ∧ text = mark ++ withoutMark text := by
  unfold withoutMark
  split
  · exact ⟨['v'], .inr rfl, rfl⟩
  · exact ⟨[], .inl rfl, rfl⟩

/-- The version that a text spells whose epoch has been read. -/
def afterEpoch? (epoch : Nat) : List Char → Option Version
  | [] => none
  | c :: rest =>
      if !Text.isAsciiDigit c then none
      else
        match readRelease (c.toNat - '0'.toNat) [] rest with
        | ([], _) => none
        | (major :: minors, rest) =>
            let (pre, rest) := readPre rest
            let (post, rest) := readPost rest
            let (dev, rest) := readDev rest
            (readLocal? rest).map fun localParts =>
              { epoch, major, minors, pre, post, dev, localParts }

theorem parse?_eq (text : List Char) :
    let body := withoutMark (Text.asciiLower (Text.trim text))
    parse? text = afterEpoch? (readEpoch body).1 (readEpoch body).2 := rfl

/-- A version without a local segment is read off its text to the end. -/
theorem exists_of_afterEpoch? {epoch : Nat} {v : Version} (h : afterEpoch? epoch text = some v)
    (hlocal : v.localParts = []) : ∃ first rest tail, text = first :: rest ∧ Text.isAsciiDigit first = true ∧
      readRelease (first.toNat - '0'.toNat) [] rest = (v.release, tail) ∧ v.epoch = epoch ∧
      v.pre = (readPre tail).1 ∧ v.post = (readPost (readPre tail).2).1 ∧
      v.dev = (readDev (readPost (readPre tail).2).2).1 ∧ (readDev (readPost (readPre tail).2).2).2 = [] := by
  cases text with
  | nil => cases h
  | cons first rest =>
      simp only [afterEpoch?] at h
      split at h
      · cases h
      · next hfirst =>
          split at h
          · cases h
          · next major minors tail hrelease =>
              obtain ⟨localParts, hreadLocal, rfl⟩ := Option.map_eq_some_iff.mp h
              obtain rfl : localParts = [] := hlocal
              exact ⟨first, rest, tail, rfl, by simpa using hfirst, hrelease, rfl, rfl, rfl, rfl,
                eq_nil_of_readLocal hreadLocal⟩

theorem takes_of_end {tail : List Char} (h : (readDev (readPost (readPre tail).2).2).2 = []) : Takes tail [] := by
  rw [← h]
  exact (takes_readPre _).trans ((takes_readPost _).trans (takes_readDev _))

/-- **The spelling of a version.** -/
theorem spells_of_parse {v : Version} (h : parse? text = some v) (hlocal : v.localParts = []) :
    Spells v (Text.asciiLower (Text.trim text)) := by
  rw [parse?_eq] at h
  obtain ⟨mark, hmark, hbody⟩ := exists_mark (Text.asciiLower (Text.trim text))
  obtain ⟨epoch, hepochText, hepoch⟩ := isEpoch_readEpoch (withoutMark (Text.asciiLower (Text.trim text)))
  rw [hbody, hepochText]
  obtain ⟨first, rest, tail, hrest, hfirst, hrelease, hvepoch, -, -, -, hend⟩ := exists_of_afterEpoch? h hlocal
  rw [hrest]
  exact .intro hmark (hvepoch ▸ hepoch) hfirst hrelease (takes_of_end hend)

/-! ### The characters -/

theorem IsEpoch.all {number : Nat} {epoch : List Char} (h : IsEpoch number epoch) :
    ∀ c ∈ epoch, isSpellingChar c = true := by
  intro c hc
  cases h with
  | unwritten => cases hc
  | written hdigits hne =>
      rcases List.mem_append.mp hc with hc | hc
      · simp [isSpellingChar, isSegmentChar_of_isAsciiDigit (hdigits c hc)]
      · simp [isSpellingChar, List.mem_singleton.mp hc]

theorem Spells.takes {v : Version} {first : Char} {rest tail : List Char}
    (hfirst : Text.isAsciiDigit first = true)
    (hrelease : readRelease (first.toNat - '0'.toNat) [] rest = (v.release, tail)) (htail : Takes tail []) :
    Takes (first :: rest) [] := by
  have hrest := takes_readRelease (first.toNat - '0'.toNat) [] rest
  rw [hrelease] at hrest
  exact (Takes.cons (isSegmentChar_of_isAsciiDigit hfirst) rest).trans (hrest.trans htail)

theorem Spells.all {v : Version} (h : Spells v text) : ∀ c ∈ text, isSpellingChar c = true := by
  intro c hc
  cases h with
  | intro hmark hepoch hfirst hrelease htail =>
      rcases List.mem_append.mp hc with hc | hc
      · rcases hmark with rfl | rfl
        · cases hc
        · rw [List.mem_singleton.mp hc]
          decide
      · rcases List.mem_append.mp hc with hc | hc
        · exact hepoch.all c hc
        · simp [isSpellingChar, (Spells.takes hfirst hrelease htail).all c hc]

theorem Spells.ne_nil {v : Version} (h : Spells v text) : text ≠ [] := by
  cases h
  simp

theorem isSpellingChar_of_asciiLowerChar {c : Char} (h : isSpellingChar (Text.asciiLowerChar c) = true) :
    isSpellingChar c = true := by
  unfold Text.asciiLowerChar at h
  split at h
  · next hcapital => simp [isSpellingChar, isSegmentChar, Text.isAsciiAlnum, Text.isAsciiLetter, hcapital]
  · exact h

theorem asciiLowerChar_eq_mark {c : Char} : Text.asciiLowerChar c = '!' ↔ c = '!' := by
  rcases Text.asciiLowerChar_cases c with h | ⟨hlow, hhigh, hlower⟩
  · rw [h]
  · have hmark : '!'.toNat = 33 := rfl
    constructor
    · intro h
      rw [h] at hlower
      omega
    · rintro rfl
      exact absurd hlow (by decide)

theorem mem_asciiLower_mark : '!' ∈ Text.asciiLower text ↔ '!' ∈ text := by
  simp [Text.asciiLower, asciiLowerChar_eq_mark]

theorem Spells.epoch_eq_zero {v : Version} (h : Spells v text) (hmark : '!' ∉ text) : v.epoch = 0 := by
  cases h with
  | intro _ hepoch _ _ _ =>
      generalize v.epoch = number at hepoch ⊢
      cases hepoch with
      | unwritten => rfl
      | written => exact absurd (by simp) hmark

section Parsed

variable {v : Version} (h : parse? text = some v) (hlocal : v.localParts = [])

include h hlocal

/-- A text that spells a version consists of spelling characters between its blanks. -/
theorem isSpellingChar_of_parse : ∀ c ∈ Text.trim text, isSpellingChar c = true := by
  intro c hc
  refine isSpellingChar_of_asciiLowerChar ((spells_of_parse h hlocal).all _ ?_)
  exact List.mem_map_of_mem hc

theorem trim_ne_nil_of_parse : Text.trim text ≠ [] := by
  intro hnil
  have hne := (spells_of_parse h hlocal).ne_nil
  rw [hnil] at hne
  exact hne rfl

theorem epoch_eq_zero_of_parse (hmark : '!' ∉ Text.trim text) : v.epoch = 0 :=
  (spells_of_parse h hlocal).epoch_eq_zero (mt mem_asciiLower_mark.mp hmark)

end Parsed

theorem parse?_trim (text : List Char) : parse? (Text.trim text) = parse? text := by
  obtain ⟨-, -, -, -, -, htrimmed, -, -⟩ := Text.exists_margins text
  rw [parse?_eq, Text.trim_of_isTrimmed htrimmed]
  rfl

theorem isBlank_of_isSpellingChar {c : Char} (h : isSpellingChar c = true) : Text.isBlank c = false := by
  simp only [isSpellingChar, isSegmentChar, isSeparator, Bool.or_eq_true, beq_iff_eq] at h
  rcases h with (halnum | (rfl | rfl) | rfl) | rfl
  · exact Text.isBlank_of_isAsciiAlnum halnum
  all_goals decide

end Version

end ManifestLens
