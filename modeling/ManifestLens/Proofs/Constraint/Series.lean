import ManifestLens.Constraint.Specifier
import ManifestLens.Proofs.Text.Lines
import ManifestLens.Proofs.Version.Release

/-!
# The series of a version

A compatible release has to agree with all written numbers but the last. In the normalised spelling the components
of a version are the numbers of its epoch and release and its labelled segments, one by one, so a version that is
spelled so belongs to its own series.
-/

namespace ManifestLens

open Version

namespace Specifier

/-! ### Pieces -/

/-- A piece between dots, with the pre-release segment split from the number before it. -/
def splitPre (piece : List Char) : List (List Char) :=
  let digits := piece.takeWhile Text.isAsciiDigit
  let rest := piece.drop digits.length
  let isPre := ["a", "b", "c", "rc"].any fun label =>
    let label := label.toList
    label.isPrefixOf rest && !(rest.drop label.length).isEmpty &&
      (rest.drop label.length).all Text.isAsciiDigit
  if !digits.isEmpty && isPre then [digits, rest] else [piece]

/-- The components of a text without an epoch. -/
def pieces (text : List Char) : List (List Char) := (Text.splitOn '.' text).flatMap splitPre

theorem components_eq (text : List Char) :
    let afterEpoch := (text.reverse.takeWhile (· != '!')).reverse
    let epoch := text.take (text.length - afterEpoch.length - 1)
    components text = (if epoch.isEmpty then ['0'] else epoch) :: pieces afterEpoch := rfl

theorem components_of_notMem {text : List Char} (h : '!' ∉ text) : components text = ['0'] :: pieces text := by
  have hafter : (text.reverse.takeWhile (· != '!')).reverse = text := by
    rw [Text.takeWhile_all, List.reverse_reverse]
    intro c hc
    rw [bne_iff_ne]
    rintro rfl
    exact h (List.mem_reverse.mp hc)
  simp only [components_eq, hafter, Nat.sub_self, Nat.zero_sub, List.take_zero, List.isEmpty_nil, if_true]

theorem components_append {epoch text : List Char} (h : '!' ∉ text) (hne : epoch ≠ []) :
    components (epoch ++ '!' :: text) = epoch :: pieces text := by
  have hafter : ((epoch ++ '!' :: text).reverse.takeWhile (· != '!')).reverse = text := by
    have hreverse : (epoch ++ '!' :: text).reverse = text.reverse ++ ('!' :: epoch.reverse) := by simp
    rw [hreverse, Text.takeWhile_run, List.reverse_reverse]
    · intro c hc
      rw [bne_iff_ne]
      rintro rfl
      exact h (List.mem_reverse.mp hc)
    · exact Text.headNot_cons.mpr rfl
  have hlength : (epoch ++ '!' :: text).length - text.length - 1 = epoch.length := by
    simp only [List.length_append, List.length_cons]
    omega
  simp only [components_eq, hafter, hlength, List.take_left, List.isEmpty_iff, if_neg hne]

theorem pieces_word {word : List Char} (h : '.' ∉ word) : pieces word = splitPre word := by
  rw [pieces, Text.splitOn_of_notMem h, List.flatMap_cons, List.flatMap_nil, List.append_nil]

theorem pieces_append {word : List Char} (h : '.' ∉ word) (rest : List Char) :
    pieces (word ++ '.' :: rest) = splitPre word ++ pieces rest := by
  rw [pieces, Text.splitOn_append h, List.flatMap_cons, pieces]

/-! ### Segments -/

def preText : Option (PreStage × Nat) → List Char
  | none => []
  | some (stage, n) => stage.text ++ numberText n

def preComponents : Option (PreStage × Nat) → List (List Char)
  | none => []
  | some (stage, n) => [stage.text ++ numberText n]

/-- The components of the segments behind the pre-release. -/
def laterComponents (v : Version) : List (List Char) :=
  (match v.post with
    | none => []
    | some n => ["post".toList ++ numberText n]) ++
  (match v.dev with
    | none => []
    | some n => ["dev".toList ++ numberText n])

def dotted (words : List (List Char)) : List Char := words.flatMap ('.' :: ·)

theorem suffixText_eq (v : Version) : v.suffixText = preText v.pre ++ dotted (laterComponents v) := by
  unfold suffixText laterComponents
  cases v.pre <;> cases v.post <;> cases v.dev <;> simp [preText, dotted]

theorem notMem_numberText {c : Char} (h : Text.isAsciiDigit c = false) (n : Nat) : c ∉ numberText n := by
  intro hmem
  rw [isAsciiDigit_of_mem_numberText hmem] at h
  cases h

theorem notMem_preText {c : Char} (hdigit : Text.isAsciiDigit c = false)
    (hstage : ∀ stage ∈ [PreStage.alpha, .beta, .candidate], c ∉ stage.text) (pre : Option (PreStage × Nat)) :
    c ∉ preText pre := by
  cases pre with
  | none => exact List.not_mem_nil
  | some segment =>
      obtain ⟨stage, n⟩ := segment
      rw [preText, List.mem_append, not_or]
      exact ⟨hstage stage (by cases stage <;> simp), notMem_numberText hdigit n⟩

theorem headNot_preText (pre : Option (PreStage × Nat)) : Text.HeadNot Text.isAsciiDigit (preText pre) := by
  cases pre with
  | none => exact Text.headNot_nil
  | some segment =>
      obtain ⟨stage, n⟩ := segment
      cases stage <;> exact Text.headNot_cons.mpr (by decide)

theorem splitPre_number (n : Nat) (pre : Option (PreStage × Nat)) :
    splitPre (numberText n ++ preText pre) = numberText n :: preComponents pre := by
  have hdigits : ∀ c ∈ numberText n, Text.isAsciiDigit c = true := fun _ => isAsciiDigit_of_mem_numberText
  have htake := Text.takeWhile_run hdigits (headNot_preText pre)
  have hne := numberText_ne_nil n
  simp only [splitPre, htake, List.drop_left]
  cases pre with
  | none => simp [preText, preComponents]
  | some segment =>
      obtain ⟨stage, k⟩ := segment
      have hnumber : (numberText k).all Text.isAsciiDigit = true :=
        List.all_eq_true.mpr fun _ => isAsciiDigit_of_mem_numberText
      cases stage <;> simp [preText, preComponents, PreStage.text, numberText_ne_nil, hnumber, hne]

theorem mem_laterComponents {v : Version} {component : List Char} (h : component ∈ laterComponents v) :
    ∃ label ∈ ["post".toList, "dev".toList], ∃ n, component = label ++ numberText n := by
  rcases List.mem_append.mp h with h | h
  · cases hpost : v.post with
    | none =>
        rw [hpost] at h
        cases h
    | some n =>
        rw [hpost] at h
        exact ⟨_, by simp, n, List.mem_singleton.mp h⟩
  · cases hdev : v.dev with
    | none =>
        rw [hdev] at h
        cases h
    | some n =>
        rw [hdev] at h
        exact ⟨_, by simp, n, List.mem_singleton.mp h⟩

theorem splitPre_laterComponent {v : Version} {component : List Char} (h : component ∈ laterComponents v) :
    splitPre component = [component] ∧ '.' ∉ component := by
  obtain ⟨label, hlabel, n, rfl⟩ := mem_laterComponents h
  have hdot := notMem_numberText (c := '.') (by decide) n
  simp only [List.mem_cons, List.not_mem_nil, or_false] at hlabel
  rcases hlabel with rfl | rfl
  · exact ⟨rfl, by simpa using hdot⟩
  · exact ⟨rfl, by simpa using hdot⟩

theorem pieces_append_dotted {word : List Char} (hword : '.' ∉ word) {words : List (List Char)}
    (h : ∀ component ∈ words, splitPre component = [component] ∧ '.' ∉ component) :
    pieces (word ++ dotted words) = splitPre word ++ words := by
  induction words generalizing word with
  | nil =>
      rw [dotted, List.flatMap_nil, List.append_nil, List.append_nil]
      exact pieces_word hword
  | cons component rest ih =>
      obtain ⟨hsplit, hdot⟩ := h component (List.mem_cons_self ..)
      have hrest := ih hdot fun other hother => h other (List.mem_cons_of_mem _ hother)
      have htext : word ++ dotted (component :: rest) = word ++ '.' :: (component ++ dotted rest) := by
        simp [dotted]
      rw [htext, pieces_append hword, hrest, hsplit]
      rfl

/-! ### Components of the normalised spelling -/

def suffixComponents (v : Version) : List (List Char) := preComponents v.pre ++ laterComponents v

theorem pieces_release (v : Version) (major : Nat) (minors : List Nat) :
    pieces (releaseText (major :: minors) ++ v.suffixText)
      = (major :: minors).map numberText ++ suffixComponents v := by
  induction minors generalizing major with
  | nil =>
      have hword : '.' ∉ numberText major ++ preText v.pre := by
        rw [List.mem_append, not_or]
        exact ⟨notMem_numberText (by decide) major, notMem_preText (by decide) (by decide) v.pre⟩
      have htext : releaseText [major] ++ v.suffixText
          = (numberText major ++ preText v.pre) ++ dotted (laterComponents v) := by
        rw [releaseText_cons, suffixText_eq]
        simp [minorsText]
      rw [htext, pieces_append_dotted hword fun _ => splitPre_laterComponent, splitPre_number]
      rfl
  | cons minor rest ih =>
      have htext : releaseText (major :: minor :: rest) ++ v.suffixText
          = numberText major ++ '.' :: (releaseText (minor :: rest) ++ v.suffixText) := by
        rw [releaseText_cons, releaseText_cons]
        simp [minorsText]
      have hnumber : splitPre (numberText major) = [numberText major] := by
        simpa [preText, preComponents] using splitPre_number major none
      rw [htext, pieces_append (notMem_numberText (by decide) major), ih, hnumber]
      rfl

theorem notMem_suffixText (v : Version) : '!' ∉ v.suffixText := by
  rw [suffixText_eq, List.mem_append, not_or]
  refine ⟨notMem_preText (by decide) (by decide) v.pre, fun hmem => ?_⟩
  obtain ⟨component, hcomponent, hmem⟩ := List.mem_flatMap.mp hmem
  obtain ⟨label, hlabel, n, rfl⟩ := mem_laterComponents hcomponent
  have hlabels : ∀ label ∈ ["post".toList, "dev".toList], '!' ∉ label := by decide
  rcases List.mem_append.mp (List.mem_of_ne_of_mem (by decide) hmem) with hmem | hmem
  · exact hlabels label hlabel hmem
  · exact notMem_numberText (by decide) n hmem

theorem isSpellingChar_of_mem_suffixText {v : Version} {c : Char} (h : c ∈ v.suffixText) :
    isSpellingChar c = true := by
  have hnumber (n : Nat) (hmem : c ∈ numberText n) : isSpellingChar c = true := by
    simp [isSpellingChar, isSegmentChar_of_isAsciiDigit (isAsciiDigit_of_mem_numberText hmem)]
  rw [suffixText_eq, List.mem_append] at h
  rcases h with h | h
  · cases hpre : v.pre with
    | none =>
        rw [hpre] at h
        cases h
    | some segment =>
        obtain ⟨stage, n⟩ := segment
        have hstage : ∀ c ∈ stage.text, isSpellingChar c = true := by cases stage <;> decide
        rw [hpre] at h
        rcases List.mem_append.mp h with h | h
        · exact hstage c h
        · exact hnumber n h
  · obtain ⟨component, hcomponent, h⟩ := List.mem_flatMap.mp h
    obtain ⟨label, hlabel, n, rfl⟩ := mem_laterComponents hcomponent
    have hlabels : ∀ label ∈ ["post".toList, "dev".toList], ∀ c ∈ label, isSpellingChar c = true := by decide
    rcases List.mem_cons.mp h with rfl | h
    · decide
    · rcases List.mem_append.mp h with h | h
      · exact hlabels label hlabel c h
      · exact hnumber n h

/-- What stands behind the epoch in the normalised spelling. -/
def bodyText (v : Version) : List Char := releaseText v.release ++ v.suffixText

theorem text_eq {v : Version} (hlocal : v.localParts = []) :
    v.text = (if v.epoch = 0 then [] else numberText v.epoch ++ ['!']) ++ bodyText v := by
  simp [Version.text, bodyText, hlocal]

theorem notMem_bodyText (v : Version) : '!' ∉ bodyText v := by
  rw [bodyText, List.mem_append, not_or]
  refine ⟨fun hmem => ?_, notMem_suffixText v⟩
  exact (isPlainChar_of_mem_releaseText hmem).elim (fun hdigit => absurd hdigit (by decide)) (by decide)

theorem mem_text_mark_iff {v : Version} (hlocal : v.localParts = []) : '!' ∈ v.text ↔ v.epoch ≠ 0 := by
  rw [text_eq hlocal]
  by_cases hepoch : v.epoch = 0
  · simp [hepoch, notMem_bodyText]
  · simp [hepoch]

theorem trim_text {v : Version} (hlocal : v.localParts = []) : Text.trim v.text = v.text := by
  have hall : ∀ c ∈ v.text, isSpellingChar c = true := by
    intro c hc
    rw [text_eq hlocal, bodyText] at hc
    rcases List.mem_append.mp hc with hc | hc
    · split at hc
      · cases hc
      · rcases List.mem_append.mp hc with hc | hc
        · simp [isSpellingChar, isSegmentChar_of_isAsciiDigit (isAsciiDigit_of_mem_numberText hc)]
        · rw [List.mem_singleton.mp hc]
          decide
    · rcases List.mem_append.mp hc with hc | hc
      · refine isSpellingChar_of_isPlainChar ?_
        rcases isPlainChar_of_mem_releaseText hc with hdigit | rfl
        · simp [isPlainChar, hdigit]
        · decide
      · exact isSpellingChar_of_mem_suffixText hc
  refine Text.trim_of_isTrimmed ⟨fun c hc => ?_, fun c hc => ?_⟩
  · exact isBlank_of_isSpellingChar (hall c (List.mem_of_head? hc))
  · exact isBlank_of_isSpellingChar (hall c (List.mem_of_getLast? hc))

/-- **Components.** A version in the normalised spelling is taken apart into its numbers and its segments. -/
theorem components_text {v : Version} (hlocal : v.localParts = []) :
    components v.text = (v.epoch :: v.release).map numberText ++ suffixComponents v := by
  have hpieces : pieces (bodyText v) = v.release.map numberText ++ suffixComponents v :=
    pieces_release v v.major v.minors
  by_cases hepoch : v.epoch = 0
  · rw [text_eq hlocal, if_pos hepoch, List.nil_append, components_of_notMem (notMem_bodyText v), hpieces, hepoch]
    rfl
  · rw [text_eq hlocal, if_neg hepoch, List.append_assoc, List.singleton_append,
      components_append (notMem_bodyText v) (numberText_ne_nil _), hpieces]
    rfl

/-! ### The series -/

theorem isSuffixComponent_numberText (n : Nat) : isSuffixComponent (numberText n) = false := by
  simp only [isSuffixComponent, List.any_eq_false]
  intro label hlabel hprefix
  have hletters : ∀ label ∈ ["dev", "a", "b", "rc", "post"], label.toList.all Text.isAsciiDigit = false := by decide
  obtain ⟨c, hc, hdigit⟩ := List.all_eq_false.mp (hletters label hlabel)
  exact notMem_numberText (by simpa using hdigit) n
    ((List.isPrefixOf_iff_prefix.mp hprefix).subset hc)

theorem isSuffixComponent_of_mem {v : Version} {component : List Char} (h : component ∈ suffixComponents v) :
    isSuffixComponent component = true := by
  rcases List.mem_append.mp h with h | h
  · cases hpre : v.pre with
    | none =>
        rw [hpre] at h
        cases h
    | some segment =>
        obtain ⟨stage, n⟩ := segment
        rw [hpre] at h
        rw [List.mem_singleton.mp h]
        cases stage <;> simp [isSuffixComponent, PreStage.text]
  · obtain ⟨label, hlabel, n, rfl⟩ := mem_laterComponents h
    simp only [List.mem_cons, List.not_mem_nil, or_false] at hlabel
    rcases hlabel with rfl | rfl <;> simp [isSuffixComponent]

theorem takeWhile_components {v : Version} (hlocal : v.localParts = []) :
    (components v.text).takeWhile (!isSuffixComponent ·) = (v.epoch :: v.release).map numberText := by
  rw [components_text hlocal]
  have hnumbers : ∀ part ∈ (v.epoch :: v.release).map numberText, (!isSuffixComponent part) = true := by
    intro part hpart
    obtain ⟨n, -, rfl⟩ := List.mem_map.mp hpart
    rw [isSuffixComponent_numberText]
    rfl
  have hsuffix : (suffixComponents v).takeWhile (!isSuffixComponent ·) = [] := by
    cases hcomponents : suffixComponents v with
    | nil => rfl
    | cons component rest =>
        have hmem : component ∈ suffixComponents v := by simp [hcomponents]
        simp [isSuffixComponent_of_mem hmem]
  rw [List.takeWhile_append_of_pos hnumbers, hsuffix, List.append_nil]

/-- The series of a version in the normalised spelling is its epoch and its release without the last number. -/
theorem seriesText_text {v : Version} (hlocal : v.localParts = []) :
    seriesText v.text = numberText v.epoch ++ '!' :: releaseText v.release.dropLast := by
  have hdrop : ((v.epoch :: v.release).map numberText).dropLast
      = numberText v.epoch :: v.release.dropLast.map numberText := by
    rw [← List.map_dropLast, release, List.dropLast_cons_of_ne_nil (List.cons_ne_nil _ _), List.map_cons]
  rw [seriesText, takeWhile_components hlocal, hdrop]
  rfl

theorem padRelease_of_le {numbers : List Nat} {others : List (List Char)} {count : Nat}
    (h : count ≤ numbers.length) : padRelease count (numbers.map numberText ++ others)
      = numbers.map numberText ++ others := by
  have hnumbers : ∀ part ∈ numbers.map numberText, (!part.isEmpty && part.all Text.isAsciiDigit) = true := by
    intro part hpart
    obtain ⟨n, -, rfl⟩ := List.mem_map.mp hpart
    have hall : (numberText n).all Text.isAsciiDigit = true :=
      List.all_eq_true.mpr fun _ => isAsciiDigit_of_mem_numberText
    simp [numberText_ne_nil, hall]
  have hprefix := List.takeWhile_prefix (l := numbers.map numberText ++ others)
    fun part => !part.isEmpty && part.all Text.isAsciiDigit
  have hlength : count ≤ ((numbers.map numberText ++ others).takeWhile
      fun part => !part.isEmpty && part.all Text.isAsciiDigit).length := by
    rw [List.takeWhile_append_of_pos hnumbers, List.length_append, List.length_map]
    omega
  rw [padRelease]
  simp only [Nat.sub_eq_zero_of_le hlength, List.replicate_zero, List.append_nil]
  exact List.prefix_iff_eq_append.mp hprefix

/-- **Series.** A version of two or more numbers in the normalised spelling belongs to its own series. -/
theorem startsWith_seriesText {v : Version} (hlocal : v.localParts = []) (hminors : v.minors ≠ []) :
    startsWith v (seriesText v.text) = true := by
  obtain ⟨init, last, hlast⟩ : ∃ init last, v.minors = init ++ [last] :=
    ⟨v.minors.dropLast, v.minors.getLast hminors, (List.dropLast_concat_getLast hminors).symm⟩
  have hseries : seriesText v.text = (numberText v.epoch ++ ['!']) ++ releaseText (v.major :: init) := by
    rw [seriesText_text hlocal, release, hlast, ← List.cons_append, List.dropLast_concat, List.append_assoc,
      List.singleton_append]
  have hepoch : IsEpoch v.epoch (numberText v.epoch ++ ['!']) := by
    have hwritten := IsEpoch.written (fun _ => isAsciiDigit_of_mem_numberText) (numberText_ne_nil v.epoch)
    rwa [numberOf_numberText] at hwritten
  have hnormalized : normalized (seriesText v.text) = (plain v.epoch v.major init).text := by
    rw [normalized, hseries, parse?_releaseText hepoch]
    rfl
  have hwanted : components (plain v.epoch v.major init).text = (v.epoch :: v.major :: init).map numberText := by
    rw [components_text rfl]
    exact List.append_nil _
  have hwithout : v.withoutLocal = v := by
    rw [withoutLocal, ← hlocal]
  have hoffered : components v.text
      = (v.epoch :: v.major :: init).map numberText ++ ([numberText last] ++ suffixComponents v) := by
    rw [components_text hlocal, release, hlast]
    simp
  have hcount : (((v.epoch :: v.major :: init).map numberText).takeWhile
      fun part => !part.isEmpty && part.all Text.isAsciiDigit).length ≤ (v.epoch :: v.major :: init).length := by
    have hle := (List.takeWhile_prefix (l := (v.epoch :: v.major :: init).map numberText)
      fun part => !part.isEmpty && part.all Text.isAsciiDigit).length_le
    rwa [List.length_map] at hle
  rw [startsWith, hnormalized, hwanted, hwithout, hoffered]
  simp only [padRelease_of_le hcount, List.take_left, beq_self_eq_true]

end Specifier

end ManifestLens
