import ManifestLens.Index.Url
import ManifestLens.Proofs.Error.Result
import ManifestLens.Proofs.Text.Trim

/-!
# The normal form of an index URL

What a URL starts with is found behind the controls before it and between the tabs and line ends within it. These
the normal form leaves as they are, and it writes the secure scheme over the first four characters, whatever they
are. So the result is a secure URL of the index just if the plain scheme is written at the very start, and it is
its own normal form just if, besides, no white space is left at its end where slashes were taken off.
-/

namespace ManifestLens

open Text

namespace UrlHead

variable {url front slashes blanks rest : List Char} {head : UrlHead}

/-- A character that stays in a URL, wherever it stands. -/
def isKept (c : Char) : Bool := c != '\t' && c != '\r' && c != '\n'

theorem isKept_of_lt {c : Char} (h : 0x20 < c.toNat) : isKept c = true := by
  simp only [isKept, Bool.and_eq_true, bne_iff_ne, ne_eq]
  refine ⟨⟨?_, ?_⟩, ?_⟩ <;> rintro rfl <;> exact absurd h (by decide)

/-- The scheme that a URL states, empty if it states none. -/
def statedScheme (url : List Char) : List Char := (splitScheme (cleaned url)).1

/-- The authority that a URL states, empty if it states none. -/
def statedAuthority (url : List Char) : List Char := authorityOf (splitScheme (cleaned url)).2

theorem read_eq (url : List Char) :
    read url = (check (statedAuthority url)).bind fun _ => .ok ⟨statedScheme url, statedAuthority url⟩ := rfl

theorem read_eq_ok_iff : read url = .ok head ↔
    check (statedAuthority url) = .ok () ∧ head = ⟨statedScheme url, statedAuthority url⟩ := by
  rw [read_eq]
  cases check (statedAuthority url) with
  | error fault => simp [Except.bind]
  | ok done => simp [Except.bind, eq_comm]

/-! ### What is taken off the end -/

theorem cleaned_append_slashes (hslashes : ∀ c ∈ slashes, c = '/') :
    cleaned (front ++ slashes) = cleaned front ++ slashes := by
  have hkept : slashes.filter isKept = slashes :=
    List.filter_eq_self.mpr fun c hc => hslashes c hc ▸ rfl
  have hdrop : slashes.dropWhile (fun c => c.toNat ≤ 0x20) = slashes := by
    cases slashes with
    | nil => rfl
    | cons c more =>
        rw [hslashes c (List.mem_cons_self ..)]
        rfl
  show List.filter isKept _ = List.filter isKept _ ++ slashes
  rw [List.dropWhile_append]
  split
  · next hempty =>
      rw [List.isEmpty_iff.mp hempty, hdrop, hkept]
      rfl
  · rw [List.filter_append, hkept]

theorem cleaned_append (h : cleaned front ≠ []) : cleaned (front ++ rest) = cleaned front ++ rest.filter isKept := by
  show List.filter isKept _ = List.filter isKept _ ++ _
  rw [List.dropWhile_append, if_neg, List.filter_append]
  intro hempty
  refine h ?_
  show List.filter isKept _ = []
  rw [List.isEmpty_iff.mp hempty]
  rfl

theorem cleaned_append_of_nil (h : cleaned front = []) (rest : List Char) : cleaned (front ++ rest) = cleaned rest := by
  have hnil : front.dropWhile (fun c => c.toNat ≤ 0x20) = [] := by
    cases hdrop : front.dropWhile (fun c => c.toNat ≤ 0x20) with
    | nil => rfl
    | cons c more =>
        -- What is no control is kept.
        have hhigh := List.head?_dropWhile_not (fun c : Char => decide (c.toNat ≤ 0x20)) front
        rw [hdrop] at hhigh
        have hc : 0x20 < c.toNat := by simpa using hhigh
        have hcleaned : List.filter isKept (c :: more) = [] := hdrop ▸ h
        rw [List.filter_cons_of_pos (isKept_of_lt hc)] at hcleaned
        cases hcleaned
  show List.filter isKept _ = List.filter isKept _
  rw [List.dropWhile_append, hnil]
  rfl

/-! ### The scheme -/

theorem splitScheme_of_notMem (h : ':' ∉ url) : splitScheme url = ([], url) := by
  have hrun : ∀ c ∈ url, (c != ':') = true := fun c hc => bne_iff_ne.mpr fun heq => h (heq ▸ hc)
  rw [splitScheme, takeWhile_all hrun, List.drop_length]

theorem splitScheme_colon {scheme : List Char} (h : ':' ∉ scheme) : splitScheme (scheme ++ ':' :: rest) =
    if scheme.head?.any isAsciiLetter && scheme.all isSchemeChar then (asciiLower scheme, rest)
    else ([], scheme ++ ':' :: rest) := by
  have hrun : ∀ c ∈ scheme, (c != ':') = true := fun c hc => bne_iff_ne.mpr fun heq => h (heq ▸ hc)
  rw [splitScheme, takeWhile_run hrun (headNot_cons.mpr rfl), List.drop_left]

theorem exists_scheme_of_mem (h : ':' ∈ url) : ∃ scheme rest, url = scheme ++ ':' :: rest ∧ ':' ∉ scheme := by
  obtain ⟨scheme, rest, rfl, hscheme, hrest, -, -⟩ := exists_run (· != ':') url
  have hnot : ':' ∉ scheme := fun hmem => by simpa using hscheme _ hmem
  cases rest with
  | nil => exact absurd (List.append_nil scheme ▸ h) hnot
  | cons c more =>
      have hcolon : c = ':' := by simpa using headNot_cons.mp hrest
      exact ⟨scheme, more, hcolon ▸ rfl, hnot⟩

theorem splitScheme_append (h : ':' ∉ rest) :
    splitScheme (front ++ rest) = ((splitScheme front).1, (splitScheme front).2 ++ rest) := by
  by_cases hfront : ':' ∈ front
  · obtain ⟨scheme, more, rfl, hscheme⟩ := exists_scheme_of_mem hfront
    rw [List.append_assoc, List.cons_append, splitScheme_colon hscheme, splitScheme_colon hscheme]
    split
    · rfl
    · rw [List.append_assoc, List.cons_append]
  · have hwhole : ':' ∉ front ++ rest := fun hmem => (List.mem_append.mp hmem).elim hfront h
    rw [splitScheme_of_notMem hfront, splitScheme_of_notMem hwhole]

theorem authorityOf_eq_nil (h : ∀ body, rest ≠ '/' :: '/' :: body) : authorityOf rest = [] := by
  rw [authorityOf.eq_def]
  split
  · next body => exact absurd rfl (h body)
  · rfl

theorem authorityOf_slashes (hslashes : ∀ c ∈ slashes, c = '/') : authorityOf slashes = [] := by
  rw [authorityOf.eq_def]
  split
  · next body =>
      cases body with
      | nil => rfl
      | cons c more =>
          rw [hslashes c (by simp)]
          rfl
  · rfl

theorem authorityOf_append_slashes (hslashes : ∀ c ∈ slashes, c = '/') :
    authorityOf (front ++ slashes) = authorityOf front := by
  by_cases hbody : ∃ body, front = '/' :: '/' :: body
  · obtain ⟨body, rfl⟩ := hbody
    simp only [List.cons_append, authorityOf]
    induction body with
    | nil =>
        have hnone : authorityOf ('/' :: '/' :: slashes) = [] := authorityOf_slashes (by simpa using hslashes)
        simpa [authorityOf] using hnone
    | cons c body ih => simp only [List.cons_append, List.takeWhile_cons, ih]
  · rw [authorityOf_eq_nil fun body heq => hbody ⟨body, heq⟩]
    by_cases hfront : ∀ c ∈ front, c = '/'
    · exact authorityOf_slashes fun c hc => (List.mem_append.mp hc).elim (hfront c) (hslashes c)
    · -- The first character that is no slash stands among the first two.
      refine authorityOf_eq_nil fun body heq => ?_
      match front with
      | [] => exact hfront nofun
      | [c] =>
          obtain ⟨rfl, -⟩ := List.cons.inj heq
          exact hfront (by simp)
      | c :: d :: more =>
          simp only [List.cons_append, List.cons.injEq] at heq
          obtain ⟨rfl, rfl, -⟩ := heq
          exact hbody ⟨more, rfl⟩

theorem statedScheme_append_slashes (hslashes : ∀ c ∈ slashes, c = '/') :
    statedScheme (front ++ slashes) = statedScheme front := by
  have hcolon : ':' ∉ slashes := fun hmem => by simpa using hslashes _ hmem
  rw [statedScheme, cleaned_append_slashes hslashes, splitScheme_append hcolon]
  rfl

theorem statedAuthority_append_slashes (hslashes : ∀ c ∈ slashes, c = '/') :
    statedAuthority (front ++ slashes) = statedAuthority front := by
  have hcolon : ':' ∉ slashes := fun hmem => by simpa using hslashes _ hmem
  rw [statedAuthority, cleaned_append_slashes hslashes, splitScheme_append hcolon]
  exact authorityOf_append_slashes hslashes

theorem read_append_slashes (hslashes : ∀ c ∈ slashes, c = '/') : read (front ++ slashes) = read front := by
  rw [read_eq, read_eq, statedScheme_append_slashes hslashes, statedAuthority_append_slashes hslashes]

theorem cleaned_ne_nil_of_scheme (h : statedScheme url ≠ []) : cleaned url ≠ [] := by
  intro hnil
  rw [statedScheme, hnil] at h
  exact h rfl

theorem statedScheme_append_blanks (hblanks : IsBlankRun blanks) (h : statedScheme front ≠ []) :
    statedScheme (front ++ blanks) = statedScheme front := by
  have hcolon : ':' ∉ blanks.filter isKept := fun hmem =>
    hblanks.notMem (by decide) (List.mem_of_mem_filter hmem)
  rw [statedScheme, cleaned_append (cleaned_ne_nil_of_scheme h), splitScheme_append hcolon]
  rfl

/-! ### Writing the secure scheme -/

/-- The plain scheme is written at the very start. -/
def WritesPlain (url : List Char) : Prop := asciiLower (url.take 4) = "http".toList

instance decidableWritesPlain (url : List Char) : Decidable (WritesPlain url) := by
  unfold WritesPlain
  infer_instance

/-- The URL with the secure scheme over its first four characters. -/
def secured (url : List Char) : List Char := "https".toList ++ url.drop 4

theorem exists_of_statedScheme (h : statedScheme url ≠ []) : ∃ scheme rest,
    cleaned url = scheme ++ ':' :: rest ∧ ':' ∉ scheme ∧ statedScheme url = asciiLower scheme ∧
      statedAuthority url = authorityOf rest := by
  by_cases hmem : ':' ∈ cleaned url
  · obtain ⟨scheme, rest, hcleaned, hscheme⟩ := exists_scheme_of_mem hmem
    have hsplit : splitScheme (scheme ++ ':' :: rest) = _ := splitScheme_colon hscheme
    rw [← hcleaned] at hsplit
    split at hsplit
    · have hauthority := congrArg (fun split : List Char × List Char => authorityOf split.2) hsplit
      exact ⟨scheme, rest, hcleaned, hscheme, congrArg Prod.fst hsplit, hauthority⟩
    · exact absurd (congrArg Prod.fst hsplit) h
  · exact absurd (congrArg Prod.fst (splitScheme_of_notMem hmem)) h

theorem cleaned_secure (rest : List Char) :
    cleaned ("https".toList ++ rest) = "https".toList ++ rest.filter isKept :=
  cleaned_append (by decide)

theorem lt_toNat_of_asciiLowerChar {c : Char} (h : 0x5A < (asciiLowerChar c).toNat) : 0x40 < c.toNat := by
  rcases asciiLowerChar_cases c with heq | ⟨hlow, -, -⟩
  · rw [heq] at h
    omega
  · omega

theorem cleaned_letters {word : List Char} (h : asciiLower word = "http".toList) (rest : List Char) :
    cleaned (word ++ rest) = word ++ rest.filter isKept := by
  have hhigh : ∀ c ∈ word, 0x40 < c.toNat := by
    intro c hc
    have hmem : asciiLowerChar c ∈ "http".toList := h ▸ List.mem_map_of_mem hc
    have hletters : ∀ d ∈ "http".toList, 0x5A < d.toNat := by decide
    exact lt_toNat_of_asciiLowerChar (hletters _ hmem)
  have hkept : word.filter isKept = word :=
    List.filter_eq_self.mpr fun c hc => isKept_of_lt (Nat.lt_trans (by decide) (hhigh c hc))
  have hdrop : word.dropWhile (fun c => c.toNat ≤ 0x20) = word := by
    cases word with
    | nil => rfl
    | cons c more =>
        have hc := hhigh c (List.mem_cons_self ..)
        exact List.dropWhile_cons_of_neg (by simpa using by omega)
  have hcleaned : cleaned word = word := by
    show List.filter isKept _ = word
    rw [hdrop, hkept]
  have hne : cleaned word ≠ [] := by
    rw [hcleaned]
    rintro rfl
    cases h
  rw [cleaned_append hne, hcleaned]

theorem statedHead_secured (hplain : WritesPlain url) (hscheme : statedScheme url = "http".toList) :
    statedScheme (secured url) = "https".toList ∧ statedAuthority (secured url) = statedAuthority url := by
  have hne : statedScheme url ≠ [] := by
    rw [hscheme]
    decide
  obtain ⟨scheme, rest, hcleaned, hnot, hstated, hauthority⟩ := exists_of_statedScheme hne
  rw [← List.take_append_drop 4 url, cleaned_letters hplain] at hcleaned
  -- Both words have the length of the plain scheme, so the colon comes right behind it.
  have hlength : (url.take 4).length = scheme.length := by
    have hword := congrArg List.length hplain
    have hother := congrArg List.length (hstated.symm.trans hscheme)
    simp only [asciiLower, List.length_map] at hword hother
    exact hword.trans hother.symm
  obtain ⟨-, hrest⟩ := List.append_inj hcleaned hlength
  have hsplit : splitScheme (cleaned (secured url)) = ("https".toList, rest) := by
    rw [secured, cleaned_secure, hrest, splitScheme_colon (by decide)]
    rfl
  have hstated := congrArg (fun split : List Char × List Char => authorityOf split.2) hsplit
  exact ⟨congrArg Prod.fst hsplit, hstated.trans hauthority.symm⟩

theorem cleaned_of_filter (h : url.filter isKept = ':' :: rest) : cleaned url = ':' :: rest := by
  induction url with
  | nil => cases h
  | cons c more ih =>
      by_cases hkept : isKept c = true
      · rw [List.filter_cons_of_pos hkept] at h
        obtain ⟨rfl, hmore⟩ := List.cons.inj h
        show List.filter isKept _ = _
        rw [List.dropWhile_cons_of_neg (by decide), List.filter_cons_of_pos hkept, hmore]
      · rw [List.filter_cons_of_neg hkept] at h
        rw [← ih h]
        have hlow : c.toNat ≤ 0x20 := by
          have hcases : c = '\t' ∨ c = '\r' ∨ c = '\n' := by simpa [isKept, or_iff_not_imp_left] using hkept
          rcases hcases with rfl | rfl | rfl <;> decide
        show List.filter isKept _ = List.filter isKept _
        rw [List.dropWhile_cons_of_pos (by simpa using hlow)]

theorem isPrefix_of_colon {scheme word rest more : List Char} (h : scheme ++ ':' :: rest = word ++ more)
    (hword : ':' ∉ word) : word <+: scheme := by
  rcases List.append_eq_append_iff.mp h with ⟨between, rfl, hrest⟩ | ⟨between, rfl, -⟩
  · cases between with
    | nil => simp
    | cons c between =>
        obtain ⟨rfl, -⟩ := List.cons.inj hrest
        simp at hword
  · exact List.prefix_append ..

theorem statedScheme_secured (hplain : ¬ WritesPlain url) (hscheme : statedScheme url = "http".toList) :
    statedScheme (secured url) ≠ "http".toList ∧ statedScheme (secured url) ≠ "https".toList := by
  have hne : statedScheme url ≠ [] := by
    rw [hscheme]
    decide
  by_cases hsecured : statedScheme (secured url) = []
  · rw [hsecured]
    decide
  obtain ⟨new, rest, hcleaned, hnew, hstated, -⟩ := exists_of_statedScheme hsecured
  rw [secured, cleaned_secure] at hcleaned
  obtain ⟨more, rfl⟩ := isPrefix_of_colon hcleaned.symm (by decide)
  have hlength := congrArg List.length hstated
  simp only [asciiLower, List.length_map, List.length_append] at hlength
  refine ⟨fun heq => ?_, fun heq => ?_⟩
  · rw [heq] at hlength
    have hfour : "http".toList.length = 4 := rfl
    have hfive : "https".toList.length = 5 := rfl
    omega
  · have hmore : more = [] := by
      rw [heq] at hlength
      exact List.eq_nil_of_length_eq_zero (by omega)
    subst hmore
    rw [List.append_nil] at hcleaned
    have hcolon : (url.drop 4).filter isKept = ':' :: rest := List.append_cancel_left hcleaned
    obtain ⟨scheme, behind, hbefore, hnot, hold, -⟩ := exists_of_statedScheme hne
    have hfour : scheme.length = 4 := by
      have hlower := congrArg List.length (hold.symm.trans hscheme)
      simpa [asciiLower] using hlower
    rw [← List.take_append_drop 4 url] at hbefore
    by_cases hlow : cleaned (url.take 4) = []
    · -- Nothing of the scheme is left before the colon.
      rw [cleaned_append_of_nil hlow, cleaned_of_filter hcolon] at hbefore
      cases scheme with
      | nil => cases hfour
      | cons c scheme =>
          obtain ⟨rfl, -⟩ := List.cons.inj hbefore
          simp at hnot
    · rw [cleaned_append hlow, hcolon] at hbefore
      have hprefix := isPrefix_of_colon hbefore hnot
      have hsublist : (cleaned (url.take 4)).Sublist (url.take 4) :=
        List.filter_sublist.trans (List.dropWhile_sublist _)
      have htake : (url.take 4).length ≤ 4 := List.length_take_le ..
      have heqTake : cleaned (url.take 4) = url.take 4 := by
        refine hsublist.eq_of_length_le ?_
        have := hprefix.length_le
        omega
      have heqScheme : scheme = url.take 4 := by
        rw [heqTake] at hprefix
        exact hprefix.eq_of_length_le (by omega)
      exact hplain (by rw [WritesPlain, ← heqScheme, ← hold, hscheme])

end UrlHead

namespace IndexUrl

open UrlHead

variable {url result : List Char} {fault : UrlFault} {head : UrlHead}

/-- The URL without white space around it and without slashes at its end. White space may be left before them. -/
def bare (url : List Char) : List Char := dropSlashes (trim url)

theorem exists_bare (url : List Char) : ∃ slashes blanks, trim url = bare url ++ slashes ∧
    (∀ c ∈ slashes, c = '/') ∧ bare url = trim (bare url) ++ blanks ∧ IsBlankRun blanks ∧
    LastNot (· == '/') (bare url) := by
  obtain ⟨slashes, htrim, hslashes, hlast⟩ := exists_trailing (· == '/') (trim url)
  obtain ⟨-, -, -, -, -, htrimmed, -, -⟩ := exists_margins url
  have hhead : HeadNot isBlank (bare url) := by
    cases hbare : bare url with
    | nil => exact headNot_nil
    | cons c more =>
        rw [show trim url = bare url ++ slashes from htrim, hbare] at htrimmed
        exact htrimmed.head
  obtain ⟨lead, trail, hmargins, -, htrail, -, hlead, -⟩ := exists_margins (bare url)
  have hnil : lead = [] := by
    rw [← hlead]
    cases hbare : bare url with
    | nil => rfl
    | cons c more => rw [List.takeWhile_cons_of_neg (by simp [headNot_cons.mp (hbare ▸ hhead)])]
  rw [hnil, List.nil_append] at hmargins
  exact ⟨slashes, trail, htrim, fun c hc => by simpa using hslashes c hc, hmargins, htrail, hlast⟩

theorem read_trim (url : List Char) : read (trim url) = read (bare url) := by
  obtain ⟨slashes, -, htrim, hslashes, -⟩ := exists_bare url
  rw [htrim, read_append_slashes hslashes]

/-! ### Valid URLs -/

/-- A valid URL has an authority without fault and a scheme of the web, and no space within. -/
theorem isValid_eq_true_iff : isValid url = .ok true ↔ check (statedAuthority (trim url)) = .ok () ∧
    (statedScheme (trim url) = "http".toList ∨ statedScheme (trim url) = "https".toList) ∧
      statedAuthority (trim url) ≠ [] ∧ ' ' ∉ trim url := by
  rw [isValid, read_eq]
  cases check (statedAuthority (trim url)) with
  | error fault => simp [Except.bind, bind]
  | ok done =>
      show Except.ok _ = Except.ok true ↔ _
      simp only [Except.ok.injEq, Bool.and_eq_true, Bool.or_eq_true, decide_eq_true_eq, Bool.not_eq_true',
        List.isEmpty_eq_false_iff, and_assoc, List.contains_eq_mem, decide_eq_false_iff_not, true_and]

theorem isValid_eq_error_iff : isValid url = .error fault ↔ read (trim url) = .error fault := by
  rw [isValid, bind_eq_error_iff]
  refine or_iff_left ?_
  rintro ⟨head, -, h⟩
  cases h

theorem normalize_eq (url : List Char) : normalize url = (isValid (bare url)).bind fun valid =>
    if valid then (read (bare url)).bind fun head =>
      .ok (if head.scheme = "http".toList then secured (bare url) else bare url)
    else .ok publicIndex := by
  show (isValid (bare url)).bind _ = _
  congr 1
  funext valid
  cases valid with
  | false => rfl
  | true =>
      show (read (bare url)).bind _ = (read (bare url)).bind _
      congr 1
      funext head
      split
      · rfl
      · rfl

theorem normalize_eq_ok_iff : normalize url = .ok result ↔ isValid (bare url) = .ok false ∧ result = publicIndex ∨
    isValid (bare url) = .ok true ∧ ∃ head, read (bare url) = .ok head ∧
      result = if head.scheme = "http".toList then secured (bare url) else bare url := by
  rw [normalize_eq]
  cases isValid (bare url) with
  | error fault => simp [Except.bind]
  | ok valid =>
      cases valid with
      | false => simp [Except.bind, eq_comm]
      | true => cases read (bare url) <;> simp [Except.bind, eq_comm]

theorem normalize_eq_error_iff : normalize url = .error fault ↔ read (trim (bare url)) = .error fault ∨
    isValid (bare url) = .ok true ∧ read (bare url) = .error fault := by
  rw [normalize_eq, ← isValid_eq_error_iff]
  cases isValid (bare url) with
  | error fault => simp [Except.bind]
  | ok valid =>
      cases valid with
      | false => simp [Except.bind]
      | true => cases read (bare url) <;> simp [Except.bind]

/-! ### The normal form -/

/-- A secure URL of the index: valid, with the secure scheme, and with no slash at its end. -/
structure IsServable (url : List Char) : Prop where
  valid : isValid url = .ok true
  secure : statedScheme (trim url) = "https".toList
  last : url.getLast? ≠ some '/'

/-- A URL of the plain scheme starts with it. -/
def PlainAtStart (url : List Char) : Prop := statedScheme url = "http".toList → WritesPlain url

theorem isServable_publicIndex : IsServable publicIndex := by
  exact ⟨by rfl, by rfl, by decide⟩

theorem isTrimmed_publicIndex : IsTrimmed publicIndex := by
  constructor
  · intro c hc
    cases hc
    rfl
  · intro c hc
    cases hc
    rfl

theorem getLast?_secured (h : 4 < url.length) : (secured url).getLast? = url.getLast? := by
  have hne : url.drop 4 ≠ [] := by
    rw [Ne, List.drop_eq_nil_iff]
    omega
  rw [secured, List.getLast?_append_of_ne_nil _ hne, List.getLast?_drop, if_neg (Nat.not_le.mpr h)]

/-- A URL of the web with white space at its end. -/
structure IsPlaced (url core blanks : List Char) : Prop where
  text : url = core ++ blanks
  trimmed : IsTrimmed core
  blanks : IsBlankRun blanks
  check : check (statedAuthority core) = .ok ()
  scheme : statedScheme core = "http".toList ∨ statedScheme core = "https".toList
  authority : statedAuthority core ≠ []
  space : ' ' ∉ core

theorem exists_isPlaced (h : isValid (bare url) = .ok true) :
    ∃ core blanks, IsPlaced (bare url) core blanks := by
  obtain ⟨hcheck, hscheme, hauthority, hspace⟩ := isValid_eq_true_iff.mp h
  obtain ⟨-, blanks, -, -, hbare, hblanks, -⟩ := exists_bare url
  obtain ⟨-, -, -, -, -, htrimmed, -, -⟩ := exists_margins (bare url)
  exact ⟨_, blanks, hbare, htrimmed, hblanks, hcheck, hscheme, hauthority, hspace⟩

namespace IsPlaced

variable {core blanks : List Char}

theorem trim_eq (h : IsPlaced url core blanks) : trim url = core := by
  rw [h.text]
  simpa using trim_margins isBlankRun_nil h.trimmed h.blanks

theorem isValid_eq (h : IsPlaced url core blanks) : isValid url = .ok true := by
  rw [isValid_eq_true_iff, h.trim_eq]
  exact ⟨h.check, h.scheme, h.authority, h.space⟩

theorem statedScheme_ne_nil (h : IsPlaced url core blanks) : statedScheme core ≠ [] := by
  rcases h.scheme with hscheme | hscheme
  · rw [hscheme]
    decide
  · rw [hscheme]
    decide

theorem statedScheme_eq (h : IsPlaced url core blanks) : statedScheme url = statedScheme core := by
  rw [h.text]
  exact statedScheme_append_blanks h.blanks h.statedScheme_ne_nil

theorem four_lt (h : IsPlaced url core blanks) : 4 < core.length := by
  obtain ⟨scheme, rest, hcleaned, -, hstated, -⟩ := exists_of_statedScheme h.statedScheme_ne_nil
  have hsublist : (cleaned core).Sublist core := List.filter_sublist.trans (List.dropWhile_sublist _)
  have hle := hsublist.length_le
  rw [hcleaned, List.length_append, List.length_cons] at hle
  have hlength := congrArg List.length hstated
  simp only [asciiLower, List.length_map] at hlength
  have hfour : 4 ≤ (statedScheme core).length := by
    rcases h.scheme with hscheme | hscheme
    · rw [hscheme]
      decide
    · rw [hscheme]
      decide
  omega

theorem four_lt_length (h : IsPlaced url core blanks) : 4 < url.length := by
  have := h.four_lt
  rw [h.text, List.length_append]
  omega

theorem headNot (h : IsPlaced url core blanks) : HeadNot isBlank url := by
  rw [h.text]
  refine h.trimmed.head.append fun hnil => ?_
  have := h.four_lt
  rw [hnil] at this
  cases this

theorem secured_eq (h : IsPlaced url core blanks) : secured url = secured core ++ blanks := by
  rw [secured, secured, h.text, List.drop_append_of_le_length (Nat.le_of_lt h.four_lt), List.append_assoc]

theorem writesPlain_iff (h : IsPlaced url core blanks) : WritesPlain url ↔ WritesPlain core := by
  rw [WritesPlain, WritesPlain, h.text, List.take_append_of_le_length (Nat.le_of_lt h.four_lt)]

theorem trimmed_secured (h : IsPlaced url core blanks) : IsTrimmed (secured core) := by
  refine ⟨fun c hc => ?_, fun c hc => h.trimmed.last c (getLast?_secured h.four_lt ▸ hc)⟩
  cases hc
  rfl

/-- Written over the plain scheme, the secure one makes a URL of the same place. -/
theorem secured (h : IsPlaced url core blanks) (hscheme : statedScheme core = "http".toList)
    (hplain : WritesPlain core) : IsPlaced (secured url) (secured core) blanks := by
  obtain ⟨hsecure, hauthority⟩ := statedHead_secured hplain hscheme
  refine ⟨h.secured_eq, h.trimmed_secured, h.blanks, hauthority ▸ h.check, .inr hsecure, hauthority ▸ h.authority,
    fun hmem => ?_⟩
  rcases List.mem_append.mp hmem with hmem | hmem
  · revert hmem
    decide
  · exact h.space (List.mem_of_mem_drop hmem)

end IsPlaced

section NormalForm

variable (h : normalize url = .ok result)
include h

theorem read_bare_of_normalize (hvalid : isValid (bare url) = .ok true) :
    result = if statedScheme (bare url) = "http".toList then secured (bare url) else bare url := by
  rcases normalize_eq_ok_iff.mp h with ⟨hinvalid, -⟩ | ⟨-, head, hread, hresult⟩
  · cases hvalid.symm.trans hinvalid
  · rw [hresult, (read_eq_ok_iff.mp hread).2]

theorem eq_publicIndex_of_normalize (hvalid : isValid (bare url) ≠ .ok true) : result = publicIndex := by
  rcases normalize_eq_ok_iff.mp h with ⟨-, hresult⟩ | ⟨htrue, -⟩
  · exact hresult
  · exact absurd htrue hvalid

/-- **A normal form is servable** just if it does not come of a plain scheme that is not written at the start. -/
theorem isServable_iff_of_normalize :
    IsServable result ↔ (isValid (bare url) = .ok true → PlainAtStart (bare url)) := by
  by_cases hvalid : isValid (bare url) = .ok true
  · obtain ⟨core, blanks, hplaced⟩ := exists_isPlaced hvalid
    obtain ⟨-, -, -, -, -, -, hlast⟩ := exists_bare url
    have hbareLast : (bare url).getLast? ≠ some '/' := fun heq => by simpa using hlast '/' heq
    rw [read_bare_of_normalize h hvalid, hplaced.statedScheme_eq]
    simp only [hvalid, true_implies, PlainAtStart, hplaced.statedScheme_eq, hplaced.writesPlain_iff]
    split
    · next hscheme =>
        simp only [hscheme, true_implies]
        constructor
        · intro hservable
          by_contra hplain
          have htrim : trim (secured (bare url)) = secured core := by
            rw [hplaced.secured_eq]
            simpa using trim_margins isBlankRun_nil hplaced.trimmed_secured hplaced.blanks
          exact (statedScheme_secured hplain hscheme).2 (htrim ▸ hservable.secure)
        · intro hplain
          have hsecured := hplaced.secured hscheme hplain
          refine ⟨hsecured.isValid_eq, ?_, ?_⟩
          · rw [hsecured.trim_eq]
            exact (statedHead_secured hplain hscheme).1
          · rwa [getLast?_secured hplaced.four_lt_length]
    · next hscheme =>
        simp only [hscheme, false_implies, iff_true]
        refine ⟨hvalid, ?_, hbareLast⟩
        rw [hplaced.trim_eq]
        exact hplaced.scheme.resolve_left hscheme
  · rw [eq_publicIndex_of_normalize h hvalid]
    simp only [hvalid, false_implies, iff_true]
    exact isServable_publicIndex

theorem isTrimmed_iff_of_normalize :
    IsTrimmed result ↔ (isValid (bare url) = .ok true → IsTrimmed (bare url)) := by
  by_cases hvalid : isValid (bare url) = .ok true
  · obtain ⟨core, blanks, hplaced⟩ := exists_isPlaced hvalid
    rw [read_bare_of_normalize h hvalid]
    simp only [hvalid, true_implies]
    split
    · have hlast := getLast?_secured hplaced.four_lt_length
      constructor
      · exact fun htrimmed => ⟨hplaced.headNot, fun c hc => htrimmed.last c (hlast ▸ hc)⟩
      · intro htrimmed
        refine ⟨fun c hc => ?_, fun c hc => htrimmed.last c (hlast ▸ hc)⟩
        cases hc
        rfl
    · exact Iff.rfl
  · rw [eq_publicIndex_of_normalize h hvalid]
    simp only [hvalid, false_implies, iff_true]
    exact isTrimmed_publicIndex

end NormalForm

theorem ne_secured_bare (hvalid : isValid (bare url) = .ok true) (hscheme : statedScheme (bare url) = "http".toList) :
    url ≠ secured (bare url) := by
  intro heq
  obtain ⟨core, blanks, hplaced⟩ := exists_isPlaced hvalid
  obtain ⟨slashes, -, htrim, -⟩ := exists_bare url
  obtain ⟨lead, trail, hmargins, hlead, -⟩ := exists_margins url
  have hnil : lead = [] := by
    cases lead with
    | nil => rfl
    | cons c more =>
        -- The first character would be blank and the first one of the scheme.
        rw [hmargins] at heq
        obtain ⟨rfl, -⟩ := List.cons.inj heq
        exact absurd (hlead _ (List.mem_cons_self ..)) (by decide)
  rw [hnil, List.nil_append, htrim, List.append_assoc] at hmargins
  have hwhole : bare url ++ (slashes ++ trail) = "https".toList ++ (bare url).drop 4 := hmargins.symm.trans heq
  have hprefix : "https".toList <+: bare url := by
    refine List.prefix_of_prefix_length_le (List.prefix_append _ ((bare url).drop 4)) ⟨_, hwhole⟩ ?_
    exact hplaced.four_lt_length
  obtain ⟨more, hmore⟩ := hprefix
  have hne : statedScheme (bare url) ≠ [] := by
    rw [hscheme]
    decide
  obtain ⟨scheme, rest, hcleaned, -, hstated, -⟩ := exists_of_statedScheme hne
  rw [← hmore, cleaned_secure] at hcleaned
  have hlength := (isPrefix_of_colon hcleaned.symm (by decide)).length_le
  rw [hscheme] at hstated
  have hfour := congrArg List.length hstated
  simp only [asciiLower, List.length_map] at hfour
  rw [← hfour] at hlength
  exact absurd hlength (by decide)

/-- What is servable and has no white space around it is its own normal form, and nothing else is. -/
theorem normalize_eq_self_iff : normalize url = .ok url ↔ IsServable url ∧ IsTrimmed url := by
  constructor
  · intro h
    by_cases hvalid : isValid (bare url) = .ok true
    · have hurl := read_bare_of_normalize h hvalid
      split at hurl
      · next hscheme => exact absurd hurl (ne_secured_bare hvalid hscheme)
      · next hscheme =>
          refine ⟨(isServable_iff_of_normalize h).mpr fun _ hplain => absurd hplain hscheme, ?_⟩
          -- Nothing was taken off.
          obtain ⟨slashes, -, htrim, -⟩ := exists_bare url
          obtain ⟨lead, trail, hmargins, -, -, htrimmed, -, -⟩ := exists_margins url
          have hlength := congrArg List.length hmargins
          have hbare := congrArg List.length htrim
          have hsame := congrArg List.length hurl
          simp only [List.length_append] at hlength hbare
          have hlead : lead = [] := List.eq_nil_of_length_eq_zero (by omega)
          have htrail : trail = [] := List.eq_nil_of_length_eq_zero (by omega)
          rw [hlead, htrail, List.nil_append, List.append_nil] at hmargins
          rwa [← hmargins] at htrimmed
    · rw [eq_publicIndex_of_normalize h hvalid]
      exact ⟨isServable_publicIndex, isTrimmed_publicIndex⟩
  · rintro ⟨hservable, htrimmed⟩
    have htrim : trim url = url := trim_of_isTrimmed htrimmed
    have hbare : bare url = url := by
      rw [bare, htrim]
      refine dropTrailing_of_lastNot fun c hc => ?_
      simp only [beq_eq_false_iff_ne, ne_eq]
      rintro rfl
      exact hservable.last hc
    obtain ⟨hcheck, -⟩ := isValid_eq_true_iff.mp hservable.valid
    have hsecure := hservable.secure
    rw [htrim] at hcheck hsecure
    refine normalize_eq_ok_iff.mpr (.inr ?_)
    rw [hbare]
    refine ⟨hservable.valid, _, read_eq_ok_iff.mpr ⟨hcheck, rfl⟩, ?_⟩
    have hdiffer : "https".toList ≠ "http".toList := by decide
    rw [hsecure, if_neg hdiffer]

end IndexUrl

end ManifestLens
