import ManifestLens.Manifest.Requirement
import ManifestLens.Text.Trim
import Mathlib.Data.List.Infix
import Mathlib.Data.List.TakeWhile

/-!
# Blank margins

Every reader of a line takes white space off, reads a word of some class, and goes on behind it. What
it finds is determined by how the text is put together: a run of a class followed by something outside
the class is taken off exactly, and a text without blanks at its ends comes back from between any
blank margins.
-/

namespace ManifestLens.Text

/-- A condition on the characters of a text is decided along the text, not over all characters. -/
instance decidableForallMem (p : Char → Prop) [DecidablePred p] (text : List Char) :
    Decidable (∀ c ∈ text, p c) :=
  List.decidableBAll p text

/-! ### Runs of a class -/

/-- The text does not start with a character of the class. -/
def HeadNot (p : Char → Bool) (text : List Char) : Prop := ∀ c, text.head? = some c → p c = false

/-- The text does not end with a character of the class. -/
def LastNot (p : Char → Bool) (text : List Char) : Prop := ∀ c, text.getLast? = some c → p c = false

section Runs

variable {p : Char → Bool} {run text : List Char}

theorem headNot_nil : HeadNot p [] := by
  intro c hc
  cases hc

theorem headNot_cons {c : Char} : HeadNot p (c :: text) ↔ p c = false := by
  simp [HeadNot]

/-- What follows a run decides how it starts only where the run is empty. -/
theorem HeadNot.append {left right : List Char} (hleft : HeadNot p left)
    (hright : left = [] → HeadNot p right) : HeadNot p (left ++ right) := by
  cases left with
  | nil => exact hright rfl
  | cons c rest => exact hleft

theorem HeadNot.of_append {left right : List Char} (h : HeadNot p (left ++ right))
    (hne : left ≠ []) : HeadNot p left := by
  cases left with
  | nil => exact absurd rfl hne
  | cons c rest => exact h

theorem headNot_dropWhile (p : Char → Bool) (text : List Char) : HeadNot p (text.dropWhile p) := by
  intro c hc
  have hhead := List.head?_dropWhile_not p text
  rw [hc] at hhead
  simpa using hhead

theorem takeWhile_run (hrun : ∀ c ∈ run, p c = true) (htext : HeadNot p text) :
    (run ++ text).takeWhile p = run := by
  rw [List.takeWhile_append_of_pos hrun]
  cases text with
  | nil => simp
  | cons c rest => simp [headNot_cons.mp htext]

theorem dropWhile_run (hrun : ∀ c ∈ run, p c = true) (htext : HeadNot p text) :
    (run ++ text).dropWhile p = text := by
  rw [List.dropWhile_append_of_pos hrun]
  cases text with
  | nil => rfl
  | cons c rest => simp [headNot_cons.mp htext]

theorem takeWhile_all (hrun : ∀ c ∈ run, p c = true) : run.takeWhile p = run := by
  simpa using takeWhile_run hrun (headNot_nil (p := p))

theorem takeWhile_of_stop {rest : List Char} (h : ∃ c ∈ text, p c = false) :
    (text ++ rest).takeWhile p = text.takeWhile p := by
  obtain ⟨c, hc, hstop⟩ := h
  rw [List.takeWhile_append, if_neg]
  intro hlength
  have hall := List.takeWhile_eq_self_iff.mp
    ((List.takeWhile_sublist p).eq_of_length hlength) c hc
  rw [hstop] at hall
  cases hall

/-- A text is its leading run of a class and a rest that starts outside the class. -/
theorem exists_run (p : Char → Bool) (text : List Char) :
    ∃ run rest, text = run ++ rest ∧ (∀ c ∈ run, p c = true) ∧ HeadNot p rest ∧
      text.takeWhile p = run ∧ text.drop run.length = rest := by
  have hsplit : text = text.takeWhile p ++ text.dropWhile p := List.takeWhile_append_dropWhile.symm
  refine ⟨text.takeWhile p, text.dropWhile p, hsplit, ?_, headNot_dropWhile p text, rfl, ?_⟩
  · intro c hc
    exact List.mem_takeWhile_imp hc
  · have hdrop := congrArg (List.drop (text.takeWhile p).length) hsplit
    rwa [List.drop_left] at hdrop

end Runs

/-! ### Both ends -/

section Ends

variable {p : Char → Bool} {run text : List Char}

theorem dropTrailing_append (hrun : ∀ c ∈ run, p c = true) :
    dropTrailing p (text ++ run) = dropTrailing p text := by
  induction text with
  | nil =>
      induction run with
      | nil => rfl
      | cons c rest ih =>
          have hrest := ih fun x hx => hrun x (List.mem_cons_of_mem c hx)
          simp only [List.nil_append] at hrest ⊢
          simp only [dropTrailing, hrest, hrun c List.mem_cons_self, if_true]
  | cons c rest ih => simp only [List.cons_append, dropTrailing, ih]

theorem dropTrailing_of_lastNot (h : LastNot p text) : dropTrailing p text = text := by
  induction text with
  | nil => rfl
  | cons c rest ih =>
      cases rest with
      | nil => simp [dropTrailing, h c rfl]
      | cons d rest =>
          have hrest : dropTrailing p (d :: rest) = d :: rest := ih fun x hx => h x (by simpa using hx)
          rw [dropTrailing, hrest]

theorem head?_dropTrailing {c : Char} (h : p c = false) :
    (dropTrailing p (c :: text)).head? = some c := by
  rw [dropTrailing]
  split
  · simp [h]
  · rfl

/-- A text is what is left without its trailing run of a class, and that run. -/
theorem exists_trailing (p : Char → Bool) (text : List Char) :
    ∃ run, text = dropTrailing p text ++ run ∧ (∀ c ∈ run, p c = true) ∧
      LastNot p (dropTrailing p text) := by
  induction text with
  | nil => exact ⟨[], rfl, by simp, by simp [LastNot, dropTrailing]⟩
  | cons c rest ih =>
      obtain ⟨run, hrest, hrun, hlast⟩ := ih
      cases hkept : dropTrailing p rest with
      | nil =>
          rw [hkept, List.nil_append] at hrest
          by_cases hc : p c = true
          · refine ⟨c :: run, ?_, ?_, ?_⟩
            · simp [dropTrailing, hkept, hc, ← hrest]
            · simpa [hc] using hrun
            · simp [LastNot, dropTrailing, hkept, hc]
          · refine ⟨run, ?_, hrun, ?_⟩
            · simp [dropTrailing, hkept, hc, ← hrest]
            · simp [LastNot, dropTrailing, hkept, hc]
      | cons d kept =>
          rw [hkept] at hrest hlast
          refine ⟨run, ?_, hrun, ?_⟩
          · rw [dropTrailing, hkept, hrest]
            rfl
          · intro x hx
            exact hlast x (by simpa [dropTrailing, hkept] using hx)

end Ends

/-! ### White space -/

/-- Nothing but white space. -/
def IsBlankRun (text : List Char) : Prop := ∀ c ∈ text, isBlank c = true

/-- No white space at either end. -/
structure IsTrimmed (text : List Char) : Prop where
  head : HeadNot isBlank text
  last : LastNot isBlank text

section Blanks

variable {lead text trail : List Char}

theorem isBlankRun_nil : IsBlankRun [] := by
  intro c hc
  cases hc

/-- What is not blank does not occur in a blank run. -/
theorem IsBlankRun.notMem {run : List Char} {c : Char} (h : IsBlankRun run) (hc : isBlank c = false) :
    c ∉ run := by
  intro hmem
  rw [h c hmem] at hc
  cases hc

theorem IsBlankRun.append {left right : List Char} (hleft : IsBlankRun left)
    (hright : IsBlankRun right) : IsBlankRun (left ++ right) := by
  intro c hc
  rcases List.mem_append.mp hc with h | h
  · exact hleft c h
  · exact hright c h

theorem isTrimmed_nil : IsTrimmed [] := ⟨headNot_nil, by simp [LastNot]⟩

/-- With another visible text in the place of a part, a text stays free of blanks at its ends. -/
theorem IsTrimmed.exchange {front old new back : List Char} (h : IsTrimmed (front ++ old ++ back))
    (hnew : IsTrimmed new) (hne : new ≠ []) : IsTrimmed (front ++ new ++ back) := by
  refine ⟨?_, ?_⟩
  · cases front with
    | nil =>
        obtain ⟨c, rest, rfl⟩ := List.exists_cons_of_ne_nil hne
        exact hnew.head
    | cons c rest => exact h.head
  · rcases List.eq_nil_or_concat back with rfl | ⟨rest, c, rfl⟩
    · intro x hx
      refine hnew.last x ?_
      simpa [List.getLast?_append, List.getLast?_eq_some_getLast hne] using hx
    · intro x hx
      refine h.last x ?_
      simpa using hx

theorem trim_margins (hlead : IsBlankRun lead) (htext : IsTrimmed text) (htrail : IsBlankRun trail) :
    trim (lead ++ text ++ trail) = text := by
  cases text with
  | nil =>
      have hall : ∀ c ∈ lead ++ trail, isBlank c = true := hlead.append htrail
      have hdrop : (lead ++ trail).dropWhile isBlank = [] := by
        simpa using dropWhile_run hall (headNot_nil (p := isBlank))
      simp [trim, dropAround, dropLeading, hdrop, dropTrailing]
  | cons c rest =>
      have hhead : HeadNot isBlank ((c :: rest) ++ trail) := htext.head.append (by simp)
      have hdrop : (lead ++ ((c :: rest) ++ trail)).dropWhile isBlank = (c :: rest) ++ trail :=
        dropWhile_run hlead hhead
      rw [trim, dropAround, dropLeading, List.append_assoc, hdrop, dropTrailing_append htrail,
        dropTrailing_of_lastNot htext.last]

theorem trim_of_isBlankRun (h : IsBlankRun text) : trim text = [] := by
  simpa using trim_margins h isTrimmed_nil isBlankRun_nil

/-- A text is what is left of it without its blank margins, between these margins. The left margin is
all that is blank before the first visible character, so a blank text is all left margin. -/
theorem exists_margins (text : List Char) :
    ∃ lead trail, text = lead ++ trim text ++ trail ∧ IsBlankRun lead ∧ IsBlankRun trail ∧
      IsTrimmed (trim text) ∧ text.takeWhile isBlank = lead ∧ (trim text = [] → trail = []) := by
  obtain ⟨lead, rest, htext, hlead, hrest, htake, -⟩ := exists_run isBlank text
  obtain ⟨trail, hbody, htrail, hlast⟩ := exists_trailing isBlank rest
  have htrim : trim text = dropTrailing isBlank rest := by
    rw [trim, dropAround, dropLeading, htext, dropWhile_run hlead hrest]
  have hempty : dropTrailing isBlank rest = [] → trail = [] := by
    intro hnil
    rw [hnil, List.nil_append] at hbody
    cases htrailing : trail with
    | nil => rfl
    | cons c more =>
        have hblank := htrail c (by simp [htrailing])
        have hnot := hrest c (by simp [hbody, htrailing])
        simp [hblank] at hnot
  refine ⟨lead, trail, ?_, hlead, htrail, ⟨?_, ?_⟩, htake, ?_⟩
  · rw [htrim, List.append_assoc, ← hbody, htext]
  · rw [htrim]
    by_cases hnil : dropTrailing isBlank rest = []
    · rw [hnil]
      exact headNot_nil
    · rw [hbody] at hrest
      exact hrest.of_append hnil
  · rw [htrim]
    exact hlast
  · rw [htrim]
    exact hempty

theorem trim_of_isTrimmed (h : IsTrimmed text) : trim text = text := by
  simpa using trim_margins isBlankRun_nil h isBlankRun_nil

theorem trim_trim (text : List Char) : trim (trim text) = trim text := by
  obtain ⟨-, -, -, -, -, htrimmed, -, -⟩ := exists_margins text
  exact trim_of_isTrimmed htrimmed

theorem mem_of_mem_trim {c : Char} (h : c ∈ trim text) : c ∈ text := by
  obtain ⟨lead, trail, htext, -⟩ := exists_margins text
  rw [htext]
  simp [h]

theorem mem_trim {c : Char} (hc : isBlank c = false) (h : c ∈ text) : c ∈ trim text := by
  obtain ⟨lead, trail, htext, hlead, htrail, -⟩ := exists_margins text
  rw [htext, List.mem_append, List.mem_append] at h
  rcases h with (h | h) | h
  · exact absurd h (hlead.notMem hc)
  · exact h
  · exact absurd h (htrail.notMem hc)

theorem trim_between (hlead : IsBlankRun lead) (htrail : IsBlankRun trail) :
    trim (lead ++ (text ++ trail)) = trim text := by
  obtain ⟨left, right, htext, hleft, hright, htrimmed, -, -⟩ := exists_margins text
  have hwhole : lead ++ (text ++ trail) = (lead ++ left) ++ trim text ++ (right ++ trail) := by
    conv_lhs => rw [htext]
    simp
  rw [hwhole]
  exact trim_margins (hlead.append hleft) htrimmed (hright.append htrail)

theorem takeWhile_blank (hlead : IsBlankRun lead) (htext : HeadNot isBlank text) :
    (lead ++ text).takeWhile isBlank = lead :=
  takeWhile_run hlead htext

theorem trimLeft_margin (hlead : IsBlankRun lead) (htext : HeadNot isBlank text) :
    trimLeft (lead ++ text) = text :=
  dropWhile_run hlead htext

end Blanks

end ManifestLens.Text

/-!
## Words inside a text

`cutAt?` finds the first occurrence of a word, so `hasInfix` decides whether the word occurs at all.
An occurrence cannot reach across a character that the word does not hold.
-/

namespace ManifestLens.Text

theorem isSome_cutAt? (word text : List Char) : (cutAt? word text).isSome = true ↔ word <:+: text := by
  induction text with
  | nil => simp [cutAt?, List.infix_nil]
  | cons c rest ih =>
      rw [cutAt?, List.infix_cons_iff]
      split
      · next h => simp [List.isPrefixOf_iff_prefix.mp h]
      · next h =>
          have hno : ¬ word <+: c :: rest := fun hprefix => h (List.isPrefixOf_iff_prefix.mpr hprefix)
          simp [hno, ih]

theorem hasInfix_iff (word text : List Char) : hasInfix word text = true ↔ word <:+: text :=
  isSome_cutAt? word text

theorem infix_of_append_cons {word left right : List Char} {c : Char} (hc : c ∉ word)
    (h : word <:+: left ++ c :: right) : word <:+: left ∨ word <:+: right := by
  obtain ⟨before, after, hsplit⟩ := h
  rcases List.append_eq_append_iff.mp hsplit with ⟨gap, hleft, -⟩ | ⟨gap, hfront, hback⟩
  · exact Or.inl ⟨before, gap, hleft.symm⟩
  · cases gap with
    | nil => exact Or.inl ⟨before, [], by simpa using hfront⟩
    | cons d gap =>
        obtain ⟨rfl, hright⟩ := List.cons.inj hback
        -- The word ends behind `c`, so it starts behind `c` as well.
        rcases List.append_eq_append_iff.mp hfront with ⟨more, -, hword⟩ | ⟨more, -, hword⟩
        · exact absurd (by simp [hword]) hc
        · cases more with
          | nil =>
              rw [List.nil_append] at hword
              exact absurd (by simp [← hword]) hc
          | cons e more =>
              have hgap : gap = more ++ word := (List.cons.inj hword).2
              exact Or.inr ⟨more, after, by rw [← hgap]; exact hright.symm⟩

theorem infix_of_append_apart {word left middle right : List Char} (hne : middle ≠ [])
    (hapart : ∀ c ∈ middle, c ∉ word) (h : word <:+: left ++ (middle ++ right)) :
    word <:+: left ∨ word <:+: right := by
  induction middle generalizing left with
  | nil => exact absurd rfl hne
  | cons c rest ih =>
      rcases infix_of_append_cons (hapart c (by simp)) h with hleft | hright
      · exact Or.inl hleft
      · by_cases hrest : rest = []
        · exact Or.inr (by simpa [hrest] using hright)
        · have hapart' := fun x hx => hapart x (List.mem_cons_of_mem c hx)
          rcases @ih [] hrest hapart' (by simpa using hright) with hnil | hright
          · exact Or.inl (List.infix_nil.mp hnil ▸ List.nil_infix)
          · exact Or.inr hright

end ManifestLens.Text

/-!
## What the character classes exclude

The readers tell the parts of a requirement apart by the class of the next character, so the classes
have to be disjoint: a blank is no name character, and neither of them opens a constraint.
-/

namespace ManifestLens

namespace Text

theorem isBlank_eq_false {c : Char} (hlow : 0x20 < c.toNat) (hhigh : c.toNat < 0x80) :
    isBlank c = false := by
  simp only [isBlank, Bool.or_eq_false_iff, Bool.and_eq_false_iff, beq_eq_false_iff_ne,
    decide_eq_false_iff_not]
  omega

theorem isAsciiAlnum_bounds {c : Char} (h : isAsciiAlnum c = true) :
    0x30 ≤ c.toNat ∧ c.toNat ≤ 0x7A := by
  simp only [isAsciiAlnum, isAsciiLetter, isAsciiDigit, Bool.or_eq_true, Bool.and_eq_true,
    decide_eq_true_eq, Char.le_def, UInt32.le_iff_toNat_le] at h
  simp at h
  omega

theorem isBlank_of_isAsciiAlnum {c : Char} (h : isAsciiAlnum c = true) : isBlank c = false := by
  have := isAsciiAlnum_bounds h
  exact isBlank_eq_false (by omega) (by omega)

theorem isBlank_of_isAsciiDigit {c : Char} (h : isAsciiDigit c = true) : isBlank c = false :=
  isBlank_of_isAsciiAlnum (by simp [isAsciiAlnum, h])

theorem isAsciiDigit_iff {c : Char} : isAsciiDigit c = true ↔ '0'.toNat ≤ c.toNat ∧ c.toNat ≤ '9'.toNat := by
  simp only [isAsciiDigit, Bool.and_eq_true, decide_eq_true_eq, Char.le_def, UInt32.le_iff_toNat_le]
  exact Iff.rfl

theorem decimalValue?_of_isAsciiDigit {c : Char} (h : isAsciiDigit c = true) :
    decimalValue? c = some (c.toNat - '0'.toNat) := by
  rw [decimalValue?, if_pos]
  exact isAsciiDigit_iff.mp h

theorem isDecimal_of_isAsciiDigit {c : Char} (h : isAsciiDigit c = true) : isDecimal c = true := by
  rw [isDecimal, decimalValue?_of_isAsciiDigit h]
  rfl

theorem isDecimal_of_ascii {c : Char} (h : c.toNat < 0x80) (hdigit : isAsciiDigit c = false) :
    isDecimal c = false := by
  have hnot := mt isAsciiDigit_iff.mpr (by simpa using hdigit)
  rw [isDecimal, decimalValue?, if_neg hnot, if_pos h]
  rfl

/-- Lower case moves the capitals and no other character. -/
theorem asciiLowerChar_cases (c : Char) : asciiLowerChar c = c ∨
    0x41 ≤ c.toNat ∧ c.toNat ≤ 0x5A ∧ (asciiLowerChar c).toNat = c.toNat + 0x20 := by
  unfold asciiLowerChar
  split
  · next hcapital =>
      simp only [Bool.and_eq_true, decide_eq_true_eq, Char.le_def, UInt32.le_iff_toNat_le] at hcapital
      obtain ⟨hlow, hhigh⟩ : 0x41 ≤ c.toNat ∧ c.toNat ≤ 0x5A := hcapital
      refine .inr ⟨hlow, hhigh, ?_⟩
      rw [Char.ofNat, dif_pos (.inl (by omega))]
      rfl
  · exact .inl rfl

/-- The code points of white space. -/
def blankCodes : List Nat := [0x09, 0x0A, 0x0B, 0x0C, 0x0D, 0x1C, 0x1D, 0x1E, 0x1F, 0x20, 0x85, 0xA0, 0x1680, 0x2000,
  0x2001, 0x2002, 0x2003, 0x2004, 0x2005, 0x2006, 0x2007, 0x2008, 0x2009, 0x200A, 0x2028, 0x2029, 0x202F, 0x205F,
  0x3000]

theorem forall_isBlank {p : Char → Prop} (h : ∀ n ∈ blankCodes, p (Char.ofNat n)) {c : Char}
    (hc : isBlank c = true) : p c := by
  have hcode : c.toNat ∈ blankCodes := by
    simp only [isBlank, Bool.or_eq_true, Bool.and_eq_true, beq_iff_eq, decide_eq_true_eq] at hc
    simp only [blankCodes, List.mem_cons, List.not_mem_nil, or_false]
    omega
  rw [← Char.ofNat_toNat c]
  exact h _ hcode

theorem isWordChar_of_isBlank {c : Char} (h : isBlank c = true) : isWordChar c = false :=
  forall_isBlank (p := fun c => isWordChar c = false) (by decide +kernel) h

theorem isDecimal_of_isBlank {c : Char} (h : isBlank c = true) : isDecimal c = false :=
  forall_isBlank (p := fun c => isDecimal c = false) (by decide +kernel) h

end Text

theorem isNameChar_bounds {c : Char} (h : Package.isNameChar c = true) :
    0x2D ≤ c.toNat ∧ c.toNat ≤ 0x7A := by
  simp only [Package.isNameChar, Bool.or_eq_true, beq_iff_eq] at h
  rcases h with ((halnum | rfl) | rfl) | rfl
  · have := Text.isAsciiAlnum_bounds halnum
    omega
  all_goals decide

theorem isBlank_of_isNameChar {c : Char} (h : Package.isNameChar c = true) :
    Text.isBlank c = false := by
  have := isNameChar_bounds h
  exact Text.isBlank_eq_false (by omega) (by omega)

theorem isNameChar_of_isBlank {c : Char} (h : Text.isBlank c = true) :
    Package.isNameChar c = false := by
  by_contra hname
  have := isBlank_of_isNameChar (by simpa using hname)
  rw [this] at h
  cases h

theorem isOperatorStart_iff {c : Char} : isOperatorStart c = true ↔
    c = '^' ∨ c = '~' ∨ c = '=' ∨ c = '<' ∨ c = '>' ∨ c = '!' := by
  have hlist : "^~=<>!".toList = ['^', '~', '=', '<', '>', '!'] := by decide
  rw [isOperatorStart, hlist, List.contains_eq_mem, decide_eq_true_eq]
  simp only [List.mem_cons, List.not_mem_nil, or_false]

theorem isOperatorStart_excludes {c : Char} (h : isOperatorStart c = true) :
    Text.isBlank c = false ∧ Package.isNameChar c = false ∧ c ≠ '[' ∧ c ≠ '(' ∧ c ≠ ';' := by
  rcases isOperatorStart_iff.mp h with rfl | rfl | rfl | rfl | rfl | rfl <;> decide

end ManifestLens
