import ManifestLens.Manifest.Dialect.RequirementsLine
import ManifestLens.Proofs.Manifest.Requirement
import ManifestLens.Proofs.Text.Trim

/-!
# The part of a requirements line that is read

A requirements line is cut at a comment, at an option and at a backslash before its requirement is read.
Comment and option are found by the same search: a blank stops the line if what follows it starts a
comment or an option. So a word without blanks, put in anywhere behind the name of the package, is cut
off only if it starts one of them itself.
-/

namespace ManifestLens

open Text

/-! ### Cutting at a blank -/

/-- The text up to the first blank that stops it, by what follows that blank. -/
def cutBefore (stops : List Char → Bool) : List Char → List Char
  | [] => []
  | c :: rest => if isBlank c && stops rest then [] else c :: cutBefore stops rest

def startsComment (text : List Char) : Bool := text.head? == some '#'

theorem beforeSpacedComment_eq (text : List Char) :
    beforeSpacedComment text = cutBefore startsComment text := by
  induction text with
  | nil => rfl
  | cons c rest ih =>
      rw [beforeSpacedComment, ih]
      rfl

theorem withoutOptions_eq (text : List Char) : withoutOptions text = cutBefore startsOption text := by
  induction text with
  | nil => rfl
  | cons c rest ih => simp only [withoutOptions, cutBefore, ih]

/-- No blank of the first text stops the two texts together. -/
def Uncut (stops : List Char → Bool) (left right : List Char) : Prop :=
  ∀ front c back, left = front ++ c :: back → isBlank c = true → stops (back ++ right) = false

section Cut

variable {stops : List Char → Bool} {left right : List Char}

theorem uncut_nil : Uncut stops [] right := by
  intro front c back h
  simp at h

theorem uncut_cons {c : Char} : Uncut stops (c :: left) right ↔
    (isBlank c = true → stops (left ++ right) = false) ∧ Uncut stops left right := by
  constructor
  · intro h
    exact ⟨fun hc => h [] c left rfl hc, fun front d back hleft hd =>
      h (c :: front) d back (by rw [hleft]; rfl) hd⟩
  · rintro ⟨hc, hleft⟩ front d back hsplit hd
    cases front with
    | nil =>
        obtain ⟨rfl, rfl⟩ := List.cons.inj hsplit
        exact hc hd
    | cons e front => exact hleft front d back (List.cons.inj hsplit).2 hd

theorem uncut_append {middle : List Char} : Uncut stops (left ++ middle) right ↔
    Uncut stops left (middle ++ right) ∧ Uncut stops middle right := by
  induction left with
  | nil => simp [uncut_nil]
  | cons c rest ih => simp [uncut_cons, ih, and_assoc]

theorem uncut_of_not_blank (h : ∀ c ∈ left, isBlank c = false) : Uncut stops left right := by
  rintro front c back rfl hc
  rw [h c (by simp)] at hc
  cases hc

theorem uncut_blanks (hleft : IsBlankRun left) (hright : stops right = false)
    (hblank : ∀ c rest, isBlank c = true → stops (c :: rest) = false) : Uncut stops left right := by
  rintro front c back rfl -
  cases back with
  | nil => exact hright
  | cons d back => exact hblank d (back ++ right) (hleft d (by simp))

theorem cutBefore_append (h : Uncut stops left right) :
    cutBefore stops (left ++ right) = left ++ cutBefore stops right := by
  induction left with
  | nil => rfl
  | cons c rest ih =>
      obtain ⟨hc, hrest⟩ := uncut_cons.mp h
      have hgo : (isBlank c && stops (rest ++ right)) = false := by
        cases hblank : isBlank c with
        | false => rfl
        | true => simpa using hc hblank
      simp [cutBefore, hgo, ih hrest]

theorem uncut_of_cutBefore {kept : List Char} (h : cutBefore stops (left ++ right) = left ++ kept) :
    Uncut stops left right ∧ cutBefore stops right = kept := by
  induction left with
  | nil => exact ⟨uncut_nil, h⟩
  | cons c rest ih =>
      simp only [List.cons_append, cutBefore] at h
      split at h
      · cases h
      · next hgo =>
          obtain ⟨hrest, hkept⟩ := ih (List.cons.inj h).2
          refine ⟨uncut_cons.mpr ⟨fun hc => ?_, hrest⟩, hkept⟩
          simpa [hc] using hgo

theorem cutBefore_isPrefix (stops : List Char → Bool) (text : List Char) :
    cutBefore stops text <+: text := by
  induction text with
  | nil => simp [cutBefore]
  | cons c rest ih =>
      rw [cutBefore]
      split
      · exact List.nil_prefix
      · exact (List.prefix_cons_inj c).mpr ih

/-- Whether a text stops there is settled before a character that belongs to no comment or option. -/
def SettledBefore (stops : List Char → Bool) (c : Char) : Prop :=
  ∀ front back other, stops (front ++ c :: back) = true → stops (front ++ other) = true

/-- A word without blanks, put in the place of another one, stops nothing. -/
theorem Uncut.exchange {old new : List Char} (h : Uncut stops left (old ++ right))
    (hblank : ∀ c ∈ new, isBlank c = false)
    (hhead : ∃ c rest, new = c :: rest ∧ SettledBefore stops c) : Uncut stops (left ++ new) right := by
  refine uncut_append.mpr ⟨?_, uncut_of_not_blank hblank⟩
  rintro front d back rfl hd
  obtain ⟨c, rest, rfl, hsettled⟩ := hhead
  by_contra hstops
  have hnew : stops (back ++ c :: (rest ++ right)) = true := by simpa using hstops
  have hold := hsettled back (rest ++ right) (old ++ right) hnew
  rw [h front d back rfl hd] at hold
  cases hold

end Cut

theorem settledBefore_startsComment {c : Char} (h : c ≠ '#') : SettledBefore startsComment c := by
  intro front back other hstops
  cases front with
  | nil => simp [startsComment, h] at hstops
  | cons d front => simpa [startsComment] using hstops

theorem startsOption_iff (text : List Char) : startsOption text = true ↔
    (∃ c rest, text = '-' :: c :: rest ∧ isAsciiLetter c = true) ∨
      ∃ c rest, text = '-' :: '-' :: c :: rest ∧ isAsciiLetter c = true := by
  have hhyphen : isAsciiLetter '-' = false := by decide
  unfold startsOption
  split
  · simp [hhyphen]
  · next c rest hne =>
      constructor
      · intro h
        exact Or.inl ⟨c, rest, rfl, h⟩
      · rintro (⟨d, more, hsplit, hd⟩ | ⟨d, more, hsplit, -⟩)
        · obtain ⟨rfl, -⟩ := List.cons.inj (List.cons.inj hsplit).2
          exact hd
        · obtain ⟨rfl, rfl⟩ := List.cons.inj (List.cons.inj hsplit).2
          exact absurd rfl (hne d more rfl)
  · next hlong hshort =>
      constructor
      · intro h
        cases h
      · rintro (⟨d, more, rfl, -⟩ | ⟨d, more, rfl, -⟩)
        · exact absurd rfl (hshort d more)
        · exact absurd rfl (hlong d more)

theorem settledBefore_startsOption {c : Char} (hhyphen : c ≠ '-') (hletter : isAsciiLetter c = false) :
    SettledBefore startsOption c := by
  have hno : isAsciiLetter '-' = false := by decide
  intro front back other hstops
  rw [startsOption_iff] at hstops ⊢
  rcases hstops with ⟨d, rest, hsplit, hd⟩ | ⟨d, rest, hsplit, hd⟩
  all_goals
    rcases front with _ | ⟨e, _ | ⟨f, _ | ⟨g, front⟩⟩⟩ <;>
      simp only [List.nil_append, List.cons_append, List.cons.injEq] at hsplit <;> grind

/-! ### The end of the line -/

/-- A blank or a backslash, none of which ends a requirement. -/
def isLineTail (c : Char) : Bool := isBlank c || c == '\\'

theorem clipped_continued {text blanks : List Char} (h : IsBlankRun blanks) :
    withoutContinuation (trimRight (text ++ '\\' :: blanks)) = text := by
  have hlast : LastNot isBlank (text ++ ['\\']) := by
    intro c hc
    obtain rfl : c = '\\' := by simpa using hc.symm
    decide
  have hsplit : text ++ '\\' :: blanks = (text ++ ['\\']) ++ blanks := by simp
  rw [hsplit, trimRight, dropTrailing_append h, dropTrailing_of_lastNot hlast]
  simp [withoutContinuation]

theorem clipped_blanks {text blanks : List Char} (h : IsBlankRun blanks)
    (hlast : LastNot isLineTail text) :
    withoutContinuation (trimRight (text ++ blanks)) = text := by
  have hblank : LastNot isBlank text := by
    intro c hc
    have := hlast c hc
    simp only [isLineTail, Bool.or_eq_false_iff] at this
    exact this.1
  rw [trimRight, dropTrailing_append h, dropTrailing_of_lastNot hblank, withoutContinuation]
  split
  · next hc =>
      have := hlast '\\' hc
      simp [isLineTail] at this
  · rfl

/-- At its end a line is cut at a backslash, or only blanks are cut off. -/
theorem exists_clipped {text part : List Char} (h : withoutContinuation (trimRight text) = part) :
    ∃ cut, text = part ++ cut ∧ ((∃ blanks, cut = '\\' :: blanks ∧ IsBlankRun blanks) ∨
      IsBlankRun cut ∧ LastNot isLineTail part) := by
  obtain ⟨blanks, htext, hblanks, hlast⟩ := exists_trailing isBlank text
  rw [withoutContinuation] at h
  split at h
  · next hc =>
      refine ⟨'\\' :: blanks, ?_, Or.inl ⟨blanks, rfl, hblanks⟩⟩
      have hback : part ++ ['\\'] = dropTrailing isBlank text := by
        rw [← h]
        exact List.dropLast_append_getLast? '\\' hc
      rw [htext, ← hback]
      simp
  · next hc =>
      subst h
      refine ⟨blanks, htext, Or.inr ⟨hblanks, fun c hlastChar => ?_⟩⟩
      have hne : c ≠ '\\' := by
        rintro rfl
        exact hc hlastChar
      simp [isLineTail, hlast c hlastChar, hne]

theorem clipped_exchange {left old new kept rest : List Char}
    (h : withoutContinuation (trimRight (left ++ old ++ kept ++ rest)) = left ++ old ++ kept)
    (hne : new ≠ []) (hnew : ∀ c ∈ new, isLineTail c = false) :
    withoutContinuation (trimRight (left ++ new ++ kept ++ rest)) = left ++ new ++ kept := by
  obtain ⟨cut, hcut, hcases⟩ := exists_clipped h
  obtain rfl := List.append_cancel_left hcut
  rcases hcases with ⟨blanks, rfl, hblanks⟩ | ⟨hblanks, hlast⟩
  · exact clipped_continued hblanks
  · refine clipped_blanks hblanks fun c hc => ?_
    by_cases hkept : kept = []
    · rw [hkept, List.append_nil, List.getLast?_append_of_ne_nil _ hne] at hc
      exact hnew c (List.mem_of_getLast? hc)
    · rw [List.getLast?_append_of_ne_nil _ hkept] at hc
      exact hlast c (by rwa [List.getLast?_append_of_ne_nil _ hkept])

/-! ### The part that is read -/

/-- What an edit writes into a constraint: an operator or a digit first, and then whatever may stand in a
constraint besides blanks. -/
structure IsPatch (text : List Char) : Prop where
  head : ∃ c rest, text = c :: rest ∧ (isOperatorStart c = true ∨ isAsciiDigit c = true)
  all : ∀ c ∈ text, isConstraintChar c = true ∧ isBlank c = false

theorem requirementPart_eq (text : List Char) (h : text.head? ≠ some '#') :
    requirementPart text = withoutContinuation
      (trimRight (cutBefore startsOption (cutBefore startsComment text))) := by
  rw [requirementPart, withoutComment, if_neg h, withoutOptions_eq, beforeSpacedComment_eq]

theorem ne_of_isConstraintChar {c d : Char} (h : isConstraintChar c = true)
    (hd : isConstraintChar d = false) : c ≠ d := by
  rintro rfl
  rw [h] at hd
  cases hd

theorem isAsciiDigit_bounds {c : Char} (h : isAsciiDigit c = true) :
    0x30 ≤ c.toNat ∧ c.toNat ≤ 0x39 := by
  simp only [isAsciiDigit, Bool.and_eq_true, decide_eq_true_eq, Char.le_def,
    UInt32.le_iff_toNat_le] at h
  simpa using h

theorem isAsciiLetter_bounds {c : Char} (h : isAsciiLetter c = true) : 0x41 ≤ c.toNat := by
  simp only [isAsciiLetter, Bool.or_eq_true, Bool.and_eq_true, decide_eq_true_eq, Char.le_def,
    UInt32.le_iff_toNat_le] at h
  simp at h
  omega

theorem settledBefore_of_head {c : Char} (h : isOperatorStart c = true ∨ isAsciiDigit c = true) :
    SettledBefore startsComment c ∧ SettledBefore startsOption c := by
  have hchar : c ≠ '#' ∧ c ≠ '-' ∧ isAsciiLetter c = false := by
    rcases h with h | h
    · rcases isOperatorStart_iff.mp h with rfl | rfl | rfl | rfl | rfl | rfl <;> decide
    · have hbounds := isAsciiDigit_bounds h
      refine ⟨?_, ?_, ?_⟩
      · rintro rfl
        revert h
        decide
      · rintro rfl
        revert h
        decide
      · by_contra hletter
        have := isAsciiLetter_bounds (by simpa using hletter)
        omega
  exact ⟨settledBefore_startsComment hchar.1, settledBefore_startsOption hchar.2.1 hchar.2.2⟩

namespace IsPatch

variable {text : List Char}

theorem ne_nil (h : IsPatch text) : text ≠ [] := by
  obtain ⟨c, rest, rfl, -⟩ := h.head
  simp

theorem isLineTail (h : IsPatch text) : ∀ c ∈ text, isLineTail c = false := by
  intro c hc
  obtain ⟨hchar, hblank⟩ := h.all c hc
  simp [ManifestLens.isLineTail, hblank, ne_of_isConstraintChar hchar (d := '\\') (by decide)]

end IsPatch

/-- **A patch behind the name is not cut off.** If a line is read up to some point behind `old`, then with
a patch in the place of `old` it is read up to the same point. -/
theorem requirementPart_exchange {left old right kept new : List Char} (hleft : left ≠ [])
    (hnew : IsPatch new)
    (h : requirementPart (left ++ old ++ right) = left ++ old ++ kept) :
    requirementPart (left ++ new ++ right) = left ++ new ++ kept := by
  obtain ⟨first, more, rfl⟩ := List.exists_cons_of_ne_nil hleft
  have hfirst : first ≠ '#' := by
    rintro rfl
    have : requirementPart ('#' :: more ++ old ++ right) = [] := by
      simp [requirementPart, withoutComment, withoutOptions, dropTrailing, withoutContinuation]
    rw [this] at h
    simp at h
  have hhead : ∀ rest, (first :: more ++ rest).head? ≠ some '#' := fun rest => by simpa using hfirst
  rw [requirementPart_eq _ (by rw [List.append_assoc]; exact hhead _)] at h ⊢
  -- The line with `old`, cut three times: at its end, at an option, at a comment.
  obtain ⟨ending, hending, -⟩ := exists_clipped h
  obtain ⟨options, hoptions⟩ := cutBefore_isPrefix startsOption
    (cutBefore startsComment (first :: more ++ old ++ right))
  rw [hending] at hoptions
  obtain ⟨hcomment, hrest⟩ : Uncut startsComment (first :: more ++ old) right ∧
      cutBefore startsComment right = kept ++ ending ++ options :=
    uncut_of_cutBefore (by simpa using hoptions.symm)
  rw [← hoptions] at hending
  obtain ⟨hoption, hbody⟩ : Uncut startsOption (first :: more ++ old) (kept ++ ending ++ options) ∧
      cutBefore startsOption (kept ++ ending ++ options) = kept ++ ending :=
    uncut_of_cutBefore (by simpa using hending)
  obtain ⟨c, rest, hword, hstart⟩ := hnew.head
  obtain ⟨hsettledComment, hsettledOption⟩ := settledBefore_of_head hstart
  have hblank : ∀ x ∈ new, isBlank x = false := fun x hx => (hnew.all x hx).2
  have hcomment' := (uncut_append.mp hcomment).1.exchange hblank ⟨c, rest, hword, hsettledComment⟩
  have hoption' := (uncut_append.mp hoption).1.exchange hblank ⟨c, rest, hword, hsettledOption⟩
  rw [cutBefore_append hcomment', hrest, cutBefore_append hoption', hbody, ← List.append_assoc]
  rw [← hoptions, hending] at h
  exact clipped_exchange h hnew.ne_nil hnew.isLineTail

/-! ### Lines that name a package -/

theorem dropTrailing_append_of_lastNot {p : Char → Bool} {left right : List Char}
    (hne : left ≠ []) (hlast : LastNot p left) :
    dropTrailing p (left ++ right) = left ++ dropTrailing p right := by
  induction left with
  | nil => exact absurd rfl hne
  | cons c rest ih =>
      by_cases hrest : rest = []
      · subst hrest
        have hc : p c = false := hlast c rfl
        simp only [List.cons_append, List.nil_append, dropTrailing]
        split
        · next h => simp [hc, h]
        · next h => rfl
      · have hmore := ih hrest fun x hx => hlast x (by
          rw [List.getLast?_cons_of_ne_nil hrest]
          exact hx)
        obtain ⟨d, more, rfl⟩ := List.exists_cons_of_ne_nil hrest
        rw [List.cons_append, dropTrailing, hmore]
        rfl

/-- A character that tells a scheme from a name. -/
def isSchemeMark (c : Char) : Bool := c == '+' || c == ':'

/-- A scheme is a word and a mark, and maybe more. -/
theorem exists_of_mem_remoteSchemes {scheme : List Char} (h : scheme ∈ remoteSchemes) :
    ∃ word mark more, scheme = word ++ mark :: more ∧
      (∀ c ∈ word, Package.isNameChar c = true) ∧ isSchemeMark mark = true := by
  have hschemes : remoteSchemes = ["git+".toList, "hg+".toList, "svn+".toList, "bzr+".toList,
      "http://".toList, "https://".toList, "file://".toList, "ftp://".toList] := rfl
  rw [hschemes] at h
  simp only [List.mem_cons, List.not_mem_nil, or_false] at h
  rcases h with rfl | rfl | rfl | rfl | rfl | rfl | rfl | rfl
  · exact ⟨"git".toList, '+', [], by decide, by decide, by decide⟩
  · exact ⟨"hg".toList, '+', [], by decide, by decide, by decide⟩
  · exact ⟨"svn".toList, '+', [], by decide, by decide, by decide⟩
  · exact ⟨"bzr".toList, '+', [], by decide, by decide, by decide⟩
  · exact ⟨"http".toList, ':', "//".toList, by decide, by decide, by decide⟩
  · exact ⟨"https".toList, ':', "//".toList, by decide, by decide, by decide⟩
  · exact ⟨"file".toList, ':', "//".toList, by decide, by decide, by decide⟩
  · exact ⟨"ftp".toList, ':', "//".toList, by decide, by decide, by decide⟩

/-- Behind a word of the class the first character outside it is where the other text has its own. -/
theorem head?_of_prefix_run {p : Char → Bool} {word more run rest : List Char} {mark : Char}
    (hword : ∀ c ∈ word, p c = true) (hmark : p mark = false) (hrun : ∀ c ∈ run, p c = true)
    (hrest : HeadNot p rest) (h : word ++ mark :: more <+: run ++ rest) : rest.head? = some mark := by
  induction word generalizing run with
  | nil =>
      cases run with
      | nil =>
          obtain ⟨after, rfl⟩ := h
          rfl
      | cons d run =>
          obtain ⟨rfl, -⟩ := List.cons_prefix_cons.mp h
          rw [hrun mark (by simp)] at hmark
          cases hmark
  | cons c word ih =>
      have hc := hword c (by simp)
      cases run with
      | nil =>
          obtain ⟨after, rfl⟩ := h
          have := headNot_cons.mp hrest
          rw [hc] at this
          cases this
      | cons d run =>
          exact ih (fun x hx => hword x (List.mem_cons_of_mem c hx))
            (fun x hx => hrun x (List.mem_cons_of_mem d hx)) (List.cons_prefix_cons.mp h).2

theorem isNameChar_asciiLowerChar {c : Char} (h : Package.isNameChar c = true) :
    Package.isNameChar (asciiLowerChar c) = true := by
  rcases asciiLowerChar_cases c with heq | ⟨hlow, hhigh, hlower⟩
  · rwa [heq]
  · have hletter : isAsciiLetter (asciiLowerChar c) = true := by
      simp only [isAsciiLetter, Bool.or_eq_true, Bool.and_eq_true, decide_eq_true_eq, Char.le_def,
        UInt32.le_iff_toNat_le]
      left
      simp only [Char.toNat_val, Char.reduceToNat, hlower]
      omega
    simp [Package.isNameChar, isAsciiAlnum, hletter]

theorem asciiLowerChar_of_not_isNameChar {c : Char} (h : Package.isNameChar c = false) :
    asciiLowerChar c = c := by
  rw [asciiLowerChar, if_neg]
  intro hupper
  simp [Package.isNameChar, isAsciiAlnum, isAsciiLetter, hupper] at h

/-- **A line that starts with a name** is not taken for an option, a path or a URL, unless the name goes
on like a scheme. -/
theorem isUnnamedLine_eq_false {indent name rest : List Char} (hindent : IsBlankRun indent)
    (hname : IsWrittenName name) (hrest : HeadNot Package.isNameChar rest)
    (hmark : HeadNot isSchemeMark rest) : isUnnamedLine (indent ++ (name ++ rest)) = false := by
  have hlast : LastNot isBlank name := fun c hc =>
    isBlank_of_isNameChar (hname.all c (List.mem_of_getLast? hc))
  have hbody : trim (indent ++ (name ++ rest)) = name ++ trimRight rest := by
    have hhead : HeadNot isBlank (name ++ rest) :=
      hname.headNot_isBlank.append fun h => absurd h hname.ne_nil
    rw [trim, dropAround, dropLeading, dropWhile_run hindent hhead]
    exact dropTrailing_append_of_lastNot hname.ne_nil hlast
  obtain ⟨blanks, hsplit, -, -⟩ := exists_trailing isBlank rest
  have hcut : ∀ p : Char → Bool, HeadNot p rest → HeadNot p (trimRight rest) := by
    intro p hp
    by_cases hne : trimRight rest = []
    · rw [hne]
      exact headNot_nil
    · rw [hsplit] at hp
      exact hp.of_append hne
  obtain ⟨first, more, rfl, hfirst⟩ := hname.head
  have hbounds := isAsciiAlnum_bounds hfirst
  have hpath : "#-./~".toList.contains first = false := by
    have hlist : "#-./~".toList = ['#', '-', '.', '/', '~'] := by decide
    rw [hlist]
    simp only [List.contains_eq_mem, List.mem_cons, List.not_mem_nil, or_false,
      decide_eq_false_iff_not, not_or]
    refine ⟨?_, ?_, ?_, ?_, ?_⟩ <;> rintro rfl <;> simp at hbounds
  have hscheme : (remoteSchemes.any fun scheme =>
      scheme.isPrefixOf (asciiLower (first :: more ++ trimRight rest))) = false := by
    rw [List.any_eq_false]
    intro scheme hmem hprefix
    obtain ⟨word, mark, tail, rfl, hword, hmarkChar⟩ := exists_of_mem_remoteSchemes hmem
    have hnot : Package.isNameChar mark = false := by
      simp only [isSchemeMark, Bool.or_eq_true, beq_iff_eq] at hmarkChar
      rcases hmarkChar with rfl | rfl <;> decide
    have hlowerRest : ∀ c, (asciiLower (trimRight rest)).head? = some c →
        (trimRight rest).head? = some c := by
      intro c hc
      cases htrim : trimRight rest with
      | nil => simp [htrim, asciiLower] at hc
      | cons d tail =>
          have hd := hcut _ hrest d (by rw [htrim]; rfl)
          rw [htrim] at hc
          simpa [asciiLower, asciiLowerChar_of_not_isNameChar hd] using hc
    rw [List.isPrefixOf_iff_prefix, asciiLower, List.map_append] at hprefix
    have hhead := head?_of_prefix_run hword hnot ?_ ?_ hprefix
    · have := hcut _ hmark mark (hlowerRest mark hhead)
      rw [hmarkChar] at this
      cases this
    · intro c hc
      obtain ⟨d, hd, rfl⟩ := List.mem_map.mp hc
      exact isNameChar_asciiLowerChar (hname.all d hd)
    · intro c hc
      exact hcut _ hrest c (hlowerRest c hc)
  rw [isUnnamedLine, hbody]
  simp only [List.cons_append] at hscheme ⊢
  simp only [hpath, hscheme, Bool.or_false]

/-! ### The requirement of a line -/

def pointsElsewhere (code : List Char) : Bool :=
  (code.takeWhile (· != ';')).contains '@' ||
    hasInfix "://".toList (code.takeWhile (· != ';'))

theorem pointsElsewhere_eq_false {code : List Char} : pointsElsewhere code = false ↔
    '@' ∉ code.takeWhile (· != ';') ∧ ¬ "://".toList <:+: code.takeWhile (· != ';') := by
  rw [pointsElsewhere, Bool.or_eq_false_iff, ← Bool.not_eq_true, ← Bool.not_eq_true, hasInfix_iff]
  simp

theorem pointsElsewhere_exchange {left old kept new : List Char} (hnew : IsPatch new)
    (hold : ∀ c ∈ old, c ≠ ';') (h : pointsElsewhere (left ++ (old ++ kept)) = false) :
    pointsElsewhere (left ++ (new ++ kept)) = false := by
  rw [pointsElsewhere_eq_false] at h ⊢
  have hne : ∀ d, isConstraintChar d = false → ∀ c ∈ new, c ≠ d :=
    fun d hd c hc => ne_of_isConstraintChar (hnew.all c hc).1 hd
  by_cases hmarked : ∀ c ∈ left, (c != ';') = true
  · have hcut : ∀ word : List Char, (∀ c ∈ word, c ≠ ';') →
        (left ++ (word ++ kept)).takeWhile (· != ';') = left ++ (word ++ kept.takeWhile (· != ';')) := by
      intro word hword
      rw [List.takeWhile_append_of_pos hmarked,
        List.takeWhile_append_of_pos fun c hc => by simpa using hword c hc]
    rw [hcut old hold] at h
    rw [hcut new (hne ';' (by decide))]
    refine ⟨fun hmem => ?_, fun hinfix => ?_⟩
    · simp only [List.mem_append, not_or] at h hmem
      rcases hmem with hmem | hmem | hmem
      · exact h.1.1 hmem
      · exact hne '@' (by decide) '@' hmem rfl
      · exact h.1.2.2 hmem
    · have hapart : ∀ c ∈ new, c ∉ "://".toList := by
        intro c hc hmem
        have hlist : "://".toList = [':', '/', '/'] := by decide
        rw [hlist] at hmem
        simp only [List.mem_cons, List.not_mem_nil, or_false] at hmem
        rcases hmem with rfl | rfl | rfl
        · exact hne ':' (by decide) _ hc rfl
        · exact hne '/' (by decide) _ hc rfl
        · exact hne '/' (by decide) _ hc rfl
      rcases infix_of_append_apart hnew.ne_nil hapart hinfix with hleft | hright
      · exact h.2 (hleft.trans (List.prefix_append _ _).isInfix)
      · exact h.2 (hright.trans ((List.suffix_append _ _).isInfix.trans
          (List.suffix_append _ _).isInfix))
  · -- The marker starts before the constraint, so the constraint is not looked at.
    have hstop : ∃ c ∈ left, (c != ';') = false := by simpa using hmarked
    rw [takeWhile_of_stop hstop] at h ⊢
    exact h

section Line

variable {rule : NameRule} {text : List Char} {number : Nat} {group : Group} {d : Dependency}

theorem requirementsDependencies_eq (rule : NameRule) (number : Nat) (group : Group)
    (form : RequirementForm) (hpart : requirementPart text = form.text)
    (hnamed : isUnnamedLine text = false) (hhere : pointsElsewhere form.text = false) :
    requirementsDependencies rule text number group
      = ((form.requirement 0).toDependency? rule .requirementsLine number group).toList := by
  rw [pointsElsewhere] at hhere
  simp only [requirementsDependencies, hnamed, hpart, hhere, Bool.false_eq_true, if_false,
    form.read?_text, Option.bind_some]

/-- A dependency of a requirements line is the requirement that its part states. -/
theorem exists_of_mem_requirementsDependencies
    (h : d ∈ requirementsDependencies rule text number group) :
    ∃ form : RequirementForm, requirementPart text = form.text ∧ isUnnamedLine text = false ∧
      pointsElsewhere form.text = false ∧
      (form.requirement 0).toDependency? rule .requirementsLine number group = some d := by
  rw [requirementsDependencies] at h
  split at h
  · cases h
  · next hnamed =>
      simp only at h
      split at h
      · cases h
      · next hhere =>
          rw [Option.mem_toList] at h
          obtain ⟨r, hread, hdependency⟩ := Option.bind_eq_some_iff.mp h
          obtain ⟨form, hform, rfl⟩ := exists_requirementForm hread
          exact ⟨form, hform.symm, by simpa using hnamed, by simpa [pointsElsewhere, hform] using hhere,
            hdependency⟩

theorem requirementPart_isPrefix (text : List Char) : requirementPart text <+: text := by
  rw [requirementPart, withoutComment]
  split
  · simp [withoutOptions, dropTrailing, withoutContinuation]
  · rw [withoutOptions_eq, beforeSpacedComment_eq]
    obtain ⟨cut, hcut, -⟩ := exists_clipped (rfl : withoutContinuation (trimRight
      (cutBefore startsOption (cutBefore startsComment text))) = _)
    have hclipped := List.IsPrefix.trans ⟨cut, hcut.symm⟩ (cutBefore_isPrefix startsOption _)
    exact hclipped.trans (cutBefore_isPrefix startsComment text)

theorem isSchemeMark_eq_false {c : Char} (h : isBlank c = true ∨ isOperatorStart c = true ∨ c = '[') :
    isSchemeMark c = false := by
  rw [isSchemeMark, Bool.or_eq_false_iff, beq_eq_false_iff_ne, beq_eq_false_iff_ne]
  have hplus : isBlank '+' = false ∧ isOperatorStart '+' = false := by decide
  have hcolon : isBlank ':' = false ∧ isOperatorStart ':' = false := by decide
  refine ⟨?_, ?_⟩ <;> rintro rfl <;> simp_all

theorem headNot_isSchemeMark_afterName (form : RequirementForm) (hne : form.constraint ≠ [])
    (rest : List Char) :
    HeadNot isSchemeMark (bracketText form.bracket ++ (form.gap ++ (form.constraint ++ rest))) := by
  have hblanks : ∀ run, IsBlankRun run → HeadNot isSchemeMark run := fun run hrun c hc =>
    isSchemeMark_eq_false (Or.inl (hrun c (List.mem_of_head? hc)))
  refine HeadNot.append ?_ fun _ => HeadNot.append (hblanks _ form.gap_blank) fun _ => ?_
  · cases form.bracket with
    | none => exact headNot_nil
    | some bracket =>
        have hgap := hblanks _ bracket.gap_blank
        have : HeadNot isSchemeMark (bracket.gap ++ '[' :: (bracket.inner ++
            (if bracket.isClosed then [']'] else []))) :=
          hgap.append fun _ => headNot_cons.mpr (isSchemeMark_eq_false (Or.inr (Or.inr rfl)))
        simpa [bracketText, ExtrasForm.text] using this
  · obtain ⟨c, more, hc, hstart, -⟩ := form.constraint_text.exists_head hne
    rw [hc]
    exact headNot_cons.mpr (isSchemeMark_eq_false (Or.inr (Or.inl hstart)))

/-- **A patched requirements line.** With a patch in its constraint a line still states one requirement,
with the patched constraint. -/
theorem requirementsDependencies_exchange (rule : NameRule) (number : Nat) (group : Group)
    (form : RequirementForm) {front old back new rest : List Char}
    (hpart : requirementPart (form.text ++ rest) = form.text)
    (hhere : pointsElsewhere form.text = false)
    (hconstraint : form.constraint = front ++ old ++ back) (hnew : IsPatch new)
    (hvalid : IsConstraintText (front ++ new ++ back)) (hne : front ++ new ++ back ≠ [])
    (hclosed : ∀ b, form.bracket = some b → b.isClosed = true) :
    requirementsDependencies rule
        ((form.withConstraint (front ++ new ++ back) hvalid hne hclosed).text ++ rest) number group
      = (((form.withConstraint (front ++ new ++ back) hvalid hne hclosed).requirement 0).toDependency?
          rule .requirementsLine number group).toList := by
  generalize hform : form.withConstraint (front ++ new ++ back) hvalid hne hclosed = other
  have hother : other.text = form.head ++ front ++ new ++ (back ++ form.tail) := by
    rw [← hform]
    simp [RequirementForm.text, RequirementForm.withConstraint, RequirementForm.head,
      RequirementForm.tail]
  have htext : form.text = form.head ++ front ++ old ++ (back ++ form.tail) := by
    simp [RequirementForm.text, hconstraint]
  have hhead : form.head ++ front ≠ [] := by
    simp [RequirementForm.head, form.name_written.ne_nil]
  refine requirementsDependencies_eq rule number group other ?_ ?_ ?_
  · rw [htext] at hpart
    rw [hother]
    have hold : requirementPart ((form.head ++ front) ++ old ++ (back ++ form.tail ++ rest))
        = (form.head ++ front) ++ old ++ (back ++ form.tail) := by simpa using hpart
    simpa using requirementPart_exchange hhead hnew hold
  · have hsplit : other.text ++ rest = other.indent ++ (other.name ++ (bracketText other.bracket
        ++ (other.gap ++ (other.constraint ++ (other.tail ++ rest))))) := by
      simp [RequirementForm.text, RequirementForm.head]
    have hconstraintNe : other.constraint ≠ [] := by
      rw [← hform]
      exact hne
    rw [hsplit]
    refine isUnnamedLine_eq_false other.indent_blank other.name_written ?_
      (headNot_isSchemeMark_afterName other hconstraintNe _)
    have hbare : bracketText other.bracket ++ (other.gap ++ (other.constraint ++ other.tail)) = [] →
        HeadNot Package.isNameChar rest := fun h => by simp [hconstraintNe] at h
    simpa using other.headNot_isNameChar_afterName.append hbare
  · rw [htext] at hhere
    rw [hother]
    have hold : ∀ c ∈ old, c ≠ ';' := by
      rintro c hc rfl
      exact semicolon_notMem_of_isConstraintText form.constraint_text
        (by rw [hconstraint]; simp [hc])
    have hkept : pointsElsewhere (form.head ++ front ++ (old ++ (back ++ form.tail))) = false := by
      simpa using hhere
    simpa using pointsElsewhere_exchange hnew hold hkept

end Line

end ManifestLens
