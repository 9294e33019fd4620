import ManifestLens.Console.Markup
import ManifestLens.Proofs.Error.Result
import ManifestLens.Proofs.Text.Trim
import Mathlib.Data.List.Infix

/-!
# What markup leaves of a text

Markup never adds to a text as long as no picture is longer than its name with the colons. So a text that comes out of
it whole has had nothing taken away: it holds no tag, no escaped bracket, no name of a picture and no control. This is
exact, so every other text either cannot be shown or is shown as something else. A text that has only tags is shown as
it is if it is escaped first.
-/

namespace ManifestLens

namespace Markup

variable {pictures : List (String × String)} {fuel slashes : Nat} {c : Char}
  {text run tag after code rest front : List Char}

/-! ### Tags -/

/-- What stands between the brackets of a tag. -/
def IsTag (tag : List Char) : Prop := (∃ c ∈ tag.head?, startsTag c = true) ∧ '[' ∉ tag ∧ ']' ∉ tag

def bracketed (tag : List Char) : List Char := '[' :: tag ++ [']']

theorem isTag_cons : IsTag (c :: rest) ↔ startsTag c = true ∧ '[' ∉ rest ∧ ']' ∉ rest := by
  have hstart : startsTag c = true → c ≠ '[' ∧ c ≠ ']' := by
    intro hc
    constructor <;> rintro rfl <;> exact absurd hc (by decide)
  simp only [IsTag, List.head?_cons, Option.mem_some_iff, exists_eq_left', List.mem_cons, not_or]
  constructor
  · rintro ⟨hc, ⟨-, hopen⟩, -, hclose⟩
    exact ⟨hc, hopen, hclose⟩
  · rintro ⟨hc, hopen, hclose⟩
    exact ⟨hc, ⟨(hstart hc).1.symm, hopen⟩, (hstart hc).2.symm, hclose⟩

theorem span_bracket (hopen : '[' ∉ rest) (hclose : ']' ∉ rest) (after : List Char) :
    (rest ++ ']' :: after).span (fun x => x != '[' && x != ']') = (rest, ']' :: after) := by
  have hrun : ∀ x ∈ rest, (x != '[' && x != ']') = true := by
    intro x hx
    rw [Bool.and_eq_true, bne_iff_ne, bne_iff_ne]
    exact ⟨fun heq => hopen (heq ▸ hx), fun heq => hclose (heq ▸ hx)⟩
  have hstop : Text.HeadNot (fun x => x != '[' && x != ']') (']' :: after) := Text.headNot_cons.mpr rfl
  rw [List.span_eq_takeWhile_dropWhile, Text.takeWhile_run hrun hstop, Text.dropWhile_run hrun hstop]

theorem tagAt?_bracketed (h : IsTag tag) (after : List Char) :
    tagAt? (bracketed tag ++ after) = some (tag, after) := by
  obtain ⟨⟨c, hc, hstart⟩, -⟩ := id h
  obtain ⟨rest, rfl⟩ := List.head?_eq_some_iff.mp hc
  obtain ⟨-, hopen, hclose⟩ := isTag_cons.mp h
  have hspan := span_bracket hopen hclose after
  simp only [bracketed, List.cons_append, List.append_assoc, List.nil_append, tagAt?, hstart, if_true, hspan]

theorem exists_of_tagAt? (h : tagAt? text = some (tag, after)) : IsTag tag ∧ text = bracketed tag ++ after := by
  unfold tagAt? at h
  split at h
  · next c rest =>
    split at h
    · next hstart =>
      rw [List.span_eq_takeWhile_dropWhile] at h
      split at h
      · next body after' hspan =>
        obtain ⟨hbody, hafter⟩ := Prod.mk.inj hspan
        cases h
        have hrest : rest = body ++ ']' :: after := by
          rw [← hbody, ← hafter, List.takeWhile_append_dropWhile]
        have hinside : ∀ x ∈ body, (x != '[' && x != ']') = true := by
          intro x hx
          rw [← hbody] at hx
          have hinside := List.mem_takeWhile_imp hx
          exact hinside
        refine ⟨isTag_cons.mpr ⟨hstart, fun hmem => ?_, fun hmem => ?_⟩, ?_⟩
        · exact absurd (hinside _ hmem) (by decide)
        · exact absurd (hinside _ hmem) (by decide)
        · simp [bracketed, hrest]
      · cases h
    · cases h
  · cases h

theorem exists_of_slashedTagAt? (h : slashedTagAt? text = some (slashes, tag, after)) :
    IsTag tag ∧ text = List.replicate slashes '\\' ++ (bracketed tag ++ after) := by
  obtain ⟨⟨tag, after⟩, htag, heq⟩ := Option.map_eq_some_iff.mp h
  cases heq
  obtain ⟨run, rest, heq, hrun, -, htake, hdrop⟩ := Text.exists_run (· == '\\') text
  rw [htake, hdrop] at htag
  obtain ⟨hvalid, hrest⟩ := exists_of_tagAt? htag
  have hslashes : run = List.replicate run.length '\\' :=
    List.eq_replicate_of_mem fun x hx => beq_iff_eq.mp (hrun x hx)
  refine ⟨hvalid, ?_⟩
  rw [htake, ← hslashes, ← hrest]
  exact heq

/-! ### Text without markup -/

/-- A text in which nothing is a tag and no bracket is escaped. -/
structure IsUnmarked (text : List Char) : Prop where
  tags : ∀ tag, IsTag tag → ¬bracketed tag <:+: text
  brackets : ¬['\\', '['] <:+: text

theorem isUnmarked_nil : IsUnmarked [] :=
  ⟨fun _ _ h => by simpa [bracketed] using h.length_le, fun h => by simpa using h.length_le⟩

theorem IsUnmarked.of_cons (h : IsUnmarked (c :: rest)) : IsUnmarked rest :=
  ⟨fun tag htag hmem => h.tags tag htag (List.infix_cons_iff.mpr (.inr hmem)), fun hmem =>
    h.brackets (List.infix_cons_iff.mpr (.inr hmem))⟩

/-- Where a text is marked, its first character begins the markup, or the rest is marked. -/
theorem isUnmarked_cons (hslashed : slashedTagAt? (c :: rest) = none)
    (hescaped : ¬(c = '\\' ∧ rest.head? = some '[')) : IsUnmarked (c :: rest) ↔ IsUnmarked rest := by
  refine ⟨IsUnmarked.of_cons, fun h => ⟨fun tag htag hmem => ?_, fun hmem => ?_⟩⟩
  · rcases List.infix_cons_iff.mp hmem with ⟨after, hfront⟩ | hmem
    · have htagAt := tagAt?_bracketed htag after
      obtain ⟨rfl, -⟩ := List.cons.inj hfront
      rw [hfront] at htagAt
      simp [slashedTagAt?, htagAt] at hslashed
    · exact h.tags tag htag hmem
  · rcases List.infix_cons_iff.mp hmem with ⟨after, hfront⟩ | hmem
    · obtain ⟨rfl, rfl⟩ := List.cons.inj hfront
      exact hescaped ⟨rfl, rfl⟩
    · exact h.brackets hmem

theorem slashedTagAt?_of_isUnmarked (h : IsUnmarked text) : slashedTagAt? text = none := by
  rw [Option.eq_none_iff_forall_ne_some]
  rintro ⟨slashes, tag, after⟩ hsome
  obtain ⟨htag, rfl⟩ := exists_of_slashedTagAt? hsome
  exact h.tags tag htag ⟨List.replicate slashes '\\', after, List.append_assoc ..⟩

theorem pieces_of_isUnmarked (fuel : Nat) (run : List Char) (h : IsUnmarked text) :
    pieces fuel run text = [.text (run ++ text)] := by
  fun_induction pieces fuel run text with
  | case1 => rfl
  | case2 => rw [List.append_nil]
  | case3 fuel run c rest slashes tag after hslashed =>
      rw [slashedTagAt?_of_isUnmarked h] at hslashed
      cases hslashed
  | case4 fuel run c rest hslashed hescaped =>
      obtain ⟨rfl, hhead⟩ := hescaped
      obtain ⟨rest, rfl⟩ := List.head?_eq_some_iff.mp hhead
      exact absurd ⟨[], rest, rfl⟩ h.brackets
  | case5 fuel run c rest hslashed hescaped ih =>
      rw [ih h.of_cons, List.append_assoc]
      rfl

/-! ### What is left of a text -/

/-- The length of what pieces may show, apart from pictures. -/
def size : List Piece → Nat
  | [] => 0
  | .text text :: rest => text.length + size rest
  | .tag _ :: rest => size rest

theorem size_slashed_lt {parts : List Piece} (h : slashedTagAt? text = some (slashes, tag, after))
    (hafter : size parts ≤ after.length) (run : List Char) :
    size (.text run :: .text (List.replicate (slashes / 2) '\\') ::
      (if slashes % 2 = 1 then .text ('[' :: tag ++ [']']) else .tag tag) :: parts) < run.length + text.length := by
  rw [(exists_of_slashedTagAt? h).2]
  split <;> simp [size, bracketed] <;> omega

theorem size_pieces_le (fuel : Nat) (run text : List Char) :
    size (pieces fuel run text) ≤ run.length + text.length := by
  fun_induction pieces fuel run text with
  | case1 run text => simp [size]
  | case2 fuel run hfuel => simp [size]
  | case3 fuel run c rest slashes tag after hslashed ih =>
      have hafter : size (pieces fuel [] after) ≤ after.length := by simpa using ih
      exact (size_slashed_lt hslashed hafter run).le
  | case4 fuel run c rest hslashed hescaped ih => exact ih.trans (by simp)
  | case5 fuel run c rest hslashed hescaped ih =>
      simp only [List.length_append, List.length_cons, List.length_nil] at ih ⊢
      omega

theorem size_pieces_lt (h : ¬IsUnmarked text) (run : List Char) (hfuel : text.length ≤ fuel) :
    size (pieces fuel run text) < run.length + text.length := by
  fun_induction pieces fuel run text with
  | case1 run text =>
      obtain rfl := List.eq_nil_of_length_eq_zero (Nat.le_zero.mp hfuel)
      exact absurd isUnmarked_nil h
  | case2 => exact absurd isUnmarked_nil h
  | case3 fuel run c rest slashes tag after hslashed ih =>
      have hafter : size (pieces fuel [] after) ≤ after.length := by simpa using size_pieces_le fuel [] after
      exact size_slashed_lt hslashed hafter run
  | case4 fuel run c rest hslashed hescaped ih =>
      have hle := size_pieces_le fuel run rest
      simp only [List.length_cons]
      omega
  | case5 fuel run c rest hslashed hescaped ih =>
      have hmarked := mt (isUnmarked_cons hslashed hescaped).mpr h
      have hless := ih hmarked (Nat.le_of_succ_le_succ hfuel)
      simp only [List.length_append, List.length_cons, List.length_nil] at hless ⊢
      omega

theorem eq_append_of_span {p : Char → Bool} (h : text.span p = (code, rest)) : text = code ++ rest := by
  rw [List.span_eq_takeWhile_dropWhile, Prod.mk.injEq] at h
  rw [← h.1, ← h.2, List.takeWhile_append_dropWhile]

/-- No picture takes more characters than its name with the colons. -/
def AreShort (pictures : List (String × String)) : Prop :=
  ∀ code picture, picture? pictures code = some picture → picture.length ≤ code.length + 2

theorem length_drawn_le (hshort : AreShort pictures) (fuel : Nat) (text : List Char) :
    (drawn pictures fuel text).length ≤ text.length := by
  fun_induction drawn pictures fuel text with
  | case1 | case2 => exact le_rfl
  | case3 fuel rest code after hspan ih =>
      have hpicture : ((picture? pictures code).getD (':' :: code ++ [':'])).length ≤ code.length + 2 := by
        cases hfound : picture? pictures code with
        | none => simp
        | some picture => exact hshort code picture hfound
      rw [eq_append_of_span hspan]
      simp only [List.length_append, List.length_cons] at hpicture ⊢
      omega
  | case4 fuel rest hspan ih => exact Nat.succ_le_succ ih
  | case5 fuel c rest hc ih => exact Nat.succ_le_succ ih

theorem length_textOf_le (hshort : AreShort pictures) {names : List (List Char)} {parts : List Piece}
    {out : List Char} (h : textOf pictures names parts = .ok out) : out.length ≤ size parts := by
  fun_induction textOf pictures names parts generalizing out with
  | case1 =>
      cases h
      exact le_rfl
  | case2 names text parts ih =>
      obtain ⟨rest, hrest, rfl⟩ := map_eq_ok_iff.mp h
      have hdrawn := length_drawn_le hshort text.length text
      have hle := ih hrest
      simp only [size, List.length_append] at hle ⊢
      omega
  | case3 names tag parts later hlater ih => exact ih h
  | case4 => cases h

/-! ### Texts that are shown as they are -/

/-- A text in which nothing means anything but itself. -/
structure IsLiteral (pictures : List (String × String)) (text : List Char) : Prop extends IsUnmarked text where
  pictures : drawn pictures text.length text = text
  controls : ∀ c ∈ text, isControl c = false

theorem filter_eq_self_of_controls (h : ∀ c ∈ text, isControl c = false) : text.filter (!isControl ·) = text := by
  rw [List.filter_eq_self]
  intro c hc
  rw [h c hc, Bool.not_false]

theorem plain_of_isUnmarked (h : IsUnmarked text) :
    plain pictures text = .ok ((drawn pictures text.length text).filter (!isControl ·)) := by
  rw [plain, pieces_of_isUnmarked _ _ h]
  simp [textOf, Except.map]

theorem IsLiteral.plain (h : IsLiteral pictures text) : Markup.plain pictures text = .ok text := by
  rw [plain_of_isUnmarked h.toIsUnmarked, h.pictures, filter_eq_self_of_controls h.controls]

theorem length_plain_le (hshort : AreShort pictures) {out : List Char} (h : plain pictures text = .ok out) :
    out.length ≤ size (pieces text.length [] text) := by
  obtain ⟨whole, hwhole, rfl⟩ := map_eq_ok_iff.mp h
  exact (List.length_filter_le ..).trans (length_textOf_le hshort hwhole)

/-- **A text is shown as it is** exactly if nothing in it means anything else. -/
theorem plain_eq_ok_self_iff (hshort : AreShort pictures) :
    plain pictures text = .ok text ↔ IsLiteral pictures text := by
  refine ⟨fun h => ?_, IsLiteral.plain⟩
  have hunmarked : IsUnmarked text := by
    by_contra hmarked
    have hless := size_pieces_lt hmarked [] le_rfl
    have hle := length_plain_le hshort h
    simp only [List.length_nil, Nat.zero_add] at hless
    omega
  rw [plain_of_isUnmarked hunmarked, Except.ok.injEq] at h
  have hdrawn : (drawn pictures text.length text).filter (!isControl ·) = drawn pictures text.length text := by
    apply List.filter_sublist.eq_of_length_le
    rw [h]
    exact length_drawn_le hshort ..
  have hpictures := hdrawn.symm.trans h
  refine ⟨hunmarked, hpictures, fun c hc => ?_⟩
  rw [hpictures, List.filter_eq_self] at hdrawn
  simpa using hdrawn c hc

/-! ### Names between colons -/

theorem drawn_eq_self (h : ∀ code, ':' :: code ++ [':'] <:+: text → picture? pictures code = none) (fuel : Nat) :
    drawn pictures fuel text = text := by
  have hlater {text rest : List Char} (hsuffix : rest <:+ text)
      (h : ∀ code, ':' :: code ++ [':'] <:+: text → picture? pictures code = none) :
      ∀ code, ':' :: code ++ [':'] <:+: rest → picture? pictures code = none :=
    fun code hcode => h code (hcode.trans hsuffix.isInfix)
  fun_induction drawn pictures fuel text with
  | case1 | case2 => rfl
  | case3 fuel rest code after hspan ih =>
      obtain rfl := eq_append_of_span hspan
      rw [h code ⟨[], after, by simp⟩, Option.getD_none, ih (hlater ⟨':' :: code ++ [':'], by simp⟩ h)]
      simp
  | case4 fuel rest hspan ih => rw [ih (hlater (List.suffix_cons ..) h)]
  | case5 fuel c rest hc ih => rw [ih (hlater (List.suffix_cons ..) h)]

theorem drawn_append (h : ':' ∉ front) (fuel : Nat) (text : List Char) :
    drawn pictures (front.length + fuel) (front ++ text) = front ++ drawn pictures fuel text := by
  induction front with
  | nil => rw [List.length_nil, Nat.zero_add, List.nil_append, List.nil_append]
  | cons c front ih =>
      obtain ⟨hc, hfront⟩ := List.ne_and_not_mem_of_not_mem_cons h
      rw [List.length_cons, Nat.add_right_comm, List.cons_append, drawn, if_neg (Ne.symm hc), ih hfront]
      rfl

/-! ### Tags that close -/

theorem mem_pieces_tag (h : Piece.tag tag ∈ pieces fuel run text) : IsTag tag ∧ bracketed tag <:+: text := by
  fun_induction pieces fuel run text with
  | case1 | case2 => simp at h
  | case3 fuel run c rest slashes found after hslashed ih =>
      obtain ⟨htag, heq⟩ := exists_of_slashedTagAt? hslashed
      rw [heq]
      simp only [List.mem_cons, reduceCtorEq, false_or] at h
      rcases h with hhere | hlater
      · split at hhere
        · cases hhere
        · cases hhere
          exact ⟨htag, _, after, List.append_assoc ..⟩
      · obtain ⟨hvalid, hinfix⟩ := ih hlater
        have hsuffix : after <:+ List.replicate slashes '\\' ++ (bracketed found ++ after) :=
          ⟨List.replicate slashes '\\' ++ bracketed found, List.append_assoc ..⟩
        exact ⟨hvalid, hinfix.trans hsuffix.isInfix⟩
  | case4 fuel run c rest hslashed hescaped ih | case5 fuel run c rest hslashed hescaped ih =>
      obtain ⟨hvalid, hinfix⟩ := ih h
      exact ⟨hvalid, hinfix.trans (List.suffix_cons c rest).isInfix⟩

theorem exists_openAfter (names : List (List Char)) (h : tag.head? ≠ some '/') :
    ∃ later, openAfter names tag = .ok later := by
  unfold openAfter
  simp only
  split
  · next name hname =>
    cases tag with
    | nil => cases hname
    | cons c tag =>
        rw [List.takeWhile_cons] at hname
        split at hname
        · exact absurd (congrArg some (List.cons.inj hname).1) h
        · cases hname
  · exact ⟨_, rfl⟩

theorem exists_textOf {parts : List Piece} (h : ∀ tag, Piece.tag tag ∈ parts → tag.head? ≠ some '/')
    (names : List (List Char)) : ∃ out, textOf pictures names parts = .ok out := by
  induction parts generalizing names with
  | nil => exact ⟨[], rfl⟩
  | cons part parts ih =>
      have hparts := fun tag hmem => h tag (List.mem_cons_of_mem part hmem)
      cases part with
      | text text =>
          obtain ⟨out, hout⟩ := ih hparts names
          rw [textOf, hout]
          exact ⟨_, rfl⟩
      | tag tag =>
          obtain ⟨later, hlater⟩ := exists_openAfter names (h tag List.mem_cons_self)
          rw [textOf, hlater]
          exact ih hparts later

/-- Only a tag that closes can keep a text from being shown. -/
theorem exists_plain (h : ∀ tag, IsTag tag → bracketed tag <:+: text → tag.head? ≠ some '/') :
    ∃ out, plain pictures text = .ok out := by
  have htags : ∀ tag, Piece.tag tag ∈ pieces text.length [] text → tag.head? ≠ some '/' := by
    intro tag hmem
    obtain ⟨htag, hinfix⟩ := mem_pieces_tag hmem
    exact h tag htag hinfix
  obtain ⟨out, hout⟩ := exists_textOf htags []
  rw [plain, hout]
  exact ⟨_, rfl⟩

/-! ### Escaping -/

/-- A text in which only tags mean anything but themselves. -/
structure HasOnlyTags (pictures : List (String × String)) (text : List Char) : Prop where
  slashes : '\\' ∉ text
  names : ∀ code, ':' :: code ++ [':'] <:+: text → picture? pictures code = none
  controls : ∀ c ∈ text, isControl c = false

theorem slashes_eq_zero (hslash : '\\' ∉ text) (h : slashedTagAt? text = some (slashes, tag, after)) :
    slashes = 0 := by
  obtain ⟨-, rfl⟩ := exists_of_slashedTagAt? h
  by_contra hne
  exact hslash (List.mem_append_left _ (List.mem_replicate.mpr ⟨hne, rfl⟩))

/-- Up to a closing bracket an escaped text is the text, unless a bracket opens before. -/
theorem exists_of_escapeTags (hslash : '\\' ∉ text) (hfront : '[' ∉ front)
    (h : escapeTags fuel text = front ++ ']' :: after) : ∃ after, text = front ++ ']' :: after := by
  fun_induction escapeTags fuel text generalizing front with
  | case1 => exact ⟨after, h⟩
  | case2 => simp at h
  | case3 fuel c rest slashes tag later hslashed ih =>
      obtain rfl := slashes_eq_zero hslash hslashed
      rcases front with _ | ⟨d, _ | ⟨e, front⟩⟩
      · simp at h
      · simp at h
      · simp at h
        simp [← h.2.1] at hfront
  | case4 fuel c rest hslashed ih =>
      cases front with
      | nil =>
          obtain ⟨rfl, -⟩ := List.cons.inj h
          exact ⟨rest, rfl⟩
      | cons d front =>
          obtain ⟨rfl, hrest⟩ := List.cons.inj h
          obtain ⟨later, rfl⟩ := ih (List.not_mem_of_not_mem_cons hslash)
            (List.not_mem_of_not_mem_cons hfront) hrest
          exact ⟨later, rfl⟩

theorem slashedTagAt?_cons_escapeTags (hslash : '\\' ∉ c :: rest) (h : slashedTagAt? (c :: rest) = none) (fuel : Nat) :
    slashedTagAt? (c :: escapeTags fuel rest) = none := by
  rw [Option.eq_none_iff_forall_ne_some]
  rintro ⟨slashes, tag, after⟩ hsome
  obtain ⟨htag, heq⟩ := exists_of_slashedTagAt? hsome
  cases slashes with
  | succ slashes =>
      obtain ⟨rfl, -⟩ := List.cons.inj heq
      exact hslash List.mem_cons_self
  | zero =>
      obtain ⟨rfl, hrest⟩ := List.cons.inj heq
      replace hrest : escapeTags fuel rest = tag ++ ']' :: after := by simpa using hrest
      obtain ⟨later, rfl⟩ := exists_of_escapeTags (List.not_mem_of_not_mem_cons hslash) htag.2.1 hrest
      have htagAt := tagAt?_bracketed htag later
      simp only [bracketed, List.cons_append, List.append_assoc, List.nil_append] at htagAt
      simp [slashedTagAt?, htagAt] at h

theorem slashedTagAt?_slash (h : IsTag tag) (after : List Char) :
    slashedTagAt? ('\\' :: (bracketed tag ++ after)) = some (1, tag, after) := by
  have htagAt := tagAt?_bracketed h after
  simp only [bracketed, List.cons_append, List.append_assoc, List.nil_append] at htagAt ⊢
  simp [slashedTagAt?, htagAt]

theorem pieces_nil (fuel : Nat) (run : List Char) : pieces fuel run [] = [.text run] := by
  cases fuel with
  | zero => rw [pieces, List.append_nil]
  | succ fuel => simp [pieces]

/-- The pieces of an escaped text are texts, which together are the text. -/
theorem exists_pieces_escapeTags {budget : Nat} (hslash : '\\' ∉ text) (hfuel : text.length ≤ fuel)
    (hbudget : (escapeTags fuel text).length ≤ budget) (run : List Char) :
    ∃ parts : List (List Char), pieces budget run (escapeTags fuel text) = parts.map .text ∧
      parts.flatten = run ++ text := by
  fun_induction escapeTags fuel text generalizing run budget with
  | case1 =>
      obtain rfl := List.eq_nil_of_length_eq_zero (Nat.le_zero.mp hfuel)
      exact ⟨[run], pieces_nil budget run, by simp⟩
  | case2 => exact ⟨[run], pieces_nil budget run, by simp⟩
  | case3 fuel c rest slashes tag after hslashed ih =>
      obtain rfl := slashes_eq_zero hslash hslashed
      obtain ⟨htag, heq⟩ := exists_of_slashedTagAt? hslashed
      have hescaped : List.replicate (2 * 0 + 1) '\\' ++ '[' :: tag ++ ']' :: escapeTags fuel after =
          '\\' :: (bracketed tag ++ escapeTags fuel after) := by simp [bracketed]
      rw [List.replicate_zero, List.nil_append] at heq
      rw [hescaped] at hbudget ⊢
      rw [heq] at hslash hfuel ⊢
      simp only [bracketed, List.length_cons, List.length_append] at hbudget hfuel
      obtain ⟨budget, rfl⟩ := Nat.exists_eq_add_of_le' (Nat.one_le_of_lt hbudget)
      have hroom : (escapeTags fuel after).length ≤ budget := by omega
      have hafter : '\\' ∉ after := fun hmem => hslash (List.mem_append_right _ hmem)
      obtain ⟨parts, hparts, hflatten⟩ := ih hafter (by omega) hroom []
      refine ⟨run :: [] :: bracketed tag :: parts, ?_, ?_⟩
      · rw [pieces, slashedTagAt?_slash htag]
        simp [hparts, bracketed]
      · simp [hflatten]
  | case4 fuel c rest hslashed ih =>
      have hc : c ≠ '\\' := by
        rintro rfl
        exact hslash List.mem_cons_self
      rw [List.length_cons] at hbudget hfuel
      obtain ⟨budget, rfl⟩ := Nat.exists_eq_add_of_le' (Nat.one_le_of_lt hbudget)
      obtain ⟨parts, hparts, hflatten⟩ := ih (List.not_mem_of_not_mem_cons hslash)
        (Nat.le_of_succ_le_succ hfuel) (Nat.le_of_succ_le_succ hbudget) (run ++ [c])
      refine ⟨parts, ?_, ?_⟩
      · rw [pieces, slashedTagAt?_cons_escapeTags hslash hslashed]
        simp [hc, hparts]
      · simp [hflatten]

theorem textOf_texts (parts : List (List Char)) (names : List (List Char))
    (h : ∀ part ∈ parts, drawn pictures part.length part = part) :
    textOf pictures names (parts.map .text) = .ok parts.flatten := by
  induction parts with
  | nil => rfl
  | cons part parts ih =>
      obtain ⟨hpart, hparts⟩ := List.forall_mem_cons.mp h
      rw [List.map_cons, textOf, ih hparts, hpart]
      rfl

theorem getLast?_escapeTags (hslash : '\\' ∉ text) (fuel : Nat) : (escapeTags fuel text).getLast? ≠ some '\\' := by
  fun_induction escapeTags fuel text with
  | case1 => exact fun h => hslash (List.mem_of_getLast? h)
  | case2 => simp
  | case3 fuel c rest slashes tag after hslashed ih =>
      obtain rfl := slashes_eq_zero hslash hslashed
      have hafter : '\\' ∉ after := by
        obtain ⟨-, heq⟩ := exists_of_slashedTagAt? hslashed
        rw [heq] at hslash
        exact fun hmem => hslash (by simp [hmem])
      have hlast := ih hafter
      simp only [List.getLast?_append, List.getLast?_cons]
      cases hrest : (escapeTags fuel after).getLast? with
      | none => simp
      | some d =>
          rw [hrest] at hlast
          simpa using hlast
  | case4 fuel c rest hslashed ih =>
      have hlast := ih (List.not_mem_of_not_mem_cons hslash)
      rw [List.getLast?_cons]
      cases hrest : (escapeTags fuel rest).getLast? with
      | none =>
          rintro ⟨⟩
          exact hslash List.mem_cons_self
      | some d =>
          rw [Option.getD_some, ← hrest]
          exact hlast

theorem escape_eq (hslash : '\\' ∉ text) : escape text = escapeTags text.length text := by
  have hlast := getLast?_escapeTags hslash text.length
  rw [← List.head?_reverse] at hlast
  have hnone : (escapeTags text.length text).reverse.takeWhile (· == '\\') = [] := by
    cases hreverse : (escapeTags text.length text).reverse with
    | nil => rfl
    | cons c rest =>
        rw [hreverse, List.head?_cons] at hlast
        rw [List.takeWhile_cons_of_neg]
        simpa using hlast
  simp [escape, hnone]

/-- **Escaped, a text is shown as it is.** -/
theorem plain_escape (h : HasOnlyTags pictures text) : plain pictures (escape text) = .ok text := by
  obtain ⟨parts, hparts, hflatten⟩ := exists_pieces_escapeTags h.slashes le_rfl le_rfl []
  have hdrawn : ∀ part ∈ parts, drawn pictures part.length part = part := by
    intro part hpart
    obtain ⟨front, back, rfl⟩ := List.append_of_mem hpart
    have hinfix : part <:+: text := ⟨front.flatten, back.flatten, by simpa using hflatten⟩
    exact drawn_eq_self (fun code hcode => h.names code (hcode.trans hinfix)) _
  rw [plain, escape_eq h.slashes, hparts, textOf_texts parts [] hdrawn, hflatten]
  exact congrArg Except.ok (filter_eq_self_of_controls h.controls)

end Markup

end ManifestLens
