import ManifestLens.Proofs.Constraint.Series
import ManifestLens.Proofs.Version.Agreement

/-!
# Where the two orders agree

Of versions in the normalised spelling with equally many numbers in their releases the segments stand in the same
places, and what follows the releases compares as text. Text compares as the standard does as long as the numbers in
it have equally many digits, post-releases meet post-releases only, and a development release of a final version
meets no pre-release.
-/

namespace ManifestLens

open Version
open Specifier (preText laterComponents dotted)

namespace NaturalVersion

/-! ### Digits -/

/-- The numbers take equally many digits. -/
def SameWidth (m n : Nat) : Prop := (numberText m).length = (numberText n).length

instance (m n : Nat) : Decidable (SameWidth m n) := inferInstanceAs (Decidable (_ = _))

theorem compare_digit {m n : Nat} {c d : Char} (hc : Text.isAsciiDigit c = true) (hd : Text.isAsciiDigit d = true) :
    Ord.compare (m * 10 + (c.toNat - '0'.toNat)) (n * 10 + (d.toNat - '0'.toNat))
      = (Ord.compare m n).then (Ord.compare c.toNat d.toNat) := by
  obtain ⟨hclow, hchigh⟩ := Text.isAsciiDigit_iff.mp hc
  obtain ⟨hdlow, hdhigh⟩ := Text.isAsciiDigit_iff.mp hd
  have hzero : '0'.toNat = 48 := rfl
  have hnine : '9'.toNat = 57 := rfl
  rcases hnumbers : Ord.compare m n with _ | _ | _
  · have hlt := Nat.compare_eq_lt.mp hnumbers
    exact Nat.compare_eq_lt.mpr (by omega)
  · have heq := Nat.compare_eq_eq.mp hnumbers
    rcases hdigits : Ord.compare c.toNat d.toNat with _ | _ | _
    · have hlt := Nat.compare_eq_lt.mp hdigits
      exact Nat.compare_eq_lt.mpr (by omega)
    · have hsame := Nat.compare_eq_eq.mp hdigits
      exact Nat.compare_eq_eq.mpr (by omega)
    · have hgt := Nat.compare_eq_gt.mp hdigits
      exact Nat.compare_eq_gt.mpr (by omega)
  · have hgt := Nat.compare_eq_gt.mp hnumbers
    exact Nat.compare_eq_gt.mpr (by omega)

theorem compare_digits {left right : List Char} (hleft : ∀ c ∈ left, Text.isAsciiDigit c = true)
    (hright : ∀ c ∈ right, Text.isAsciiDigit c = true) (hlength : left.length = right.length) (m n : Nat) :
    Ord.compare (left.foldl (fun n c => n * 10 + (c.toNat - '0'.toNat)) m)
        (right.foldl (fun n c => n * 10 + (c.toNat - '0'.toNat)) n)
      = (Ord.compare m n).then (Ord.compare (left.map Char.toNat) (right.map Char.toNat)) := by
  induction left generalizing right m n with
  | nil =>
      obtain rfl := List.length_eq_zero_iff.mp hlength.symm
      exact Ordering.then_eq.symm
  | cons c rest ih =>
      cases right with
      | nil => cases hlength
      | cons d more =>
          obtain ⟨hc, hrest⟩ := List.forall_mem_cons.mp hleft
          obtain ⟨hd, hmore⟩ := List.forall_mem_cons.mp hright
          rw [List.foldl_cons, List.foldl_cons, ih hrest hmore (Nat.succ.inj hlength), compare_digit hc hd,
            List.map_cons, List.map_cons, List.compare_cons_cons, Ordering.then_assoc]

theorem compare_numberText {m n : Nat} (h : SameWidth m n) :
    Ord.compare ((numberText m).map Char.toNat) ((numberText n).map Char.toNat) = Ord.compare m n := by
  have hdigits := compare_digits (fun _ => isAsciiDigit_of_mem_numberText) (fun _ => isAsciiDigit_of_mem_numberText)
    h 0 0
  calc Ord.compare ((numberText m).map Char.toNat) ((numberText n).map Char.toNat)
      = Ord.compare (numberOf (numberText m)) (numberOf (numberText n)) := hdigits.symm
    _ = Ord.compare m n := by rw [numberOf_numberText, numberOf_numberText]

/-! ### Labels -/

theorem compareSuffixes_of_ne_nil {a b : List Char} (ha : a ≠ []) (hb : b ≠ []) :
    Segment.compareSuffixes a b = Ord.compare (a.map Char.toNat) (b.map Char.toNat) := by
  rw [Segment.compareSuffixes]
  split
  · next heq => rw [heq, Std.compare_self]
  · rw [if_neg (by simpa using ha), if_neg (by simpa using hb)]

theorem compareSuffixes_label (label : List Char) {m n : Nat} (h : SameWidth m n) :
    Segment.compareSuffixes (label ++ numberText m) (label ++ numberText n) = Ord.compare m n := by
  rw [compareSuffixes_of_ne_nil (by simp [numberText_ne_nil]) (by simp [numberText_ne_nil]), ← compare_numberText h]
  induction label with
  | nil => rfl
  | cons c rest ih =>
      rw [List.cons_append, List.cons_append, List.map_cons, List.map_cons, List.compare_cons_cons, Std.compare_self]
      exact ih

/-- Where the standard puts a pre-release segment among those of its release. -/
def preRank : Option (PreStage × Nat) → List Nat
  | none => [2]
  | some (stage, n) => [1, stage.rank, n]

theorem compareSuffixes_preText {p q : Option (PreStage × Nat)} (h : ∀ m ∈ p, ∀ n ∈ q, SameWidth m.2 n.2) :
    Segment.compareSuffixes (preText p) (preText q) = Ord.compare (preRank p) (preRank q) := by
  cases p with
  | none =>
      cases q with
      | none => rfl
      | some second =>
          obtain ⟨stage, n⟩ := second
          cases stage <;> rfl
  | some first =>
      obtain ⟨stage, m⟩ := first
      cases q with
      | none => cases stage <;> rfl
      | some second =>
          obtain ⟨stage', n⟩ := second
          by_cases hstage : stage = stage'
          · subst hstage
            rw [preText, preText, compareSuffixes_label _ (h _ rfl _ rfl)]
            simp only [preRank, List.compare_cons_cons, Std.compare_self, Ordering.eq_then, Ordering.then_eq]
          · cases stage <;> cases stage' <;> first | exact absurd rfl hstage | rfl

/-! ### The normalised spelling -/

/-- Segments that start with no number. -/
def labelled (words : List (List Char)) : List Segment := words.map (Segment.mk none)

/-- The segments of a version in the normalised spelling: the numbers, the last of them with the pre-release segment
behind it, and then the labelled ones. -/
def spelledKeys (pre : List Char) (later : List (List Char)) : Nat → List Nat → List Segment
  | n, [] => ⟨some n, pre⟩ :: labelled later
  | n, next :: more => .ofNumber n :: spelledKeys pre later next more

theorem length_spelledKeys (pre : List Char) (later : List (List Char)) (n : Nat) (more : List Nat) :
    (spelledKeys pre later n more).length = more.length + 1 + later.length := by
  induction more generalizing n with
  | nil => simp [spelledKeys, labelled, Nat.add_comm]
  | cons next rest ih =>
      rw [spelledKeys, List.length_cons, ih, List.length_cons]
      omega

theorem compareUpTo_spelledKeys {pre pre' : List Char} {later later' : List (List Char)} {more more' : List Nat}
    (hlength : more.length = more'.length) (m n count : Nat) :
    compareUpTo (more.length + 1 + count) (spelledKeys pre later m more) (spelledKeys pre' later' n more')
      = (compareRelease (m :: more) (n :: more')).then
          ((Segment.compareSuffixes pre pre').then (compareUpTo count (labelled later) (labelled later'))) := by
  induction more generalizing m n more' with
  | nil =>
      obtain rfl := List.length_eq_zero_iff.mp hlength.symm
      have hrelease : compareRelease [m] [n] = Ord.compare m n :=
        (compareRelease_cons_cons m n [] []).trans Ordering.then_eq
      rw [List.length_nil, Nat.zero_add, Nat.add_comm, hrelease, ← Ordering.then_assoc]
      rfl
  | cons next rest ih =>
      cases more' with
      | nil => cases hlength
      | cons next' rest' =>
          have hcount : (next :: rest).length + 1 + count = (rest.length + 1 + count) + 1 := by
            rw [List.length_cons]
            omega
          rw [compareRelease_cons_cons, Ordering.then_assoc, ← ih (Nat.succ.inj hlength) next next', hcount,
            compareUpTo, spelledKeys, spelledKeys, List.headD_cons, List.headD_cons, Segment.cmp_ofNumber]
          rfl

section Spelling

variable {v : Version}

theorem notMem_dot_preText (pre : Option (PreStage × Nat)) : '.' ∉ preText pre :=
  Specifier.notMem_preText (by decide) (by decide) pre

theorem headNot_laterComponent {component : List Char} (h : component ∈ laterComponents v) :
    Text.HeadNot Text.isAsciiDigit component := by
  obtain ⟨label, hlabel, n, rfl⟩ := Specifier.mem_laterComponents h
  simp only [List.mem_cons, List.not_mem_nil, or_false] at hlabel
  rcases hlabel with rfl | rfl <;> exact Text.headNot_cons.mpr (by decide)

/-- By induction on the numbers: all but the last are segments of their own. -/
theorem map_ofText_splitOn {n : Nat} {more : List Nat}
    (hreadable : ∀ segment ∈ Text.splitOn '.' (releaseText (n :: more) ++ v.suffixText), Segment.IsReadable segment) :
    (Text.splitOn '.' (releaseText (n :: more) ++ v.suffixText)).map Segment.ofText
      = spelledKeys (preText v.pre) (laterComponents v) n more := by
  have hdot (n : Nat) : '.' ∉ numberText n := Specifier.notMem_numberText (by decide) n
  induction more generalizing n with
  | nil =>
      have hwhole : releaseText [n] ++ v.suffixText
          = Text.joinWith ['.'] ((numberText n ++ preText v.pre) :: laterComponents v) := by
        rw [joinWith_dot, Specifier.suffixText_eq, dotted, List.append_assoc]
        rfl
      have hpieces : ∀ piece ∈ (numberText n ++ preText v.pre) :: laterComponents v, '.' ∉ piece := by
        refine List.forall_mem_cons.mpr ⟨?_, fun piece hpiece => (Specifier.splitPre_laterComponent hpiece).2⟩
        rw [List.mem_append, not_or]
        exact ⟨hdot n, notMem_dot_preText v.pre⟩
      have hspelling : ∀ c ∈ v.suffixText, isSpellingChar c = true := fun _ =>
        Specifier.isSpellingChar_of_mem_suffixText
      rw [Specifier.suffixText_eq] at hspelling
      have hpre : ∀ c ∈ preText v.pre, isSpellingChar c = true := fun c hc =>
        hspelling c (List.mem_append_left _ hc)
      rw [hwhole, Text.splitOn_joinWith (List.cons_ne_nil _ _) hpieces] at hreadable ⊢
      rw [List.map_cons, spelledKeys, labelled]
      congr 1
      · have hstop : Text.HeadNot Text.isAsciiDigit (preText v.pre ++ []) := by
          rw [List.append_nil]
          exact Specifier.headNot_preText v.pre
        rw [Segment.ofText_append (isNumeral_numberText n) (headNot_isDecimal hpre hstop) (notMem_lineFeed hpre)
          (hreadable _ (List.mem_cons_self ..)), numberOf_numberText]
      · refine List.map_congr_left fun component hcomponent => ?_
        have hchars : ∀ c ∈ component, isSpellingChar c = true := fun c hc =>
          hspelling c (List.mem_append_right _ (List.mem_flatMap.mpr ⟨component, hcomponent, by simp [hc]⟩))
        have hstop : Text.HeadNot Text.isAsciiDigit (component ++ []) := by
          rw [List.append_nil]
          exact headNot_laterComponent hcomponent
        exact Segment.ofText_of_headNot (headNot_isDecimal hchars hstop) (notMem_lineFeed hchars)
  | cons next rest ih =>
      have hwhole : releaseText (n :: next :: rest) ++ v.suffixText
          = numberText n ++ '.' :: (releaseText (next :: rest) ++ v.suffixText) := by
        simp [releaseText_cons, minorsText]
      rw [hwhole, Text.splitOn_append (hdot n)] at hreadable ⊢
      obtain ⟨hfirst, hothers⟩ := List.forall_mem_cons.mp hreadable
      rw [List.map_cons, Segment.ofText_numeral (isNumeral_numberText n) hfirst, numberOf_numberText, ih hothers]
      rfl

theorem keys_text (hepoch : v.epoch = 0) (hlocal : v.localParts = []) (hreadable : IsReadable v.text) :
    keys v.text = spelledKeys (preText v.pre) (laterComponents v) v.major v.minors := by
  have htext : v.text = releaseText v.release ++ v.suffixText := by
    rw [Specifier.text_eq hlocal, if_pos hepoch, List.nil_append]
    rfl
  have hsegments : segments v.text = Text.splitOn '.' (releaseText v.release ++ v.suffixText) := by
    rw [segments, Specifier.trim_text hlocal, htext]
  rw [IsReadable, hsegments] at hreadable
  rw [keys, hsegments]
  exact map_ofText_splitOn hreadable

end Spelling

/-! ### The order of the standard, part by part -/

/-- Where the standard puts a post-release segment, and one that is not there. -/
def postKey : Option Nat → List Nat
  | none => [0]
  | some n => [1, n]

/-- Where the standard puts a development segment, and one that is not there. -/
def devKey : Option Nat → List Nat
  | none => [1]
  | some n => [0, n]

section Parts

variable {v w : Version}

theorem compare_eq_parts (hepoch : v.epoch = w.epoch) (hlocal : v.localParts = w.localParts) :
    v.compare w = (compareRelease v.release w.release).then ((Ord.compare v.preKey w.preKey).then
      ((Ord.compare (postKey v.post) (postKey w.post)).then (Ord.compare (devKey v.dev) (devKey w.dev)))) := by
  have hkeys (u : Version) : u.publicKey.tail.tail = [u.preKey, postKey u.post, devKey u.dev] := rfl
  have hlocalKey : Ord.compare v.localKey w.localKey = .eq := by
    rw [localKey, localKey, hlocal, Std.compare_self]
  have hepochs : Ord.compare v.epoch w.epoch = .eq := by rw [hepoch, Std.compare_self]
  rw [compare_eq_then, compareBase, hepochs, hlocalKey, hkeys, hkeys]
  simp only [List.compare_cons_cons, List.compare_nil_nil, Ordering.eq_then, Ordering.then_eq]

/-- The development release of a final version. -/
def isBareDev (v : Version) : Bool := v.pre.isNone && v.post.isNone && v.dev.isSome

theorem isBareDev_iff : isBareDev v = true ↔ v.pre = none ∧ v.post = none ∧ v.dev.isSome = true := by
  simp only [isBareDev, Bool.and_eq_true, Option.isNone_iff_eq_none, and_assoc]

theorem preKey_of_bare (h : isBareDev v = true) : v.preKey = [0] := by
  obtain ⟨hpre, hpost, hdev⟩ := isBareDev_iff.mp h
  rw [preKey, hpre, hpost, hdev]
  rfl

theorem preKey_of_not_bare (h : isBareDev v = false) : v.preKey = preRank v.pre := by
  rw [preKey]
  cases hpre : v.pre with
  | some segment => rfl
  | none =>
      rw [isBareDev, hpre, Option.isNone_none, Bool.true_and] at h
      simp [h, preRank]

/-- The segments of two versions stand in the same places, and their numbers take equally many digits. -/
structure Aligned (v w : Version) : Prop where
  release : v.minors.length = w.minors.length
  pre : ∀ m ∈ v.pre, ∀ n ∈ w.pre, SameWidth m.2 n.2
  post : ∀ m ∈ v.post, ∀ n ∈ w.post, SameWidth m n
  dev : ∀ m ∈ v.dev, ∀ n ∈ w.dev, SameWidth m n
  /-- Both are post-releases, or neither is one. -/
  posts : v.isPostrelease = w.isPostrelease
  /-- The development release of a final version does not meet a pre-release. -/
  bare : isBareDev v = true → w.pre = none
  bare' : isBareDev w = true → v.pre = none

/-! ### Agreement -/

/-- The component of a development segment. -/
def devWords : Option Nat → List (List Char)
  | none => []
  | some n => ["dev".toList ++ numberText n]

theorem cmp_label (label : List Char) {m n : Nat} (h : SameWidth m n) :
    Segment.cmp ⟨none, label ++ numberText m⟩ ⟨none, label ++ numberText n⟩ = Ord.compare m n :=
  compareSuffixes_label label h

theorem compareUpTo_devWords {p q : Option Nat} (h : ∀ m ∈ p, ∀ n ∈ q, SameWidth m n) (count : Nat) :
    compareUpTo (count + 1) (labelled (devWords p)) (labelled (devWords q)) = Ord.compare (devKey p) (devKey q) := by
  cases p with
  | none =>
      cases q with
      | none => exact compareUpTo_nil _
      | some n => rfl
  | some m =>
      cases q with
      | none => rfl
      | some n =>
          calc compareUpTo (count + 1) (labelled (devWords (some m))) (labelled (devWords (some n)))
              = (Segment.cmp ⟨none, "dev".toList ++ numberText m⟩ ⟨none, "dev".toList ++ numberText n⟩).then
                  (compareUpTo count [] []) := rfl
            _ = Ord.compare m n := by rw [cmp_label _ (h m rfl n rfl), compareUpTo_nil, Ordering.then_eq]
            _ = Ord.compare (devKey (some m)) (devKey (some n)) := by
                simp only [devKey, List.compare_cons_cons, Std.compare_self, Ordering.eq_then, Ordering.then_eq]

theorem Aligned.symm (h : Aligned v w) : Aligned w v where
  release := h.release.symm
  pre n hn m hm := (h.pre m hm n hn).symm
  post n hn m hm := (h.post m hm n hn).symm
  dev n hn m hm := (h.dev m hm n hn).symm
  posts := h.posts.symm
  bare := h.bare'
  bare' := h.bare

theorem Aligned.compareUpTo_later (h : Aligned v w) :
    compareUpTo 2 (labelled (laterComponents v)) (labelled (laterComponents w))
      = (Ord.compare (postKey v.post) (postKey w.post)).then (Ord.compare (devKey v.dev) (devKey w.dev)) := by
  have hlater (u : Version) : laterComponents u
      = (match u.post with
          | none => []
          | some n => ["post".toList ++ numberText n]) ++ devWords u.dev := rfl
  have hposts := h.posts
  rw [isPostrelease, isPostrelease] at hposts
  rw [hlater, hlater]
  cases hv : v.post with
  | none =>
      have hw : w.post = none := by
        rw [hv] at hposts
        simpa using hposts.symm
      rw [hw]
      exact compareUpTo_devWords h.dev 1
  | some m =>
      obtain ⟨n, hw⟩ : ∃ n, w.post = some n := by
        rw [hv] at hposts
        exact Option.isSome_iff_exists.mp hposts.symm
      have hposts : Ord.compare (postKey (some m)) (postKey (some n)) = Ord.compare m n := by
        simp only [postKey, List.compare_cons_cons, Std.compare_self, Ordering.eq_then, Ordering.then_eq]
      rw [hw, hposts, ← compareUpTo_devWords h.dev 0, ← cmp_label "post".toList (h.post m hv n hw)]
      rfl

/-- The development release of a final version comes before it, and in the same place as other such releases. -/
theorem Aligned.compare_preKey_of_bare (h : Aligned v w) (hbare : isBareDev v = true) :
    (Ord.compare v.preKey w.preKey).then ((Ord.compare (postKey v.post) (postKey w.post)).then
      (Ord.compare (devKey v.dev) (devKey w.dev)))
      = (Ord.compare (postKey v.post) (postKey w.post)).then (Ord.compare (devKey v.dev) (devKey w.dev)) := by
  obtain ⟨hpre, hpost, hdev⟩ := isBareDev_iff.mp hbare
  have hpost' : w.post = none := by
    have hposts := h.posts
    rw [isPostrelease, isPostrelease, hpost] at hposts
    simpa using hposts.symm
  rw [preKey_of_bare hbare]
  cases hbare' : isBareDev w with
  | true => rw [preKey_of_bare hbare', Std.compare_self, Ordering.eq_then]
  | false =>
      obtain ⟨n, hn⟩ := Option.isSome_iff_exists.mp hdev
      have hdev' : w.dev = none := by simpa [isBareDev, h.bare hbare, hpost'] using hbare'
      rw [preKey_of_not_bare hbare', h.bare hbare, hpost, hpost', hn, hdev']
      rfl

theorem Aligned.compare_suffixes (h : Aligned v w) :
    (Segment.compareSuffixes (preText v.pre) (preText w.pre)).then
        (compareUpTo 2 (labelled (laterComponents v)) (labelled (laterComponents w)))
      = (Ord.compare v.preKey w.preKey).then ((Ord.compare (postKey v.post) (postKey w.post)).then
          (Ord.compare (devKey v.dev) (devKey w.dev))) := by
  rw [compareSuffixes_preText h.pre, h.compareUpTo_later]
  cases hbare : isBareDev v with
  | true =>
      rw [h.compare_preKey_of_bare hbare, h.bare hbare, (isBareDev_iff.mp hbare).1, Std.compare_self,
        Ordering.eq_then]
  | false =>
      cases hbare' : isBareDev w with
      | true =>
          have hswapped := congrArg Ordering.swap (h.symm.compare_preKey_of_bare hbare')
          simp only [Ordering.swap_then, ← Std.OrientedCmp.eq_swap] at hswapped
          rw [hswapped, h.bare' hbare', (isBareDev_iff.mp hbare').1, Std.compare_self, Ordering.eq_then]
      | false => rw [preKey_of_not_bare hbare, preKey_of_not_bare hbare']

theorem length_laterComponents (v : Version) : (laterComponents v).length ≤ 2 := by
  rw [laterComponents]
  cases v.post <;> cases v.dev <;> simp

/-- **Versions whose segments stand in the same places** are in the same order for both. -/
theorem Aligned.order_text (h : Aligned v w) (hepoch : v.epoch = 0) (hepoch' : w.epoch = 0)
    (hlocal : v.localParts = []) (hlocal' : w.localParts = []) (hreadable : IsReadable v.text)
    (hreadable' : IsReadable w.text) : order v.text w.text = v.compare w := by
  have hkeys := keys_text hepoch hlocal hreadable
  have hkeys' := keys_text hepoch' hlocal' hreadable'
  have hlength : (segments v.text).length ≤ v.minors.length + 1 + 2 := by
    rw [← length_keys, hkeys, length_spelledKeys]
    exact Nat.add_le_add_left (length_laterComponents v) _
  have hlength' : (segments w.text).length ≤ v.minors.length + 1 + 2 := by
    rw [← length_keys, hkeys', length_spelledKeys, h.release]
    exact Nat.add_le_add_left (length_laterComponents w) _
  calc order v.text w.text
      = compareUpTo (v.minors.length + 1 + 2) (keys v.text) (keys w.text) := order_eq hlength hlength'
    _ = (compareRelease v.release w.release).then ((Segment.compareSuffixes (preText v.pre) (preText w.pre)).then
          (compareUpTo 2 (labelled (laterComponents v)) (labelled (laterComponents w)))) := by
        rw [hkeys, hkeys', compareUpTo_spelledKeys h.release]
        rfl
    _ = v.compare w := by
        rw [h.compare_suffixes, compare_eq_parts (hepoch.trans hepoch'.symm) (hlocal.trans hlocal'.symm)]

end Parts

end NaturalVersion

end ManifestLens
