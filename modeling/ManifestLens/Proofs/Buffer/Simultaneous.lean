import ManifestLens.Proofs.Buffer.Offsets
import Mathlib.Algebra.BigOperators.Group.List.Basic
import Mathlib.Algebra.Ring.Int.Defs

/-!
# Several edits at once

The edits of a buffer name ranges of its text as it is before any of them. They are refused when two of
the ranges share an offset, and otherwise one reading of the text gives the result: at each offset the new
texts that belong there, and then the character, unless one of the ranges takes it away. The order in which
the edits are listed matters for insertions at one offset only.

Sorting turns the comparison of all pairs into one of neighbours, and a replacement in front of all others
does not move what they did (`simultaneously_cons`). The sorted list then says the same as the listed one,
because the sort keeps the insertions of each offset in their order (`filter_mergeSort`).
-/

namespace ManifestLens

namespace Replacement

variable {ranges others : List Replacement}

/-! ### One reading of the text -/

/-- Nothing is taken away, the new text is put in at the offset. -/
def insertsAt (offset : Nat) (range : Replacement) : Bool := range.start == offset && range.stop == offset

/-- The replacement takes characters away, the first one at the offset. -/
def opensAt (offset : Nat) (range : Replacement) : Bool := range.start == offset && offset < range.stop

def takes (offset : Nat) (range : Replacement) : Bool := range.start ≤ offset && offset < range.stop

/-- The new texts of an offset: those put in there in the order of the list, and then the one that stands
for the characters taken away from there on. -/
def newAt (ranges : List Replacement) (offset : Nat) : List Char :=
  (ranges.filter (insertsAt offset)).flatMap text ++ (ranges.filter (opensAt offset)).flatMap text

/-- The text, which starts at the offset, with every range exchanged for its new text, read once. -/
def simultaneously (ranges : List Replacement) (offset : Nat) : List Char → List Char
  | [] => newAt ranges offset
  | c :: rest =>
      newAt ranges offset ++ (if ranges.any (takes offset) then [] else [c])
        ++ simultaneously ranges (offset + 1) rest

/-- The two ranges share an offset, where an insertion shares the offsets inside of another range. -/
def Overlapping (a b : Replacement) : Prop := a.start < b.stop ∧ b.start < a.stop

/-- No two of the ranges overlap. -/
def Apart (ranges : List Replacement) : Prop := ranges.Pairwise fun a b => ¬ Overlapping a b

/-- The range lies within a text of the given length. -/
def Within (length : Nat) (range : Replacement) : Prop := range.start ≤ range.stop ∧ range.stop ≤ length

theorem Overlapping.symm {a b : Replacement} (h : Overlapping a b) : Overlapping b a := ⟨h.2, h.1⟩

theorem Apart.perm (h : Apart ranges) (hperm : ranges.Perm others) : Apart others :=
  hperm.pairwise h fun hab hba => hab hba.symm

theorem not_apart_iff : ¬ Apart ranges ↔
    ∃ (i j : Nat) (a b : Replacement), i < j ∧ ranges[i]? = some a ∧ ranges[j]? = some b ∧ Overlapping a b := by
  rw [Apart, List.pairwise_iff_getElem]
  push Not
  constructor
  · rintro ⟨i, j, hi, hj, hij, h⟩
    exact ⟨i, j, _, _, hij, List.getElem?_eq_getElem hi, List.getElem?_eq_getElem hj, h⟩
  · rintro ⟨i, j, a, b, hij, ha, hb, h⟩
    obtain ⟨hi, rfl⟩ := List.getElem?_eq_some_iff.mp ha
    obtain ⟨hj, rfl⟩ := List.getElem?_eq_some_iff.mp hb
    exact ⟨i, j, hi, hj, hij, h⟩

/-! ### What a reading depends on -/

variable {first : Replacement} {rest : List Replacement} {offset : Nat}

theorem simultaneously_nil (offset : Nat) (text : List Char) : simultaneously [] offset text = text := by
  induction text generalizing offset with
  | nil => rfl
  | cons c more ih => rw [simultaneously, ih]; rfl

theorem filter_eq_nil (h : ∀ range ∈ ranges, range.start ≠ offset) :
    ranges.filter (insertsAt offset) = [] ∧ ranges.filter (opensAt offset) = [] := by
  constructor <;>
  · rw [List.filter_eq_nil_iff]
    intro range hmem
    simp [insertsAt, opensAt, h range hmem]

theorem newAt_eq_nil (h : ∀ range ∈ ranges, range.start ≠ offset) : newAt ranges offset = [] := by
  rw [newAt, (filter_eq_nil h).1, (filter_eq_nil h).2]
  rfl

theorem any_takes_eq_false (h : ∀ range ∈ ranges, offset < range.start) :
    ranges.any (takes offset) = false := by
  rw [List.any_eq_false]
  intro range hmem
  have := h range hmem
  simp only [takes, Bool.and_eq_true, decide_eq_true_eq]
  omega

theorem simultaneously_congr (hnew : ∀ place ≥ offset, newAt ranges place = newAt others place)
    (htaken : ∀ place ≥ offset, ranges.any (takes place) = others.any (takes place)) (text : List Char) :
    simultaneously ranges offset text = simultaneously others offset text := by
  induction text generalizing offset with
  | nil => exact hnew offset le_rfl
  | cons c more ih =>
      rw [simultaneously, simultaneously, hnew offset le_rfl, htaken offset le_rfl,
        ih (fun n hn => hnew n (Nat.le_of_succ_le hn)) fun n hn => htaken n (Nat.le_of_succ_le hn)]

theorem simultaneously_append {front : List Char}
    (h : ∀ range ∈ ranges, offset + front.length ≤ range.start) (back : List Char) :
    simultaneously ranges offset (front ++ back)
      = front ++ simultaneously ranges (offset + front.length) back := by
  induction front generalizing offset with
  | nil => rfl
  | cons c more ih =>
      have hlater : ∀ range ∈ ranges, offset + 1 + more.length ≤ range.start := fun range hmem => by
        have := h range hmem
        rw [List.length_cons] at this
        omega
      rw [List.cons_append, simultaneously, ih hlater,
        newAt_eq_nil fun range hmem => by have := hlater range hmem; omega,
        any_takes_eq_false fun range hmem => by have := hlater range hmem; omega, List.length_cons,
        Nat.add_assoc offset 1, Nat.add_comm 1]
      rfl

theorem simultaneously_taken {taken : List Char}
    (h : ∀ place ≥ offset, place < offset + taken.length →
      newAt ranges place = [] ∧ ranges.any (takes place) = true) (back : List Char) :
    simultaneously ranges offset (taken ++ back) = simultaneously ranges (offset + taken.length) back := by
  induction taken generalizing offset with
  | nil => rfl
  | cons c more ih =>
      rw [List.length_cons] at h
      obtain ⟨hnew, htaken⟩ := h offset le_rfl (by omega)
      rw [List.cons_append, simultaneously, hnew, htaken,
        ih fun place hle hlt => h place (by omega) (by omega), List.length_cons, Nat.add_assoc offset 1,
        Nat.add_comm 1]
      rfl

/-! ### A range in front of all others -/

theorem newAt_cons (hwithin : first.start ≤ first.stop) (hrest : ∀ range ∈ rest, first.stop ≤ range.start) :
    newAt (first :: rest) first.start = first.text ++ newAt rest first.start := by
  rcases Nat.eq_or_lt_of_le hwithin with hempty | hlt
  · simp [newAt, insertsAt, opensAt, ← hempty]
  · have hbehind : ∀ range ∈ rest, range.start ≠ first.start := fun range hmem => by
      have := hrest range hmem
      omega
    obtain ⟨hinserts, hopens⟩ := filter_eq_nil hbehind
    rw [newAt, newAt, List.filter_cons_of_neg (by simp [insertsAt, hlt.ne']),
      List.filter_cons_of_pos (by simp [opensAt, hlt]), hinserts, hopens]
    simp

theorem newAt_cons_of_ne (h : first.start ≠ offset) : newAt (first :: rest) offset = newAt rest offset := by
  rw [newAt, newAt, List.filter_cons_of_neg (by simp [insertsAt, h]),
    List.filter_cons_of_neg (by simp [opensAt, h])]

/-- Behind the start of a range in front of all others only the characters it takes away tell of it. -/
theorem simultaneously_cons_of_stop_le (hrest : ∀ place ≥ offset, newAt (first :: rest) place = newAt rest place)
    (hstop : first.stop ≤ offset) (text : List Char) :
    simultaneously (first :: rest) offset text = simultaneously rest offset text := by
  refine simultaneously_congr hrest (fun place hplace => ?_) text
  have hpast : takes place first = false := by
    simp only [takes, Bool.and_eq_false_iff, decide_eq_false_iff_not]
    omega
  rw [List.any_cons, hpast, Bool.false_or]

/-- From the start of a range in front of all others its text stands for the characters it takes away. -/
theorem simultaneously_cons_start {taken : List Char} (hstop : first.start + taken.length = first.stop)
    (hrest : ∀ range ∈ rest, first.stop ≤ range.start) (back : List Char) :
    simultaneously (first :: rest) first.start (taken ++ back)
      = first.text ++ simultaneously rest first.stop back := by
  have hnew := newAt_cons (by omega) hrest
  cases taken with
  | nil =>
      rw [List.length_nil, Nat.add_zero] at hstop
      cases back with
      | nil => rw [List.nil_append, simultaneously, hnew, ← hstop, simultaneously]
      | cons c more =>
          have hpast : takes first.start first = false := by simp [takes, ← hstop]
          have hmore : simultaneously (first :: rest) (first.start + 1) more
              = simultaneously rest (first.start + 1) more :=
            simultaneously_cons_of_stop_le (fun place hplace => newAt_cons_of_ne (by omega)) (by omega) more
          rw [List.nil_append, simultaneously, hnew, hmore, ← hstop, simultaneously, List.any_cons, hpast,
            Bool.false_or]
          simp only [List.append_assoc]
  | cons c more =>
      rw [List.length_cons] at hstop
      have hquiet : newAt rest first.start = [] :=
        newAt_eq_nil fun range hmem => by have := hrest range hmem; omega
      have hfirst : takes first.start first = true := by
        simp only [takes, Bool.and_eq_true, decide_eq_true_eq]
        omega
      have htaken : ∀ place ≥ first.start + 1, place < first.start + 1 + more.length →
          newAt (first :: rest) place = [] ∧ (first :: rest).any (takes place) = true := by
        intro place hle hlt
        have hplace : takes place first = true := by
          simp only [takes, Bool.and_eq_true, decide_eq_true_eq]
          omega
        refine ⟨?_, by rw [List.any_cons, hplace, Bool.true_or]⟩
        rw [newAt_cons_of_ne (by omega), newAt_eq_nil fun range hmem => ?_]
        have := hrest range hmem
        omega
      rw [List.cons_append, simultaneously, hnew, hquiet, List.append_nil, List.any_cons, hfirst,
        Bool.true_or, if_pos rfl, List.append_nil, simultaneously_taken htaken,
        show first.start + 1 + more.length = first.stop by omega,
        simultaneously_cons_of_stop_le (fun place hplace => newAt_cons_of_ne (by omega)) le_rfl]

/-- **A range in front of all others.** The text with the others exchanged still has the characters of the
range, and exchanging them too is what one reading with the range in the list gives. -/
theorem simultaneously_cons {text : List Char} (hwithin : Within text.length first)
    (hrest : ∀ range ∈ rest, first.stop ≤ range.start) :
    ∃ before taken after, before.length = first.start ∧ before.length + taken.length = first.stop ∧
      simultaneously rest 0 text = before ++ taken ++ after ∧
      simultaneously (first :: rest) 0 text = before ++ first.text ++ after := by
  obtain ⟨hle, hstop⟩ := hwithin
  have hbefore : (text.take first.start).length = first.start := by rw [List.length_take]; omega
  have htaken : first.start + ((text.take first.stop).drop first.start).length = first.stop := by
    rw [List.length_drop, List.length_take]
    omega
  have hsplit : text = text.take first.start ++ ((text.take first.stop).drop first.start
      ++ text.drop first.stop) := by
    rw [← List.append_assoc]
    conv_lhs => rw [← List.take_append_drop first.stop text]
    congr 1
    conv_lhs => rw [← List.take_append_drop first.start (text.take first.stop)]
    rw [List.take_take, Nat.min_eq_left hle]
  have hall : ∀ range ∈ first :: rest, first.start ≤ range.start := by
    intro range hmem
    rcases List.mem_cons.mp hmem with rfl | hmem
    · exact le_rfl
    · exact hle.trans (hrest range hmem)
  refine ⟨text.take first.start, (text.take first.stop).drop first.start,
    simultaneously rest first.stop (text.drop first.stop), hbefore, by rw [hbefore, htaken], ?_, ?_⟩
  · conv_lhs => rw [hsplit, ← List.append_assoc]
    rw [simultaneously_append, List.length_append, Nat.zero_add, hbefore, htaken]
    intro range hmem
    rw [List.length_append, Nat.zero_add, hbefore, htaken]
    exact hrest range hmem
  · conv_lhs => rw [hsplit]
    rw [simultaneously_append, hbefore, Nat.zero_add, simultaneously_cons_start htaken hrest,
      List.append_assoc]
    intro range hmem
    rw [hbefore, Nat.zero_add]
    exact hall range hmem

/-! ### From the last range to the first -/

theorem foldr_apply_eq {text : List Char} (hwithin : ∀ range ∈ ranges, Within text.length range)
    (hordered : ranges.Pairwise fun a b => a.stop ≤ b.start) :
    ranges.foldr apply text = simultaneously ranges 0 text := by
  induction ranges with
  | nil => exact (simultaneously_nil 0 text).symm
  | cons first rest ih =>
      obtain ⟨hrest, hmore⟩ := List.pairwise_cons.mp hordered
      obtain ⟨before, taken, after, hstart, hstop, hothers, hall⟩ :=
        simultaneously_cons (hwithin first (by simp)) hrest
      rw [List.foldr_cons, ih (fun range hmem => hwithin range (by simp [hmem])) hmore, hothers, hall, apply,
        ← hstart, ← hstop, ← List.length_append, List.drop_left, List.append_assoc before taken, List.take_left]

theorem length_simultaneously {text : List Char} (hwithin : ∀ range ∈ ranges, Within text.length range)
    (hordered : ranges.Pairwise fun a b => a.stop ≤ b.start) :
    ((simultaneously ranges 0 text).length : Int)
      = text.length + (ranges.map fun range => (range.text.length : Int) - (range.stop - range.start)).sum := by
  induction ranges with
  | nil => simp [simultaneously_nil]
  | cons first rest ih =>
      obtain ⟨hrest, hmore⟩ := List.pairwise_cons.mp hordered
      obtain ⟨before, taken, after, hstart, hstop, hothers, hall⟩ :=
        simultaneously_cons (hwithin first (by simp)) hrest
      have hlength := ih (fun range hmem => hwithin range (by simp [hmem])) hmore
      rw [hothers, List.length_append, List.length_append] at hlength
      rw [hall, List.length_append, List.length_append, List.map_cons, List.sum_cons]
      omega

/-! ### The order of the text -/

theorem precedes_trans (a b c : Replacement) (hab : precedes a b = true) (hbc : precedes b c = true) :
    precedes a c = true := by
  simp only [precedes, Bool.or_eq_true, Bool.and_eq_true, decide_eq_true_eq, beq_iff_eq] at hab hbc ⊢
  omega

theorem precedes_total (a b : Replacement) : (precedes a b || precedes b a) = true := by
  simp only [precedes, Bool.or_eq_true, Bool.and_eq_true, decide_eq_true_eq, beq_iff_eq]
  omega

/-- In the order of the text, neighbours that do not overlap keep all ranges from overlapping. -/
theorem overlap_eq_false_iff (hsorted : ranges.Pairwise fun a b => precedes a b = true)
    (hwithin : ∀ range ∈ ranges, range.start ≤ range.stop) :
    overlap ranges = false ↔ ranges.Pairwise fun a b => a.stop ≤ b.start := by
  induction ranges with
  | nil => simp [overlap]
  | cons a rest ih =>
      obtain ⟨hle, hrest⟩ := List.pairwise_cons.mp hsorted
      have ih := ih hrest fun range hmem => hwithin range (by simp [hmem])
      cases rest with
      | nil => simp [overlap]
      | cons b more =>
          rw [overlap, Bool.or_eq_false_iff, ih, decide_eq_false_iff_not, Nat.not_lt,
            List.pairwise_cons (a := a)]
          constructor
          · rintro ⟨hab, hmore⟩
            refine ⟨fun range hmem => ?_, hmore⟩
            rcases List.mem_cons.mp hmem with rfl | hmem
            · exact hab
            · exact (hab.trans (hwithin b (by simp))).trans ((List.pairwise_cons.mp hmore).1 range hmem)
          · rintro ⟨hall, hmore⟩
            exact ⟨hall b (by simp), hmore⟩

theorem apart_iff_of_sorted (hsorted : ranges.Pairwise fun a b => precedes a b = true)
    (hwithin : ∀ range ∈ ranges, range.start ≤ range.stop) :
    Apart ranges ↔ ranges.Pairwise fun a b => a.stop ≤ b.start := by
  constructor
  · intro hapart
    refine (List.Pairwise.and hapart hsorted).imp_of_mem ?_
    intro a b ha hb ⟨hab, hle⟩
    have hstart := hwithin a ha
    have hstop := hwithin b hb
    simp only [Overlapping] at hab
    simp only [precedes, Bool.or_eq_true, Bool.and_eq_true, decide_eq_true_eq, beq_iff_eq] at hle
    omega
  · exact fun hordered => hordered.imp fun hle hover => by
      simp only [Overlapping] at hover
      omega

/-! ### The order of the list -/

/-- Of ranges that do not overlap, one at most takes away characters from an offset on. -/
theorem filter_opensAt_perm (hapart : Apart ranges) (hperm : ranges.Perm others) (offset : Nat) :
    ranges.filter (opensAt offset) = others.filter (opensAt offset) := by
  have hfilter := hperm.filter (opensAt offset)
  cases hranges : ranges.filter (opensAt offset) with
  | nil =>
      rw [hranges] at hfilter
      exact hfilter.nil_eq
  | cons a rest =>
      cases rest with
      | nil =>
          rw [hranges] at hfilter
          exact hfilter.singleton_eq
      | cons b more =>
          have hab : ¬ Overlapping a b := by
            have := hapart.filter (opensAt offset)
            rw [hranges] at this
            exact (List.pairwise_cons.mp this).1 b (by simp)
          have hopen : ∀ range ∈ [a, b], range.start = offset ∧ offset < range.stop := by
            intro range hmem
            have : range ∈ ranges.filter (opensAt offset) := by
              rw [hranges]
              exact List.mem_append_left more hmem
            simpa [opensAt] using (List.mem_filter.mp this).2
          have ha := hopen a (by simp)
          have hb := hopen b (by simp)
          exact absurd ⟨by omega, by omega⟩ hab

/-- Ranges that do not overlap may be listed in any order that keeps the insertions at each offset. -/
theorem simultaneously_perm (hapart : Apart ranges) (hperm : ranges.Perm others)
    (hinserts : ∀ offset, ranges.filter (insertsAt offset) = others.filter (insertsAt offset))
    (text : List Char) : simultaneously ranges 0 text = simultaneously others 0 text := by
  refine simultaneously_congr (fun place _ => ?_) (fun place _ => hperm.any_eq) text
  rw [newAt, newAt, hinserts place, filter_opensAt_perm hapart hperm]

theorem filter_mergeSort (ranges : List Replacement) (offset : Nat) :
    (ranges.mergeSort precedes).filter (insertsAt offset) = ranges.filter (insertsAt offset) := by
  have hclass : (ranges.filter (insertsAt offset)).Pairwise fun a b => precedes a b = true := by
    refine List.pairwise_of_forall_mem_list fun a ha b hb => ?_
    have ha := (List.mem_filter.mp ha).2
    have hb := (List.mem_filter.mp hb).2
    simp only [insertsAt, Bool.and_eq_true, beq_iff_eq] at ha hb
    simp only [precedes, Bool.or_eq_true, Bool.and_eq_true, decide_eq_true_eq, beq_iff_eq]
    omega
  have hsublist := (List.sublist_mergeSort precedes_trans precedes_total hclass List.filter_sublist).filter
    (insertsAt offset)
  rw [List.filter_filter, List.filter_congr (q := insertsAt offset) (by simp)] at hsublist
  exact (hsublist.eq_of_length ((List.mergeSort_perm ranges precedes).filter _).length_eq.symm).symm

end Replacement

/-! ### The edits of a buffer -/

namespace Buffer

open Replacement

variable {buffer : Buffer} {edits : List Edit}

/-- The ranges of offsets that the edits replace, in the order of the edits. -/
def ranges (buffer : Buffer) (edits : List Edit) : List Replacement := edits.map buffer.replacement

theorem within_of_mem_ranges {range : Replacement} (h : range ∈ buffer.ranges edits) :
    Within buffer.text.length range := by
  obtain ⟨edit, -, rfl⟩ := List.mem_map.mp h
  refine ⟨buffer.offsetAt_mono ?_, buffer.offsetAt_le_length _⟩
  rw [Prod.Lex.toLex_le_toLex]
  exact Or.inr ⟨rfl, Int.ofNat_le.mpr (Nat.le_add_right ..)⟩

theorem withEdits_eq (buffer : Buffer) (edits : List Edit) :
    (¬ Apart (buffer.ranges edits) ∧ buffer.withEdits edits = .error .overlappingEdits) ∨
      (Apart (buffer.ranges edits) ∧
        buffer.withEdits edits = .ok (simultaneously (buffer.ranges edits) 0 buffer.text) ∧
        ((simultaneously (buffer.ranges edits) 0 buffer.text).length : Int) = buffer.text.length
          + ((buffer.ranges edits).map fun range =>
              (range.text.length : Int) - (range.stop - range.start)).sum) := by
  have hperm := List.mergeSort_perm (buffer.ranges edits) precedes
  have hsorted := List.pairwise_mergeSort precedes_trans precedes_total (buffer.ranges edits)
  have hwithin : ∀ range ∈ (buffer.ranges edits).mergeSort precedes, Within buffer.text.length range :=
    fun range hmem => within_of_mem_ranges (hperm.mem_iff.mp hmem)
  have hstop := fun range hmem => (hwithin range hmem).1
  have hresult : buffer.withEdits edits = if overlap ((buffer.ranges edits).mergeSort precedes)
      then .error .overlappingEdits
      else .ok (((buffer.ranges edits).mergeSort precedes).foldr apply buffer.text) := rfl
  have happart : Apart (buffer.ranges edits) ↔ overlap ((buffer.ranges edits).mergeSort precedes) = false := by
    rw [overlap_eq_false_iff hsorted hstop, ← apart_iff_of_sorted hsorted hstop]
    exact ⟨fun h => h.perm hperm.symm, fun h => h.perm hperm⟩
  cases hover : overlap ((buffer.ranges edits).mergeSort precedes) with
  | true => exact Or.inl ⟨by simp [happart, hover], by rw [hresult, hover, if_pos rfl]⟩
  | false =>
      have hordered := (overlap_eq_false_iff hsorted hstop).mp hover
      have hsame : simultaneously (buffer.ranges edits) 0 buffer.text
          = simultaneously ((buffer.ranges edits).mergeSort precedes) 0 buffer.text :=
        simultaneously_perm (happart.mpr hover) hperm.symm (fun offset => (filter_mergeSort _ offset).symm) _
      refine Or.inr ⟨happart.mpr hover, ?_, ?_⟩
      · rw [hresult, hover, if_neg Bool.false_ne_true, foldr_apply_eq hwithin hordered, hsame]
      · rw [hsame, length_simultaneously hwithin hordered, (hperm.map _).sum_eq]

/-- What applying edits to a buffer does. -/
structure AppliesAtOnce (buffer : Buffer) (edits : List Edit) : Prop where
  /-- The positions of every edit are moved into the text and span a range of it. -/
  within : ∀ range ∈ buffer.ranges edits, range.start ≤ range.stop ∧ range.stop ≤ buffer.text.length
  /-- The edits are refused exactly when two of the ranges overlap. -/
  refused_iff : buffer.withEdits edits = .error .overlappingEdits ↔
    ∃ (i j : Nat) (a b : Replacement), i < j ∧ (buffer.ranges edits)[i]? = some a ∧
      (buffer.ranges edits)[j]? = some b ∧ Overlapping a b
  /-- Otherwise every range is exchanged for its new text, and every other character stays. -/
  exchanged : buffer.withEdits edits ≠ .error .overlappingEdits →
    buffer.withEdits edits = .ok (simultaneously (buffer.ranges edits) 0 buffer.text)
  /-- The text grows by what is put in and shrinks by what is taken away. -/
  length_of_ok : ∀ text, buffer.withEdits edits = .ok text → (text.length : Int) = buffer.text.length
    + ((buffer.ranges edits).map fun range => (range.text.length : Int) - (range.stop - range.start)).sum
  /-- Listed in another order the edits do the same, as long as insertions at one offset stay in order. -/
  reordered : ∀ others, others.Perm edits →
    (∀ offset, (buffer.ranges others).filter (insertsAt offset)
      = (buffer.ranges edits).filter (insertsAt offset)) →
      buffer.withEdits others = buffer.withEdits edits

/-- **Edits are applied at once.** -/
theorem appliesAtOnce (buffer : Buffer) (edits : List Edit) : buffer.AppliesAtOnce edits where
  within _ h := within_of_mem_ranges h
  refused_iff := by
    rw [← not_apart_iff]
    rcases buffer.withEdits_eq edits with ⟨hover, hresult⟩ | ⟨hapart, hresult, -⟩
    · simp [hover, hresult]
    · simp [hapart, hresult]
  exchanged hne := by
    rcases buffer.withEdits_eq edits with ⟨-, hresult⟩ | ⟨-, hresult, -⟩
    · exact absurd hresult hne
    · exact hresult
  length_of_ok text htext := by
    rcases buffer.withEdits_eq edits with ⟨-, hresult⟩ | ⟨-, hresult, hlength⟩
    · rw [hresult] at htext
      cases htext
    · rw [hresult] at htext
      cases htext
      exact hlength
  reordered others hperm hinserts := by
    have hranges : (buffer.ranges others).Perm (buffer.ranges edits) := hperm.map _
    rcases buffer.withEdits_eq edits with ⟨hover, hresult⟩ | ⟨hapart, hresult, -⟩ <;>
      rcases buffer.withEdits_eq others with ⟨hover', hresult'⟩ | ⟨hapart', hresult', -⟩
    · rw [hresult, hresult']
    · exact absurd (hapart'.perm hranges) hover
    · exact absurd (hapart.perm hranges.symm) hover'
    · rw [hresult, hresult', simultaneously_perm hapart' hranges hinserts]

end Buffer

end ManifestLens
