import ManifestLens.Proofs.Ordering.Stable
import ManifestLens.Proofs.Version.Preorder

/-!
# Neighbours in a sorted list

A sort that succeeds has compared every two elements that stand next to each other in its result: nothing else
tells it that they may stand there. The first run is a chain of such comparisons, and the bisection ends between
two elements against which it has held the new one. So where the comparison is transitive as far as it answers,
a sort that succeeds has sorted a list of which any two elements can be compared, whatever else the comparison
may fail on.
-/

namespace ManifestLens

variable {α ε : Type} {lt : α → α → Except ε Bool}

/-- The comparison has answered that an element may stand before another one. -/
def MayPrecede (lt : α → α → Except ε Bool) (a b : α) : Prop := lt b a = .ok false ∨ lt a b = .ok true

namespace BinaryInsertion

/-! ### The run at the beginning -/

theorem isChain_expected_of_runLength {expected : Bool} {last : α} {xs : List α} {count : Nat}
    (h : runLength lt expected last xs = .ok count) :
    (last :: xs.take count).IsChain fun a b => lt b a = .ok expected := by
  induction xs generalizing last count with
  | nil =>
      cases h
      exact .singleton _
  | cons x rest ih =>
      obtain ⟨answer, hanswer, h⟩ := bind_eq_ok_iff.mp h
      split at h
      · next hexpected =>
          obtain ⟨more, hmore, h⟩ := bind_eq_ok_iff.mp h
          cases h
          rw [List.take_succ_cons, List.isChain_cons_cons]
          exact ⟨hexpected ▸ hanswer, ih hmore⟩
      · cases h
        exact .singleton _

theorem isChain_of_firstRun {xs run rest : List α} (h : firstRun lt xs = .ok (run, rest)) :
    run.IsChain (MayPrecede lt) := by
  match xs with
  | [] =>
      cases h
      exact .nil
  | [x] =>
      cases h
      exact .singleton x
  | x :: y :: more =>
      obtain ⟨descending, hdescending, h⟩ := bind_eq_ok_iff.mp h
      obtain ⟨count, hcount, h⟩ := bind_eq_ok_iff.mp h
      cases h
      have hchain : (x :: y :: more.take count).IsChain fun a b => lt b a = .ok descending :=
        List.isChain_cons_cons.mpr ⟨hdescending, isChain_expected_of_runLength hcount⟩
      cases descending with
      | true =>
          rw [if_pos rfl, List.isChain_reverse]
          exact hchain.imp fun _ _ hlt => .inr hlt
      | false =>
          rw [if_neg Bool.false_ne_true]
          exact hchain.imp fun _ _ hnot => .inl hnot

/-! ### Putting an element in its place -/

/-- What the bisection knows between two positions: the new element is not less than the one before the first
position, and it is less than the one at the second. -/
structure Borders (lt : α → α → Except ε Bool) (x : α) (sorted : List α) (low high : Nat) : Prop where
  below : ∀ i y, low = i + 1 → sorted[i]? = some y → lt x y = .ok false
  above : ∀ y, sorted[high]? = some y → lt x y = .ok true

theorem borders_of_place {sorted : List α} {x : α} {fuel low high position : Nat}
    (hborders : Borders lt x sorted low high) (hlow : low ≤ high) (hhigh : high ≤ sorted.length)
    (hfuel : high - low < fuel) (h : place lt sorted.toArray x fuel low high = .ok position) :
    position ≤ sorted.length ∧ Borders lt x sorted position position := by
  induction fuel generalizing low high with
  | zero => omega
  | succ fuel ih =>
      simp only [place] at h
      split at h
      · next hbetween =>
          have hmiddle : low + (high - low) / 2 < sorted.length := by omega
          have hget : sorted.toArray[low + (high - low) / 2]? = some sorted[low + (high - low) / 2] := by
            simp [hmiddle]
          rw [hget] at h
          obtain ⟨answer, hanswer, h⟩ := bind_eq_ok_iff.mp h
          have hself : ∀ y, sorted[low + (high - low) / 2]? = some y → lt x y = .ok answer := by
            intro y hy
            rwa [← Option.some.inj ((List.getElem?_eq_getElem hmiddle).symm.trans hy)]
          cases answer with
          | true => exact ih ⟨hborders.below, hself⟩ (by omega) (by omega) (by omega) h
          | false =>
              refine ih ⟨fun i y hi hy => ?_, hborders.above⟩ (by omega) (by omega) (by omega) h
              obtain rfl : low + (high - low) / 2 = i := by omega
              exact hself y hy
      · next hmet =>
          cases h
          obtain rfl := Nat.le_antisymm hlow (Nat.le_of_not_lt hmet)
          exact ⟨hhigh, hborders⟩

theorem isChain_of_insert {sorted result : List α} {x : α} (hsorted : sorted.IsChain (MayPrecede lt))
    (h : insert lt sorted x = .ok result) : result.IsChain (MayPrecede lt) := by
  obtain ⟨position, hplace, h⟩ := bind_eq_ok_iff.mp h
  cases h
  have hends : Borders lt x sorted 0 sorted.length := by
    refine ⟨fun i y hi => absurd hi (Nat.succ_ne_zero i).symm, fun y hy => ?_⟩
    rw [List.getElem?_eq_none (Nat.le_refl _)] at hy
    cases hy
  obtain ⟨hlength, hborders⟩ := borders_of_place hends (Nat.zero_le _) (Nat.le_refl _) (by omega) hplace
  rw [List.isChain_append, List.isChain_cons]
  refine ⟨hsorted.take position, ⟨fun y hy => ?_, hsorted.drop position⟩, fun y hy z hz => ?_⟩
  · rw [List.head?_drop] at hy
    exact .inr (hborders.above y hy)
  · cases hz
    cases position with
    | zero => simp at hy
    | succ i =>
        rw [List.take_add_one, List.getElem?_eq_getElem hlength, Option.toList_some, List.getLast?_concat] at hy
        cases hy
        exact .inl (hborders.below i _ rfl (List.getElem?_eq_getElem hlength))

theorem isChain_of_foldlM_insert {xs sorted result : List α} (hsorted : sorted.IsChain (MayPrecede lt))
    (h : xs.foldlM (insert lt) sorted = .ok result) : result.IsChain (MayPrecede lt) := by
  induction xs generalizing sorted with
  | nil =>
      cases h
      exact hsorted
  | cons x rest ih =>
      rw [List.foldlM_cons] at h
      obtain ⟨more, hinsert, h⟩ := bind_eq_ok_iff.mp h
      exact ih (isChain_of_insert hsorted hinsert) h

end BinaryInsertion

/-! ### The sort -/

section Sorting

open BinaryInsertion

variable {xs sorted : List α}

/-- **Neighbours have been compared**, and the comparison has not spoken against their order. -/
theorem isChain_of_sortAscending (h : sortAscending lt xs = .ok sorted) : sorted.IsChain (MayPrecede lt) := by
  obtain ⟨⟨run, rest⟩, hrun, h⟩ := bind_eq_ok_iff.mp h
  exact isChain_of_foldlM_insert (isChain_of_firstRun hrun) h

theorem isChain_of_sortDescending (h : sortDescending lt xs = .ok sorted) :
    sorted.IsChain fun a b => MayPrecede lt b a := by
  obtain ⟨ascending, hascending, h⟩ := bind_eq_ok_iff.mp h
  cases h
  rw [List.isChain_reverse]
  exact isChain_of_sortAscending hascending

end Sorting

/-!
## Sorting by one order and then by another

A list sorted by the lesser of two orders and then, stably, by the greater one is sorted by both: the second sort
leaves together what is equal for it, in the order of the first.
-/

/-- What holds of every two elements of each class, in their order, holds of every two elements that are equal. -/
theorem pairwise_of_classes {cmp : α → α → Ordering} [Std.ReflCmp cmp] {R : α → α → Prop} {xs : List α}
    (h : ∀ a, (xs.filter fun b => cmp a b == .eq).Pairwise R) :
    xs.Pairwise fun a b => cmp a b = .eq → R a b := by
  induction xs with
  | nil => exact .nil
  | cons x rest ih =>
      refine List.pairwise_cons.mpr ⟨fun y hy heq => ?_, ih fun a => ?_⟩
      · have hclass := h x
        rw [List.filter_cons_of_pos (by simp [Std.ReflCmp.compare_self])] at hclass
        exact List.rel_of_pairwise_cons hclass (List.mem_filter.mpr ⟨hy, by simp [heq]⟩)
      · exact (h a).sublist ((List.sublist_cons_self x rest).filter _)

namespace IsStableSort

variable {cmp cmp' : α → α → Ordering} {xs ys sorted : List α}

/-- Equal elements stand as they came in. -/
theorem pairwise_of_eq [Std.ReflCmp cmp] {R : α → α → Prop} (h : IsStableSort cmp xs sorted)
    (hxs : xs.Pairwise R) : sorted.Pairwise fun a b => cmp a b = .eq → R a b :=
  pairwise_of_classes fun a => h.stable a ▸ hxs.filter _

/-- **Sorting a sorted list** by a second order sorts it by the second order first. -/
theorem lexicographic [Std.ReflCmp cmp'] (h : IsStableSort cmp xs ys) (h' : IsStableSort cmp' ys sorted) :
    IsStableSort (compareLex cmp' cmp) xs sorted := by
  refine ⟨?_, fun a => ?_⟩
  · refine (h'.ordered.and (h'.pairwise_of_eq h.ordered)).imp fun {a b} hab => ?_
    exact Ordering.isLE_then_iff_and.mpr ⟨hab.1, by
      cases hcmp : cmp' a b with
      | lt => exact .inl rfl
      | eq => exact .inr (hab.2 hcmp)
      | gt => simp [hcmp] at hab⟩
  · have hclass : (fun b => compareLex cmp' cmp a b == .eq) = fun b => cmp a b == .eq && cmp' a b == .eq := by
      funext b
      rw [Bool.eq_iff_iff, Bool.and_eq_true, beq_iff_eq, beq_iff_eq, beq_iff_eq, and_comm]
      exact Ordering.then_eq_eq
    rw [hclass, ← List.filter_filter, ← List.filter_filter, h'.stable, List.filter_comm, h.stable,
      List.filter_comm]

end IsStableSort

end ManifestLens

/-!
## What sorting tells about its texts

Comparing two version texts reads their segments no further than to the first difference, so that texts with
unreadable segments may be compared as well. Texts that can be compared with a text between them can be compared
with each other: up to the first difference from it they have been read. So wherever sorting succeeds, every two
texts of the list can be compared, and the sort is the stable one.
-/

namespace ManifestLens

namespace NaturalVersion

variable {left middle right : List (List Char)} {count : Nat} {result : Ordering}

/-! ### Segment by segment -/

/-- What the first segment is read as. A segment that is missing counts as one. -/
def readHead (segments : List (List Char)) : Except Failure Segment :=
  (segments.head?.map Segment.read).getD (.ok .missing)

/-- Compares the first segments of two texts, as many as a number says, and reads them as far as they are
compared. -/
def compareHeads : Nat → List (List Char) → List (List Char) → Except Failure Ordering
  | 0, _, _ => .ok .eq
  | count + 1, left, right => do
      let first ← readHead left
      let second ← readHead right
      match first.cmp second with
      | .eq => compareHeads count left.tail right.tail
      | order => .ok order

theorem compareHeads_nil (count : Nat) : compareHeads count [] [] = .ok .eq := by
  induction count with
  | zero => rfl
  | succ count ih => exact ih

/-- By induction on the number of segments, one that neither text exceeds. -/
theorem compareSegments_eq_compareHeads (hleft : left.length ≤ count) (hright : right.length ≤ count) :
    compareSegments (List.zipWithAll Prod.mk left right) = compareHeads count left right := by
  induction count generalizing left right with
  | zero =>
      obtain rfl := List.length_eq_zero_iff.mp (Nat.le_zero.mp hleft)
      obtain rfl := List.length_eq_zero_iff.mp (Nat.le_zero.mp hright)
      rfl
  | succ count ih =>
      by_cases hends : left ≠ [] ∨ right ≠ []
      · rw [zipWithAll_eq hends, compareSegments, ih (length_tail_le hleft) (length_tail_le hright)]
        rfl
      · obtain ⟨rfl, rfl⟩ : left = [] ∧ right = [] := by simpa using hends
        rw [compareHeads_nil]
        rfl

/-- One step of a comparison: both segments are read, and either they are equal or they decide. -/
theorem compareHeads_succ_iff : compareHeads (count + 1) left right = .ok result ↔
    ∃ first second, readHead left = .ok first ∧ readHead right = .ok second ∧
      (first.cmp second = .eq ∧ compareHeads count left.tail right.tail = .ok result ∨
        first.cmp second ≠ .eq ∧ first.cmp second = result) := by
  constructor
  · intro h
    obtain ⟨first, hfirst, h⟩ := bind_eq_ok_iff.mp h
    obtain ⟨second, hsecond, h⟩ := bind_eq_ok_iff.mp h
    refine ⟨first, second, hfirst, hsecond, ?_⟩
    split at h
    · next heq => exact .inl ⟨heq, h⟩
    · next hne => exact .inr ⟨hne, Except.ok.inj h⟩
  · rintro ⟨first, second, hfirst, hsecond, h⟩
    refine bind_eq_ok_iff.mpr ⟨first, hfirst, bind_eq_ok_iff.mpr ⟨second, hsecond, ?_⟩⟩
    rcases h with ⟨heq, h⟩ | ⟨hne, h⟩
    · rwa [heq]
    · split
      · next heq => exact absurd heq hne
      · rw [h]

theorem compareHeads_swap (h : compareHeads count left right = .ok result) :
    compareHeads count right left = .ok result.swap := by
  induction count generalizing left right with
  | zero =>
      cases h
      rfl
  | succ count ih =>
      obtain ⟨first, second, hfirst, hsecond, h⟩ := compareHeads_succ_iff.mp h
      have hswap : second.cmp first = (first.cmp second).swap := Std.OrientedCmp.eq_swap
      refine compareHeads_succ_iff.mpr ⟨second, first, hsecond, hfirst, ?_⟩
      rcases h with ⟨heq, h⟩ | ⟨hne, rfl⟩
      · exact .inl ⟨by rw [hswap, heq]; rfl, ih h⟩
      · exact .inr ⟨by rw [hswap, ne_eq, Ordering.swap_eq_eq]; exact hne, hswap⟩

/-- **Through a text between them.** The segments of the outer texts are read up to the first one that differs
from the middle text, and there they differ from each other. -/
theorem exists_compareHeads {result' : Ordering} (h : compareHeads count left middle = .ok result)
    (hle : result.isLE = true) (h' : compareHeads count middle right = .ok result') (hle' : result'.isLE = true) :
    ∃ outer, compareHeads count left right = .ok outer := by
  induction count generalizing left middle right with
  | zero => exact ⟨.eq, rfl⟩
  | succ count ih =>
      obtain ⟨first, second, hfirst, hsecond, h⟩ := compareHeads_succ_iff.mp h
      obtain ⟨same, third, hsame, hthird, h'⟩ := compareHeads_succ_iff.mp h'
      obtain rfl := Except.ok.inj (hsecond.symm.trans hsame)
      -- As soon as one of the two pairs differs, so do the outer segments.
      have hless (hlt : first.cmp third = .lt) : compareHeads (count + 1) left right = .ok .lt :=
        compareHeads_succ_iff.mpr ⟨first, third, hfirst, hthird, .inr ⟨by simp [hlt], hlt⟩⟩
      have hlt_of {order : Ordering} (hne : order ≠ .eq) (hle : order.isLE = true) : order = .lt := by
        cases order <;> simp_all
      rcases h with ⟨heq, h⟩ | ⟨hne, rfl⟩
      · rcases h' with ⟨heq', h'⟩ | ⟨hne', rfl⟩
        · obtain ⟨outer, houter⟩ := ih h h'
          exact ⟨outer, compareHeads_succ_iff.mpr ⟨first, third, hfirst, hthird,
            .inl ⟨Std.TransCmp.eq_trans heq heq', houter⟩⟩⟩
        · exact ⟨.lt, hless (Std.TransCmp.lt_of_eq_of_lt heq (hlt_of hne' hle'))⟩
      · have hbelow : (second.cmp third).isLE = true := by
          rcases h' with ⟨heq', -⟩ | ⟨-, rfl⟩
          · simp [heq']
          · exact hle'
        exact ⟨.lt, hless (Std.TransCmp.lt_of_lt_of_isLE (hlt_of hne hle) hbelow)⟩

/-! ### Texts -/

variable {a b c : List Char}

theorem compare_eq_compareHeads (hleft : (segments a).length ≤ count) (hright : (segments b).length ≤ count) :
    compare a b = compareHeads count (segments a) (segments b) :=
  compareSegments_eq_compareHeads hleft hright

theorem compare_swap (h : compare a b = .ok result) : compare b a = .ok result.swap := by
  rw [compare_eq_compareHeads (Nat.le_max_left ..) (Nat.le_max_right ..)] at h
  rw [compare_eq_compareHeads (Nat.le_max_right ..) (Nat.le_max_left ..)]
  exact compareHeads_swap h

/-- One text can be compared with another one and does not come after it. -/
def ComesBefore (a b : List Char) : Prop := ∃ result, compare a b = .ok result ∧ result.isLE = true

theorem ComesBefore.trans (hab : ComesBefore a b) (hbc : ComesBefore b c) : ComesBefore a c := by
  obtain ⟨first, hfirst, hle⟩ := hab
  obtain ⟨second, hsecond, hle'⟩ := hbc
  obtain ⟨count, hcount⟩ : ∃ count, (segments a).length ≤ count ∧ (segments b).length ≤ count ∧
      (segments c).length ≤ count :=
    ⟨max (segments a).length (max (segments b).length (segments c).length), by omega, by omega, by omega⟩
  obtain ⟨outer, houter⟩ : ∃ outer, compare a c = .ok outer := by
    rw [compare_eq_compareHeads hcount.1 hcount.2.1] at hfirst
    rw [compare_eq_compareHeads hcount.2.1 hcount.2.2] at hsecond
    rw [compare_eq_compareHeads hcount.1 hcount.2.2]
    exact exists_compareHeads hfirst hle hsecond hle'
  refine ⟨outer, houter, ?_⟩
  rw [← order_of_compare houter]
  rw [← order_of_compare hfirst] at hle
  rw [← order_of_compare hsecond] at hle'
  exact Std.TransCmp.isLE_trans hle hle'

theorem comesBefore_of_mayPrecede (h : MayPrecede lt a b) : ComesBefore a b := by
  rcases h with h | h
  · obtain ⟨result, hresult, h⟩ := bind_eq_ok_iff.mp h
    refine ⟨result.swap, compare_swap hresult, ?_⟩
    cases result with
    | lt => cases h
    | eq | gt => rfl
  · obtain ⟨result, hresult, h⟩ := bind_eq_ok_iff.mp h
    refine ⟨result, hresult, ?_⟩
    cases result with
    | lt => rfl
    | eq | gt => cases h

/-! ### Sorting -/

section Sorting

variable {α : Type} (text : α → List Char) {xs sorted : List α}

/-- **Sorting succeeds only where it is stable.** If what has version texts has been sorted by them, every two
of the texts can be compared, and the sorted list is the stable sort from the newest to the oldest. -/
theorem isStableSort_of_sortDescending
    (h : sortDescending (fun a b => lt (text a) (text b)) xs = .ok sorted) :
    (xs.Pairwise fun a b => ∃ result, compare (text a) (text b) = .ok result) ∧
      IsStableSort (fun a b => order (text b) (text a)) xs sorted := by
  have hchain : sorted.IsChain fun a b => ComesBefore (text b) (text a) :=
    (isChain_of_sortDescending h).imp fun _ _ hmay => comesBefore_of_mayPrecede hmay
  have htrans : IsTrans α fun a b => ComesBefore (text b) (text a) := ⟨fun _ _ _ hab hbc => hbc.trans hab⟩
  have hsorted : sorted.Pairwise fun a b => ∃ result, compare (text a) (text b) = .ok result :=
    hchain.pairwise.imp fun ⟨result, hresult, _⟩ => ⟨result.swap, compare_swap hresult⟩
  have hcomparable := ((perm_of_sortDescending h).pairwise_iff
    fun ⟨result, hresult⟩ => ⟨result.swap, compare_swap hresult⟩).mp hsorted
  have hagree : Agree (fun a b => lt (text a) (text b)) (fun a b => .ok (order (text a) (text b) == .lt)) xs :=
    hcomparable.imp fun ⟨_, hresult⟩ => ⟨lt_of_compare hresult, lt_of_compare (compare_swap hresult)⟩
  have := transCmp_of_key order text
  obtain ⟨sorted', hsorted', hstable⟩ := exists_sortDescending hagree
  obtain rfl := Except.ok.inj (h.symm.trans hsorted')
  exact ⟨hcomparable, hstable⟩

end Sorting

end NaturalVersion

end ManifestLens
