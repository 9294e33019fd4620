import ManifestLens.Ordering.BinaryInsertion
import ManifestLens.Proofs.Error.Result
import Mathlib.Data.List.Chain

/-!
# Sorting with a comparison that may fail

Every step of the sort takes the elements that it was given and gives them back in some order. It follows that
the sort compares elements of the list and nothing else, so that it fails only as a comparison of two of them
does. Where the comparison answers as an order does, the sort is stable.
-/

namespace ManifestLens

variable {α ε : Type} {lt : α → α → Except ε Bool} {fault : ε}

/-- The comparison of two elements of a list fails. -/
def FailsWithin (lt : α → α → Except ε Bool) (xs : List α) (fault : ε) : Prop :=
  ∃ a ∈ xs, ∃ b ∈ xs, lt a b = .error fault

theorem FailsWithin.mono {xs ys : List α} (h : FailsWithin lt xs fault) (hsub : xs ⊆ ys) :
    FailsWithin lt ys fault :=
  let ⟨a, ha, b, hb, hfault⟩ := h
  ⟨a, hsub ha, b, hsub hb, hfault⟩

namespace BinaryInsertion

/-! ### The run at the beginning -/

theorem failsWithin_of_runLength {expected : Bool} {last : α} {xs : List α}
    (h : runLength lt expected last xs = .error fault) : FailsWithin lt (last :: xs) fault := by
  induction xs generalizing last with
  | nil => cases h
  | cons x rest ih =>
      rcases bind_eq_error_iff.mp h with hlt | ⟨answer, -, h⟩
      · exact ⟨x, by simp, last, by simp, hlt⟩
      · split at h
        · rcases bind_eq_error_iff.mp h with hrest | ⟨more, -, h⟩
          · exact (ih hrest).mono fun y hy => List.mem_cons_of_mem _ hy
          · cases h
        · cases h

theorem failsWithin_of_firstRun {xs : List α} (h : firstRun lt xs = .error fault) :
    FailsWithin lt xs fault := by
  match xs with
  | [] => cases h
  | [x] => cases h
  | x :: y :: rest =>
      rcases bind_eq_error_iff.mp h with hlt | ⟨descending, -, h⟩
      · exact ⟨y, by simp, x, by simp, hlt⟩
      · rcases bind_eq_error_iff.mp h with hmore | ⟨more, -, h⟩
        · exact (failsWithin_of_runLength hmore).mono fun z hz => List.mem_cons_of_mem _ hz
        · cases h

theorem perm_of_firstRun {xs run rest : List α} (h : firstRun lt xs = .ok (run, rest)) :
    (run ++ rest).Perm xs := by
  match xs with
  | [] =>
      cases h
      exact .refl _
  | [x] =>
      cases h
      exact .refl _
  | x :: y :: more =>
      obtain ⟨descending, -, h⟩ := bind_eq_ok_iff.mp h
      obtain ⟨length, -, h⟩ := bind_eq_ok_iff.mp h
      cases h
      have hwhole : x :: y :: more = (x :: y :: more.take length) ++ more.drop length := by simp
      rw [hwhole]
      refine List.Perm.append_right _ ?_
      split
      · exact List.reverse_perm _
      · exact .refl _

/-! ### Putting an element in its place -/

theorem exists_of_place {sorted : Array α} {x : α} {fuel low high : Nat}
    (h : place lt sorted x fuel low high = .error fault) : ∃ y ∈ sorted.toList, lt x y = .error fault := by
  induction fuel generalizing low high with
  | zero => cases h
  | succ fuel ih =>
      simp only [place] at h
      split at h
      · split at h
        · cases h
        · rename_i y hy
          rcases bind_eq_error_iff.mp h with hlt | ⟨answer, -, h⟩
          · exact ⟨y, Array.mem_toList_iff.mpr (Array.mem_of_getElem? hy), hlt⟩
          · split at h <;> exact ih h
      · cases h

theorem failsWithin_of_insert {sorted : List α} {x : α} (h : insert lt sorted x = .error fault) :
    FailsWithin lt (x :: sorted) fault := by
  rcases bind_eq_error_iff.mp h with hplace | ⟨position, -, h⟩
  · obtain ⟨y, hy, hfault⟩ := exists_of_place hplace
    exact ⟨x, List.mem_cons_self .., y, List.mem_cons_of_mem _ hy, hfault⟩
  · cases h

theorem perm_of_insert {sorted result : List α} {x : α} (h : insert lt sorted x = .ok result) :
    result.Perm (x :: sorted) := by
  obtain ⟨position, -, h⟩ := bind_eq_ok_iff.mp h
  cases h
  refine List.perm_middle.trans (.cons x ?_)
  rw [List.take_append_drop]

theorem failsWithin_of_foldlM_insert {xs sorted : List α}
    (h : xs.foldlM (insert lt) sorted = .error fault) : FailsWithin lt (sorted ++ xs) fault := by
  induction xs generalizing sorted with
  | nil => cases h
  | cons x rest ih =>
      rw [List.foldlM_cons] at h
      rcases bind_eq_error_iff.mp h with hinsert | ⟨more, hinsert, h⟩
      · exact (failsWithin_of_insert hinsert).mono (by simp)
      · refine (ih h).mono fun y hy => List.perm_middle.symm.subset ?_
        exact ((perm_of_insert hinsert).append_right rest).subset hy

theorem perm_of_foldlM_insert {xs sorted result : List α}
    (h : xs.foldlM (insert lt) sorted = .ok result) : result.Perm (sorted ++ xs) := by
  induction xs generalizing sorted with
  | nil =>
      cases h
      rw [List.append_nil]
  | cons x rest ih =>
      rw [List.foldlM_cons] at h
      obtain ⟨more, hinsert, h⟩ := bind_eq_ok_iff.mp h
      exact (ih h).trans (((perm_of_insert hinsert).append_right rest).trans List.perm_middle.symm)

end BinaryInsertion

/-! ### The sort -/

theorem perm_of_sortAscending {xs result : List α} (h : sortAscending lt xs = .ok result) :
    result.Perm xs := by
  obtain ⟨⟨run, rest⟩, hrun, h⟩ := bind_eq_ok_iff.mp h
  exact (BinaryInsertion.perm_of_foldlM_insert h).trans (BinaryInsertion.perm_of_firstRun hrun)

theorem perm_of_sortDescending {xs result : List α} (h : sortDescending lt xs = .ok result) :
    result.Perm xs := by
  obtain ⟨sorted, hsorted, h⟩ := bind_eq_ok_iff.mp h
  cases h
  exact (List.reverse_perm _).trans ((perm_of_sortAscending hsorted).trans (List.reverse_perm _))

theorem failsWithin_of_sortAscending {xs : List α} (h : sortAscending lt xs = .error fault) :
    FailsWithin lt xs fault := by
  rcases bind_eq_error_iff.mp h with hrun | ⟨⟨run, rest⟩, hrun, h⟩
  · exact BinaryInsertion.failsWithin_of_firstRun hrun
  · exact (BinaryInsertion.failsWithin_of_foldlM_insert h).mono
      (BinaryInsertion.perm_of_firstRun hrun).subset

theorem failsWithin_of_sortDescending {xs : List α} (h : sortDescending lt xs = .error fault) :
    FailsWithin lt xs fault := by
  rcases bind_eq_error_iff.mp h with hsorted | ⟨sorted, -, h⟩
  · exact (failsWithin_of_sortAscending hsorted).mono (List.reverse_perm xs).subset
  · cases h

/-! ### What is compared

Every comparison is one of elements at different places, so what a comparison answers for an element and itself
does not matter.
-/

section Congruence

variable {lt' : α → α → Except ε Bool}

/-- Two comparisons answer the same for elements at different places. -/
def Agree (lt lt' : α → α → Except ε Bool) (xs : List α) : Prop :=
  xs.Pairwise fun a b => lt a b = lt' a b ∧ lt b a = lt' b a

theorem Agree.perm {xs ys : List α} (h : Agree lt lt' xs) (hperm : xs.Perm ys) : Agree lt lt' ys :=
  (hperm.pairwise_iff fun hagree => ⟨hagree.2, hagree.1⟩).mp h

namespace BinaryInsertion

theorem runLength_congr {expected : Bool} {last : α} {xs : List α} (h : Agree lt lt' (last :: xs)) :
    runLength lt expected last xs = runLength lt' expected last xs := by
  induction xs generalizing last with
  | nil => rfl
  | cons x rest ih =>
      have hlast := List.rel_of_pairwise_cons h (List.mem_cons_self ..)
      simp only [runLength, hlast.2, ih h.of_cons]

theorem firstRun_congr {xs : List α} (h : Agree lt lt' xs) : firstRun lt xs = firstRun lt' xs := by
  match xs with
  | [] => rfl
  | [x] => rfl
  | x :: y :: rest =>
      have hfirst := List.rel_of_pairwise_cons h (List.mem_cons_self ..)
      have hrest (expected : Bool) : runLength lt expected y rest = runLength lt' expected y rest :=
        runLength_congr (List.Pairwise.of_cons h)
      simp only [firstRun, hfirst.2, hrest]

theorem place_congr {sorted : Array α} {x : α} (h : ∀ y ∈ sorted.toList, lt x y = lt' x y) (fuel low high : Nat) :
    place lt sorted x fuel low high = place lt' sorted x fuel low high := by
  induction fuel generalizing low high with
  | zero => rfl
  | succ fuel ih =>
      simp only [place, ih]
      split
      · split
        · rfl
        · next y hy => rw [h y (Array.mem_toList_iff.mpr (Array.mem_of_getElem? hy))]
      · rfl

theorem insert_congr {sorted : List α} {x : α} (h : Agree lt lt' (x :: sorted)) :
    insert lt sorted x = insert lt' sorted x := by
  have hagree : ∀ y ∈ sorted.toArray.toList, lt x y = lt' x y := fun y hy => (List.rel_of_pairwise_cons h hy).1
  rw [insert, insert, place_congr hagree]

theorem foldlM_insert_congr {xs sorted : List α} (h : Agree lt lt' (sorted ++ xs)) :
    xs.foldlM (insert lt) sorted = xs.foldlM (insert lt') sorted := by
  induction xs generalizing sorted with
  | nil => rfl
  | cons x rest ih =>
      have hmiddle : Agree lt lt' (x :: sorted ++ rest) := h.perm List.perm_middle
      rw [List.foldlM_cons, List.foldlM_cons, insert_congr (hmiddle.sublist (List.sublist_append_left ..))]
      cases hinsert : insert lt' sorted x with
      | error fault => rfl
      | ok more => exact ih (hmiddle.perm ((perm_of_insert hinsert).symm.append_right rest))

end BinaryInsertion

theorem sortAscending_congr {xs : List α} (h : Agree lt lt' xs) : sortAscending lt xs = sortAscending lt' xs := by
  rw [sortAscending, sortAscending, BinaryInsertion.firstRun_congr h]
  cases hrun : BinaryInsertion.firstRun lt' xs with
  | error fault => rfl
  | ok parts => exact BinaryInsertion.foldlM_insert_congr (h.perm (BinaryInsertion.perm_of_firstRun hrun).symm)

theorem sortDescending_congr {xs : List α} (h : Agree lt lt' xs) : sortDescending lt xs = sortDescending lt' xs := by
  rw [sortDescending, sortDescending, sortAscending_congr (h.perm (List.reverse_perm xs).symm)]

end Congruence

end ManifestLens

/-!
## Stable sorting

A sorted list in which equal elements stand as they came in is determined by the list that is sorted: it is
ordered, and for every element it shows the elements equal to that one in their old order. So leaving elements
out before sorting and leaving them out afterwards come to the same.

The sort by binary insertion is stable wherever its comparison answers as an order does.
-/

namespace ManifestLens

variable {α ε : Type}

/-- The elements of a list in the order of a comparison, equal ones as they came in. -/
structure IsStableSort (cmp : α → α → Ordering) (xs sorted : List α) : Prop where
  ordered : sorted.Pairwise fun a b => (cmp a b).isLE = true
  stable : ∀ a, (sorted.filter fun b => cmp a b == .eq) = xs.filter fun b => cmp a b == .eq

namespace IsStableSort

variable {cmp : α → α → Ordering} [Std.TransCmp cmp] {xs ys sorted other : List α}

theorem isLE_of_ne_lt {a b : α} (h : cmp b a ≠ .lt) : (cmp a b).isLE = true := by
  rw [show cmp a b = (cmp b a).swap from Std.OrientedCmp.eq_swap]
  cases hba : cmp b a <;> simp_all

/-- Sorted lists that show the same elements of every class in the same order are the same. -/
theorem eq_of_classes {sorted other : List α} (hsorted : sorted.Pairwise fun a b => (cmp a b).isLE = true)
    (hother : other.Pairwise fun a b => (cmp a b).isLE = true)
    (hclasses : ∀ a, (sorted.filter fun b => cmp a b == .eq) = other.filter fun b => cmp a b == .eq) :
    sorted = other := by
  induction sorted generalizing other with
  | nil =>
      cases other with
      | nil => rfl
      | cons y rest =>
          have hself := hclasses y
          simp [Std.ReflCmp.compare_self] at hself
  | cons x rest ih =>
      have hmem : ∀ a, a ∈ x :: rest ↔ a ∈ other := fun a => by
        have hclass := congrArg (a ∈ ·) (hclasses a)
        simpa [Std.ReflCmp.compare_self] using hclass
      cases other with
      | nil => exact absurd ((hmem x).mp (by simp)) (by simp)
      | cons y more =>
          -- The first elements come before each other, so they are equal, and the first of their class.
          have hxy : (cmp x y).isLE = true := by
            rcases List.mem_cons.mp ((hmem y).mpr (by simp)) with rfl | hy
            · simp [Std.ReflCmp.compare_self]
            · exact List.rel_of_pairwise_cons hsorted hy
          have hyx : (cmp y x).isLE = true := by
            rcases List.mem_cons.mp ((hmem x).mp (by simp)) with rfl | hx
            · simp [Std.ReflCmp.compare_self]
            · exact List.rel_of_pairwise_cons hother hx
          have heq : cmp x y = .eq := Std.OrientedCmp.isLE_antisymm hxy hyx
          have hfirst := hclasses x
          rw [List.filter_cons_of_pos (by simp [Std.ReflCmp.compare_self]),
            List.filter_cons_of_pos (by simp [heq])] at hfirst
          obtain ⟨rfl, -⟩ := List.cons.inj hfirst
          congr 1
          refine ih hsorted.of_cons hother.of_cons fun a => ?_
          have hclass := hclasses a
          rw [List.filter_cons, List.filter_cons] at hclass
          split at hclass
          · exact (List.cons.inj hclass).2
          · exact hclass

/-- **A list has one stable sort.** -/
theorem unique (h : IsStableSort cmp xs sorted) (h' : IsStableSort cmp xs other) : sorted = other :=
  eq_of_classes h.ordered h'.ordered fun a => (h.stable a).trans (h'.stable a).symm

omit [Std.TransCmp cmp] in
/-- **Sorting fewer elements.** What is left of a sorted list is what is left of the list, sorted. -/
theorem filter (h : IsStableSort cmp xs sorted) (p : α → Bool) :
    IsStableSort cmp (xs.filter p) (sorted.filter p) := by
  refine ⟨h.ordered.filter p, fun a => ?_⟩
  rw [List.filter_comm, h.stable, List.filter_comm]

/-- The library's sort is stable. -/
theorem mergeSort (xs : List α) : IsStableSort cmp xs (xs.mergeSort fun a b => (cmp a b).isLE) := by
  have htrans : ∀ a b c : α, (cmp a b).isLE = true → (cmp b c).isLE = true → (cmp a c).isLE = true :=
    fun _ _ _ => Std.TransCmp.isLE_trans
  have htotal : ∀ a b : α, ((cmp a b).isLE || (cmp b a).isLE) = true := fun a b => by
    rw [show cmp b a = (cmp a b).swap from Std.OrientedCmp.eq_swap]
    cases cmp a b <;> rfl
  refine ⟨List.pairwise_mergeSort htrans htotal xs, fun a => ?_⟩
  have hclass : (xs.filter fun b => cmp a b == .eq).Pairwise fun b c => (cmp b c).isLE = true := by
    refine List.pairwise_of_forall_mem_list fun b hb c hc => ?_
    have hab : cmp a b = .eq := by simpa using (List.mem_filter.mp hb).2
    have hac : cmp a c = .eq := by simpa using (List.mem_filter.mp hc).2
    rw [← Std.TransCmp.congr_left hab, hac]
    rfl
  have hsublist := (List.sublist_mergeSort htrans htotal hclass List.filter_sublist).filter
    fun b => cmp a b == .eq
  rw [List.filter_filter, List.filter_congr (q := fun b => cmp a b == .eq) (by simp)] at hsublist
  refine (hsublist.eq_of_length ?_).symm
  exact (((List.mergeSort_perm xs _).filter _).length_eq).symm

end IsStableSort

namespace BinaryInsertion

variable {cmp : α → α → Ordering} {lt : α → α → Except ε Bool} {xs : List α}

/-- A comparison that may fail answers for the elements of a list as an order does. -/
def Answers (cmp : α → α → Ordering) (lt : α → α → Except ε Bool) (xs : List α) : Prop :=
  ∀ a ∈ xs, ∀ b ∈ xs, lt a b = .ok (cmp a b == .lt)

theorem Answers.mono {ys : List α} (h : Answers cmp lt xs) (hsub : ys ⊆ xs) : Answers cmp lt ys :=
  fun a ha b hb => h a (hsub ha) b (hsub hb)

/-! ### The run at the beginning -/

theorem isChain_of_runLength {expected : Bool} {last : α} {count : Nat} (hlt : Answers cmp lt (last :: xs))
    (h : runLength lt expected last xs = .ok count) :
    (last :: xs.take count).IsChain fun a b => (cmp b a == .lt) = expected := by
  induction xs generalizing last count with
  | nil =>
      cases h
      exact .singleton _
  | cons x rest ih =>
      obtain ⟨answer, hanswer, h⟩ := bind_eq_ok_iff.mp h
      have hcmp : answer = (cmp x last == .lt) :=
        Except.ok.inj (hanswer.symm.trans (hlt x (by simp) last (by simp)))
      split at h
      · next hexpected =>
          obtain ⟨more, hmore, h⟩ := bind_eq_ok_iff.mp h
          cases h
          rw [List.take_succ_cons, List.isChain_cons_cons]
          exact ⟨hcmp.symm.trans hexpected, ih (hlt.mono (List.subset_cons_self ..)) hmore⟩
      · cases h
        exact .singleton _

variable [Std.TransCmp cmp]

/-- A strictly descending list has no two equal elements, so that it may be turned round. -/
theorem isStableSort_reverse (h : xs.Pairwise fun a b => cmp b a = .lt) : IsStableSort cmp xs xs.reverse := by
  refine ⟨List.pairwise_reverse.mpr (h.imp fun hlt => by simp [hlt]), fun a => ?_⟩
  rw [List.filter_reverse]
  have hclass := h.filter fun b => cmp a b == .eq
  have hmem : ∀ b ∈ xs.filter fun b => cmp a b == .eq, cmp a b = .eq := fun b hb => by
    simpa using (List.mem_filter.mp hb).2
  match hfilter : xs.filter fun b => cmp a b == .eq with
  | [] => rfl
  | [b] => rfl
  | b :: c :: rest =>
      rw [hfilter] at hclass hmem
      have hcb : cmp c b = .lt := List.rel_of_pairwise_cons hclass (by simp)
      rw [← Std.TransCmp.congr_left (hmem c (by simp)), hmem b (by simp)] at hcb
      cases hcb

/-- The first run is a stable sort of the beginning of the list. -/
theorem exists_of_firstRun {run rest : List α} (hlt : Answers cmp lt xs) (h : firstRun lt xs = .ok (run, rest)) :
    ∃ first, xs = first ++ rest ∧ IsStableSort cmp first run := by
  match xs with
  | [] =>
      cases h
      exact ⟨[], rfl, .nil, fun _ => rfl⟩
  | [x] =>
      cases h
      exact ⟨[x], rfl, List.pairwise_singleton .., fun _ => rfl⟩
  | x :: y :: more =>
      obtain ⟨descending, hdescending, h⟩ := bind_eq_ok_iff.mp h
      obtain ⟨count, hcount, h⟩ := bind_eq_ok_iff.mp h
      cases h
      have hcmp : descending = (cmp y x == .lt) :=
        Except.ok.inj (hdescending.symm.trans (hlt y (by simp) x (by simp)))
      have hchain : (x :: y :: more.take count).IsChain fun a b => (cmp b a == .lt) = descending :=
        List.isChain_cons_cons.mpr
          ⟨hcmp.symm, isChain_of_runLength (hlt.mono (List.subset_cons_self ..)) hcount⟩
      refine ⟨x :: y :: more.take count, by simp, ?_⟩
      cases descending with
      | true =>
          have hstrict : (x :: y :: more.take count).IsChain fun a b => cmp b a = .lt :=
            hchain.imp fun _ _ hlt => by simpa using hlt
          have : IsTrans α fun a b => cmp b a = .lt := ⟨fun _ _ _ hba hcb => Std.TransCmp.lt_trans hcb hba⟩
          exact isStableSort_reverse hstrict.pairwise
      | false =>
          have hweak : (x :: y :: more.take count).IsChain fun a b => (cmp a b).isLE = true :=
            hchain.imp fun _ _ hnot => IsStableSort.isLE_of_ne_lt (by simpa using hnot)
          have : IsTrans α fun a b => (cmp a b).isLE = true := ⟨fun _ _ _ => Std.TransCmp.isLE_trans⟩
          exact ⟨hweak.pairwise, fun _ => rfl⟩

/-! ### Putting an element in its place -/

/-- The elements before a position are not greater than a given one, and those from there on are. -/
structure Divides (cmp : α → α → Ordering) (x : α) (sorted : List α) (low high : Nat) : Prop where
  before : ∀ i y, sorted[i]? = some y → i < low → cmp x y ≠ .lt
  after : ∀ i y, sorted[i]? = some y → high ≤ i → cmp x y = .lt

namespace Divides

variable {sorted : List α} {x y : α} {position : Nat}

omit [Std.TransCmp cmp] in
theorem lt_of_mem_drop (h : Divides cmp x sorted position position) (hy : y ∈ sorted.drop position) :
    cmp x y = .lt := by
  obtain ⟨i, hi⟩ := List.mem_iff_getElem?.mp hy
  rw [List.getElem?_drop] at hi
  exact h.after _ y hi (Nat.le_add_right ..)

theorem isLE_of_mem_take (h : Divides cmp x sorted position position)
    (hy : y ∈ sorted.take position) : (cmp y x).isLE = true := by
  obtain ⟨i, hi⟩ := List.mem_iff_getElem?.mp hy
  rw [List.getElem?_take] at hi
  split at hi
  · next hlow => exact IsStableSort.isLE_of_ne_lt (h.before i y hi hlow)
  · cases hi

end Divides

theorem isLE_of_getElem? {sorted : List α}
    (hsorted : sorted.Pairwise fun a b => (cmp a b).isLE = true) {i j : Nat} (hij : i ≤ j) {y z : α}
    (hy : sorted[i]? = some y) (hz : sorted[j]? = some z) : (cmp y z).isLE = true := by
  obtain ⟨hi, rfl⟩ := List.getElem?_eq_some_iff.mp hy
  obtain ⟨hj, rfl⟩ := List.getElem?_eq_some_iff.mp hz
  rcases Nat.eq_or_lt_of_le hij with rfl | hlt
  · simp [Std.ReflCmp.compare_self]
  · exact List.pairwise_iff_getElem.mp hsorted i j hi hj hlt

theorem divides_of_place {sorted : List α} {x : α} {fuel low high position : Nat}
    (hlt : Answers cmp lt (x :: sorted)) (hsorted : sorted.Pairwise fun a b => (cmp a b).isLE = true)
    (hdivides : Divides cmp x sorted low high) (hlow : low ≤ high) (hhigh : high ≤ sorted.length)
    (hfuel : high - low < fuel) (h : place lt sorted.toArray x fuel low high = .ok position) :
    Divides cmp x sorted position position := by
  induction fuel generalizing low high with
  | zero => omega
  | succ fuel ih =>
      simp only [place] at h
      split at h
      · next hbetween =>
          have hmiddle : low + (high - low) / 2 < sorted.length := by omega
          have hget : sorted.toArray[low + (high - low) / 2]? = some sorted[low + (high - low) / 2] := by
            simp [hmiddle]
          rw [hget] at h
          obtain ⟨answer, hanswer, h⟩ := bind_eq_ok_iff.mp h
          have hcmp : answer = (cmp x sorted[low + (high - low) / 2] == .lt) :=
            Except.ok.inj (hanswer.symm.trans (hlt x (by simp) _ (by simp)))
          have hself : sorted[low + (high - low) / 2]? = some sorted[low + (high - low) / 2] :=
            List.getElem?_eq_getElem hmiddle
          split at h
          · next hless =>
              have hless : cmp x sorted[low + (high - low) / 2] = .lt := by simpa [hcmp] using hless
              refine ih ⟨hdivides.before, fun i y hy hi => ?_⟩ (by omega) (by omega) (by omega) h
              exact Std.TransCmp.lt_of_lt_of_isLE hless (isLE_of_getElem? hsorted hi hself hy)
          · next hnot =>
              have hnot : cmp x sorted[low + (high - low) / 2] ≠ .lt := by simpa [hcmp] using hnot
              refine ih ⟨fun i y hy hi hlt => hnot ?_, hdivides.after⟩ (by omega) (by omega) (by omega) h
              exact Std.TransCmp.lt_of_lt_of_isLE hlt (isLE_of_getElem? hsorted (by omega) hy hself)
      · cases h
        exact ⟨hdivides.before, fun i y hy hi => hdivides.after i y hy (by omega)⟩

/-- **Putting an element in its place** sorts it behind those that came before it. -/
theorem isStableSort_of_insert {first sorted result : List α} {x : α} (hlt : Answers cmp lt (x :: sorted))
    (hsort : IsStableSort cmp first sorted) (h : insert lt sorted x = .ok result) :
    IsStableSort cmp (first ++ [x]) result := by
  obtain ⟨position, hplace, h⟩ := bind_eq_ok_iff.mp h
  cases h
  have hdivides : Divides cmp x sorted 0 sorted.length := by
    refine ⟨fun _ _ _ hi => absurd hi (Nat.not_lt_zero _), fun i y hy hi => ?_⟩
    rw [List.getElem?_eq_none hi] at hy
    cases hy
  have hfound := divides_of_place hlt hsort.ordered hdivides (Nat.zero_le _) (Nat.le_refl _) (by omega) hplace
  refine ⟨?_, fun a => ?_⟩
  · have hwhole := hsort.ordered
    rw [← List.take_append_drop position sorted, List.pairwise_append] at hwhole
    rw [List.pairwise_append, List.pairwise_cons]
    refine ⟨hwhole.1, ⟨fun y hy => by simp [hfound.lt_of_mem_drop hy], hwhole.2.1⟩, fun y hy z hz => ?_⟩
    rcases List.mem_cons.mp hz with rfl | hz
    · exact hfound.isLE_of_mem_take hy
    · exact hwhole.2.2 y hy z hz
  · have hwhole : (sorted.take position ++ sorted.drop position).filter (fun b => cmp a b == .eq)
        = first.filter fun b => cmp a b == .eq := by
      rw [List.take_append_drop, hsort.stable]
    rw [List.filter_append] at hwhole
    rw [List.filter_append, List.filter_append, ← hwhole, List.filter_cons, List.filter_singleton]
    split
    · next ha =>
        -- What comes after an element is greater, so nothing of its class does.
        have hnone : (sorted.drop position).filter (fun b => cmp a b == .eq) = [] := by
          refine List.filter_eq_nil_iff.mpr fun y hy heq => ?_
          have hlt := hfound.lt_of_mem_drop hy
          rw [← Std.TransCmp.congr_left (by simpa using ha : cmp a x = .eq)] at hlt
          simp [hlt] at heq
        simp [hnone, ha]
    · next ha => simp [ha]

theorem isStableSort_of_foldlM_insert {first sorted result : List α} (hlt : Answers cmp lt (sorted ++ xs))
    (hsort : IsStableSort cmp first sorted) (h : xs.foldlM (insert lt) sorted = .ok result) :
    IsStableSort cmp (first ++ xs) result := by
  induction xs generalizing first sorted with
  | nil =>
      cases h
      rwa [List.append_nil]
  | cons x rest ih =>
      rw [List.foldlM_cons] at h
      obtain ⟨more, hinsert, h⟩ := bind_eq_ok_iff.mp h
      have hmore : more ⊆ x :: sorted := (perm_of_insert hinsert).subset
      have hstep := isStableSort_of_insert (hlt.mono (by simp)) hsort hinsert
      rw [List.append_cons]
      refine ih (hlt.mono fun y hy => ?_) hstep h
      rcases List.mem_append.mp hy with hy | hy
      · have hy := hmore hy
        simp only [List.mem_cons] at hy
        simp only [List.mem_append, List.mem_cons]
        exact hy.elim (fun h => .inr (.inl h)) .inl
      · exact List.mem_append_right _ (List.mem_cons_of_mem _ hy)

end BinaryInsertion

/-! ### The sort -/

section Sorting

open BinaryInsertion

variable {cmp : α → α → Ordering} [Std.TransCmp cmp] {lt : α → α → Except ε Bool} {xs sorted : List α}

/-- **Ascending.** -/
theorem isStableSort_of_sortAscending (hlt : Answers cmp lt xs) (h : sortAscending lt xs = .ok sorted) :
    IsStableSort cmp xs sorted := by
  obtain ⟨⟨run, rest⟩, hrun, h⟩ := bind_eq_ok_iff.mp h
  have hperm := perm_of_firstRun hrun
  obtain ⟨first, hxs, hfirst⟩ := exists_of_firstRun hlt hrun
  rw [hxs]
  exact isStableSort_of_foldlM_insert (hlt.mono hperm.subset) hfirst h

/-- **Descending.** The order is turned round, and equal elements still stand as they came in. -/
theorem isStableSort_of_sortDescending (hlt : Answers cmp lt xs) (h : sortDescending lt xs = .ok sorted) :
    IsStableSort (fun a b => cmp b a) xs sorted := by
  obtain ⟨ascending, hascending, h⟩ := bind_eq_ok_iff.mp h
  cases h
  have hsort := isStableSort_of_sortAscending (hlt.mono (List.reverse_subset.mpr (List.Subset.refl _))) hascending
  refine ⟨List.pairwise_reverse.mpr hsort.ordered, fun a => ?_⟩
  have hclass : (fun b => cmp b a == .eq) = fun b => cmp a b == .eq := by
    funext b
    rw [show cmp b a = (cmp a b).swap from Std.OrientedCmp.eq_swap]
    cases cmp a b <;> rfl
  simp only [hclass]
  rw [List.filter_reverse, hsort.stable, List.filter_reverse, List.reverse_reverse]

/-- **Elements that compare as in an order**, each with every other, are sorted stably. -/
theorem exists_sortAscending (h : Agree lt (fun a b => .ok (cmp a b == .lt)) xs) :
    ∃ sorted, sortAscending lt xs = .ok sorted ∧ IsStableSort cmp xs sorted := by
  rw [sortAscending_congr h]
  cases hsort : sortAscending (ε := ε) (fun a b => .ok (cmp a b == .lt)) xs with
  | ok sorted => exact ⟨sorted, rfl, isStableSort_of_sortAscending (fun _ _ _ _ => rfl) hsort⟩
  | error fault =>
      obtain ⟨a, -, b, -, hfault⟩ := failsWithin_of_sortAscending hsort
      cases hfault

theorem exists_sortDescending (h : Agree lt (fun a b => .ok (cmp a b == .lt)) xs) :
    ∃ sorted, sortDescending lt xs = .ok sorted ∧ IsStableSort (fun a b => cmp b a) xs sorted := by
  rw [sortDescending_congr h]
  cases hsort : sortDescending (ε := ε) (fun a b => .ok (cmp a b == .lt)) xs with
  | ok sorted => exact ⟨sorted, rfl, isStableSort_of_sortDescending (fun _ _ _ _ => rfl) hsort⟩
  | error fault =>
      obtain ⟨a, -, b, -, hfault⟩ := failsWithin_of_sortDescending hsort
      cases hfault

variable (cmp)

/-- **Sorting fewer elements**, with a comparison that answers as an order does. -/
theorem sortDescending_filter (hlt : Answers cmp lt xs) (h : sortDescending lt xs = .ok sorted) (p : α → Bool) :
    sortDescending lt (xs.filter p) = .ok (sorted.filter p) := by
  have hfewer : Answers cmp lt (xs.filter p) := hlt.mono List.filter_sublist.subset
  have : Std.TransCmp fun a b => cmp b a := Std.TransCmp.opposite
  cases hleft : sortDescending lt (xs.filter p) with
  | ok left =>
      have hsort := isStableSort_of_sortDescending hfewer hleft
      rw [hsort.unique ((isStableSort_of_sortDescending hlt h).filter p)]
  | error fault =>
      obtain ⟨a, ha, b, hb, hfault⟩ := failsWithin_of_sortDescending hleft
      cases (hfewer a ha b hb).symm.trans hfault

theorem mergeSort_filter (p : α → Bool) (xs : List α) : (xs.filter p).mergeSort (fun a b => (cmp a b).isLE)
    = (xs.mergeSort fun a b => (cmp a b).isLE).filter p :=
  (IsStableSort.mergeSort _).unique ((IsStableSort.mergeSort xs).filter p)

end Sorting

/-! ### Leaving out repetitions -/

section Repetitions

variable [BEq α] [LawfulBEq α] {xs : List α}

/-- By induction on the length: what comes after the first element is left without it. -/
theorem eraseDups_filter (p : α → Bool) (xs : List α) : (xs.filter p).eraseDups = xs.eraseDups.filter p := by
  induction hlength : xs.length using Nat.strong_induction_on generalizing xs with
  | _ length ih =>
      cases xs with
      | nil => rfl
      | cons x rest =>
          have hshorter : (rest.filter fun y => !y == x).length < length := by
            have := List.length_filter_le (fun y => !y == x) rest
            rw [← hlength, List.length_cons]
            omega
          rw [List.eraseDups_cons, List.filter_cons, List.filter_cons, ← ih _ hshorter _ rfl]
          split
          · rw [List.eraseDups_cons, List.filter_comm]
          · next hx =>
              -- An element that is left out anyway need not be taken away before.
              congr 1
              rw [List.filter_filter]
              refine List.filter_congr fun y _ => ?_
              cases hy : p y with
              | false => rfl
              | true =>
                  have hne : y ≠ x := fun heq => hx (heq ▸ hy)
                  simp [hne]

/-- An element in front decides between the first places of two others only if it is one of them. -/
theorem idxOf_cons_lt_iff {x a b : α} {xs ys : List α}
    (h : x ≠ a → x ≠ b → (xs.idxOf a < xs.idxOf b ↔ ys.idxOf a < ys.idxOf b)) :
    (x :: xs).idxOf a < (x :: xs).idxOf b ↔ (x :: ys).idxOf a < (x :: ys).idxOf b := by
  simp only [List.idxOf_cons]
  cases hxa : x == a with
  | true => cases x == b <;> simp
  | false =>
      cases hxb : x == b with
      | true => simp
      | false => simpa using h (by simpa using hxa) (by simpa using hxb)

theorem idxOf_filter_lt_iff {p : α → Bool} {a b : α} (ha : p a = true) (hb : p b = true) (xs : List α) :
    (xs.filter p).idxOf a < (xs.filter p).idxOf b ↔ xs.idxOf a < xs.idxOf b := by
  induction xs with
  | nil => rfl
  | cons x rest ih =>
      rw [List.filter_cons]
      split
      · exact idxOf_cons_lt_iff fun _ _ => ih
      · next hx =>
          have hxa : x ≠ a := fun heq => hx (heq ▸ ha)
          have hxb : x ≠ b := fun heq => hx (heq ▸ hb)
          rw [List.idxOf_cons_ne _ hxa, List.idxOf_cons_ne _ hxb, Nat.succ_lt_succ_iff]
          exact ih

theorem idxOf_eraseDups_lt_iff (a b : α) (xs : List α) :
    xs.eraseDups.idxOf a < xs.eraseDups.idxOf b ↔ xs.idxOf a < xs.idxOf b := by
  induction hlength : xs.length using Nat.strong_induction_on generalizing xs with
  | _ length ih =>
      cases xs with
      | nil => rfl
      | cons x rest =>
          rw [List.eraseDups_cons]
          refine idxOf_cons_lt_iff fun hxa hxb => (ih _ ?_ _ rfl).trans (idxOf_filter_lt_iff ?_ ?_ rest)
          · exact hlength ▸ Nat.lt_succ_of_le (List.length_filter_le ..)
          · simpa using Ne.symm hxa
          · simpa using Ne.symm hxb

theorem nodup_eraseDups (xs : List α) : xs.eraseDups.Nodup := by
  induction hlength : xs.length using Nat.strong_induction_on generalizing xs with
  | _ length ih =>
      cases xs with
      | nil => exact List.nodup_nil
      | cons x rest =>
          rw [List.eraseDups_cons, List.nodup_cons, List.mem_eraseDups]
          refine ⟨by simp, ih _ ?_ _ rfl⟩
          exact hlength ▸ Nat.lt_succ_of_le (List.length_filter_le ..)

theorem eraseDups_of_nodup (h : xs.Nodup) : xs.eraseDups = xs := by
  induction xs with
  | nil => rfl
  | cons x rest ih =>
      obtain ⟨hx, hrest⟩ := List.nodup_cons.mp h
      rw [List.eraseDups_cons, List.filter_eq_self.mpr, ih hrest]
      intro y hy
      simpa using fun heq : y = x => hx (heq ▸ hy)

end Repetitions

end ManifestLens
