import Mathlib.Order.Basic
import ManifestLens.Proofs.Ordering.Stable
import ManifestLens.Proofs.Version.NaturalOrder

/-!
# The natural order is an order

Where all segments can be read, comparing version texts answers as an order of texts does in which different
texts may be equal: segments compare by their numbers and then by what follows, and lists of segments compare
segment by segment as if both went on for ever with segments that count as zero. Version texts are sorted by it.
-/

namespace ManifestLens

namespace NaturalVersion

open Std (TransCmp OrientedCmp)

theorem transCmp_of_key {α β : Type} (cmp : β → β → Ordering) [TransCmp cmp] (key : α → β) :
    TransCmp fun a b => cmp (key a) (key b) :=
  { eq_swap := OrientedCmp.eq_swap, isLE_trans := TransCmp.isLE_trans }

/-! ### Segments -/

namespace Segment

theorem compareNumbers_eq : compareNumbers = Ord.compare := by
  funext a b
  cases a <;> cases b <;> rfl

instance : TransCmp compareNumbers := compareNumbers_eq ▸ inferInstance

theorem compareSuffixes_eq : compareSuffixes
    = compareLex (compareOn fun text => if text.isEmpty then 1 else 0) (compareOn (List.map Char.toNat)) := by
  funext a b
  unfold compareSuffixes compareLex compareOn
  split
  · next heq =>
      subst heq
      simp
  · next hne =>
      cases a with
      | nil =>
          cases b with
          | nil => exact absurd rfl hne
          | cons c rest => rfl
      | cons c rest =>
          cases b with
          | nil => rfl
          | cons d more => simp

instance : TransCmp compareSuffixes := compareSuffixes_eq ▸ inferInstance

instance : TransCmp cmp :=
  have := transCmp_of_key compareNumbers Segment.number
  have := transCmp_of_key compareSuffixes Segment.suffix
  inferInstanceAs (TransCmp (compareLex (fun a b : Segment => compareNumbers a.number b.number)
    fun a b => compareSuffixes a.suffix b.suffix))

/-- The segment that a text is read as; what cannot be read counts as missing. -/
def ofText (text : List Char) : Segment := (read text).toOption.getD missing

theorem read_eq {text : List Char} (h : IsReadable text) : read text = .ok (ofText text) := by
  obtain ⟨segment, hread⟩ := exists_read h
  rw [ofText, hread]
  rfl

theorem mapM_read {texts : List (List Char)} (h : ∀ text ∈ texts, IsReadable text) :
    texts.mapM read = .ok (texts.map ofText) := by
  induction texts with
  | nil => rfl
  | cons text rest ih =>
      obtain ⟨htext, hrest⟩ := List.forall_mem_cons.mp h
      rw [List.mapM_cons, read_eq htext, ih hrest]
      rfl

theorem cmp_eq_iff {a b : Segment} : a.cmp b = .eq ↔ a = b := by
  constructor
  · intro h
    obtain ⟨hnumber, hsuffix⟩ := Ordering.then_eq_eq.mp h
    have hnumbers : a.number = b.number := by
      rw [compareNumbers_eq] at hnumber
      exact Std.LawfulEqCmp.eq_of_compare hnumber
    have hsuffixes : a.suffix = b.suffix := by
      unfold compareSuffixes at hsuffix
      split at hsuffix
      · assumption
      · split at hsuffix
        · cases hsuffix
        · split at hsuffix
          · cases hsuffix
          · have hcodes : a.suffix.map Char.toNat = b.suffix.map Char.toNat :=
              Std.LawfulEqCmp.eq_of_compare hsuffix
            exact List.map_injective_iff.mpr (fun _ _ => Char.toNat_inj.mp) hcodes
    cases a
    cases b
    rw [mk.injEq]
    exact ⟨hnumbers, hsuffixes⟩
  · rintro rfl
    exact cmp_self a

theorem ofText_of_read {text : List Char} {segment : Segment} (h : read text = .ok segment) :
    ofText text = segment := by
  rw [ofText, h]
  rfl

theorem getD_ofText {a : Option (List Char)} {segment : Segment}
    (h : (a.map read).getD (.ok missing) = .ok segment) : (a.map ofText).getD missing = segment := by
  cases a with
  | none => exact Except.ok.inj h
  | some text => exact ofText_of_read h

end Segment

/-! ### Lists of segments -/

/-- Compares the first segments of two lists, as many as a number says. -/
def compareUpTo : Nat → List Segment → List Segment → Ordering
  | 0, _, _ => .eq
  | count + 1, left, right =>
      ((left.headD .missing).cmp (right.headD .missing)).then (compareUpTo count left.tail right.tail)

theorem length_tail_le {α : Type} {xs : List α} {count : Nat} (h : xs.length ≤ count + 1) :
    xs.tail.length ≤ count := by
  rw [List.length_tail]
  exact Nat.sub_le_of_le_add h

theorem transCmp_compareUpTo (count : Nat) : TransCmp (compareUpTo count) := by
  induction count with
  | zero => exact { eq_swap := rfl, isLE_trans := fun _ _ => rfl }
  | succ count ih =>
      have := transCmp_of_key Segment.cmp fun segments : List Segment => segments.headD .missing
      have := transCmp_of_key (compareUpTo count) (List.tail : List Segment → List Segment)
      exact inferInstanceAs (TransCmp (compareLex
        (fun left right : List Segment => (left.headD .missing).cmp (right.headD .missing))
        fun left right => compareUpTo count left.tail right.tail))

theorem compareUpTo_nil (count : Nat) : compareUpTo count [] [] = .eq := by
  induction count with
  | zero => rfl
  | succ count ih =>
      have hsame : Segment.missing.cmp .missing = .eq := Std.ReflCmp.compare_self
      rw [compareUpTo, List.headD_nil, hsame]
      exact ih

theorem compareUpTo_eq {count more : Nat} {left right : List Segment} (hleft : left.length ≤ count)
    (hright : right.length ≤ count) (hmore : count ≤ more) :
    compareUpTo more left right = compareUpTo count left right := by
  induction count generalizing more left right with
  | zero =>
      obtain rfl := List.length_eq_zero_iff.mp (Nat.le_zero.mp hleft)
      obtain rfl := List.length_eq_zero_iff.mp (Nat.le_zero.mp hright)
      exact compareUpTo_nil more
  | succ count ih =>
      obtain ⟨more, rfl⟩ := Nat.exists_eq_add_of_le' (Nat.le_trans (Nat.succ_le_succ (Nat.zero_le count)) hmore)
      have hrest : compareUpTo more left.tail right.tail = compareUpTo count left.tail right.tail :=
        ih (length_tail_le hleft) (length_tail_le hright) (Nat.le_of_succ_le_succ hmore)
      rw [compareUpTo, compareUpTo, hrest]

theorem takeD_eq_append {α : Type} {count : Nat} {xs : List α} (h : xs.length ≤ count) (a : α) :
    xs.takeD count a = xs ++ List.replicate (count - xs.length) a := by
  induction count generalizing xs with
  | zero =>
      obtain rfl := List.length_eq_zero_iff.mp (Nat.le_zero.mp h)
      rfl
  | succ count ih =>
      cases xs with
      | nil => exact List.takeD_nil ..
      | cons x rest =>
          have hrest := Nat.le_of_succ_le_succ h
          rw [List.takeD, List.tail_cons, ih hrest, List.length_cons, Nat.add_sub_add_right]
          rfl

theorem compareUpTo_eq_iff {count : Nat} {left right : List Segment} :
    compareUpTo count left right = .eq ↔ left.takeD count .missing = right.takeD count .missing := by
  induction count generalizing left right with
  | zero => simp [compareUpTo]
  | succ count ih =>
      rw [compareUpTo, List.takeD, List.takeD, List.cons.injEq, Ordering.then_eq_eq, Segment.cmp_eq_iff, ih]

/-! ### Version texts -/

/-- The order of version texts of which all segments can be read. -/
def order (left right : List Char) : Ordering :=
  compareUpTo (max (segments left).length (segments right).length)
    ((segments left).map Segment.ofText) ((segments right).map Segment.ofText)

theorem order_eq {left right : List Char} {count : Nat} (hleft : (segments left).length ≤ count)
    (hright : (segments right).length ≤ count) : order left right
      = compareUpTo count ((segments left).map Segment.ofText) ((segments right).map Segment.ofText) := by
  refine (compareUpTo_eq ?_ ?_ (Nat.max_le.mpr ⟨hleft, hright⟩)).symm
  · rw [List.length_map]
    exact Nat.le_max_left ..
  · rw [List.length_map]
    exact Nat.le_max_right ..

/-- **The natural order** of version texts is total and transitive. -/
instance : TransCmp order where
  eq_swap {a b} := by
    have := transCmp_compareUpTo (max (segments a).length (segments b).length)
    rw [order_eq (Nat.le_max_left ..) (Nat.le_max_right ..), order_eq (Nat.le_max_right ..) (Nat.le_max_left ..)]
    exact OrientedCmp.eq_swap
  isLE_trans {a b c} hab hbc := by
    obtain ⟨count, hcount⟩ : ∃ count, (segments a).length ≤ count ∧ (segments b).length ≤ count ∧
        (segments c).length ≤ count :=
      ⟨max (segments a).length (max (segments b).length (segments c).length), by omega, by omega, by omega⟩
    have := transCmp_compareUpTo count
    rw [order_eq hcount.1 hcount.2.1] at hab
    rw [order_eq hcount.2.1 hcount.2.2] at hbc
    rw [order_eq hcount.1 hcount.2.2]
    exact TransCmp.isLE_trans hab hbc

/-- The segments of a version text as they are compared. -/
def keys (version : List Char) : List Segment := (segments version).map Segment.ofText

theorem length_keys (version : List Char) : (keys version).length = (segments version).length := List.length_map _

/-- Texts are equal in the order if their segments are the same up to zeros at the end. -/
theorem order_eq_iff {left right : List Char} : order left right = .eq ↔
    ∃ m n, keys left ++ List.replicate m .missing = keys right ++ List.replicate n .missing := by
  constructor
  · intro h
    have hfilled : (keys left).takeD _ .missing = (keys right).takeD _ .missing := compareUpTo_eq_iff.mp h
    rw [takeD_eq_append ((length_keys left).le.trans (Nat.le_max_left ..)),
      takeD_eq_append ((length_keys right).le.trans (Nat.le_max_right ..))] at hfilled
    exact ⟨_, _, hfilled⟩
  · rintro ⟨m, n, h⟩
    have hlength : (segments left).length + m = (segments right).length + n := by
      simpa [length_keys] using congrArg List.length h
    rw [order_eq (Nat.le_add_right _ m) (hlength ▸ Nat.le_add_right _ n)]
    refine compareUpTo_eq_iff.mpr ?_
    calc (keys left).takeD ((segments left).length + m) .missing
        = keys left ++ List.replicate m .missing := by
          rw [takeD_eq_append (by rw [length_keys]; omega), length_keys, Nat.add_sub_cancel_left]
      _ = keys right ++ List.replicate n .missing := h
      _ = (keys right).takeD ((segments left).length + m) .missing := by
          rw [hlength, takeD_eq_append (by rw [length_keys]; omega), length_keys, Nat.add_sub_cancel_left]

theorem compareSegments_cons {a b : Option (List Char)} {rest : List (Option (List Char) × Option (List Char))}
    {result : Ordering} (h : compareSegments ((a, b) :: rest) = .ok result) :
    let first := ((a.map Segment.ofText).getD .missing).cmp ((b.map Segment.ofText).getD .missing)
    first = .eq ∧ compareSegments rest = .ok result ∨ first ≠ .eq ∧ first = result := by
  obtain ⟨left, hleft, h⟩ := bind_eq_ok_iff.mp h
  obtain ⟨right, hright, h⟩ := bind_eq_ok_iff.mp h
  rw [Segment.getD_ofText hleft, Segment.getD_ofText hright]
  split at h
  · next heq => exact .inl ⟨heq, h⟩
  · next hne => exact .inr ⟨hne, Except.ok.inj h⟩

/-- While one of two lists goes on, what is not there of the other is compared as missing. -/
theorem zipWithAll_eq {left right : List (List Char)} (h : left ≠ [] ∨ right ≠ []) :
    List.zipWithAll Prod.mk left right = (left.head?, right.head?) :: List.zipWithAll Prod.mk left.tail right.tail := by
  cases left with
  | nil =>
      cases right with
      | nil => simp at h
      | cons b more => simp
  | cons a rest => cases right <;> simp

/-- By induction on the number of segments: the comparison ends at the first difference. -/
theorem compareUpTo_of_compareSegments {count : Nat} {left right : List (List Char)} {result : Ordering}
    (hleft : left.length ≤ count) (hright : right.length ≤ count)
    (h : compareSegments (List.zipWithAll Prod.mk left right) = .ok result) :
    compareUpTo count (left.map Segment.ofText) (right.map Segment.ofText) = result := by
  induction count generalizing left right with
  | zero =>
      obtain rfl := List.length_eq_zero_iff.mp (Nat.le_zero.mp hleft)
      obtain rfl := List.length_eq_zero_iff.mp (Nat.le_zero.mp hright)
      exact Except.ok.inj h
  | succ count ih =>
      by_cases hends : left ≠ [] ∨ right ≠ []
      · have hhead (texts : List (List Char)) : (texts.map Segment.ofText).headD .missing
            = (texts.head?.map Segment.ofText).getD .missing := by
          cases texts <;> rfl
        rw [zipWithAll_eq hends] at h
        rw [compareUpTo, hhead, hhead, ← List.map_tail, ← List.map_tail]
        rcases compareSegments_cons h with ⟨heq, hrest⟩ | ⟨hne, rfl⟩
        · rw [heq, ih (length_tail_le hleft) (length_tail_le hright) hrest]
          rfl
        · generalize Segment.cmp _ _ = first at hne ⊢
          cases first with
          | eq => exact absurd rfl hne
          | lt => rfl
          | gt => rfl
      · obtain ⟨rfl, rfl⟩ : left = [] ∧ right = [] := by simpa using hends
        exact (compareUpTo_nil _).trans (Except.ok.inj h)

theorem order_of_compare {left right : List Char} {result : Ordering} (h : compare left right = .ok result) :
    order left right = result :=
  compareUpTo_of_compareSegments (Nat.le_max_left ..) (Nat.le_max_right ..) h

theorem compare_eq_order {left right : List Char} (hleft : IsReadable left) (hright : IsReadable right) :
    compare left right = .ok (order left right) := by
  cases hcompare : compare left right with
  | ok result => rw [order_of_compare hcompare]
  | error failure =>
      rcases fails_of_compare hcompare with hfails | hfails
      · exact absurd hleft hfails.not_isReadable
      · exact absurd hright hfails.not_isReadable

theorem lt_of_compare {left right : List Char} {result : Ordering} (h : compare left right = .ok result) :
    lt left right = .ok (order left right == .lt) := by
  rw [lt, h, order_of_compare h]
  rfl

theorem lt_eq_order {left right : List Char} (hleft : IsReadable left) (hright : IsReadable right) :
    lt left right = .ok (order left right == .lt) :=
  lt_of_compare (compare_eq_order hleft hright)

/-! ### Sorting -/

/-- **Sorting fewer version texts** comes to what is left of all of them, sorted. -/
theorem sort_filter {versions sorted : List (List Char)} (h : ∀ version ∈ versions, IsReadable version)
    (hsort : sort versions = .ok sorted) (p : List Char → Bool) :
    sort (versions.filter p) = .ok (sorted.filter p) := by
  rw [sort, if_pos rfl] at hsort ⊢
  rw [eraseDups_filter]
  refine sortDescending_filter order (fun a ha b hb => ?_) hsort p
  exact lt_eq_order (h a (List.mem_eraseDups.mp ha)) (h b (List.mem_eraseDups.mp hb))

/-!
Sorting leaves out repetitions and puts the texts that are left in the natural order, either way round. Different
texts may be equal in that order; they stay as they came in, also where the order is turned round. The sort never
compares a text with itself, so all of this holds as soon as every two different texts of the list can be compared,
whether or not all of their segments can be read.
-/

/-- Every two different texts of a list can be compared. -/
def AreComparable (versions : List (List Char)) : Prop :=
  ∀ a ∈ versions, ∀ b ∈ versions, a ≠ b → ∃ result, compare a b = .ok result

/-- The order in which texts are sorted. -/
def sortOrder (descending : Bool) (a b : List Char) : Ordering := if descending then order b a else order a b

instance (descending : Bool) : Std.TransCmp (sortOrder descending) :=
  match descending with
  | true => (Std.TransCmp.opposite : Std.TransCmp fun a b => order b a)
  | false => inferInstanceAs (Std.TransCmp order)

variable {versions sorted : List (List Char)}

theorem AreComparable.mono {others : List (List Char)} (h : AreComparable versions) (hsub : others ⊆ versions) :
    AreComparable others := fun a ha b hb => h a (hsub ha) b (hsub hb)

theorem AreComparable.agree (h : AreComparable versions) (hnodup : versions.Nodup) :
    Agree lt (fun a b => .ok (order a b == .lt)) versions := by
  refine hnodup.imp_of_mem fun {a b} ha hb hne => ?_
  obtain ⟨result, hab⟩ := h a ha b hb hne
  obtain ⟨result', hba⟩ := h b hb a ha hne.symm
  exact ⟨lt_of_compare hab, lt_of_compare hba⟩

theorem exists_sort (h : AreComparable versions) (descending : Bool) :
    ∃ sorted, sort versions descending = .ok sorted ∧
      IsStableSort (sortOrder descending) versions.eraseDups sorted := by
  have hagree := (h.mono fun _ => List.mem_eraseDups.mp).agree (nodup_eraseDups versions)
  cases descending with
  | true => exact exists_sortDescending hagree
  | false => exact exists_sortAscending hagree

theorem perm_of_sort {descending : Bool} (h : sort versions descending = .ok sorted) :
    sorted.Perm versions.eraseDups := by
  cases descending with
  | true => exact perm_of_sortDescending h
  | false => exact perm_of_sortAscending h

theorem mem_of_sort {descending : Bool} (h : sort versions descending = .ok sorted) (version : List Char) :
    version ∈ sorted ↔ version ∈ versions :=
  (perm_of_sort h).mem_iff.trans List.mem_eraseDups

/-- What the sorted list is to the list that was sorted. -/
structure SortsTo (versions : List (List Char)) (descending : Bool) (sorted : List (List Char)) : Prop where
  /-- Every text of the list stands there once, and no other does. -/
  nodup : sorted.Nodup
  mem : ∀ version, version ∈ sorted ↔ version ∈ versions
  /-- Of every two places the first holds a text that comes before that of the second, or is equal to it. -/
  ordered : sorted.Pairwise fun a b => ∃ result, compare a b = .ok result ∧
    (if descending then result.isGE else result.isLE) = true
  /-- Equal texts stand in the order in which each came first, whatever the direction. -/
  stable : ∀ a ∈ versions, ∀ b ∈ versions, compare a b = .ok .eq →
    (sorted.idxOf a < sorted.idxOf b ↔ versions.idxOf a < versions.idxOf b)

theorem isGE_or_isLE_of_sortOrder {descending : Bool} {a b : List Char} {result : Ordering}
    (hresult : compare a b = .ok result) (h : (sortOrder descending a b).isLE = true) :
    (if descending then result.isGE else result.isLE) = true := by
  obtain rfl := order_of_compare hresult
  cases descending with
  | true =>
      have hswap : order b a = (order a b).swap := Std.OrientedCmp.eq_swap
      have hle : (order b a).isLE = true := h
      rwa [hswap, Ordering.isLE_swap] at hle
  | false => exact h

/-- Equal texts are in one class of the order, and a stable sort leaves each class as it was. -/
theorem idxOf_lt_iff_of_isStableSort {descending : Bool} {a b : List Char}
    (h : IsStableSort (sortOrder descending) versions.eraseDups sorted) (heq : compare a b = .ok .eq) :
    sorted.idxOf a < sorted.idxOf b ↔ versions.idxOf a < versions.idxOf b := by
  have hclass : sortOrder descending a b = .eq := by
    cases descending with
    | true => exact Std.OrientedCmp.eq_symm (order_of_compare heq)
    | false => exact order_of_compare heq
  have hself : sortOrder descending a a = .eq := Std.ReflCmp.compare_self
  let equal (version : List Char) : Bool := sortOrder descending a version == .eq
  have hplaces (xs : List (List Char)) : (xs.filter equal).idxOf a < (xs.filter equal).idxOf b ↔
      xs.idxOf a < xs.idxOf b :=
    idxOf_filter_lt_iff (by simp [equal, hself]) (by simp [equal, hclass]) xs
  calc sorted.idxOf a < sorted.idxOf b
      ↔ (sorted.filter equal).idxOf a < (sorted.filter equal).idxOf b := (hplaces sorted).symm
    _ ↔ (versions.eraseDups.filter equal).idxOf a < (versions.eraseDups.filter equal).idxOf b := by
        rw [h.stable a]
    _ ↔ versions.eraseDups.idxOf a < versions.eraseDups.idxOf b := hplaces versions.eraseDups
    _ ↔ versions.idxOf a < versions.idxOf b := idxOf_eraseDups_lt_iff a b versions

theorem sortsTo_of_sort {descending : Bool} (h : AreComparable versions)
    (hsort : sort versions descending = .ok sorted) : SortsTo versions descending sorted := by
  obtain ⟨sorted', hsort', hstable⟩ := exists_sort h descending
  cases hsort.symm.trans hsort'
  have hmem := mem_of_sort hsort
  have hnodup : sorted.Nodup := (perm_of_sort hsort).symm.nodup (nodup_eraseDups versions)
  refine ⟨hnodup, hmem, ?_, fun a _ b _ heq => idxOf_lt_iff_of_isStableSort hstable heq⟩
  refine (hnodup.and hstable.ordered).imp_of_mem fun {a b} ha hb hab => ?_
  obtain ⟨result, hresult⟩ := h a ((hmem a).mp ha) b ((hmem b).mp hb) hab.1
  exact ⟨result, hresult, isGE_or_isLE_of_sortOrder hresult hab.2⟩

theorem sort_of_sort {descending : Bool} (h : AreComparable versions)
    (hsort : sort versions descending = .ok sorted) : sort sorted descending = .ok sorted := by
  obtain ⟨sorted', hsort', hstable⟩ := exists_sort h descending
  cases hsort.symm.trans hsort'
  have hcomparable : AreComparable sorted := h.mono fun version => (mem_of_sort hsort version).mp
  obtain ⟨again, hagain, hagainStable⟩ := exists_sort hcomparable descending
  rw [eraseDups_of_nodup (sortsTo_of_sort h hsort).nodup] at hagainStable
  rw [hagain, hagainStable.unique ⟨hstable.ordered, fun _ => rfl⟩]

/-- **Sorting** texts of which every two different ones can be compared, in either direction: the sorted list, and
that sorting it again changes nothing. -/
theorem exists_sortsTo (h : AreComparable versions) (descending : Bool) :
    ∃ sorted, sort versions descending = .ok sorted ∧ SortsTo versions descending sorted ∧
      sort sorted descending = .ok sorted := by
  obtain ⟨sorted, hsort, -⟩ := exists_sort h descending
  exact ⟨sorted, hsort, sortsTo_of_sort h hsort, sort_of_sort h hsort⟩

/-- Of two equal texts the one that came first stands first, below what is greater than both. -/
theorem sortsTo_equal_texts :
    SortsTo ["1.0".toList, "2.0".toList, "1.0.0".toList, "1.0".toList] true
      ["2.0".toList, "1.0".toList, "1.0.0".toList] := by
  have hreadable : ∀ version ∈ ["1.0".toList, "2.0".toList, "1.0.0".toList, "1.0".toList], IsReadable version := by
    decide
  obtain ⟨sorted, hresult, hsorted, -⟩ := exists_sortsTo (fun a ha b hb _ =>
    ⟨_, compare_eq_order (hreadable a ha) (hreadable b hb)⟩) true
  have hsort : sort ["1.0".toList, "2.0".toList, "1.0.0".toList, "1.0".toList] true
      = .ok ["2.0".toList, "1.0".toList, "1.0.0".toList] := by decide
  cases hresult.symm.trans hsort
  exact hsorted

end NaturalVersion

end ManifestLens
