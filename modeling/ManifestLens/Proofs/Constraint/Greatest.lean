import ManifestLens.CommandLine.Scan
import ManifestLens.Proofs.Version.Alignment
import ManifestLens.Proofs.Version.Preorder

/-!
# The newest version that a constraint allows

Which versions are allowed is a matter of the standard, and which of them is the newest one of the natural order. The
two differ on what follows a release, so the newest allowed version is of the highest allowed release, and is the
final version of it if that is allowed, but a post-release of it may be passed over.
-/

namespace ManifestLens

open NaturalVersion (IsReadable AreComparable SortsTo Aligned exists_sort sortsTo_of_sort compare_eq_order
  order_of_compare)
open Version (IsPublicSpelling IsMarked)

namespace Constraint

variable {versions : List (List Char)} {constraint : List Char}

/-- The first of the allowed versions that no allowed version comes after. -/
structure IsGreatest (versions : List (List Char)) (constraint result : List Char) : Prop where
  mem : result ∈ versions
  satisfies : satisfies result constraint = true
  greatest : ∀ text ∈ versions, Constraint.satisfies text constraint = true →
    ∃ order, NaturalVersion.compare result text = .ok order ∧ order.isGE = true ∧
      (order = .eq → versions.idxOf result ≤ versions.idxOf text)

theorem isGreatest_of_sortsTo {first : List Char} {rest : List (List Char)}
    (hreadable : ∀ text ∈ versions, IsReadable text)
    (h : SortsTo (versions.filter (satisfies · constraint)) true (first :: rest)) :
    IsGreatest versions constraint first := by
  obtain ⟨hmem, hsatisfies⟩ := List.mem_filter.mp ((h.mem first).mp (List.mem_cons_self ..))
  refine ⟨hmem, hsatisfies, fun text htext hallowed => ?_⟩
  have hlisted : text ∈ versions.filter (satisfies · constraint) := List.mem_filter.mpr ⟨htext, hallowed⟩
  rcases List.mem_cons.mp ((h.mem text).mpr hlisted) with rfl | hrest
  · refine ⟨_, compare_eq_order (hreadable text hmem) (hreadable text hmem), ?_, fun _ => Nat.le_refl _⟩
    have hself : NaturalVersion.order text text = .eq := Std.ReflCmp.compare_self
    rw [hself]
    rfl
  · obtain ⟨order, hcompare, hge⟩ := List.rel_of_pairwise_cons h.ordered hrest
    refine ⟨order, hcompare, hge, ?_⟩
    rintro rfl
    -- Equal texts stand as they were listed, and the first one stands first.
    have hne : first ≠ text := fun heq => (List.nodup_cons.mp h.nodup).1 (heq ▸ hrest)
    have hplaces : (first :: rest).idxOf first < (first :: rest).idxOf text := by
      rw [List.idxOf_cons_self, List.idxOf_cons_ne _ hne]
      exact Nat.succ_pos _
    have hfiltered := (h.stable first (List.mem_filter.mpr ⟨hmem, hsatisfies⟩) text hlisted hcompare).mp hplaces
    exact ((idxOf_filter_lt_iff (p := (satisfies · constraint)) hsatisfies hallowed versions).mp hfiltered).le

theorem exists_isGreatest (hreadable : ∀ text ∈ versions, IsReadable text) (constraint : List Char) :
    ∃ result, greatestSatisfying versions constraint = .ok result ∧
      (result = none ↔ ∀ text ∈ versions, satisfies text constraint = false) ∧
      ∀ text ∈ result, IsGreatest versions constraint text := by
  have hcomparable : AreComparable (versions.filter (satisfies · constraint)) := fun a ha b hb _ =>
    ⟨_, compare_eq_order (hreadable a (List.mem_of_mem_filter ha)) (hreadable b (List.mem_of_mem_filter hb))⟩
  obtain ⟨sorted, hsort, -⟩ := exists_sort hcomparable true
  have hsorted := sortsTo_of_sort hcomparable hsort
  refine ⟨sorted.head?, ?_, ?_, fun text htext => ?_⟩
  · rw [greatestSatisfying, hsort]
    rfl
  · have hempty : sorted = [] ↔ versions.filter (satisfies · constraint) = [] := by
      simp only [List.eq_nil_iff_forall_not_mem, hsorted.mem]
    rw [List.head?_eq_none_iff, hempty, List.filter_eq_nil_iff]
    simp only [Bool.not_eq_true]
  · cases sorted with
    | nil => cases htext
    | cons first rest =>
        cases htext
        exact isGreatest_of_sortsTo hreadable hsorted

/-- The greatest of the allowed versions, and what the standard says of it. -/
structure IsNewest (versions : List (List Char)) (constraint result : List Char) : Prop extends
    IsGreatest versions constraint result where
  /-- An allowed version that the standard ranks higher is written behind a letter, or it is a pre- or post-release
  of the same release, and a post-release if the result is final. -/
  standard : ∀ v w, ∀ text ∈ versions, Constraint.satisfies text constraint = true →
    Version.parse? result = some v → Version.parse? text = some w → v < w →
      IsMarked text ∨ (v.base.same w.base = true ∧ w.isFinal = false ∧
        (v.isFinal = true → w.pre = none ∧ w.isPostrelease = true))
  /-- Among versions in the normalised spelling whose segments stand in the same places there is none. -/
  aligned : ∀ v w : Version, w.text ∈ versions → Constraint.satisfies w.text constraint = true → result = v.text →
    Version.parse? v.text = some v → Version.parse? w.text = some w → Aligned v w → ¬ v < w

theorem IsGreatest.isNewest {result : List Char} (h : IsGreatest versions constraint result)
    (hreadable : ∀ text ∈ versions, IsReadable text) (hversions : ∀ text ∈ versions, ∃ v, IsPublicSpelling text v) :
    IsNewest versions constraint result := by
  have hspells (text : List Char) (htext : text ∈ versions) (v : Version) (hparse : Version.parse? text = some v) :
      IsPublicSpelling text v := by
    obtain ⟨v', hv'⟩ := hversions text htext
    cases hparse.symm.trans hv'.parse
    exact hv'
  have horder (text : List Char) (htext : text ∈ versions) (hallowed : Constraint.satisfies text constraint = true) :
      NaturalVersion.order result text ≠ .lt := by
    obtain ⟨order, hcompare, hge, -⟩ := h.greatest text htext hallowed
    rintro hlt
    rw [← order_of_compare hcompare, hlt] at hge
    cases hge
  refine ⟨h, fun v w text htext hallowed hv hw hlt => ?_, fun v w htext hallowed hresult hv hw haligned hlt => ?_⟩
  · exact NaturalVersion.isMarked_or_of_lt (hspells result h.mem v hv) (hspells text htext w hw)
      (hreadable result h.mem) (hreadable text htext) (horder text htext hallowed) hlt
  · subst hresult
    have hpublic := hspells v.text h.mem v hv
    have hpublic' := hspells w.text htext w hw
    refine horder w.text htext hallowed ?_
    rw [haligned.order_text hpublic.epoch_eq_zero hpublic'.epoch_eq_zero hpublic.noLocal hpublic'.noLocal
      (hreadable _ h.mem) (hreadable _ htext)]
    exact hlt

end Constraint

end ManifestLens
