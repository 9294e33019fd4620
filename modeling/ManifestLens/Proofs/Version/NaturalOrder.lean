import ManifestLens.Proofs.Error.Result
import ManifestLens.Proofs.Ordering.Stable
import ManifestLens.Proofs.Text.Lines
import ManifestLens.Version.Natural

/-!
# Which version texts the natural order can place

Comparing two version texts reads their segments up to the first difference. A segment cannot be read if a
line feed stands inside of it or if its number has too many digits. Texts of readable segments are always
compared and always sorted; any other text fails against some text, namely against itself with one more
segment.
-/

namespace ManifestLens

namespace NaturalVersion

/-! ### Segments -/

namespace Segment

/-- No line feed stands before the last character, and the leading number is not too long. -/
def IsReadable (text : List Char) : Prop :=
  '\n' ∉ text.dropLast ∧ (text.takeWhile Text.isDecimal).length ≤ maxDigits

instance : DecidablePred IsReadable := fun _ => inferInstanceAs (Decidable (_ ∧ _))

theorem mem_withoutFinalBreak {text : List Char} : '\n' ∈ withoutFinalBreak text ↔ '\n' ∈ text.dropLast := by
  unfold withoutFinalBreak
  split
  · exact Iff.rfl
  · next hlast =>
      refine ⟨fun hmem => ?_, fun hmem => List.dropLast_subset _ hmem⟩
      have hne : text ≠ [] := List.ne_nil_of_mem hmem
      rw [← List.dropLast_concat_getLast hne, List.mem_append, List.mem_singleton] at hmem
      rcases hmem with hmem | hmem
      · exact hmem
      · exact absurd (hmem ▸ List.getLast?_eq_some_getLast hne) hlast

theorem contains_suffix (text : List Char) :
    (withoutFinalBreak (text.drop (text.takeWhile Text.isDecimal).length)).contains '\n' = true
      ↔ '\n' ∈ text.dropLast := by
  have hdigits : '\n' ∉ text.takeWhile Text.isDecimal := fun hmem =>
    absurd (List.all_eq_true.mp (List.all_takeWhile ..) _ hmem) (by decide)
  have htext := List.takeWhile_append_dropWhile (p := Text.isDecimal) (l := text)
  rw [List.contains_iff_mem, mem_withoutFinalBreak]
  generalize hdigitsEq : text.takeWhile Text.isDecimal = digits at *
  generalize text.dropWhile Text.isDecimal = rest at *
  rw [← htext, List.drop_left]
  cases rest with
  | nil =>
      simp only [List.dropLast_nil, List.not_mem_nil, false_iff, List.append_nil]
      exact fun hmem => hdigits (List.dropLast_subset _ hmem)
  | cons c more =>
      rw [List.dropLast_append_of_ne_nil (by simp), List.mem_append]
      exact ⟨.inr, fun hmem => hmem.resolve_left hdigits⟩

theorem isReadable_of_read {text : List Char} {segment : Segment} (h : read text = .ok segment) :
    IsReadable text := by
  simp only [read] at h
  split at h
  · cases h
  · next hbreak =>
      refine ⟨fun hmem => hbreak ((contains_suffix text).mpr hmem), ?_⟩
      split at h
      · next hempty =>
          rw [List.isEmpty_iff.mp hempty]
          exact Nat.zero_le _
      · split at h
        · cases h
        · next hlength => exact Nat.le_of_not_lt hlength

theorem exists_read {text : List Char} (h : IsReadable text) : ∃ segment, read text = .ok segment := by
  have hbreak := mt (contains_suffix text).mp h.1
  simp only [read, if_neg hbreak]
  split
  · exact ⟨_, rfl⟩
  · exact ⟨_, if_neg (Nat.not_lt.mpr h.2)⟩

theorem not_isReadable_iff {text : List Char} : ¬ IsReadable text ↔ ∃ failure, read text = .error failure := by
  cases hread : read text with
  | ok segment =>
      simp only [reduceCtorEq, exists_false, iff_false, not_not]
      exact isReadable_of_read hread
  | error failure =>
      simp only [Except.error.injEq, exists_eq', iff_true]
      intro hreadable
      obtain ⟨segment, hsegment⟩ := exists_read hreadable
      rw [hread] at hsegment
      cases hsegment

theorem cmp_self (segment : Segment) : segment.cmp segment = .eq := by
  have hnumber : compareNumbers segment.number segment.number = .eq := by
    cases segment.number with
    | none => rfl
    | some n => exact Nat.compare_eq_eq.mpr rfl
  rw [cmp, hnumber, compareSuffixes, if_pos rfl]
  rfl

end Segment

/-! ### Comparing -/

/-- What the natural order compares of a version text. -/
def segments (version : List Char) : List (List Char) := Text.splitOn '.' (Text.trim version)

/-- Every segment of a version text can be read. -/
def IsReadable (version : List Char) : Prop := ∀ segment ∈ segments version, Segment.IsReadable segment

instance : DecidablePred IsReadable := fun version =>
  inferInstanceAs (Decidable (∀ segment ∈ segments version, Segment.IsReadable segment))

theorem isReadable_of_short_runs {version : List Char} (hline : '\n' ∉ version)
    (hruns : ∀ run, run <:+: version → (∀ c ∈ run, Text.isDecimal c = true) → run.length ≤ Segment.maxDigits) :
    IsReadable version := by
  obtain ⟨lead, trail, hversion, -⟩ := Text.exists_margins version
  intro segment hsegment
  have hpart : segment <:+: version :=
    (Text.infix_of_mem_splitOn hsegment).trans ⟨lead, trail, hversion.symm⟩
  refine ⟨fun hmem => hline (hpart.subset (List.dropLast_subset _ hmem)), hruns _ ?_ ?_⟩
  · exact (List.takeWhile_prefix _).isInfix.trans hpart
  · exact List.all_eq_true.mp (List.all_takeWhile ..)

/-- A segment of a version text cannot be read, for a reason. -/
def Fails (version : List Char) (failure : Failure) : Prop :=
  ∃ segment ∈ segments version, Segment.read segment = .error failure

theorem not_isReadable_iff {version : List Char} : ¬ IsReadable version ↔ ∃ failure, Fails version failure := by
  simp only [IsReadable, not_forall, Segment.not_isReadable_iff, Fails]
  constructor
  · rintro ⟨segment, hsegment, failure, hread⟩
    exact ⟨failure, segment, hsegment, hread⟩
  · rintro ⟨failure, segment, hsegment, hread⟩
    exact ⟨segment, hsegment, failure, hread⟩

theorem Fails.not_isReadable {version : List Char} {failure : Failure} (h : Fails version failure) :
    ¬ IsReadable version := not_isReadable_iff.mpr ⟨failure, h⟩

theorem mem_of_mem_zipWithAll {xs ys : List (List Char)} {a b : Option (List Char)}
    (h : (a, b) ∈ List.zipWithAll Prod.mk xs ys) :
    (∀ segment, a = some segment → segment ∈ xs) ∧ ∀ segment, b = some segment → segment ∈ ys := by
  induction xs generalizing ys with
  | nil =>
      rw [List.nil_zipWithAll, List.mem_map] at h
      obtain ⟨y, hy, heq⟩ := h
      cases heq
      exact ⟨fun _ hnone => (nomatch hnone), fun _ hsome => Option.some.inj hsome ▸ hy⟩
  | cons x xs ih =>
      cases ys with
      | nil =>
          rw [List.zipWithAll_nil, List.mem_map] at h
          obtain ⟨y, hy, heq⟩ := h
          cases heq
          exact ⟨fun _ hsome => Option.some.inj hsome ▸ hy, fun _ hnone => nomatch hnone⟩
      | cons y ys =>
          rw [List.zipWithAll_cons_cons, List.mem_cons] at h
          rcases h with heq | h
          · cases heq
            exact ⟨fun _ hsome => Option.some.inj hsome ▸ List.mem_cons_self ..,
              fun _ hsome => Option.some.inj hsome ▸ List.mem_cons_self ..⟩
          · exact ⟨fun segment hsome => List.mem_cons_of_mem _ ((ih h).1 segment hsome),
              fun segment hsome => List.mem_cons_of_mem _ ((ih h).2 segment hsome)⟩

/-- Reading a segment that may be missing fails only as reading one that is there. -/
theorem exists_of_read_getD {a : Option (List Char)} {failure : Failure}
    (h : (a.map Segment.read).getD (.ok .missing) = .error failure) :
    ∃ segment, a = some segment ∧ Segment.read segment = .error failure := by
  cases a with
  | none => cases h
  | some segment => exact ⟨segment, rfl, h⟩

theorem exists_of_compareSegments {pairs : List (Option (List Char) × Option (List Char))} {failure : Failure}
    (h : compareSegments pairs = .error failure) :
    ∃ a b segment, (a, b) ∈ pairs ∧ (a = some segment ∨ b = some segment) ∧
      Segment.read segment = .error failure := by
  induction pairs with
  | nil => cases h
  | cons pair rest ih =>
      obtain ⟨a, b⟩ := pair
      rcases bind_eq_error_iff.mp h with hleft | ⟨left, -, h⟩
      · obtain ⟨segment, ha, hread⟩ := exists_of_read_getD hleft
        exact ⟨a, b, segment, List.mem_cons_self .., .inl ha, hread⟩
      · rcases bind_eq_error_iff.mp h with hright | ⟨right, -, h⟩
        · obtain ⟨segment, hb, hread⟩ := exists_of_read_getD hright
          exact ⟨a, b, segment, List.mem_cons_self .., .inr hb, hread⟩
        · split at h
          · obtain ⟨a, b, segment, hmem, hsegment⟩ := ih h
            exact ⟨a, b, segment, List.mem_cons_of_mem _ hmem, hsegment⟩
          · cases h

/-- A comparison fails only because a segment of one of the two texts cannot be read. -/
theorem fails_of_compare {left right : List Char} {failure : Failure}
    (h : compare left right = .error failure) : Fails left failure ∨ Fails right failure := by
  obtain ⟨a, b, segment, hmem, hsegment, hread⟩ := exists_of_compareSegments h
  rcases hsegment with ha | hb
  · exact .inl ⟨segment, (mem_of_mem_zipWithAll hmem).1 segment ha, hread⟩
  · exact .inr ⟨segment, (mem_of_mem_zipWithAll hmem).2 segment hb, hread⟩

theorem fails_of_lt {left right : List Char} {failure : Failure} (h : lt left right = .error failure) :
    Fails left failure ∨ Fails right failure := by
  rcases bind_eq_error_iff.mp h with h | ⟨order, -, h⟩
  · exact fails_of_compare h
  · cases h

/-- **Sorting.** Version texts are sorted unless a segment of one of them cannot be read. -/
theorem exists_fails_of_sort {versions : List (List Char)} {descending : Bool} {failure : Failure}
    (h : sort versions descending = .error failure) : ∃ version ∈ versions, Fails version failure := by
  have hwithin : FailsWithin lt versions.eraseDups failure := by
    unfold sort at h
    split at h
    · exact failsWithin_of_sortDescending h
    · exact failsWithin_of_sortAscending h
  obtain ⟨a, ha, b, hb, hlt⟩ := hwithin
  rcases fails_of_lt hlt with hfails | hfails
  · exact ⟨a, List.mem_eraseDups.mp ha, hfails⟩
  · exact ⟨b, List.mem_eraseDups.mp hb, hfails⟩

/-! ### Texts without a place -/

theorem compareSegments_of_equal {same : List (List Char)} {failure : Failure}
    (h : ∃ segment ∈ same, Segment.read segment = .error failure)
    (rest : List (Option (List Char) × Option (List Char))) :
    ∃ failure, compareSegments ((same.map fun segment => (some segment, some segment)) ++ rest)
      = .error failure := by
  induction same with
  | nil =>
      obtain ⟨segment, hmem, -⟩ := h
      cases hmem
  | cons first more ih =>
      cases hread : Segment.read first with
      | error other =>
          refine ⟨other, ?_⟩
          rw [List.map_cons, List.cons_append]
          exact bind_eq_error_iff.mpr (.inl hread)
      | ok found =>
          have hmore : ∃ segment ∈ more, Segment.read segment = .error failure := by
            obtain ⟨segment, hmem, hfailure⟩ := h
            rcases List.mem_cons.mp hmem with rfl | hmem
            · rw [hread] at hfailure
              cases hfailure
            · exact ⟨segment, hmem, hfailure⟩
          obtain ⟨other, hother⟩ := ih hmore
          refine ⟨other, ?_⟩
          rw [List.map_cons, List.cons_append]
          refine bind_eq_error_iff.mpr (.inr ⟨found, hread, bind_eq_error_iff.mpr (.inr ⟨found, hread, ?_⟩)⟩)
          rw [Segment.cmp_self]
          exact hother

/-- The version text with one more segment. -/
def extended (version : List Char) : List Char := Text.trim version ++ ['.', '0']

theorem trim_extended (version : List Char) : Text.trim (extended version) = extended version := by
  obtain ⟨-, -, -, -, -, htrimmed, -, -⟩ := Text.exists_margins version
  refine Text.trim_of_isTrimmed ⟨htrimmed.head.append fun _ => ?_, ?_⟩
  · exact Text.headNot_cons.mpr (by decide)
  · intro c hc
    rw [extended, List.getLast?_append] at hc
    cases hc
    decide

theorem segments_extended (version : List Char) : segments (extended version) = segments version ++ [['0']] := by
  rw [segments, trim_extended, extended, Text.splitOn_append_separator]
  rfl

theorem ne_extended (version : List Char) : version ≠ extended version := by
  intro heq
  have htrim : Text.trim version = extended version := by
    rw [← trim_extended version]
    exact congrArg Text.trim heq
  have hlength := congrArg List.length htrim
  simp [extended] at hlength

/-- A text with a segment that cannot be read fails against itself with one more segment. -/
theorem compare_extended {version : List Char} (h : ¬ IsReadable version) :
    ∃ failure, compare version (extended version) = .error failure := by
  obtain ⟨failure, hfails⟩ := not_isReadable_iff.mp h
  have hpairs (same rest : List (List Char)) : List.zipWithAll Prod.mk same (same ++ rest)
      = (same.map fun segment => (some segment, some segment)) ++ rest.map (Prod.mk none ∘ some) := by
    induction same with
    | nil => simp [Function.comp_def]
    | cons first more ih => simp [ih]
  obtain ⟨other, hother⟩ := compareSegments_of_equal hfails ([['0']].map (Prod.mk none ∘ some))
  refine ⟨other, ?_⟩
  have hcompare : compare version (extended version)
      = compareSegments (List.zipWithAll Prod.mk (segments version) (segments (extended version))) := rfl
  rw [hcompare, segments_extended, hpairs]
  exact hother

/-- Every text that is not readable keeps some other text from being sorted with it. -/
theorem sort_extended {version : List Char} (h : ¬ IsReadable version) :
    ∃ failure, sort [version, extended version] = .error failure := by
  obtain ⟨failure, hcompare⟩ := compare_extended h
  have hdistinct : [version, extended version].eraseDups = [version, extended version] := by
    have hne := ne_extended version
    simp [List.eraseDups_cons, Ne.symm hne]
  refine ⟨failure, ?_⟩
  rw [sort, if_pos rfl, hdistinct]
  refine bind_eq_error_iff.mpr (.inl (bind_eq_error_iff.mpr (.inl (bind_eq_error_iff.mpr (.inl ?_)))))
  exact bind_eq_error_iff.mpr (.inl hcompare)

end NaturalVersion

end ManifestLens
