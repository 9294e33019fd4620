import ManifestLens.Index.Document
import ManifestLens.Proofs.Version.NaturalOrder

/-!
# What keeps a view from being made of a document

Any object may come as the document of a package. Whatever a document holds in the wrong place, making a view
of it ends with the view or with a failure that names the package and says that the document is malformed,
with two exceptions: an offered version that has no place in the natural order, and, in the descriptive view
alone, classifiers that are not a collection.
-/

namespace ManifestLens

/-- The fault says of the answer about a package that it is malformed. -/
def Fault.IsMalformed (package : String) (fault : Fault) : Prop :=
  ∃ error : IndexError, fault = .index error ∧ error.fault = .invalidResponse ∧ error.package = some package

namespace PackageDocument

variable {package : String} {document fields files : Members} {includePre : Bool} {fault : Fault}

/-- A document has descriptive fields and releases, where it may leave out the latter. -/
def HasParts (document fields files : Members) : Prop :=
  Json.memberOrNull document "info" = .object fields ∧
    (Json.member? "releases" document).getD (.object []) = .object files

/-- The versions on offer among releases, with the pre-releases if `includePre`. -/
def offered (includePre : Bool) (files : Members) : List String :=
  (files.map Prod.fst).filter fun version => includePre || !isPreRelease version

/-- The value of the classifiers counts as none or is a collection. -/
def HasClassifiers (fields : Members) : Prop :=
  (Json.memberOrNull fields "classifiers").isTrue = true →
    (Json.memberOrNull fields "classifiers").elements?.isSome = true

theorem isMalformed_malformed (package message : String) : (malformed package message).IsMalformed package :=
  ⟨_, rfl, rfl, rfl⟩

theorem parts_eq_ok_iff : parts package document = .ok (fields, files) ↔ HasParts document fields files := by
  unfold parts HasParts
  split
  · next hinfo hreleases =>
      simp only [hinfo, hreleases, Except.ok.injEq, Prod.mk.injEq, Json.object.injEq]
  · next hother =>
      simp only [reduceCtorEq, false_iff, not_and]
      exact fun hinfo hreleases => hother _ _ hinfo hreleases

theorem isMalformed_of_parts (h : parts package document = .error fault) : fault.IsMalformed package := by
  unfold parts at h
  split at h
  · cases h
  · cases h
    exact isMalformed_malformed ..

theorem isMalformed_of_mapError {α : Type} {result : Except Unusable α} {message : Unusable → String}
    (h : result.mapError (fun unusable => malformed package (message unusable)) = .error fault) :
    fault.IsMalformed package := by
  obtain ⟨unusable, -, rfl⟩ := mapError_eq_error_iff.mp h
  exact isMalformed_malformed ..

theorem elementsOf_eq_error_iff {value : Json} {unusable : Unusable} : elementsOf value = .error unusable ↔
    value.isTrue = true ∧ value.elements? = none ∧ unusable = .notCollection value := by
  unfold elementsOf
  split
  · next htrue =>
      cases value.elements? <;> simp [htrue, eq_comm]
  · next hfalse => simp [hfalse]

/-! ### The metadata view -/

theorem offered_eq (includePre : Bool) (files : Members) : ((files.map Prod.fst).filter fun v =>
    includePre || !((files.map Prod.fst).filter isPreRelease).contains v) = offered includePre files := by
  refine List.filter_congr fun version hmem => ?_
  have hcontains : ((files.map Prod.fst).filter isPreRelease).contains version = isPreRelease version := by
    rw [Bool.eq_iff_iff, List.contains_iff_mem, List.mem_filter]
    exact ⟨And.right, fun hpre => ⟨hmem, hpre⟩⟩
  rw [hcontains]

theorem exists_fails_of_newestFirst {versions : List String} {failure : NaturalVersion.Failure}
    (h : newestFirst versions = .error failure) :
    ∃ version ∈ versions, NaturalVersion.Fails version.toList failure := by
  rcases bind_eq_error_iff.mp h with h | ⟨sorted, -, h⟩
  · obtain ⟨text, htext, hfails⟩ := NaturalVersion.exists_fails_of_sort h
    obtain ⟨version, hversion, rfl⟩ := List.mem_map.mp htext
    exact ⟨version, hversion, hfails⟩
  · cases h

theorem metadata_eq_error (h : metadata package document includePre = .error fault) :
    fault.IsMalformed package ∨ ∃ fields files failure, HasParts document fields files ∧
      fault = .unordered failure ∧
      ∃ version ∈ offered includePre files, NaturalVersion.Fails version.toList failure := by
  rcases bind_eq_error_iff.mp h with h | ⟨⟨fields, files⟩, hparts, h⟩
  · exact .inl (isMalformed_of_parts h)
  · rcases bind_eq_error_iff.mp h with h | ⟨yanked, -, h⟩
    · exact .inl (isMalformed_of_mapError h)
    · rcases bind_eq_error_iff.mp h with h | ⟨versions, -, h⟩
      · obtain ⟨failure, hsort, rfl⟩ := mapError_eq_error_iff.mp h
        obtain ⟨version, hversion, hfails⟩ := exists_fails_of_newestFirst hsort
        exact .inr ⟨fields, files, failure, parts_eq_ok_iff.mp hparts, rfl, version,
          offered_eq includePre files ▸ hversion, hfails⟩
      · rcases bind_eq_error_iff.mp h with h | ⟨classifiers, -, h⟩
        · exact .inl (isMalformed_of_mapError h)
        · cases h

/-- A document of two releases without files. -/
def pair (version other : String) : Members :=
  [("info", .object []), ("releases", .object [(version, .array []), (other, .array [])])]

/-- **A version without a place.** For every version that has no place in the natural order there is a document
from which no metadata view is made, because of that version. -/
theorem exists_metadata_pair {version : String} (h : ¬ NaturalVersion.IsReadable version.toList)
    (package : String) :
    ∃ other failure, metadata package (pair version other) true = .error (.unordered failure) := by
  obtain ⟨failure, hsort⟩ := NaturalVersion.sort_extended h
  refine ⟨String.ofList (NaturalVersion.extended version.toList), failure, ?_⟩
  refine bind_eq_error_iff.mpr (.inr ⟨_, rfl, bind_eq_error_iff.mpr (.inr ⟨_, rfl,
    bind_eq_error_iff.mpr (.inl (mapError_eq_error_iff.mpr ⟨failure, ?_, rfl⟩))⟩)⟩)
  refine bind_eq_error_iff.mpr (.inl ?_)
  simpa using hsort

/-! ### The releases -/

theorem version_of_release {version : String} {value : Json} {found : Release}
    (h : release version value = .ok found) : found.version = version := by
  obtain ⟨elements, -, h⟩ := bind_eq_ok_iff.mp h
  obtain ⟨members, -, h⟩ := bind_eq_ok_iff.mp h
  cases h
  rfl

theorem exists_fails_of_latestFirst {found : List Release} {failure : NaturalVersion.Failure}
    (h : latestFirst found = .error failure) :
    ∃ one ∈ found, NaturalVersion.Fails one.version.toList failure := by
  rcases bind_eq_error_iff.mp h with h | ⟨sorted, -, h⟩
  · obtain ⟨a, ha, b, hb, hlt⟩ := failsWithin_of_sortDescending h
    rcases NaturalVersion.fails_of_lt hlt with hfails | hfails
    · exact ⟨a, ha, hfails⟩
    · exact ⟨b, hb, hfails⟩
  · cases h

theorem releases_eq_error (h : releases package document includePre = .error fault) :
    fault.IsMalformed package ∨ ∃ fields files failure, HasParts document fields files ∧
      fault = .unordered failure ∧
      ∃ version ∈ offered includePre files, NaturalVersion.Fails version.toList failure := by
  rcases bind_eq_error_iff.mp h with h | ⟨⟨fields, files⟩, hparts, h⟩
  · exact .inl (isMalformed_of_parts h)
  · rcases bind_eq_error_iff.mp h with h | ⟨found, hfound, h⟩
    · exact .inl (isMalformed_of_mapError h)
    · obtain ⟨failure, hsort, rfl⟩ := mapError_eq_error_iff.mp h
      obtain ⟨one, hone, hfails⟩ := exists_fails_of_latestFirst hsort
      obtain ⟨⟨version, value⟩, hmem, hrelease⟩ := exists_of_mem_of_mapM (mapError_eq_ok_iff.mp hfound) hone
      obtain ⟨hfile, hchosen⟩ := List.mem_filter.mp hmem
      rw [version_of_release hrelease] at hfails
      exact .inr ⟨fields, files, failure, parts_eq_ok_iff.mp hparts, rfl, version,
        List.mem_filter.mpr ⟨List.mem_map.mpr ⟨_, hfile, rfl⟩, hchosen⟩, hfails⟩

/-! ### The descriptive view -/

theorem info_eq_error (h : info package document = .error fault) :
    fault.IsMalformed package ∨ ∃ fields files, HasParts document fields files ∧ ¬ HasClassifiers fields ∧
      fault = .wrongKind (Json.memberOrNull fields "classifiers").notCollection := by
  rcases bind_eq_error_iff.mp h with h | ⟨⟨fields, files⟩, hparts, h⟩
  · exact .inl (isMalformed_of_parts h)
  · rcases bind_eq_error_iff.mp h with h | ⟨classifiers, -, h⟩
    · obtain ⟨unusable, helements, rfl⟩ := mapError_eq_error_iff.mp h
      obtain ⟨htrue, hnone, rfl⟩ := elementsOf_eq_error_iff.mp helements
      exact .inr ⟨fields, files, parts_eq_ok_iff.mp hparts, by simp [HasClassifiers, htrue, hnone], rfl⟩
    · cases h

/-- Classifiers that are not a collection always keep the descriptive view from being made. -/
theorem info_of_not_hasClassifiers (hparts : HasParts document fields files) (h : ¬ HasClassifiers fields) :
    info package document
      = .error (.wrongKind (Json.memberOrNull fields "classifiers").notCollection) := by
  simp only [HasClassifiers, Classical.not_imp, Bool.not_eq_true, Option.isSome_eq_false_iff,
    Option.isNone_iff_eq_none] at h
  refine bind_eq_error_iff.mpr (.inr ⟨_, parts_eq_ok_iff.mpr hparts, bind_eq_error_iff.mpr (.inl ?_)⟩)
  exact mapError_eq_error_iff.mpr ⟨_, elementsOf_eq_error_iff.mpr ⟨h.1, h.2, rfl⟩, rfl⟩

end PackageDocument

end ManifestLens
