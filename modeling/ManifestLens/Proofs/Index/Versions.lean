import Mathlib.Data.List.Nodup
import ManifestLens.Proofs.Index.Document
import ManifestLens.Proofs.Index.Retry
import ManifestLens.Proofs.Json.Dictionary
import ManifestLens.Proofs.Version.Preorder

/-!
# The versions in the views of a package

The metadata view and the list of releases are made of the same document by different ways: one sorts the
version texts, the other sorts the releases by version and then by date; one looks for withdrawn files version
by version up to the first one, the other reads all files of a release. They show the same versions with the
same marks. In both of them the view without pre-releases is what is left of the view with them, because
sorting is stable, so that it makes no difference whether elements are left out before it or after it.
-/

namespace ManifestLens

namespace PackageOverview

/-- The metadata without the pre-releases among the versions on offer. -/
def withoutPreReleases (metadata : PackageOverview) : PackageOverview :=
  { metadata with versions := metadata.versions.filter fun version => !metadata.isPreRelease version }

/-- The metadata and a list of releases show the same versions with the same marks. -/
structure AgreesWith (metadata : PackageOverview) (found : List Release) : Prop where
  /-- There is one release for every version. -/
  versions : (found.map Release.version).Perm metadata.versions
  distinct : metadata.versions.Nodup
  yanked : ∀ one ∈ found, one.isYanked = metadata.isYanked one.version
  preReleases : ∀ one ∈ found, one.isPreRelease = metadata.isPreRelease one.version
  /-- The stable versions are those of the releases without a mark, in the order of the metadata. -/
  stable : metadata.stableVersions = metadata.versions.filter fun version =>
    found.any fun one => one.version == version && !one.isPreRelease && !one.isYanked

theorem stableVersions_eq {metadata : PackageOverview} {found : List Release}
    (hversions : (found.map Release.version).Perm metadata.versions)
    (hyanked : ∀ one ∈ found, one.isYanked = metadata.isYanked one.version)
    (hpre : ∀ one ∈ found, one.isPreRelease = metadata.isPreRelease one.version) :
    metadata.stableVersions = metadata.versions.filter fun version =>
      found.any fun one => one.version == version && !one.isPreRelease && !one.isYanked := by
  refine List.filter_congr fun version hmem => ?_
  obtain ⟨one, hone, rfl⟩ := List.mem_map.mp (hversions.mem_iff.mpr hmem)
  rw [Bool.eq_iff_iff, List.any_eq_true]
  constructor
  · intro hunmarked
    exact ⟨one, hone, by simpa [hyanked one hone, hpre one hone] using hunmarked⟩
  · rintro ⟨same, hsame, hunmarked⟩
    simp only [Bool.and_eq_true, beq_iff_eq] at hunmarked
    obtain ⟨⟨hversion, hnotPre⟩, hnotYanked⟩ := hunmarked
    rw [← hversion, ← hyanked same hsame, ← hpre same hsame, hnotPre, hnotYanked]
    rfl

end PackageOverview

namespace PackageDocument

variable {package other : String} {document fields files : Members} {includePre : Bool}

/-- All releases of a document have a place in the natural order. -/
def IsSortable (document : Members) : Prop :=
  ∀ fields files, HasParts document fields files →
    ∀ version ∈ files.map Prod.fst, NaturalVersion.IsReadable version.toList

/-! ### Sorting fewer versions -/

theorem newestFirst_filter {versions sorted : List String}
    (h : ∀ version ∈ versions, NaturalVersion.IsReadable version.toList)
    (hsort : newestFirst versions = .ok sorted) (p : String → Bool) :
    newestFirst (versions.filter p) = .ok (sorted.filter p) := by
  obtain ⟨texts, htexts, hsorted⟩ := bind_eq_ok_iff.mp hsort
  cases hsorted
  have hreadable : ∀ text ∈ versions.map String.toList, NaturalVersion.IsReadable text :=
    List.forall_mem_map.mpr h
  have hfilter := NaturalVersion.sort_filter hreadable htexts (p ∘ String.ofList)
  have hinputs : (versions.map String.toList).filter (p ∘ String.ofList) = (versions.filter p).map String.toList := by
    rw [List.filter_map]
    simp [Function.comp_def]
  rw [hinputs] at hfilter
  refine bind_eq_ok_iff.mpr ⟨_, hfilter, ?_⟩
  exact congrArg Except.ok (List.filter_map ..).symm

theorem isAsLate_eq (a b : Option Int) : isAsLate a b = (compare b a).isLE := by
  match a, b with
  | none, none | none, some _ | some _, none => rfl
  | some a, some b => exact Bool.eq_iff_iff.mpr (decide_eq_true_iff.trans Std.isLE_compare.symm)

theorem exists_latestFirst {found : List Release}
    (h : ∀ one ∈ found, NaturalVersion.IsReadable one.version.toList) :
    ∃ sorted, latestFirst found = .ok sorted := by
  cases hsort : latestFirst found with
  | ok sorted => exact ⟨sorted, rfl⟩
  | error failure =>
      obtain ⟨one, hone, hfails⟩ := exists_fails_of_latestFirst hsort
      exact absurd (h one hone) hfails.not_isReadable

theorem latestFirst_filter {found sorted : List Release}
    (h : ∀ one ∈ found, NaturalVersion.IsReadable one.version.toList) (hsort : latestFirst found = .ok sorted)
    (p : Release → Bool) : latestFirst (found.filter p) = .ok (sorted.filter p) := by
  obtain ⟨byVersion, hversions, hsorted⟩ := bind_eq_ok_iff.mp hsort
  cases hsorted
  have := NaturalVersion.transCmp_of_key NaturalVersion.order fun one : Release => one.version.toList
  have hbyVersion := sortDescending_filter
    (fun a b : Release => NaturalVersion.order a.version.toList b.version.toList)
    (fun a ha b hb => NaturalVersion.lt_eq_order (h a ha) (h b hb)) hversions p
  refine bind_eq_ok_iff.mpr ⟨_, hbyVersion, congrArg Except.ok ?_⟩
  have : Std.TransCmp fun a b : Option Int => compare b a := Std.TransCmp.opposite
  have := NaturalVersion.transCmp_of_key (fun a b : Option Int => compare b a) dateKey
  simp only [isAsLate_eq]
  exact mergeSort_filter (fun a b : Release => compare (dateKey b) (dateKey a)) p byVersion

/-! ### Leaving out pre-releases -/

theorem offered_true (files : Members) : offered true files = files.map Prod.fst :=
  List.filter_eq_self.mpr fun _ _ => rfl

theorem metadata_of_isSortable {overview : PackageOverview} (h : IsSortable document)
    (hmetadata : metadata package document true = .ok overview) :
    metadata package document false = .ok overview.withoutPreReleases := by
  obtain ⟨⟨fields, files⟩, hparts, hmetadata⟩ := bind_eq_ok_iff.mp hmetadata
  obtain ⟨yanked, hyanked, hmetadata⟩ := bind_eq_ok_iff.mp hmetadata
  obtain ⟨versions, hversions, hmetadata⟩ := bind_eq_ok_iff.mp hmetadata
  obtain ⟨classifiers, hclassifiers, hmetadata⟩ := bind_eq_ok_iff.mp hmetadata
  cases hmetadata
  have hall : newestFirst (files.map Prod.fst) = .ok versions := by
    rw [← offered_true, ← offered_eq]
    exact mapError_eq_ok_iff.mp hversions
  have hfewer := newestFirst_filter (h fields files (parts_eq_ok_iff.mp hparts)) hall
    fun version => !((files.map Prod.fst).filter isPreRelease).contains version
  exact bind_eq_ok_iff.mpr ⟨_, hparts, bind_eq_ok_iff.mpr ⟨_, hyanked, bind_eq_ok_iff.mpr
    ⟨_, mapError_eq_ok_iff.mpr hfewer, bind_eq_ok_iff.mpr ⟨_, hclassifiers, rfl⟩⟩⟩⟩

theorem isPreRelease_of_release {version : String} {value : Json} {one : Release}
    (h : release version value = .ok one) : one.isPreRelease = isPreRelease version := by
  obtain ⟨elements, -, h⟩ := bind_eq_ok_iff.mp h
  obtain ⟨members, -, h⟩ := bind_eq_ok_iff.mp h
  cases h
  rfl

theorem releases_eq_ok_iff {found : List Release} : releases package document includePre = .ok found ↔
    ∃ fields files unsorted, HasParts document fields files ∧
      (files.filter fun (version, _) => includePre || !isPreRelease version).mapM
        (fun (version, value) => release version value) = .ok unsorted ∧ latestFirst unsorted = .ok found := by
  constructor
  · intro h
    obtain ⟨⟨fields, files⟩, hparts, h⟩ := bind_eq_ok_iff.mp h
    obtain ⟨unsorted, hunsorted, h⟩ := bind_eq_ok_iff.mp h
    exact ⟨fields, files, unsorted, parts_eq_ok_iff.mp hparts, mapError_eq_ok_iff.mp hunsorted,
      mapError_eq_ok_iff.mp h⟩
  · rintro ⟨fields, files, unsorted, hparts, hunsorted, h⟩
    exact bind_eq_ok_iff.mpr ⟨_, parts_eq_ok_iff.mpr hparts, bind_eq_ok_iff.mpr
      ⟨_, mapError_eq_ok_iff.mpr hunsorted, mapError_eq_ok_iff.mpr h⟩⟩

theorem releases_of_isSortable {found : List Release} (h : IsSortable document)
    (hreleases : releases package document true = .ok found) :
    releases package document false = .ok (found.filter fun one => !one.isPreRelease) := by
  obtain ⟨fields, files, unsorted, hparts, hunsorted, hsorted⟩ := releases_eq_ok_iff.mp hreleases
  have hoffered : files.filter (fun (version, _) => true || !isPreRelease version) = files :=
    List.filter_eq_self.mpr fun _ _ => rfl
  rw [hoffered] at hunsorted
  have hfewer := mapM_filter (p := fun (version, _) => !isPreRelease version)
    (q := fun one => !one.isPreRelease) hunsorted
    fun (_, _) _ hrelease => congrArg (!·) (isPreRelease_of_release hrelease)
  have hreadable : ∀ one ∈ unsorted, NaturalVersion.IsReadable one.version.toList := fun one hone => by
    obtain ⟨⟨version, value⟩, hmem, hrelease⟩ := exists_of_mem_of_mapM hunsorted hone
    rw [version_of_release hrelease]
    exact h fields files hparts version (List.mem_map_of_mem hmem)
  exact releases_eq_ok_iff.mpr ⟨fields, files, _, hparts, hfewer, latestFirst_filter hreadable hsorted _⟩

/-- **Views without pre-releases.** Of a document whose releases all have a place in the natural order, the
metadata without pre-releases is the metadata with them but for the versions, from which the pre-releases are
left out, and the releases without pre-releases are all releases but those that are marked as one. -/
theorem views_without_pre_releases (h : IsSortable document) (package : String) :
    (∀ overview, metadata package document true = .ok overview →
      metadata package document false = .ok overview.withoutPreReleases) ∧
      ∀ found, releases package document true = .ok found →
        releases package document false = .ok (found.filter fun one => !one.isPreRelease) :=
  ⟨fun _ => metadata_of_isSortable h, fun _ => releases_of_isSortable h⟩

/-- A release, a candidate of the next one, and the next one, which comes before neither as a text. -/
theorem views_without_pre_releases_candidate :
    let document : Members := [("info", .object []), ("releases", .object
      [("1.9", .array []), ("1.10rc1", .array []), ("1.10", .array [])])]
    IsSortable document ∧
      (metadata "Flask" document true).map PackageOverview.versions = .ok ["1.10", "1.10rc1", "1.9"] ∧
      (metadata "Flask" document false).map PackageOverview.versions = .ok ["1.10", "1.9"] := by
  intro document
  have hsortable : IsSortable document := by
    rintro fields files ⟨hfields, hfiles⟩ version hversion
    cases hfiles
    simp only [List.map_cons, List.map_nil, List.mem_cons, List.not_mem_nil, or_false] at hversion
    rcases hversion with rfl | rfl | rfl <;> decide +kernel
  have hviews : ((metadata "Flask" document true).toOption.any fun overview =>
      overview.versions == ["1.10", "1.10rc1", "1.9"] &&
        overview.withoutPreReleases.versions == ["1.10", "1.9"]) = true := by decide +kernel
  simp only [Option.any_eq_true, Bool.and_eq_true, toOption_eq_some_iff, beq_iff_eq] at hviews
  obtain ⟨overview, hoverview, hwith, hwithout⟩ := hviews
  refine ⟨hsortable, ?_, ?_⟩
  · rw [hoverview, ← hwith]
    rfl
  · rw [(views_without_pre_releases hsortable "Flask").1 overview hoverview, ← hwithout]
    rfl

/-! ### The same versions with the same marks -/

section Agreement

/-- Looking for a withdrawn file up to the first one finds what reading all files finds. -/
theorem hasYankedFile_of_mapM {elements : List Json} {all : List Members}
    (h : elements.mapM membersOf = .ok all) :
    hasYankedFile elements = .ok (all.any fun file => (Json.memberOrNull file "yanked").isTrue) := by
  induction elements generalizing all with
  | nil =>
      cases h
      rfl
  | cons element rest ih =>
      rw [List.mapM_cons] at h
      obtain ⟨file, hfile, h⟩ := bind_eq_ok_iff.mp h
      obtain ⟨more, hmore, h⟩ := bind_eq_ok_iff.mp h
      cases h
      refine bind_eq_ok_iff.mpr ⟨file, hfile, ?_⟩
      rw [List.any_cons, ih hmore]
      cases (Json.memberOrNull file "yanked").isTrue <;> rfl

theorem hasYankedFile_of_release {version : String} {value : Json} {one : Release}
    (h : release version value = .ok one) : elementsOf value >>= hasYankedFile = .ok one.isYanked := by
  obtain ⟨elements, helements, h⟩ := bind_eq_ok_iff.mp h
  obtain ⟨members, hmembers, h⟩ := bind_eq_ok_iff.mp h
  cases h
  refine bind_eq_ok_iff.mpr ⟨elements, helements, ?_⟩
  rw [hasYankedFile_of_mapM hmembers, List.isSome_find?]

theorem mem_yankedVersions {yanked : List String} {version : String} (h : yankedVersions files = .ok yanked) :
    version ∈ yanked ↔ ∃ value, (version, value) ∈ files ∧ elementsOf value >>= hasYankedFile = .ok true := by
  induction files generalizing yanked with
  | nil =>
      cases h
      simp
  | cons first rest ih =>
      obtain ⟨elements, helements, h⟩ := bind_eq_ok_iff.mp h
      obtain ⟨found, hfound, h⟩ := bind_eq_ok_iff.mp h
      obtain ⟨more, hmore, h⟩ := bind_eq_ok_iff.mp h
      cases h
      have hfirst : elementsOf first.2 >>= hasYankedFile = .ok found :=
        bind_eq_ok_iff.mpr ⟨elements, helements, hfound⟩
      have hstep : version ∈ (if found = true then first.1 :: more else more) ↔
          (version = first.1 ∧ found = true) ∨ version ∈ more := by
        cases found <;> simp
      rw [hstep, ih hmore]
      constructor
      · rintro (⟨rfl, rfl⟩ | ⟨value, hmem, hyanked⟩)
        · exact ⟨first.2, List.mem_cons_self .., hfirst⟩
        · exact ⟨value, List.mem_cons_of_mem _ hmem, hyanked⟩
      · rintro ⟨value, hmem, hyanked⟩
        rcases List.mem_cons.mp hmem with rfl | hmem
        · exact .inl ⟨rfl, Except.ok.inj (hfirst.symm.trans hyanked)⟩
        · exact .inr ⟨value, hmem, hyanked⟩

theorem perm_of_newestFirst {versions sorted : List String} (hnodup : versions.Nodup)
    (h : newestFirst versions = .ok sorted) : sorted.Perm versions := by
  obtain ⟨texts, htexts, h⟩ := bind_eq_ok_iff.mp h
  cases h
  have hdistinct : (versions.map String.toList).Nodup := hnodup.map fun _ _ => String.toList_injective
  rw [NaturalVersion.sort, if_pos rfl, eraseDups_of_nodup hdistinct] at htexts
  simpa using (perm_of_sortDescending htexts).map String.ofList

theorem perm_of_latestFirst {found sorted : List Release} (h : latestFirst found = .ok sorted) :
    sorted.Perm found := by
  obtain ⟨byVersion, hversions, h⟩ := bind_eq_ok_iff.mp h
  cases h
  exact (List.mergeSort_perm ..).trans (perm_of_sortDescending hversions)

theorem map_version_of_mapM {found : List Release}
    (h : files.mapM (fun (version, value) => release version value) = .ok found) :
    found.map Release.version = files.map Prod.fst := by
  induction files generalizing found with
  | nil =>
      cases h
      rfl
  | cons first rest ih =>
      rw [List.mapM_cons] at h
      obtain ⟨one, hone, h⟩ := bind_eq_ok_iff.mp h
      obtain ⟨more, hmore, h⟩ := bind_eq_ok_iff.mp h
      cases h
      rw [List.map_cons, List.map_cons, ih hmore, version_of_release hone]

theorem nodup_releases (h : (Json.object document).HasDictionaries) (hparts : HasParts document fields files) :
    (files.map Prod.fst).Nodup := by
  have hreleases := hparts.2
  cases hmember : Json.member? "releases" document with
  | none =>
      rw [hmember] at hreleases
      cases hreleases
      exact List.nodup_nil
  | some value =>
      rw [hmember] at hreleases
      cases hreleases
      exact h.isDictionary_of_member? hmember

theorem contains_yanked_of_release {yanked : List String} {version : String} {value : Json} {one : Release}
    (hkeys : (files.map Prod.fst).Nodup) (hyanked : yankedVersions files = .ok yanked)
    (hmem : (version, value) ∈ files) (hrelease : release version value = .ok one) :
    yanked.contains version = one.isYanked := by
  have hone := hasYankedFile_of_release hrelease
  rw [Bool.eq_iff_iff, List.contains_iff_mem, mem_yankedVersions hyanked]
  constructor
  · rintro ⟨again, hagain, htrue⟩
    obtain rfl : again = value := (Prod.ext_iff.mp (List.inj_on_of_nodup_map hkeys hagain hmem rfl)).2
    exact Except.ok.inj (hone.symm.trans htrue)
  · exact fun htrue => ⟨value, hmem, htrue ▸ hone⟩

theorem contains_preReleases_of_release {version : String} {value : Json} {one : Release}
    (hmem : (version, value) ∈ files) (hrelease : release version value = .ok one) :
    ((files.map Prod.fst).filter isPreRelease).contains version = one.isPreRelease := by
  rw [isPreRelease_of_release hrelease, Bool.eq_iff_iff, List.contains_iff_mem, List.mem_filter]
  exact ⟨And.right, fun htrue => ⟨List.mem_map_of_mem hmem, htrue⟩⟩

theorem agreesWith_of_hasDictionaries {overview : PackageOverview} {found : List Release}
    (h : (Json.object document).HasDictionaries) (hmetadata : metadata package document includePre = .ok overview)
    (hreleases : releases other document includePre = .ok found) : overview.AgreesWith found := by
  obtain ⟨fields, files, unsorted, hparts, hunsorted, hsorted⟩ := releases_eq_ok_iff.mp hreleases
  obtain ⟨⟨fields, files⟩, hsame, hmetadata⟩ := bind_eq_ok_iff.mp hmetadata
  cases (parts_eq_ok_iff.mpr hparts).symm.trans hsame
  obtain ⟨yanked, hyanked, hmetadata⟩ := bind_eq_ok_iff.mp hmetadata
  obtain ⟨versions, hversions, hmetadata⟩ := bind_eq_ok_iff.mp hmetadata
  obtain ⟨classifiers, -, hmetadata⟩ := bind_eq_ok_iff.mp hmetadata
  cases hmetadata
  have hkeys := nodup_releases h hparts
  have hoffered : (offered includePre files).Nodup := hkeys.filter _
  have hshown : versions.Perm (offered includePre files) := by
    rw [offered_eq] at hversions
    exact perm_of_newestFirst hoffered (mapError_eq_ok_iff.mp hversions)
  have hfound := perm_of_latestFirst hsorted
  have hmap : unsorted.map Release.version = offered includePre files := by
    rw [map_version_of_mapM hunsorted, offered, List.filter_map]
    rfl
  have hread : ∀ one ∈ found, ∃ value, (one.version, value) ∈ files ∧ release one.version value = .ok one := by
    intro one hone
    obtain ⟨⟨version, value⟩, hmem, hrelease⟩ := exists_of_mem_of_mapM hunsorted (hfound.mem_iff.mp hone)
    exact ⟨value, version_of_release hrelease ▸ ⟨List.mem_of_mem_filter hmem, hrelease⟩⟩
  have hperm := (hfound.map Release.version).trans (hmap ▸ hshown.symm)
  have hwithdrawn : ∀ one ∈ found, one.isYanked = yanked.contains one.version := fun one hone =>
    let ⟨_, hmem, hrelease⟩ := hread one hone
    (contains_yanked_of_release hkeys (mapError_eq_ok_iff.mp hyanked) hmem hrelease).symm
  have hmarked : ∀ one ∈ found,
      one.isPreRelease = ((files.map Prod.fst).filter isPreRelease).contains one.version := fun one hone =>
    let ⟨_, hmem, hrelease⟩ := hread one hone
    (contains_preReleases_of_release hmem hrelease).symm
  exact ⟨hperm, hshown.nodup_iff.mpr hoffered, hwithdrawn, hmarked,
    PackageOverview.stableVersions_eq hperm hwithdrawn hmarked⟩

theorem hasDictionaries_of_carries {answer : IndexAnswer} (h : answer.Carries document) :
    (Json.object document).HasDictionaries := by
  obtain ⟨response, -, -, hjson⟩ := h
  obtain ⟨text, -, hread⟩ := Option.bind_eq_some_iff.mp hjson
  exact Json.hasDictionaries_of_read? hread

/-- **The views agree.** Whatever document an answer carries, with pre-releases or without them and however the
package is spelled: where there are both metadata and releases, they show the same versions with the same
marks. -/
theorem agreesWith_of_carries {answer : IndexAnswer} {overview : PackageOverview} {found : List Release}
    (hcarries : answer.Carries document) (hmetadata : metadata package document includePre = .ok overview)
    (hreleases : releases other document includePre = .ok found) : overview.AgreesWith found :=
  agreesWith_of_hasDictionaries (hasDictionaries_of_carries hcarries) hmetadata hreleases

/-- A release with a withdrawn file beside a release without files. -/
theorem agreesWith_of_carries_withdrawn :
    let text := "\x7b\"info\": \x7b\x7d, \"releases\": \x7b\"1.0\": [\x7b\"yanked\": 1\x7d], \"1.1\": []\x7d\x7d"
    let body := text.toList.map fun c => UInt8.ofNat c.toNat
    ∃ document overview found, (IndexAnswer.response { status := 200, body }).Carries document ∧
      metadata "Flask" document false = .ok overview ∧ releases "flask" document false = .ok found ∧
      overview.AgreesWith found ∧ overview.versions = ["1.1", "1.0"] ∧ overview.stableVersions = ["1.1"] := by
  intro text body
  have hread : (({ status := 200, body } : HttpResponse).json?.any fun value =>
      (membersOf value).toOption.any fun document =>
        ((metadata "Flask" document false).toOption.any fun overview =>
          overview.versions == ["1.1", "1.0"] && overview.stableVersions == ["1.1"]) &&
        (parts "flask" document).toOption.any fun (parts : Members × Members) =>
          ((parts.2.filter fun file => false || !isPreRelease file.1).mapM
            fun file => release file.1 file.2).toOption.any fun (unsorted : List Release) =>
              unsorted.all fun one => decide (NaturalVersion.IsReadable one.version.toList)) = true := by
    decide +kernel
  simp only [Option.any_eq_true, Bool.and_eq_true, toOption_eq_some_iff, beq_iff_eq, List.all_eq_true,
    decide_eq_true_eq] at hread
  obtain ⟨value, hjson, document, hdocument, ⟨overview, hmetadata, hversions, hstable⟩,
    ⟨fields, files⟩, hparts, unsorted, hunsorted, hreadable⟩ := hread
  obtain rfl : value = .object document := by
    cases value with
    | object members => rw [Except.ok.inj hdocument]
    | null | bool | number | string | array => cases hdocument
  have hcarries : (IndexAnswer.response { status := 200, body }).Carries document :=
    ⟨_, rfl, ⟨by decide, by decide⟩, hjson⟩
  obtain ⟨found, hfound⟩ := exists_latestFirst hreadable
  have hreleases : releases "flask" document false = .ok found :=
    releases_eq_ok_iff.mpr ⟨fields, files, unsorted, parts_eq_ok_iff.mp hparts, hunsorted, hfound⟩
  exact ⟨document, overview, found, hcarries, hmetadata, hreleases,
    agreesWith_of_carries hcarries hmetadata hreleases, hversions, hstable⟩

end Agreement

end PackageDocument

end ManifestLens
