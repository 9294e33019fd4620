import ManifestLens.Proofs.Index.Versions
import ManifestLens.Proofs.Version.Comparable
import ManifestLens.Proofs.Version.PreRelease

/-!
# The order of a release list

The list of releases is sorted by version and then by date, each time turned round and each time stably. So it
is sorted by four keys: whether a release has a date, the date, the version, and the place of the release in the
document. The date of a release is the earliest moment among those that its files state, as far as they can be
read; moments compare by their instants, whatever offsets they are written with.
-/

namespace ManifestLens

/-! ### Moments without an offset -/

namespace IsoTime

/-- What stands behind the date and one separator. -/
def timePart (text : List Char) : List Char :=
  let bytes := (Text.Utf8.encode text).map fun b => Char.ofNat b.toNat
  match bytes.drop (dateLength bytes) with
  | [] => []
  | separator :: rest => (separator :: rest).drop (characterBytes separator.toNat)

/-- A moment is written without an offset: no sign of one stands in its time. -/
def IsNaive (text : List Char) : Prop := ∀ c ∈ timePart text, startsOffset c = false

instance : DecidablePred IsNaive := fun text =>
  inferInstanceAs (Decidable (∀ c ∈ timePart text, startsOffset c = false))

theorem time?_of_naive {text : List Char} (h : ∀ c ∈ text, startsOffset c = false) {clock : Clock}
    {offset : Option Int} (htime : time? text = some (clock, offset)) : offset = none := by
  have hbefore : (text.takeWhile fun c => !startsOffset c) = text :=
    List.takeWhile_eq_self_iff.mpr fun c hc => by simp [h c hc]
  simp only [time?, hbefore, List.drop_length, Option.bind_eq_bind] at htime
  obtain ⟨⟨found, whole⟩, -, htime⟩ := Option.bind_eq_some_iff.mp htime
  dsimp only at htime
  split at htime
  · cases htime
    rfl
  · cases htime

/-- **A moment without an offset** is one of universal time. -/
theorem offset_of_isNaive {text : List Char} {moment : DateTime} (h : parse? text = some moment)
    (hnaive : IsNaive text) : moment.offset = 0 := by
  rw [parse?] at h
  split at h
  · cases h
  · dsimp only at h
    obtain ⟨⟨year, month, day⟩, -, h⟩ := Option.bind_eq_some_iff.mp h
    rw [IsNaive, timePart] at hnaive
    dsimp only at h hnaive
    split at h
    · obtain ⟨⟨clock, offset⟩, htime, h⟩ := Option.bind_eq_some_iff.mp h
      cases htime
      cases (Option.ite_none_right_eq_some.mp h).2
      rfl
    · next separator rest hrest =>
        obtain ⟨⟨clock, offset⟩, htime, h⟩ := Option.bind_eq_some_iff.mp h
        cases (Option.ite_none_right_eq_some.mp h).2
        simp only [hrest] at htime hnaive
        rw [time?_of_naive hnaive htime]
        rfl

end IsoTime

namespace PackageDocument

variable {package : String} {document fields files : Members} {includePre : Bool}

/-! ### The date of a release -/

/-- What a file gives as the time of its upload: the first of two fields that counts as true. -/
def uploadField (file : Members) : Json :=
  (Json.memberOrNull file "upload_time_iso_8601").orElse (Json.memberOrNull file "upload_time")

/-- The moments that files state are the ones that date their release. -/
structure IsDatedBy (files : List Members) (released : Option DateTime) : Prop where
  /-- Without a date there is no file that states a moment. -/
  undated_iff : released = none ↔ ∀ file ∈ files, uploadTime? (uploadField file) = none
  stated : ∀ moment, released = some moment → ∃ file ∈ files, uploadTime? (uploadField file) = some moment
  earliest : ∀ moment, released = some moment → ∀ file ∈ files, ∀ other,
    uploadTime? (uploadField file) = some other → moment.instant ≤ other.instant
  /-- A moment without an offset is one of universal time. -/
  universal : ∀ file ∈ files, ∀ text moment, uploadField file = .string text →
    uploadTime? (.string text) = some moment →
    IsoTime.IsNaive (Text.replaceChar 'Z' "+00:00".toList text.toList) → moment.offset = 0

/-- The earlier of two moments, the first one if they are the same instant. -/
def earlier (best other : DateTime) : DateTime := if other.instant < best.instant then other else best

theorem instant_earlier (best other : DateTime) :
    (earlier best other).instant ≤ best.instant ∧ (earlier best other).instant ≤ other.instant := by
  unfold earlier
  split <;> omega

theorem foldl_earlier (best : DateTime) (moments : List DateTime) :
    moments.foldl earlier best ∈ best :: moments ∧
      ∀ other ∈ best :: moments, (moments.foldl earlier best).instant ≤ other.instant := by
  induction moments generalizing best with
  | nil => simp
  | cons moment rest ih =>
      obtain ⟨hmem, hleast⟩ := ih (earlier best moment)
      have hfirst := hleast _ (List.mem_cons_self ..)
      have hbounds := instant_earlier best moment
      rw [List.foldl_cons]
      refine ⟨?_, fun other hother => ?_⟩
      · have hchoice : earlier best moment = moment ∨ earlier best moment = best := by
          unfold earlier
          split
          · exact .inl rfl
          · exact .inr rfl
        rcases List.mem_cons.mp hmem with hmem | hmem
        · rw [hmem]
          rcases hchoice with h | h <;> simp [h]
        · exact List.mem_cons_of_mem _ (List.mem_cons_of_mem _ hmem)
      · rcases List.mem_cons.mp hother with rfl | hother
        · exact Int.le_trans hfirst hbounds.1
        · rcases List.mem_cons.mp hother with rfl | hother
          · exact Int.le_trans hfirst hbounds.2
          · exact hleast other (List.mem_cons_of_mem _ hother)

theorem earliest_eq_none_iff {moments : List DateTime} : earliest moments = none ↔ moments = [] := by
  cases moments <;> simp [earliest]

theorem earliest_eq_some {moments : List DateTime} {moment : DateTime} (h : earliest moments = some moment) :
    moment ∈ moments ∧ ∀ other ∈ moments, moment.instant ≤ other.instant := by
  cases moments with
  | nil => cases h
  | cons first rest =>
      cases h
      exact foldl_earlier first rest

theorem isDatedBy_earliest (files : List Members) :
    IsDatedBy files (earliest (files.filterMap fun file => uploadTime? (uploadField file))) where
  undated_iff := by
    rw [earliest_eq_none_iff, List.filterMap_eq_nil_iff]
  stated moment h := by
    obtain ⟨file, hfile, hmoment⟩ := List.mem_filterMap.mp (earliest_eq_some h).1
    exact ⟨file, hfile, hmoment⟩
  earliest moment h file hfile other hother :=
    (earliest_eq_some h).2 other (List.mem_filterMap.mpr ⟨file, hfile, hother⟩)
  universal _ _ _ _ _ hmoment hnaive := IsoTime.offset_of_isNaive hmoment hnaive

theorem isDatedBy_of_release {version : String} {value : Json} {one : Release}
    (h : release version value = .ok one) : ∃ elements files,
      elementsOf value = .ok elements ∧ elements.mapM membersOf = .ok files ∧ IsDatedBy files one.released := by
  obtain ⟨elements, helements, h⟩ := bind_eq_ok_iff.mp h
  obtain ⟨files, hfiles, h⟩ := bind_eq_ok_iff.mp h
  cases h
  exact ⟨elements, files, helements, hfiles, isDatedBy_earliest files⟩

/-! ### The order -/

/-- One release comes before another one in a list of which the document has the given keys. -/
inductive Precedes (keys : List String) (a b : Release) : Prop
  /-- Only the first one has a date. -/
  | dated (hfirst : a.released.isSome = true) (hsecond : b.released = none)
  /-- The first one has the later date. -/
  | later {first second : DateTime} (hfirst : a.released = some first) (hsecond : b.released = some second)
      (hlater : second.instant < first.instant)
  /-- Of two releases of one date, or without any, the first one has the higher version. -/
  | higher (hdate : dateKey a = dateKey b)
      (hversion : NaturalVersion.compare a.version.toList b.version.toList = .ok .gt)
  /-- Of two such releases of equal versions, the first one comes first in the document. -/
  | listed (hdate : dateKey a = dateKey b)
      (hversion : NaturalVersion.compare a.version.toList b.version.toList = .ok .eq)
      (hkeys : keys.idxOf a.version < keys.idxOf b.version)

/-- Versions from the newest to the oldest. -/
def byVersion (a b : Release) : Ordering := NaturalVersion.order b.version.toList a.version.toList

/-- Dates from the latest to the earliest, and then none. -/
def byDate (a b : Release) : Ordering := compare (dateKey b) (dateKey a)

instance : Std.TransCmp byVersion :=
  have : Std.TransCmp fun a b : List Char => NaturalVersion.order b a := Std.TransCmp.opposite
  NaturalVersion.transCmp_of_key (fun a b : List Char => NaturalVersion.order b a)
    fun one : Release => one.version.toList

instance : Std.TransCmp byDate :=
  have : Std.TransCmp fun a b : Option Int => compare b a := Std.TransCmp.opposite
  NaturalVersion.transCmp_of_key (fun a b : Option Int => compare b a) dateKey

/-- **Sorting twice.** The releases are sorted by date and then by version, every two versions of them can be
compared, and what is equal in both stays as it came in. -/
theorem isStableSort_of_latestFirst {found sorted : List Release} (h : latestFirst found = .ok sorted) :
    (found.Pairwise fun a b => ∃ result,
        NaturalVersion.compare a.version.toList b.version.toList = .ok result) ∧
      IsStableSort (compareLex byDate byVersion) found sorted := by
  obtain ⟨versions, hversions, h⟩ := bind_eq_ok_iff.mp h
  cases h
  obtain ⟨hcomparable, hstable⟩ :=
    NaturalVersion.isStableSort_of_sortDescending (fun one : Release => one.version.toList) hversions
  have hdated : IsStableSort byDate versions
      (versions.mergeSort fun a b => isAsLate (dateKey a) (dateKey b)) := by
    simp only [isAsLate_eq]
    exact IsStableSort.mergeSort versions
  exact ⟨hcomparable, hstable.lexicographic hdated⟩

theorem dateKey_of_byDate_eq {a b : Release} (h : byDate a b = .eq) : dateKey a = dateKey b :=
  (Std.LawfulEqCmp.eq_of_compare (show compare (dateKey b) (dateKey a) = .eq from h)).symm

theorem precedes_of_byDate_lt {keys : List String} {a b : Release} (h : byDate a b = .lt) :
    Precedes keys a b := by
  unfold byDate dateKey at h
  cases ha : a.released with
  | none =>
      rw [ha] at h
      cases hb : b.released <;> simp [hb] at h
  | some first =>
      cases hb : b.released with
      | none => exact .dated (by simp [ha]) hb
      | some second =>
          rw [ha, hb] at h
          have hlt : compare second.instant first.instant = .lt := h
          exact .later ha hb (Int.compare_eq_lt.mp hlt)

/-- Later keys of a document stand behind earlier ones. -/
theorem pairwise_idxOf {keys : List String} (h : keys.Nodup) :
    keys.Pairwise fun a b => keys.idxOf a < keys.idxOf b := by
  refine List.pairwise_iff_getElem.mpr fun i j hi hj hij => ?_
  rwa [h.idxOf_getElem, h.idxOf_getElem]

theorem pairwise_precedes {keys : List String} {found sorted : List Release} (hkeys : keys.Nodup)
    (hfound : (found.map Release.version).Sublist keys) (h : latestFirst found = .ok sorted) :
    sorted.Pairwise (Precedes keys) := by
  obtain ⟨hcomparable, hstable⟩ := isStableSort_of_latestFirst h
  have hcompared : sorted.Pairwise fun a b => ∃ result,
      NaturalVersion.compare a.version.toList b.version.toList = .ok result :=
    ((perm_of_latestFirst h).pairwise_iff fun ⟨result, hresult⟩ =>
      ⟨result.swap, NaturalVersion.compare_swap hresult⟩).mpr hcomparable
  have hplaces : found.Pairwise fun a b => keys.idxOf a.version < keys.idxOf b.version :=
    List.pairwise_map (f := Release.version).mp ((pairwise_idxOf hkeys).sublist hfound)
  have hequal := hstable.pairwise_of_eq hplaces
  refine (hcompared.and (hstable.ordered.and hequal)).imp fun {a b} ⟨⟨result, hresult⟩, hle, heq⟩ => ?_
  -- The version decides only between releases of one date, and the document only between equal versions.
  have hversion : byVersion a b = result.swap := by
    rw [← NaturalVersion.order_of_compare hresult]
    exact Std.OrientedCmp.eq_swap
  cases hdate : byDate a b with
  | lt => exact precedes_of_byDate_lt hdate
  | gt => simp [compareLex, hdate] at hle
  | eq =>
      have hlex : compareLex byDate byVersion a b = result.swap := by
        rw [compareLex, hdate, hversion]
        rfl
      rw [hlex] at hle heq
      cases result with
      | lt => cases hle
      | eq => exact .listed (dateKey_of_byDate_eq hdate) hresult (heq rfl)
      | gt => exact .higher (dateKey_of_byDate_eq hdate) hresult

/-- **The order of a release list.** Whatever document an answer carries, with pre-releases or without them: where
a release list is made, it holds a release for every version on offer; releases with a date come before those
without one, later dates before earlier ones, of one date higher versions before lower ones, and equal versions
stand in the order of the document. The date of a release is the earliest moment that its files state, and it has
none if no file states a moment that can be read. -/
theorem releases_ordered {answer : IndexAnswer} {found : List Release} (hcarries : answer.Carries document)
    (hreleases : releases package document includePre = .ok found) :
    ∃ fields files, HasParts document fields files ∧
      (found.map Release.version).Perm (offered includePre files) ∧
      found.Pairwise (Precedes (files.map Prod.fst)) ∧
      ∀ one ∈ found, ∃ value elements uploads, (one.version, value) ∈ files ∧
        elementsOf value = .ok elements ∧ elements.mapM membersOf = .ok uploads ∧
        IsDatedBy uploads one.released := by
  obtain ⟨fields, files, unsorted, hparts, hunsorted, hsorted⟩ := releases_eq_ok_iff.mp hreleases
  have hmap : unsorted.map Release.version = offered includePre files := by
    rw [map_version_of_mapM hunsorted, offered, List.filter_map]
    rfl
  have hperm := perm_of_latestFirst hsorted
  refine ⟨fields, files, hparts, hmap ▸ hperm.map Release.version, ?_, fun one hone => ?_⟩
  · exact pairwise_precedes (nodup_releases (hasDictionaries_of_carries hcarries) hparts) (hmap ▸ List.filter_sublist) hsorted
  · obtain ⟨⟨version, value⟩, hmem, hrelease⟩ := exists_of_mem_of_mapM hunsorted (hperm.mem_iff.mp hone)
    obtain ⟨elements, uploads, helements, huploads, hdated⟩ := isDatedBy_of_release hrelease
    rw [version_of_release hrelease]
    exact ⟨value, elements, uploads, List.mem_of_mem_filter hmem, helements, huploads, hdated⟩

theorem mergeSort_pair {α : Type} (le : α → α → Bool) (a b : α) :
    [a, b].mergeSort le = if le a b then [a, b] else [b, a] := by
  simp [List.mergeSort, List.merge]

/-- A release of noon, written with an offset beside a text that states no moment, and an older version of half
an hour later, written without an offset. -/
theorem releases_ordered_offset :
    let text := "\x7b\"info\": \x7b\x7d, \"releases\": \x7b" ++
      "\"1.1\": [\x7b\"upload_time\": \"soon\"\x7d, \x7b\"upload_time\": \"2024-01-01T13:00:00+01:00\"\x7d], " ++
      "\"1.0\": [\x7b\"upload_time_iso_8601\": \"\", \"upload_time\": \"2024-01-01T12:30:00\"\x7d]\x7d\x7d"
    let body := text.toList.map fun c => UInt8.ofNat c.toNat
    ∃ document found, (IndexAnswer.response { status := 200, body }).Carries document ∧
      releases "flask" document false = .ok found ∧ found.map Release.version = ["1.0", "1.1"] ∧
      ∃ fields files, HasParts document fields files ∧ found.Pairwise (Precedes (files.map Prod.fst)) := by
  intro text body
  have hread : (({ status := 200, body } : HttpResponse).json?.any fun value =>
      (membersOf value).toOption.any fun document =>
        (parts "flask" document).toOption.any fun (parts : Members × Members) =>
          ((parts.2.filter fun file => false || !isPreRelease file.1).mapM
            fun file => release file.1 file.2).toOption.any fun (unsorted : List Release) =>
              (sortDescending (fun (a b : Release) => do
                return (← NaturalVersion.compare a.version.toList b.version.toList) == .lt)
                  unsorted).toOption.any fun (versions : List Release) =>
                    versions.map Release.version == ["1.1", "1.0"] &&
                      (versions.zip versions.tail).all fun (a, b) => !isAsLate (dateKey a) (dateKey b)) = true := by
    decide +kernel
  simp only [Option.any_eq_true, Bool.and_eq_true, toOption_eq_some_iff, beq_iff_eq] at hread
  obtain ⟨value, hjson, document, hdocument, ⟨fields, files⟩, hparts, unsorted, hunsorted, versions, hversions,
    hnames, hdates⟩ := hread
  obtain rfl : value = .object document := by
    cases value with
    | object members => rw [Except.ok.inj hdocument]
    | null | bool | number | string | array => cases hdocument
  have hcarries : (IndexAnswer.response { status := 200, body }).Carries document :=
    ⟨_, rfl, ⟨by decide, by decide⟩, hjson⟩
  obtain ⟨a, b, rfl⟩ : ∃ a b, versions = [a, b] :=
    List.length_eq_two.mp (by simpa using congrArg List.length hnames)
  simp only [List.map_cons, List.map_nil, List.cons.injEq, and_true] at hnames
  simp only [List.tail_cons, List.zip_cons_cons, List.zip_nil_right, List.all_cons, List.all_nil,
    Bool.and_true, Bool.not_eq_true'] at hdates
  have hlatest : latestFirst unsorted = .ok [b, a] := by
    refine bind_eq_ok_iff.mpr ⟨[a, b], hversions, ?_⟩
    rw [mergeSort_pair, hdates]
    rfl
  have hfound : releases "flask" document false = .ok [b, a] :=
    releases_eq_ok_iff.mpr ⟨fields, files, unsorted, parts_eq_ok_iff.mp hparts, hunsorted, hlatest⟩
  obtain ⟨fields, files, hhas, -, hprecedes, -⟩ := releases_ordered hcarries hfound
  exact ⟨document, [b, a], hcarries, hfound, by simp [hnames], fields, files, hhas, hprecedes⟩

end PackageDocument

end ManifestLens

/-!
## The versions that the stable view keeps

The views without pre-releases leave out what a search of the version text finds to be marked as one. Where the text
is a version of the packaging standard, the search agrees with the standard, so the views keep every final release and
every post-release that a document lists.
-/

namespace ManifestLens

namespace PackageDocument

variable {package version : String} {document fields files : Members} {includePre : Bool}

/-- The views that are made of a document list the version, and not as a pre-release. -/
structure Shows (document : Members) (includePre : Bool) (version : String) : Prop where
  metadata : ∀ package overview, metadata package document includePre = .ok overview →
    version ∈ overview.versions ∧ overview.isPreRelease version = false
  releases : ∀ package found, releases package document includePre = .ok found →
    ∃ one ∈ found, one.version = version ∧ one.isPreRelease = false

theorem mem_newestFirst {versions sorted : List String} (h : newestFirst versions = .ok sorted) :
    version ∈ sorted ↔ version ∈ versions := by
  obtain ⟨texts, htexts, hsorted⟩ := bind_eq_ok_iff.mp h
  cases hsorted
  rw [NaturalVersion.sort, if_pos rfl] at htexts
  have hperm := perm_of_sortDescending htexts
  rw [List.mem_map]
  constructor
  · rintro ⟨text, htext, rfl⟩
    have hmem := List.mem_eraseDups.mp (hperm.mem_iff.mp htext)
    obtain ⟨same, hsame, rfl⟩ := List.mem_map.mp hmem
    rwa [String.ofList_toList]
  · intro hversion
    refine ⟨version.toList, hperm.mem_iff.mpr (List.mem_eraseDups.mpr ?_), String.ofList_toList⟩
    exact List.mem_map_of_mem hversion

theorem mem_offered (hlisted : version ∈ files.map Prod.fst) (hpre : isPreRelease version = false) :
    version ∈ offered includePre files := by
  rw [offered, List.mem_filter]
  exact ⟨hlisted, by rw [hpre, Bool.not_false, Bool.or_true]⟩

/-- What is not marked as a pre-release is in the views of every document that lists it. -/
theorem shows_of_isPreRelease (hparts : HasParts document fields files) (hlisted : version ∈ files.map Prod.fst)
    (hpre : isPreRelease version = false) : Shows document includePre version := by
  constructor
  · intro package overview hmetadata
    obtain ⟨⟨fields, files⟩, hsame, hmetadata⟩ := bind_eq_ok_iff.mp hmetadata
    cases (parts_eq_ok_iff.mpr hparts).symm.trans hsame
    obtain ⟨yanked, -, hmetadata⟩ := bind_eq_ok_iff.mp hmetadata
    obtain ⟨versions, hversions, hmetadata⟩ := bind_eq_ok_iff.mp hmetadata
    obtain ⟨classifiers, -, hmetadata⟩ := bind_eq_ok_iff.mp hmetadata
    cases hmetadata
    rw [offered_eq] at hversions
    constructor
    · exact (mem_newestFirst (mapError_eq_ok_iff.mp hversions)).mpr (mem_offered hlisted hpre)
    · rw [PackageOverview.isPreRelease, Bool.eq_false_iff, Ne, List.contains_iff_mem, List.mem_filter, hpre]
      simp
  · intro package found hreleases
    obtain ⟨fields, files, unsorted, hsame, hunsorted, hsorted⟩ := releases_eq_ok_iff.mp hreleases
    have hread : parts package document = .ok (fields, files) := parts_eq_ok_iff.mpr hsame
    cases (parts_eq_ok_iff.mpr hparts).symm.trans hread
    have hmap : unsorted.map Release.version = offered includePre files := by
      rw [map_version_of_mapM hunsorted, offered, List.filter_map]
      rfl
    have hoffered : version ∈ unsorted.map Release.version := hmap ▸ mem_offered hlisted hpre
    obtain ⟨one, hone, rfl⟩ := List.mem_map.mp hoffered
    refine ⟨one, (perm_of_latestFirst hsorted).mem_iff.mpr hone, rfl, ?_⟩
    obtain ⟨⟨version, value⟩, -, hrelease⟩ := exists_of_mem_of_mapM hunsorted hone
    rw [version_of_release hrelease] at hpre
    rw [isPreRelease_of_release hrelease, hpre]

/-- **Pre-releases and the standard.** A text that spells a version without a local segment is taken for a pre-release
just if the standard does, as long as a post-release in it carries a number. With a number or without one, every view
of a document that lists a final release or a post-release shows it. -/
theorem isPreRelease_of_parse {v : Version} (h : Version.parse? version.toList = some v) (hlocal : v.localParts = []) :
    (Version.numbersPost version.toList = true → isPreRelease version = v.isPrerelease) ∧
    (v.isPrerelease = false → isPreRelease version = false ∧
      ∀ document fields files includePre, HasParts document fields files → version ∈ files.map Prod.fst →
        Shows document includePre version) := by
  have hmarked := NaturalVersion.isPreRelease_iff_of_parse h hlocal
  constructor
  · intro hnumbers
    rw [hnumbers] at hmarked
    rw [Bool.eq_iff_iff, isPreRelease, hmarked, Version.isPrerelease, Bool.or_eq_true]
    simp
  · intro hstable
    rw [Version.isPrerelease, Bool.or_eq_false_iff] at hstable
    have hpre : isPreRelease version = false := by
      rw [Bool.eq_false_iff, Ne, isPreRelease, hmarked, hstable.1, hstable.2]
      simp
    exact ⟨hpre, fun document fields files includePre hparts hlisted => shows_of_isPreRelease hparts hlisted hpre⟩

/-- A number behind a hyphen is a post-release, and the letters behind it a development release of that. -/
theorem isPreRelease_of_parse_hyphen :
    let document : Members := [("info", .object []), ("releases", .object
      [("1.0-2", .array []), ("1.0-2DEV", .array [])])]
    isPreRelease "1.0-2DEV" = true ∧
      ∃ overview, metadata "Flask" document false = .ok overview ∧ "1.0-2" ∈ overview.versions := by
  intro document
  have hpost : Version.parse? "1.0-2".toList = some ⟨0, 1, [0], none, some 2, none, []⟩ := by decide +kernel
  have hdev : Version.parse? "1.0-2DEV".toList = some ⟨0, 1, [0], none, some 2, some 0, []⟩ := by decide +kernel
  have hview : (metadata "Flask" document false).toOption.isSome = true := by decide +kernel
  obtain ⟨overview, hoverview⟩ := Option.isSome_iff_exists.mp hview
  rw [toOption_eq_some_iff] at hoverview
  constructor
  · exact (isPreRelease_of_parse hdev rfl).1 (by decide +kernel)
  · obtain ⟨-, hshows⟩ := (isPreRelease_of_parse hpost rfl).2 rfl
    have hparts : HasParts document [] [("1.0-2", .array []), ("1.0-2DEV", .array [])] := ⟨rfl, rfl⟩
    exact ⟨overview, hoverview, ((hshows _ _ _ false hparts (by simp)).metadata _ _ hoverview).1⟩

end PackageDocument

end ManifestLens
