import ManifestLens.Editor.Completion
import ManifestLens.Proofs.Version.Alignment
import Mathlib.Data.List.Nodup
import Mathlib.Data.String.Basic

/-!
# The order of completions

An editor shows completions in the order of their sort keys, which it compares as texts. A key is a mark for the rank
of a version and then four digits for its index, and four digits compare as the number they spell. So the keys put
rank before rank, and versions of one rank in the order in which the index of the package lists them.
-/

namespace ManifestLens

namespace Suggestion

/-! ### Digits in the order of texts -/

theorem lt_of_compare_eq_lt {a b : List Char}
    (h : compare (a.map Char.toNat) (b.map Char.toNat) = .lt) : a < b := by
  induction a generalizing b with
  | nil =>
      cases b with
      | nil => cases h
      | cons d more => exact .nil
  | cons c rest ih =>
      cases b with
      | nil => cases h
      | cons d more =>
          rw [List.map_cons, List.map_cons, List.compare_cons_cons, Ordering.then_eq_lt] at h
          rcases h with hlt | ⟨heq, hrest⟩
          · exact .rel (Nat.compare_eq_lt.mp hlt)
          · obtain rfl : c = d := Char.toNat_inj.mp (Nat.compare_eq_eq.mp heq)
            exact .cons (ih hrest)

theorem toList_fourDigits (n : Nat) : (fourDigits n).toList =
    List.replicate (4 - (Version.numberText n).length) '0' ++ Version.numberText n := by
  have hdigits : (toString n).toList = Version.numberText n := Nat.toList_repr
  rw [fourDigits, String.toList_append, String.toList_ofList, hdigits, ← String.length_toList, hdigits]

theorem isAsciiDigit_of_mem_fourDigits {n : Nat} {c : Char} (h : c ∈ (fourDigits n).toList) :
    Text.isAsciiDigit c = true := by
  rw [toList_fourDigits, List.mem_append] at h
  rcases h with hzero | hdigit
  · rw [List.eq_of_mem_replicate hzero]
    rfl
  · exact Version.isAsciiDigit_of_mem_numberText hdigit

theorem length_fourDigits {n : Nat} (h : n < 10000) : (fourDigits n).toList.length = 4 := by
  have hlength : (Version.numberText n).length ≤ 4 := (Nat.length_toDigits_le_iff (by decide) (by decide)).mpr h
  rw [toList_fourDigits, List.length_append, List.length_replicate]
  omega

theorem numberOf_fourDigits (n : Nat) : Version.numberOf (fourDigits n).toList = n := by
  have hzeros (count : Nat) : Version.numberOf (List.replicate count '0' ++ Version.numberText n) = n := by
    induction count with
    | zero => exact Version.numberOf_numberText n
    | succ count ih => exact ih
  rw [toList_fourDigits]
  exact hzeros _

theorem fourDigits_lt {m n : Nat} (h : m < n) (hn : n < 10000) : fourDigits m < fourDigits n := by
  have hlength : (fourDigits m).toList.length = (fourDigits n).toList.length := by
    rw [length_fourDigits (h.trans hn), length_fourDigits hn]
  have hdigits := NaturalVersion.compare_digits (fun _ => isAsciiDigit_of_mem_fourDigits)
    (fun _ => isAsciiDigit_of_mem_fourDigits) hlength 0 0
  apply String.lt_iff_toList_lt.mpr
  apply lt_of_compare_eq_lt
  calc compare ((fourDigits m).toList.map Char.toNat) ((fourDigits n).toList.map Char.toNat)
      = compare (Version.numberOf (fourDigits m).toList) (Version.numberOf (fourDigits n).toList) := hdigits.symm
    _ = compare m n := by rw [numberOf_fourDigits, numberOf_fourDigits]
    _ = .lt := Nat.compare_eq_lt.mpr h

/-! ### Sort keys -/

/-- The mark of a rank, with which its sort keys begin. -/
def Rank.mark : Rank → Char
  | .latest => '0'
  | .stable => '1'
  | .preRelease => '2'
  | .withdrawn => '9'

theorem Rank.exists_sortText (rank : Rank) (index : Nat) :
    ∃ rest, (rank.sortText index).toList = rank.mark :: rest := by
  cases rank with
  | latest => exact ⟨['0', '0', '0'], String.toList_ofList⟩
  | stable | preRelease | withdrawn => exact ⟨(fourDigits index).toList, String.toList_append⟩

theorem Rank.sortText_lt_of_mark {rank other : Rank} (h : rank.mark < other.mark) (i j : Nat) :
    rank.sortText i < other.sortText j := by
  obtain ⟨rest, hrank⟩ := rank.exists_sortText i
  obtain ⟨more, hother⟩ := other.exists_sortText j
  apply String.lt_iff_toList_lt.mpr
  rw [hrank, hother]
  exact .rel h

theorem Rank.sortText_lt_of_lt {rank : Rank} (hrank : rank ≠ .latest) {i j : Nat} (h : i < j) (hj : j < 10000) :
    rank.sortText i < rank.sortText j := by
  have hdigits := String.lt_iff_toList_lt.mp (fourDigits_lt h hj)
  apply String.lt_iff_toList_lt.mpr
  cases rank with
  | latest => exact absurd rfl hrank
  | stable | preRelease | withdrawn =>
      rw [Rank.sortText, Rank.sortText, String.toList_append, String.toList_append]
      exact .cons hdigits

/-! ### Items in the order of their keys -/

def sorted (items : List Suggestion) : List Suggestion :=
  items.mergeSort fun a b => a.sortText ≤ b.sortText

theorem nodup_sortTexts {shown : List Suggestion} (h : shown.Pairwise fun a b => a.sortText < b.sortText) :
    (shown.map (·.sortText)).Nodup := List.pairwise_map.mpr (h.imp ne_of_lt)

/-- Items that stand in the strict order of their keys are what any arrangement of them is sorted to. -/
theorem sorted_eq_of_perm {items shown : List Suggestion} (hperm : shown.Perm items)
    (hshown : shown.Pairwise fun a b => a.sortText < b.sortText) : sorted items = shown := by
  have hsorted : (sorted items).Pairwise fun a b => a.sortText ≤ b.sortText := by
    have hle : (sorted items).Pairwise fun a b => decide (a.sortText ≤ b.sortText) = true := by
      apply List.pairwise_mergeSort
      · exact fun a b c hab hbc => decide_eq_true (le_trans (of_decide_eq_true hab) (of_decide_eq_true hbc))
      · intro a b
        simpa using le_total a.sortText b.sortText
    exact hle.imp of_decide_eq_true
  have hsame : (sorted items).Perm shown := (List.mergeSort_perm items _).trans hperm.symm
  refine List.Perm.eq_of_pairwise (fun a b ha hb hab hba => ?_) hsorted (hshown.imp le_of_lt) hsame
  exact List.inj_on_of_nodup_map (nodup_sortTexts hshown) (hsame.mem_iff.mp ha) hb (le_antisymm hab hba)

/-! ### Ranks -/

section Rank

variable {α β : Type}

/-- The members of a list that rank behind the latest version, rank by rank. -/
def byRank (rank : α → Rank) (list : List α) : List α :=
  list.filter (rank · = .stable) ++ list.filter (rank · = .preRelease) ++ list.filter (rank · = .withdrawn)

theorem map_byRank (f : β → α) (rank : α → Rank) (list : List β) :
    (byRank (rank ∘ f) list).map f = byRank rank (list.map f) := by
  simp only [byRank, List.map_append, List.filter_map]
  rfl

theorem perm_byRank {rank : α → Rank} {list : List α} (h : ∀ x ∈ list, rank x ≠ .latest) :
    (byRank rank list).Perm list := by
  induction list with
  | nil => exact .refl _
  | cons x rest ih =>
      obtain ⟨hx, hrest⟩ := List.forall_mem_cons.mp h
      have hperm := (ih hrest).cons x
      simp only [byRank, List.append_assoc] at hperm ⊢
      cases hrank : rank x with
      | latest => exact absurd hrank hx
      | stable => simpa [hrank] using hperm
      | preRelease =>
          simp only [List.filter_cons, hrank]
          exact List.perm_middle.trans hperm
      | withdrawn =>
          simp only [List.filter_cons, hrank]
          rw [← List.append_assoc] at hperm ⊢
          exact List.perm_middle.trans hperm

/-- Rank by rank a list is in the order of its keys if the keys put rank before rank and each rank in order. -/
theorem pairwise_byRank {rank : α → Rank} {list : List α} {before : α → α → Prop}
    (hranks : ∀ x ∈ list, ∀ y ∈ list, (rank x).mark < (rank y).mark → before x y)
    (hsame : list.Pairwise fun x y => rank x = rank y → before x y) : (byRank rank list).Pairwise before := by
  have hwithin (r : Rank) : (list.filter (rank · = r)).Pairwise before := by
    rw [List.pairwise_filter]
    exact hsame.imp fun himp hx hy => himp (by simp_all)
  have hbetween (r other : Rank) (hmark : r.mark < other.mark) : ∀ x ∈ list.filter (rank · = r),
      ∀ y ∈ list.filter (rank · = other), before x y := by
    intro x hx y hy
    obtain ⟨hx, hrank⟩ := List.mem_filter.mp hx
    obtain ⟨hy, hother⟩ := List.mem_filter.mp hy
    apply hranks x hx y hy
    rwa [of_decide_eq_true hrank, of_decide_eq_true hother]
  refine List.pairwise_append.mpr ⟨List.pairwise_append.mpr ⟨hwithin _, hwithin _, ?_⟩, hwithin _, ?_⟩
  · exact hbetween _ _ (by decide)
  · intro x hx y hy
    rcases List.mem_append.mp hx with hstable | hpre
    · exact hbetween .stable .withdrawn (by decide) x hstable y hy
    · exact hbetween .preRelease .withdrawn (by decide) x hpre y hy

end Rank

end Suggestion

/-! ### The versions that are shown -/

namespace PackageOverview

variable (metadata : PackageOverview)

/-- What the index calls the latest version, if it is a text. -/
def latestText? : Option String := metadata.latest.asString?

def latestNamed? : Option String := metadata.latestText?.filter (· ≠ "")

/-- The index calls nothing the latest version, or a text. -/
def NamesTexts : Prop := metadata.latest.isTrue = true → ∃ version, metadata.latest = .string version

/-- The first 25 versions on offer that are not the one that the index calls the latest. -/
def runnersUp : List String := (metadata.versions.filter fun version => metadata.latestText? ≠ some version).take 25

/-- The versions as an editor shows them: the latest one, then of the others those that are stable, the
pre-releases, and the withdrawn ones, each in the order in which they are on offer. -/
def shown : List String :=
  metadata.latestNamed?.toList ++
    metadata.runnersUp.filter (fun version => !metadata.isYanked version && !metadata.isPreRelease version) ++
    metadata.runnersUp.filter (fun version => !metadata.isYanked version && metadata.isPreRelease version) ++
    metadata.runnersUp.filter metadata.isYanked

end PackageOverview

namespace Suggestion

variable {metadata : PackageOverview} {site : CompletionSite} {line : Int}

theorem rankOf_ne_latest (metadata : PackageOverview) (version : String) : rankOf metadata version ≠ .latest := by
  unfold rankOf
  split
  · exact nofun
  · split <;> exact nofun

theorem shown_eq (metadata : PackageOverview) :
    metadata.shown = metadata.latestNamed?.toList ++ byRank (rankOf metadata) metadata.runnersUp := by
  have hstable (version : String) : decide (rankOf metadata version = .stable) =
      (!metadata.isYanked version && !metadata.isPreRelease version) := by
    unfold rankOf
    cases metadata.isYanked version <;> cases metadata.isPreRelease version <;> rfl
  have hpre (version : String) : decide (rankOf metadata version = .preRelease) =
      (!metadata.isYanked version && metadata.isPreRelease version) := by
    unfold rankOf
    cases metadata.isYanked version <;> cases metadata.isPreRelease version <;> rfl
  have hwithdrawn (version : String) : decide (rankOf metadata version = .withdrawn) = metadata.isYanked version := by
    unfold rankOf
    cases metadata.isYanked version <;> cases metadata.isPreRelease version <;> rfl
  simp only [PackageOverview.shown, byRank, hstable, hpre, hwithdrawn, List.append_assoc]

def latestItem (metadata : PackageOverview) (site : CompletionSite) (line : Int) (version : String) : Suggestion :=
  ofVersion metadata site line version .latest 0

def otherItems (metadata : PackageOverview) (site : CompletionSite) (line : Int) : List Suggestion :=
  metadata.runnersUp.mapIdx fun index version => ofVersion metadata site line version (rankOf metadata version) index

theorem latestVersion?_of_namesTexts (h : metadata.NamesTexts) :
    latestVersion? metadata = .ok metadata.latestNamed? := by
  unfold latestVersion? PackageOverview.latestNamed? PackageOverview.latestText?
  cases hlatest : metadata.latest with
  | string version => by_cases hempty : version = "" <;> simp [hempty, Json.asString?, Option.filter]
  | _ =>
      have hfalse := Bool.eq_false_iff.mpr fun htrue => by simpa [hlatest] using h htrue
      rw [hlatest] at hfalse
      simp [hfalse, Json.asString?]

theorem namesTexts_of_latestVersion? {latest : Option String} (h : latestVersion? metadata = .ok latest) :
    metadata.NamesTexts := by
  intro htrue
  unfold latestVersion? at h
  cases hlatest : metadata.latest with
  | string version => exact ⟨version, rfl⟩
  | _ =>
      rw [hlatest] at h htrue
      simp [htrue] at h

theorem others_eq_runnersUp (metadata : PackageOverview) :
    others metadata metadata.latestText? = metadata.runnersUp := by
  rw [others, PackageOverview.runnersUp, maxOthers]
  congr 1
  refine List.filter_congr fun version _ => ?_
  rw [Bool.eq_iff_iff, bne_iff_ne, decide_eq_true_iff]
  exact ne_comm

theorem ofMetadata_eq_ok_iff {items : List Suggestion} : ofMetadata metadata site line = .ok items ↔
    metadata.NamesTexts ∧
      items = metadata.latestNamed?.toList.map (latestItem metadata site line) ++ otherItems metadata site line := by
  have hmade : ofMetadata metadata site line = (latestVersion? metadata).map fun latest =>
      latest.toList.map (latestItem metadata site line) ++ otherItems metadata site line := by
    rw [otherItems, ← others_eq_runnersUp]
    rfl
  rw [hmade]
  constructor
  · intro hitems
    obtain ⟨latest, hlatest, rfl⟩ := map_eq_ok_iff.mp hitems
    have htexts := namesTexts_of_latestVersion? hlatest
    rw [latestVersion?_of_namesTexts htexts] at hlatest
    cases hlatest
    exact ⟨htexts, rfl⟩
  · rintro ⟨htexts, rfl⟩
    rw [latestVersion?_of_namesTexts htexts]
    rfl

/-! ### What is shown -/

theorem mem_runnersUp {version : String} (h : version ∈ metadata.runnersUp) :
    version ∈ metadata.versions ∧ metadata.latestText? ≠ some version := by
  simpa using List.mem_filter.mp (List.mem_of_mem_take h)

theorem exists_of_mem_otherItems {item : Suggestion} (h : item ∈ otherItems metadata site line) :
    ∃ version index, index < 25 ∧ item = ofVersion metadata site line version (rankOf metadata version) index := by
  obtain ⟨index, hindex, rfl⟩ := List.mem_mapIdx.mp h
  exact ⟨_, index, hindex.trans_le (List.length_take_le ..), rfl⟩

theorem map_label_otherItems (metadata : PackageOverview) (site : CompletionSite) (line : Int) :
    (otherItems metadata site line).map (·.label) = metadata.runnersUp := by
  rw [otherItems, List.mapIdx_eq_zipIdx_map, List.map_map]
  exact List.zipIdx_map_fst 0 metadata.runnersUp

/-- Of two versions of one rank the one that is on offer first has the smaller key. -/
theorem pairwise_otherItems : (otherItems metadata site line).Pairwise fun a b =>
    rankOf metadata a.label = rankOf metadata b.label → a.sortText < b.sortText := by
  rw [List.pairwise_iff_getElem]
  intro i j hi hj hlt hrank
  simp only [otherItems, List.getElem_mapIdx] at hrank ⊢
  have hlength : (otherItems metadata site line).length ≤ 25 := by
    rw [otherItems, List.length_mapIdx]
    exact List.length_take_le ..
  simp only [ofVersion] at hrank ⊢
  rw [hrank]
  exact Rank.sortText_lt_of_lt (rankOf_ne_latest metadata _) hlt (by omega)

def shownItems (metadata : PackageOverview) (site : CompletionSite) (line : Int) : List Suggestion :=
  metadata.latestNamed?.toList.map (latestItem metadata site line) ++
    byRank (rankOf metadata ∘ label) (otherItems metadata site line)

theorem map_label_shownItems (metadata : PackageOverview) (site : CompletionSite) (line : Int) :
    (shownItems metadata site line).map (·.label) = metadata.shown := by
  have hlatest : (metadata.latestNamed?.toList.map (latestItem metadata site line)).map (·.label) =
      metadata.latestNamed?.toList := by
    rw [List.map_map]
    exact List.map_id _
  rw [shownItems, List.map_append, hlatest, shown_eq, ← map_label_otherItems metadata site line]
  congr 1
  exact map_byRank label (rankOf metadata) _

theorem perm_shownItems (metadata : PackageOverview) (site : CompletionSite) (line : Int) :
    (shownItems metadata site line).Perm
    (metadata.latestNamed?.toList.map (latestItem metadata site line) ++ otherItems metadata site line) :=
  (perm_byRank fun item _ => rankOf_ne_latest metadata item.label).append_left _

theorem pairwise_shownItems : (shownItems metadata site line).Pairwise fun a b => a.sortText < b.sortText := by
  refine List.pairwise_append.mpr ⟨?_, pairwise_byRank ?_ pairwise_otherItems, ?_⟩
  · cases metadata.latestNamed? with
    | none => exact .nil
    | some version => exact List.pairwise_singleton ..
  · intro a ha b hb hmark
    obtain ⟨version, i, -, rfl⟩ := exists_of_mem_otherItems ha
    obtain ⟨other, j, -, rfl⟩ := exists_of_mem_otherItems hb
    exact Rank.sortText_lt_of_mark hmark i j
  · intro a ha b hb
    obtain ⟨latest, -, rfl⟩ := List.mem_map.mp ha
    have hmem := (perm_byRank fun item _ => rankOf_ne_latest metadata item.label).mem_iff.mp hb
    obtain ⟨version, index, -, rfl⟩ := exists_of_mem_otherItems hmem
    apply Rank.sortText_lt_of_mark
    cases hrank : rankOf metadata version with
    | latest => exact absurd hrank (rankOf_ne_latest metadata version)
    | stable | preRelease | withdrawn => decide

/-- What the items for a place show of the metadata of a package. -/
structure Presents (items : List Suggestion) (metadata : PackageOverview) (site : CompletionSite) (line : Int) :
    Prop where
  /-- Sorted by their keys they are the versions in the order in which they are to be shown. -/
  ordered : (sorted items).map (·.label) = metadata.shown
  /-- No two keys are the same, so there is only one order. -/
  keys_nodup : (items.map (·.sortText)).Nodup
  /-- No version is offered twice. -/
  labels_nodup : (items.map (·.label)).Nodup
  /-- The versions are the latest one and the first others. -/
  mem_labels : ∀ version, version ∈ items.map (·.label) ↔
    metadata.latestNamed? = some version ∨ version ∈ metadata.runnersUp
  deprecated : ∀ item ∈ items, item.isDeprecated = true ↔ item.label ∈ metadata.yanked
  preselected : ∀ item ∈ items, item.isPreselected = true ↔ metadata.latestNamed? = some item.label
  inserted : ∀ item ∈ items, item.inserted =
    if site.needsOperator then String.ofList site.defaultOperator.text ++ item.label else item.label
  edit : ∀ item ∈ items, item.edit = ⟨line, site.replace, item.inserted.toList⟩

theorem mem_items {item : Suggestion}
    (h : item ∈ metadata.latestNamed?.toList.map (latestItem metadata site line) ++ otherItems metadata site line) :
    ∃ rank index, item = ofVersion metadata site line item.label rank index ∧
      (rank = .latest ↔ metadata.latestNamed? = some item.label) := by
  rcases List.mem_append.mp h with hlatest | hother
  · obtain ⟨version, hversion, rfl⟩ := List.mem_map.mp hlatest
    exact ⟨.latest, 0, rfl, iff_of_true rfl (Option.mem_toList.mp hversion)⟩
  · have hlabel : item.label ∈ metadata.runnersUp := by
      rw [← map_label_otherItems metadata site line]
      exact List.mem_map_of_mem hother
    obtain ⟨version, index, -, rfl⟩ := exists_of_mem_otherItems hother
    refine ⟨rankOf metadata version, index, rfl, iff_of_false (rankOf_ne_latest metadata version) fun hlatest => ?_⟩
    exact (mem_runnersUp hlabel).2 (Option.filter_eq_some_iff.mp hlatest).1

theorem perm_labels : ((metadata.latestNamed?.toList.map (latestItem metadata site line) ++
    otherItems metadata site line).map (·.label)).Perm (metadata.latestNamed?.toList ++ metadata.runnersUp) := by
  have hshown := (perm_shownItems metadata site line).map fun item => item.label
  rw [map_label_shownItems, shown_eq] at hshown
  exact hshown.symm.trans ((perm_byRank fun version _ => rankOf_ne_latest metadata version).append_left _)

theorem nodup_latest_runnersUp (hversions : metadata.versions.Nodup) :
    (metadata.latestNamed?.toList ++ metadata.runnersUp).Nodup := by
  have hothers : metadata.runnersUp.Nodup := (hversions.filter _).sublist (List.take_sublist _ _)
  cases hlatest : metadata.latestNamed? with
  | none => exact hothers
  | some version =>
      refine List.nodup_cons.mpr ⟨fun hother => ?_, hothers⟩
      exact (mem_runnersUp hother).2 (Option.filter_eq_some_iff.mp hlatest).1

theorem presents_items (hversions : metadata.versions.Nodup) : Presents
    (metadata.latestNamed?.toList.map (latestItem metadata site line) ++ otherItems metadata site line)
    metadata site line where
  ordered := by rw [sorted_eq_of_perm (perm_shownItems metadata site line) pairwise_shownItems, map_label_shownItems]
  keys_nodup := ((perm_shownItems metadata site line).map _).nodup_iff.mp (nodup_sortTexts pairwise_shownItems)
  labels_nodup := perm_labels.nodup_iff.mpr (nodup_latest_runnersUp hversions)
  mem_labels version := by rw [perm_labels.mem_iff, List.mem_append, Option.mem_toList]
  deprecated item hitem := by
    obtain ⟨rank, index, heq, -⟩ := mem_items hitem
    rw [heq]
    exact List.contains_iff_mem
  preselected item hitem := by
    obtain ⟨rank, index, heq, hrank⟩ := mem_items hitem
    rw [← hrank, heq]
    exact decide_eq_true_iff
  inserted item hitem := by
    obtain ⟨rank, index, heq, -⟩ := mem_items hitem
    rw [heq]
    simp only [ofVersion, operatorText]
    split
    · rfl
    · exact String.empty_append
  edit item hitem := by
    obtain ⟨rank, index, heq, -⟩ := mem_items hitem
    rw [heq]
    rfl

/-- **Completions in the order of their keys.** Items are offered as long as the index calls nothing the latest
version, or a text. Of versions that are all different an editor then shows the latest one first, then the others that
are stable, the pre-releases, and the withdrawn ones, each in the order in which they are on offer. -/
theorem ofMetadata_presents (metadata : PackageOverview) (site : CompletionSite) (line : Int)
    (hversions : metadata.versions.Nodup) :
    ((∃ items, ofMetadata metadata site line = .ok items) ↔ metadata.NamesTexts) ∧
      ∀ items, ofMetadata metadata site line = .ok items → Presents items metadata site line := by
  refine ⟨⟨?_, fun htexts => ⟨_, ofMetadata_eq_ok_iff.mpr ⟨htexts, rfl⟩⟩⟩, ?_⟩
  · rintro ⟨items, hitems⟩
    exact (ofMetadata_eq_ok_iff.mp hitems).1
  · intro items hitems
    obtain ⟨-, rfl⟩ := ofMetadata_eq_ok_iff.mp hitems
    exact presents_items hversions

/-- A pre-release before the latest version, a withdrawn pre-release, and a name behind which an operator is needed. -/
theorem ofMetadata_presents_mixture :
    let metadata : PackageOverview :=
      { name := .string "flask", versions := ["3.0rc1", "2.0", "1.9", "1.8b1", "1.0"], latest := .string "2.0"
        summary := .null, classifiers := [], requiresPython := .null, yanked := ["1.9", "1.8b1"]
        preReleases := ["3.0rc1", "1.8b1"] }
    let site : CompletionSite :=
      { dependency :=
          { name := "flask".toList, constraint := [], span := ⟨5, 0⟩, nameSpan := ⟨0, 5⟩, line := 0, group := .main
            dialect := .requirementsLine, extras := [] }
        replace := ⟨5, 0⟩, typed := [], needsOperator := true, defaultOperator := .standard .compatible }
    metadata.versions.Nodup ∧ metadata.NamesTexts ∧
      (∃ items, ofMetadata metadata site 0 = .ok items ∧ Presents items metadata site 0) ∧
      metadata.shown = ["2.0", "1.0", "3.0rc1", "1.9", "1.8b1"] := by
  intro metadata site
  have hversions : metadata.versions.Nodup := by decide
  have htexts : metadata.NamesTexts := fun _ => ⟨"2.0", rfl⟩
  obtain ⟨hoffered, hpresents⟩ := ofMetadata_presents metadata site 0 hversions
  obtain ⟨items, hitems⟩ := hoffered.mpr htexts
  exact ⟨hversions, htexts, ⟨items, hitems, hpresents items hitems⟩, by decide⟩

end Suggestion

end ManifestLens
