import ManifestLens.Config.Basic
import ManifestLens.Proofs.Config.Options
import ManifestLens.Proofs.Index.Url

/-!
# Valid configurations

Validation brings the URL of the index into its normal form and then moves one option after another into its range.
The options are different ones, so each is moved as if it were the only one. It fails just where the URL cannot be
taken apart, and what it gives is valid, and valid when it is validated again, just where this holds of the normal
form of the URL.
-/

namespace ManifestLens

namespace OptionValue

/-- An integer moved into a range. -/
def clamped (low high : Int) : OptionValue → OptionValue
  | .integer value => .integer (Config.clamp low high value)
  | value => value

def isWithin (low high : Int) : OptionValue → Bool
  | .integer value => low ≤ value && value ≤ high
  | _ => true

variable {low high : Int} {value : OptionValue}

theorem clamped_eq_self_iff (hrange : low ≤ high) :
    value.clamped low high = value ↔ value.isWithin low high = true := by
  cases value with
  | integer n =>
      simp only [clamped, Config.clamp, isWithin, OptionValue.integer.injEq, Bool.and_eq_true, decide_eq_true_eq]
      omega
  | text | flag | other => simp [clamped, isWithin]

end OptionValue

namespace Config

/-- An option with the ends of its range. -/
abbrev Range := ConfigOption × Int × Int

variable {config after : Config} {corrections : List ConfigCorrection} {option other : ConfigOption} {low high : Int}
  {fault : UrlFault}

/-! ### Ranges -/

theorem exists_set?_clamped (config : Config) (option : ConfigOption) (low high : Int) :
    ∃ after, option.set? config ((option.valueIn config).clamped low high) = some after := by
  cases option <;> exact ⟨_, rfl⟩

/-- What has become of a configuration whose options were moved into ranges. -/
structure IsClamped (ranges : List Range) (config after : Config) : Prop where
  moved : ∀ option low high, (option, low, high) ∈ ranges →
    option.valueIn after = (option.valueIn config).clamped low high
  kept : ∀ option, option ∉ ranges.map Prod.fst → option.valueIn after = option.valueIn config
  source : after.source = config.source

def outside (ranges : List Range) (config : Config) : List ConfigOption :=
  (ranges.filter fun (option, low, high) => !(option.valueIn config).isWithin low high).map Prod.fst

theorem clampOption_spec (config : Config) (option : ConfigOption) (hrange : low ≤ high) :
    IsClamped [(option, low, high)] config (clampOption config option low high).1 ∧
      (clampOption config option low high).2.map ConfigCorrection.option
        = (outside [(option, low, high)] config).map ConfigOption.key := by
  have hwithin : (option.valueIn config).clamped low high = option.valueIn config ↔ _ :=
    OptionValue.clamped_eq_self_iff hrange
  have hsame (h : (option.valueIn config).isWithin low high = true) :
      IsClamped [(option, low, high)] config config := by
    refine ⟨fun other otherLow otherHigh hmem => ?_, fun _ _ => rfl, rfl⟩
    cases List.mem_singleton.mp hmem
    exact (hwithin.mpr h).symm
  obtain ⟨after, hafter⟩ := exists_set?_clamped config option low high
  rw [clampOption]
  cases hvalue : option.valueIn config with
  | integer value =>
      rw [hvalue] at hafter hwithin hsame
      dsimp only
      split
      · next hclamped =>
          have hin := hwithin.mp (congrArg OptionValue.integer hclamped)
          exact ⟨hsame hin, by simp [outside, hvalue, hin]⟩
      · next hmoved =>
          have hout : OptionValue.isWithin low high (.integer value) = false :=
            Bool.eq_false_iff.mpr fun h => hmoved (OptionValue.integer.inj (hwithin.mpr h))
          rw [OptionValue.clamped] at hafter
          rw [hafter, Option.getD_some]
          refine ⟨⟨fun other otherLow otherHigh hmem => ?_, fun other hother => ?_,
            ConfigOption.source_of_set? hafter⟩, by simp [outside, hvalue, hout]⟩
          · cases List.mem_singleton.mp hmem
            rw [hvalue]
            exact ConfigOption.valueIn_of_set? hafter
          · exact ConfigOption.valueIn_of_set?_of_ne hafter fun heq => hother (by simp [heq])
  | text | flag | other => exact ⟨hsame (hvalue ▸ rfl), by simp [outside, hvalue, OptionValue.isWithin]⟩

/-- The configuration with each option moved into its range, and what has been told of so far. -/
def clampAll (ranges : List Range) (config : Config) (corrections : List ConfigCorrection) :
    Config × List ConfigCorrection :=
  ranges.foldl (fun (config, corrections) (option, low, high) =>
    let (config, more) := clampOption config option low high
    (config, corrections ++ more)) (config, corrections)

/-- By induction on the ranges: an option is moved once, since no other range is about it. -/
theorem clampAll_spec {ranges : List Range} (config : Config) (corrections : List ConfigCorrection)
    (hdistinct : (ranges.map Prod.fst).Nodup)
    (hranges : ∀ option low high, (option, low, high) ∈ ranges → low ≤ high) :
    IsClamped ranges config (clampAll ranges config corrections).1 ∧
      (clampAll ranges config corrections).2.map ConfigCorrection.option
        = corrections.map ConfigCorrection.option ++ (outside ranges config).map ConfigOption.key := by
  induction ranges generalizing config corrections with
  | nil => exact ⟨⟨nofun, fun _ _ => rfl, rfl⟩, (List.append_nil _).symm⟩
  | cons range ranges ih =>
      obtain ⟨option, low, high⟩ := range
      obtain ⟨hfirst, hrest⟩ := List.nodup_cons.mp hdistinct
      obtain ⟨hone, honeTold⟩ := clampOption_spec config option (hranges _ _ _ (List.mem_cons_self ..))
      obtain ⟨hmore, hmoreTold⟩ := ih (clampOption config option low high).1
        (corrections ++ (clampOption config option low high).2) hrest
        fun other otherLow otherHigh hmem => hranges _ _ _ (List.mem_cons_of_mem _ hmem)
      have hothers : ∀ other ∈ ranges.map Prod.fst,
          other.valueIn (clampOption config option low high).1 = other.valueIn config := by
        intro other hother
        refine hone.kept other fun hmem => ?_
        rw [List.mem_singleton.mp hmem] at hother
        exact hfirst hother
      have houtside : outside ranges (clampOption config option low high).1 = outside ranges config := by
        refine congrArg (List.map Prod.fst) (List.filter_congr fun range hmem => ?_)
        obtain ⟨other, otherLow, otherHigh⟩ := range
        have hname : other ∈ ranges.map Prod.fst := List.mem_map_of_mem hmem
        dsimp only
        rw [hothers other hname]
      refine ⟨⟨fun other otherLow otherHigh hmem => ?_, fun other hother => ?_, hmore.source.trans hone.source⟩, ?_⟩
      · rcases List.mem_cons.mp hmem with heq | hmem
        · cases heq
          exact (hmore.kept option hfirst).trans (hone.moved _ _ _ (List.mem_cons_self ..))
        · have hname : other ∈ ranges.map Prod.fst := List.mem_map_of_mem hmem
          exact (hmore.moved _ _ _ hmem).trans (by rw [hothers other hname])
      · rw [List.map_cons, List.mem_cons, not_or] at hother
        exact (hmore.kept other hother.2).trans (hone.kept other (by simpa using hother.1))
      · rw [show clampAll ((option, low, high) :: ranges) config corrections
          = clampAll ranges (clampOption config option low high).1
              (corrections ++ (clampOption config option low high).2) from rfl,
          hmoreTold, houtside, List.map_append, honeTold, List.append_assoc, ← List.map_append]
        congr 2
        simp only [outside, ← List.map_append, ← List.filter_append]
        rfl

theorem nodup_ranges : (ranges.map Prod.fst).Nodup := by decide

theorem le_of_mem_ranges : ∀ option low high, (option, low, high) ∈ ranges → low ≤ high := by
  intro option low high hmem
  simp only [ranges, List.mem_cons, Prod.mk.injEq, List.not_mem_nil, or_false] at hmem
  omega

/-! ### The URL -/

section Url

open IndexUrl UrlHead

variable {told : List ConfigCorrection}

theorem bind_normalizeUrl_eq_ok_iff : normalizeUrl config = .ok (after, told) ↔
    ∃ url, normalize config.indexUrl = .ok url ∧
      if url = config.indexUrl then (config, []) = (after, told) else
        ∃ valid, isValid config.indexUrl = .ok valid ∧
          ({ config with indexUrl := url }, if valid then [] else
            [⟨ConfigOption.indexUrl.key, "Invalid index URL " ++ String.ofList (Text.quoted config.indexUrl) ++
              "; using " ++ String.ofList publicIndex⟩]) = (after, told) := by
  rw [normalizeUrl, bind_eq_ok_iff]
  refine exists_congr fun url => and_congr_right fun _ => ?_
  split
  · exact ⟨fun h => Except.ok.inj h, fun h => congrArg Except.ok h⟩
  · rw [bind_eq_ok_iff]
    exact exists_congr fun valid => and_congr_right fun _ =>
      ⟨fun h => Except.ok.inj h, fun h => congrArg Except.ok h⟩

/-- The URL comes into its normal form, and is told of just if it was not valid. -/
theorem exists_of_normalizeUrl (h : normalizeUrl config = .ok (after, told)) : ∃ url valid,
    normalize config.indexUrl = .ok url ∧ after = { config with indexUrl := url } ∧
      isValid config.indexUrl = .ok valid ∧
      told.map ConfigCorrection.option = if valid then [] else [ConfigOption.indexUrl.key] := by
  obtain ⟨url, hurl, h⟩ := bind_normalizeUrl_eq_ok_iff.mp h
  split at h
  · next hsame =>
      cases h
      subst hsame
      exact ⟨_, true, hurl, rfl, (normalize_eq_self_iff.mp hurl).1.valid, rfl⟩
  · obtain ⟨valid, hvalid, h⟩ := h
    cases h
    refine ⟨url, valid, hurl, rfl, hvalid, ?_⟩
    cases valid <;> rfl

theorem normalizeUrl_eq_error_iff : normalizeUrl config = .error fault ↔
    read (Text.trim (bare config.indexUrl)) = .error fault ∨
      (∃ head, read (Text.trim (bare config.indexUrl)) = .ok head) ∧ read (bare config.indexUrl) = .error fault := by
  have hsteps : normalizeUrl config = .error fault ↔ normalize config.indexUrl = .error fault ∨
      ∃ url, normalize config.indexUrl = .ok url ∧ url ≠ config.indexUrl ∧ isValid config.indexUrl = .error fault := by
    rw [normalizeUrl, bind_eq_error_iff]
    refine or_congr_right (exists_congr fun url => and_congr_right fun _ => ?_)
    split
    · next hsame =>
        simp only [hsame, ne_eq, not_true_eq_false, false_and, iff_false]
        exact nofun
    · next hne =>
        simp only [ne_eq, hne, not_false_eq_true, true_and]
        rw [bind_eq_error_iff]
        refine or_iff_left ?_
        rintro ⟨valid, -, h⟩
        cases h
  rw [hsteps, normalize_eq_error_iff, isValid_eq_error_iff, read_trim config.indexUrl]
  constructor
  · rintro ((hcore | ⟨hvalid, hbare⟩) | ⟨url, hurl, -, hbare⟩)
    · exact .inl hcore
    · exact .inr ⟨⟨_, read_eq_ok_iff.mpr ⟨(isValid_eq_true_iff.mp hvalid).1, rfl⟩⟩, hbare⟩
    · refine .inr ⟨?_, hbare⟩
      cases hcore : read (Text.trim (bare config.indexUrl)) with
      | error other => cases hurl.symm.trans (normalize_eq_error_iff.mpr (.inl hcore))
      | ok head => exact ⟨head, rfl⟩
  · rintro (hcore | ⟨⟨head, hcore⟩, hbare⟩)
    · exact .inl (.inl hcore)
    · rcases hvalid : isValid (bare config.indexUrl) with other | valid
      · cases hcore.symm.trans (isValid_eq_error_iff.mp hvalid)
      · cases valid with
        | true => exact .inl (.inr ⟨rfl, hbare⟩)
        | false =>
            -- The public index stands in, and could itself be read.
            refine .inr ⟨_, normalize_eq_ok_iff.mpr (.inl ⟨hvalid, rfl⟩), fun hpublic => ?_, hbare⟩
            have hread : isValid config.indexUrl = .error fault := by
              rwa [isValid_eq_error_iff, read_trim]
            cases hread.symm.trans (hpublic ▸ isServable_publicIndex.valid)

end Url

/-! ### Validation -/

theorem validate_eq_ok_iff : validate config = .ok (after, corrections) ↔ ∃ middle told,
    normalizeUrl config = .ok (middle, told) ∧ clampAll ranges middle told = (after, corrections) := by
  rw [validate, bind_eq_ok_iff]
  constructor
  · rintro ⟨⟨middle, told⟩, hurl, h⟩
    exact ⟨middle, told, hurl, Except.ok.inj h⟩
  · rintro ⟨middle, told, hurl, h⟩
    exact ⟨⟨middle, told⟩, hurl, congrArg Except.ok h⟩

theorem validate_eq_error_iff : validate config = .error fault ↔ normalizeUrl config = .error fault := by
  rw [validate, bind_eq_error_iff]
  refine or_iff_left ?_
  rintro ⟨⟨middle, told⟩, -, h⟩
  cases h

/-- What a configuration comes to that could be validated. -/
structure IsValidated (config after : Config) (corrections : List ConfigCorrection) : Prop where
  /-- An option with a range has the value within it that is nearest to the given one. -/
  ranged : ∀ option low high, (option, low, high) ∈ ranges → ∃ value new, option.valueIn config = .integer value ∧
    option.valueIn after = .integer new ∧ low ≤ new ∧ new ≤ high ∧ new = max low (min value high)
  kept : ∀ option, option ≠ .indexUrl → option ∉ ranges.map Prod.fst → option.valueIn after = option.valueIn config
  source : after.source = config.source
  /-- Told of are the URL, if it was not valid, and the options outside their ranges. -/
  told : ∃ valid, IndexUrl.isValid config.indexUrl = .ok valid ∧ corrections.map ConfigCorrection.option
    = (if valid then [] else [ConfigOption.indexUrl.key]) ++ (outside ranges config).map ConfigOption.key
  /-- The URL is one of a secure index, unless it states the plain scheme behind or between controls. -/
  servable_iff : IndexUrl.IsServable after.indexUrl ↔ (IndexUrl.isValid (IndexUrl.bare config.indexUrl) = .ok true →
    IndexUrl.PlainAtStart (IndexUrl.bare config.indexUrl))
  /-- Validated again it stays as it is, unless white space is left at the end of the URL. -/
  settled_iff : validate after = .ok (after, []) ↔ (IndexUrl.isValid (IndexUrl.bare config.indexUrl) = .ok true →
    IndexUrl.PlainAtStart (IndexUrl.bare config.indexUrl) ∧ Text.IsTrimmed (IndexUrl.bare config.indexUrl))

/-- What validation comes to. -/
structure Validates (config : Config) (result : Except UrlFault (Config × List ConfigCorrection)) : Prop where
  /-- It fails just if the URL cannot be taken apart, without the white space that is left at its end or with it. -/
  fails_iff : ∀ fault, result = .error fault ↔
    UrlHead.read (Text.trim (IndexUrl.bare config.indexUrl)) = .error fault ∨
      (∃ head, UrlHead.read (Text.trim (IndexUrl.bare config.indexUrl)) = .ok head) ∧
        UrlHead.read (IndexUrl.bare config.indexUrl) = .error fault
  validated : ∀ after corrections, result = .ok (after, corrections) → IsValidated config after corrections

theorem exists_integer_of_mem_ranges (h : (option, low, high) ∈ ranges) (config : Config) :
    ∃ value, option.valueIn config = .integer value := by
  simp only [ranges, List.mem_cons, Prod.mk.injEq, List.not_mem_nil, or_false] at h
  rcases h with ⟨rfl, -⟩ | ⟨rfl, -⟩ | ⟨rfl, -⟩ | ⟨rfl, -⟩ <;> exact ⟨_, rfl⟩

theorem clampAll_of_within (h : ∀ option low high, (option, low, high) ∈ ranges →
    (option.valueIn config).isWithin low high = true) : clampAll ranges config [] = (config, []) := by
  obtain ⟨hclamped, htold⟩ := clampAll_spec config [] nodup_ranges le_of_mem_ranges
  have hnone : outside ranges config = [] := by
    rw [outside, List.map_eq_nil_iff, List.filter_eq_nil_iff]
    rintro ⟨option, low, high⟩ hmem
    simp [h option low high hmem]
  rw [hnone] at htold
  refine Prod.ext (eq_of_valueIn (fun option => ?_) hclamped.source) (List.map_eq_nil_iff.mp htold)
  by_cases hname : option ∈ ranges.map Prod.fst
  · obtain ⟨⟨option, low, high⟩, hmem, rfl⟩ := List.mem_map.mp hname
    rw [hclamped.moved option low high hmem]
    exact (OptionValue.clamped_eq_self_iff (le_of_mem_ranges _ _ _ hmem)).mpr (h _ _ _ hmem)
  · exact hclamped.kept option hname

/-- A configuration stays as it is just if its URL does and its options are within their ranges. -/
theorem validate_eq_self_iff (h : ∀ option low high, (option, low, high) ∈ ranges →
    (option.valueIn config).isWithin low high = true) :
    validate config = .ok (config, []) ↔ IndexUrl.normalize config.indexUrl = .ok config.indexUrl := by
  rw [validate_eq_ok_iff]
  constructor
  · rintro ⟨middle, told, hurl, hclamp⟩
    obtain ⟨url, -, hnormal, rfl, -⟩ := exists_of_normalizeUrl hurl
    obtain ⟨hclamped, -⟩ := clampAll_spec { config with indexUrl := url } told nodup_ranges le_of_mem_ranges
    have hkept := hclamped.kept .indexUrl (by decide)
    rw [hclamp] at hkept
    have hsame : config.indexUrl = url := String.ofList_inj.mp (OptionValue.text.inj hkept)
    rwa [hsame] at hnormal ⊢
  · intro hnormal
    refine ⟨config, [], ?_, clampAll_of_within h⟩
    exact bind_normalizeUrl_eq_ok_iff.mpr ⟨_, hnormal, by rw [if_pos rfl]⟩

theorem isValidated_of_validate (h : validate config = .ok (after, corrections)) :
    IsValidated config after corrections := by
  obtain ⟨middle, told, hurl, hclamp⟩ := validate_eq_ok_iff.mp h
  obtain ⟨url, valid, hnormal, rfl, hvalid, htold⟩ := exists_of_normalizeUrl hurl
  obtain ⟨hclamped, hmore⟩ := clampAll_spec { config with indexUrl := url } told nodup_ranges le_of_mem_ranges
  rw [hclamp] at hclamped hmore
  have hother : ∀ option : ConfigOption, option ≠ .indexUrl →
      option.valueIn { config with indexUrl := url } = option.valueIn config := by
    intro option hne
    cases option with
    | indexUrl => exact absurd rfl hne
    | _ => rfl
  have hnot : ∀ option low high, (option, low, high) ∈ ranges → option ≠ .indexUrl := by
    rintro option low high hmem rfl
    have hname : ConfigOption.indexUrl ∈ ranges.map Prod.fst := List.mem_map_of_mem hmem
    exact absurd hname (by decide)
  have hranged : ∀ option low high, (option, low, high) ∈ ranges → ∃ value new,
      option.valueIn config = .integer value ∧ option.valueIn after = .integer new ∧ low ≤ new ∧ new ≤ high ∧
        new = max low (min value high) := by
    intro option low high hmem
    obtain ⟨value, hvalue⟩ := exists_integer_of_mem_ranges hmem config
    have hrange := le_of_mem_ranges _ _ _ hmem
    refine ⟨value, clamp low high value, hvalue, ?_, ?_⟩
    · rw [hclamped.moved option low high hmem, hother option (hnot _ _ _ hmem), hvalue]
      rfl
    · rw [clamp]
      omega
  have hwithin : ∀ option low high, (option, low, high) ∈ ranges →
      (option.valueIn after).isWithin low high = true := by
    intro option low high hmem
    obtain ⟨-, new, -, hnew, hlow, hhigh, -⟩ := hranged option low high hmem
    rw [hnew]
    simp [OptionValue.isWithin, hlow, hhigh]
  have hafter : after.indexUrl = url := by
    have hkept := hclamped.kept .indexUrl (by decide)
    exact String.ofList_inj.mp (OptionValue.text.inj hkept)
  have houtside : outside ranges { config with indexUrl := url } = outside ranges config := by
    refine congrArg (List.map Prod.fst) (List.filter_congr fun range hmem => ?_)
    obtain ⟨option, low, high⟩ := range
    dsimp only
    rw [hother option (hnot _ _ _ hmem)]
  refine ⟨hranged, fun option hne hmem => (hclamped.kept option hmem).trans (hother option hne), hclamped.source,
    ⟨valid, hvalid, ?_⟩, ?_, ?_⟩
  · rw [hmore, htold, houtside]
  · rw [hafter]
    exact IndexUrl.isServable_iff_of_normalize hnormal
  · rw [validate_eq_self_iff hwithin, hafter, IndexUrl.normalize_eq_self_iff,
      IndexUrl.isServable_iff_of_normalize hnormal, IndexUrl.isTrimmed_iff_of_normalize hnormal, forall_and]

/-- A bracket that is left open. -/
example : validate { indexUrl := "https://[".toList } = .error .unbalancedBrackets := by rfl

/-- A control before the plain scheme. -/
example : IndexUrl.normalize (Char.ofNat 1 :: "http://mirror".toList) = .ok "httpsp://mirror".toList := by rfl

end Config

end ManifestLens
