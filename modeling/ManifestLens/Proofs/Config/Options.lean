import ManifestLens.Config.Load

/-!
# Options one by one

A configuration is the values of its options, with the file that they come from. An option is set to a value just
if the value is of the kind of its default, and then it alone changes.
-/

namespace ManifestLens

namespace OptionValue

/-- Two values are of one kind. A flag and an integer are not. -/
def SameKind : OptionValue → OptionValue → Prop
  | .text _, .text _ => True
  | .flag _, .flag _ => True
  | .integer _, .integer _ => True
  | _, _ => False

theorem kindName_ofToml (value : Toml) : (ofToml value).kindName = value.kindName := by
  cases value <;> rfl

end OptionValue

namespace ConfigOption

variable {config after : Config} {option : ConfigOption} {value : OptionValue} {key : String}

theorem mem_all (option : ConfigOption) : option ∈ all := by
  cases option <;> decide

theorem ofKey?_eq_some_iff : ofKey? key = some option ↔ option.key = key := by
  constructor
  · intro h
    have hfound := List.find?_some h
    exact eq_of_beq hfound
  · rintro rfl
    cases option <;> rfl

theorem key_injective {other : ConfigOption} (h : option.key = other.key) : option = other :=
  Option.some.inj ((ofKey?_eq_some_iff.mpr h).symm.trans (ofKey?_eq_some_iff.mpr rfl))

theorem ofKey?_eq_none_iff : ofKey? key = none ↔ ∀ option : ConfigOption, option.key ≠ key := by
  rw [Option.eq_none_iff_forall_ne_some]
  exact forall_congr' fun option => not_congr ofKey?_eq_some_iff

/-- A value is of the kind of the option's default. -/
def Takes (option : ConfigOption) (value : OptionValue) : Prop := value.SameKind (option.valueIn {})

theorem takes_valueIn (option : ConfigOption) (config : Config) : option.Takes (option.valueIn config) := by
  cases option <;> trivial

theorem exists_set?_iff : (∃ after, option.set? config value = some after) ↔ option.Takes value := by
  cases option <;> cases value <;> simp [set?, Takes, valueIn, OptionValue.SameKind]

theorem valueIn_of_set? (h : option.set? config value = some after) : option.valueIn after = value := by
  cases option <;> cases value <;> cases h <;> simp [valueIn]

theorem valueIn_of_set?_of_ne {other : ConfigOption} (h : option.set? config value = some after)
    (hne : other ≠ option) : other.valueIn after = other.valueIn config := by
  cases option <;> cases value <;> cases h <;> cases other <;> first | rfl | exact absurd rfl hne

theorem source_of_set? (h : option.set? config value = some after) : after.source = config.source := by
  cases option <;> cases value <;> cases h <;> rfl

end ConfigOption

theorem Config.eq_of_valueIn {config other : Config}
    (h : ∀ option : ConfigOption, option.valueIn config = option.valueIn other)
    (hsource : config.source = other.source) :
    config = other := by
  obtain ⟨indexUrl, listPreReleases, requestTimeout, cacheMinutes, cacheCapacity, retryAttempts, retryDelay,
    sweepPeriod, source⟩ := config
  have hurl := h .indexUrl
  have hpre := h .listPreReleases
  have htimeout := h .requestTimeout
  have hminutes := h .cacheMinutes
  have hcapacity := h .cacheCapacity
  have hattempts := h .retryAttempts
  have hdelay := h .retryDelay
  have hperiod := h .sweepPeriod
  simp only [ConfigOption.valueIn, OptionValue.text.injEq, OptionValue.flag.injEq, OptionValue.integer.injEq,
    String.ofList_inj] at hurl hpre htimeout hminutes hcapacity hattempts hdelay hperiod hsource
  subst hurl hpre htimeout hminutes hcapacity hattempts hdelay hperiod hsource
  rfl

end ManifestLens
