import ManifestLens.Proofs.Config.Options
import ManifestLens.Proofs.Toml.Dictionary

/-!
# Loading a named file

The tool's section of a document is what stands at a path of keys. It is accepted just if it is a table of known
options with values of their kinds, and then the configuration holds these values and the defaults of the other
options. A section that is not accepted is refused by an error of the configuration that names the file.

Three kinds of file end otherwise: one whose bytes are no text, one with an integer of too many digits, and a project
file in which the tools' table is no table.
-/

namespace ManifestLens

namespace Toml

variable {path : List String} {members : List (String × Toml)} {value : Toml}

/-- What stands at a path of keys that leads through tables. A table that is missing is empty. -/
def atPath? : List String → List (String × Toml) → Option Toml
  | [], members => some (.table members)
  | key :: path, members =>
      match member? key members with
      | none => some (.table [])
      | some (.table inner) => atPath? path inner
      | some value => if path = [] then some value else none

theorem member?_cons {key other : String} :
    member? other ((key, value) :: members) = if key = other then some value else member? other members := by
  by_cases heq : key = other <;> simp [member?, heq]

theorem member?_eq_none {key : String} (h : key ∉ members.map Prod.fst) : member? key members = none := by
  rw [member?, Option.map_eq_none_iff, List.find?_eq_none]
  intro member hmem heq
  exact h (eq_of_beq heq ▸ List.mem_map_of_mem hmem)

theorem atPath?_singleton (key : String) (members : List (String × Toml)) :
    atPath? [key] members = some ((member? key members).getD (.table [])) := by
  rw [atPath?]
  split
  · next h => rw [h, Option.getD_none]
  · next h => rw [h, Option.getD_some, atPath?]
  · next h => rw [h, Option.getD_some, if_pos rfl]

theorem HasDictionaries.atPath? (h : (Toml.table members).HasDictionaries)
    (hvalue : Toml.atPath? path members = some value) : value.HasDictionaries := by
  induction path generalizing members with
  | nil =>
      cases hvalue
      exact h
  | cons key path ih =>
      rw [Toml.atPath?] at hvalue
      split at hvalue
      · cases hvalue
        exact .table List.nodup_nil nofun
      · next inner hinner => exact ih (h.member hinner) hvalue
      · next found _ hfound =>
          split at hvalue
          · cases hvalue
            exact h.member hfound
          · cases hvalue

end Toml

namespace Config

variable {config after : Config} {path : String} {table : List (String × Toml)} {failure : Failure}

/-! ### The members of a section -/

/-- A member of a section that states an option: a known key with a value of the option's kind. -/
def StatesOption (member : String × Toml) : Prop :=
  ∃ option : ConfigOption, option.key = member.1 ∧ option.Takes (.ofToml member.2)

/-- The value that a section states for an option, or its default. -/
def statedValue (table : List (String × Toml)) (option : ConfigOption) : OptionValue :=
  match Toml.member? option.key table with
  | some value => .ofToml value
  | none => option.valueIn {}

/-- The members of a section as values of options. -/
def asOptions (table : List (String × Toml)) : List (String × OptionValue) :=
  table.map fun (key, value) => (key, OptionValue.ofToml value)

/-- By induction on the members: what is set later has another key, so each value stays. -/
theorem setAll_of_states (config : Config) (hnodup : (table.map Prod.fst).Nodup)
    (h : ∀ member ∈ table, StatesOption member) :
    ∃ after, setAll path config (asOptions table) = .ok after ∧ after.source = config.source ∧
      ∀ option : ConfigOption, option.valueIn after
        = ((Toml.member? option.key table).map OptionValue.ofToml).getD (option.valueIn config) := by
  induction table generalizing config with
  | nil => exact ⟨config, rfl, rfl, fun _ => rfl⟩
  | cons member rest ih =>
      obtain ⟨key, value⟩ := member
      obtain ⟨hfirst, hrest⟩ := List.nodup_cons.mp hnodup
      obtain ⟨option, rfl, htakes⟩ := h _ (List.mem_cons_self ..)
      obtain ⟨next, hnext⟩ := ConfigOption.exists_set?_iff.mpr htakes
      obtain ⟨after, hafter, hsource, hvalues⟩ := ih next hrest fun other hmem =>
        h other (List.mem_cons_of_mem _ hmem)
      refine ⟨after, ?_, hsource.trans (ConfigOption.source_of_set? hnext), fun other => ?_⟩
      · simp only [asOptions, List.map_cons, setAll, ConfigOption.ofKey?_eq_some_iff.mpr rfl, hnext]
        exact hafter
      · rw [hvalues, Toml.member?_cons]
        by_cases heq : option = other
        · subst heq
          rw [Toml.member?_eq_none hfirst, if_pos rfl]
          exact ConfigOption.valueIn_of_set? hnext
        · rw [if_neg fun hkey => heq (ConfigOption.key_injective hkey),
            ConfigOption.valueIn_of_set?_of_ne hnext (Ne.symm heq)]

theorem setAll_of_misfit {before rest : List (String × Toml)} {key : String} {value : Toml} {option : ConfigOption}
    (hbefore : ∀ member ∈ before, StatesOption member) (hkey : option.key = key) (h : ¬ option.Takes (.ofToml value)) :
    setAll path config (asOptions (before ++ (key, value) :: rest)) = .error (.config
      (key ++ " must be " ++ option.wantedKind ++ ", got " ++ value.kindName) (some path) (some key)) := by
  induction before generalizing config with
  | nil =>
      subst hkey
      have hset : option.set? config (.ofToml value) = none := by
        rw [Option.eq_none_iff_forall_ne_some]
        exact fun after hafter => h (ConfigOption.exists_set?_iff.mp ⟨after, hafter⟩)
      simp only [asOptions, List.nil_append, List.map_cons, setAll, ConfigOption.ofKey?_eq_some_iff.mpr rfl, hset,
        OptionValue.kindName_ofToml]
  | cons member before ih =>
      obtain ⟨found, stated⟩ := member
      obtain ⟨other, hother, htakes⟩ := hbefore _ (List.mem_cons_self ..)
      obtain ⟨next, hnext⟩ : ∃ next, other.set? config (.ofToml stated) = some next :=
        ConfigOption.exists_set?_iff.mpr htakes
      simp only [asOptions, List.cons_append, List.map_cons, setAll, ConfigOption.ofKey?_eq_some_iff.mpr hother, hnext]
      exact ih fun member hmem => hbefore member (List.mem_cons_of_mem _ hmem)

/-- A table that states something else than options, with the error that says so. -/
inductive IsMisstated (path : String) : List (String × Toml) → Failure → Prop
  /-- Unknown keys are told of together, before any value is looked at. -/
  | unknown {table : List (String × Toml)}
      (h : (table.map Prod.fst).filter (fun key => (ConfigOption.ofKey? key).isNone) ≠ []) :
      IsMisstated path table (.config ("Unknown configuration keys: " ++ ", ".intercalate
        (sortedTexts ((table.map Prod.fst).filter fun key => (ConfigOption.ofKey? key).isNone))) (some path) none)
  /-- Of the values of another kind than their option's the first one is told of. -/
  | misfit {before rest : List (String × Toml)} {key : String} {value : Toml} {option : ConfigOption}
      (hbefore : ∀ member ∈ before, StatesOption member)
      (hrest : ∀ member ∈ rest, ∃ option : ConfigOption, option.key = member.1)
      (hkey : option.key = key) (h : ¬ option.Takes (.ofToml value)) :
      IsMisstated path (before ++ (key, value) :: rest) (.config
        (key ++ " must be " ++ option.wantedKind ++ ", got " ++ value.kindName) (some path) (some key))

theorem unknownKeys_eq_nil_iff : (table.map Prod.fst).filter (fun key => (ConfigOption.ofKey? key).isNone) = [] ↔
    ∀ member ∈ table, ∃ option : ConfigOption, option.key = member.1 := by
  simp only [List.filter_eq_nil_iff, List.mem_map, forall_exists_index, and_imp, forall_apply_eq_imp_iff₂,
    Option.isNone_iff_eq_none, ConfigOption.ofKey?_eq_none_iff, Classical.not_forall, ne_eq, Classical.not_not]

theorem map_fst_asOptions (table : List (String × Toml)) : (asOptions table).map Prod.fst = table.map Prod.fst := by
  simp [asOptions]

theorem ofTable_of_known (h : ∀ member ∈ table, ∃ option : ConfigOption, option.key = member.1) :
    ofTable path (asOptions table) = setAll path {} (asOptions table) := by
  rw [ofTable, map_fst_asOptions, unknownKeys_eq_nil_iff.mpr h]

theorem IsMisstated.ofTable (h : IsMisstated path table failure) :
    ofTable path (asOptions table) = .error failure := by
  cases h with
  | unknown h =>
      rw [Config.ofTable, map_fst_asOptions]
      split
      · next hnone => exact absurd hnone h
      · rfl
  | misfit hbefore hrest hkey h =>
      rw [ofTable_of_known fun member hmem => ?_]
      · exact setAll_of_misfit hbefore hkey h
      · rcases List.mem_append.mp hmem with hmem | hmem
        · exact (hbefore member hmem).imp fun _ => And.left
        · rcases List.mem_cons.mp hmem with rfl | hmem
          · exact ⟨_, hkey⟩
          · exact hrest member hmem

/-- By induction on the members: either all of them state options, or there is a first one that does not. -/
theorem states_or_misfit (h : ∀ member ∈ table, ∃ option : ConfigOption, option.key = member.1) :
    (∀ member ∈ table, StatesOption member) ∨ ∃ failure, IsMisstated path table failure := by
  suffices hsplit : (∀ member ∈ table, StatesOption member) ∨ ∃ before member rest,
      table = before ++ member :: rest ∧ (∀ other ∈ before, StatesOption other) ∧ ¬ StatesOption member by
    refine hsplit.imp id ?_
    rintro ⟨before, ⟨key, value⟩, rest, rfl, hbefore, hnot⟩
    obtain ⟨option, hkey⟩ := h (key, value) (List.mem_append_right _ (List.mem_cons_self ..))
    refine ⟨_, .misfit hbefore (fun member hmem => h member ?_) hkey fun htakes => hnot ⟨option, hkey, htakes⟩⟩
    exact List.mem_append_right _ (List.mem_cons_of_mem _ hmem)
  induction table with
  | nil => exact .inl nofun
  | cons member rest ih =>
      by_cases hstates : StatesOption member
      · rcases ih fun other hmem => h other (List.mem_cons_of_mem _ hmem) with hall |
          ⟨before, first, more, rfl, hbefore, hnot⟩
        · exact .inl (List.forall_mem_cons.mpr ⟨hstates, hall⟩)
        · exact .inr ⟨member :: before, first, more, rfl, List.forall_mem_cons.mpr ⟨hstates, hbefore⟩, hnot⟩
      · exact .inr ⟨[], member, rest, rfl, nofun, hstates⟩

theorem states_or_misstated (path : String) (table : List (String × Toml)) :
    (∀ member ∈ table, StatesOption member) ∨ ∃ failure, IsMisstated path table failure := by
  by_cases hknown : (table.map Prod.fst).filter (fun key => (ConfigOption.ofKey? key).isNone) = []
  · exact states_or_misfit (unknownKeys_eq_nil_iff.mp hknown)
  · exact .inr ⟨_, .unknown hknown⟩

/-- The options have the values that a table states, and their defaults otherwise. -/
def IsStatedBy (config : Config) (table : List (String × Toml)) : Prop :=
  ∀ option : ConfigOption, option.valueIn config = statedValue table option

theorem exists_ofTable_of_states (path : String) (hnodup : (table.map Prod.fst).Nodup)
    (h : ∀ member ∈ table, StatesOption member) :
    ∃ after, ofTable path (asOptions table) = .ok after ∧ after.IsStatedBy table := by
  obtain ⟨after, hafter, -, hvalues⟩ := setAll_of_states {} hnodup h
  refine ⟨after, ?_, fun option => ?_⟩
  · rw [ofTable_of_known fun member hmem => (h member hmem).imp fun _ => And.left]
    exact hafter
  · rw [hvalues, statedValue]
    cases Toml.member? option.key table <;> rfl

theorem ofTable_eq_error_iff (hnodup : (table.map Prod.fst).Nodup) :
    ofTable path (asOptions table) = .error failure ↔ IsMisstated path table failure := by
  refine ⟨fun herror => ?_, IsMisstated.ofTable⟩
  rcases states_or_misstated path table with hstates | ⟨other, hother⟩
  · obtain ⟨after, hafter, -⟩ := exists_ofTable_of_states path hnodup hstates
    cases hafter.symm.trans herror
  · rwa [Except.error.inj (herror.symm.trans hother.ofTable)]

theorem ofTable_eq_ok_iff (hnodup : (table.map Prod.fst).Nodup) :
    (∃ after, ofTable path (asOptions table) = .ok after) ↔ ∀ member ∈ table, StatesOption member := by
  constructor
  · rintro ⟨after, hafter⟩
    rcases states_or_misstated path table with hstates | ⟨other, hother⟩
    · exact hstates
    · cases hafter.symm.trans hother.ofTable
  · intro hstates
    obtain ⟨after, hafter, -⟩ := exists_ofTable_of_states path hnodup hstates
    exact ⟨after, hafter⟩

/-! ### Sections -/

/-- The keys that lead to the tool's section of a file. -/
def sectionPath (location : Location) : List String :=
  if Location.name location = projectFile then ["tool", tableName] else [tableName]

section Sections

variable {location : Location} {members : List (String × Toml)} {value : Toml} {fault : Fault}

theorem toolValue_eq_ok_iff :
    toolValue location members = .ok value ↔ Toml.atPath? (sectionPath location) members = some value := by
  rw [toolValue, sectionPath]
  split
  · rw [Toml.atPath?]
    split
    · next h => simp [h]
    · next h => simp [h, Toml.atPath?_singleton]
    · next h => simp [h]
  · simp [Toml.atPath?_singleton]

/-- The section is out of reach just in a project file whose table of tools is none. -/
theorem toolValue_eq_error_iff :
    toolValue location members = .error fault ↔ Location.name location = projectFile ∧
      ∃ tool, Toml.member? "tool" members = some tool ∧ (∀ tools, tool ≠ .table tools) ∧
        fault = .noPart ("'" ++ tool.kindName ++ "' object has no attribute 'get'") := by
  rw [toolValue]
  split
  · next hname =>
      simp only [hname, true_and]
      split
      · next h => simp [h]
      · next h => simp [h]
      · next tool hno h =>
          rw [h]
          constructor
          · intro herror
            exact ⟨tool, rfl, hno, (Except.error.inj herror).symm⟩
          · rintro ⟨other, hother, -, rfl⟩
            rw [Option.some.inj hother]
  · next hname => simp [hname]

end Sections

/-- The document that bytes hold. -/
def IsDocument (content : List UInt8) (members : List (String × Toml)) : Prop :=
  ∃ text, Text.Utf8.decode content = .ok text ∧ Toml.readDocument text = .ok members

/-- What stands for the tool's section in the document that a file holds. -/
def IsSection (location : Location) (content : List UInt8) (value : Toml) : Prop :=
  ∃ members, IsDocument content members ∧ Toml.atPath? (sectionPath location) members = some value

theorem nodup_of_isSection {location : Location} {content : List UInt8}
    (h : IsSection location content (.table table)) : (table.map Prod.fst).Nodup := by
  obtain ⟨members, ⟨text, -, hread⟩, hsection⟩ := h
  exact ((Toml.hasDictionaries_of_readDocument hread).atPath? hsection).nodup

theorem isDocument_unique {content : List UInt8} {members others : List (String × Toml)}
    (h : IsDocument content members) (hother : IsDocument content others) : others = members := by
  obtain ⟨text, htext, hread⟩ := h
  obtain ⟨other, hdecode, hothers⟩ := hother
  obtain rfl := Except.ok.inj (htext.symm.trans hdecode)
  exact Except.ok.inj (hothers.symm.trans hread)

/-! ### Files -/

section Files

variable {tree : FileTree} {location : Location} {content : List UInt8} {members : List (String × Toml)} {fault : Fault}

theorem document_eq_ok_iff (h : tree.entry? location = some (.file content)) :
    document tree location = .ok members ↔ IsDocument content members := by
  simp only [document, h, IsDocument]
  constructor
  · intro hread
    obtain ⟨text, htext, hread⟩ := bind_eq_ok_iff.mp hread
    refine ⟨text, mapError_eq_ok_iff.mp htext, ?_⟩
    split at hread
    · next found =>
        cases hread
        exact found
    · cases hread
    · cases hread
  · rintro ⟨text, htext, hread⟩
    exact bind_eq_ok_iff.mpr ⟨text, mapError_eq_ok_iff.mpr htext, by simp only [hread]; rfl⟩

/-- Why no document is read: bytes that are no text, an integer that is too long, or a text outside the grammar. -/
theorem document_eq_error_iff (h : tree.entry? location = some (.file content)) :
    document tree location = .error fault ↔
      (∃ why, Text.Utf8.decode content = .error why ∧ fault = .undecodable why) ∨
      ∃ text, Text.Utf8.decode content = .ok text ∧
        ((∃ count, Toml.readDocument text = .error (.tooManyDigits count) ∧ fault = .tooManyDigits count) ∨
          Toml.readDocument text = .error .malformed ∧ fault = .reported (.config
            ("Invalid TOML in " ++ Location.name location ++ ": not a TOML document")
            (some (Location.text location)) none)) := by
  simp only [document, h, bind_eq_error_iff, mapError_eq_error_iff, mapError_eq_ok_iff]
  refine or_congr (exists_congr fun why => and_congr_right fun _ => eq_comm) (exists_congr fun text =>
    and_congr_right fun _ => ?_)
  cases hread : Toml.readDocument text with
  | ok members => simp [pure, Except.pure]
  | error why =>
      cases why with
      | malformed => simp [throw, throwThe, MonadExceptOf.throw, eq_comm]
      | tooManyDigits count => simp [throw, throwThe, MonadExceptOf.throw, eq_comm]

theorem ofFile_eq_ok_iff : ofFile tree location = .ok config ↔
    ∃ members, document tree location = .ok members ∧ ∃ table, toolValue location members = .ok (.table table) ∧
      ∃ stated, ofTable (Location.text location) (asOptions table) = .ok stated ∧
        config = { stated with source := some (Location.text location) } := by
  simp only [ofFile, bind_eq_ok_iff]
  refine exists_congr fun members => and_congr_right fun _ => ?_
  constructor
  · rintro ⟨value, hvalue, h⟩
    split at h
    · obtain ⟨stated, hstated, h⟩ := bind_eq_ok_iff.mp h
      cases h
      exact ⟨_, hvalue, stated, mapError_eq_ok_iff.mp hstated, rfl⟩
    · cases h
  · rintro ⟨table, hvalue, stated, hstated, rfl⟩
    exact ⟨_, hvalue, bind_eq_ok_iff.mpr ⟨stated, mapError_eq_ok_iff.mpr hstated, rfl⟩⟩

theorem ofFile_eq_error_iff : ofFile tree location = .error fault ↔
    document tree location = .error fault ∨ ∃ members, document tree location = .ok members ∧
      (toolValue location members = .error fault ∨ ∃ value, toolValue location members = .ok value ∧
        ((∀ table, value ≠ .table table) ∧ fault = .reported (.config
            "The tombo configuration must be a table" (some (Location.text location)) none) ∨
          ∃ table, value = .table table ∧ ∃ failure,
            ofTable (Location.text location) (asOptions table) = .error failure ∧ fault = .reported failure)) := by
  simp only [ofFile, bind_eq_error_iff]
  refine or_congr_right (exists_congr fun members => and_congr_right fun _ => or_congr_right
    (exists_congr fun value => and_congr_right fun _ => ?_))
  split
  · next table _ =>
      constructor
      · intro h
        rcases bind_eq_error_iff.mp h with h | ⟨stated, -, h⟩
        · obtain ⟨failure, hfailure, rfl⟩ := mapError_eq_error_iff.mp h
          exact .inr ⟨table, rfl, failure, hfailure, rfl⟩
        · cases h
      · rintro (⟨hno, -⟩ | ⟨other, heq, failure, hfailure, rfl⟩)
        · exact absurd rfl (hno table)
        · cases heq
          exact bind_eq_error_iff.mpr (.inl (mapError_eq_error_iff.mpr ⟨failure, hfailure, rfl⟩))
  · next hno =>
      constructor
      · intro h
        cases h
        exact .inl ⟨hno, rfl⟩
      · rintro (⟨-, rfl⟩ | ⟨table, heq, -⟩)
        · rfl
        · exact absurd heq (hno table)

end Files

/-- A file whose section is refused, with the error that says so. -/
inductive IsRefused (location : Location) (content : List UInt8) : Failure → Prop
  | malformed {text : List Char} (htext : Text.Utf8.decode content = .ok text)
      (h : Toml.readDocument text = .error .malformed) :
      IsRefused location content (.config
        ("Invalid TOML in " ++ Location.name location ++ ": not a TOML document") (some (Location.text location)) none)
  | noTable {value : Toml} (hsection : IsSection location content value) (h : ∀ table, value ≠ .table table) :
      IsRefused location content (.config
        "The tombo configuration must be a table" (some (Location.text location)) none)
  | misstated {table : List (String × Toml)} {failure : Failure}
      (hsection : IsSection location content (.table table))
      (h : IsMisstated (Location.text location) table failure) : IsRefused location content failure

/-- Every refusal is an error of the configuration that names the file. -/
theorem IsRefused.exists_config {location : Location} {content : List UInt8} (h : IsRefused location content failure) :
    ∃ message option, failure = .config message (some (Location.text location)) option := by
  cases h with
  | malformed => exact ⟨_, _, rfl⟩
  | noTable => exact ⟨_, _, rfl⟩
  | misstated _ h =>
      cases h with
      | unknown => exact ⟨_, _, rfl⟩
      | misfit => exact ⟨_, _, rfl⟩

/-- What loading a file comes to. -/
structure LoadsFrom (location : Location) (content : List UInt8) (result : Except Fault Config) : Prop where
  /-- A configuration is loaded just if the section is a table of options. -/
  accepted_iff : (∃ config, result = .ok config) ↔
    ∃ table, IsSection location content (.table table) ∧ ∀ member ∈ table, StatesOption member
  /-- Then every option has the value that the section states, or its default. -/
  loaded : ∀ config, result = .ok config → ∃ table, IsSection location content (.table table) ∧
    config.IsStatedBy table ∧ config.source = some (Location.text location)
  refused_iff : ∀ failure, result = .error (.reported failure) ↔ IsRefused location content failure
  undecodable_iff : ∀ why, result = .error (.undecodable why) ↔ Text.Utf8.decode content = .error why
  tooManyDigits_iff : ∀ count, result = .error (.tooManyDigits count) ↔
    ∃ text, Text.Utf8.decode content = .ok text ∧ Toml.readDocument text = .error (.tooManyDigits count)
  /-- A project file whose table of tools is no table has no section. -/
  noPart_iff : ∀ detail, result = .error (.noPart detail) ↔ Location.name location = projectFile ∧
    ∃ members value, IsDocument content members ∧ Toml.member? "tool" members = some value ∧
      (∀ tools, value ≠ .table tools) ∧ detail = "'" ++ value.kindName ++ "' object has no attribute 'get'"
  /-- There is no other way for it to end, and a reported failure is an error of the configuration of this file. -/
  exhausted : ∀ fault, result = .error fault →
    (∃ message option, fault = .reported (.config message (some (Location.text location)) option)) ∨
    (∃ why, fault = .undecodable why) ∨ (∃ count, fault = .tooManyDigits count) ∨ ∃ detail, fault = .noPart detail

section Files

variable {tree : FileTree} {location : Location} {content : List UInt8}

theorem ofFile_accepts_iff (h : tree.entry? location = some (.file content)) :
    (∃ config, ofFile tree location = .ok config) ↔
      ∃ table, IsSection location content (.table table) ∧ ∀ member ∈ table, StatesOption member := by
  constructor
  · rintro ⟨config, hload⟩
    obtain ⟨members, hmembers, table, htable, stated, hstated, -⟩ := ofFile_eq_ok_iff.mp hload
    have hsection : IsSection location content (.table table) :=
      ⟨members, (document_eq_ok_iff h).mp hmembers, toolValue_eq_ok_iff.mp htable⟩
    exact ⟨table, hsection, (ofTable_eq_ok_iff (nodup_of_isSection hsection)).mp ⟨stated, hstated⟩⟩
  · rintro ⟨table, hsection, hstates⟩
    obtain ⟨stated, hstated⟩ : ∃ stated, ofTable (Location.text location) (asOptions table) = .ok stated :=
      (ofTable_eq_ok_iff (nodup_of_isSection hsection)).mpr hstates
    obtain ⟨members, hmembers, htable⟩ := hsection
    exact ⟨_, ofFile_eq_ok_iff.mpr ⟨members, (document_eq_ok_iff h).mpr hmembers, table,
      toolValue_eq_ok_iff.mpr htable, stated, hstated, rfl⟩⟩

theorem ofFile_fails_iff (h : tree.entry? location = some (.file content)) {fault : Fault} :
    ofFile tree location = .error fault ↔
      (∃ failure, IsRefused location content failure ∧ fault = .reported failure) ∨
      (∃ why, Text.Utf8.decode content = .error why ∧ fault = .undecodable why) ∨
      (∃ count text, (Text.Utf8.decode content = .ok text ∧ Toml.readDocument text = .error (.tooManyDigits count)) ∧
        fault = .tooManyDigits count) ∨
      ∃ members, IsDocument content members ∧ toolValue location members = .error fault := by
  rw [ofFile_eq_error_iff, document_eq_error_iff h]
  constructor
  · rintro ((hbytes | ⟨text, htext, ⟨count, hcount, rfl⟩ | ⟨hread, rfl⟩⟩) | ⟨members, hmembers, htool |
      ⟨value, hvalue, ⟨hno, rfl⟩ | ⟨table, rfl, failure, hfailure, rfl⟩⟩⟩)
    · exact .inr (.inl hbytes)
    · exact .inr (.inr (.inl ⟨count, text, ⟨htext, hcount⟩, rfl⟩))
    · exact .inl ⟨_, .malformed htext hread, rfl⟩
    · exact .inr (.inr (.inr ⟨members, (document_eq_ok_iff h).mp hmembers, htool⟩))
    · exact .inl ⟨_, .noTable ⟨members, (document_eq_ok_iff h).mp hmembers, toolValue_eq_ok_iff.mp hvalue⟩ hno, rfl⟩
    · have hsection : IsSection location content (.table table) :=
        ⟨members, (document_eq_ok_iff h).mp hmembers, toolValue_eq_ok_iff.mp hvalue⟩
      exact .inl ⟨failure, .misstated hsection
        ((ofTable_eq_error_iff (nodup_of_isSection hsection)).mp hfailure), rfl⟩
  · rintro (⟨failure, hrefused, rfl⟩ | hbytes | ⟨count, text, ⟨htext, hcount⟩, rfl⟩ | ⟨members, hmembers, htool⟩)
    · cases hrefused with
      | malformed htext hread => exact .inl (.inr ⟨_, htext, .inr ⟨hread, rfl⟩⟩)
      | noTable hsection hno =>
          obtain ⟨members, hmembers, hvalue⟩ := hsection
          exact .inr ⟨members, (document_eq_ok_iff h).mpr hmembers, .inr ⟨_, toolValue_eq_ok_iff.mpr hvalue,
            .inl ⟨hno, rfl⟩⟩⟩
      | misstated hsection hmisstated =>
          have hfailure := (ofTable_eq_error_iff (nodup_of_isSection hsection)).mpr hmisstated
          obtain ⟨members, hmembers, hvalue⟩ := hsection
          exact .inr ⟨members, (document_eq_ok_iff h).mpr hmembers, .inr ⟨_, toolValue_eq_ok_iff.mpr hvalue,
            .inr ⟨_, rfl, failure, hfailure, rfl⟩⟩⟩
    · exact .inl (.inl hbytes)
    · exact .inl (.inr ⟨text, htext, .inl ⟨count, hcount, rfl⟩⟩)
    · exact .inr ⟨members, (document_eq_ok_iff h).mpr hmembers, .inl htool⟩

theorem loadsFrom_ofFile (h : tree.entry? location = some (.file content)) :
    LoadsFrom location content (ofFile tree location) := by
  refine ⟨ofFile_accepts_iff h, fun config hload => ?_, fun failure => ?_, fun why => ?_, fun count => ?_,
    fun detail => ?_, fun fault hfails => ?_⟩
  · obtain ⟨members, hmembers, table, htable, stated, hstated, rfl⟩ := ofFile_eq_ok_iff.mp hload
    have hsection : IsSection location content (.table table) :=
      ⟨members, (document_eq_ok_iff h).mp hmembers, toolValue_eq_ok_iff.mp htable⟩
    have hnodup := nodup_of_isSection hsection
    obtain ⟨after, hafter, hvalues⟩ := exists_ofTable_of_states (Location.text location) hnodup
      ((ofTable_eq_ok_iff hnodup).mp ⟨stated, hstated⟩)
    obtain rfl := Except.ok.inj (hafter.symm.trans hstated)
    refine ⟨table, hsection, fun option => ?_, rfl⟩
    rw [← hvalues option]
    cases option <;> rfl
  · rw [ofFile_fails_iff h]
    simp [toolValue_eq_error_iff]
  · rw [ofFile_fails_iff h]
    simp [toolValue_eq_error_iff]
  · rw [ofFile_fails_iff h]
    simp [toolValue_eq_error_iff]
  · constructor
    · intro hfails
      rcases (ofFile_fails_iff h).mp hfails with ⟨_, -, heq⟩ | ⟨_, -, heq⟩ | ⟨_, _, -, heq⟩ | ⟨members, hmembers, htool⟩
      · cases heq
      · cases heq
      · cases heq
      · obtain ⟨hname, value, hvalue, hno, heq⟩ := toolValue_eq_error_iff.mp htool
        exact ⟨hname, members, value, hmembers, hvalue, hno, Fault.noPart.inj heq⟩
    · rintro ⟨hname, members, value, hmembers, hvalue, hno, rfl⟩
      have htool := toolValue_eq_error_iff.mpr ⟨hname, value, hvalue, hno, rfl⟩
      exact (ofFile_fails_iff h).mpr (.inr (.inr (.inr ⟨members, hmembers, htool⟩)))
  · rcases (ofFile_fails_iff h).mp hfails with ⟨failure, hrefused, rfl⟩ | ⟨why, -, rfl⟩ | ⟨count, text, -, rfl⟩ |
      ⟨members, -, htool⟩
    · obtain ⟨message, option, rfl⟩ := hrefused.exists_config
      exact .inl ⟨message, option, rfl⟩
    · exact .inr (.inl ⟨why, rfl⟩)
    · exact .inr (.inr (.inl ⟨count, rfl⟩))
    · obtain ⟨-, value, -, -, rfl⟩ := toolValue_eq_error_iff.mp htool
      exact .inr (.inr (.inr ⟨_, rfl⟩))

end Files

end Config

end ManifestLens
