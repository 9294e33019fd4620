import ManifestLens.Proofs.Error.Result
import ManifestLens.Toml.Reader

/-!
# Tables that have been read

A document that defines a key twice is refused, so a table that has been read has every key once, and so has every
table within it. Tables in the making keep this, whether a header opens them, a dotted key extends them or a value
is put into them: each of these changes what stands under one key, and a key that is there is not added again.
-/

namespace ManifestLens

/-- A value without parts. -/
def Toml.IsPlain : Toml → Prop
  | .array _ => False
  | .table _ => False
  | _ => True

/-- Every table within a value has every key once. -/
inductive Toml.HasDictionaries : Toml → Prop
  | plain {value : Toml} (h : value.IsPlain) : HasDictionaries value
  | array {elements : List Toml} (h : ∀ element ∈ elements, HasDictionaries element) :
      HasDictionaries (.array elements)
  | table {members : List (String × Toml)} (nodup : (members.map Prod.fst).Nodup)
      (h : ∀ member ∈ members, HasDictionaries member.2) : HasDictionaries (.table members)

namespace Toml.HasDictionaries

variable {key : String} {value : Toml} {members : List (String × Toml)}

theorem nodup (h : (Toml.table members).HasDictionaries) : (members.map Prod.fst).Nodup := by
  cases h with
  | plain h => exact h.elim
  | table nodup _ => exact nodup

theorem member (h : (Toml.table members).HasDictionaries) (hmember : Toml.member? key members = some value) :
    value.HasDictionaries := by
  obtain ⟨found, hfind, rfl⟩ := Option.map_eq_some_iff.mp hmember
  cases h with
  | plain h => exact h.elim
  | table _ h => exact h found (List.mem_of_find?_eq_some hfind)

end Toml.HasDictionaries

/-- Every table within what stands under a key has every key once. -/
inductive TomlNode.HasDictionaries : TomlNode → Prop
  | value {value : Toml} (h : value.HasDictionaries) : HasDictionaries (.value value)
  | table {isClosed : Bool} {members : TomlNode.Members} (nodup : (members.map Prod.fst).Nodup)
      (h : ∀ member ∈ members, HasDictionaries member.2) : HasDictionaries (.table isClosed members)
  | tables {earlier : List Toml} {last : TomlNode.Members} (hearlier : ∀ table ∈ earlier, table.HasDictionaries)
      (nodup : (last.map Prod.fst).Nodup) (h : ∀ member ∈ last, HasDictionaries member.2) :
      HasDictionaries (.tables earlier last)

namespace TomlNode

/-- A table in the making has every key once, and so has every table within it. -/
structure AreDistinct (members : Members) : Prop where
  nodup : (members.map Prod.fst).Nodup
  values : ∀ member ∈ members, member.2.HasDictionaries

variable {key : String} {path : List String} {members after : Members} {f : Option TomlNode → Option TomlNode}

theorem areDistinct_nil : AreDistinct [] := ⟨List.nodup_nil, nofun⟩

theorem AreDistinct.tail {member : String × TomlNode} (h : AreDistinct (member :: members)) :
    AreDistinct members :=
  ⟨(List.nodup_cons.mp h.nodup).2, fun other hmem => h.values other (List.mem_cons_of_mem _ hmem)⟩

/-! ### Finished tables -/

theorem map_fst_finish (members : Members) : (finish members).map Prod.fst = members.map Prod.fst := by
  induction members with
  | nil => rfl
  | cons member rest ih =>
      obtain ⟨key, node⟩ := member
      rw [finish, List.map_cons, List.map_cons, ih]

theorem exists_of_mem_finish {member : String × Toml} (h : member ∈ finish members) :
    ∃ node, (member.1, node) ∈ members ∧ member.2 = node.toToml := by
  induction members with
  | nil => cases h
  | cons first rest ih =>
      obtain ⟨key, node⟩ := first
      rw [finish] at h
      rcases List.mem_cons.mp h with rfl | h
      · exact ⟨node, List.mem_cons_self .., rfl⟩
      · obtain ⟨other, hmem, heq⟩ := ih h
        exact ⟨other, List.mem_cons_of_mem _ hmem, heq⟩

theorem hasDictionaries_table_finish (hnodup : (members.map Prod.fst).Nodup)
    (h : ∀ member ∈ members, (Prod.snd member).toToml.HasDictionaries) :
    (Toml.table (finish members)).HasDictionaries := by
  refine .table ((map_fst_finish members).symm ▸ hnodup) fun member hmem => ?_
  obtain ⟨node, hnode, heq⟩ := exists_of_mem_finish hmem
  exact heq ▸ h _ hnode

theorem HasDictionaries.toToml {node : TomlNode} (h : node.HasDictionaries) : node.toToml.HasDictionaries := by
  induction h with
  | value h => exact h
  | table nodup _ ih => exact hasDictionaries_table_finish nodup ih
  | tables hearlier nodup _ ih =>
      refine .array fun element hmem => ?_
      rcases List.mem_append.mp hmem with hmem | hmem
      · exact hearlier element hmem
      · rw [List.mem_singleton.mp hmem]
        exact hasDictionaries_table_finish nodup ih

theorem AreDistinct.finish (h : AreDistinct members) : (Toml.table (finish members)).HasDictionaries :=
  hasDictionaries_table_finish h.nodup fun member hmem => (h.values member hmem).toToml

/-! ### Changing what stands under a key -/

/-- What a change puts under a key has every key once if what stood there had. -/
def Keeps (f : Option TomlNode → Option TomlNode) : Prop :=
  ∀ node? node, f node? = some node → (∀ old ∈ node?, HasDictionaries old) → node.HasDictionaries

theorem mem_keys_update {other : String} (h : update key f members = some after)
    (hmem : other ∈ after.map Prod.fst) : other = key ∨ other ∈ members.map Prod.fst := by
  induction members generalizing after with
  | nil =>
      obtain ⟨node, -, rfl⟩ := Option.map_eq_some_iff.mp h
      exact .inl (List.mem_singleton.mp hmem)
  | cons first rest ih =>
      obtain ⟨found, old⟩ := first
      rw [update] at h
      split at h
      · next heq =>
          obtain ⟨node, -, rfl⟩ := Option.map_eq_some_iff.mp h
          exact (List.mem_cons.mp hmem).imp id (List.mem_cons_of_mem _)
      · obtain ⟨more, hmore, rfl⟩ := Option.map_eq_some_iff.mp h
        rcases List.mem_cons.mp hmem with rfl | hmem
        · exact .inr (List.mem_cons_self ..)
        · exact (ih hmore hmem).imp id (List.mem_cons_of_mem _)

theorem AreDistinct.update (h : AreDistinct members) (hf : Keeps f)
    (hupdate : update key f members = some after) : AreDistinct after := by
  induction members generalizing after with
  | nil =>
      obtain ⟨node, hnode, rfl⟩ := Option.map_eq_some_iff.mp hupdate
      refine ⟨List.nodup_cons.mpr ⟨List.not_mem_nil, List.nodup_nil⟩, fun member hmem => ?_⟩
      rw [List.mem_singleton.mp hmem]
      exact hf none node hnode nofun
  | cons first rest ih =>
      obtain ⟨found, old⟩ := first
      obtain ⟨hfirst, hrest⟩ := List.nodup_cons.mp h.nodup
      rw [TomlNode.update] at hupdate
      split at hupdate
      · next heq =>
          obtain ⟨node, hnode, rfl⟩ := Option.map_eq_some_iff.mp hupdate
          refine ⟨List.nodup_cons.mpr ⟨heq ▸ hfirst, hrest⟩, fun member hmem => ?_⟩
          rcases List.mem_cons.mp hmem with rfl | hmem
          · refine hf (some old) node hnode fun other hother => ?_
            obtain rfl := Option.some.inj hother
            exact h.values _ (List.mem_cons_self ..)
          · exact h.values member (List.mem_cons_of_mem _ hmem)
      · next hne =>
          obtain ⟨more, hmore, rfl⟩ := Option.map_eq_some_iff.mp hupdate
          have hmoreDistinct := ih h.tail hmore
          refine ⟨List.nodup_cons.mpr ⟨fun hmem => ?_, hmoreDistinct.nodup⟩, fun member hmem => ?_⟩
          · exact (mem_keys_update hmore hmem).elim hne hfirst
          · rcases List.mem_cons.mp hmem with rfl | hmem
            · exact h.values _ (List.mem_cons_self ..)
            · exact hmoreDistinct.values member hmem

/-- By induction on the path: each table on the way is changed under one key. -/
theorem AreDistinct.within {isDotted : Bool} {g : Members → Option Members} (h : AreDistinct members)
    (hg : ∀ inner changed, AreDistinct inner → g inner = some changed → AreDistinct changed)
    (hwithin : within isDotted g path members = some after) : AreDistinct after := by
  induction path generalizing members after with
  | nil => exact hg members after h hwithin
  | cons key path ih =>
      refine h.update (fun node? node hnode hold => ?_) hwithin
      split at hnode
      · obtain ⟨inner, hinner, rfl⟩ := Option.map_eq_some_iff.mp hnode
        have hdistinct := ih areDistinct_nil hinner
        exact .table hdistinct.nodup hdistinct.values
      · split at hnode
        · cases hnode
        · obtain ⟨inner, hinner, rfl⟩ := Option.map_eq_some_iff.mp hnode
          cases hold _ rfl with
          | table nodup hvalues =>
              have hdistinct := ih ⟨nodup, hvalues⟩ hinner
              exact .table hdistinct.nodup hdistinct.values
      · split at hnode
        · cases hnode
        · obtain ⟨inner, hinner, rfl⟩ := Option.map_eq_some_iff.mp hnode
          cases hold _ rfl with
          | tables hearlier nodup hvalues =>
              have hdistinct := ih ⟨nodup, hvalues⟩ hinner
              exact .tables hearlier hdistinct.nodup hdistinct.values
      · cases hnode

theorem AreDistinct.updateAt (h : AreDistinct members) (hf : Keeps f)
    (hupdate : updateAt f path members = some after) : AreDistinct after := by
  rw [TomlNode.updateAt] at hupdate
  split at hupdate
  · cases hupdate
  · exact h.within (fun inner changed hinner hchanged => hinner.update hf hchanged) hupdate

/-! ### Headers, values and the end of dotted keys -/

theorem AreDistinct.openTable (h : AreDistinct members) (hopen : openTable path members = some after) :
    AreDistinct after := by
  refine h.updateAt (fun node? node hnode hold => ?_) hopen
  split at hnode
  · cases hnode
    exact .table List.nodup_nil nofun
  · cases hnode
    cases hold _ rfl with
    | table nodup hvalues => exact .table nodup hvalues
  · cases hnode

theorem AreDistinct.appendTable (h : AreDistinct members) (happend : appendTable path members = some after) :
    AreDistinct after := by
  refine h.updateAt (fun node? node hnode hold => ?_) happend
  split at hnode
  · cases hnode
    exact .tables nofun List.nodup_nil nofun
  · cases hnode
    cases hold _ rfl with
    | tables hearlier nodup hvalues =>
        refine .tables (fun table hmem => ?_) List.nodup_nil nofun
        rcases List.mem_append.mp hmem with hmem | hmem
        · exact hearlier table hmem
        · rw [List.mem_singleton.mp hmem]
          exact AreDistinct.finish ⟨nodup, hvalues⟩
  · cases hnode

theorem AreDistinct.insert {header keys : List String} {value : Toml} (h : AreDistinct members)
    (hvalue : value.HasDictionaries) (hinsert : insert header keys value members = some after) :
    AreDistinct after := by
  rw [TomlNode.insert] at hinsert
  split at hinsert
  · cases hinsert
  · refine h.within (fun inner changed hinner hchanged => ?_) hinsert
    refine hinner.within (fun last added hlast hadded => ?_) hchanged
    refine hlast.update (fun node? node hnode hold => ?_) hadded
    split at hnode
    · cases hnode
      exact .value hvalue
    · cases hnode

theorem AreDistinct.close (h : AreDistinct members) (path : List String) : AreDistinct (close path members) := by
  rw [TomlNode.close]
  cases hupdate : TomlNode.updateAt _ path members with
  | none => exact h
  | some after =>
      refine h.updateAt (fun node? node hnode hold => ?_) hupdate
      split at hnode
      · cases hnode
        cases hold _ rfl with
        | table nodup hvalues => exact .table nodup hvalues
      · cases hnode

end TomlNode

namespace Toml

variable {fault : TomlFault} {text rest : List Char} {value : Toml}

theorem demand_eq_ok_iff {α : Type} {found : Option α} {a : α} : demand found = .ok a ↔ found = some a := by
  cases found <;> simp [demand]

/-! ### Values -/

theorem isPlain_of_readBased? (h : readBased? text = some (value, rest)) : value.IsPlain := by
  unfold readBased? at h
  split at h
  · obtain ⟨base, -, h⟩ := Option.bind_eq_some_iff.mp h
    obtain ⟨⟨digits, more⟩, -, h⟩ := Option.bind_eq_some_iff.mp h
    cases h
    trivial
  · cases h

theorem isPlain_of_readDecimal? (h : readDecimal? text = some (.ok value, rest)) : value.IsPlain := by
  obtain ⟨⟨whole, more⟩, -, h⟩ := Option.bind_eq_some_iff.mp h
  dsimp only at h
  split at h
  · split at h
    · cases h
    · cases h
      trivial
  · cases h
    trivial

theorem isPlain_of_readSpecial? (h : readSpecial? text = some (value, rest)) : value.IsPlain := by
  unfold readSpecial? at h
  dsimp only at h
  split at h
  · cases h
    trivial
  · cases h
    trivial
  · cases h

theorem isPlain_of_readDate? (h : readDate? text = some (.ok value, rest)) : value.IsPlain := by
  obtain ⟨⟨year, _⟩, -, h⟩ := Option.bind_eq_some_iff.mp h
  obtain ⟨_, -, h⟩ := Option.bind_eq_some_iff.mp h
  obtain ⟨⟨month, _⟩, -, h⟩ := Option.bind_eq_some_iff.mp h
  obtain ⟨_, -, h⟩ := Option.bind_eq_some_iff.mp h
  obtain ⟨⟨day, _⟩, -, h⟩ := Option.bind_eq_some_iff.mp h
  dsimp only at h
  obtain ⟨h, -⟩ := Prod.mk.inj (Option.some.inj h)
  split at h
  · cases h
    trivial
  · cases h

theorem isPlain_of_readBoolean? (h : readBoolean? text = some (value, rest)) : value.IsPlain := by
  unfold readBoolean? at h
  split at h
  · cases h
    trivial
  · cases h
    trivial
  · cases h

theorem isPlain_of_readScalar (h : readScalar text = .ok (value, rest)) : value.IsPlain := by
  have hcertain : ∀ {found : Option (Toml × List Char)},
      found.map (fun read => ((.ok read.1 : Except TomlFault Toml), read.2)) = some (.ok value, rest) →
        found = some (value, rest) := by
    intro found hfound
    obtain ⟨⟨other, more⟩, rfl, heq⟩ := Option.map_eq_some_iff.mp hfound
    cases heq
    rfl
  unfold readScalar at h
  dsimp only at h
  split at h
  · next found =>
      cases h
      simp only [Option.orElse_eq_orElse, Option.orElse_eq_or, Option.or_eq_some_iff] at found
      rcases found with hstring | ⟨-, hboolean | ⟨-, hdate | ⟨-, htime | ⟨-, hbased | ⟨-, hdecimal | ⟨-, hspecial⟩⟩⟩⟩⟩⟩
      · obtain ⟨_, -, heq⟩ := Option.map_eq_some_iff.mp (hcertain hstring)
        cases heq
        trivial
      · exact isPlain_of_readBoolean? (hcertain hboolean)
      · exact isPlain_of_readDate? hdate
      · obtain ⟨_, -, heq⟩ := Option.map_eq_some_iff.mp (hcertain htime)
        cases heq
        trivial
      · exact isPlain_of_readBased? (hcertain hbased)
      · exact isPlain_of_readDecimal? hdecimal
      · exact isPlain_of_readSpecial? (hcertain hspecial)
  · cases h
  · cases h

/-- By induction on the fuel: an element, or a member, is read before those that come after it. -/
theorem hasDictionaries_of_read (fuel : Nat) :
    (∀ {text rest : List Char} {value : Toml}, readValue fuel text = .ok (value, rest) → value.HasDictionaries) ∧
      (∀ {text rest : List Char} {elements : List Toml}, readElements fuel text = .ok (elements, rest) →
        ∀ element ∈ elements, element.HasDictionaries) ∧
      ∀ {text rest : List Char} {members after : TomlNode.Members}, TomlNode.AreDistinct members →
        readMembers fuel members text = .ok (after, rest) → TomlNode.AreDistinct after := by
  induction fuel with
  | zero => exact ⟨nofun, nofun, fun _ => nofun⟩
  | succ fuel ih =>
      obtain ⟨hvalue, helements, hmembers⟩ := ih
      refine ⟨fun h => ?_, fun h => ?_, fun hbefore h => ?_⟩
      · rw [readValue.eq_def] at h
        dsimp only at h
        split at h
        · obtain ⟨_, -, h⟩ := bind_eq_ok_iff.mp h
          obtain ⟨⟨elements, _⟩, hread, h⟩ := bind_eq_ok_iff.mp h
          cases h
          exact .array (helements hread)
        · obtain ⟨_, -, h⟩ := bind_eq_ok_iff.mp h
          obtain ⟨⟨members, _⟩, hread, h⟩ := bind_eq_ok_iff.mp h
          cases h
          exact (hmembers TomlNode.areDistinct_nil hread).finish
        · exact .plain (isPlain_of_readScalar h)
      · rw [readElements.eq_def] at h
        dsimp only at h
        split at h
        · cases h
          exact nofun
        · obtain ⟨⟨first, _⟩, hfirst, h⟩ := bind_eq_ok_iff.mp h
          obtain ⟨_, -, h⟩ := bind_eq_ok_iff.mp h
          split at h
          · cases h
            intro element hmem
            rw [List.mem_singleton.mp hmem]
            exact hvalue hfirst
          · obtain ⟨_, -, h⟩ := bind_eq_ok_iff.mp h
            obtain ⟨⟨more, _⟩, hmore, h⟩ := bind_eq_ok_iff.mp h
            cases h
            intro element hmem
            rcases List.mem_cons.mp hmem with rfl | hmem
            · exact hvalue hfirst
            · exact helements hmore element hmem
          · cases h
      · rw [readMembers.eq_def] at h
        dsimp only at h
        split at h
        · cases h
          exact hbefore
        · obtain ⟨⟨key, _⟩, -, h⟩ := bind_eq_ok_iff.mp h
          obtain ⟨_, -, h⟩ := bind_eq_ok_iff.mp h
          obtain ⟨⟨found, _⟩, hfound, h⟩ := bind_eq_ok_iff.mp h
          obtain ⟨changed, hchanged, h⟩ := bind_eq_ok_iff.mp h
          have hdistinct := hbefore.insert (hvalue hfound) (demand_eq_ok_iff.mp hchanged)
          obtain ⟨_, -, h⟩ := bind_eq_ok_iff.mp h
          split at h
          · cases h
            exact hdistinct
          · obtain ⟨_, -, h⟩ := bind_eq_ok_iff.mp h
            exact hmembers hdistinct h
          · cases h

/-! ### Documents -/

namespace DocumentReader

variable {reader after : DocumentReader}

theorem areDistinct_settled (h : TomlNode.AreDistinct reader.members) :
    TomlNode.AreDistinct reader.settled.members := by
  rw [settled]
  generalize reader.dotted = paths
  generalize reader.members = members at h ⊢
  induction paths generalizing members with
  | nil => exact h
  | cons path paths ih => exact ih _ (h.close path)

theorem areDistinct_of_header? {isArray : Bool} (h : TomlNode.AreDistinct reader.members)
    (hheader : reader.header? isArray text = .ok (after, rest)) : TomlNode.AreDistinct after.members := by
  obtain ⟨⟨path, _⟩, -, hheader⟩ := bind_eq_ok_iff.mp hheader
  obtain ⟨members, hmembers, hheader⟩ := bind_eq_ok_iff.mp hheader
  obtain ⟨_, -, hheader⟩ := bind_eq_ok_iff.mp hheader
  have hadded := demand_eq_ok_iff.mp hmembers
  cases isArray with
  | true =>
      obtain ⟨_, -, hheader⟩ := bind_eq_ok_iff.mp hheader
      cases hheader
      exact (areDistinct_settled h).appendTable hadded
  | false =>
      cases hheader
      exact (areDistinct_settled h).openTable hadded

theorem areDistinct_of_member? (h : TomlNode.AreDistinct reader.members)
    (hmember : reader.member? text = .ok (after, rest)) : TomlNode.AreDistinct after.members := by
  obtain ⟨⟨key, _⟩, -, hmember⟩ := bind_eq_ok_iff.mp hmember
  obtain ⟨_, -, hmember⟩ := bind_eq_ok_iff.mp hmember
  obtain ⟨⟨value, _⟩, hvalue, hmember⟩ := bind_eq_ok_iff.mp hmember
  obtain ⟨members, hmembers, hmember⟩ := bind_eq_ok_iff.mp hmember
  cases hmember
  exact h.insert ((hasDictionaries_of_read _).1 hvalue) (demand_eq_ok_iff.mp hmembers)

theorem areDistinct_of_statement (h : TomlNode.AreDistinct reader.members)
    (hstatement : reader.statement text = .ok (after, rest)) : TomlNode.AreDistinct after.members := by
  rw [statement.eq_def] at hstatement
  split at hstatement
  · cases hstatement
    exact h
  · cases hstatement
    exact h
  · cases hstatement
    exact h
  · exact areDistinct_of_header? h hstatement
  · exact areDistinct_of_header? h hstatement
  · exact areDistinct_of_member? h hstatement

theorem areDistinct_of_readLines {fuel : Nat} (h : TomlNode.AreDistinct reader.members)
    (hread : readLines fuel reader text = .ok after) : TomlNode.AreDistinct after.members := by
  induction fuel generalizing reader text with
  | zero => cases hread
  | succ fuel ih =>
      rw [readLines] at hread
      obtain ⟨⟨next, _⟩, hnext, hread⟩ := bind_eq_ok_iff.mp hread
      have hdistinct := areDistinct_of_statement h hnext
      obtain ⟨_, -, hread⟩ := bind_eq_ok_iff.mp hread
      split at hread
      · cases hread
        exact hdistinct
      · exact ih hdistinct hread
      · cases hread

end DocumentReader

/-- **A document that is read** gives every key once, in each of its tables. -/
theorem hasDictionaries_of_readDocument {members : List (String × Toml)} (h : readDocument text = .ok members) :
    (Toml.table members).HasDictionaries := by
  obtain ⟨reader, hreader, h⟩ := bind_eq_ok_iff.mp h
  cases h
  exact (DocumentReader.areDistinct_of_readLines TomlNode.areDistinct_nil hreader).finish

end Toml

end ManifestLens
