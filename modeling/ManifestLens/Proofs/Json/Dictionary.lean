import ManifestLens.Json.Basic
import ManifestLens.Json.Reader

/-!
# Objects that have been read

A key that a text gives twice is set twice, so an object that has been read has every key once. Both the
object itself and those that its members hold are dictionaries in this sense.
-/

namespace ManifestLens

namespace Json

variable {key : String} {value : Json} {members : List (String × Json)} {fuel : Nat} {text rest : List Char}

/-- An object has every key once. -/
def IsDictionary : Json → Prop
  | .object members => (members.map Prod.fst).Nodup
  | _ => True

/-- An object has every key once, and so has every object among its members. -/
def HasDictionaries : Json → Prop
  | .object members => (members.map Prod.fst).Nodup ∧ ∀ member ∈ members, member.2.IsDictionary
  | _ => True

theorem HasDictionaries.isDictionary (h : value.HasDictionaries) : value.IsDictionary := by
  cases value with
  | object members => exact h.1
  | null | bool | number | string | array => trivial

/-! ### Setting a member -/

theorem mem_keys_setMember {other : String} :
    other ∈ (setMember key value members).map Prod.fst ↔ other = key ∨ other ∈ members.map Prod.fst := by
  induction members with
  | nil => simp [setMember]
  | cons member more ih =>
      rw [setMember]
      split
      · next heq => simp [heq]
      · rw [List.map_cons, List.mem_cons, ih, List.map_cons, List.mem_cons]
        exact or_left_comm

theorem nodup_setMember (h : (members.map Prod.fst).Nodup) :
    ((setMember key value members).map Prod.fst).Nodup := by
  induction members with
  | nil => simp [setMember]
  | cons member more ih =>
      obtain ⟨hfirst, hmore⟩ := List.nodup_cons.mp h
      rw [setMember]
      split
      · next heq =>
          rw [List.map_cons, ← heq]
          exact h
      · next hne =>
          refine List.nodup_cons.mpr ⟨fun hmem => ?_, ih hmore⟩
          exact (mem_keys_setMember.mp hmem).elim hne hfirst

theorem eq_or_mem_of_mem_setMember {member : String × Json} (h : member ∈ setMember key value members) :
    member = (key, value) ∨ member ∈ members := by
  induction members with
  | nil => exact .inl (List.mem_singleton.mp h)
  | cons first more ih =>
      rw [setMember] at h
      split at h
      · exact (List.mem_cons.mp h).imp id (List.mem_cons_of_mem _)
      · rcases List.mem_cons.mp h with rfl | h
        · exact .inr (List.mem_cons_self ..)
        · exact (ih h).imp id (List.mem_cons_of_mem _)

theorem HasDictionaries.setMember (key : String) (h : (Json.object members).HasDictionaries)
    (hvalue : value.HasDictionaries) :
    (Json.object (setMember key value members)).HasDictionaries := by
  refine ⟨nodup_setMember h.1, fun member hmem => ?_⟩
  rcases eq_or_mem_of_mem_setMember hmem with rfl | hmem
  · exact hvalue.isDictionary
  · exact h.2 member hmem

/-! ### Reading -/

theorem hasDictionaries_of_readItems? {reversed : List Json} (h : readItems? fuel reversed text = some (value, rest)) :
    value.HasDictionaries := by
  induction fuel generalizing reversed text with
  | zero => cases h
  | succ fuel ih =>
      rw [readItems?] at h
      obtain ⟨⟨item, more⟩, -, h⟩ := Option.bind_eq_some_iff.mp h
      dsimp only at h
      split at h
      · exact ih h
      · cases h
        trivial
      · cases h

theorem hasDictionaries_of_readWord? (h : readWord? text = some (value, rest)) : value.HasDictionaries := by
  obtain ⟨⟨word, found⟩, hmem, h⟩ := List.exists_of_findSome?_eq_some h
  obtain ⟨after, -, heq⟩ := Option.map_eq_some_iff.mp h
  cases heq
  simp only [words, List.mem_cons, Prod.mk.injEq, List.not_mem_nil, or_false] at hmem
  rcases hmem with ⟨-, rfl⟩ | ⟨-, rfl⟩ | ⟨-, rfl⟩ | ⟨-, rfl⟩ | ⟨-, rfl⟩ | ⟨-, rfl⟩ <;> trivial

/-- By induction on the fuel: a value is read before the members that come after it. -/
theorem hasDictionaries_of_read (fuel : Nat) :
    (∀ {text rest : List Char} {value : Json}, readValue? fuel text = some (value, rest) → value.HasDictionaries) ∧
      ∀ {members : List (String × Json)} {text rest : List Char} {value : Json},
        (Json.object members).HasDictionaries → readMembers? fuel members text = some (value, rest) →
          value.HasDictionaries := by
  induction fuel with
  | zero => exact ⟨nofun, fun _ => nofun⟩
  | succ fuel ih =>
      obtain ⟨hvalue, hmembers⟩ := ih
      have hempty : (Json.object []).HasDictionaries := ⟨List.nodup_nil, fun _ => nofun⟩
      refine ⟨fun h => ?_, fun hbefore h => ?_⟩
      · rw [readValue?.eq_def] at h
        dsimp only at h
        split at h
        · obtain ⟨_, -, heq⟩ := Option.map_eq_some_iff.mp h
          cases heq
          trivial
        · split at h
          · cases h
            trivial
          · exact hasDictionaries_of_readItems? h
        · split at h
          · cases h
            exact hempty
          · exact hmembers hempty h
        · rcases Option.or_eq_some_iff.mp (Option.orElse_eq_or.symm.trans h) with h | ⟨-, h⟩
          · exact hasDictionaries_of_readWord? h
          · obtain ⟨_, -, heq⟩ := Option.map_eq_some_iff.mp h
            cases heq
            trivial
      · rw [readMembers?.eq_def] at h
        dsimp only at h
        split at h
        · obtain ⟨⟨key, afterKey⟩, -, h⟩ := Option.bind_eq_some_iff.mp h
          dsimp only at h
          split at h
          · obtain ⟨⟨found, afterValue⟩, hfound, h⟩ := Option.bind_eq_some_iff.mp h
            have hset := hbefore.setMember key (hvalue hfound)
            dsimp only at h
            split at h
            · exact hmembers hset h
            · cases h
              exact hset
            · cases h
          · cases h
        · cases h

/-- **A text that is read** gives every key once. -/
theorem hasDictionaries_of_read? (h : read? text = some value) : value.HasDictionaries := by
  obtain ⟨⟨found, rest⟩, hread, h⟩ := Option.bind_eq_some_iff.mp h
  dsimp only at h
  split at h
  · cases h
    exact (hasDictionaries_of_read _).1 hread
  · cases h

theorem HasDictionaries.isDictionary_of_member? (h : (Json.object members).HasDictionaries)
    (hmember : member? key members = some value) : value.IsDictionary := by
  obtain ⟨member, hfind, rfl⟩ := Option.map_eq_some_iff.mp hmember
  exact h.2 member (List.mem_of_find?_eq_some hfind)

end Json

end ManifestLens
