import ManifestLens.Error.Basic

/-!
# Results that may be failures

Work in steps fails as its first step that fails does, and has a value just if all its steps have one.
-/

namespace ManifestLens

variable {ε φ α β : Type} {x : Except ε α} {f : α → Except ε β} {fault : ε}

theorem bind_eq_ok_iff {value : β} :
    (x >>= f) = .ok value ↔ ∃ a, x = .ok a ∧ f a = .ok value := by
  cases x with
  | error other =>
      constructor
      · intro h
        cases h
      · rintro ⟨a, ha, -⟩
        cases ha
  | ok a =>
      constructor
      · exact fun h => ⟨a, rfl, h⟩
      · rintro ⟨b, hb, h⟩
        cases hb
        exact h

theorem bind_eq_error_iff :
    (x >>= f) = .error fault ↔ x = .error fault ∨ ∃ a, x = .ok a ∧ f a = .error fault := by
  cases x with
  | error other =>
      constructor
      · intro h
        cases h
        exact .inl rfl
      · rintro (h | ⟨a, ha, -⟩)
        · cases h
          rfl
        · cases ha
  | ok a =>
      constructor
      · exact fun h => .inr ⟨a, rfl, h⟩
      · rintro (h | ⟨b, hb, h⟩)
        · cases h
        · cases hb
          exact h

theorem eq_ok_of_toOption {value : α} (h : x.toOption = some value) : x = .ok value := by
  cases x with
  | error other => cases h
  | ok found =>
      cases h
      rfl

theorem mapError_eq_error_iff {g : ε → φ} {told : φ} :
    x.mapError g = .error told ↔ ∃ fault, x = .error fault ∧ g fault = told := by
  cases x with
  | error fault =>
      constructor
      · exact fun h => ⟨fault, rfl, Except.error.inj h⟩
      · rintro ⟨other, hother, rfl⟩
        cases hother
        rfl
  | ok a =>
      constructor
      · intro h
        cases h
      · rintro ⟨other, hother, -⟩
        cases hother

theorem mapError_eq_ok_iff {g : ε → φ} {a : α} : x.mapError g = .ok a ↔ x = .ok a := by
  cases x with
  | error fault =>
      constructor
      · intro h
        cases h
      · intro h
        cases h
  | ok b =>
      constructor
      · exact fun h => congrArg Except.ok (Except.ok.inj h)
      · exact fun h => congrArg Except.ok (Except.ok.inj h)

theorem toOption_eq_some_iff {a : α} : x.toOption = some a ↔ x = .ok a := by
  cases x with
  | error fault =>
      constructor
      · intro h
        cases h
      · intro h
        cases h
  | ok b =>
      constructor
      · exact fun h => congrArg Except.ok (Option.some.inj h)
      · exact fun h => congrArg some (Except.ok.inj h)

theorem map_eq_ok_iff {g : α → β} {b : β} : x.map g = .ok b ↔ ∃ a, x = .ok a ∧ g a = b := by
  cases x <;> simp [Except.map]

theorem map_eq_error_iff {g : α → β} : x.map g = .error fault ↔ x = .error fault := by
  cases x <;> simp [Except.map]

/-- What comes of a list of work in steps comes of its elements. -/
theorem exists_of_mem_of_mapM {xs : List α} {ys : List β} (h : xs.mapM f = .ok ys) {b : β} (hb : b ∈ ys) :
    ∃ a ∈ xs, f a = .ok b := by
  induction xs generalizing ys with
  | nil =>
      cases h
      cases hb
  | cons a rest ih =>
      rw [List.mapM_cons] at h
      obtain ⟨c, hc, h⟩ := bind_eq_ok_iff.mp h
      obtain ⟨more, hmore, h⟩ := bind_eq_ok_iff.mp h
      cases h
      rcases List.mem_cons.mp hb with rfl | hb
      · exact ⟨a, List.mem_cons_self .., hc⟩
      · obtain ⟨d, hd, hfd⟩ := ih hmore hb
        exact ⟨d, List.mem_cons_of_mem _ hd, hfd⟩

theorem mapM_filter {xs : List α} {ys : List β} {p : α → Bool} {q : β → Bool} (h : xs.mapM f = .ok ys)
    (hpq : ∀ a b, f a = .ok b → q b = p a) : (xs.filter p).mapM f = .ok (ys.filter q) := by
  induction xs generalizing ys with
  | nil =>
      cases h
      rfl
  | cons a rest ih =>
      rw [List.mapM_cons] at h
      obtain ⟨b, hb, h⟩ := bind_eq_ok_iff.mp h
      obtain ⟨more, hmore, h⟩ := bind_eq_ok_iff.mp h
      cases h
      rw [List.filter_cons, List.filter_cons, hpq a b hb]
      split
      · rw [List.mapM_cons, hb, ih hmore]
        rfl
      · exact ih hmore

end ManifestLens
