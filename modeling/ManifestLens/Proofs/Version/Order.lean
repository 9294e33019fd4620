import ManifestLens.Proofs.Version.Preorder
import ManifestLens.Proofs.Version.Release
import ManifestLens.Version.Update

/-!
# The order of the packaging standard

Versions compare by keys, so they stand in a total preorder, where two versions are equal just if their parts are, the
release up to the zeros at its end. Releases compare number by number, so what lies between two releases that agree in
their leading places agrees with both of them there.
-/

namespace ManifestLens

namespace Version

/-! ### Keys -/

instance : Std.TransCmp compare :=
  have := NaturalVersion.transCmp_of_key Ord.compare publicKey
  have := NaturalVersion.transCmp_of_key Ord.compare localKey
  inferInstanceAs (Std.TransCmp (compareLex (fun v w : Version => Ord.compare v.publicKey w.publicKey)
    fun v w => Ord.compare v.localKey w.localKey))

theorem rank_injective : Function.Injective PreStage.rank := by
  intro left right h
  cases left <;> cases right <;> first | rfl | cases h

theorem LocalPart.key_injective : Function.Injective LocalPart.key := by
  intro left right h
  cases left with
  | number m =>
      cases right with
      | number n => simpa [LocalPart.key] using h
      | word text => simp [LocalPart.key] at h
  | word text =>
      cases right with
      | number n => simp [LocalPart.key] at h
      | word other =>
          have htexts : text.map Char.toNat = other.map Char.toNat := by simpa [LocalPart.key] using h
          rw [List.map_injective_iff.mpr (fun _ _ => Char.toNat_inj.mp) htexts]

variable {v w : Version}

/-- Beside the other segments, the key of the pre-release segment tells the segment. -/
theorem preKey_eq_iff (hpost : v.post = w.post) (hdev : v.dev = w.dev) : v.preKey = w.preKey ↔ v.pre = w.pre := by
  constructor
  · intro h
    unfold preKey at h
    rw [hpost, hdev] at h
    rcases hv : v.pre with _ | ⟨stage, n⟩ <;> rcases hw : w.pre with _ | ⟨stage', n'⟩ <;>
      rw [hv, hw] at h <;> dsimp only at h
    · split at h <;> cases h
    · split at h <;> cases h
    · have hparts : stage.rank = stage'.rank ∧ n = n' := by simpa using h
      rw [rank_injective hparts.1, hparts.2]
  · intro h
    rw [preKey, preKey, h, hpost, hdev]

/-- **Equal versions** have the same parts, where zeros at the end of the release do not count. -/
theorem same_iff : v.same w = true ↔ v.epoch = w.epoch ∧ significant v.release = significant w.release ∧
    v.pre = w.pre ∧ v.post = w.post ∧ v.dev = w.dev ∧ v.localParts = w.localParts := by
  have hlocal : v.localKey = w.localKey ↔ v.localParts = w.localParts :=
    (List.map_injective_iff.mpr LocalPart.key_injective).eq_iff
  rw [same, beq_iff_eq, compare, Ordering.then_eq_eq, Std.compare_eq_iff_eq, Std.compare_eq_iff_eq, hlocal, publicKey,
    publicKey]
  constructor
  · rintro ⟨hkeys, hparts⟩
    simp only [List.cons.injEq, and_true] at hkeys
    obtain ⟨hepoch, hrelease, hpre, hpost, hdev⟩ := hkeys
    have hpost' : v.post = w.post := by
      cases hv : v.post <;> cases hw : w.post <;> simp only [hv, hw] at hpost <;> grind
    have hdev' : v.dev = w.dev := by
      cases hv : v.dev <;> cases hw : w.dev <;> simp only [hv, hw] at hdev <;> grind
    exact ⟨hepoch, hrelease, (preKey_eq_iff hpost' hdev').mp hpre, hpost', hdev', hparts⟩
  · rintro ⟨hepoch, hrelease, hpre, hpost, hdev, hparts⟩
    rw [hepoch, hrelease, (preKey_eq_iff hpost hdev).mpr hpre, hpost, hdev]
    exact ⟨rfl, hparts⟩

/-! ### Releases -/

/-- In the leading places the two releases have the same numbers, where a missing one is zero. -/
def AgreeIn (places : Nat) (left right : List Nat) : Prop := ∀ i < places, left.getD i 0 = right.getD i 0

instance (places : Nat) (left right : List Nat) : Decidable (AgreeIn places left right) :=
  inferInstanceAs (Decidable (∀ i < places, _))

variable {places : Nat} {left middle right : List Nat}

theorem AgreeIn.refl (places : Nat) (release : List Nat) : AgreeIn places release release := by
  intro i _
  rfl

theorem AgreeIn.trans (hleft : AgreeIn places left middle) (hright : AgreeIn places middle right) :
    AgreeIn places left right := by
  intro i hi
  exact (hleft i hi).trans (hright i hi)

theorem agreeIn_zero (left right : List Nat) : AgreeIn 0 left right := by
  intro i hi
  exact absurd hi (Nat.not_lt_zero i)

theorem agreeIn_succ_iff : AgreeIn (places + 1) left right
    ↔ left.headD 0 = right.headD 0 ∧ AgreeIn places left.tail right.tail := by
  unfold AgreeIn
  rw [Nat.forall_lt_succ_left]
  cases left <;> cases right <;> simp

theorem compareRelease_eq_lt_iff : compareRelease left right = .lt ↔ left.headD 0 < right.headD 0 ∨
    left.headD 0 = right.headD 0 ∧ compareRelease left.tail right.tail = .lt := by
  rw [compareRelease_eq_then, Ordering.then_eq_lt, Nat.compare_eq_lt, Nat.compare_eq_eq]

theorem isLE_compareRelease_iff : (compareRelease left right).isLE = true ↔ left.headD 0 < right.headD 0 ∨
    left.headD 0 = right.headD 0 ∧ (compareRelease left.tail right.tail).isLE = true := by
  rw [compareRelease_eq_then, Ordering.isLE_then_iff_or, Nat.compare_eq_lt, Nat.compare_eq_eq]

theorem agreeIn_iff_of_between (hlower : (compareRelease left middle).isLE = true)
    (hupper : (compareRelease middle right).isLE = true) :
    AgreeIn places left right ↔ AgreeIn places left middle ∧ AgreeIn places middle right := by
  refine ⟨fun hagree => ?_, fun ⟨hleft, hright⟩ => hleft.trans hright⟩
  induction places generalizing left middle right with
  | zero => exact ⟨agreeIn_zero _ _, agreeIn_zero _ _⟩
  | succ places ih =>
      rw [isLE_compareRelease_iff] at hlower hupper
      rw [agreeIn_succ_iff] at hagree
      obtain ⟨hends, htails⟩ := hagree
      have hfirst : left.headD 0 = middle.headD 0 := by omega
      have hsecond : middle.headD 0 = right.headD 0 := by omega
      obtain ⟨-, hlower⟩ := hlower.resolve_left (by omega)
      obtain ⟨-, hupper⟩ := hupper.resolve_left (by omega)
      obtain ⟨hleft, hright⟩ := ih hlower hupper htails
      exact ⟨agreeIn_succ_iff.mpr ⟨hfirst, hleft⟩, agreeIn_succ_iff.mpr ⟨hsecond, hright⟩⟩

/-! ### Versions -/

theorem lt_trans {u : Version} (hlower : u < v) (hupper : v < w) : u < w := by
  have hfirst : u.compare v = .lt := hlower
  have hsecond : v.compare w = .lt := hupper
  have hwhole : u.compare w = .lt := Std.TransCmp.lt_trans hfirst hsecond
  exact hwhole

theorem epoch_le_of_lt (h : v < w) : v.epoch ≤ w.epoch := by
  have hcompare : v.compare w = .lt := h
  rw [compare_eq_then, compareBase, Ordering.then_assoc, Ordering.then_eq_lt, Nat.compare_eq_lt,
    Nat.compare_eq_eq] at hcompare
  omega

theorem compareBase_of_epoch_eq (hepoch : v.epoch = w.epoch) :
    v.compareBase w = compareRelease v.release w.release := by
  rw [compareBase, hepoch, Std.compare_self, Ordering.eq_then]

theorem isLE_compareRelease_of_lt (h : v < w) (hepoch : v.epoch = w.epoch) :
    (compareRelease v.release w.release).isLE = true := by
  have hcompare : v.compare w = .lt := h
  rw [compare_eq_then, compareBase_of_epoch_eq hepoch, Ordering.then_eq_lt] at hcompare
  rcases hcompare with hlt | ⟨heq, -⟩
  · rw [hlt]
    rfl
  · rw [heq]
    rfl

end Version

end ManifestLens

/-!
## The scale of updates

The kind of an update tells in how many leading places the two releases agree. A version between two others of one
epoch parts from one of them where they part, so an update in two steps is as severe as the more severe of the steps.
-/

namespace ManifestLens

namespace UpdateKind

open Version (AgreeIn compareRelease)

/-- The update is a step forward. -/
def IsStep (kind : UpdateKind) : Prop := kind = .major ∨ kind = .minor ∨ kind = .patch ∨ kind = .update

theorem IsStep.ne_same {kind : UpdateKind} (h : IsStep kind) : kind ≠ .same := by
  rcases h with rfl | rfl | rfl | rfl <;> decide

theorem IsStep.ne_downgrade {kind : UpdateKind} (h : IsStep kind) : kind ≠ .downgrade := by
  rcases h with rfl | rfl | rfl | rfl <;> decide

/-- How much a step forward may break. -/
def severity : UpdateKind → Nat
  | .major => 3
  | .minor => 2
  | .patch => 1
  | _ => 0

def moreSevere (left right : UpdateKind) : UpdateKind := if left.severity < right.severity then right else left

theorem severity_moreSevere (left right : UpdateKind) :
    (moreSevere left right).severity = max left.severity right.severity := by
  unfold moreSevere
  split <;> omega

theorem isStep_moreSevere {left right : UpdateKind} (hleft : IsStep left) (hright : IsStep right) :
    IsStep (moreSevere left right) := by
  unfold moreSevere
  split
  · exact hright
  · exact hleft

theorem IsStep.eq_of_severity_eq {left right : UpdateKind} (hleft : IsStep left) (hright : IsStep right)
    (h : left.severity = right.severity) : left = right := by
  rcases hleft with rfl | rfl | rfl | rfl <;> rcases hright with rfl | rfl | rfl | rfl <;> first | rfl | cases h

/-! ### Steps -/

variable {u v w : Version}

theorem isStep_ofStep (v w : Version) : IsStep (ofStep v w) := by
  unfold ofStep IsStep
  split_ifs <;> simp

/-- What holds in all places before one where it does not, holds in just these leading places. -/
theorem forall_lt_iff_of_first {p : Nat → Prop} {first places : Nat} (hbefore : ∀ i < first, p i) (hat : ¬ p first) :
    (∀ i < places, p i) ↔ places ≤ first := by
  constructor
  · intro hall
    by_contra hlt
    exact hat (hall first (Nat.lt_of_not_le hlt))
  · intro hle i hi
    exact hbefore i (hi.trans_le hle)

theorem severity_ofStep_le_iff {n : Nat} : (ofStep v w).severity ≤ n ↔ AgreeIn (3 - n) v.release w.release := by
  change _ ↔ ∀ i < 3 - n, component v i = component w i
  unfold ofStep
  split_ifs with hmajor hminor hpatch
  · have hbefore : ∀ i < 0, component v i = component w i := by simp
    rw [forall_lt_iff_of_first (p := fun i => component v i = component w i) hbefore hmajor, severity]
    omega
  · have hbefore : ∀ i < 1, component v i = component w i := by simpa using hmajor
    rw [forall_lt_iff_of_first (p := fun i => component v i = component w i) hbefore hminor, severity]
    omega
  · have hbefore : ∀ i < 2, component v i = component w i := by
      rw [Nat.forall_lt_succ_right]
      exact ⟨by simpa using hmajor, by simpa using hminor⟩
    rw [forall_lt_iff_of_first (p := fun i => component v i = component w i) hbefore hpatch, severity]
    omega
  · have hall : ∀ i < 3, component v i = component w i := by
      rw [Nat.forall_lt_succ_right, Nat.forall_lt_succ_right]
      exact ⟨⟨by simpa using hmajor, by simpa using hminor⟩, by simpa using hpatch⟩
    simp only [severity, Nat.zero_le, true_iff]
    intro i hi
    exact hall i (hi.trans_le (Nat.sub_le 3 n))

/-- **A step over a version in between** is as severe as the more severe of its two parts. -/
theorem severity_ofStep_of_between (hlower : (compareRelease u.release v.release).isLE = true)
    (hupper : (compareRelease v.release w.release).isLE = true) :
    (ofStep u w).severity = max (ofStep u v).severity (ofStep v w).severity := by
  apply eq_of_forall_ge_iff
  intro n
  rw [Nat.max_le, severity_ofStep_le_iff, severity_ofStep_le_iff, severity_ofStep_le_iff]
  exact Version.agreeIn_iff_of_between hlower hupper

/-! ### Any two versions -/

theorem ofVersions_eq (v w : Version) : ofVersions v w = match v.compare w with
    | .lt => ofStep v w
    | .eq => .same
    | .gt => .downgrade := by
  have hswap : w.compare v = (v.compare w).swap := Std.OrientedCmp.eq_swap
  rw [ofVersions, hswap]
  cases v.compare w <;> rfl

theorem ofVersions_of_lt (h : v < w) : ofVersions v w = ofStep v w := by
  have hcompare : v.compare w = .lt := h
  rw [ofVersions_eq, hcompare]

theorem ofVersions_eq_same_iff : ofVersions v w = .same ↔ v.same w = true := by
  have hstep := (isStep_ofStep v w).ne_same
  rw [ofVersions_eq, Version.same]
  cases v.compare w <;> simp [hstep]

theorem ofVersions_eq_downgrade_iff : ofVersions v w = .downgrade ↔ w < v := by
  have hstep := (isStep_ofStep v w).ne_downgrade
  have hlt : w < v ↔ v.compare w = .gt := by
    change w.compare v = .lt ↔ _
    exact Std.OrientedCmp.gt_iff_lt.symm
  rw [ofVersions_eq, hlt]
  cases v.compare w <;> simp [hstep]

theorem isStep_ofVersions_iff : IsStep (ofVersions v w) ↔ v < w := by
  have hlt : v < w ↔ v.compare w = .lt := Iff.rfl
  rw [ofVersions_eq, hlt]
  cases v.compare w with
  | lt => simp [isStep_ofStep]
  | eq => exact iff_of_false (fun h => h.ne_same rfl) (by decide)
  | gt => exact iff_of_false (fun h => h.ne_downgrade rfl) (by decide)

theorem ofVersions_of_between (hlower : u < v) (hupper : v < w) (hepoch : u.epoch = w.epoch) :
    ofVersions u w = moreSevere (ofVersions u v) (ofVersions v w) := by
  have hfirst : u.epoch = v.epoch := by
    have := Version.epoch_le_of_lt hlower
    have := Version.epoch_le_of_lt hupper
    omega
  have hwhole := Version.lt_trans hlower hupper
  apply IsStep.eq_of_severity_eq
  · exact isStep_ofVersions_iff.mpr hwhole
  · exact isStep_moreSevere (isStep_ofVersions_iff.mpr hlower) (isStep_ofVersions_iff.mpr hupper)
  · rw [severity_moreSevere, ofVersions_of_lt hlower, ofVersions_of_lt hupper, ofVersions_of_lt hwhole]
    apply severity_ofStep_of_between
    · exact Version.isLE_compareRelease_of_lt hlower hfirst
    · exact Version.isLE_compareRelease_of_lt hupper (hfirst.symm.trans hepoch)

/-! ### Version texts -/

theorem between_eq {a b : List Char} (ha : Version.parse? a = some v) (hb : Version.parse? b = some w) :
    between (some a) (some b) = ofVersions v w := by
  simp only [between, ha, hb]

end UpdateKind

end ManifestLens
