import ManifestLens.Number.Basic
import ManifestLens.Number.Binary64
import Mathlib.Algebra.Order.Field.Power
import Mathlib.Data.Rat.Cast.Order
import Mathlib.Tactic.FieldSimp
import Mathlib.Tactic.GCongr
import Mathlib.Tactic.Linarith
import Mathlib.Tactic.Positivity
import Mathlib.Tactic.Ring

/-!
# Rounding keeps the order

A greater quotient is never rounded to a smaller double. Between powers of two all doubles stand on one grid, on
which rounding to the nearest point keeps the order; and it never leaves the interval between two powers, since
these are points of the grid themselves.
-/

namespace ManifestLens

/-! ### Rounding to a whole number -/

section HalfEven

variable {n d n' d' k : Nat}

theorem roundHalfEven_le_succ (n d : Nat) : roundHalfEven n d ≤ n / d + 1 := by
  unfold roundHalfEven
  grind

theorem div_le_roundHalfEven (n d : Nat) : n / d ≤ roundHalfEven n d := by
  unfold roundHalfEven
  grind

theorem div_le_div_of_mul_le (hd : 0 < d) (hd' : 0 < d') (h : n * d' ≤ n' * d) : n / d ≤ n' / d' := by
  rw [Nat.le_div_iff_mul_le hd']
  refine Nat.le_of_mul_le_mul_right ?_ hd
  calc n / d * d' * d = n / d * d * d' := Nat.mul_right_comm _ _ _
    _ ≤ n * d' := Nat.mul_le_mul_right d' (Nat.div_mul_le_self n d)
    _ ≤ n' * d := h

/-- **Rounding to a whole number keeps the order.** Two quotients with the same whole part are told apart by their
remainders, and a half goes the same way for both. -/
theorem roundHalfEven_mono (hd : 0 < d) (hd' : 0 < d') (h : n * d' ≤ n' * d) :
    roundHalfEven n d ≤ roundHalfEven n' d' := by
  rcases Nat.lt_or_eq_of_le (div_le_div_of_mul_le hd hd' h) with hless | hsame
  · exact (roundHalfEven_le_succ n d).trans (hless.trans_le (div_le_roundHalfEven n' d'))
  · have hremainder : n % d * d' ≤ n' % d' * d := by
      have hn := Nat.div_add_mod n d
      have hn' := Nat.div_add_mod n' d'
      rw [← hsame] at hn'
      rw [← hn, ← hn'] at h
      have hcomm : d * (n / d) * d' = d' * (n / d) * d := by ring
      simp only [Nat.add_mul, hcomm] at h
      omega
    have htwice : d < 2 * (n % d) → d' < 2 * (n' % d') := by
      intro hup
      by_contra hnot
      have hleft : d * d' < 2 * (n % d) * d' := Nat.mul_lt_mul_of_pos_right hup hd'
      have hright : 2 * (n' % d') * d ≤ d' * d := Nat.mul_le_mul_right d (Nat.not_lt.mp hnot)
      nlinarith
    have hhalf : d ≤ 2 * (n % d) → d' ≤ 2 * (n' % d') := by
      intro hup
      by_contra hnot
      have hleft : d * d' ≤ 2 * (n % d) * d' := Nat.mul_le_mul_right d' hup
      have hright : 2 * (n' % d') * d < d' * d := Nat.mul_lt_mul_of_pos_right (Nat.not_le.mp hnot) hd
      nlinarith
    unfold roundHalfEven
    simp only [hsame]
    grind

theorem roundHalfEven_one (k : Nat) : roundHalfEven k 1 = k := by simp [roundHalfEven, Nat.mod_one]

theorem roundHalfEven_le (hd : 0 < d) (h : n ≤ k * d) : roundHalfEven n d ≤ k := by
  have hmono : roundHalfEven n d ≤ roundHalfEven k 1 := roundHalfEven_mono hd Nat.one_pos (by simpa using h)
  rwa [roundHalfEven_one] at hmono

theorem le_roundHalfEven (hd : 0 < d) (h : k * d ≤ n) : k ≤ roundHalfEven n d := by
  have hmono : roundHalfEven k 1 ≤ roundHalfEven n d := roundHalfEven_mono Nat.one_pos hd (by simpa using h)
  rwa [roundHalfEven_one] at hmono

end HalfEven

/-! ### Scales -/

theorem zpow_eq_pow_toNat (base : Nat) {exponent : Int} (h : 0 ≤ exponent) :
    (base : ℚ) ^ exponent = ((Nat.pow base exponent.toNat : Nat) : ℚ) := by
  rw [Nat.pow_eq, Nat.cast_pow, ← zpow_natCast, Int.toNat_of_nonneg h]

theorem cast_two_pow_mul_zpow (k : Nat) (exponent : Int) :
    ((2 ^ k : Nat) : ℚ) * (2 : ℚ) ^ exponent = (2 : ℚ) ^ (k + exponent) := by
  rw [Nat.cast_pow, Nat.cast_ofNat, ← zpow_natCast, ← zpow_add₀ two_ne_zero]

theorem zpow_neg_eq_pow_toNat (base : Nat) {exponent : Int} (h : exponent < 0) :
    (base : ℚ) ^ exponent = ((Nat.pow base (-exponent).toNat : Nat) : ℚ)⁻¹ := by
  rw [← zpow_eq_pow_toNat base (by omega), zpow_neg, inv_inv]

theorem scaleQuotient_pos {base n d : Nat} (hbase : 0 < base) (hd : 0 < d) (exponent : Int) :
    0 < (scaleQuotient base n d exponent).2 := by
  unfold scaleQuotient
  split
  · exact hd
  · exact Nat.mul_pos hd (Nat.pow_pos hbase)

theorem scaleQuotient_eq (base n d : Nat) (exponent : Int) :
    ((scaleQuotient base n d exponent).1 : ℚ) / (scaleQuotient base n d exponent).2
      = (n : ℚ) / d * (base : ℚ) ^ exponent := by
  unfold scaleQuotient
  split
  · next h =>
    rw [zpow_eq_pow_toNat base h]
    push_cast
    ring
  · next h =>
    rw [zpow_neg_eq_pow_toNat base (Int.not_le.mp h)]
    push_cast
    rw [div_mul_eq_div_div, div_eq_mul_inv (_ / _)]

theorem reaches_iff {n d : Nat} (hd : 0 < d) (exponent : Int) :
    (if 0 ≤ exponent then decide (d * Nat.pow 2 exponent.toNat ≤ n)
      else decide (d ≤ n * Nat.pow 2 (-exponent).toNat)) = true ↔ (2 : ℚ) ^ exponent ≤ (n : ℚ) / d := by
  have hdpos : (0 : ℚ) < d := Nat.cast_pos.mpr hd
  rw [le_div_iff₀ hdpos]
  split
  · next h =>
    have hpow := zpow_eq_pow_toNat 2 h
    rw [Nat.cast_ofNat] at hpow
    rw [hpow, decide_eq_true_iff, mul_comm, ← Nat.cast_mul, Nat.cast_le]
  · next h =>
    have hpow := zpow_neg_eq_pow_toNat 2 (Int.not_le.mp h)
    rw [Nat.cast_ofNat] at hpow
    have hpos : (0 : ℚ) < (Nat.pow 2 (-exponent).toNat : Nat) :=
      Nat.cast_pos.mpr (Nat.pow_pos Nat.two_pos)
    rw [hpow, decide_eq_true_iff, inv_mul_le_iff₀ hpos, mul_comm, ← Nat.cast_mul, Nat.cast_le]

/-- The exponent of a quotient is that of the greatest power of two which it reaches. -/
theorem quotientLog2_spec {n d : Nat} (hn : 0 < n) (hd : 0 < d) :
    (2 : ℚ) ^ quotientLog2 n d ≤ (n : ℚ) / d ∧ (n : ℚ) / d < (2 : ℚ) ^ (quotientLog2 n d + 1) := by
  have hdpos : (0 : ℚ) < d := Nat.cast_pos.mpr hd
  have hnlow : (2 : ℚ) ^ (Nat.log2 n : Int) ≤ n := by
    rw [zpow_natCast]
    exact_mod_cast Nat.log2_self_le hn.ne'
  have hnhigh : (n : ℚ) < (2 : ℚ) ^ ((Nat.log2 n : Int) + 1) := by
    exact_mod_cast (Nat.lt_log2_self (n := n))
  have hdlow : (2 : ℚ) ^ (Nat.log2 d : Int) ≤ d := by
    rw [zpow_natCast]
    exact_mod_cast Nat.log2_self_le hd.ne'
  have hdhigh : (d : ℚ) < (2 : ℚ) ^ ((Nat.log2 d : Int) + 1) := by
    exact_mod_cast (Nat.lt_log2_self (n := d))
  unfold quotientLog2
  simp only [reaches_iff hd]
  generalize (Nat.log2 n : Int) = high at hnlow hnhigh ⊢
  generalize (Nat.log2 d : Int) = low at hdlow hdhigh ⊢
  split
  · next hreached =>
    refine ⟨hreached, ?_⟩
    rw [div_lt_iff₀ hdpos]
    calc (n : ℚ) < (2 : ℚ) ^ (high + 1) := hnhigh
      _ = (2 : ℚ) ^ (high - low + 1) * (2 : ℚ) ^ low := by
          rw [← zpow_add₀ two_ne_zero]
          congr 1
          ring
      _ ≤ (2 : ℚ) ^ (high - low + 1) * d := by gcongr
  · next hreached =>
    refine ⟨?_, by simpa using not_le.mp hreached⟩
    rw [le_div_iff₀ hdpos]
    calc (2 : ℚ) ^ (high - low - 1) * d
        ≤ (2 : ℚ) ^ (high - low - 1) * (2 : ℚ) ^ (low + 1) := by gcongr
      _ = (2 : ℚ) ^ high := by
          rw [← zpow_add₀ two_ne_zero]
          congr 1
          ring
      _ ≤ n := hnlow

theorem quotientLog2_mono {n d n' d' : Nat} (hn : 0 < n) (hd : 0 < d) (hn' : 0 < n') (hd' : 0 < d')
    (h : (n : ℚ) / d ≤ (n' : ℚ) / d') : quotientLog2 n d ≤ quotientLog2 n' d' := by
  have hless : (2 : ℚ) ^ quotientLog2 n d < (2 : ℚ) ^ (quotientLog2 n' d' + 1) :=
    ((quotientLog2_spec hn hd).1.trans h).trans_lt (quotientLog2_spec hn' hd').2
  have hexponent := (zpow_lt_zpow_iff_right₀ one_lt_two).mp hless
  omega

/-! ### Rounding to a double -/

namespace Binary64

/-- The point nearest to a quotient on the grid of the doubles around it. -/
def nearest (n d : Nat) : ℚ :=
  roundHalfEven (scaleQuotient 2 n d (-lastPlace n d)).1 (scaleQuotient 2 n d (-lastPlace n d)).2
    * (2 : ℚ) ^ lastPlace n d

theorem nearest_nonneg (n d : Nat) : 0 ≤ nearest n d := by
  unfold nearest
  positivity

variable {n d n' d' : Nat}

theorem scaled_eq (n d : Nat) (place : Int) :
    ((scaleQuotient 2 n d (-place)).1 : ℚ) / (scaleQuotient 2 n d (-place)).2 * (2 : ℚ) ^ place = (n : ℚ) / d := by
  rw [scaleQuotient_eq, Nat.cast_ofNat, mul_assoc, ← zpow_add₀ two_ne_zero, neg_add_cancel, zpow_zero, mul_one]

theorem le_nearest (hd : 0 < d) {k : Nat} (h : k * (2 : ℚ) ^ lastPlace n d ≤ (n : ℚ) / d) :
    k * (2 : ℚ) ^ lastPlace n d ≤ nearest n d := by
  have hpos : (0 : ℚ) < (scaleQuotient 2 n d (-lastPlace n d)).2 :=
    Nat.cast_pos.mpr (scaleQuotient_pos Nat.two_pos hd _)
  rw [← scaled_eq n d (lastPlace n d)] at h
  have hscaled := le_of_mul_le_mul_right h (by positivity)
  rw [le_div_iff₀ hpos] at hscaled
  have hk := le_roundHalfEven (scaleQuotient_pos Nat.two_pos hd _) (by exact_mod_cast hscaled)
  unfold nearest
  gcongr

theorem nearest_le (hd : 0 < d) {k : Nat} (h : (n : ℚ) / d ≤ k * (2 : ℚ) ^ lastPlace n d) :
    nearest n d ≤ k * (2 : ℚ) ^ lastPlace n d := by
  have hpos : (0 : ℚ) < (scaleQuotient 2 n d (-lastPlace n d)).2 :=
    Nat.cast_pos.mpr (scaleQuotient_pos Nat.two_pos hd _)
  rw [← scaled_eq n d (lastPlace n d)] at h
  have hscaled := le_of_mul_le_mul_right h (by positivity)
  rw [div_le_iff₀ hpos] at hscaled
  have hk := roundHalfEven_le (scaleQuotient_pos Nat.two_pos hd _) (by exact_mod_cast hscaled)
  unfold nearest
  gcongr

/-- **Rounding keeps the order.** On one grid this is rounding to a whole number; on two grids there is a power of
two between the quotients. -/
theorem nearest_mono (hn : 0 < n) (hd : 0 < d) (hn' : 0 < n') (hd' : 0 < d')
    (h : (n : ℚ) / d ≤ (n' : ℚ) / d') : nearest n d ≤ nearest n' d' := by
  have hlog := quotientLog2_mono hn hd hn' hd' h
  have hplace : lastPlace n d ≤ lastPlace n' d' := by
    unfold lastPlace
    omega
  rcases hplace.lt_or_eq with hless | hsame
  · have hbelow : (n : ℚ) / d ≤ ((2 ^ 53 : Nat) : ℚ) * (2 : ℚ) ^ lastPlace n d := by
      rw [cast_two_pow_mul_zpow]
      refine (quotientLog2_spec hn hd).2.le.trans (zpow_le_zpow_right₀ one_le_two ?_)
      unfold lastPlace
      omega
    have habove : ((2 ^ 52 : Nat) : ℚ) * (2 : ℚ) ^ lastPlace n' d' ≤ (n' : ℚ) / d' := by
      rw [cast_two_pow_mul_zpow]
      refine (zpow_le_zpow_right₀ one_le_two ?_).trans (quotientLog2_spec hn' hd').1
      unfold lastPlace at hless ⊢
      omega
    calc nearest n d ≤ ((2 ^ 53 : Nat) : ℚ) * (2 : ℚ) ^ lastPlace n d := nearest_le hd hbelow
      _ ≤ ((2 ^ 52 : Nat) : ℚ) * (2 : ℚ) ^ lastPlace n' d' := by
          rw [cast_two_pow_mul_zpow, cast_two_pow_mul_zpow]
          exact zpow_le_zpow_right₀ one_le_two (by omega)
      _ ≤ nearest n' d' := le_nearest hd' habove
  · unfold nearest
    rw [hsame]
    have hpos : 0 < (scaleQuotient 2 n d (-lastPlace n' d')).2 := scaleQuotient_pos Nat.two_pos hd _
    have hpos' : 0 < (scaleQuotient 2 n' d' (-lastPlace n' d')).2 := scaleQuotient_pos Nat.two_pos hd' _
    have hscaled : ((scaleQuotient 2 n d (-lastPlace n' d')).1 : ℚ) / (scaleQuotient 2 n d (-lastPlace n' d')).2
        ≤ ((scaleQuotient 2 n' d' (-lastPlace n' d')).1 : ℚ) / (scaleQuotient 2 n' d' (-lastPlace n' d')).2 := by
      rw [scaleQuotient_eq, scaleQuotient_eq]
      gcongr
    rw [div_le_div_iff₀ (Nat.cast_pos.mpr hpos) (Nat.cast_pos.mpr hpos')] at hscaled
    have hround := roundHalfEven_mono hpos hpos' (by exact_mod_cast hscaled)
    gcongr

/-- The least magnitude beyond the finite range. -/
def beyond : ℚ := (Nat.pow 2 1024 : Nat)

theorem natCast_lt_beyond {n : Nat} (h : n < 2 ^ 53) : (n : ℚ) < beyond := by
  have hpower : ∀ k, 53 ≤ k → n < Nat.pow 2 k := fun k hk => h.trans_le (Nat.pow_le_pow_right Nat.two_pos hk)
  exact Nat.cast_lt.mpr (hpower 1024 (by decide))

theorem roundMagnitude?_eq (n d : Nat) :
    roundMagnitude? n d = if beyond ≤ nearest n d then none else some (nearest n d) := by
  unfold roundMagnitude?
  simp only
  generalize hsignificand : roundHalfEven (scaleQuotient 2 n d (-lastPlace n d)).1
    (scaleQuotient 2 n d (-lastPlace n d)).2 = significand
  have hpos : 0 < (scaleQuotient 2 significand 1 (lastPlace n d)).2 :=
    scaleQuotient_pos Nat.two_pos Nat.one_pos _
  have hvalue : ((scaleQuotient 2 significand 1 (lastPlace n d)).1 : ℚ)
      / (scaleQuotient 2 significand 1 (lastPlace n d)).2 = nearest n d := by
    rw [scaleQuotient_eq, nearest, hsignificand, Nat.cast_one, div_one, Nat.cast_ofNat]
  have hbeyond : Nat.pow 2 1024 * (scaleQuotient 2 significand 1 (lastPlace n d)).2
      ≤ (scaleQuotient 2 significand 1 (lastPlace n d)).1 ↔ beyond ≤ nearest n d := by
    rw [← hvalue, le_div_iff₀ (Nat.cast_pos.mpr hpos), beyond, ← Nat.cast_mul, Nat.cast_le]
  rw [Rat.mkRat_eq_div, Int.cast_natCast, hvalue]
  exact if_congr hbeyond rfl rfl

/-- The magnitude of the double nearest to a number that is not zero. -/
def magnitude (q : ℚ) : ℚ := nearest q.num.natAbs q.den

theorem magnitude_nonneg (q : ℚ) : 0 ≤ magnitude q := nearest_nonneg _ _

theorem magnitude_neg (q : ℚ) : magnitude (-q) = magnitude q := by simp [magnitude]

theorem natAbs_div_den {q : ℚ} (h : 0 < q) : (q.num.natAbs : ℚ) / q.den = q := by
  rw [Nat.cast_natAbs, abs_of_pos (Rat.num_pos.mpr h), Rat.num_div_den]

theorem magnitude_mono {q r : ℚ} (hq : 0 < q) (h : q ≤ r) : magnitude q ≤ magnitude r := by
  have hr : 0 < r := hq.trans_le h
  refine nearest_mono (Int.natAbs_pos.mpr (Rat.num_pos.mpr hq).ne') q.den_pos
    (Int.natAbs_pos.mpr (Rat.num_pos.mpr hr).ne') r.den_pos ?_
  rwa [natAbs_div_den hq, natAbs_div_den hr]

theorem ofRat_of_pos {q : ℚ} (h : 0 < q) :
    ofRat q = if beyond ≤ magnitude q then .infinite false else .finite (magnitude q) := by
  have hnum := Rat.num_pos.mpr h
  unfold ofRat
  rw [if_neg hnum.ne', roundMagnitude?_eq, ← magnitude]
  simp only [Int.not_lt.mpr hnum.le, decide_false, if_false]
  by_cases hbeyond : beyond ≤ magnitude q
  · simp only [if_pos hbeyond]
  · simp only [if_neg hbeyond]
    split
    · next hzero => rw [Rat.num_eq_zero.mp hzero]
    · rfl

theorem ofRat_of_neg {q : ℚ} (h : q < 0) :
    ofRat q = if beyond ≤ magnitude q then .infinite true
      else if magnitude q = 0 then .negativeZero else .finite (-magnitude q) := by
  have hnum := Rat.num_neg.mpr h
  unfold ofRat
  rw [if_neg hnum.ne, roundMagnitude?_eq, ← magnitude]
  simp only [hnum, decide_true, if_true]
  by_cases hbeyond : beyond ≤ magnitude q
  · simp only [if_pos hbeyond]
  · simp only [if_neg hbeyond, Rat.num_eq_zero]

theorem ofRat_zero : ofRat 0 = .finite 0 := rfl

/-! ### The order of doubles -/

/-- Where a double stands on the line of the rational numbers with its two ends. -/
def onLine? : Binary64 → Option (WithBot (WithTop ℚ))
  | .finite value => some ((value : WithTop ℚ) : WithBot (WithTop ℚ))
  | .negativeZero => some (((0 : ℚ) : WithTop ℚ) : WithBot (WithTop ℚ))
  | .infinite true => some ⊥
  | .infinite false => some ((⊤ : WithTop ℚ) : WithBot (WithTop ℚ))
  | .nan => none

theorem le_iff {a b : Binary64} :
    a.le b = true ↔ ∃ x y, a.onLine? = some x ∧ b.onLine? = some y ∧ x ≤ y := by
  rcases a with value | _ | ⟨_ | _⟩ | _ <;> rcases b with value' | _ | ⟨_ | _⟩ | _ <;>
    simp [le, onLine?, toRat?, -WithTop.coe_zero]
  -- Two finite doubles are compared by their values.
  all_goals exact decide_eq_true_iff

theorem le_trans {a b c : Binary64} (hab : a.le b = true) (hbc : b.le c = true) : a.le c = true := by
  obtain ⟨x, y, ha, hb, hxy⟩ := le_iff.mp hab
  obtain ⟨y', z, hb', hc, hyz⟩ := le_iff.mp hbc
  obtain rfl : y = y' := Option.some.inj (hb.symm.trans hb')
  exact le_iff.mpr ⟨x, z, ha, hc, hxy.trans hyz⟩

theorem exists_onLine? {a : Binary64} (h : a ≠ nan) : ∃ x, a.onLine? = some x := by
  rcases a with value | _ | ⟨_ | _⟩ | _
  · exact ⟨_, rfl⟩
  · exact ⟨_, rfl⟩
  · exact ⟨_, rfl⟩
  · exact ⟨_, rfl⟩
  · exact absurd rfl h

theorem lt_iff {a b : Binary64} :
    a.lt b = true ↔ ∃ x y, a.onLine? = some x ∧ b.onLine? = some y ∧ x < y := by
  unfold lt
  split
  · simp [onLine?]
  · simp [onLine?]
  · next ha hb =>
    obtain ⟨x, hx⟩ := exists_onLine? ha
    obtain ⟨y, hy⟩ := exists_onLine? hb
    rw [Bool.not_eq_true', ← Bool.not_eq_true, le_iff]
    simp [hx, hy]

theorem lt_trans {a b c : Binary64} (hab : a.lt b = true) (hbc : b.lt c = true) : a.lt c = true := by
  obtain ⟨x, y, ha, hb, hxy⟩ := lt_iff.mp hab
  obtain ⟨y', z, hb', hc, hyz⟩ := lt_iff.mp hbc
  obtain rfl : y = y' := Option.some.inj (hb.symm.trans hb')
  exact lt_iff.mpr ⟨x, z, ha, hc, hxy.trans hyz⟩

theorem onLine?_of_toRat? {a : Binary64} {q : ℚ} (h : a.toRat? = some q) :
    a.onLine? = some ((q : WithTop ℚ) : WithBot (WithTop ℚ)) := by
  cases a <;> simp_all [toRat?, onLine?]

theorem onLine?_ofRat_of_pos {q : ℚ} (h : 0 < q) : (ofRat q).onLine?
    = some ((if beyond ≤ magnitude q then (⊤ : WithTop ℚ) else (magnitude q : WithTop ℚ) : WithTop ℚ)) := by
  rw [ofRat_of_pos h]
  split <;> rfl

theorem onLine?_ofRat_of_neg {q : ℚ} (h : q < 0) : (ofRat q).onLine? = some (if beyond ≤ magnitude q then
    (⊥ : WithBot (WithTop ℚ)) else (((-magnitude q : ℚ) : WithTop ℚ) : WithBot (WithTop ℚ))) := by
  rw [ofRat_of_neg h]
  split
  · rfl
  · split
    · next hzero => rw [hzero, neg_zero]; rfl
    · rfl

/-- **The nearest double keeps the order.** -/
theorem ofRat_mono {q r : ℚ} (h : q ≤ r) : (ofRat q).le (ofRat r) = true := by
  have hzero : (ofRat 0).onLine? = some (((0 : ℚ) : WithTop ℚ) : WithBot (WithTop ℚ)) := rfl
  have hpositive : ∀ {p : ℚ}, 0 < p → (ofRat 0).le (ofRat p) = true := by
    intro p hp
    refine le_iff.mpr ⟨_, _, hzero, onLine?_ofRat_of_pos hp, ?_⟩
    rw [WithBot.coe_le_coe]
    split
    · exact le_top
    · exact WithTop.coe_le_coe.mpr (magnitude_nonneg p)
  have hnegative : ∀ {p : ℚ}, p < 0 → (ofRat p).le (ofRat 0) = true := by
    intro p hp
    refine le_iff.mpr ⟨_, _, onLine?_ofRat_of_neg hp, hzero, ?_⟩
    split
    · exact bot_le
    · exact WithBot.coe_le_coe.mpr (WithTop.coe_le_coe.mpr (neg_nonpos.mpr (magnitude_nonneg p)))
  rcases lt_trichotomy q 0 with hq | rfl | hq <;> rcases lt_trichotomy r 0 with hr | rfl | hr
  · refine le_iff.mpr ⟨_, _, onLine?_ofRat_of_neg hq, onLine?_ofRat_of_neg hr, ?_⟩
    have hmono : magnitude r ≤ magnitude q := by
      rw [← magnitude_neg r, ← magnitude_neg q]
      exact magnitude_mono (neg_pos.mpr hr) (neg_le_neg h)
    split
    · exact bot_le
    · next hq =>
      rw [if_neg fun hr => hq (hr.trans hmono)]
      exact WithBot.coe_le_coe.mpr (WithTop.coe_le_coe.mpr (neg_le_neg hmono))
  · exact hnegative hq
  · exact le_trans (hnegative hq) (hpositive hr)
  · exact absurd hr (not_lt.mpr h)
  · exact le_iff.mpr ⟨_, _, hzero, hzero, le_rfl⟩
  · exact hpositive hr
  · exact absurd (hq.trans_le h) (not_lt.mpr hr.le)
  · exact absurd hq (not_lt.mpr h)
  · refine le_iff.mpr ⟨_, _, onLine?_ofRat_of_pos hq, onLine?_ofRat_of_pos hr, ?_⟩
    have hmono : magnitude q ≤ magnitude r := magnitude_mono hq h
    rw [WithBot.coe_le_coe]
    split
    · next hq => rw [if_pos (hq.trans hmono)]
    · split
      · exact le_top
      · exact WithTop.coe_le_coe.mpr hmono

/-! ### Whole numbers -/

theorem nearest_natCast {n : Nat} (hn : 0 < n) (h : n < 2 ^ 53) : nearest n 1 = n := by
  have hplace : lastPlace n 1 ≤ 0 := by
    have hlog : (2 : ℚ) ^ quotientLog2 n 1 < (2 : ℚ) ^ (53 : Int) := by
      refine (quotientLog2_spec hn Nat.one_pos).1.trans_lt ?_
      rw [Nat.cast_one, div_one]
      exact_mod_cast h
    have hexponent := (zpow_lt_zpow_iff_right₀ one_lt_two).mp hlog
    unfold lastPlace
    omega
  have hunits : ((n * 2 ^ (-lastPlace n 1).toNat : Nat) : ℚ) * (2 : ℚ) ^ lastPlace n 1 = n := by
    rw [Nat.cast_mul, mul_assoc, cast_two_pow_mul_zpow, Int.toNat_of_nonneg (by omega), neg_add_cancel, zpow_zero,
      mul_one]
  refine le_antisymm ?_ ?_
  · exact (nearest_le Nat.one_pos (by rw [hunits, Nat.cast_one, div_one])).trans_eq hunits
  · exact hunits.symm.trans_le (le_nearest Nat.one_pos (by rw [hunits, Nat.cast_one, div_one]))

theorem magnitude_intCast {n : Int} (hn : n ≠ 0) (h : n.natAbs < 2 ^ 53) : magnitude n = n.natAbs := by
  rw [magnitude, Rat.num_intCast, Rat.den_intCast]
  exact nearest_natCast (Int.natAbs_pos.mpr hn) h

theorem toRat?_ofRat_intCast {n : Int} (h : n.natAbs < 2 ^ 53) : (ofRat n).toRat? = some (n : ℚ) := by
  have hfinite : ¬ beyond ≤ (n.natAbs : ℚ) := not_le.mpr (natCast_lt_beyond h)
  rcases lt_trichotomy n 0 with hneg | rfl | hpos
  · have hmagnitude := magnitude_intCast hneg.ne h
    have hvalue : (n.natAbs : ℚ) = -n := by
      rw [Nat.cast_natAbs, abs_of_neg hneg]
      push_cast
      rfl
    have hne : ¬ (n.natAbs : ℚ) = 0 := by simpa using hneg.ne
    rw [ofRat_of_neg (Int.cast_lt_zero.mpr hneg), hmagnitude, if_neg hfinite, if_neg hne, hvalue, neg_neg]
    rfl
  · rfl
  · have hmagnitude := magnitude_intCast hpos.ne' h
    have hvalue : (n.natAbs : ℚ) = n := by rw [Nat.cast_natAbs, abs_of_pos hpos]
    rw [ofRat_of_pos (Int.cast_pos.mpr hpos), hmagnitude, if_neg hfinite, hvalue]
    rfl

/-! ### Subtraction -/

theorem toRat?_neg {a : Binary64} {q : ℚ} (h : a.toRat? = some q) : a.neg.toRat? = some (-q) := by
  cases a with
  | finite value =>
      obtain rfl : value = q := by simpa [toRat?] using h
      by_cases hzero : value = 0 <;> simp [neg, toRat?, hzero]
  | negativeZero =>
      obtain rfl : 0 = q := by simpa [toRat?] using h
      simp [neg, toRat?]
  | infinite | nan => cases h

theorem onLine?_add {a b : Binary64} {q r : ℚ} (ha : a.toRat? = some q) (hb : b.toRat? = some r) :
    (a.add b).onLine? = (ofRat (q + r)).onLine? := by
  cases a <;> cases b <;> simp only [toRat?, Option.some.injEq, reduceCtorEq] at ha hb <;> subst ha hb
  case negativeZero.negativeZero => rw [add_zero, ofRat_zero]; rfl
  all_goals rfl

end Binary64

end ManifestLens

/-!
## Ages read off a clock

A clock shows whole numbers of any size, or doubles. An age is the difference of two readings, and where one of
them is a double the difference is rounded. Rounding keeps the order, so that an age never gets smaller while
the clock does not go back: what has grown too old stays so.
-/

namespace ManifestLens

namespace Number

/-- The value of a number, held as a double would hold it, though for an integer there need not be such a double. -/
def exact : Number → Binary64
  | .int n => .finite n
  | .float x => x

theorem le_iff {a b : Number} : a ≤ b ↔ a.exact.le b.exact = true := by
  change a.le b = true ↔ _
  cases a <;> cases b <;> simp [Number.le, exact, Binary64.le, Binary64.toRat?]

theorem le_trans {a b c : Number} (hab : a ≤ b) (hbc : b ≤ c) : a ≤ c :=
  le_iff.mpr (Binary64.le_trans (le_iff.mp hab) (le_iff.mp hbc))

/-- The reading is an integer. -/
def IsWhole : Number → Prop
  | .int _ => True
  | .float _ => False

/-- The reading is a finite double, or an integer whose differences with others like it are exact as doubles. -/
def IsTick : Number → Prop
  | .int n => n.natAbs < 2 ^ 52
  | .float x => x.toRat?.isSome = true

/-- The readings of a clock: all of them whole, or all of them finite doubles, with integers among them that a
double can stand for. -/
def IsClock (readings : List Number) : Prop := (∀ t ∈ readings, IsWhole t) ∨ ∀ t ∈ readings, IsTick t

theorem IsClock.of_subset {readings some : List Number} (h : IsClock readings) (hsubset : some ⊆ readings) :
    IsClock some :=
  h.imp (fun h t ht => h t (hsubset ht)) fun h t ht => h t (hsubset ht)

theorem IsTick.exists_toRat? {t : Number} (h : IsTick t) :
    ∃ q, t.exact.toRat? = some q ∧ t.toBinary64.toRat? = some q := by
  cases t with
  | int n =>
      have hn : n.natAbs < 2 ^ 53 := Nat.lt_trans h (by decide)
      refine ⟨n, rfl, ?_⟩
      rw [toBinary64, Binary64.ofInt]
      exact Binary64.toRat?_ofRat_intCast hn
  | float x =>
      obtain ⟨q, hq⟩ := Option.isSome_iff_exists.mp h
      exact ⟨q, hq, hq⟩

theorem onLine?_exact_sub {a b : Number} (ha : IsTick a) (hb : IsTick b) {q r : ℚ}
    (hq : a.exact.toRat? = some q) (hr : b.exact.toRat? = some r) :
    (a - b).exact.onLine? = (Binary64.ofRat (q - r)).onLine? := by
  obtain ⟨q', hq', haq⟩ := ha.exists_toRat?
  obtain ⟨r', hr', hbr⟩ := hb.exists_toRat?
  obtain rfl : q = q' := Option.some.inj (hq.symm.trans hq')
  obtain rfl : r = r' := Option.some.inj (hr.symm.trans hr')
  have hrounded : (a.toBinary64.sub b.toBinary64).onLine? = (Binary64.ofRat (q - r)).onLine? := by
    rw [Binary64.sub, Binary64.onLine?_add haq (Binary64.toRat?_neg hbr), sub_eq_add_neg]
  cases a with
  | float x => exact hrounded
  | int m =>
    cases b with
    | float y => exact hrounded
    | int n =>
      obtain rfl : (m : ℚ) = q := Option.some.inj hq
      obtain rfl : (n : ℚ) = r := Option.some.inj hr
      have hdifference : (m - n).natAbs < 2 ^ 53 := by
        simp only [IsTick] at ha hb
        omega
      have hvalue := Binary64.onLine?_of_toRat? (Binary64.toRat?_ofRat_intCast hdifference)
      rw [← Int.cast_sub, hvalue]
      rfl

/-- **Ages do not shrink.** What is not too old later was not too old before. -/
theorem age_le_of_le {birth now later ttl : Number} (hclock : IsClock [birth, now, later]) (hle : now ≤ later)
    (h : later - birth ≤ ttl) : now - birth ≤ ttl := by
  refine le_trans ?_ h
  rcases hclock with hwhole | htick
  · obtain ⟨hbirth, hnow, hlater⟩ : IsWhole birth ∧ IsWhole now ∧ IsWhole later := by simpa using hwhole
    cases birth <;> cases now <;> cases later <;> simp only [IsWhole] at hbirth hnow hlater
    next b n l =>
    have hle : n ≤ l := of_decide_eq_true hle
    exact decide_eq_true (Int.sub_le_sub_right hle b)
  · obtain ⟨hbirth, hnow, hlater⟩ : IsTick birth ∧ IsTick now ∧ IsTick later := by simpa using htick
    obtain ⟨r, hr, -⟩ := hbirth.exists_toRat?
    obtain ⟨p, hp, -⟩ := hnow.exists_toRat?
    obtain ⟨q, hq, -⟩ := hlater.exists_toRat?
    have hpq : p ≤ q := by
      obtain ⟨x, y, hx, hy, hxy⟩ := Binary64.le_iff.mp (le_iff.mp hle)
      rw [Binary64.onLine?_of_toRat? hp, Option.some.injEq] at hx
      rw [Binary64.onLine?_of_toRat? hq, Option.some.injEq] at hy
      subst hx hy
      exact_mod_cast hxy
    have hmono := Binary64.ofRat_mono (sub_le_sub_right hpq r)
    rw [le_iff]
    rw [Binary64.le_iff] at hmono ⊢
    rwa [onLine?_exact_sub hnow hbirth hp hr, onLine?_exact_sub hlater hbirth hq hr]

/-- Doubles among integers that are too large for them are no clock: an age is exact first and rounded down later. -/
example : let now : Number := .int (2 ^ 53 + 2)
    let later : Number := .float (.finite (2 ^ 53 + 2))
    now ≤ later ∧ later - 1 ≤ .int (2 ^ 53) ∧ ¬ now - 1 ≤ .int (2 ^ 53) := by decide +kernel

end Number

end ManifestLens
