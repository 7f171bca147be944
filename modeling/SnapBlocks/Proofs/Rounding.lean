import SnapBlocks.Decimal.Shortest
import Mathlib.Algebra.Order.Field.Power
import Mathlib.Data.Rat.Cast.Order
import Mathlib.Tactic.FieldSimp
import Mathlib.Tactic.Linarith
import Mathlib.Tactic.NormNum
import Mathlib.Tactic.Ring

/-! Rounding to doubles. All numbers in the cell of a double round to it: a mantissa with its
residual bits stands for an exact number, also while it is shifted, and the nearest mantissa with
the right exponent is that of the double. -/

namespace SnapBlocks.Decimal

open Float.Model Float.Model.UnpackedFloat

variable {b : Binary} {x f : ℚ} {a : Accuracy} {em : ExtendedMantissa} {m s k : ℕ} {e t : ℤ}

/-! ## Mantissas with residual bits -/

/-- An accuracy describes the fraction that a mantissa leaves out. -/
def Describes : Accuracy → ℚ → Prop
  | .exact, f => f = 0
  | .inexact .lt, f => 0 < f ∧ f < 1 / 2
  | .inexact .eq, f => f = 1 / 2
  | .inexact .gt, f => 1 / 2 < f ∧ f < 1

/-- A mantissa with its residual bits stands for a number. -/
def StandsFor (em : ExtendedMantissa) (x : ℚ) : Prop := Describes em.accuracy (x - em.mantissa)

theorem Describes.bounds (h : Describes a f) : 0 ≤ f ∧ f < 1 := by
  rcases a with _ | (_ | _ | _) <;> simp only [Describes] at h <;> constructor <;> linarith

theorem standsFor_ofMantissaAndAccuracy :
    StandsFor (.ofMantissaAndAccuracy m a) x ↔ Describes a (x - m) := by
  rcases a with _ | (_ | _ | _) <;> rfl

theorem StandsFor.shiftRightOne (h : StandsFor em x) : StandsFor em.shiftRightOne (x / 2) := by
  obtain ⟨m, r, s⟩ := em
  -- the bit that is shifted out is the parity of the mantissa
  obtain ⟨k, bit, hm, hk, hbit⟩ : ∃ k : ℕ, ∃ bit : Bool, (m : ℚ) = 2 * k + bit.toNat ∧
      m / 2 = k ∧ (m % 2 != 0) = bit := by
    refine ⟨m / 2, m % 2 != 0, ?_, rfl, rfl⟩
    have : m = 2 * (m / 2) + (m % 2 != 0).toNat := by
      rcases Nat.mod_two_eq_zero_or_one m with h | h <;> simp [h] <;> omega
    exact_mod_cast this
  unfold StandsFor ExtendedMantissa.shiftRightOne at *
  rw [hk, hbit]
  rw [hm] at h
  cases r <;> cases s <;> cases bit <;>
    simp only [ExtendedMantissa.accuracy, Describes, Bool.toNat_false, Bool.toNat_true,
      Nat.cast_zero, Nat.cast_one, Bool.or_false, Bool.or_true] at h ⊢
  any_goals constructor
  all_goals linarith

theorem StandsFor.shiftRight (h : StandsFor em x) (k : ℕ) : StandsFor (em >>> k) (x / 2 ^ k) := by
  induction k with
  | zero =>
    rw [pow_zero, div_one]
    exact h
  | succ k ih =>
    have hshift : em >>> (k + 1) = (em >>> k).shiftRightOne := rfl
    rw [hshift, pow_succ, ← div_div]
    exact ih.shiftRightOne

/-- An integer is the nearest one; of two that are equally near, the even one. -/
def Nearest (s : ℕ) (x : ℚ) : Prop :=
  if s % 2 = 0 then s - 1 / 2 ≤ x ∧ x ≤ s + 1 / 2 else s - 1 / 2 < x ∧ x < s + 1 / 2

theorem Nearest.bounds (h : Nearest s x) : s - 1 / 2 ≤ x ∧ x ≤ s + 1 / 2 := by
  unfold Nearest at h
  split at h
  · exact h
  · exact ⟨h.1.le, h.2.le⟩

/-- Rounding finds the nearest integer. -/
theorem StandsFor.roundedMantissa (h : StandsFor em x) (hs : Nearest s x) :
    em.roundedMantissa = s := by
  obtain ⟨hlow, hhigh⟩ := hs.bounds
  have hcast {i j : ℕ} (h : (i : ℚ) < j + 1) : i ≤ j := by
    have : i < j + 1 := by exact_mod_cast h
    omega
  obtain ⟨m, r, st⟩ := em
  unfold StandsFor at h
  unfold ExtendedMantissa.roundedMantissa
  cases r <;> cases st <;>
    simp only [ExtendedMantissa.accuracy, Describes, Accuracy.roundToNearestEven] at h ⊢
  · exact Nat.le_antisymm (hcast (by linarith)) (hcast (by linarith))
  · exact Nat.le_antisymm (hcast (by linarith)) (hcast (by linarith))
  · -- it lies half-way, so the even one is chosen
    have hlow : m ≤ s := hcast (by linarith)
    have hhigh : s ≤ m + 1 := hcast (by push_cast; linarith)
    have heven : s % 2 = 0 := by
      by_contra hodd
      rw [Nearest, if_neg hodd] at hs
      rcases Nat.eq_or_lt_of_le hlow with rfl | hlt
      · linarith
      · cases Nat.le_antisymm hhigh hlt
        push_cast at hs
        linarith
    omega
  · exact Nat.le_antisymm (hcast (by push_cast; linarith)) (hcast (by push_cast; linarith))

/-! ## Doubles -/

/-- A significand and an exponent as a positive double has them. -/
structure Binary.Canonical (b : Binary) : Prop where
  pos : 0 < b.significand
  lt : b.significand < 2 ^ 53
  least : -1074 ≤ b.exponent
  greatest : b.exponent ≤ 971
  normal : 2 ^ 52 ≤ b.significand ∨ b.exponent = -1074

/-- How far a cell reaches below its double, in units of the last place. Below a power of two the
doubles are half as far apart. -/
def Binary.below (b : Binary) : ℚ :=
  if b.significand = 2 ^ 52 ∧ -1074 < b.exponent then 1 / 4 else 1 / 2

theorem Binary.below_pos (b : Binary) : 0 < b.below := by
  unfold below
  split <;> norm_num

theorem Binary.below_le (b : Binary) : b.below ≤ 1 / 2 := by
  unfold below
  split <;> norm_num

/-- A number lies in the cell of a double. -/
def Binary.Around (b : Binary) (x : ℚ) : Prop :=
  let y := x / 2 ^ b.exponent
  if b.significand % 2 = 0 then b.significand - b.below ≤ y ∧ y ≤ b.significand + 1 / 2
  else b.significand - b.below < y ∧ y < b.significand + 1 / 2

theorem targetExponent_eq (t : ℤ) :
    Format.binary64.targetExponent t = max (t - 53) (-1074) := by
  unfold Format.targetExponent Format.minExponent Format.mantissaBits
  norm_num

theorem totalExponent_eq (m : ℕ) (e : ℤ) : totalExponent m e = m.log2 + 1 + e := rfl

section
variable (h : Describes a (x / 2 ^ e - m))
include h

/-- The highest bit of a mantissa tells how large the number is. -/
theorem Describes.total_bounds (hm : m ≠ 0) :
    (2 : ℚ) ^ (totalExponent m e - 1) ≤ x ∧ x < 2 ^ totalExponent m e := by
  obtain ⟨hlow, hhigh⟩ := h.bounds
  have hpos : (0 : ℚ) < 2 ^ e := by positivity
  have hlog : (2 : ℚ) ^ m.log2 ≤ m := by exact_mod_cast Nat.log2_self_le hm
  have hlog' : (m : ℚ) + 1 ≤ 2 ^ (m.log2 + 1) := by exact_mod_cast Nat.lt_log2_self
  rw [totalExponent_eq]
  constructor
  · calc (2 : ℚ) ^ ((m.log2 : ℤ) + 1 + e - 1) = 2 ^ m.log2 * 2 ^ e := by
          rw [← zpow_natCast, ← zpow_add₀ two_ne_zero, add_right_comm, add_sub_cancel_right]
      _ ≤ x / 2 ^ e * 2 ^ e := by gcongr; linarith
      _ = x := div_mul_cancel₀ x hpos.ne'
  · calc x = x / 2 ^ e * 2 ^ e := (div_mul_cancel₀ x hpos.ne').symm
      _ < 2 ^ (m.log2 + 1) * 2 ^ e := by gcongr; linarith
      _ = 2 ^ ((m.log2 : ℤ) + 1 + e) := by
          rw [← zpow_natCast, ← zpow_add₀ two_ne_zero, Nat.cast_add, Nat.cast_one]

/-- A shift to a higher exponent keeps the number. -/
theorem Describes.standsFor_shift (ht : e ≤ t) :
    StandsFor (shiftToExponent m e a t).1 (x / 2 ^ t) ∧ (shiftToExponent m e a t).2 = t := by
  have hk : ((t - e).toNat : ℤ) = t - e := Int.toNat_of_nonneg (by omega)
  have hshift := (standsFor_ofMantissaAndAccuracy.mpr h).shiftRight (t - e).toNat
  have hvalue : x / 2 ^ e / 2 ^ (t - e).toNat = x / 2 ^ t := by
    rw [div_div, ← zpow_natCast, ← zpow_add₀ two_ne_zero, hk]
    congr 2
    ring
  rw [hvalue] at hshift
  refine ⟨hshift, ?_⟩
  change e + ((t - e).toNat : ℤ) = t
  omega

theorem Describes.shift (ht : e ≤ t) (hs : Nearest s (x / 2 ^ t)) :
    (shiftToExponent m e a t).1.roundedMantissa = s ∧ (shiftToExponent m e a t).2 = t :=
  (h.standsFor_shift ht).imp_left (·.roundedMantissa hs)

end

/-- A mantissa that fits stays as it is. -/
theorem shiftToTargetExponent_of_lt (hm : m < 2 ^ 53) (he : -1074 ≤ e) :
    shiftToTargetExponent Format.binary64 m e .exact = (⟨m, false, false⟩, e) := by
  have hlog : m.log2 ≤ 52 := by
    by_cases h : m = 0
    · simp [h]
    · have := (Nat.log2_lt h).mpr hm
      omega
  have hshift : (Format.binary64.targetExponent (totalExponent m e) - e).toNat = 0 := by
    rw [targetExponent_eq, totalExponent_eq]
    omega
  unfold shiftToTargetExponent shiftToExponent
  dsimp only
  rw [hshift, Nat.cast_zero, add_zero]
  rfl

/-- A mantissa that just overflowed is halved. -/
theorem shiftToTargetExponent_pow (he : -1074 ≤ e) :
    shiftToTargetExponent Format.binary64 (2 ^ 53) e .exact = (⟨2 ^ 52, false, false⟩, e + 1) := by
  have hshift : (Format.binary64.targetExponent (totalExponent (2 ^ 53) e) - e).toNat = 1 := by
    rw [targetExponent_eq, totalExponent_eq, Nat.log2_two_pow]
    omega
  unfold shiftToTargetExponent shiftToExponent
  dsimp only
  rw [hshift]
  rfl

namespace Binary.Around

variable (hx : b.Around x) (hb : b.Canonical)
include hx

theorem bounds : b.significand - b.below ≤ x / 2 ^ b.exponent ∧
    x / 2 ^ b.exponent ≤ b.significand + 1 / 2 := by
  unfold Around at hx
  dsimp only at hx
  by_cases heven : b.significand % 2 = 0
  · rwa [if_pos heven] at hx
  · rw [if_neg heven] at hx
    exact ⟨hx.1.le, hx.2.le⟩

/-- The significand is the nearest one. -/
theorem nearest : Nearest b.significand (x / 2 ^ b.exponent) := by
  have hbelow := b.below_le
  unfold Around at hx
  unfold Nearest
  dsimp only at hx
  by_cases heven : b.significand % 2 = 0
  · rw [if_pos heven] at hx ⊢
    exact ⟨by linarith, hx.2⟩
  · rw [if_neg heven] at hx ⊢
    exact ⟨by linarith, hx.2⟩

include hb

theorem lt_pow : x < 2 ^ (b.exponent + 53) := by
  obtain ⟨_, hhigh⟩ := hx.nearest.bounds
  have hlt : (b.significand : ℚ) + 1 ≤ 2 ^ 53 := by exact_mod_cast hb.lt
  have hpos : (0 : ℚ) < 2 ^ b.exponent := by positivity
  calc x = x / 2 ^ b.exponent * 2 ^ b.exponent := (div_mul_cancel₀ x hpos.ne').symm
    _ < 2 ^ 53 * 2 ^ b.exponent := by gcongr; linarith
    _ = 2 ^ (b.exponent + 53) := by rw [add_comm, zpow_add₀ two_ne_zero]; norm_num

/-- Below a power of two the significand is just that power, and the nearest one on the finer grid
is its double. -/
theorem of_lt_pow (hleast : -1074 < b.exponent) (hlt : x < 2 ^ (b.exponent + 52)) :
    b.significand = 2 ^ 52 ∧ 2 ^ (b.exponent + 51) ≤ x ∧
      Nearest (2 ^ 53) (x / 2 ^ (b.exponent - 1)) := by
  have hpos : (0 : ℚ) < 2 ^ b.exponent := by positivity
  have hy : x / 2 ^ b.exponent < 2 ^ 52 := by
    rw [div_lt_iff₀ hpos, ← zpow_natCast, ← zpow_add₀ two_ne_zero]
    rwa [add_comm] at hlt
  have hlow := hx.bounds.1
  have hs : b.significand = 2 ^ 52 := by
    by_contra hne
    rw [below, if_neg fun h => hne h.1] at hlow
    have hle : 2 ^ 52 + 1 ≤ b.significand := by
      have := hb.normal
      omega
    have hle : (2 : ℚ) ^ 52 + 1 ≤ b.significand := by exact_mod_cast hle
    linarith
  rw [below, if_pos ⟨hs, hleast⟩, hs] at hlow
  push_cast at hlow
  refine ⟨hs, ?_, ?_⟩
  · calc (2 : ℚ) ^ (b.exponent + 51) = 2 ^ 51 * 2 ^ b.exponent := by
          rw [add_comm, zpow_add₀ two_ne_zero]; norm_num
      _ ≤ x / 2 ^ b.exponent * 2 ^ b.exponent := by gcongr; linarith
      _ = x := div_mul_cancel₀ x hpos.ne'
  · have hdouble : x / 2 ^ (b.exponent - 1) = 2 * (x / 2 ^ b.exponent) := by
      rw [zpow_sub_one₀ two_ne_zero]
      field_simp
    unfold Nearest
    rw [if_pos (by norm_num), hdouble]
    push_cast
    constructor <;> linarith

end Binary.Around

section
variable (hb : b.Canonical) (hx : b.Around x) (h : Describes a (x / 2 ^ e - m))
variable (he : e ≤ Format.binary64.targetExponent (totalExponent m e))
include hb hx h he

/-- The exponent to which a number is shifted is that of its double, unless the number lies just
below a power of two. -/
theorem Binary.Canonical.target :
    Format.binary64.targetExponent (totalExponent m e) = b.exponent ∨
      Format.binary64.targetExponent (totalExponent m e) = b.exponent - 1 ∧
        b.significand = 2 ^ 52 ∧ Nearest (2 ^ 53) (x / 2 ^ (b.exponent - 1)) := by
  have hlt {i j : ℤ} (hi : (2 : ℚ) ^ i ≤ x) (hj : x < 2 ^ j) : i < j :=
    (zpow_lt_zpow_iff_right₀ one_lt_two).mp (hi.trans_lt hj)
  have hhigh := hx.lt_pow hb
  have hleast := hb.least
  rw [targetExponent_eq] at he ⊢
  by_cases hm : m = 0
  · subst hm
    have hlog : totalExponent 0 e = 1 + e := by rw [totalExponent_eq, Nat.log2_zero]; simp
    have hsmall : x < 2 ^ e := by
      have hpos : (0 : ℚ) < 2 ^ e := by positivity
      have := h.bounds.2
      rw [Nat.cast_zero, sub_zero, div_lt_iff₀ hpos, one_mul] at this
      exact this
    rw [hlog] at he ⊢
    rcases hleast.eq_or_lt with hq | hq
    · left
      omega
    · rcases lt_or_ge x (2 ^ (b.exponent + 52)) with hlow | hlow
      · have := hlt (hx.of_lt_pow hb hq hlow).2.1 hsmall
        omega
      · have := hlt hlow hsmall
        omega
  · obtain ⟨hx₁, hx₂⟩ := h.total_bounds hm
    have := hlt hx₁ hhigh
    rcases hleast.eq_or_lt with hq | hq
    · left
      omega
    · rcases lt_or_ge x (2 ^ (b.exponent + 52)) with hlow | hlow
      · obtain ⟨hs, hge, hnearest⟩ := hx.of_lt_pow hb hq hlow
        have := hlt hx₁ hlow
        have := hlt hge hx₂
        exact .inr ⟨by omega, hs, hnearest⟩
      · have := hlt hlow hx₂
        left
        omega

/-- **All numbers in the cell of a double round to it.** -/
theorem Binary.Canonical.round (sign : Sign) :
    roundWithAccuracy Format.binary64 sign m e a =
      .finite sign b.significand b.exponent hb.pos := by
  have hshift {r : ℕ} {t : ℤ} (ht : Format.binary64.targetExponent (totalExponent m e) = t)
      (hr : Nearest r (x / 2 ^ t)) :
      (shiftToTargetExponent Format.binary64 m e a).1.roundedMantissa = r ∧
        (shiftToTargetExponent Format.binary64 m e a).2 = t := by
    unfold shiftToTargetExponent
    rw [ht]
    exact h.shift (ht ▸ he) hr
  unfold roundWithAccuracy
  dsimp only
  rcases hb.target hx h he with ht | ⟨ht, hs, hnearest⟩
  · obtain ⟨hr, hexp⟩ := hshift ht hx.nearest
    rw [hr, hexp]
    rw [shiftToTargetExponent_of_lt hb.lt hb.least]
    exact dif_neg hb.pos.ne'
  · obtain ⟨hr, hexp⟩ := hshift ht hnearest
    have hleast : -1074 ≤ b.exponent - 1 := by
      rw [← ht, targetExponent_eq]
      exact le_max_right _ _
    rw [hr, hexp]
    rw [shiftToTargetExponent_pow hleast, sub_add_cancel]
    obtain ⟨s, q⟩ := b
    obtain rfl : s = 2 ^ 52 := hs
    rfl

end

/-! ## Products, quotients and decimal numbers -/

theorem describes_exact (m : ℕ) (e : ℤ) : Describes .exact (m * 2 ^ e / 2 ^ e - m) := by
  have hpos : (0 : ℚ) < 2 ^ e := by positivity
  rw [mul_div_cancel_right₀ _ hpos.ne', sub_self]
  rfl

/-- A mantissa with enough bits need not be shifted to the left. -/
theorem le_targetExponent (hm : 2 ^ 52 ≤ m) (e : ℤ) :
    e ≤ Format.binary64.targetExponent (totalExponent m e) := by
  have hlog : 52 ≤ m.log2 := (Nat.le_log2 (by omega)).mpr hm
  rw [targetExponent_eq, totalExponent_eq]
  omega

section
variable (hb : b.Canonical) {m₁ m₂ : ℕ} {e₁ e₂ : ℤ} (h₁ : 0 < m₁) (h₂ : 0 < m₂)
include hb

theorem Binary.Canonical.mul (hx : b.Around (m₁ * 2 ^ e₁ * (m₂ * 2 ^ e₂)))
    (hm : 2 ^ 52 ≤ m₁ * m₂) :
    UnpackedFloat.mul Format.binary64 (.finite .positive m₁ e₁ h₁) (.finite .positive m₂ e₂ h₂) =
      .finite .positive b.significand b.exponent hb.pos := by
  have hvalue : (m₁ * 2 ^ e₁ * (m₂ * 2 ^ e₂) : ℚ) = (m₁ * m₂ : ℕ) * 2 ^ (e₁ + e₂) := by
    rw [zpow_add₀ two_ne_zero]
    push_cast
    ring
  rw [hvalue] at hx
  exact hb.round hx (describes_exact _ _) (le_targetExponent hm _) _

omit hb

theorem describes_accuracyOfFraction {i j : ℕ} (h : i < j) :
    Describes (accuracyOfFraction i j) (i / j) := by
  have hj : (0 : ℚ) < j := by exact_mod_cast Nat.zero_lt_of_lt h
  unfold accuracyOfFraction
  split
  next hi => simp [Describes, hi]
  next hi =>
    have hi : (0 : ℚ) < i := by exact_mod_cast Nat.pos_of_ne_zero hi
    have h : (i : ℚ) < j := by exact_mod_cast h
    rcases lt_trichotomy (2 * i) j with hc | hc | hc
    · rw [Nat.compare_eq_lt.mpr hc]
      have hc : 2 * (i : ℚ) < j := by exact_mod_cast hc
      exact ⟨div_pos hi hj, by rw [div_lt_iff₀ hj]; linarith⟩
    · rw [Nat.compare_eq_eq.mpr hc]
      have hc : 2 * (i : ℚ) = j := by exact_mod_cast hc
      change (i : ℚ) / j = 1 / 2
      rw [div_eq_iff hj.ne']
      linarith
    · rw [Nat.compare_eq_gt.mpr hc]
      have hc : (j : ℚ) < 2 * i := by exact_mod_cast hc
      exact ⟨by rw [lt_div_iff₀ hj]; linarith, by rw [div_lt_iff₀ hj]; linarith⟩

/-- A quotient has enough bits, and what it leaves out is described. -/
theorem divCore_spec (h₁ : 0 < m₁) (h₂ : 0 < m₂) (e₁ e₂ : ℤ) :
    ∃ m e a, divCore Format.binary64 m₁ e₁ m₂ e₂ = (m, e, a) ∧
      Describes a (m₁ * 2 ^ e₁ / (m₂ * 2 ^ e₂) / 2 ^ e - m) ∧
      e ≤ Format.binary64.targetExponent (totalExponent m e) := by
  obtain ⟨d, hd⟩ : ∃ d, totalExponent m₁ e₁ - totalExponent m₂ e₂ = d := ⟨_, rfl⟩
  obtain ⟨e, he⟩ : ∃ e, min (e₁ - e₂) (Format.binary64.targetExponent d) = e := ⟨_, rfl⟩
  obtain ⟨k, hk⟩ : ∃ k : ℕ, (k : ℤ) = e₁ - e₂ - e := Int.eq_ofNat_of_zero_le (by omega) |>.imp
    fun _ h => h.symm
  have hcore : divCore Format.binary64 m₁ e₁ m₂ e₂ = ((m₁ <<< k) / m₂, e,
      accuracyOfFraction ((m₁ <<< k) % m₂) m₂) := by
    unfold divCore
    dsimp only
    rw [hd, he, ← hk, Int.toNat_natCast]
  refine ⟨_, _, _, hcore, ?_, ?_⟩
  · have hm₂ : (m₂ : ℚ) ≠ 0 := by exact_mod_cast h₂.ne'
    have hshift : (m₁ * 2 ^ e₁ / (m₂ * 2 ^ e₂) / 2 ^ e : ℚ) = (m₁ <<< k : ℕ) / m₂ := by
      rw [Nat.shiftLeft_eq]
      push_cast
      rw [← zpow_natCast, hk, zpow_sub₀ two_ne_zero, zpow_sub₀ two_ne_zero]
      field_simp
    have hmod : ((m₁ <<< k : ℕ) : ℚ) = m₂ * (m₁ <<< k / m₂ : ℕ) + (m₁ <<< k % m₂ : ℕ) := by
      exact_mod_cast (Nat.div_add_mod _ _).symm
    have hfraction : ((m₁ <<< k : ℕ) / m₂ - (m₁ <<< k / m₂ : ℕ) : ℚ) =
        (m₁ <<< k % m₂ : ℕ) / m₂ := by
      rw [hmod]
      field_simp
      ring
    rw [hshift, hfraction]
    exact describes_accuracyOfFraction (Nat.mod_lt _ h₂)
  · rw [targetExponent_eq] at he ⊢
    rcases le_or_gt e (-1074) with hlow | hhigh
    · exact hlow.trans (le_max_right _ _)
    · -- the quotient has at least as many bits as the exponents differ by
      rw [totalExponent_eq, totalExponent_eq] at hd
      obtain ⟨p, hp⟩ : ∃ p : ℕ, p + m₂.log2 + 1 = m₁.log2 + k :=
        ⟨m₁.log2 + k - m₂.log2 - 1, by omega⟩
      have hbits : 2 ^ p ≤ (m₁ <<< k) / m₂ := by
        rw [Nat.le_div_iff_mul_le h₂, Nat.shiftLeft_eq]
        calc 2 ^ p * m₂ ≤ 2 ^ p * 2 ^ (m₂.log2 + 1) := by
              gcongr
              exact Nat.lt_log2_self.le
          _ = 2 ^ m₁.log2 * 2 ^ k := by rw [← pow_add, ← pow_add, ← Nat.add_assoc, hp]
          _ ≤ m₁ * 2 ^ k := by
              gcongr
              exact Nat.log2_self_le h₁.ne'
      have hlog := (Nat.le_log2 ((Nat.two_pow_pos p).trans_le hbits).ne').mpr hbits
      rw [totalExponent_eq]
      omega

include hb

theorem Binary.Canonical.div (hx : b.Around (m₁ * 2 ^ e₁ / (m₂ * 2 ^ e₂))) :
    UnpackedFloat.div Format.binary64 (.finite .positive m₁ e₁ h₁) (.finite .positive m₂ e₂ h₂) =
      .finite .positive b.significand b.exponent hb.pos := by
  obtain ⟨m, e, a, hcore, hdescribes, he⟩ := divCore_spec h₁ h₂ e₁ e₂
  unfold UnpackedFloat.div
  dsimp only
  rw [hcore]
  exact hb.round hx hdescribes he _

/-- **A decimal number in the cell of a double is read as that double.** -/
theorem Binary.Canonical.ofScientific {n : ℕ} {e : ℤ} (hx : b.Around (n * 10 ^ e)) (hn : 0 < n)
    (hhigh : e ≤ 2048) (hlow : -(2048 + (n.log2 : ℤ)) ≤ e) :
    UnpackedFloat.ofScientific Format.binary64 n e =
      .finite .positive b.significand b.exponent hb.pos := by
  unfold UnpackedFloat.ofScientific
  rw [dif_neg hn.ne', if_neg (by norm_num; omega), if_neg (by norm_num; omega)]
  rcases le_or_gt 0 e with he | he
  · rw [if_pos he]
    obtain ⟨k, rfl⟩ := Int.eq_ofNat_of_zero_le he
    have hvalue : ((n <<< 53 : ℕ) * 2 ^ (-(53 : ℕ) : ℤ) * ((10 ^ k : ℕ) * 2 ^ (0 : ℤ)) : ℚ) =
        n * 10 ^ (k : ℤ) := by
      rw [Nat.shiftLeft_eq, zpow_neg, zpow_natCast, zpow_zero, zpow_natCast]
      push_cast
      field_simp
      norm_num
    have hbits : 2 ^ 52 ≤ n <<< 53 * 10 ^ k := by
      rw [Nat.shiftLeft_eq]
      have hpow : 1 ≤ n * 10 ^ k := Nat.mul_pos hn (by positivity)
      linarith
    rw [← hvalue] at hx
    exact hb.mul _ _ hx hbits
  · rw [if_neg (not_le.mpr he)]
    have hvalue : (n * 2 ^ (0 : ℤ) / ((10 ^ (-e).toNat : ℕ) * 2 ^ (0 : ℤ)) : ℚ) = n * 10 ^ e := by
      have hpow : (10 : ℚ) ^ e = (10 ^ (-e).toNat)⁻¹ := by
        rw [← zpow_natCast, Int.toNat_of_nonneg (by omega), zpow_neg, inv_inv]
      rw [hpow, zpow_zero, mul_one, mul_one, div_eq_mul_inv, Nat.cast_pow, Nat.cast_ofNat]
    rw [← hvalue] at hx
    exact hb.div _ _ hx

end

end SnapBlocks.Decimal
