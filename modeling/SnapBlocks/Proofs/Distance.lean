import SnapBlocks.Point
import SnapBlocks.Proofs.DocumentText
import SnapBlocks.Proofs.Integral
import SnapBlocks.Proofs.Numeric

/-! Distances of points. Rounding passes no double: what is at least as large as a double stays so
when it is rounded. So a sum of squares is at least as large as each of them, and a distance as the
way along each axis. -/

namespace SnapBlocks.Decimal

open Doubles Float.Model Float.Model.UnpackedFloat

variable {b c : Binary} {x v w : ℚ} {a : Accuracy} {em : ExtendedMantissa} {m m₁ m₂ s k : ℕ}
variable {e e₁ e₂ t : ℤ} {u u' : UnpackedFloat}

/-! ## Rounding passes no double -/

theorem StandsFor.le_roundedMantissa (h : StandsFor em x) (hk : k ≤ x) :
    k ≤ em.roundedMantissa := by
  obtain ⟨m, r, st⟩ := em
  unfold StandsFor at h
  have hcast {i j : ℕ} (h : (i : ℚ) < j + 1) : i ≤ j := by
    have : i < j + 1 := by exact_mod_cast h
    omega
  unfold ExtendedMantissa.roundedMantissa
  cases r <;> cases st <;>
    simp only [ExtendedMantissa.accuracy, Describes, Accuracy.roundToNearestEven] at h ⊢
  · exact hcast (by linarith)
  · exact hcast (by linarith)
  · exact (hcast (by linarith) : k ≤ m).trans (Nat.le_add_right _ _)
  · exact hcast (by push_cast; linarith)

theorem StandsFor.roundedMantissa_le (h : StandsFor em x) (hk : x ≤ k) :
    em.roundedMantissa ≤ k := by
  obtain ⟨m, r, st⟩ := em
  unfold StandsFor at h
  have hcast {i j : ℕ} (h : (i : ℚ) < j + 1) : i ≤ j := by
    have : i < j + 1 := by exact_mod_cast h
    omega
  unfold ExtendedMantissa.roundedMantissa
  cases r <;> cases st <;>
    simp only [ExtendedMantissa.accuracy, Describes, Accuracy.roundToNearestEven] at h ⊢
  · exact hcast (by linarith)
  · exact hcast (by linarith)
  · have : m + 1 ≤ k := hcast (by push_cast; linarith)
    omega
  · exact hcast (by push_cast; linarith)

/-- A positive number of at least a size as it is before it is packed: rounded, but with an exponent
that may be too great for a double. -/
inductive Reaches (v : ℚ) : UnpackedFloat → Prop
  | infinity : Reaches v (.infinity .positive)
  | finite {s : ℕ} {e : ℤ} {h : 0 < s} : s < 2 ^ 53 → -1074 ≤ e → (2 ^ 52 ≤ s ∨ e = -1074) →
      v ≤ s * 2 ^ e → Reaches v (.finite .positive s e h)

theorem Reaches.mono (h : Reaches v u) (hw : w ≤ v) : Reaches w u := by
  cases h with
  | infinity => exact .infinity
  | finite hs he hnormal hv => exact .finite hs he hnormal (hw.trans hv)

/-- The exponent to which a number is shifted leaves room for it, and is no greater than it has to
be. -/
theorem Describes.target_bounds (h : Describes a (x / 2 ^ e - m))
    (ht : Format.binary64.targetExponent (totalExponent m e) = t) (he : e ≤ t) :
    -1074 ≤ t ∧ x / 2 ^ t ≤ (2 ^ 53 : ℕ) ∧ ((2 ^ 52 : ℕ) ≤ x / 2 ^ t ∨ t = -1074) := by
  have hpos : (0 : ℚ) < 2 ^ t := by positivity
  rw [targetExponent_eq] at ht
  have hscale (n : ℕ) : ((2 ^ n : ℕ) : ℚ) * 2 ^ t = 2 ^ (n + t) := by
    rw [zpow_add₀ two_ne_zero, zpow_natCast, Nat.cast_pow, Nat.cast_ofNat]
  rw [div_le_iff₀ hpos, le_div_iff₀ hpos, hscale, hscale]
  refine ⟨by omega, ?_⟩
  by_cases hm : m = 0
  · subst hm
    rw [totalExponent_eq, Nat.log2_zero] at ht
    have hsmall := h.bounds.2
    rw [Nat.cast_zero, sub_zero, div_lt_iff₀ (by positivity), one_mul] at hsmall
    refine ⟨hsmall.le.trans (zpow_le_zpow_right₀ one_le_two (by omega)), .inr (by omega)⟩
  · obtain ⟨hlow, hhigh⟩ := h.total_bounds hm
    refine ⟨hhigh.le.trans (zpow_le_zpow_right₀ one_le_two (by omega)), ?_⟩
    by_cases hleast : t = -1074
    · exact .inr hleast
    · exact .inl ((zpow_le_zpow_right₀ one_le_two (by omega)).trans hlow)

/-- A number is rounded to one that is at least as large as each multiple of the last place up to
it. -/
theorem Describes.reaches_of_le (h : Describes a (x / 2 ^ e - m))
    (ht : Format.binary64.targetExponent (totalExponent m e) = t) (he : e ≤ t) (hk : 0 < k)
    (hle : k ≤ x / 2 ^ t) :
    Reaches (k * 2 ^ t) (roundWithAccuracy Format.binary64 .positive m e a) := by
  obtain ⟨hleast, hhigh, hlow⟩ := h.target_bounds ht he
  obtain ⟨hstands, hexp⟩ := h.standsFor_shift he
  have hround := hstands.le_roundedMantissa hle
  have hnormal := hlow.imp_left hstands.le_roundedMantissa
  have hroom := hstands.roundedMantissa_le hhigh
  unfold roundWithAccuracy
  have hfirst : shiftToTargetExponent Format.binary64 m e a = shiftToExponent m e a t := by
    unfold shiftToTargetExponent
    rw [ht]
  rw [hfirst]
  dsimp only
  rw [hexp]
  rcases hroom.eq_or_lt with heq | hlt
  · rw [heq, shiftToTargetExponent_pow hleast]
    refine .finite (by norm_num) (by omega) (.inl le_rfl) ?_
    have hk' : (k : ℚ) ≤ 2 ^ 53 := by
      rw [heq] at hround
      exact_mod_cast hround
    calc (k : ℚ) * 2 ^ t ≤ 2 ^ 53 * 2 ^ t := by gcongr
      _ = (2 ^ 52 : ℕ) * 2 ^ (t + 1) := by rw [zpow_add_one₀ two_ne_zero]; push_cast; ring
  · rw [shiftToTargetExponent_of_lt hlt hleast]
    dsimp only
    rw [dif_neg (hk.trans_le hround).ne']
    refine .finite hlt hleast hnormal ?_
    gcongr

/-- **Rounding passes no double.** -/
theorem Describes.reaches (h : Describes a (x / 2 ^ e - m))
    (he : e ≤ Format.binary64.targetExponent (totalExponent m e)) (hs : 0 < s) (hlt : s < 2 ^ 53)
    (hleast : -1074 ≤ e₁) (hle : s * 2 ^ e₁ ≤ x) :
    Reaches (s * 2 ^ e₁) (roundWithAccuracy Format.binary64 .positive m e a) := by
  obtain ⟨t, ht⟩ : ∃ t, Format.binary64.targetExponent (totalExponent m e) = t := ⟨_, rfl⟩
  rw [ht] at he
  have hpos : (0 : ℚ) < 2 ^ t := by positivity
  rcases le_or_gt t e₁ with hexp | hexp
  · -- on the grid to which the number is rounded
    obtain ⟨i, rfl⟩ : ∃ i : ℕ, e₁ = t + i := ⟨(e₁ - t).toNat, by omega⟩
    have hvalue : (s * 2 ^ (t + i) : ℚ) = (s * 2 ^ i : ℕ) * 2 ^ t := by
      rw [zpow_add₀ two_ne_zero, zpow_natCast]
      push_cast
      ring
    rw [hvalue] at hle ⊢
    exact h.reaches_of_le ht he (by positivity) ((le_div_iff₀ hpos).mpr hle)
  · -- below all numbers of that exponent
    have hlow := (h.target_bounds ht he).2.2.resolve_right (by omega)
    refine (h.reaches_of_le ht he (by norm_num) hlow).mono ?_
    calc (s : ℚ) * 2 ^ e₁ ≤ 2 ^ 53 * 2 ^ e₁ := by gcongr; exact_mod_cast hlt.le
      _ = (2 ^ 52 : ℕ) * 2 ^ (e₁ + 1) := by rw [zpow_add_one₀ two_ne_zero]; push_cast; ring
      _ ≤ (2 ^ 52 : ℕ) * 2 ^ t := by gcongr; exacts [one_le_two, hexp]

/-! ## Packing -/

theorem Reaches.unpack_pack (h : Reaches v u) :
    Reaches v (UnpackedFloat.unpack Format.binary64 (UnpackedFloat.pack Format.binary64 u)) := by
  have hinfinity : Reaches v (UnpackedFloat.unpack Format.binary64
      (UnpackedFloat.pack Format.binary64 (.infinity .positive))) := .infinity
  cases h with
  | infinity => exact hinfinity
  | @finite s e hpos hs he hnormal hv =>
    by_cases hgreat : e ≤ 971
    · have hb : Binary.Canonical ⟨s, e⟩ := ⟨hpos, hs, he, hgreat, hnormal⟩
      change Reaches v (UnpackedFloat.unpack Format.binary64 (UnpackedFloat.pack Format.binary64
        (hb.unpacked .positive)))
      rw [hb.unpack_pack]
      exact .finite hs he hnormal hv
    · have hpack : UnpackedFloat.pack Format.binary64 (.finite .positive s e hpos) =
          UnpackedFloat.pack Format.binary64 (.infinity .positive) := by
        have hbias : e + (Format.binary64.exponentBias : ℕ) + ((52 : ℕ) : ℤ) = e + 1075 :=
          add_assoc _ _ _
        unfold UnpackedFloat.pack
        dsimp only
        rw [hbias, if_pos (by norm_num; omega)]
      rw [hpack]
      exact hinfinity

/-- A number that is not negative, a negative zero apart. -/
inductive Nonneg : UnpackedFloat → Prop
  | infinity : Nonneg (.infinity .positive)
  | zero (sign : Sign) : Nonneg (.zero sign)
  | finite (m : ℕ) (e : ℤ) (h : 0 < m) : Nonneg (.finite .positive m e h)

theorem Nonneg.isNaN (h : Nonneg u) : u.isNaN = false := by
  cases h <;> rfl

theorem Reaches.nonneg (h : Reaches v u) : Nonneg u := by
  cases h with
  | infinity => exact .infinity
  | finite => exact .finite _ _ _

theorem Nonneg.unpack_pack (h : Nonneg u) :
    Nonneg (UnpackedFloat.unpack Format.binary64 (UnpackedFloat.pack Format.binary64 u)) := by
  cases h with
  | infinity => exact .infinity
  | zero sign => cases sign <;> exact .zero _
  | finite m e hm =>
    obtain hu | hu | ⟨_, _, _, hu⟩ := unpack_pack_finite m e hm <;> rw [hu]
    · exact .infinity
    · exact .zero _
    · exact .finite _ _ _

/-! ## Sums -/

theorem log2_mul_pow (hm : m ≠ 0) (k : ℕ) : (m * 2 ^ k).log2 = m.log2 + k := by
  rw [Nat.log2_eq_iff (by positivity), pow_add, Nat.add_right_comm, pow_add]
  exact ⟨Nat.mul_le_mul_right _ (Nat.log2_self_le hm),
    Nat.mul_lt_mul_of_pos_right Nat.lt_log2_self (Nat.two_pow_pos k)⟩

/-- Rounding makes room at the low end of a mantissa first, if the exponent is too great. -/
theorem reaches_round (hm : 0 < m) (hs : 0 < s) (hlt : s < 2 ^ 53) (hleast : -1074 ≤ e₁)
    (hle : (s * 2 ^ e₁ : ℚ) ≤ m * 2 ^ e) :
    Reaches (s * 2 ^ e₁) (UnpackedFloat.round Format.binary64 .positive m e) := by
  obtain ⟨k, hk⟩ : ∃ k, (e - Format.binary64.targetExponent (totalExponent m e)).toNat = k :=
    ⟨_, rfl⟩
  have hround : UnpackedFloat.round Format.binary64 .positive m e =
      roundWithAccuracy Format.binary64 .positive (m * 2 ^ k) (e - k) .exact := by
    unfold UnpackedFloat.round decreaseExponent
    dsimp only
    rw [hk, Nat.shiftLeft_eq]
  have hvalue : ((m * 2 ^ k : ℕ) * 2 ^ (e - k) : ℚ) = m * 2 ^ e := by
    rw [zpow_sub₀ two_ne_zero, zpow_natCast]
    push_cast
    field_simp
  have htotal : totalExponent (m * 2 ^ k) (e - k) = totalExponent m e := by
    rw [totalExponent_eq, totalExponent_eq, log2_mul_pow hm.ne']
    push_cast
    ring
  rw [hround]
  refine (describes_exact _ _).reaches ?_ hs hlt hleast (hvalue ▸ hle)
  rw [htotal]
  omega

/-- A sum of two positive numbers is rounded. -/
theorem reaches_add_finite (h₁ : 0 < m₁) (h₂ : 0 < m₂) (hs : 0 < s) (hlt : s < 2 ^ 53)
    (hleast : -1074 ≤ e) (hle : (s * 2 ^ e : ℚ) ≤ m₁ * 2 ^ e₁ + m₂ * 2 ^ e₂) :
    Reaches (s * 2 ^ e) (.add Format.binary64 (.finite .positive m₁ e₁ h₁)
      (.finite .positive m₂ e₂ h₂)) := by
  obtain ⟨t, ht⟩ : ∃ t, min e₁ e₂ = t := ⟨_, rfl⟩
  obtain ⟨i, hi, hi'⟩ : ∃ i : ℕ, (e₁ - t).toNat = i ∧ e₁ = i + t := ⟨_, rfl, by omega⟩
  obtain ⟨j, hj, hj'⟩ : ∃ j : ℕ, (e₂ - t).toNat = j ∧ e₂ = j + t := ⟨_, rfl, by omega⟩
  have hadd : UnpackedFloat.add Format.binary64 (.finite .positive m₁ e₁ h₁)
      (.finite .positive m₂ e₂ h₂) =
        UnpackedFloat.round Format.binary64 .positive (m₁ * 2 ^ i + m₂ * 2 ^ j) t := by
    have hpos : compare ((m₁ * 2 ^ i + m₂ * 2 ^ j : ℕ) : ℤ) 0 = .gt :=
      compare_gt_iff_gt.mpr (by positivity)
    unfold UnpackedFloat.add decreaseExponent
    dsimp only
    rw [ht, hi, hj, Nat.shiftLeft_eq, Nat.shiftLeft_eq]
    change UnpackedFloat.normalize _ ((m₁ * 2 ^ i : ℕ) + (m₂ * 2 ^ j : ℕ)) _ _ = _
    rw [← Nat.cast_add]
    unfold UnpackedFloat.normalize
    rw [hpos]
    rfl
  have hvalue : ((m₁ * 2 ^ i + m₂ * 2 ^ j : ℕ) * 2 ^ t : ℚ) = m₁ * 2 ^ e₁ + m₂ * 2 ^ e₂ := by
    rw [hi', hj', zpow_add₀ two_ne_zero, zpow_add₀ two_ne_zero, zpow_natCast, zpow_natCast]
    push_cast
    ring
  rw [hadd]
  exact reaches_round (by positivity) hs hlt hleast (hvalue ▸ hle)

/-- A sum is at least as large as its first term. -/
theorem Reaches.add_right (h : Reaches v u) (h' : Nonneg u') :
    Reaches v (.add Format.binary64 u u') := by
  cases h with
  | infinity => cases h' <;> exact .infinity
  | finite hs he hnormal hv =>
    cases h' with
    | infinity => exact .infinity
    | zero => exact .finite hs he hnormal hv
    | finite m₂ e₂ h₂ =>
      refine (reaches_add_finite _ h₂ ‹_› hs he ?_).mono hv
      exact le_add_of_nonneg_right (by positivity)

/-- A sum is at least as large as its second term. -/
theorem Reaches.add_left (h : Reaches v u) (h' : Nonneg u') :
    Reaches v (.add Format.binary64 u' u) := by
  cases h with
  | infinity => cases h' <;> exact .infinity
  | finite hs he hnormal hv =>
    cases h' with
    | infinity => exact .infinity
    | zero => exact .finite hs he hnormal hv
    | finite m₁ e₁ h₁ =>
      refine (reaches_add_finite h₁ _ ‹_› hs he ?_).mono hv
      exact le_add_of_nonneg_left (by positivity)

/-! ## Squares and square roots -/

theorem nonneg_mul_self (h : u.isNaN = false) : Nonneg (.mul Format.binary64 u u) := by
  rcases u with sign | _ | sign | ⟨sign, m, e, hm⟩
  · cases sign <;> exact .infinity
  · cases h
  · exact .zero _
  · have hsign : sign * sign = .positive := by cases sign <;> rfl
    change Nonneg (roundWithAccuracy Format.binary64 (sign * sign) (m * m) (e + e) .exact)
    rw [hsign]
    have hsplit (s : ℕ) (t : ℤ) : Nonneg (if h : s = 0 then .zero .positive
        else .finite .positive s t (Nat.pos_of_ne_zero h)) := by
      cases s with
      | zero => exact .zero _
      | succ s => exact .finite _ _ _
    exact hsplit _ _

/-- The double before one that is no power of two. -/
theorem Binary.Canonical.value_le_pred (hc : c.Canonical) (h : c.value < b.value)
    (hfull : 2 ^ 52 < b.significand) :
    c.value ≤ (b.significand - 1 : ℕ) * 2 ^ b.exponent := by
  unfold value at *
  rcases le_or_gt b.exponent c.exponent with hexp | hexp
  · obtain ⟨i, hi⟩ : ∃ i : ℕ, c.exponent = i + b.exponent :=
      ⟨(c.exponent - b.exponent).toNat, by omega⟩
    rw [hi, zpow_add₀ two_ne_zero, zpow_natCast, ← mul_assoc] at h ⊢
    have hlt : c.significand * 2 ^ i < b.significand := by
      exact_mod_cast lt_of_mul_lt_mul_right h (by positivity)
    have hle : c.significand * 2 ^ i ≤ b.significand - 1 := by omega
    gcongr
    exact_mod_cast hle
  · have hle : 2 ^ 52 ≤ b.significand - 1 := by omega
    calc (c.significand : ℚ) * 2 ^ c.exponent ≤ 2 ^ 53 * 2 ^ c.exponent := by
          gcongr
          exact_mod_cast hc.lt.le
      _ = (2 ^ 52 : ℕ) * 2 ^ (c.exponent + 1) := by
          rw [zpow_add_one₀ two_ne_zero]
          push_cast
          ring
      _ ≤ (b.significand - 1 : ℕ) * 2 ^ b.exponent := by
          gcongr
          exacts [one_le_two, hexp]

/-- A square is at least that of any double before, unless it is too small to have all its bits. -/
theorem Binary.Canonical.reaches_square (hb : b.Canonical) (hc : c.Canonical)
    (h : c.value < b.value) (hfull : 2 ^ 52 ≤ b.significand) (hleast : -563 ≤ b.exponent)
    (sign : Sign) : Reaches (c.value ^ 2)
      (.mul Format.binary64 (hb.unpacked sign) (hb.unpacked sign)) := by
  obtain ⟨s, e⟩ := b
  dsimp only at hfull hleast
  have hlt : s < 2 ^ 53 := hb.lt
  have hpos : 0 < s * s := Nat.mul_pos hb.pos hb.pos
  -- the square has a hundred and five or six bits
  obtain ⟨j, hj, hj₁, hj₂⟩ : ∃ j, (s * s).log2 = 52 + j ∧ 52 ≤ j ∧ j ≤ 53 := by
    have hlow : 2 ^ 104 ≤ s * s := by
      rw [show 104 = 52 + 52 from rfl, pow_add]
      exact Nat.mul_le_mul hfull hfull
    have hhigh : s * s < 2 ^ 106 := by
      rw [show 106 = 53 + 53 from rfl, pow_add]
      exact Nat.mul_lt_mul'' hlt hlt
    have hlow := (Nat.le_log2 hpos.ne').mpr hlow
    have hhigh := (Nat.log2_lt hpos.ne').mpr hhigh
    exact ⟨(s * s).log2 - 52, by omega, by omega, by omega⟩
  have ht : Format.binary64.targetExponent (totalExponent (s * s) (e + e)) = e + e + j := by
    rw [targetExponent_eq, totalExponent_eq, hj]
    omega
  have hscale : (2 : ℚ) ^ (e + e + j) = 2 ^ j * (2 ^ e) ^ 2 := by
    rw [zpow_add₀ two_ne_zero, zpow_add₀ two_ne_zero, zpow_natCast]
    ring
  have hk : 0 < s * s / 2 ^ j := by
    refine Nat.div_pos ?_ (Nat.two_pow_pos j)
    calc 2 ^ j ≤ 2 ^ 53 := Nat.pow_le_pow_right two_pos hj₂
      _ ≤ 2 ^ 52 * 2 ^ 52 := by norm_num
      _ ≤ s * s := Nat.mul_le_mul hfull hfull
  have hround : Reaches ((s * s / 2 ^ j : ℕ) * 2 ^ (e + e + j))
      (roundWithAccuracy Format.binary64 .positive (s * s) (e + e) .exact) := by
    refine (describes_exact _ _).reaches_of_le ht (by omega) hk ?_
    rw [zpow_add₀ two_ne_zero (e + e), zpow_natCast, ← div_div,
      mul_div_cancel_right₀ _ (by positivity), le_div_iff₀ (by positivity)]
    exact_mod_cast Nat.div_mul_le_self _ _
  have hsign : sign * sign = .positive := by cases sign <;> rfl
  change Reaches _ (roundWithAccuracy Format.binary64 (sign * sign) (s * s) (e + e) .exact)
  rw [hsign]
  refine hround.mono ?_
  rw [hscale, ← mul_assoc]
  rcases hfull.eq_or_lt with rfl | hlt'
  · -- the square of a power of two is exact
    have hexact : 2 ^ 52 * 2 ^ 52 / 2 ^ j * 2 ^ j = (2 ^ 52) ^ 2 := by
      rw [sq]
      exact Nat.div_mul_cancel (by rw [← pow_add]; exact Nat.pow_dvd_pow 2 (by omega))
    have hexact : ((2 ^ 52 * 2 ^ 52 / 2 ^ j : ℕ) * 2 ^ j : ℚ) = (2 ^ 52 : ℕ) ^ 2 := by
      exact_mod_cast hexact
    rw [hexact, ← mul_pow]
    exact pow_le_pow_left₀ hc.value_pos.le h.le 2
  · have hrest : (s - 1) ^ 2 ≤ s * s / 2 ^ j * 2 ^ j := by
      have hmod := Nat.div_add_mod' (s * s) (2 ^ j)
      have hless := Nat.mod_lt (s * s) (Nat.two_pow_pos j)
      have hpow : 2 ^ j ≤ 2 ^ 53 := Nat.pow_le_pow_right two_pos hj₂
      obtain ⟨r, rfl⟩ : ∃ r, s = r + 1 := ⟨s - 1, by omega⟩
      rw [Nat.add_sub_cancel]
      have hsquare : (r + 1) * (r + 1) = r ^ 2 + 2 * r + 1 := by ring
      omega
    calc c.value ^ 2 ≤ ((s - 1 : ℕ) * 2 ^ e) ^ 2 :=
          pow_le_pow_left₀ hc.value_pos.le (hc.value_le_pred h hlt') 2
      _ = (s - 1 : ℕ) ^ 2 * (2 ^ e) ^ 2 := mul_pow _ _ _
      _ ≤ (s * s / 2 ^ j : ℕ) * 2 ^ j * (2 ^ e) ^ 2 := by
          gcongr
          exact_mod_cast hrest

/-- A square root has enough bits, and what it leaves out is described, if not the root itself. -/
theorem sqrtCore_spec (hm : 0 < m) (hw : 0 ≤ w) (hle : w ^ 2 ≤ m * 2 ^ e) :
    ∃ r t a x, sqrtCore Format.binary64 m e = (r, t, a) ∧ Describes a (x / 2 ^ t - r) ∧
      t ≤ Format.binary64.targetExponent (totalExponent r t) ∧ w ≤ x := by
  obtain ⟨t, ht⟩ : ∃ t, min (e / 2)
    (Format.binary64.targetExponent ((totalExponent m e + 1) / 2)) = t := ⟨_, rfl⟩
  obtain ⟨k, hk⟩ : ∃ k : ℕ, (k : ℤ) = e - 2 * t :=
    Int.eq_ofNat_of_zero_le (by omega) |>.imp fun _ h => h.symm
  obtain ⟨i, hi⟩ : ∃ i, m * 2 ^ k = i := ⟨_, rfl⟩
  have hcore : sqrtCore Format.binary64 m e = (i.sqrt, t,
      if i - i.sqrt * i.sqrt = 0 then .exact
      else .inexact (if i - i.sqrt * i.sqrt ≤ i.sqrt then .lt else .gt)) := by
    have hshift : m <<< (e - 2 * t).toNat = i := by
      rw [Nat.shiftLeft_eq, ← hi]
      congr 2
      omega
    unfold sqrtCore
    dsimp only
    rw [show e.ediv 2 = e / 2 from rfl, show (totalExponent m e + 1).ediv 2 =
      (totalExponent m e + 1) / 2 from rfl, ht, hshift]
  have hpos : (0 : ℚ) < 2 ^ t := by positivity
  -- the root is that of an integer, times a power of two
  have hroot : (w / 2 ^ t) ^ 2 ≤ i := by
    have hscale : (2 : ℚ) ^ e = 2 ^ k * (2 ^ t) ^ 2 := by
      rw [← zpow_natCast, hk, ← zpow_natCast (2 ^ t : ℚ), ← zpow_mul, ← zpow_add₀ two_ne_zero]
      congr 1
      push_cast
      ring
    rw [div_pow, div_le_iff₀ (by positivity), ← hi]
    push_cast
    rwa [mul_assoc, ← hscale]
  have hle_of {y : ℚ} (hy : 0 ≤ y) (h : (i : ℚ) ≤ y ^ 2) : w / 2 ^ t ≤ y :=
    (pow_le_pow_iff_left₀ (div_nonneg hw hpos.le) hy two_ne_zero).mp (hroot.trans h)
  have hlt_of {y : ℚ} (hy : 0 ≤ y) (h : (i : ℚ) < y ^ 2) : w / 2 ^ t < y :=
    lt_of_pow_lt_pow_left₀ 2 hy (hroot.trans_lt h)
  have htarget : t ≤ Format.binary64.targetExponent (totalExponent i.sqrt t) := by
    rw [targetExponent_eq, totalExponent_eq] at *
    rcases le_or_gt t (-1074) with hlow | hhigh
    · exact hlow.trans (le_max_right _ _)
    · have hlog : i.log2 = m.log2 + k := hi ▸ log2_mul_pow hm.ne' k
      have hbits : 2 ^ 52 * 2 ^ 52 ≤ i := by
        have hi₀ : i ≠ 0 := by
          rw [← hi]
          positivity
        rw [← pow_add]
        exact (Nat.le_log2 hi₀).mp (by omega)
      have hsqrt := Nat.le_sqrt.mpr hbits
      have := (Nat.le_log2 (by omega)).mpr hsqrt
      omega
  have hfound {a : Accuracy} {y : ℚ} (ha : Describes a (y - i.sqrt)) (hy : w / 2 ^ t ≤ y) :
      ∃ x, Describes a (x / 2 ^ t - i.sqrt) ∧ w ≤ x :=
    ⟨y * 2 ^ t, by rwa [mul_div_cancel_right₀ _ hpos.ne'], (div_le_iff₀ hpos).mp hy⟩
  suffices h : ∃ x, Describes (if i - i.sqrt * i.sqrt = 0 then .exact
      else .inexact (if i - i.sqrt * i.sqrt ≤ i.sqrt then .lt else .gt))
        (x / 2 ^ t - i.sqrt) ∧ w ≤ x by
    obtain ⟨x, ha, hx⟩ := h
    exact ⟨_, _, _, x, hcore, ha, htarget, hx⟩
  have hlow : i.sqrt * i.sqrt ≤ i := Nat.sqrt_le i
  have hhigh : i < (i.sqrt + 1) * (i.sqrt + 1) := Nat.lt_succ_sqrt i
  split_ifs with hexact hhalf
  · have hi' : i = i.sqrt * i.sqrt := by omega
    refine hfound (y := i.sqrt) (sub_self _) (hle_of (Nat.cast_nonneg _) ?_)
    rw [sq]
    exact_mod_cast hi'.le
  · have hi' : (i : ℚ) ≤ i.sqrt * i.sqrt + i.sqrt := by
      exact_mod_cast (show i ≤ i.sqrt * i.sqrt + i.sqrt by omega)
    have hless : w / 2 ^ t < i.sqrt + 1 / 2 := hlt_of (by positivity) (by linarith)
    refine hfound (y := max (w / 2 ^ t) (i.sqrt + 1 / 4)) ⟨?_, ?_⟩ (le_max_left _ _)
    · have := le_max_right (w / 2 ^ t) ((i.sqrt : ℚ) + 1 / 4)
      linarith
    · have := max_lt hless (by linarith : (i.sqrt : ℚ) + 1 / 4 < i.sqrt + 1 / 2)
      linarith
  · have hi' : (i : ℚ) < (i.sqrt + 1) * (i.sqrt + 1) := by exact_mod_cast hhigh
    have hless : w / 2 ^ t < i.sqrt + 1 := hlt_of (by positivity) (by rwa [sq])
    refine hfound (y := max (w / 2 ^ t) (i.sqrt + 3 / 4)) ⟨?_, ?_⟩ (le_max_left _ _)
    · have := le_max_right (w / 2 ^ t) ((i.sqrt : ℚ) + 3 / 4)
      linarith
    · have := max_lt hless (by linarith : (i.sqrt : ℚ) + 3 / 4 < i.sqrt + 1)
      linarith

/-- A square root is at least as large as each double whose square is no larger. -/
theorem Reaches.sqrt (h : Reaches v u) (hc : c.Canonical) (hle : c.value ^ 2 ≤ v) :
    Reaches c.value (.sqrt Format.binary64 u) := by
  cases h with
  | infinity => exact .infinity
  | @finite s e hs _ _ _ hv =>
    obtain ⟨r, t, a, x, hcore, ha, ht, hx⟩ := sqrtCore_spec hs hc.value_pos.le (hle.trans hv)
    unfold UnpackedFloat.sqrt
    dsimp only
    rw [hcore]
    exact ha.reaches ht hc.pos hc.lt hc.least hx

/-! ## Doubles -/

/-- A double that is a number is infinite, a zero, or of canonical parts. -/
theorem unpack_cases {x : Float} (h : x.isNaN = false) :
    (∃ sign, x.toModel.unpack = .infinity sign) ∨ (∃ sign, x.toModel.unpack = .zero sign) ∨
      ∃ sign, ∃ b : Binary, ∃ hb : b.Canonical, x.toModel.unpack = hb.unpacked sign := by
  by_cases hfinite : x.isFinite
  · right
    rcases eq_of_isFinite hfinite with ⟨_, hx⟩ | ⟨hb, hx⟩
    · left
      rw [hx]
      cases signOf (decide (2 ^ 63 ≤ x.toBits.toNat)) <;> exact ⟨_, rfl⟩
    · exact .inr ⟨_, _, hb, (congrArg (·.toModel.unpack) hx).trans hb.unpack_toFloat⟩
  · left
    change ¬ x.toModel.unpack.isFinite at hfinite
    change x.toModel.unpack.isNaN = false at h
    cases hu : x.toModel.unpack with
    | infinity sign => exact ⟨sign, rfl⟩
    | notANumber => rw [hu] at h; cases h
    | zero => rw [hu] at hfinite; exact absurd rfl hfinite
    | finite => rw [hu] at hfinite; exact absurd rfl hfinite

theorem Reaches.le_placeOf (hc : c.Canonical) (h : Reaches c.value u) :
    placeOf (hc.unpacked .positive) ≤ placeOf u := by
  change toLex (1, toLex (c.exponent, (c.significand : ℤ))) ≤ _
  cases h with
  | infinity => exact Prod.Lex.toLex_le_toLex.mpr (.inl (by norm_num))
  | @finite s e _ hs he hnormal hv =>
    change _ ≤ toLex (1, toLex (e, (s : ℤ)))
    unfold Binary.value at hv
    simp only [Prod.Lex.toLex_le_toLex, true_and, lt_self_iff_false, false_or]
    rcases lt_trichotomy c.exponent e with hlt | heq | hgt
    · exact .inl hlt
    · rw [heq] at hv
      exact .inr ⟨heq, by exact_mod_cast le_of_mul_le_mul_right hv (by positivity)⟩
    · have hlow : (2 : ℚ) ^ 52 ≤ c.significand := by
        exact_mod_cast hc.normal.resolve_right (by omega)
      have hhigh : (s : ℚ) < 2 ^ 53 := by exact_mod_cast hs
      have hless : (s : ℚ) * 2 ^ e < c.significand * 2 ^ c.exponent :=
        calc (s : ℚ) * 2 ^ e < 2 ^ 53 * 2 ^ e := by gcongr
          _ = 2 ^ 52 * 2 ^ (e + 1) := by rw [zpow_add_one₀ two_ne_zero]; ring
          _ ≤ c.significand * 2 ^ c.exponent := by gcongr; exacts [one_le_two, hgt]
      exact absurd hv hless.not_ge

section
variable {r z w : Float}

theorem unpack_mul (x y : Float) : (x * y).toModel.unpack = UnpackedFloat.unpack Format.binary64
    (UnpackedFloat.pack Format.binary64
      (.mul Format.binary64 x.toModel.unpack y.toModel.unpack)) := rfl

/-- What is compared is a number. -/
theorem isNaN_of_le {x y : Float} (h : x ≤ y) : y.isNaN = false := by
  by_contra hnan
  have hy : y.toModel.unpack = .notANumber := by
    change ¬ y.toModel.unpack.isNaN = false at hnan
    cases hu : y.toModel.unpack with
    | notANumber => rfl
    | _ => rw [hu] at hnan; exact absurd rfl hnan
  change decide (Option.any _ (x.toModel.unpack.compare y.toModel.unpack) = true) = true at h
  rw [hy] at h
  cases hx : x.toModel.unpack <;> rw [hx] at h <;> cases h

/-- Where a number lies whose square does not vanish. -/
theorem place_small : place 1e-150 = toLex (1, toLex (-551, 7371020360979573)) := by
  decide +kernel

/-- A radius that is not tiny is a positive double, or infinite. -/
theorem radius_cases (hr : 1e-150 ≤ r) : r.toModel.unpack = .infinity .positive ∨
    ∃ c : Binary, ∃ hc : c.Canonical, r.toModel.unpack = hc.unpacked .positive ∧
      -551 ≤ c.exponent := by
  have hnan := isNaN_of_le hr
  have hplace := (le_iff (by decide +kernel) hnan).mp hr
  rw [place_small, place] at hplace
  rcases unpack_cases hnan with ⟨sign, hu⟩ | ⟨sign, hu⟩ | ⟨sign, c, hc, hu⟩ <;> rw [hu] at hplace ⊢
  · cases sign with
    | positive => exact .inl rfl
    | negative => exact absurd hplace (by decide)
  · change _ ≤ toLex (0, toLex (0, 0)) at hplace
    exact absurd hplace (by decide)
  · cases sign with
    | positive =>
      change _ ≤ toLex (1, toLex (c.exponent, (c.significand : ℤ))) at hplace
      simp only [Prod.Lex.toLex_le_toLex] at hplace
      exact .inr ⟨c, hc, rfl, by omega⟩
    | negative =>
      change _ ≤ toLex (-1, toLex (-c.exponent, -(c.significand : ℤ))) at hplace
      simp only [Prod.Lex.toLex_le_toLex] at hplace
      omega

/-- A number and what it is without its sign. -/
theorem unpack_abs_cases (h : z.isNaN = false) :
    (∃ sign, z.toModel.unpack = .infinity sign ∧ z.abs.toModel.unpack = .infinity .positive) ∨
      z.abs.toModel.unpack = .zero .positive ∨
      ∃ sign, ∃ b : Binary, ∃ hb : b.Canonical, z.toModel.unpack = hb.unpacked sign ∧
        z.abs.toModel.unpack = hb.unpacked .positive := by
  have habs : z.abs.toModel.unpack = UnpackedFloat.unpack Format.binary64
      (UnpackedFloat.pack Format.binary64 z.toModel.unpack.abs) := rfl
  rw [habs]
  rcases unpack_cases h with ⟨sign, hu⟩ | ⟨sign, hu⟩ | ⟨sign, b, hb, hu⟩
  · exact .inl ⟨sign, hu, by rw [hu]; cases sign <;> rfl⟩
  · exact .inr (.inl (by rw [hu]; cases sign <;> rfl))
  · exact .inr (.inr ⟨sign, b, hb, hu, by rw [hu]; exact hb.unpack_pack⟩)

/-- What lies beyond a radius has a square at least as large as that of the radius. -/
theorem reaches_mul_self (hr : 1e-150 ≤ r) (hz : z.isNaN = false) (h : ¬ z.abs ≤ r) :
    ∃ c : Binary, ∃ hc : c.Canonical, r.toModel.unpack = hc.unpacked .positive ∧
      Reaches (c.value ^ 2) (z * z).toModel.unpack := by
  have hcases := unpack_abs_cases hz
  have hnan : z.abs.isNaN = false := by
    change z.abs.toModel.unpack.isNaN = false
    rcases hcases with ⟨_, _, hu⟩ | hu | ⟨_, b, hb, _, hu⟩ <;> rw [hu] <;> rfl
  have hplace := not_le.mp ((le_iff hnan (isNaN_of_le hr)).not.mp h)
  rw [place, place] at hplace
  rcases radius_cases hr with hu | ⟨c, hc, hu, hexp⟩
  · -- nothing is beyond an infinite radius
    rw [hu] at hplace
    change toLex (2, toLex (0, 0)) < _ at hplace
    rcases hcases with ⟨_, _, hz⟩ | hz | ⟨_, b, hb, _, hz⟩ <;> rw [hz] at hplace
    · exact absurd hplace (lt_irrefl _)
    · exact absurd hplace (by decide)
    · change _ < toLex (1, toLex (b.exponent, (b.significand : ℤ))) at hplace
      simp only [Prod.Lex.toLex_lt_toLex] at hplace
      omega
  · refine ⟨c, hc, hu, ?_⟩
    rw [unpack_mul]
    apply Reaches.unpack_pack
    rw [hu] at hplace
    change toLex (1, toLex (c.exponent, (c.significand : ℤ))) < _ at hplace
    rcases hcases with ⟨sign, hz, _⟩ | hz | ⟨sign, b, hb, hz, habs⟩
    · rw [hz]
      cases sign <;> exact .infinity
    · rw [hz] at hplace
      change _ < toLex (0, toLex (0, 0)) at hplace
      simp only [Prod.Lex.toLex_lt_toLex] at hplace
      omega
    · rw [habs] at hplace
      change _ < toLex (1, toLex (b.exponent, (b.significand : ℤ))) at hplace
      simp only [Prod.Lex.toLex_lt_toLex, true_and, lt_self_iff_false, false_or,
        Nat.cast_lt] at hplace
      have hfull := hb.normal.resolve_right (by omega)
      rw [hz]
      exact hb.reaches_square hc (hc.value_lt hb hplace) hfull (by omega) sign

/-- **A root of squares is no smaller than a radius beyond which one of them lies.** -/
theorem le_sqrt_add (hr : 1e-150 ≤ r) (hz : z.isNaN = false) (hw : w.isNaN = false)
    (h : ¬ z.abs ≤ r) : r ≤ (z * z + w * w).sqrt ∧ r ≤ (w * w + z * z).sqrt := by
  obtain ⟨c, hc, hu, hsquare⟩ := reaches_mul_self hr hz h
  have hother : Nonneg (w * w).toModel.unpack := (nonneg_mul_self hw).unpack_pack
  have hroot {x : Float} (hx : Reaches (c.value ^ 2) x.toModel.unpack) : r ≤ x.sqrt := by
    have hreach : Reaches c.value x.sqrt.toModel.unpack := (hx.sqrt hc le_rfl).unpack_pack
    have hnan : x.sqrt.isNaN = false := hreach.nonneg.isNaN
    rw [le_iff (isNaN_of_le hr) hnan, place, hu]
    exact hreach.le_placeOf hc
  exact ⟨hroot (hsquare.add_right hother).unpack_pack, hroot (hsquare.add_left hother).unpack_pack⟩

end

/-! ## Differences -/

theorem round_neg (f : Format) (sign : Sign) (m : ℕ) (e : ℤ) :
    UnpackedFloat.round f (-sign) m e = (UnpackedFloat.round f sign m e).neg := by
  have hsplit (s : ℕ) (t : ℤ) : (if h : s = 0 then .zero (-sign)
      else .finite (-sign) s t (Nat.pos_of_ne_zero h)) = UnpackedFloat.neg
        (if h : s = 0 then .zero sign else .finite sign s t (Nat.pos_of_ne_zero h)) := by
    cases s <;> rfl
  exact hsplit _ _

/-- What is rounded with the opposite sign differs in its sign, if it is not zero. -/
theorem normalize_neg (f : Format) (z e : ℤ) :
    UnpackedFloat.normalize f (-z) e .positive = UnpackedFloat.normalize f z e .positive ∨
      UnpackedFloat.normalize f (-z) e .positive = (UnpackedFloat.normalize f z e .positive).neg := by
  unfold UnpackedFloat.normalize
  rcases lt_trichotomy z 0 with h | rfl | h
  · right
    rw [compare_lt_iff_lt.mpr h, compare_gt_iff_gt.mpr (neg_pos.mpr h)]
    exact round_neg f .negative _ _
  · exact .inl rfl
  · right
    rw [compare_gt_iff_gt.mpr h, compare_lt_iff_lt.mpr (neg_neg_iff_pos.mpr h), neg_neg]
    exact round_neg f .positive _ _

theorem sub_swap (f : Format) (u v : UnpackedFloat) :
    UnpackedFloat.sub f v u = UnpackedFloat.sub f u v ∨
      UnpackedFloat.sub f v u = (UnpackedFloat.sub f u v).neg := by
  rcases u with s | _ | s | ⟨s, m, e, h⟩ <;> rcases v with s' | _ | s' | ⟨s', m', e', h'⟩
  case finite.finite =>
    obtain ⟨i, hi⟩ : ∃ i, s.apply (m <<< (e - min e e').toNat : ℕ) = i := ⟨_, rfl⟩
    obtain ⟨j, hj⟩ : ∃ j, s'.apply (m' <<< (e' - min e e').toNat : ℕ) = j := ⟨_, rfl⟩
    unfold UnpackedFloat.sub decreaseExponent
    dsimp only
    rw [min_comm e' e, hi, hj, ← neg_sub i j]
    exact normalize_neg _ _ _
  case infinity.infinity => cases s <;> cases s' <;> first | exact .inl rfl | exact .inr rfl
  case infinity.finite => cases s <;> exact .inr rfl
  case infinity.zero => cases s <;> exact .inr rfl
  case finite.infinity => cases s' <;> exact .inr rfl
  case zero.infinity => cases s' <;> exact .inr rfl
  case zero.zero => cases s <;> cases s' <;> first | exact .inl rfl | exact .inr rfl
  case finite.zero => exact .inr rfl
  case zero.finite => cases s' <;> exact .inr rfl
  all_goals exact .inl rfl

theorem unpack_pack_neg (u : UnpackedFloat) :
    UnpackedFloat.unpack Format.binary64 (UnpackedFloat.pack Format.binary64 u.neg) =
      (UnpackedFloat.unpack Format.binary64 (UnpackedFloat.pack Format.binary64 u)).neg := by
  rcases u with sign | _ | sign | ⟨sign, m, e, h⟩
  · cases sign <;> rfl
  · rfl
  · cases sign <;> rfl
  · change UnpackedFloat.unpack _ (UnpackedFloat.pack _ (.finite (-sign) m e h)) = _
    obtain hu | hu | ⟨_, _, _, hu⟩ := unpack_pack_finite m e h <;> rw [hu, hu] <;> rfl

theorem mul_neg_neg (f : Format) (u : UnpackedFloat) :
    UnpackedFloat.mul f u.neg u.neg = UnpackedFloat.mul f u u := by
  rcases u with sign | _ | sign | ⟨sign, m, e, h⟩ <;> try cases sign
  all_goals rfl

/-- The square of a difference does not depend on its order. -/
theorem sub_mul_self_comm (x y : Float) : (y - x) * (y - x) = (x - y) * (x - y) := by
  have hmul (u : UnpackedFloat) : Float.ofModel (.pack u) * Float.ofModel (.pack u) =
      .ofModel (.pack (.mul Format.binary64
        (UnpackedFloat.unpack Format.binary64 (UnpackedFloat.pack Format.binary64 u))
        (UnpackedFloat.unpack Format.binary64 (UnpackedFloat.pack Format.binary64 u)))) := rfl
  have hsub (x y : Float) : x - y =
      .ofModel (.pack (.sub Format.binary64 x.toModel.unpack y.toModel.unpack)) := rfl
  rw [hsub, hsub]
  rcases sub_swap Format.binary64 x.toModel.unpack y.toModel.unpack with h | h
  · rw [h]
  · rw [h, hmul, hmul, unpack_pack_neg, mul_neg_neg]

/-- A difference of finite doubles is a number, if only an infinite one. -/
theorem isNaN_sub {x y : Float} (hx : x.isFinite) (hy : y.isFinite) : (x - y).isNaN = false := by
  apply isNaN_ofModel_pack (u := .sub Format.binary64 x.toModel.unpack y.toModel.unpack)
  change x.toModel.unpack.isFinite at hx
  change y.toModel.unpack.isFinite at hy
  rcases hu : x.toModel.unpack with s | _ | s | ⟨s, m, e, h⟩ <;> rw [hu] at hx <;>
    rcases hv : y.toModel.unpack with s' | _ | s' | ⟨s', m', e', h'⟩ <;> rw [hv] at hy
  case finite.finite =>
    change (UnpackedFloat.normalize _ _ _ _).isNaN = false
    unfold UnpackedFloat.normalize
    split
    · exact isNaN_roundWithAccuracy _ _ _ _ _
    · rfl
    · exact isNaN_roundWithAccuracy _ _ _ _ _
  case zero.zero => exact isNaN_ite rfl rfl
  all_goals first | rfl | (cases hx; done) | cases hy

end SnapBlocks.Decimal

namespace SnapBlocks.Point

open Decimal

variable {a b : Point} {r : Float}

theorem distanceTo_comm (a b : Point) : a.distanceTo b = b.distanceTo a := by
  unfold distanceTo
  rw [sub_mul_self_comm b.x, sub_mul_self_comm b.y]

/-- **Points that are closer than a radius are no further apart on each axis**, unless the radius is
so small that squares vanish. -/
theorem within_of_distanceTo (ha : a.Finite) (hb : b.Finite) (hr : 1e-150 ≤ r)
    (h : ¬ a.distanceTo b ≥ r) : a.within b r := by
  have hx := isNaN_sub ha.x hb.x
  have hy := isNaN_sub ha.y hb.y
  by_contra hfar
  apply h
  unfold within at hfar
  rw [Bool.and_eq_true, decide_eq_true_eq, decide_eq_true_eq, not_and_or] at hfar
  rcases hfar with hfar | hfar
  · exact (le_sqrt_add hr hx hy hfar).1
  · exact (le_sqrt_add hr hy hx hfar).2

end SnapBlocks.Point
