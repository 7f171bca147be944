import SnapBlocks.Decimal.Float
import SnapBlocks.Proofs.Rounding

/-! The bits of doubles. `Binary.ofBits` reads the significand and the exponent of a finite double
off its bits, and packing them again gives the bits back. -/

namespace SnapBlocks.Decimal

open Float.Model Float.Model.UnpackedFloat

variable {b : Binary} {x y : Float} {sign : Sign}

/-- The sign of a number that may be negative. -/
def signOf (negative : Bool) : Sign := if negative then .negative else .positive

/-! ## Fields -/

/-- The bits of a double, from its sign, its exponent field and its fraction. -/
def encode (sign : Sign) (field fraction : ℕ) : BitVec Format.binary64.numBits :=
  packComponents Format.binary64 sign (.ofNat _ field) (.ofNat _ fraction)

theorem toBitVec_ofBitVec (v : BitVec 1) : (Sign.ofBitVec v).toBitVec = v := by
  revert v
  decide

theorem ofBitVec_toBitVec (sign : Sign) : Sign.ofBitVec sign.toBitVec = sign := by
  cases sign <;> rfl

theorem toNat_toBitVec_negative : Sign.negative.toBitVec.toNat = 1 := rfl

theorem toNat_toBitVec_positive : Sign.positive.toBitVec.toNat = 0 := rfl

theorem unpackSign_packComponents (e : BitVec 11) (m : BitVec 52) :
    unpackSign (packComponents Format.binary64 sign e m) = sign.toBitVec := by
  unfold unpackSign packComponents BitVec.extractLsb
  ext i hi
  grind

/-- All bits belong to one of the three fields. -/
theorem exists_eq_encode (v : BitVec Format.binary64.numBits) :
    ∃ sign field fraction, field < 2 ^ 11 ∧ fraction < 2 ^ 52 ∧ v = encode sign field fraction := by
  refine ⟨Sign.ofBitVec (unpackSign v), (unpackExponent v).toNat, (unpackMantissa v).toNat,
    (unpackExponent v).isLt, (unpackMantissa v).isLt, ?_⟩
  unfold encode packComponents
  rw [toBitVec_ofBitVec, BitVec.ofNat_toNat, BitVec.ofNat_toNat, BitVec.setWidth_eq,
    BitVec.setWidth_eq]
  unfold unpackSign unpackExponent unpackMantissa BitVec.extractLsb
  ext i hi
  grind

/-- A normal double has one bit more than its fraction. -/
theorem toNat_one_append (m : BitVec 52) : (1#1 ++ m).toNat = m.toNat + 2 ^ 52 := by
  rw [BitVec.toNat_append, ← Nat.shiftLeft_add_eq_or_of_lt m.isLt, Nat.shiftLeft_eq, add_comm]
  rfl

/-- A double is told from its three fields. -/
theorem unpack_eq (v : BitVec Format.binary64.numBits) {e : BitVec 11} {m : BitVec 52}
    (hs : Sign.ofBitVec (unpackSign v) = sign) (he : unpackExponent v = e)
    (hm : unpackMantissa v = m) : UnpackedFloat.unpack Format.binary64 v =
      if e = -1#11 then if m = 0#52 then .infinity sign else .notANumber
      else if e = 0#11 then
        if h : m = 0#52 then .zero sign
        else .finite sign m.toNat (e.toNat - (Format.binary64.exponentBias + (52 : ℕ)) + 1)
          (Nat.pos_of_ne_zero fun hzero => h (BitVec.eq_of_toNat_eq hzero))
      else .finite sign (1#1 ++ m).toNat (e.toNat - (Format.binary64.exponentBias + (52 : ℕ)))
        (by rw [toNat_one_append]; omega) := by
  subst hs he hm
  rfl

theorem finite_congr {m m' : ℕ} {e e' : ℤ} {h : 0 < m} {h' : 0 < m'} (hm : m = m') (he : e = e') :
    UnpackedFloat.finite sign m e h = .finite sign m' e' h' := by
  subst hm he
  rfl

section
variable {field fraction : ℕ} (hfield : field < 2 ^ 11) (hfraction : fraction < 2 ^ 52)
include hfield hfraction

theorem toNat_encode : (encode sign field fraction).toNat =
    sign.toBitVec.toNat * 2 ^ 63 + field * 2 ^ 52 + fraction := by
  unfold encode packComponents
  rw [BitVec.toNat_append, BitVec.toNat_append,
    ← Nat.shiftLeft_add_eq_or_of_lt (BitVec.isLt _),
    ← Nat.shiftLeft_add_eq_or_of_lt (BitVec.isLt _), BitVec.toNat_ofNat, BitVec.toNat_ofNat,
    Nat.mod_eq_of_lt hfield, Nat.mod_eq_of_lt hfraction, Nat.shiftLeft_eq, Nat.shiftLeft_eq]
  ring

theorem ofBits_encode : Binary.ofBits (encode sign field fraction).toNat =
    if field = 0 then ⟨fraction, -1074⟩ else ⟨fraction + 2 ^ 52, field - 1075⟩ := by
  have hsign : sign.toBitVec.toNat < 2 := sign.toBitVec.isLt
  have hvalue : (encode sign field fraction).toNat =
      sign.toBitVec.toNat * 2 ^ 63 + field * 2 ^ 52 + fraction := toNat_encode hfield hfraction
  have hexponent : (encode sign field fraction).toNat / 2 ^ 52 % 2 ^ 11 = field := by omega
  have hrest : (encode sign field fraction).toNat % 2 ^ 52 = fraction := by omega
  unfold Binary.ofBits
  dsimp only
  rw [show Nat.pow 2 52 = 2 ^ 52 from rfl, show Nat.pow 2 11 = 2 ^ 11 from rfl, hexponent, hrest]

theorem signOf_encode :
    signOf (decide (2 ^ 63 ≤ (encode sign field fraction).toNat)) = sign := by
  rw [toNat_encode hfield hfraction]
  cases sign with
  | negative => exact if_pos (decide_eq_true (by rw [toNat_toBitVec_negative]; omega))
  | positive => exact if_neg (mt of_decide_eq_true (by rw [toNat_toBitVec_positive]; omega))

theorem unpack_encode : UnpackedFloat.unpack Format.binary64 (encode sign field fraction) =
    if field = 2047 then if fraction = 0 then .infinity sign else .notANumber
    else if _h : field = 0 then
      if h : fraction = 0 then .zero sign
      else .finite sign fraction (-1074) (Nat.pos_of_ne_zero h)
    else .finite sign (fraction + 2 ^ 52) (field - 1075) (by omega) := by
  have hf : (BitVec.ofNat 11 field).toNat = field := by
    rw [BitVec.toNat_ofNat, Nat.mod_eq_of_lt hfield]
  have hm : (BitVec.ofNat 52 fraction).toNat = fraction := by
    rw [BitVec.toNat_ofNat, Nat.mod_eq_of_lt hfraction]
  have hbias : ((Format.binary64.exponentBias : ℕ) : ℤ) + ((52 : ℕ) : ℤ) = 1075 := rfl
  have hfull : BitVec.ofNat 11 field = -1#11 ↔ field = 2047 := by
    rw [← BitVec.toNat_inj, hf]
    rfl
  have hzero : BitVec.ofNat 11 field = 0#11 ↔ field = 0 := by
    rw [← BitVec.toNat_inj, hf]
    rfl
  have hnone : BitVec.ofNat 52 fraction = 0#52 ↔ fraction = 0 := by
    rw [← BitVec.toNat_inj, hm]
    rfl
  have hnormal : (1#1 ++ BitVec.ofNat 52 fraction).toNat = fraction + 2 ^ 52 := by
    rw [toNat_one_append, hm]
  rw [unpack_eq (encode sign field fraction)
    ((congrArg Sign.ofBitVec (unpackSign_packComponents _ _)).trans (ofBitVec_toBitVec sign))
    unpackExponent_packComponents unpackMantissa_packComponents]
  by_cases h : field = 2047
  · rw [if_pos (hfull.mpr h), if_pos h]
    by_cases h' : fraction = 0
    · rw [if_pos (hnone.mpr h'), if_pos h']
    · rw [if_neg (mt hnone.mp h'), if_neg h']
  rw [if_neg (mt hfull.mp h), if_neg h]
  by_cases hz : field = 0
  · rw [if_pos (hzero.mpr hz), dif_pos hz]
    by_cases h' : fraction = 0
    · rw [dif_pos (hnone.mpr h'), dif_pos h']
    · rw [dif_neg (mt hnone.mp h'), dif_neg h']
      exact finite_congr hm (by rw [hf, hbias, hz]; rfl)
  · rw [if_neg (mt hzero.mp hz), dif_neg hz]
    exact finite_congr hnormal (by rw [hf, hbias])

end

/-! ## Finite doubles -/

/-- The exponent field of a positive double. -/
def Binary.exponentField (b : Binary) : ℕ :=
  if b.significand < 2 ^ 52 then 0 else (b.exponent + 1075).toNat

/-- The fraction of a positive double. -/
def Binary.fraction (b : Binary) : ℕ := b.significand % 2 ^ 52

theorem Binary.fraction_lt (b : Binary) : b.fraction < 2 ^ 52 := Nat.mod_lt _ (by norm_num)

namespace Binary.Canonical

variable (hb : b.Canonical)

/-- A positive double with a sign, as its parts. -/
def unpacked (sign : Sign) : UnpackedFloat :=
  .finite sign b.significand b.exponent hb.pos

include hb

theorem exponentField_lt : b.exponentField < 2047 := by
  have := hb.greatest
  unfold exponentField
  split <;> omega

theorem pack : UnpackedFloat.pack Format.binary64 (hb.unpacked sign) =
    encode sign b.exponentField b.fraction := by
  have := hb.least
  have := hb.greatest
  have := hb.lt
  have hnormal := hb.normal
  have hbits : Format.binary64.mantissaBits = 53 := rfl
  have hbias : b.exponent + (Format.binary64.exponentBias : ℕ) + ((52 : ℕ) : ℤ) =
      b.exponent + 1075 := add_assoc _ _ _
  have hlog : b.significand.log2 + 1 = 53 ↔ ¬ b.significand < 2 ^ 52 := by
    have hlow := Nat.log2_lt hb.pos.ne' (k := 52)
    have hhigh := (Nat.log2_lt hb.pos.ne' (k := 53)).mpr hb.lt
    omega
  have hfraction : BitVec.ofNat 52 b.significand = BitVec.ofNat 52 b.fraction := by
    apply BitVec.eq_of_toNat_eq
    rw [BitVec.toNat_ofNat, BitVec.toNat_ofNat, fraction, Nat.mod_mod]
  unfold UnpackedFloat.pack unpacked
  simp only [hbias, hbits, hlog]
  rw [if_neg (by omega), hfraction]
  unfold encode exponentField
  by_cases h : b.significand < 2 ^ 52
  · rw [if_neg (not_not.mpr h), if_pos h]
  · rw [if_pos h, if_neg h]

theorem unpack_pack : UnpackedFloat.unpack Format.binary64
    (UnpackedFloat.pack Format.binary64 (hb.unpacked sign)) = hb.unpacked sign := by
  have := hb.least
  have := hb.pos
  have := hb.lt
  have hnormal := hb.normal
  rw [hb.pack, unpack_encode (hb.exponentField_lt.trans (by norm_num)) b.fraction_lt,
    if_neg hb.exponentField_lt.ne]
  unfold unpacked
  by_cases h : b.significand < 2 ^ 52
  · have hfield : b.exponentField = 0 := if_pos h
    have hfraction : b.fraction = b.significand := Nat.mod_eq_of_lt h
    rw [dif_pos hfield, dif_neg (by omega)]
    congr 1
    omega
  · have hfield : b.exponentField = (b.exponent + 1075).toNat := if_neg h
    have hfraction : b.fraction + 2 ^ 52 = b.significand := by
      unfold fraction
      omega
    rw [dif_neg (by omega)]
    congr 1
    omega

omit hb

/-- A positive double with a sign. -/
def toFloat (sign : Sign) : Float := .ofModel (.pack (hb.unpacked sign))

include hb

theorem unpack_toFloat : (hb.toFloat sign).toModel.unpack = hb.unpacked sign := hb.unpack_pack

theorem neg_toFloat : -hb.toFloat .positive = hb.toFloat .negative := by
  have hneg : -hb.toFloat .positive = .ofModel (.pack (hb.toFloat .positive).toModel.unpack.neg) :=
    rfl
  rw [hneg, hb.unpack_toFloat]
  rfl

end Binary.Canonical

/-- The zeros. -/
def zero (sign : Sign) : Float := .ofModel (.pack (.zero sign))

theorem zero_eq : zero .positive = 0 := by decide +kernel

theorem neg_zero_eq : -(0 : Float) = zero .negative := by decide +kernel

/-- A finite double is a zero, or the double that its bits describe. -/
theorem eq_of_isFinite (hx : x.isFinite) :
    (Binary.ofBits x.toBits.toNat).significand = 0 ∧
        x = zero (signOf (decide (2 ^ 63 ≤ x.toBits.toNat))) ∨
      ∃ hb : (Binary.ofBits x.toBits.toNat).Canonical,
        x = hb.toFloat (signOf (decide (2 ^ 63 ≤ x.toBits.toNat))) := by
  obtain ⟨sign, field, fraction, hfield, hfraction, hbits⟩ := exists_eq_encode x.toBits.toBitVec
  have hnat : x.toBits.toNat = (encode sign field fraction).toNat := congrArg BitVec.toNat hbits
  have hext {u : UnpackedFloat}
      (h : encode sign field fraction = UnpackedFloat.pack Format.binary64 u) :
      x = .ofModel (.pack u) := by
    obtain ⟨⟨bits, hvalid⟩⟩ := x
    obtain rfl : bits = .ofBitVec (UnpackedFloat.pack Format.binary64 u) :=
      UInt64.toBitVec_inj.mp (hbits.trans h)
    rfl
  have hlt : field < 2047 := by
    by_contra hge
    have hunpack : x.toModel.unpack.isFinite := hx
    rw [Float.Model.unpack, show x.toModel.toBits.toBitVec = _ from hbits,
      unpack_encode hfield hfraction, if_pos (by omega)] at hunpack
    split at hunpack <;> cases hunpack
  rw [hnat, signOf_encode hfield hfraction, ofBits_encode hfield hfraction]
  by_cases hzero : field = 0
  · rw [if_pos hzero]
    by_cases hnone : fraction = 0
    · exact .inl ⟨hnone, hext (by rw [hzero, hnone]; rfl)⟩
    · have hb : Binary.Canonical ⟨fraction, -1074⟩ :=
        ⟨by dsimp only; omega, by dsimp only; omega, le_rfl, by norm_num, .inr rfl⟩
      refine .inr ⟨hb, hext ?_⟩
      rw [hb.pack, hzero, Binary.exponentField, if_pos hfraction, Binary.fraction,
        Nat.mod_eq_of_lt hfraction]
  · rw [if_neg hzero]
    have hb : Binary.Canonical ⟨fraction + 2 ^ 52, field - 1075⟩ :=
      ⟨by dsimp only; omega, by dsimp only; omega, by dsimp only; omega, by dsimp only; omega,
        .inl (Nat.le_add_left _ _)⟩
    refine .inr ⟨hb, hext ?_⟩
    rw [hb.pack, Binary.exponentField, if_neg (by dsimp only; omega), Binary.fraction,
      Nat.add_mod_right, Nat.mod_eq_of_lt hfraction, sub_add_cancel, Int.toNat_natCast]

/-! ## Decimal numbers -/

/-- The number that a positive double is. -/
def Binary.value (b : Binary) : ℚ := b.significand * 2 ^ b.exponent

theorem Binary.value_eq {n : ℕ}
    (h : b.significand * 2 ^ b.exponent.toNat = n * 2 ^ (-b.exponent).toNat) : b.value = n := by
  have hpos : (2 : ℚ) ^ (-b.exponent).toNat ≠ 0 := by positivity
  have hexponent : (b.exponent.toNat : ℤ) - (-b.exponent).toNat = b.exponent := by omega
  have hcast : (b.significand * 2 ^ b.exponent.toNat : ℚ) = n * 2 ^ (-b.exponent).toNat := by
    exact_mod_cast h
  rw [value, ← hexponent, zpow_sub₀ two_ne_zero, zpow_natCast, zpow_natCast, ← mul_div_assoc, hcast]
  exact mul_div_cancel_right₀ _ hpos

theorem Binary.around_value (b : Binary) : b.Around b.value := by
  have hpos : (0 : ℚ) < 2 ^ b.exponent := by positivity
  have hvalue : b.value / 2 ^ b.exponent = b.significand := mul_div_cancel_right₀ _ hpos.ne'
  have hbelow := b.below_pos
  unfold Around
  rw [hvalue]
  dsimp only
  split_ifs <;> constructor <;> linarith

/-- A double is a number with all the bits of a significand. -/
structure Exact (x : Float) (c : Binary) (v : ℚ) : Prop where
  canonical : c.Canonical
  eq : x = canonical.toFloat .positive
  value : c.value = v
  full : 2 ^ 52 ≤ c.significand

/-- Small integers are doubles. -/
theorem exists_exact_toFloat {n : ℕ} (hn : 0 < n) (hlt : n < 2 ^ 53) :
    ∃ c, Exact n.toUInt64.toFloat c n := by
  obtain ⟨k, hk⟩ : ∃ k : ℕ, n.log2 + k = 52 :=
    ⟨52 - n.log2, by have := (Nat.log2_lt hn.ne').mpr hlt; omega⟩
  have hlow : 2 ^ 52 ≤ n * 2 ^ k := by
    rw [← hk, pow_add]
    exact Nat.mul_le_mul_right _ (Nat.log2_self_le hn.ne')
  have hhigh : n * 2 ^ k < 2 ^ 53 := by
    rw [show 53 = n.log2 + 1 + k by omega, pow_add _ _ k]
    exact Nat.mul_lt_mul_of_pos_right Nat.lt_log2_self (Nat.two_pow_pos k)
  have hc : Binary.Canonical ⟨n * 2 ^ k, -k⟩ :=
    ⟨by dsimp only; omega, hhigh, by dsimp only; omega, by dsimp only; omega, .inl hlow⟩
  refine ⟨_, hc, ?_, ?_, hlow⟩
  · have htarget : Format.binary64.targetExponent (totalExponent n 0) = -k := by
      rw [targetExponent_eq, totalExponent_eq]
      omega
    have hnat : n.toUInt64.toNat = n := UInt64.toNat_ofNat_of_lt' (by
      change n < 2 ^ 64
      omega)
    have hround : UnpackedFloat.ofUInt64 Format.binary64 n.toUInt64 =
        UnpackedFloat.round Format.binary64 .positive n 0 := by
      unfold UnpackedFloat.ofUInt64 UnpackedFloat.ofNat UnpackedFloat.ofInt UnpackedFloat.normalize
      rw [hnat, show compare (n : ℤ) 0 = .gt from compare_gt_iff_gt.mpr (by omega)]
      rfl
    have hexact : UnpackedFloat.ofUInt64 Format.binary64 n.toUInt64 = hc.unpacked .positive := by
      rw [hround]
      have hshift : (0 - -(k : ℤ)).toNat = k := by omega
      unfold UnpackedFloat.round decreaseExponent
      dsimp only
      rw [htarget, hshift, Nat.shiftLeft_eq, zero_sub]
      exact hc.round (Binary.around_value _) (describes_exact _ _) (le_targetExponent hlow _) _
    change Float.ofModel (.pack (.ofUInt64 Format.binary64 n.toUInt64)) = _
    rw [hexact]
    rfl
  · unfold Binary.value
    push_cast
    rw [zpow_neg, zpow_natCast]
    field_simp

/-- The value of a double with a full significand is read off its bits. -/
theorem exact_of_bits {n : ℕ} (hx : x.isFinite) (hsign : x.toBits.toNat < 2 ^ 63)
    (hfull : 2 ^ 52 ≤ (Binary.ofBits x.toBits.toNat).significand)
    (hvalue : (Binary.ofBits x.toBits.toNat).significand *
        2 ^ (Binary.ofBits x.toBits.toNat).exponent.toNat =
      n * 2 ^ (-(Binary.ofBits x.toBits.toNat).exponent).toNat) :
    Exact x (Binary.ofBits x.toBits.toNat) n := by
  rcases eq_of_isFinite hx with ⟨hzero, -⟩ | ⟨hc, heq⟩
  · omega
  · have hpositive : signOf (decide (2 ^ 63 ≤ x.toBits.toNat)) = .positive :=
      if_neg (mt of_decide_eq_true (not_le.mpr hsign))
    exact ⟨hc, heq.trans (congrArg hc.toFloat hpositive), Binary.value_eq hvalue, hfull⟩

/-- Small powers of ten are doubles, too. -/
theorem exists_exact_powerOfTen {i : ℕ} (hi : i < Float.exactlyRepresentablePowersOfTen.size) :
    ∃ c, Exact Float.exactlyRepresentablePowersOfTen[i] c (10 ^ i) := by
  have hall : ∀ i : Fin 23, ∀ x, Float.exactlyRepresentablePowersOfTen[i] = x →
      x.isFinite ∧ x.toBits.toNat < 2 ^ 63 ∧
        2 ^ 52 ≤ (Binary.ofBits x.toBits.toNat).significand ∧
        (Binary.ofBits x.toBits.toNat).significand *
            2 ^ (Binary.ofBits x.toBits.toNat).exponent.toNat =
          10 ^ i.1 * 2 ^ (-(Binary.ofBits x.toBits.toNat).exponent).toNat := by
    simp only [forall_eq']
    decide +kernel
  obtain ⟨hfinite, hsign, hfull, hvalue⟩ := hall ⟨i, hi⟩ _ rfl
  exact ⟨_, by exact_mod_cast exact_of_bits hfinite hsign hfull hvalue⟩

namespace Exact

variable {b c d : Binary} {x y : Float} {u v : ℚ} (hx : Exact x c u) (hy : Exact y d v)
include hx hy

theorem mul (hb : b.Canonical) (h : b.Around (u * v)) : x * y = hb.toFloat .positive := by
  have hmul : x * y = .ofModel (.pack (.mul Format.binary64 x.toModel.unpack y.toModel.unpack)) :=
    rfl
  rw [← hx.value, ← hy.value] at h
  have hbits : 2 ^ 52 ≤ c.significand * d.significand :=
    hx.full.trans (Nat.le_mul_of_pos_right _ hy.canonical.pos)
  rw [hmul, hx.eq, hy.eq, Binary.Canonical.unpack_toFloat, Binary.Canonical.unpack_toFloat,
    Binary.Canonical.unpacked, Binary.Canonical.unpacked, hb.mul _ _ h hbits]
  rfl

theorem div (hb : b.Canonical) (h : b.Around (u / v)) : x / y = hb.toFloat .positive := by
  have hdiv : x / y = .ofModel (.pack (.div Format.binary64 x.toModel.unpack y.toModel.unpack)) :=
    rfl
  rw [← hx.value, ← hy.value] at h
  rw [hdiv, hx.eq, hy.eq, Binary.Canonical.unpack_toFloat, Binary.Canonical.unpack_toFloat,
    Binary.Canonical.unpacked, Binary.Canonical.unpacked, hb.div _ _ h]
  rfl

end Exact

/-- **The nearest double to a decimal number is the one in whose cell it lies.** -/
theorem Binary.Canonical.ofScientific_eq (hb : b.Canonical) {n : ℕ} {e : ℤ}
    (hx : b.Around (n * 10 ^ e)) (hn : 0 < n) (hhigh : e ≤ 2048)
    (hlow : -(2048 + (n.log2 : ℤ)) ≤ e) :
    Float.ofScientific n (e < 0) e.natAbs = hb.toFloat .positive := by
  unfold Float.ofScientific
  split
  next hsmall =>
    obtain ⟨c, hc⟩ := exists_exact_toFloat hn hsmall.1
    obtain ⟨d, hd⟩ := exists_exact_powerOfTen (Nat.lt_succ_of_le hsmall.2)
    dsimp only
    by_cases he : e < 0
    · rw [if_pos (decide_eq_true he)]
      refine hc.div hd hb ?_
      rwa [div_eq_mul_inv, ← zpow_natCast, ← zpow_neg, Int.ofNat_natAbs_of_nonpos he.le, neg_neg]
    · rw [if_neg (by simpa using he)]
      refine hc.mul hd hb ?_
      rwa [← zpow_natCast, Int.natAbs_of_nonneg (by omega)]
  next =>
    have he : (if decide (e < 0) then Int.negOfNat e.natAbs else Int.ofNat e.natAbs) = e := by
      by_cases h : e < 0
      · rw [if_pos (decide_eq_true h), Int.negOfNat_eq]
        exact (neg_eq_iff_eq_neg.mpr (Int.ofNat_natAbs_of_nonpos h.le))
      · rw [if_neg (by simpa using h)]
        exact Int.natAbs_of_nonneg (by omega)
    dsimp only
    rw [he]
    change Float.ofModel (.pack (.ofScientific Format.binary64 n e)) = _
    rw [hb.ofScientific hx hn hhigh hlow]
    rfl

end SnapBlocks.Decimal
