import SnapBlocks.Proofs.Digits
import SnapBlocks.Proofs.Doubles

/-! Integers as doubles. An integer stands for the nearest double, and of two that are equally near
for the one with an even significand. Rounding keeps the order, but may make two integers one; no
integer of at most fifty-three bits is moved. -/

namespace SnapBlocks.Decimal

open Doubles Float.Model Float.Model.UnpackedFloat

variable {m n k s : ℕ}

/-! ## Rounding -/

/-- The distance between doubles as large as a number. -/
def gap (n : ℕ) : ℕ := 2 ^ (n.log2 - 52)

/-- The nearest double to a natural number. -/
def roundNat (n : ℕ) : ℕ :=
  if 2 * (n % gap n) < gap n ∨ 2 * (n % gap n) = gap n ∧ n / gap n % 2 = 0 then n / gap n * gap n
  else (n / gap n + 1) * gap n

/-- The nearest double to an integer. -/
def nearestDouble : ℤ → ℤ
  | .ofNat n => roundNat n
  | .negSucc n => -roundNat (n + 1)

theorem gap_pos (n : ℕ) : 0 < gap n := Nat.two_pow_pos _

theorem div_gap_lt (n : ℕ) : n / gap n < 2 ^ 53 := by
  rw [Nat.div_lt_iff_lt_mul (gap_pos n), gap, ← pow_add]
  exact Nat.lt_log2_self.trans_le (Nat.pow_le_pow_right two_pos (by omega))

theorem le_div_gap (hn : n ≠ 0) (hlog : 52 ≤ n.log2) : 2 ^ 52 ≤ n / gap n := by
  rw [Nat.le_div_iff_mul_le (gap_pos n), gap, ← pow_add, Nat.add_sub_cancel' hlog]
  exact Nat.log2_self_le hn

theorem roundNat_of_lt (hn : n < 2 ^ 53) : roundNat n = n := by
  have hgap : gap n = 1 := by
    have hlog : n.log2 ≤ 52 := by
      by_cases hzero : n = 0
      · rw [hzero, Nat.log2_zero]
        omega
      · have := (Nat.log2_lt hzero).mpr hn
        omega
    rw [gap, Nat.sub_eq_zero_of_le hlog, pow_zero]
  unfold roundNat
  rw [hgap, Nat.mod_one, Nat.div_one, mul_one, if_pos (.inl (by norm_num))]

theorem div_gap_mul_le (n : ℕ) : n / gap n * gap n ≤ roundNat n := by
  unfold roundNat
  split
  · exact le_rfl
  · exact Nat.mul_le_mul_right _ (Nat.le_succ _)

/-- Rounding does not pass a multiple of the gap. -/
theorem le_roundNat (hdvd : gap n ∣ k) (h : k ≤ n) : k ≤ roundNat n := by
  obtain ⟨c, rfl⟩ := hdvd
  have hc : c ≤ n / gap n := (Nat.le_div_iff_mul_le (gap_pos n)).mpr (mul_comm c _ ▸ h)
  calc gap n * c ≤ n / gap n * gap n := mul_comm c _ ▸ Nat.mul_le_mul_right _ hc
    _ ≤ roundNat n := div_gap_mul_le n

theorem roundNat_le (hdvd : gap n ∣ k) (h : n ≤ k) : roundNat n ≤ k := by
  obtain ⟨c, rfl⟩ := hdvd
  have hmod := Nat.div_add_mod n (gap n)
  have hpos := gap_pos n
  rcases h.eq_or_lt with heq | hlt
  · have hzero : n % gap n = 0 := Nat.mod_eq_zero_of_dvd ⟨c, heq⟩
    rw [roundNat, hzero, if_pos (.inl hpos), mul_comm, ← heq]
    omega
  · have hc : n / gap n < c := (Nat.div_lt_iff_lt_mul hpos).mpr (mul_comm c _ ▸ hlt)
    have hstep : (n / gap n + 1) * gap n ≤ gap n * c := mul_comm c _ ▸ Nat.mul_le_mul_right _ hc
    unfold roundNat
    split
    · exact (Nat.mul_le_mul_right _ (Nat.le_succ _)).trans hstep
    · exact hstep

/-- Rounding keeps the order. -/
theorem roundNat_mono (h : m ≤ n) : roundNat m ≤ roundNat n := by
  rcases Nat.eq_zero_or_pos m with rfl | hm
  · exact Nat.zero_le _
  have hlog : m.log2 ≤ n.log2 := (Nat.le_log2 (by omega)).mpr ((Nat.log2_self_le hm.ne').trans h)
  have hbetween {k : ℕ} (hdvd : gap m ∣ k ∧ gap n ∣ k) (hk : m ≤ k ∧ k ≤ n) :
      roundNat m ≤ roundNat n := (roundNat_le hdvd.1 hk.1).trans (le_roundNat hdvd.2 hk.2)
  rcases hlog.eq_or_lt with heq | hlt
  · have hgap : gap n = gap m := by rw [gap, gap, heq]
    have hpos := gap_pos m
    have hdivm := Nat.div_add_mod' m (gap m)
    have hdivn := Nat.div_add_mod' n (gap m)
    have hmod := Nat.mod_lt m hpos
    rcases (Nat.div_le_div_right h : m / gap m ≤ n / gap m).eq_or_lt with hq | hq
    · -- between the same two doubles the greater one is not rounded down alone
      have hle : m % gap m ≤ n % gap m := by
        rw [← hq] at hdivn
        omega
      unfold roundNat
      rw [hgap, ← hq]
      split_ifs with hdown hdown' hdown'
      · exact le_rfl
      · exact Nat.mul_le_mul_right _ (Nat.le_succ _)
      · omega
      · exact le_rfl
    · have hle : (m / gap m + 1) * gap m ≤ n / gap m * gap m := Nat.mul_le_mul_right _ hq
      refine hbetween (k := (m / gap m + 1) * gap m) ⟨?_, ?_⟩ ⟨?_, ?_⟩
      · exact Nat.dvd_mul_left _ _
      · exact hgap ▸ Nat.dvd_mul_left _ _
      · rw [Nat.add_mul]
        omega
      · omega
  · refine hbetween (k := 2 ^ n.log2) ⟨?_, ?_⟩ ⟨?_, ?_⟩
    · exact Nat.pow_dvd_pow 2 (by omega)
    · exact Nat.pow_dvd_pow 2 (by omega)
    · exact ((Nat.log2_lt hm.ne').mp hlt).le
    · exact Nat.log2_self_le (by omega)

/-- A natural number that is a double. -/
def IsDouble (k : ℕ) : Prop := ∃ s e, s < 2 ^ 53 ∧ k = s * 2 ^ e

/-- No double lies between the two that rounding chooses from. One that is no multiple of the gap
is too small. -/
theorem IsDouble.le_or_ge (hk : IsDouble k) (n : ℕ) :
    k ≤ n / gap n * gap n ∨ (n / gap n + 1) * gap n ≤ k := by
  obtain ⟨s, e, hs, rfl⟩ := hk
  rcases le_or_gt (n.log2 - 52) e with he | he
  · obtain ⟨c, hc⟩ : gap n ∣ s * 2 ^ e := Dvd.dvd.mul_left (Nat.pow_dvd_pow 2 he) s
    rw [hc, mul_comm (gap n)]
    rcases Nat.lt_or_ge (n / gap n) c with h | h
    · exact .inr (Nat.mul_le_mul_right _ h)
    · exact .inl (Nat.mul_le_mul_right _ h)
  · left
    have hn : n ≠ 0 := by
      intro hzero
      rw [hzero, Nat.log2_zero] at he
      exact Nat.not_lt_zero _ he
    have hfull := le_div_gap hn (by omega)
    calc s * 2 ^ e ≤ 2 ^ 53 * 2 ^ e := Nat.mul_le_mul_right _ hs.le
      _ = 2 ^ 52 * 2 ^ (e + 1) := by ring
      _ ≤ 2 ^ 52 * gap n := Nat.mul_le_mul_left _ (Nat.pow_le_pow_right two_pos he)
      _ ≤ n / gap n * gap n := Nat.mul_le_mul_right _ hfull

/-- No double is nearer than that to which a number is rounded. -/
theorem roundNat_nearest (n : ℕ) (hk : IsDouble k) :
    ((roundNat n : ℤ) - n).natAbs ≤ ((k : ℤ) - n).natAbs := by
  have hmod := Nat.div_add_mod' n (gap n)
  have hlt := Nat.mod_lt n (gap_pos n)
  have hk := hk.le_or_ge n
  unfold roundNat
  rw [Nat.add_mul, Nat.one_mul] at hk ⊢
  split_ifs <;> omega

theorem isDouble_roundNat (n : ℕ) : IsDouble (roundNat n) := by
  have hlt := div_gap_lt n
  unfold roundNat
  split_ifs
  · exact ⟨_, _, hlt, rfl⟩
  · rcases (Nat.succ_le_of_lt hlt).lt_or_eq with h | h
    · exact ⟨_, _, h, rfl⟩
    · -- the significand overflows
      refine ⟨2 ^ 52, n.log2 - 52 + 1, by norm_num, ?_⟩
      rw [show n / gap n + 1 = 2 ^ 53 from h, gap]
      ring

theorem roundNat_of_le (hn : n ≤ 2 ^ 53) : roundNat n = n := by
  rcases hn.lt_or_eq with h | rfl
  · exact roundNat_of_lt h
  · decide +kernel

theorem nearestDouble_mono {m n : ℤ} (h : m ≤ n) : nearestDouble m ≤ nearestDouble n := by
  rcases m with m | m <;> rcases n with n | n
  · exact Int.ofNat_le.mpr (roundNat_mono (Int.ofNat_le.mp h))
  · exact absurd (h.trans_lt (Int.negSucc_lt_zero n)) (not_lt.mpr (Int.natCast_nonneg m))
  · exact (neg_nonpos.mpr (Int.natCast_nonneg _)).trans (Int.natCast_nonneg _)
  · exact neg_le_neg (Int.ofNat_le.mpr (roundNat_mono (by omega)))

theorem nearestDouble_of_natAbs_le {n : ℤ} (hn : n.natAbs ≤ 2 ^ 53) : nearestDouble n = n := by
  rcases n with n | n
  · exact congrArg _ (roundNat_of_le hn)
  · exact congrArg (fun k : ℕ => -(k : ℤ)) (roundNat_of_le hn)

/-- `k` is a double, and no double is nearer to `n`. -/
structure IsNearest (n k : ℤ) : Prop where
  isDouble : IsDouble k.natAbs
  nearest : ∀ l : ℤ, IsDouble l.natAbs → (k - n).natAbs ≤ (l - n).natAbs

theorem isNearest_nearestDouble (n : ℤ) : IsNearest n (nearestDouble n) := by
  rcases n with n | n
  · have hround : nearestDouble (.ofNat n) = roundNat n := rfl
    rw [hround]
    refine ⟨isDouble_roundNat n, fun l hl => ?_⟩
    have := roundNat_nearest n hl
    rw [Int.ofNat_eq_natCast]
    omega
  · have hround : nearestDouble (.negSucc n) = -roundNat (n + 1) := rfl
    rw [hround]
    refine ⟨by rw [Int.natAbs_neg]; exact isDouble_roundNat (n + 1), fun l hl => ?_⟩
    have := roundNat_nearest (n + 1) hl
    omega

/-- What rounding leaves out, in units of the last place. -/
def remainder (n : ℕ) : ℚ := (n % gap n : ℕ) / gap n

theorem cast_gap_pos (n : ℕ) : (0 : ℚ) < gap n := by exact_mod_cast gap_pos n

theorem div_gap_eq (n : ℕ) : (n : ℚ) / gap n = (n / gap n : ℕ) + remainder n := by
  have hpos := cast_gap_pos n
  have hmod : (n : ℚ) = gap n * (n / gap n : ℕ) + (n % gap n : ℕ) := by
    exact_mod_cast (Nat.div_add_mod n (gap n)).symm
  unfold remainder
  field_simp
  linarith

theorem remainder_bounds (n : ℕ) : 0 ≤ remainder n ∧ remainder n < 1 := by
  have hpos := cast_gap_pos n
  refine ⟨div_nonneg (Nat.cast_nonneg _) hpos.le, ?_⟩
  rw [remainder, div_lt_iff₀ hpos, one_mul]
  exact_mod_cast Nat.mod_lt n (gap_pos n)

/-- Rounding goes down to an even significand, or to the nearer one. -/
theorem roundNat_eq (n : ℕ) : roundNat n =
    if remainder n < 1 / 2 ∨ remainder n = 1 / 2 ∧ n / gap n % 2 = 0 then n / gap n * gap n
    else (n / gap n + 1) * gap n := by
  have hpos := cast_gap_pos n
  have hlt : remainder n < 1 / 2 ↔ 2 * (n % gap n) < gap n := by
    rw [remainder, div_lt_iff₀ hpos, one_div_mul_eq_div, lt_div_iff₀ two_pos, mul_comm]
    exact_mod_cast Iff.rfl
  have heq : remainder n = 1 / 2 ↔ 2 * (n % gap n) = gap n := by
    rw [remainder, div_eq_iff hpos.ne', one_div_mul_eq_div, eq_div_iff two_ne_zero, mul_comm]
    exact_mod_cast Iff.rfl
  simp only [roundNat, hlt, heq]

theorem canonical_of_full {q i : ℕ} (hlow : 2 ^ 52 ≤ q) (hhigh : q < 2 ^ 53) (hi : i ≤ 12) :
    Binary.Canonical ⟨q, i⟩ :=
  ⟨by dsimp only; omega, hhigh, by dsimp only; omega, by dsimp only; omega, .inl hlow⟩

section
variable {q i : ℕ} {x f : ℚ} (hx : x / 2 ^ (i : ℤ) = q + f)
include hx

theorem around_down (hf : 0 ≤ f) (hdown : f < 1 / 2 ∨ f = 1 / 2 ∧ q % 2 = 0) :
    Binary.Around ⟨q, i⟩ x := by
  have hbelow := (Binary.mk q i).below_pos
  unfold Binary.Around
  dsimp only
  rw [hx]
  split_ifs with heven
  · rcases hdown with h | h <;> constructor <;> linarith
  · have hlt : f < 1 / 2 := hdown.resolve_right fun h => heven h.2
    constructor <;> linarith

theorem around_up (hlow : 2 ^ 52 ≤ q) (hf : f < 1)
    (hup : ¬(f < 1 / 2 ∨ f = 1 / 2 ∧ q % 2 = 0)) : Binary.Around ⟨q + 1, i⟩ x := by
  have hhalf : 1 / 2 ≤ f := not_lt.mp fun h => hup (.inl h)
  have hbelow : (Binary.mk (q + 1) i).below = 1 / 2 := if_neg (by dsimp only; omega)
  unfold Binary.Around
  dsimp only
  rw [hx, hbelow]
  push_cast
  split_ifs with heven
  · constructor <;> linarith
  · have hlt : 1 / 2 < f := lt_of_le_of_ne hhalf fun h => hup (.inr ⟨h.symm, by omega⟩)
    constructor <;> linarith

/-- When the significand overflows, the double is a power of two. -/
theorem around_overflow (hq : q + 1 = 2 ^ 53) (hf : f < 1) (hhalf : 1 / 2 ≤ f) :
    Binary.Around ⟨2 ^ 52, (i + 1 : ℕ)⟩ x := by
  have hbelow : (Binary.mk (2 ^ 52) (i + 1 : ℕ)).below = 1 / 4 :=
    if_pos ⟨rfl, by dsimp only; omega⟩
  have hexponent : (2 : ℚ) ^ ((i + 1 : ℕ) : ℤ) = 2 ^ (i : ℤ) * 2 := by
    rw [zpow_natCast, zpow_natCast, pow_succ]
  obtain rfl : q = 2 ^ 53 - 1 := by omega
  unfold Binary.Around
  dsimp only
  rw [hexponent, ← div_div, hx, hbelow, if_pos (by norm_num)]
  push_cast
  constructor <;> linarith

end

/-- An integer lies in the cell of the double that is nearest to it. -/
theorem exists_around (hn : 0 < n) (hlt : n < 2 ^ 64) :
    ∃ b : Binary, b.Canonical ∧ b.value = roundNat n ∧ b.Around n := by
  rcases lt_or_ge n (2 ^ 53) with hsmall | hlarge
  · obtain ⟨b, hb⟩ := exists_exact_toFloat hn hsmall
    exact ⟨b, hb.canonical, by rw [hb.value, roundNat_of_lt hsmall], hb.value ▸ b.around_value⟩
  obtain ⟨i, hi, hilt⟩ : ∃ i, n.log2 - 52 = i ∧ i < 12 :=
    ⟨_, rfl, by have := (Nat.log2_lt (by omega)).mpr hlt; omega⟩
  have hgap : (gap n : ℚ) = 2 ^ (i : ℤ) := by
    rw [gap, hi, zpow_natCast, Nat.cast_pow, Nat.cast_ofNat]
  have hlow := le_div_gap (n := n) (by omega) ((Nat.le_log2 (by omega)).mpr (by omega))
  have hhigh := div_gap_lt n
  have hx := hgap ▸ div_gap_eq n
  obtain ⟨hf0, hf1⟩ := remainder_bounds n
  rw [roundNat_eq]
  generalize n / gap n = q at *
  split_ifs with hdown
  · refine ⟨⟨q, i⟩, canonical_of_full hlow hhigh hilt.le, ?_, around_down hx hf0 hdown⟩
    rw [Binary.value, Nat.cast_mul, hgap]
  · rcases (Nat.succ_le_of_lt hhigh).lt_or_eq with hfits | hover
    · refine ⟨⟨q + 1, i⟩, canonical_of_full (by omega) hfits hilt.le, ?_,
        around_up hx hlow hf1 hdown⟩
      rw [Binary.value, Nat.cast_mul, hgap]
    · refine ⟨⟨2 ^ 52, (i + 1 : ℕ)⟩, canonical_of_full le_rfl (by norm_num) hilt, ?_,
        around_overflow hx hover hf1 (not_lt.mp fun h => hdown (.inl h))⟩
      rw [Binary.value, Nat.cast_mul, hgap, show q + 1 = 2 ^ 53 from hover, zpow_natCast,
        zpow_natCast, pow_succ]
      push_cast
      ring

/-! ## Doubles and their values -/

/-- A finite double, and the number that it is. -/
inductive Denotes : Float → ℚ → Prop where
  | zero : Denotes 0 0
  | positive {b : Binary} (hb : b.Canonical) : Denotes (hb.toFloat .positive) b.value
  | negative {b : Binary} (hb : b.Canonical) : Denotes (hb.toFloat .negative) (-b.value)

variable {b c : Binary} {x y : Float} {v w : ℚ}

theorem place_zero : place 0 = toLex (0, toLex (0, 0)) := by
  rw [← zero_eq]
  rfl

theorem Binary.Canonical.place_positive (hb : b.Canonical) :
    place (hb.toFloat .positive) = toLex (1, toLex (b.exponent, (b.significand : ℤ))) := by
  rw [place, hb.unpack_toFloat]
  rfl

theorem Binary.Canonical.place_negative (hb : b.Canonical) :
    place (hb.toFloat .negative) = toLex (-1, toLex (-b.exponent, -(b.significand : ℤ))) := by
  rw [place, hb.unpack_toFloat]
  rfl

/-- Of two positive doubles the one with the greater exponent is greater, whatever the
significands. -/
theorem Binary.Canonical.value_lt (hb : b.Canonical) (hc : c.Canonical)
    (h : b.exponent < c.exponent ∨ b.exponent = c.exponent ∧ b.significand < c.significand) :
    b.value < c.value := by
  unfold Binary.value
  rcases h with h | ⟨heq, h⟩
  · have hleast := hb.least
    have hlow : (2 : ℚ) ^ 52 ≤ c.significand := by
      exact_mod_cast hc.normal.resolve_right (by omega)
    have hhigh : (b.significand : ℚ) < 2 ^ 53 := by exact_mod_cast hb.lt
    calc (b.significand : ℚ) * 2 ^ b.exponent < 2 ^ 53 * 2 ^ b.exponent := by gcongr
      _ = 2 ^ 52 * 2 ^ (b.exponent + 1) := by rw [zpow_add_one₀ two_ne_zero]; ring
      _ ≤ c.significand * 2 ^ c.exponent := by gcongr; exacts [one_le_two, h]
  · rw [heq]
    gcongr

theorem Denotes.lt (hx : Denotes x v) (hy : Denotes y w) (h : place x < place y) : v < w := by
  cases hx <;> cases hy <;>
    simp only [place_zero, Binary.Canonical.place_positive, Binary.Canonical.place_negative,
      Prod.Lex.toLex_lt_toLex] at h
  case zero.positive hb => exact hb.value_pos
  case negative.zero hb => exact neg_neg_iff_pos.mpr hb.value_pos
  case negative.positive hb _ hc => exact (neg_neg_iff_pos.mpr hb.value_pos).trans hc.value_pos
  case positive.positive hb _ hc => exact hb.value_lt hc (by omega)
  case negative.negative hb _ hc => exact neg_lt_neg (hc.value_lt hb (by omega))
  all_goals omega

theorem Denotes.eq (hx : Denotes x v) (hy : Denotes y w) (h : place x = place y) : v = w := by
  cases hx <;> cases hy <;>
    simp only [place_zero, Binary.Canonical.place_positive, Binary.Canonical.place_negative,
      EmbeddingLike.apply_eq_iff_eq, Prod.mk.injEq, Nat.cast_inj, neg_inj] at h
  case zero.zero => rfl
  case positive.positive => rw [Binary.value, Binary.value, h.2.1, h.2.2]
  case negative.negative => rw [Binary.value, Binary.value, h.2.1, h.2.2]
  all_goals omega

/-- Doubles compare as the numbers that they are. -/
theorem Denotes.compare_eq (hx : Denotes x v) (hy : Denotes y w) :
    compare (place x) (place y) = compare v w := by
  rcases lt_trichotomy (place x) (place y) with h | h | h
  · rw [compare_lt_iff_lt.mpr h, compare_lt_iff_lt.mpr (hx.lt hy h)]
  · rw [compare_eq_iff_eq.mpr h, compare_eq_iff_eq.mpr (hx.eq hy h)]
  · rw [compare_gt_iff_gt.mpr h, compare_gt_iff_gt.mpr (hy.lt hx h)]

theorem denotes_ofNat (hn : n < 2 ^ 64) : Denotes (Float.ofNat n) (roundNat n) := by
  rcases Nat.eq_zero_or_pos n with rfl | hpos
  · have hzero : Float.ofNat 0 = 0 := by decide +kernel
    rw [hzero, roundNat_of_le (Nat.zero_le _), Nat.cast_zero]
    exact .zero
  · obtain ⟨b, hb, hvalue, haround⟩ := exists_around hpos hn
    have hfloat : Float.ofNat n = hb.toFloat .positive := by
      refine hb.ofScientific_eq (e := 0) ?_ hpos (by norm_num) ?_
      · rwa [zpow_zero, mul_one]
      · omega
    rw [hfloat, ← hvalue]
    exact .positive hb

theorem Denotes.neg (hx : Denotes x v) (hv : 0 < v) : Denotes (-x) (-v) := by
  cases hx with
  | zero => exact absurd hv (lt_irrefl 0)
  | positive hb =>
    rw [hb.neg_toFloat]
    exact .negative hb
  | negative hb => exact absurd hv (neg_neg_iff_pos.mpr hb.value_pos).not_gt

/-- An integer stands for the nearest double. -/
theorem denotes_ofInt {n : ℤ} (hn : n.natAbs < 2 ^ 64) :
    Denotes (Float.ofInt n) (nearestDouble n) := by
  rcases n with n | n
  · exact denotes_ofNat hn
  · have hround : 0 < roundNat (n + 1) := by
      calc 0 < roundNat 1 := by decide +kernel
        _ ≤ roundNat (n + 1) := roundNat_mono (Nat.succ_le_succ (Nat.zero_le n))
    have hneg := (denotes_ofNat hn).neg (by exact_mod_cast hround)
    have hcast : ((nearestDouble (.negSucc n) : ℤ) : ℚ) = -(roundNat (n + 1) : ℚ) := by
      rw [nearestDouble, Int.cast_neg, Int.cast_natCast]
    rw [hcast]
    exact hneg

/-- Integers compare as the doubles nearest to them. -/
theorem compare_ofInt {m n : ℤ} (hm : m.natAbs < 2 ^ 64) (hn : n.natAbs < 2 ^ 64) :
    compare (place (Float.ofInt m)) (place (Float.ofInt n)) =
      compare (nearestDouble m) (nearestDouble n) := by
  rw [(denotes_ofInt hm).compare_eq (denotes_ofInt hn), ← cmp_eq_compare, ← cmp_eq_compare]
  exact Int.cast_strictMono.cmp_map_eq _ _

end SnapBlocks.Decimal
