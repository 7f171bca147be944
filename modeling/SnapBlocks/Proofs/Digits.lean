import SnapBlocks.Proofs.Packing

/-! The digits of a double. One of the first seventeen decimal grids has a point in the cell of a
double, so the search for the fewest digits ends there, and the nearest double to what it finds is
the one it started from. -/

namespace SnapBlocks.Decimal

open Float.Model Float.Model.UnpackedFloat

variable {b : Binary} {c : Cell} {d n k : ℕ} {e grid top : ℤ}

/-! ## Cells -/

/-- A power of an integer exponent as a quotient of natural powers. -/
theorem zpow_eq_div {a : ℚ} (ha : a ≠ 0) (e : ℤ) : a ^ e = a ^ e.toNat / a ^ (-e).toNat := by
  rw [← zpow_natCast, ← zpow_natCast, ← zpow_sub₀ ha]
  congr 1
  omega

section
variable (b : Binary) (grid : ℤ) (d k : ℕ)

theorem onGrid_unit_pos : (0 : ℚ) < (b.cell.onGrid grid).unit := by
  exact_mod_cast Nat.mul_pos (Nat.pow_pos (by norm_num)) (Nat.pow_pos (by norm_num))

/-- A quarter of the distance of doubles, measured on a grid. -/
theorem cast_onGrid :
    ((k * Nat.pow 2 (b.exponent - 2).toNat * Nat.pow 10 (-grid).toNat : ℕ) : ℚ) =
      k / 4 * 2 ^ b.exponent / 10 ^ grid * (b.cell.onGrid grid).unit := by
  have hquarter : (k : ℚ) / 4 * 2 ^ b.exponent = k * 2 ^ (b.exponent - 2) := by
    rw [zpow_sub₀ two_ne_zero]
    ring
  have hunit : (b.cell.onGrid grid).unit =
      Nat.pow 2 (-(b.exponent - 2)).toNat * Nat.pow 10 grid.toNat := rfl
  rw [hquarter, hunit, zpow_eq_div two_ne_zero, zpow_eq_div (by norm_num : (10 : ℚ) ≠ 0)]
  simp only [Nat.pow_eq]
  push_cast
  field_simp

theorem le_onGrid : k * Nat.pow 2 (b.exponent - 2).toNat * Nat.pow 10 (-grid).toNat ≤
    d * (b.cell.onGrid grid).unit ↔ k / 4 * 2 ^ b.exponent ≤ (d * 10 ^ grid : ℚ) := by
  have hgrid : (0 : ℚ) < 10 ^ grid := by positivity
  rw [← Nat.cast_le (α := ℚ), cast_onGrid, Nat.cast_mul d, ← div_le_iff₀ hgrid]
  exact mul_le_mul_iff_left₀ (onGrid_unit_pos b grid)

theorem onGrid_le : d * (b.cell.onGrid grid).unit ≤
    k * Nat.pow 2 (b.exponent - 2).toNat * Nat.pow 10 (-grid).toNat ↔
      (d * 10 ^ grid : ℚ) ≤ k / 4 * 2 ^ b.exponent := by
  have hgrid : (0 : ℚ) < 10 ^ grid := by positivity
  rw [← Nat.cast_le (α := ℚ), cast_onGrid, Nat.cast_mul d, ← le_div_iff₀ hgrid]
  exact mul_le_mul_iff_left₀ (onGrid_unit_pos b grid)

end

theorem Binary.quarters_eq (b : Binary) :
    ((4 * b.significand : ℕ) : ℚ) / 4 * 2 ^ b.exponent = b.value := by
  rw [value]
  push_cast
  ring

theorem Binary.cast_cell_value (b : Binary) : (b.cell.value : ℚ) = b.value * b.cell.unit := by
  have hgrid := cast_onGrid b 0 (4 * b.significand)
  rw [quarters_eq] at hgrid
  simpa [Cell.onGrid, cell] using hgrid

/-- A cell on a grid holds the points of the grid that lie in the cell. -/
theorem Binary.Canonical.holds_onGrid (hb : b.Canonical) :
    (b.cell.onGrid grid).holds d ↔ b.Around (d * 10 ^ grid) := by
  have hpow : (0 : ℚ) < 2 ^ b.exponent := by positivity
  obtain ⟨below, hbelow⟩ : ∃ below : ℕ,
      (if b.significand = 2 ^ 52 ∧ -1074 < b.exponent then 1 else 2) = below := ⟨_, rfl⟩
  have hle : below ≤ 4 * b.significand := by
    have := hb.pos
    split at hbelow <;> omega
  have hlow : (b.significand - b.below : ℚ) = (4 * b.significand - below : ℕ) / 4 := by
    rw [← hbelow] at hle ⊢
    rw [Nat.cast_sub hle, Binary.below]
    split_ifs <;> push_cast <;> ring
  have hhigh : (b.significand + 1 / 2 : ℚ) = (4 * b.significand + 2 : ℕ) / 4 := by
    push_cast
    ring
  unfold Around
  dsimp only
  rw [hlow, hhigh, le_div_iff₀ hpow, div_le_iff₀ hpow, lt_div_iff₀ hpow, div_lt_iff₀ hpow,
    ← not_le, ← not_le, ← le_onGrid, ← onGrid_le, ← le_onGrid, ← onGrid_le]
  have hcell : b.cell.onGrid grid = ⟨
      (4 * b.significand - below) * Nat.pow 2 (b.exponent - 2).toNat * Nat.pow 10 (-grid).toNat,
      4 * b.significand * Nat.pow 2 (b.exponent - 2).toNat * Nat.pow 10 (-grid).toNat,
      (4 * b.significand + 2) * Nat.pow 2 (b.exponent - 2).toNat * Nat.pow 10 (-grid).toNat,
      (b.cell.onGrid grid).unit, b.significand % 2 = 0⟩ := by
    rw [← hbelow]
    rfl
  rw [hcell]
  by_cases heven : b.significand % 2 = 0 <;> simp [Cell.holds, heven]

/-! ## Lengths -/

theorem lt_pow_length_toDigits (n : ℕ) : n < 10 ^ (Nat.toDigits 10 n).length :=
  (Nat.length_toDigits_le_iff (by norm_num) Nat.length_toDigits_pos).mp le_rfl

theorem pow_le_of_length_toDigits (hn : 0 < n) (hk : (Nat.toDigits 10 n).length = k + 1) :
    10 ^ k ≤ n := by
  rcases Nat.eq_zero_or_pos k with rfl | hpos
  · exact hn
  · by_contra hlt
    have := (Nat.length_toDigits_le_iff (by norm_num) hpos).mpr (not_le.mp hlt)
    omega

/-! ## Search -/

theorem Cell.holds_of_pick? (h : c.pick? = some d) : c.holds d := by
  unfold pick? at h
  dsimp only at h
  split at h
  next hd _ =>
    cases h
    exact hd
  next _ hd =>
    cases h
    exact hd
  next => cases h
  next hd hd' =>
    split at h
    · cases h
      exact hd
    · cases h
      exact hd'

theorem Cell.not_holds_of_pick? (h : c.pick? = none) :
    ¬ c.holds (c.value / c.unit) ∧ ¬ c.holds (c.value / c.unit + 1) := by
  unfold pick? at h
  dsimp only at h
  split at h
  next => cases h
  next => cases h
  next hd hd' => exact ⟨by rw [hd]; exact Bool.false_ne_true, by rw [hd']; exact Bool.false_ne_true⟩
  next => split at h <;> cases h

/-- The search gives a point in the cell when one of its grids has one. -/
theorem Cell.holds_digitsFrom {fuel count k : ℕ} (hlow : count ≤ k) (hhigh : k < count + fuel)
    (h : (c.onGrid (top - k)).pick? ≠ none) :
    (c.onGrid (c.digitsFrom top fuel count).2).holds (c.digitsFrom top fuel count).1 := by
  induction fuel generalizing count with
  | zero => omega
  | succ fuel ih =>
    unfold digitsFrom
    dsimp only
    split
    next d hd => exact holds_of_pick? hd
    next hnone =>
      have hne : count ≠ k := fun heq => h (heq ▸ hnone)
      exact ih (by omega) (by omega)

/-- Whatever lies strictly between the ends lies in the cell. -/
theorem Binary.around_of_lt {x : ℚ} (hlow : (b.significand - b.below) * 2 ^ b.exponent < x)
    (hhigh : x < (b.significand + 1 / 2) * 2 ^ b.exponent) : b.Around x := by
  have hpow : (0 : ℚ) < 2 ^ b.exponent := by positivity
  rw [← lt_div_iff₀ hpow] at hlow
  rw [← div_lt_iff₀ hpow] at hhigh
  unfold Around
  dsimp only
  split
  · exact ⟨hlow.le, hhigh.le⟩
  · exact ⟨hlow, hhigh⟩

/-- The value lies between the two neighbours that are tried. -/
theorem Binary.value_bounds (b : Binary) (grid : ℤ) :
    ((b.cell.onGrid grid).value / (b.cell.onGrid grid).unit : ℕ) * 10 ^ grid ≤ b.value ∧
      b.value < ((b.cell.onGrid grid).value / (b.cell.onGrid grid).unit + 1 : ℕ) * 10 ^ grid := by
  have hunit : 0 < (b.cell.onGrid grid).unit := by exact_mod_cast onGrid_unit_pos b grid
  constructor
  · rw [← quarters_eq, ← onGrid_le]
    exact Nat.div_mul_le_self _ _
  · rw [← quarters_eq, ← not_le, ← onGrid_le, not_le]
    exact Nat.lt_mul_of_div_lt (Nat.lt_succ_self _) hunit

section
variable (hb : b.Canonical)
include hb

theorem Binary.Canonical.value_pos : 0 < b.value := by
  have hpos : (0 : ℚ) < b.significand := by exact_mod_cast hb.pos
  exact mul_pos hpos (by positivity)

/-- Measured by its value, a cell is wider than a unit in the seventeenth digit. -/
theorem Binary.Canonical.lt_width : (b.significand : ℚ) < (b.below + 1 / 2) * 10 ^ 16 := by
  unfold below
  split
  next hpower =>
    rw [hpower.1]
    norm_num
  next =>
    have hlt : (b.significand : ℚ) < 2 ^ 53 := by exact_mod_cast hb.lt
    linarith

/-- A grid with seventeen digits is finer than the cell. -/
theorem Binary.Canonical.pick?_ne_none (hgrid : 10 ^ (grid + 16) ≤ b.value) :
    (b.cell.onGrid grid).pick? ≠ none := by
  intro hnone
  have hpow : (0 : ℚ) < 2 ^ b.exponent := by positivity
  obtain ⟨hlow, hhigh⟩ := Cell.not_holds_of_pick? hnone
  obtain ⟨hle, hlt⟩ := b.value_bounds grid
  obtain ⟨d, hd⟩ : ∃ d, (b.cell.onGrid grid).value / (b.cell.onGrid grid).unit = d := ⟨_, rfl⟩
  rw [hd] at hle hlt
  rw [hd, hb.holds_onGrid] at hlow hhigh
  rw [value] at hgrid hle hlt
  rw [zpow_add₀ (by norm_num)] at hgrid
  have hbelow := mul_pos b.below_pos hpow
  -- both neighbours lie outside of the cell, so the grid is coarser
  have hlow : (d * 10 ^ grid : ℚ) ≤ (b.significand - b.below) * 2 ^ b.exponent := by
    by_contra hcon
    exact hlow (Binary.around_of_lt (not_le.mp hcon) (by linarith))
  have hhigh : (b.significand + 1 / 2) * 2 ^ b.exponent ≤ ((d + 1 : ℕ) * 10 ^ grid : ℚ) := by
    by_contra hcon
    exact hhigh (Binary.around_of_lt (by linarith) (not_le.mp hcon))
  have hcoarse : (b.below + 1 / 2) * 2 ^ b.exponent ≤ 10 ^ grid := by
    push_cast at hhigh
    linarith
  have hwidth := mul_lt_mul_of_pos_right hb.lt_width hpow
  norm_num at hgrid hwidth
  linarith

/-- The magnitude of a cell is at most that of the value. -/
theorem Binary.Canonical.magnitude_le : 10 ^ b.cell.magnitude ≤ b.value := by
  have hcell : (b.cell.value : ℚ) = b.value * b.cell.unit := b.cast_cell_value
  have hunit : 0 < b.cell.unit := Nat.pow_pos (by norm_num)
  have hunit' : (0 : ℚ) < b.cell.unit := by exact_mod_cast hunit
  unfold Cell.magnitude
  split
  next hle =>
    have hpos : 0 < b.cell.value / b.cell.unit := Nat.div_pos hle hunit
    obtain ⟨k, hk⟩ : ∃ k, (Nat.toDigits 10 (b.cell.value / b.cell.unit)).length = k + 1 :=
      Nat.exists_eq_succ_of_ne_zero Nat.length_toDigits_pos.ne'
    have hpow : 10 ^ k ≤ b.cell.value / b.cell.unit := pow_le_of_length_toDigits hpos hk
    rw [hk, Nat.cast_succ, add_sub_cancel_right, zpow_natCast]
    have hmul : 10 ^ k * b.cell.unit ≤ b.cell.value := (Nat.le_div_iff_mul_le hunit).mp hpow
    refine le_of_mul_le_mul_right ?_ hunit'
    rw [← hcell]
    exact_mod_cast hmul
  next =>
    have hvalue : 0 < b.cell.value := by
      have : (0 : ℚ) < b.cell.value := hcell ▸ mul_pos hb.value_pos hunit'
      exact_mod_cast this
    obtain ⟨inverse, hinverse⟩ : ∃ n, (b.cell.unit + b.cell.value - 1) / b.cell.value = n :=
      ⟨_, rfl⟩
    obtain ⟨k, hk⟩ : ∃ k, (Nat.toDigits 10 (inverse - 1)).length = k := ⟨_, rfl⟩
    have hceil : b.cell.unit ≤ inverse * b.cell.value := by
      have := Nat.lt_mul_of_div_lt (hinverse.trans_lt (Nat.lt_succ_self inverse)) hvalue
      rw [Nat.succ_mul] at this
      omega
    have hpow : inverse ≤ 10 ^ k := by
      have := lt_pow_length_toDigits (inverse - 1)
      rw [hk] at this
      omega
    dsimp only
    rw [hinverse, hk, Int.negOfNat_eq, zpow_neg]
    change ((10 : ℚ) ^ (k : ℤ))⁻¹ ≤ _
    rw [zpow_natCast, inv_le_iff_one_le_mul₀ (by positivity)]
    refine le_of_mul_le_mul_right ?_ hunit'
    rw [one_mul, mul_right_comm, ← hcell]
    exact_mod_cast (hceil.trans (Nat.mul_le_mul_right _ hpow)).trans (Nat.mul_comm _ _).le

/-- **The digits that are found stand for a number in the cell.** -/
theorem Binary.Canonical.around_digitsFrom :
    b.Around ((b.cell.digitsFrom b.cell.magnitude 17 0).1 *
      10 ^ (b.cell.digitsFrom b.cell.magnitude 17 0).2) := by
  rw [← hb.holds_onGrid]
  refine Cell.holds_digitsFrom (Nat.zero_le 16) (by norm_num) (hb.pick?_ne_none ?_)
  rw [Nat.cast_ofNat, sub_add_cancel]
  exact hb.magnitude_le

theorem Binary.Around.pos_bounds {x : ℚ} (hx : b.Around x) :
    (10 : ℚ) ^ (-324 : ℤ) ≤ x ∧ x < 10 ^ (309 : ℤ) := by
  have hpow : (0 : ℚ) < 2 ^ b.exponent := by positivity
  constructor
  · have hone : (1 : ℚ) ≤ b.significand := by exact_mod_cast hb.pos
    have hlow := hx.nearest.bounds.1
    rw [le_div_iff₀ hpow] at hlow
    have hleast : (10 : ℚ) ^ (-324 : ℤ) ≤ 1 / 2 * 2 ^ (-1074 : ℤ) := by
      have hnat : 2 * 2 ^ 1074 ≤ 10 ^ 324 := by decide +kernel
      have hcast : (2 * 2 ^ 1074 : ℚ) ≤ 10 ^ 324 := by exact_mod_cast hnat
      rw [zpow_neg, zpow_neg, one_div, ← mul_inv]
      exact inv_anti₀ (by positivity) hcast
    calc (10 : ℚ) ^ (-324 : ℤ) ≤ 1 / 2 * 2 ^ (-1074 : ℤ) := hleast
      _ ≤ 1 / 2 * 2 ^ b.exponent := by
        have := zpow_le_zpow_right₀ (one_le_two (α := ℚ)) hb.least
        gcongr
      _ ≤ (b.significand - 1 / 2) * 2 ^ b.exponent := by gcongr; linarith
      _ ≤ x := hlow
  · have hgreatest : (2 : ℚ) ^ (1024 : ℤ) < 10 ^ (309 : ℤ) := by
      have hnat : 2 ^ 1024 < 10 ^ 309 := by decide +kernel
      exact_mod_cast hnat
    calc x < 2 ^ (b.exponent + 53) := hx.lt_pow hb
      _ ≤ 2 ^ (1024 : ℤ) := zpow_le_zpow_right₀ one_le_two (by have := hb.greatest; omega)
      _ < 10 ^ (309 : ℤ) := hgreatest

theorem Binary.Around.pos (hx : b.Around (n * 10 ^ e)) : 0 < n := by
  refine Nat.pos_of_ne_zero fun hzero => ?_
  have hpos := (hx.pos_bounds hb).1
  rw [hzero, Nat.cast_zero, zero_mul] at hpos
  exact absurd hpos (by norm_num)

/-- **Reading a number in the cell of a double gives the double.** -/
theorem Binary.Canonical.nearest_eq (hx : b.Around (n * 10 ^ e)) (negative : Bool) :
    nearest negative n e = hb.toFloat (signOf negative) := by
  have hn := hx.pos hb
  obtain ⟨k, hk⟩ : ∃ k, (Nat.toDigits 10 n).length = k + 1 :=
    Nat.exists_eq_succ_of_ne_zero Nat.length_toDigits_pos.ne'
  have hlow : (10 : ℚ) ^ k ≤ n := by exact_mod_cast pow_le_of_length_toDigits hn hk
  have hhigh : (n : ℚ) < 10 ^ (k + 1) := by exact_mod_cast hk ▸ lt_pow_length_toDigits n
  have hpow : (0 : ℚ) < 10 ^ e := by positivity
  have hlt {i j : ℤ} (h : (10 : ℚ) ^ i < 10 ^ j) : i < j :=
    (zpow_lt_zpow_iff_right₀ (by norm_num)).mp h
  obtain ⟨hleast, hgreatest⟩ := hx.pos_bounds hb
  have htop : (k : ℤ) + e < 309 := by
    refine hlt (lt_of_le_of_lt ?_ hgreatest)
    rw [zpow_add₀ (by norm_num), zpow_natCast]
    gcongr
  have hbottom : -324 < (k : ℤ) + 1 + e := by
    refine hlt (hleast.trans_lt ?_)
    rw [zpow_add₀ (by norm_num)]
    exact_mod_cast mul_lt_mul_of_pos_right hhigh hpow
  have hlog : k ≤ n.log2 := by
    rw [Nat.le_log2 hn.ne']
    exact (Nat.pow_le_pow_left (by norm_num) k).trans (pow_le_of_length_toDigits hn hk)
  have hpositive : Float.ofScientific n (e < 0) e.natAbs = hb.toFloat .positive :=
    hb.ofScientific_eq hx hn (by omega) (by omega)
  have hsmall : ¬ (n = 0 ∨ ((k + 1 : ℕ) : ℤ) + e < -400) := by omega
  have hlarge : ¬ 400 < ((k + 1 : ℕ) : ℤ) + e := by omega
  unfold nearest
  dsimp only
  rw [hk, if_neg hsmall, if_neg hlarge, hpositive]
  cases negative with
  | false => rfl
  | true => exact hb.neg_toFloat

end

/-! ## Texts of digits -/

theorem natOfDigits_eq (ds : List Char) : natOfDigits ds = Nat.ofDigitChars 10 ds 0 := rfl

theorem natOfDigits_append (ds es : List Char) :
    natOfDigits (ds ++ es) = 10 ^ es.length * natOfDigits ds + natOfDigits es := by
  rw [natOfDigits_eq, Nat.ofDigitChars_append, Nat.ofDigitChars_eq_ofDigitChars_zero]
  rfl

theorem natOfDigits_replicate (k : ℕ) : natOfDigits (List.replicate k '0') = 0 := by
  rw [natOfDigits_eq, Nat.ofDigitChars_replicate_zero, Nat.mul_zero]

theorem natOfDigits_toDigits (n : ℕ) : natOfDigits (Nat.toDigits 10 n) = n :=
  Nat.ofDigitChars_ten_toDigits

/-- The digits of a positive number do not start with zero. -/
theorem head?_toDigits (hn : 0 < n) : (Nat.toDigits 10 n).head? ≠ some '0' := by
  induction n using Nat.strong_induction_on with
  | _ n ih =>
    rw [Nat.toDigits_eq_if (by norm_num)]
    split
    next hlt =>
      have hdigits : ∀ d < 10, 0 < d → some (Nat.digitChar d) ≠ some '0' := by decide
      exact hdigits n hlt hn
    next hge =>
      rw [List.head?_append_of_ne_nil _ Nat.toDigits_ne_nil]
      exact ih _ (by omega) (by omega)

/-- Only zeros are dropped. -/
theorem exists_dropZeros_append (ds : List Char) :
    ∃ k, ds = dropZeros ds ++ List.replicate k '0' := by
  refine ⟨(ds.reverse.takeWhile (· = '0')).length, ?_⟩
  have hzeros : ds.reverse.takeWhile (· = '0') =
      List.replicate (ds.reverse.takeWhile (· = '0')).length '0' :=
    List.eq_replicate_of_mem fun c hc => by simpa using List.all_eq_true.mp List.all_takeWhile c hc
  rw [← List.reverse_replicate, ← hzeros, dropZeros, ← List.reverse_append,
    List.takeWhile_append_dropWhile, List.reverse_reverse]

namespace Digits

/-- The number that digits stand for. -/
def value (d : Digits) : ℚ := natOfDigits d.digits * 10 ^ (d.exponent + 1 - d.digits.length)

/-- Digits without a zero in front. -/
structure Proper (d : Digits) : Prop where
  start : ∃ c rest, d.digits = c :: rest ∧ c ≠ '0'
  digit : ∀ c ∈ d.digits, c.isDigit

/-- The digits of a number of units on a grid. -/
def ofGrid (n : ℕ) (grid : ℤ) : Digits :=
  ⟨dropZeros (Nat.toDigits 10 n), grid + (Nat.toDigits 10 n).length - 1⟩

/-- The zeros that are dropped make up for the exponent of the last digit. -/
theorem exists_ofGrid (n : ℕ) (grid : ℤ) : ∃ k,
    Nat.toDigits 10 n = (ofGrid n grid).digits ++ List.replicate k '0' ∧
      n = 10 ^ k * natOfDigits (ofGrid n grid).digits ∧
      (ofGrid n grid).exponent + 1 - (ofGrid n grid).digits.length = k + grid := by
  obtain ⟨k, hk⟩ := exists_dropZeros_append (Nat.toDigits 10 n)
  refine ⟨k, hk, ?_, ?_⟩
  · have h := natOfDigits_toDigits n
    rw [hk, natOfDigits_append, natOfDigits_replicate, List.length_replicate, add_zero] at h
    exact h.symm
  · have hlength := congrArg List.length hk
    rw [List.length_append, List.length_replicate] at hlength
    unfold ofGrid
    dsimp only
    omega

theorem proper_ofGrid (hn : 0 < n) : (ofGrid n grid).Proper := by
  obtain ⟨k, hk, hvalue, -⟩ := exists_ofGrid n grid
  constructor
  · obtain ⟨c, rest, hdigits⟩ : ∃ c rest, (ofGrid n grid).digits = c :: rest := by
      refine List.exists_cons_of_ne_nil fun hnil => hn.ne' ?_
      rw [hvalue, hnil]
      rfl
    refine ⟨c, rest, hdigits, fun hzero => head?_toDigits hn ?_⟩
    rw [hk, hdigits, hzero]
    rfl
  · intro c hc
    refine Nat.isDigit_of_mem_toDigits (b := 10) (n := n) (by norm_num) le_rfl ?_
    rw [hk]
    exact List.mem_append_left _ hc

theorem value_ofGrid : (ofGrid n grid).value = n * 10 ^ grid := by
  obtain ⟨k, -, hvalue, hexponent⟩ := exists_ofGrid n grid
  have hcast : (n : ℚ) = 10 ^ k * natOfDigits (ofGrid n grid).digits := by exact_mod_cast hvalue
  rw [value, hexponent, zpow_add₀ (by norm_num), zpow_natCast, ← mul_assoc, hcast]
  congr 1
  exact mul_comm _ _

end Digits

/-- **The fewest digits of a double stand for a number in its cell.** -/
theorem Binary.Canonical.shortest_spec (hb : b.Canonical) :
    b.shortest.Proper ∧ b.Around b.shortest.value := by
  have haround := hb.around_digitsFrom
  have hshortest : b.shortest = Digits.ofGrid (b.cell.digitsFrom b.cell.magnitude 17 0).1
      (b.cell.digitsFrom b.cell.magnitude 17 0).2 := rfl
  rw [hshortest, Digits.value_ofGrid]
  exact ⟨Digits.proper_ofGrid (haround.pos hb), haround⟩

end SnapBlocks.Decimal
