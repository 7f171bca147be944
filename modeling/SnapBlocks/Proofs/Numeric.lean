import SnapBlocks.Condition
import SnapBlocks.Proofs.Packing

/-! Doubles that are numbers. Packing makes no number into something else; what is rounded is a
number, and with that products and quotients of finite doubles are. So is every double that a
decimal, an integer or the text of an operand stands for. -/

namespace SnapBlocks.Decimal

open Float.Model Float.Model.UnpackedFloat

variable {u : UnpackedFloat} {x y : Float} {b c d : Binary} {v w : ℚ}

/-! ## Packing -/

/-- A number is packed with a fraction only if its exponent is not the greatest. -/
theorem exists_pack_finite (m : ℕ) (e : ℤ) (hm : 0 < m) : ∃ field fraction, field < 2 ^ 11 ∧
    fraction < 2 ^ 52 ∧ (field = 2047 → fraction = 0) ∧ ∀ sign,
      UnpackedFloat.pack Format.binary64 (.finite sign m e hm) = encode sign field fraction := by
  have hfraction : BitVec.ofNat 52 m = BitVec.ofNat 52 (m % 2 ^ 52) := by
    apply BitVec.eq_of_toNat_eq
    rw [BitVec.toNat_ofNat, BitVec.toNat_ofNat, Nat.mod_mod]
  have hlt : m % 2 ^ 52 < 2 ^ 52 := Nat.mod_lt _ (by norm_num)
  unfold UnpackedFloat.pack
  dsimp only
  split_ifs with hlarge hnormal
  · exact ⟨2047, 0, by norm_num, by norm_num, fun _ => rfl, fun _ => rfl⟩
  · refine ⟨_, _, ?_, hlt, ?_, fun sign => congrArg (packComponents _ sign _) hfraction⟩
    · exact (Nat.lt_succ_self _).trans (not_le.mp hlarge)
    · intro hfield
      rw [hfield] at hlarge
      exact absurd (le_refl _) hlarge
  · exact ⟨0, _, by norm_num, hlt, nofun, fun sign => congrArg (packComponents _ sign _) hfraction⟩

/-- What is packed comes back as an infinity, a zero or a finite number, of any sign alike. -/
theorem unpack_pack_finite (m : ℕ) (e : ℤ) (hm : 0 < m) :
    (∀ sign, UnpackedFloat.unpack Format.binary64 (UnpackedFloat.pack Format.binary64
      (.finite sign m e hm)) = .infinity sign) ∨
    (∀ sign, UnpackedFloat.unpack Format.binary64 (UnpackedFloat.pack Format.binary64
      (.finite sign m e hm)) = .zero sign) ∨
    ∃ m' e' h, ∀ sign, UnpackedFloat.unpack Format.binary64 (UnpackedFloat.pack Format.binary64
      (.finite sign m e hm)) = .finite sign m' e' h := by
  obtain ⟨field, fraction, hfield, hfraction, hnone, hpack⟩ := exists_pack_finite m e hm
  have hunpack (sign : Sign) : UnpackedFloat.unpack Format.binary64 (UnpackedFloat.pack
      Format.binary64 (.finite sign m e hm)) = _ :=
    (congrArg _ (hpack sign)).trans (unpack_encode hfield hfraction)
  by_cases hfull : field = 2047
  · left
    intro sign
    rw [hunpack, if_pos hfull, if_pos (hnone hfull)]
  right
  by_cases hsubnormal : field = 0
  · by_cases hzero : fraction = 0
    · left
      intro sign
      rw [hunpack, if_neg hfull, dif_pos hsubnormal, dif_pos hzero]
    · right
      refine ⟨fraction, -1074, Nat.pos_of_ne_zero hzero, fun sign => ?_⟩
      rw [hunpack, if_neg hfull, dif_pos hsubnormal, dif_neg hzero]
  · right
    refine ⟨fraction + 2 ^ 52, field - 1075, by omega, fun sign => ?_⟩
    rw [hunpack, if_neg hfull, dif_neg hsubnormal]

theorem isNaN_unpack_pack (h : u.isNaN = false) : (UnpackedFloat.unpack Format.binary64
    (UnpackedFloat.pack Format.binary64 u)).isNaN = false := by
  cases u with
  | notANumber => cases h
  | infinity sign => cases sign <;> rfl
  | zero sign => cases sign <;> rfl
  | finite sign m e hm =>
    obtain hu | hu | ⟨_, _, _, hu⟩ := unpack_pack_finite m e hm <;> rw [hu] <;> rfl

theorem isNaN_ofModel_pack (h : u.isNaN = false) : (Float.ofModel (.pack u)).isNaN = false :=
  isNaN_unpack_pack h

/-! ## Arithmetic -/

theorem isNaN_neg (h : x.isNaN = false) : (-x).isNaN = false := by
  apply isNaN_ofModel_pack (u := x.toModel.unpack.neg)
  have hx : x.toModel.unpack.isNaN = false := h
  cases hu : x.toModel.unpack with
  | notANumber => rw [hu] at hx; cases hx
  | _ => rfl

section
variable {p : Prop} [Decidable p]

theorem isNaN_ite {u v : UnpackedFloat} (hu : u.isNaN = false) (hv : v.isNaN = false) :
    (if p then u else v).isNaN = false := by
  by_cases h : p
  · rwa [if_pos h]
  · rwa [if_neg h]

theorem isNaN_dite {u : p → UnpackedFloat} {v : ¬p → UnpackedFloat}
    (hu : ∀ h, (u h).isNaN = false) (hv : ∀ h, (v h).isNaN = false) :
    (if h : p then u h else v h).isNaN = false := by
  by_cases h : p
  · rw [dif_pos h]
    exact hu h
  · rw [dif_neg h]
    exact hv h

end

theorem isNaN_roundWithAccuracy (f : Format) (sign : Sign) (m : ℕ) (e : ℤ) (a : Accuracy) :
    (roundWithAccuracy f sign m e a).isNaN = false := by
  apply isNaN_dite
  · exact fun _ => rfl
  · exact fun _ => rfl

theorem Exact.isNaN_mul (hx : Exact x b v) (hy : Exact y c w) : (x * y).isNaN = false := by
  apply isNaN_ofModel_pack (u := .mul Format.binary64 x.toModel.unpack y.toModel.unpack)
  rw [hx.eq, hy.eq, Binary.Canonical.unpack_toFloat, Binary.Canonical.unpack_toFloat]
  exact isNaN_roundWithAccuracy _ _ _ _ _

theorem Exact.isNaN_div (hx : Exact x b v) (hy : Exact y c w) : (x / y).isNaN = false := by
  apply isNaN_ofModel_pack (u := .div Format.binary64 x.toModel.unpack y.toModel.unpack)
  rw [hx.eq, hy.eq, Binary.Canonical.unpack_toFloat, Binary.Canonical.unpack_toFloat]
  exact isNaN_roundWithAccuracy _ _ _ _ _

/-! ## Decimals and integers -/

theorem isNaN_ofScientific_unpacked (n : ℕ) (e : ℤ) :
    (UnpackedFloat.ofScientific Format.binary64 n e).isNaN = false := by
  apply isNaN_dite
  · exact fun _ => rfl
  intro _
  refine isNaN_ite rfl (isNaN_ite rfl (isNaN_ite ?_ ?_))
  · exact isNaN_roundWithAccuracy _ _ _ _ _
  · exact isNaN_roundWithAccuracy _ _ _ _ _

theorem isNaN_ofScientific {n : ℕ} (hn : 0 < n) (s : Bool) (e : ℕ) :
    (Float.ofScientific n s e).isNaN = false := by
  unfold Float.ofScientific
  split
  next hsmall =>
    obtain ⟨c, hc⟩ := exists_exact_toFloat hn hsmall.1
    obtain ⟨d, hd⟩ := exists_exact_powerOfTen (Nat.lt_succ_of_le hsmall.2)
    dsimp only
    split
    · exact hc.isNaN_div hd
    · exact hc.isNaN_mul hd
  next => exact isNaN_ofModel_pack (isNaN_ofScientific_unpacked _ _)

/-- A decimal stands for a number, if only for an infinite one. -/
theorem isNaN_nearest (negative : Bool) (n : ℕ) (e : ℤ) : (nearest negative n e).isNaN = false := by
  have hzero : (0 : Float).isNaN = false := by decide +kernel
  have hinfinite : (1 / 0 : Float).isNaN = false := by decide +kernel
  have hpositive (size : ℤ) : (if n = 0 ∨ size < -400 then 0
      else if 400 < size then 1 / 0
      else Float.ofScientific n (e < 0) e.natAbs : Float).isNaN = false := by
    split_ifs with hsmall
    · exact hzero
    · exact hinfinite
    · exact isNaN_ofScientific (Nat.pos_of_ne_zero fun h => hsmall (.inl h)) _ _
  unfold nearest
  dsimp only
  split
  · exact isNaN_neg (hpositive _)
  · exact hpositive _

theorem isNaN_ofInt (n : ℤ) : (Float.ofInt n).isNaN = false := by
  have hnat (n : ℕ) : (Float.ofNat n).isNaN = false := by
    cases n with
    | zero => decide +kernel
    | succ n => exact isNaN_ofScientific n.succ_pos false 0
  cases n with
  | ofNat n => exact hnat n
  | negSucc n => exact isNaN_neg (hnat n.succ)

end SnapBlocks.Decimal

namespace SnapBlocks.Condition

open Decimal

theorem isNaN_of_decimal? {cs : List Char} {x : Float} (h : decimal? cs = some x) :
    x.isNaN = false := by
  unfold decimal? at h
  dsimp only at h
  split at h
  · split at h
    · cases h
    · obtain ⟨e, _, rfl⟩ := Option.map_eq_some_iff.mp h
      exact isNaN_nearest _ _ _
  · cases h

/-- What a text names as a number is one. -/
theorem isNaN_of_number? {text : String} {x : Float} (h : number? text = some x) :
    x.isNaN = false := by
  unfold number? at h
  dsimp only at h
  split at h
  · exact isNaN_of_decimal? h
  · obtain ⟨n, _, rfl⟩ := Option.map_eq_some_iff.mp h
    exact isNaN_ofInt n

end SnapBlocks.Condition
