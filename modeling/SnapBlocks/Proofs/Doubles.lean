import Mathlib.Algebra.Order.Ring.Int
import Mathlib.Data.Prod.Lex
import Mathlib.Order.Compare

/-! The order of doubles. Leaving out what is no number, doubles compare like their places on a
line, on which both zeros have one place. So a comparison of them has all properties of a linear
order. -/

namespace SnapBlocks.Doubles

open Float.Model Float.Model.UnpackedFloat

section Ord

variable {α β : Type} [Ord α] [Ord β]

theorem compare_toLex (a c : α) (b d : β) :
    compare (toLex (a, b)) (toLex (c, d)) = (compare a c).then (compare b d) := by
  rw [Prod.Lex.compare_def]
  rfl

theorem compare_neg (a b : ℤ) : compare (-a) (-b) = (compare a b).swap := by
  rw [show (compare a b).swap = compare b a from Std.OrientedCmp.eq_swap.symm]
  rcases h : compare b a with _ | _ | _ <;> simp_all [compare_lt_iff_lt, compare_gt_iff_gt]

theorem compare_cast (a b : ℕ) : compare (a : ℤ) (b : ℤ) = compare a b := by
  rcases h : compare a b with _ | _ | _ <;> simp_all [compare_lt_iff_lt, compare_gt_iff_gt]

end Ord

/-- A place on the line. Zeros stand in the middle, finite numbers beside them by exponent and then
by significand, and infinities at the ends. -/
def placeOf : UnpackedFloat → ℤ ×ₗ ℤ ×ₗ ℤ
  | .infinity .positive => toLex (2, toLex (0, 0))
  | .infinity .negative => toLex (-2, toLex (0, 0))
  | .finite .positive m e _ => toLex (1, toLex (e, (m : ℤ)))
  | .finite .negative m e _ => toLex (-1, toLex (-e, -(m : ℤ)))
  | .zero _ | .notANumber => toLex (0, toLex (0, 0))

/-- The place of a double. -/
def place (x : Float) : ℤ ×ₗ ℤ ×ₗ ℤ := placeOf x.toModel.unpack

theorem compare_eq {x y : UnpackedFloat} (hx : x.isNaN = false) (hy : y.isNaN = false) :
    x.compare y = some (compare (placeOf x) (placeOf y)) := by
  rcases x with (_ | _) | _ | (_ | _) | ⟨_ | _, m, e, _⟩ <;>
    rcases y with (_ | _) | _ | (_ | _) | ⟨_ | _, m', e', _⟩
  -- Only two numbers of one sign are told apart by exponent and significand.
  case finite.negative.finite.negative =>
    change _ =
      some (compare (toLex (-1, toLex (-e, -(m : ℤ)))) (toLex (-1, toLex (-e', -(m' : ℤ)))))
    rw [compare_toLex, compare_toLex, compare_neg e e', compare_neg m m', compare_cast,
      ← Ordering.swap_then]
    rfl
  case finite.positive.finite.positive =>
    change _ = some (compare (toLex (1, toLex (e, (m : ℤ)))) (toLex (1, toLex (e', (m' : ℤ)))))
    rw [compare_toLex, compare_toLex, compare_cast]
    rfl
  all_goals first | rfl | (cases hx; done) | cases hy

section

variable {x y : Float} (hx : x.isNaN = false) (hy : y.isNaN = false)
include hx hy

theorem lt_iff : x < y ↔ place x < place y := by
  have hcompare : x.toModel.unpack.compare y.toModel.unpack = some (compare (place x) (place y)) :=
    compare_eq hx hy
  change decide ((_ == some Ordering.lt) = true) = true ↔ _
  rw [hcompare, decide_eq_true_eq, beq_iff_eq, Option.some.injEq, compare_lt_iff_lt]

theorem le_iff : x ≤ y ↔ place x ≤ place y := by
  have hcompare : x.toModel.unpack.compare y.toModel.unpack = some (compare (place x) (place y)) :=
    compare_eq hx hy
  change decide (Option.any _ _ = true) = true ↔ _
  rw [hcompare, decide_eq_true_eq, Option.any_some, ← compare_le_iff_le]
  cases compare (place x) (place y) <;> decide

theorem beq_iff : x == y ↔ place x = place y := by
  have hcompare : x.toModel.unpack.compare y.toModel.unpack = some (compare (place x) (place y)) :=
    compare_eq hx hy
  change (_ == some Ordering.eq) = true ↔ _
  rw [hcompare, beq_iff_eq, Option.some.injEq, compare_eq_iff_eq]

end

end SnapBlocks.Doubles
