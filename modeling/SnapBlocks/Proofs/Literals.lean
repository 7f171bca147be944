import SnapBlocks.Proofs.Comparison
import SnapBlocks.Proofs.Integral

/-! Comparisons of integers. Two integers in decimal digits compare as the doubles nearest to them,
so unequal ones may compare as equal, but never the wrong way round. An integer that takes more than
sixty-four bits is a mere text. -/

namespace SnapBlocks

theorem Text.trimChars_of_not_blank {cs : List Char} (h : ∀ c ∈ cs, ¬isBlank c) :
    trimChars cs = cs := by
  have hdrop {cs : List Char} (h : ∀ c ∈ cs, ¬isBlank c) : cs.dropWhile isBlank = cs := by
    cases cs with
    | nil => rfl
    | cons c rest => exact List.dropWhile_cons_of_neg (h c List.mem_cons_self)
  unfold trimChars
  rw [hdrop h, hdrop fun c hc => h c (List.mem_reverse.mp hc), List.reverse_reverse]

namespace Condition

open Decimal Doubles Text

variable {a b s t : String} {m n : ℤ} {op : Operator}

/-- A text of at least one digit. -/
def Digits (s : String) : Prop := s ≠ "" ∧ ∀ c ∈ s.toList, isDigit c

instance (s : String) : Decidable (Digits s) := @instDecidableAnd _ _ _ (List.decidableBAll _ _)

/-- An integer in decimal digits, with or without a sign. -/
inductive Literal : String → ℤ → Prop where
  | unsigned {s : String} (hs : Digits s) : Literal s (natOfDigits s.toList)
  | positive {s : String} (hs : Digits s) : Literal ("+" ++ s) (natOfDigits s.toList)
  | negative {s : String} (hs : Digits s) : Literal ("-" ++ s) (-(natOfDigits s.toList : ℤ))

/-- The integers of sixty-four bits. -/
def Fits (n : ℤ) : Prop := -2 ^ 63 ≤ n ∧ n < 2 ^ 63

instance : Decidable (Fits n) := inferInstanceAs (Decidable (_ ∧ _))

theorem not_isBlank_of_isDigit {c : Char} (h : isDigit c) : ¬isBlank c := by
  obtain ⟨hlow, hhigh⟩ := Bool.and_eq_true_iff.mp h
  have hlow : 0x30 ≤ c.toNat := of_decide_eq_true hlow
  have hhigh : c.toNat ≤ 0x39 := of_decide_eq_true hhigh
  unfold isBlank
  simp
  omega

theorem splitSign_of_isDigit {cs : List Char} (h : ∀ c ∈ cs, isDigit c) :
    splitSign cs = (false, cs) := by
  unfold splitSign
  split
  next => exact absurd (h _ List.mem_cons_self) (by decide)
  next => exact absurd (h _ List.mem_cons_self) (by decide)
  next => rfl

namespace Literal

/-- A literal is a sign and digits. -/
theorem exists_digits (h : Literal s n) : ∃ negative ds, splitSign s.toList = (negative, ds) ∧
    ds ≠ [] ∧ (∀ c ∈ ds, isDigit c) ∧ 
      n = if negative then -(natOfDigits ds : ℤ) else natOfDigits ds := by
  cases h with
  | unsigned hs =>
    exact ⟨false, _, splitSign_of_isDigit hs.2, mt String.toList_eq_nil_iff.mp hs.1, hs.2, rfl⟩
  | positive hs =>
    rw [String.toList_append]
    exact ⟨false, _, rfl, mt String.toList_eq_nil_iff.mp hs.1, hs.2, rfl⟩
  | negative hs =>
    rw [String.toList_append]
    exact ⟨true, _, rfl, mt String.toList_eq_nil_iff.mp hs.1, hs.2, rfl⟩

theorem mem (h : Literal s n) {c : Char} (hc : c ∈ s.toList) : isDigit c ∨ c = '+' ∨ c = '-' := by
  cases h with
  | unsigned hs => exact .inl (hs.2 c hc)
  | positive hs =>
    rw [String.toList_append] at hc
    rcases List.mem_cons.mp hc with rfl | hc
    · exact .inr (.inl rfl)
    · exact .inl (hs.2 c hc)
  | negative hs =>
    rw [String.toList_append] at hc
    rcases List.mem_cons.mp hc with rfl | hc
    · exact .inr (.inr rfl)
    · exact .inl (hs.2 c hc)

theorem trimChars_eq (h : Literal s n) : trimChars s.toList = s.toList := by
  refine trimChars_of_not_blank fun c hc => ?_
  rcases h.mem hc with hdigit | rfl | rfl
  · exact not_isBlank_of_isDigit hdigit
  · decide
  · decide

theorem trim_eq (h : Literal s n) : trim s = s := by
  rw [trim, h.trimChars_eq, String.ofList_toList]

theorem truth?_eq (h : Literal s n) : truth? s = none := by
  refine Option.eq_none_iff_forall_ne_some.mpr fun p hp => ?_
  obtain ⟨d, cs, hcs, hd, -⟩ := chars_of_truth? hp
  rw [h.trimChars_eq] at hcs
  rcases h.mem (hcs ▸ List.mem_cons_self) with hdigit | rfl | rfl
  · exact not_isDigit_of_toLower hd hdigit
  · exact absurd hd (by decide)
  · exact absurd hd (by decide)

theorem integer?_eq (h : Literal s n) : integer? s.toList = if Fits n then some n else none := by
  obtain ⟨negative, ds, hsplit, hne, hds, rfl⟩ := h.exists_digits
  have hdigits : ¬(ds.isEmpty ∨ ¬ds.all isDigit) := by
    simp [hne]
    exact hds
  have hpow : Nat.pow 2 63 = 2 ^ 63 := rfl
  unfold integer?
  rw [hsplit, hpow]
  dsimp only
  rw [if_neg hdigits]
  cases negative with
  | true =>
    have hfits : natOfDigits ds ≤ 2 ^ 63 ↔ Fits (-(natOfDigits ds : ℤ)) := by
      unfold Fits
      omega
    simp only [if_true, hfits, Int.negOfNat_eq]
    rfl
  | false =>
    have hfits : natOfDigits ds < 2 ^ 63 ↔ Fits (natOfDigits ds : ℤ) := by
      unfold Fits
      omega
    simp only [Bool.false_eq_true, if_false, hfits]

theorem number?_eq (h : Literal s n) :
    number? s = if Fits n then some (Float.ofInt n) else none := by
  have hpoint : ¬s.toList.contains '.' := by
    intro hmem
    rcases h.mem (List.contains_iff_mem.mp hmem) with hdigit | heq | heq
    · exact absurd hdigit (by decide)
    · exact absurd heq (by decide)
    · exact absurd heq (by decide)
  unfold number?
  dsimp only
  rw [h.trimChars_eq, if_neg hpoint, h.integer?_eq, apply_ite (Option.map Float.ofInt)]
  rfl

end Literal

/-! ## Comparisons -/

theorem Fits.natAbs_lt (h : Fits n) : n.natAbs < 2 ^ 64 := by
  unfold Fits at h
  omega

/-- How two literals compare: as the doubles nearest to them, or as texts if one does not fit. -/
def literalOrder (a b : String) (m n : ℤ) : Ordering :=
  if Fits m ∧ Fits n then compare (nearestDouble m) (nearestDouble n) else compare a b

theorem compareOperands_of_literals (ha : Literal a m) (hb : Literal b n) :
    compareOperands a b = some (literalOrder a b m n) := by
  have htexts (h : number? a = none ∨ number? b = none) :
      compareOperands a b = some (compare a b) := by
    rw [(Compares.texts h (.inl ha.truth?_eq)).eq_some, ha.trim_eq, hb.trim_eq]
  have hnone {s : String} {k : ℤ} (hs : Literal s k) (hk : ¬Fits k) : number? s = none :=
    hs.number?_eq.trans (if_neg hk)
  unfold literalOrder
  by_cases hm : Fits m
  · by_cases hn : Fits n
    · have hx := ha.number?_eq.trans (if_pos hm)
      have hy := hb.number?_eq.trans (if_pos hn)
      rw [if_pos ⟨hm, hn⟩, (Compares.numbers hx hy).eq_some,
        compare_ofInt hm.natAbs_lt hn.natAbs_lt]
    · rw [if_neg fun h => hn h.2, htexts (.inr (hnone hb hn))]
  · rw [if_neg fun h => hm h.1, htexts (.inl (hnone ha hm))]

/-- Integers compare as integers, unless they are not equal but their nearest doubles are. -/
theorem compare_nearestDouble (h : nearestDouble m = nearestDouble n → m = n) :
    compare (nearestDouble m) (nearestDouble n) = compare m n := by
  have hlt {m n : ℤ} (hne : nearestDouble m ≠ nearestDouble n) (hlt : m < n) :
      nearestDouble m < nearestDouble n := lt_of_le_of_ne (nearestDouble_mono hlt.le) hne
  rcases eq_or_ne (nearestDouble m) (nearestDouble n) with heq | hne
  · rw [compare_eq_iff_eq.mpr heq, compare_eq_iff_eq.mpr (h heq)]
  · rcases lt_trichotomy m n with hmn | rfl | hmn
    · rw [compare_lt_iff_lt.mpr hmn, compare_lt_iff_lt.mpr (hlt hne hmn)]
    · exact absurd rfl hne
    · rw [compare_gt_iff_gt.mpr hmn, compare_gt_iff_gt.mpr (hlt hne.symm hmn)]

/-- How an operator judges two literals: those that fit by their nearest doubles, which is by the
integers unless two of them have one nearest double, and two of which one does not fit by their
texts. -/
structure Judges (a b t : String) (m n : ℤ) (op : Operator) : Prop where
  nearest : IsNearest m (nearestDouble m) ∧ IsNearest n (nearestDouble n)
  rounded : Fits m → Fits n → holds (some a) (some b) (some t) =
    op.holds (some (compare (nearestDouble m) (nearestDouble n)))
  exact : Fits m → Fits n → (nearestDouble m = nearestDouble n → m = n) →
    holds (some a) (some b) (some t) = op.holds (some (compare m n))
  small : m.natAbs ≤ 2 ^ 53 → n.natAbs ≤ 2 ^ 53 →
    holds (some a) (some b) (some t) = op.holds (some (compare m n))
  beyond : ¬(Fits m ∧ Fits n) →
    holds (some a) (some b) (some t) = op.holds (some (compare a b))

theorem judges_literals (ha : Literal a m) (hb : Literal b n) (hop : Operator.parse? t = some op) :
    Judges a b t m n op := by
  have hholds : holds (some a) (some b) (some t) = op.holds (some (literalOrder a b m n)) := by
    unfold holds
    rw [Option.bind_some, hop, Option.getD_some, Option.getD_some,
      compareOperands_of_literals ha hb]
  have hrounded (hm : Fits m) (hn : Fits n) : holds (some a) (some b) (some t) =
      op.holds (some (compare (nearestDouble m) (nearestDouble n))) := by
    rw [hholds, literalOrder, if_pos ⟨hm, hn⟩]
  have hexact (hm : Fits m) (hn : Fits n) (h : nearestDouble m = nearestDouble n → m = n) :
      holds (some a) (some b) (some t) = op.holds (some (compare m n)) := by
    rw [hrounded hm hn, compare_nearestDouble h]
  constructor
  case nearest => exact ⟨isNearest_nearestDouble m, isNearest_nearestDouble n⟩
  case rounded => exact hrounded
  case exact => exact hexact
  case small =>
    intro hm hn
    have hfits {k : ℤ} (hk : k.natAbs ≤ 2 ^ 53) : Fits k := by
      unfold Fits
      omega
    refine hexact (hfits hm) (hfits hn) fun h => ?_
    rwa [nearestDouble_of_natAbs_le hm, nearestDouble_of_natAbs_le hn] at h
  case beyond =>
    intro h
    rw [hholds, literalOrder, if_neg h]

/-- Beyond fifty-three bits two integers may be one double, and beyond sixty-four bits they are
compared by their digits. -/
theorem literals_misjudged :
    (Literal "9007199254740993" 9007199254740993 ∧ Literal "9007199254740992" 9007199254740992 ∧
      holds (some "9007199254740993") (some "9007199254740992") (some "==") ≠
        Operator.equals.holds (some (compare (9007199254740993 : ℤ) 9007199254740992))) ∧
    (Literal "10000000000000000000" 10000000000000000000 ∧ Literal "9" 9 ∧
      holds (some "10000000000000000000") (some "9") (some "<") ≠
        Operator.lessThan.holds (some (compare (10000000000000000000 : ℤ) 9))) := by
  refine ⟨⟨.unsigned ?_, .unsigned ?_, ?_⟩, .unsigned ?_, .unsigned ?_, ?_⟩
  all_goals decide +kernel

theorem judges_literals_signed : Literal "-9007199254740993" (-9007199254740993) ∧
    Literal "+5" 5 ∧ Operator.parse? " =< " = some .lessThanOrEqual ∧
    Judges "-9007199254740993" "+5" " =< " (-9007199254740993) 5 .lessThanOrEqual := by
  have ha : Literal "-9007199254740993" (-9007199254740993) :=
    .negative (s := "9007199254740993") (by decide +kernel)
  have hb : Literal "+5" 5 := .positive (s := "5") (by decide +kernel)
  have hop : Operator.parse? " =< " = some .lessThanOrEqual := by decide +kernel
  exact ⟨ha, hb, hop, judges_literals ha hb hop⟩

end Condition

end SnapBlocks
