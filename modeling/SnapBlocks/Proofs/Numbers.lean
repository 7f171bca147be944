import SnapBlocks.Proofs.Decoding
import SnapBlocks.Proofs.Digits

/-! Numbers in texts. A number is spelled with integral digits, the digits of a fraction and an
exponent; the reader takes a spelling apart into the numeral it stands for. The text of a finite
double is a spelling of a number in its cell, so that the double is read back. -/

namespace SnapBlocks.Json

open Decimal

variable {ds behind : List Char} {negative : Bool} {x : Float} {d : Digits} {n : Nat}

/-! ## Spellings -/

/-- How a number is written without its sign. -/
structure Spelling where
  /-- The integral digits. -/
  whole : List Char
  /-- The digits behind the point, which is not written when there are none. -/
  fraction : List Char
  exponent : Option Int

namespace Spelling

/-- An exponent behind its mark, with a sign in any case. -/
def exponentChars : Option Int → List Char
  | none => []
  | some e => 'e' :: (if e < 0 then '-' else '+') :: Nat.toDigits 10 e.natAbs

/-- A fraction behind its point. -/
def fractionChars (fraction : List Char) : List Char :=
  if fraction.isEmpty then [] else '.' :: fraction

/-- The text of a spelling. -/
def chars (s : Spelling) : List Char :=
  s.whole ++ (fractionChars s.fraction ++ exponentChars s.exponent)

/-- The number that a spelling stands for, with a sign. -/
def numeral (s : Spelling) (negative : Bool) : Numeral where
  negative := negative
  whole := s.fraction.isEmpty && s.exponent.isNone
  mantissa := natOfDigits (s.whole ++ s.fraction)
  exponent := s.exponent.getD 0 - s.fraction.length

/-- Digits are digits, and only a lone zero starts with zero. -/
structure Good (s : Spelling) : Prop where
  start : s.whole = ['0'] ∨ ∃ c rest, s.whole = c :: rest ∧ c ≠ '0'
  whole : ∀ c ∈ s.whole, isDigit c
  fraction : ∀ c ∈ s.fraction, isDigit c

end Spelling

variable {s : Spelling}

theorem readDigits_append (hne : ds ≠ []) (hds : ∀ c ∈ ds, isDigit c)
    (hb : ∀ c ∈ behind.head?, ¬ isDigit c) : readDigits (ds ++ behind) = .ok (ds, behind) := by
  have htake : behind.takeWhile isDigit = [] ∧ behind.dropWhile isDigit = behind := by
    cases behind with
    | nil => exact ⟨rfl, rfl⟩
    | cons c rest =>
      have hc := hb c rfl
      exact ⟨List.takeWhile_cons_of_neg hc, List.dropWhile_cons_of_neg hc⟩
  have hspan : (ds ++ behind).span isDigit = (ds, behind) := by
    rw [List.span_eq_takeWhile_dropWhile, List.takeWhile_append_of_pos hds,
      List.dropWhile_append_of_pos hds, htake.1, htake.2, List.append_nil]
  unfold readDigits
  rw [hspan]
  split
  next h => cases h; exact absurd rfl hne
  next h => cases h; rfl

theorem isDigit_of_isDigit {c : Char} (hc : c.isDigit) : isDigit c := by
  simpa [isDigit, Char.isDigit, Char.le_def] using hc

theorem isDigit_zero : ∀ c ∈ ['0'], isDigit c := List.forall_mem_singleton.mpr rfl

theorem readWhole_append (hs : s.Good) (hb : ∀ c ∈ behind.head?, ¬ isDigit c) :
    readWhole (s.whole ++ behind) = .ok (s.whole, behind) := by
  rcases hs.start with hzero | ⟨c, rest, hwhole, hc⟩
  · have hdigit : ¬ (behind.head?.map isDigit).getD false := by
      cases behind with
      | nil => exact Bool.false_ne_true
      | cons c rest => exact hb c rfl
    rw [hzero]
    exact if_neg hdigit
  · have hread := readDigits_append (hwhole ▸ List.cons_ne_nil c rest) hs.whole hb
    rw [hwhole, List.cons_append] at hread ⊢
    unfold readWhole
    split
    next h => cases h; exact absurd rfl hc
    next => exact hread

theorem readFraction_append (hs : s.Good) (hb : ∀ c ∈ behind.head?, ¬ isDigit c ∧ c ≠ '.') :
    readFraction (Spelling.fractionChars s.fraction ++ behind) = .ok (s.fraction, behind) := by
  unfold Spelling.fractionChars
  by_cases hnil : s.fraction = []
  · rw [hnil, List.isEmpty_nil, if_pos rfl, List.nil_append]
    cases behind with
    | nil => rfl
    | cons c rest =>
      unfold readFraction
      split
      next h => cases h; exact absurd rfl (hb _ rfl).2
      next => rfl
  · rw [if_neg (by simpa using hnil), List.cons_append]
    exact readDigits_append hnil hs.fraction fun c hc => (hb c hc).1

theorem readExponent_append {e : Option Int} (hb : Ends behind) :
    readExponent (Spelling.exponentChars e ++ behind) = .ok (e, behind) := by
  cases e with
  | none =>
    cases behind with
    | nil => rfl
    | cons c rest =>
      have hc := hb c rfl
      exact if_neg fun he => he.elim hc.2.2.1 hc.2.2.2
  | some e =>
    have hdigits : readDigits (Nat.toDigits 10 e.natAbs ++ behind) =
        .ok (Nat.toDigits 10 e.natAbs, behind) :=
      readDigits_append Nat.toDigits_ne_nil
        (fun c hc => isDigit_of_isDigit (Nat.isDigit_of_mem_toDigits (by norm_num) le_rfl hc))
        fun c hc => (hb c hc).1
    rw [Spelling.exponentChars, List.cons_append, List.cons_append]
    by_cases he : e < 0
    · have hvalue : Int.negOfNat e.natAbs = e := by
        rw [Int.negOfNat_eq]
        exact neg_eq_iff_eq_neg.mpr (Int.ofNat_natAbs_of_nonpos he.le)
      rw [if_pos he, readExponent, if_pos (.inl rfl)]
      simp only [hdigits, natOfDigits_toDigits, if_true, hvalue]
    · have hvalue : (e.natAbs : Int) = e := Int.natAbs_of_nonneg (not_lt.mp he)
      rw [if_neg he, readExponent, if_pos (.inl rfl)]
      simp only [hdigits, natOfDigits_toDigits, Bool.false_eq_true, if_false, hvalue]

theorem readUnsigned_append (hs : s.Good) (hb : Ends behind) :
    readUnsigned negative (s.chars ++ behind) = .ok (s.numeral negative, behind) := by
  have hexponent : ∀ c ∈ (Spelling.exponentChars s.exponent ++ behind).head?,
      ¬ isDigit c ∧ c ≠ '.' := by
    cases s.exponent with
    | none => exact fun c hc => ⟨(hb c hc).1, (hb c hc).2.1⟩
    | some e => rintro _ ⟨⟩; decide
  have hfraction : ∀ c ∈ (Spelling.fractionChars s.fraction ++
      (Spelling.exponentChars s.exponent ++ behind)).head?, ¬ isDigit c := by
    unfold Spelling.fractionChars
    split
    · exact fun c hc => (hexponent c hc).1
    · rintro _ ⟨⟩; decide
  unfold readUnsigned Spelling.chars
  rw [List.append_assoc, List.append_assoc, readWhole_append hs hfraction]
  change (readFraction _ >>= _) = _
  rw [readFraction_append hs hexponent]
  change (readExponent _ >>= _) = _
  rw [readExponent_append hb]
  rfl

theorem Spelling.Good.exists_chars (hs : s.Good) :
    ∃ c rest, s.chars = c :: rest ∧ isDigit c := by
  obtain ⟨c, rest, hwhole⟩ : ∃ c rest, s.whole = c :: rest := by
    rcases hs.start with h | ⟨c, rest, h, -⟩
    · exact ⟨_, _, h⟩
    · exact ⟨_, _, h⟩
  refine ⟨c, _, by rw [chars, hwhole, List.cons_append], hs.whole c ?_⟩
  rw [hwhole]
  exact List.mem_cons_self

/-- A sign in front of a text. -/
def signed (negative : Bool) (text : List Char) : List Char :=
  if negative then '-' :: text else text

theorem readNumber_signed (hs : s.Good) (hb : Ends behind) :
    readNumber (signed negative s.chars ++ behind) = .ok (s.numeral negative, behind) := by
  cases negative with
  | true => exact readUnsigned_append hs hb
  | false =>
    have hread : readUnsigned false (s.chars ++ behind) = .ok (s.numeral false, behind) :=
      readUnsigned_append hs hb
    unfold readNumber
    split
    next rest h =>
      obtain ⟨c, rest', hchars, hc⟩ := hs.exists_chars
      rw [signed, if_neg Bool.false_ne_true, hchars] at h
      cases h
      exact absurd hc (by decide)
    next => exact hread

/-- The text of a spelling is read as its numeral. -/
theorem numeral_signed (hs : s.Good) : numeral (signed negative s.chars) = s.numeral negative := by
  have h : readNumber (signed negative s.chars ++ []) = .ok (s.numeral negative, []) :=
    readNumber_signed hs ends_nil
  rw [List.append_nil] at h
  unfold numeral
  rw [h]

theorem numberText_signed (hs : s.Good) : NumberText (signed negative s.chars) where
  start := by
    obtain ⟨c, rest, hchars, hc⟩ := hs.exists_chars
    cases negative with
    | true => exact ⟨_, _, rfl, .inl rfl⟩
    | false => exact ⟨c, rest, hchars, .inr hc⟩
  read hb := by rw [numeral_signed hs, readNumber_signed hs hb]

/-! ## Doubles -/

/-- The digits of a spelling are those of a number, and it is not spelled as an integer. -/
structure Spelling.Spells (s : Spelling) (d : Digits) : Prop where
  good : s.Good
  inexact : s.fraction ≠ [] ∨ s.exponent ≠ none
  value : natOfDigits (s.whole ++ s.fraction) *
    (10 : ℚ) ^ (s.exponent.getD 0 - s.fraction.length) = d.value

section
variable (hd : d.Proper)
include hd

theorem isDigit_of_mem : ∀ c ∈ d.digits, isDigit c := fun c hc =>
  isDigit_of_isDigit (hd.digit c hc)

/-- A positional text spells the digits. -/
theorem exists_spells_positional : ∃ s : Spelling, s.Spells d ∧ d.positional = s.chars := by
  have hdigit := isDigit_of_mem hd
  have hzero {k : Nat} : ∀ c ∈ List.replicate k '0', isDigit c := by
    intro c hc
    rw [List.eq_of_mem_replicate hc]
    decide
  obtain ⟨c, rest, hdigits, hc⟩ := hd.start
  unfold Digits.positional
  dsimp only
  split_ifs with hneg hlen
  · -- the digits stand behind the point
    refine ⟨⟨['0'], List.replicate (-d.exponent - 1).toNat '0' ++ d.digits, none⟩,
      ⟨⟨.inl rfl, isDigit_zero, List.forall_mem_append.mpr ⟨hzero, hdigit⟩⟩, .inl ?_, ?_⟩, ?_⟩
    · rw [hdigits]
      simp
    · have hexponent : -((-d.exponent - 1).toNat + d.digits.length : ℤ) =
          d.exponent + 1 - d.digits.length := by omega
      rw [natOfDigits_append, natOfDigits_append, natOfDigits_replicate]
      simp only [List.length_append, List.length_replicate, Option.getD_none, zero_sub]
      push_cast
      rw [hexponent]
      simp [Digits.value, show natOfDigits ['0'] = 0 from rfl]
    · simp [Spelling.chars, Spelling.fractionChars, Spelling.exponentChars, hdigits]
  · -- zeros stand between the digits and the point
    refine ⟨⟨d.digits ++ List.replicate (d.exponent.toNat + 1 - d.digits.length) '0', ['0'], none⟩,
      ⟨⟨.inr ⟨c, _, by rw [hdigits]; rfl, hc⟩, List.forall_mem_append.mpr ⟨hdigit, hzero⟩,
        isDigit_zero⟩, .inl (List.cons_ne_nil _ _), ?_⟩, ?_⟩
    · obtain ⟨k, hk⟩ : ∃ k, d.exponent.toNat + 1 - d.digits.length = k := ⟨_, rfl⟩
      have hexponent : d.exponent + 1 - (d.digits.length : ℤ) = (k + 1 : ℕ) + -1 := by omega
      rw [hk, natOfDigits_append, natOfDigits_append, natOfDigits_replicate, Digits.value,
        hexponent, zpow_add₀ (by norm_num), zpow_natCast]
      simp only [List.length_singleton, List.length_replicate, Option.getD_none, zero_sub, pow_one,
        show natOfDigits ['0'] = 0 from rfl, add_zero, Nat.cast_one]
      push_cast
      ring
    · simp [Spelling.chars, Spelling.fractionChars, Spelling.exponentChars]
  · -- the point stands between the digits
    refine ⟨⟨d.digits.take (d.exponent.toNat + 1), d.digits.drop (d.exponent.toNat + 1), none⟩,
      ⟨⟨.inr ⟨c, rest.take d.exponent.toNat, by rw [hdigits]; rfl, hc⟩,
        fun c hc => hdigit c (List.mem_of_mem_take hc),
        fun c hc => hdigit c (List.mem_of_mem_drop hc)⟩, .inl ?_, ?_⟩, ?_⟩
    · rw [List.ne_nil_iff_length_pos, List.length_drop]
      omega
    · rw [List.take_append_drop, Digits.value]
      congr 2
      simp only [List.length_drop, Option.getD_none]
      omega
    · have hne : d.digits.drop (d.exponent.toNat + 1) ≠ [] := by
        rw [List.ne_nil_iff_length_pos, List.length_drop]
        omega
      simp [Spelling.chars, Spelling.fractionChars, Spelling.exponentChars, hne]

/-- So does a scientific one. -/
theorem exists_spells_scientific : ∃ s : Spelling, s.Spells d ∧ d.scientific true = s.chars := by
  obtain ⟨c, rest, hdigits, hc⟩ := hd.start
  have hdigit := isDigit_of_mem hd
  rw [hdigits] at hdigit
  refine ⟨⟨[c], rest, some d.exponent⟩, ⟨⟨.inr ⟨c, [], rfl, hc⟩, ?_, ?_⟩, .inr nofun, ?_⟩, ?_⟩
  · exact fun b hb => hdigit b (List.mem_cons.mpr (.inl (List.mem_singleton.mp hb)))
  · exact fun b hb => hdigit b (.tail _ hb)
  · rw [Digits.value, hdigits]
    congr 2
    simp only [Option.getD_some, List.length_cons]
    omega
  · have hsign : (if d.exponent < 0 then ['-'] else if true then ['+'] else []) =
        [if d.exponent < 0 then '-' else '+'] := by
      split <;> rfl
    unfold Digits.scientific
    dsimp only
    rw [hsign, hdigits]
    cases rest <;> simp [Spelling.chars, Spelling.fractionChars, Spelling.exponentChars]

theorem exists_spells_layOut : ∃ s : Spelling, s.Spells d ∧ floatStyle.layOut d = s.chars := by
  unfold Style.layOut
  split
  · exact exists_spells_positional hd
  · exact exists_spells_scientific hd

end

theorem value?_numeral (hs : s.fraction ≠ [] ∨ s.exponent ≠ none) (hx : x.isFinite)
    (h : nearest negative (s.numeral negative).mantissa (s.numeral negative).exponent = x) :
    (s.numeral negative).value? = some (.float x) := by
  have hwhole : (s.numeral negative).whole = false := by
    rw [Spelling.numeral, Bool.and_eq_false_iff]
    exact hs.imp (by simp) (by cases s.exponent <;> simp)
  have hnearest : nearest (s.numeral negative).negative (s.numeral negative).mantissa
      (s.numeral negative).exponent = x := h
  unfold Numeral.value?
  dsimp only
  rw [hwhole, hnearest, if_neg (fun hcon => Bool.false_ne_true hcon.1),
    if_neg (fun hcon => Bool.false_ne_true hcon.1), if_pos hx]

theorem chars_eq_signed (style : Style) (x : Float) :
    style.chars x = signed (decide (2 ^ 63 ≤ x.toBits.toNat))
      (if (Binary.ofBits x.toBits.toNat).significand = 0 then ['0', '.', '0']
        else style.layOut (Binary.ofBits x.toBits.toNat).shortest) := by
  by_cases h : 2 ^ 63 ≤ x.toBits.toNat
  · rw [signed, if_pos (decide_eq_true h)]
    exact if_pos h
  · rw [signed, if_neg (mt of_decide_eq_true h)]
    exact if_neg h

/-- The text of a double is a spelling from which the double is read. -/
theorem exists_chars_eq (hx : x.isFinite) : ∃ (s : Spelling) (negative : Bool), s.Good ∧
    floatStyle.chars x = signed negative s.chars ∧
      (s.numeral negative).value? = some (.float x) := by
  have hcases := eq_of_isFinite hx
  rw [chars_eq_signed]
  generalize decide (2 ^ 63 ≤ x.toBits.toNat) = negative at hcases ⊢
  rcases hcases with ⟨hzero, hx'⟩ | ⟨hb, hx'⟩
  · rw [if_pos hzero]
    refine ⟨⟨['0'], ['0'], none⟩, negative, ⟨.inl rfl, isDigit_zero, isDigit_zero⟩, rfl,
      value?_numeral (.inl (List.cons_ne_nil _ _)) hx ?_⟩
    rw [hx']
    cases negative with
    | true => exact neg_zero_eq
    | false => exact zero_eq.symm
  · obtain ⟨hproper, haround⟩ := hb.shortest_spec
    obtain ⟨s, hs, hlayOut⟩ := exists_spells_layOut hproper
    rw [if_neg hb.pos.ne', hlayOut]
    rw [← hs.value] at haround
    exact ⟨s, negative, hs.good, rfl,
      value?_numeral hs.inexact hx ((hb.nearest_eq haround negative).trans hx'.symm)⟩

/-- **The text of a finite double is read as the double.** -/
theorem numberText_floatStyle (hx : x.isFinite) : NumberText (floatStyle.chars x) ∧
    (numeral (floatStyle.chars x)).value? = some (.float x) := by
  obtain ⟨s, negative, hs, hchars, hvalue⟩ := exists_chars_eq hx
  rw [hchars, numeral_signed hs]
  exact ⟨numberText_signed hs, hvalue⟩

theorem Decoder.restores_float (hx : x.isFinite) : Decoder.float.Restores n (.ofFloat x) x := by
  obtain ⟨htext, hvalue⟩ := numberText_floatStyle hx
  rw [ofFloat, if_pos hx]
  refine restores_of_flat htext rfl fun room => ?_
  rw [node, Decoder.float]
  simp only [hvalue]

end SnapBlocks.Json
