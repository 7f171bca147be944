import Mathlib.Data.List.TakeWhile
import SnapBlocks.Proofs.Doubles
import SnapBlocks.Proofs.Numeric

/-! Laws of comparisons. Two operands are compared as numbers, as truth values or as texts, and
three of them may be compared in three ways. Yet whenever a comparison finds two operands equal
they have the same meaning, the place of a number, a truth value or a text; so equality is an
equivalence. -/

namespace SnapBlocks

namespace Text

variable {s t l r : List Char}

/-- Blanks at the ends do not count. -/
theorem trimChars_padded (hl : ∀ c ∈ l, isBlank c) (hr : ∀ c ∈ r, isBlank c) :
    trimChars (l ++ s ++ r) = trimChars s := by
  unfold trimChars
  rw [List.append_assoc, List.dropWhile_append_of_pos hl, List.dropWhile_append]
  split
  next h =>
    rw [List.dropWhile_eq_nil_iff.mpr hr, List.isEmpty_iff.mp h]
  next =>
    rw [List.reverse_append, List.dropWhile_append_of_pos fun c hc => hr c (List.mem_reverse.mp hc)]

theorem trimChars_eq_of_trim {a b : String} (h : trim a = trim b) :
    trimChars a.toList = trimChars b.toList := String.ofList_injective h

end Text

/-- The text of an operator. -/
def Operator.text : Operator → String
  | equals => "=="
  | different => "!="
  | lessThan => "<"
  | greaterThan => ">"
  | lessThanOrEqual => "<="
  | greaterThanOrEqual => ">="

theorem Operator.parse?_text (op : Operator) : parse? op.text = some op := by
  cases op <;> decide +kernel

namespace Condition

open Doubles Text

variable {a b c s t : String} {o : Ordering} {x y : Float} {p q : Bool}

/-! ## Meanings -/

/-- What an operand means. -/
inductive Meaning where
  | number (p : ℤ ×ₗ ℤ ×ₗ ℤ)
  | truth (b : Bool)
  | text (s : String)

/-- The meaning of an operand: that of the first class to which it belongs. -/
def meaning (s : String) : Meaning :=
  match number? s with
  | some x => .number (place x)
  | none =>
    match truth? s with
    | some b => .truth b
    | none => .text (trim s)

theorem number?_congr (h : trim a = trim b) : number? a = number? b := by
  unfold number?
  rw [trimChars_eq_of_trim h]

theorem truth?_congr (h : trim a = trim b) : truth? a = truth? b := by
  unfold truth?
  rw [trimChars_eq_of_trim h]

theorem meaning_congr (h : trim a = trim b) : meaning a = meaning b := by
  unfold meaning
  rw [number?_congr h, truth?_congr h, h]

theorem meaning_of_number? (h : number? s = some x) : meaning s = .number (place x) := by
  unfold meaning
  rw [h]

/-- Digits have no case. -/
theorem toLower_of_isDigit {d : Char} (h : isDigit d) : d.toLower = d := by
  unfold Char.toLower
  split
  next hupper =>
    have hle : d.val ≤ '9'.val := of_decide_eq_true (Bool.and_eq_true_iff.mp h).2
    exact absurd (UInt32.le_trans hupper.1 hle) (by decide)
  next => rfl

/-- The text of a truth value has no point, and its first character is a mark of exclamation. -/
theorem chars_of_truth? (h : truth? s = some p) : ∃ d cs, trimChars s.toList = d :: cs ∧
    d.toLower = '!' ∧ '.' ∉ trimChars s.toList := by
  obtain ⟨rest, hlower, hrest⟩ : ∃ rest,
      (trimChars s.toList).map Char.toLower = '!' :: rest ∧ '.' ∉ rest := by
    unfold truth? at h
    dsimp only at h
    split_ifs at h with htrue hfalse
    · exact ⟨_, htrue, by decide⟩
    · exact ⟨_, hfalse, by decide⟩
  obtain ⟨d, cs, hcs, hd, rfl⟩ := List.map_eq_cons_iff.mp hlower
  refine ⟨d, cs, hcs, hd, fun hmem => ?_⟩
  have hlowered : Char.toLower '.' ∈ '!' :: cs.map Char.toLower :=
    hlower ▸ List.mem_map_of_mem hmem
  rcases List.mem_cons.mp hlowered with heq | hmem
  · exact absurd heq (by decide)
  · exact hrest hmem

theorem not_isDigit_of_toLower {d : Char} (hd : d.toLower = '!') : ¬isDigit d := by
  intro hdigit
  rw [toLower_of_isDigit hdigit] at hd
  subst hd
  cases hdigit

/-- No truth value is a number. -/
theorem number?_of_truth? (h : truth? s = some p) : number? s = none := by
  obtain ⟨d, cs, hcs, hd, hpoint⟩ := chars_of_truth? h
  have hdigit := not_isDigit_of_toLower hd
  have hsign : splitSign (d :: cs) = (false, d :: cs) := by
    unfold splitSign
    split
    next heq => cases heq; cases hd
    next heq => cases heq; cases hd
    next => rfl
  unfold number? integer?
  dsimp only
  rw [if_neg (mt List.contains_iff_mem.mp hpoint), hcs, hsign]
  dsimp only
  rw [if_pos (Or.inr (by simp [hdigit])), Option.map_none]

theorem meaning_of_truth? (h : truth? s = some p) : meaning s = .truth p := by
  unfold meaning
  rw [number?_of_truth? h, h]

theorem meaning_cases (s : String) : (∃ x, number? s = some x ∧ meaning s = .number (place x)) ∨
    (∃ p, truth? s = some p ∧ meaning s = .truth p) ∨ meaning s = .text (trim s) := by
  unfold meaning
  split
  next x hx => exact .inl ⟨x, hx, rfl⟩
  next =>
    split
    next p hp => exact .inr (.inl ⟨p, hp, rfl⟩)
    next => exact .inr (.inr rfl)

/-! ## Ways to compare -/

theorem none_or_none {α β : Type} {m : Option α} {n : Option β}
    (h : ∀ x y, m = some x → n = some y → False) : m = none ∨ n = none := by
  rcases m with _ | x
  · exact .inl rfl
  · exact .inr (Option.eq_none_iff_forall_ne_some.mpr fun y hy => h x y rfl hy)

theorem compareFloats_eq (hx : x.isNaN = false) (hy : y.isNaN = false) :
    compareFloats x y = some (compare (place x) (place y)) := by
  unfold compareFloats
  simp only [lt_iff hx hy, beq_iff hx hy, lt_iff hy hx]
  split_ifs with hlt heq hgt
  · rw [compare_lt_iff_lt.mpr hlt]
  · rw [compare_eq_iff_eq.mpr heq]
  · rw [compare_gt_iff_gt.mpr hgt]
  · exact absurd (lt_trichotomy (place x) (place y)) (by tauto)

/-- How two operands compare, by the class that both belong to. -/
inductive Compares (a b : String) : Ordering → Prop where
  | numbers {x y : Float} (hx : number? a = some x) (hy : number? b = some y) :
      Compares a b (compare (place x) (place y))
  | truths {p q : Bool} (hp : truth? a = some p) (hq : truth? b = some q) :
      Compares a b (compare p q)
  | texts (hnumber : number? a = none ∨ number? b = none)
      (htruth : truth? a = none ∨ truth? b = none) : Compares a b (compare (trim a) (trim b))

theorem exists_compares (a b : String) : ∃ o, compareOperands a b = some o ∧ Compares a b o := by
  unfold compareOperands
  split
  next x y hx hy =>
    exact ⟨_, compareFloats_eq (isNaN_of_number? hx) (isNaN_of_number? hy), .numbers hx hy⟩
  next hnumber =>
    split
    next p q hp hq => exact ⟨_, rfl, .truths hp hq⟩
    next htruth => exact ⟨_, rfl, .texts (none_or_none hnumber) (none_or_none htruth)⟩

namespace Compares

theorem eq_some (h : Compares a b o) : compareOperands a b = some o := by
  unfold compareOperands
  cases h with
  | numbers hx hy =>
    rw [hx, hy]
    exact compareFloats_eq (isNaN_of_number? hx) (isNaN_of_number? hy)
  | truths hp hq => rw [number?_of_truth? hp, hp, hq]
  | texts hnumber htruth =>
    rcases hnumber with hnumber | hnumber <;> rcases htruth with htruth | htruth <;>
      simp [hnumber, htruth]

theorem swap (h : Compares a b o) : Compares b a o.swap := by
  cases h with
  | numbers hx hy =>
    rw [← Std.OrientedOrd.eq_swap]
    exact .numbers hy hx
  | truths hp hq =>
    rw [← Std.OrientedOrd.eq_swap]
    exact .truths hq hp
  | texts hnumber htruth =>
    rw [← Std.OrientedOrd.eq_swap]
    exact .texts hnumber.symm htruth.symm

/-- Operands that compare as equal are those with one meaning. -/
theorem eq_iff (h : Compares a b o) : o = .eq ↔ meaning a = meaning b := by
  cases h with
  | numbers hx hy =>
    rw [meaning_of_number? hx, meaning_of_number? hy, Meaning.number.injEq]
    exact compare_eq_iff_eq
  | truths hp hq =>
    rw [meaning_of_truth? hp, meaning_of_truth? hq, Meaning.truth.injEq]
    exact Std.compare_eq_iff_eq
  | texts hnumber htruth =>
    rw [Std.compare_eq_iff_eq]
    refine ⟨meaning_congr, fun h => ?_⟩
    rcases meaning_cases a with ⟨x, hx, ha⟩ | ⟨p, hp, ha⟩ | ha <;>
      rcases meaning_cases b with ⟨y, hy, hb⟩ | ⟨q, hq, hb⟩ | hb <;>
        rw [ha, hb] at h <;> try contradiction
    -- Two numbers or two truth values do not compare as texts.
    · exact absurd hnumber (by simp [hx, hy])
    · exact absurd htruth (by simp [hp, hq])
    · exact Meaning.text.inj h

end Compares

theorem compareOperands_congr {a' b' : String} (ha : trim a' = trim a) (hb : trim b' = trim b) :
    compareOperands a' b' = compareOperands a b := by
  unfold compareOperands
  rw [number?_congr ha, number?_congr hb, truth?_congr ha, truth?_congr hb, ha, hb]

/-! ## Laws -/

/-- An optional text, and the same text with blanks around it. -/
inductive Padded : Option String → Option String → Prop where
  | none : Padded none none
  | some {l r : String} (hl : ∀ c ∈ l.toList, isBlank c) (hr : ∀ c ∈ r.toList, isBlank c)
      (s : String) : Padded (some s) (some (l ++ s ++ r))

/-- The operator that says how two operands compare. -/
def symbol : Ordering → String
  | .lt => "<"
  | .eq => "=="
  | .gt => ">"

/-- The laws of comparisons between three operands. -/
structure Lawful (a b c : Option String) : Prop where
  trichotomy : ∃! op, op ∈ ["<", "==", ">"] ∧ holds a b (some op)
  different : holds a b (some "!=") = !holds a b (some "==")
  greaterOrEqual : holds a b (some ">=") = !holds a b (some "<")
  lessOrEqual : ∀ op ∈ ["<=", "=<"], holds a b (some op) = !holds a b (some ">")
  converse : holds a b (some "<") = holds b a (some ">")
  refl : holds a a (some "==")
  symm : holds a b (some "==") = holds b a (some "==")
  trans : holds a b (some "==") → holds b c (some "==") → holds a c (some "==")
  padded : ∀ a' b' op op', Padded a a' → Padded b b' → Padded op op' →
    holds a' b' op' = holds a b op

section

variable {a a' b b' : Option String}

theorem Padded.trim_eq (h : Padded a a') : trim (a'.getD "") = trim (a.getD "") := by
  cases h with
  | none => rfl
  | some hl hr s =>
    simp only [trim, Option.getD_some, String.toList_append, trimChars_padded hl hr]

theorem Padded.parse?_eq (h : Padded a a') : a'.bind Operator.parse? = a.bind Operator.parse? := by
  cases h with
  | none => rfl
  | some hl hr s =>
    have htrim := (Padded.some hl hr s).trim_eq
    simp only [Option.getD_some] at htrim
    simp only [Option.bind_some, Operator.parse?, htrim]

theorem holds_eq {op : Operator} (hop : Operator.parse? s = some op)
    (h : Compares (a.getD "") (b.getD "") o) : holds a b (some s) = op.holds (some o) := by
  unfold holds
  rw [Option.bind_some, hop, h.eq_some]

theorem holds_text (op : Operator) (h : Compares (a.getD "") (b.getD "") o) :
    holds a b (some op.text) = op.holds (some o) := holds_eq op.parse?_text h

theorem holds_equals_iff :
    holds a b (some "==") ↔ meaning (a.getD "") = meaning (b.getD "") := by
  obtain ⟨o, -, h⟩ := exists_compares (a.getD "") (b.getD "")
  rw [← h.eq_iff, show holds a b (some "==") = _ from holds_text .equals h]
  exact decide_eq_true_iff

end

theorem lawful (a b c : Option String) : Lawful a b c := by
  obtain ⟨o, -, h⟩ := exists_compares (a.getD "") (b.getD "")
  have hequals : holds a b (some "==") = _ := holds_text .equals h
  have hless : holds a b (some "<") = _ := holds_text .lessThan h
  have hgreater : holds a b (some ">") = _ := holds_text .greaterThan h
  constructor
  case trichotomy =>
    have hsymbol : ∀ op ∈ ["<", "==", ">"], holds a b (some op) ↔ op = symbol o := by
      simp only [List.forall_mem_cons, hless, hequals, hgreater]
      cases o <;> simp [Operator.holds, symbol]
    have hmem : symbol o ∈ ["<", "==", ">"] := by cases o <;> decide
    exact ⟨_, ⟨hmem, (hsymbol _ hmem).mpr rfl⟩, fun op hop => (hsymbol op hop.1).mp hop.2⟩
  case different =>
    rw [hequals, show holds a b (some "!=") = _ from holds_text .different h]
    cases o <;> rfl
  case greaterOrEqual =>
    rw [hless, show holds a b (some ">=") = _ from holds_text .greaterThanOrEqual h]
    cases o <;> rfl
  case lessOrEqual =>
    intro op hop
    have hparse : Operator.parse? op = some .lessThanOrEqual := by
      revert op
      decide +kernel
    rw [hgreater, holds_eq hparse h]
    cases o <;> rfl
  case converse =>
    rw [hless, show holds b a (some ">") = _ from holds_text .greaterThan h.swap]
    cases o <;> rfl
  case refl => exact holds_equals_iff.mpr rfl
  case symm => exact Bool.eq_iff_iff.mpr (by rw [holds_equals_iff, holds_equals_iff, eq_comm])
  case trans =>
    simp only [holds_equals_iff]
    exact Eq.trans
  case padded =>
    intro a' b' op op' ha hb hop
    unfold holds
    rw [hop.parse?_eq, compareOperands_congr ha.trim_eq hb.trim_eq]

/-- The order is not transitive. -/
example : holds (some "9") (some "10") (some "<") ∧ holds (some "10") (some "1a") (some "<") ∧
    holds (some "1a") (some "9") (some "<") := by decide +kernel

end Condition

end SnapBlocks
