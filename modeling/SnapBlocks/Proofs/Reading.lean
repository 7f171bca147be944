import SnapBlocks.Json.Node
import SnapBlocks.Json.Printer
import Mathlib.Data.List.DropRight

/-! The reader reads what the printers write. `Reads` says that some tree is read from the front of
a text; brackets, commas, colons and blanks keep it so, which is all that the two forms of a text
differ in. Each character of a text pays for one step of the reader. -/

namespace SnapBlocks.Json

variable {n : Node} {ns : List Node} {ms : List (Key × Node)} {text rest behind : List Char}
variable {j : Json} {c : Char} {s : String} {fuel level : Nat}

/-! ## Texts in quotes -/

theorem hexDigit?_digitChar : ∀ d < 16, hexDigit? (Nat.digitChar d) = some d := by decide

/-- The escape of a control character names it. -/
theorem hexPiece?_control (hc : c.toNat < 0x20) :
    hexPiece? '0' '0' (Nat.digitChar (c.toNat / 16)) (Nat.digitChar (c.toNat % 16)) =
      some (.char c) := by
  have hzero : hexDigit? '0' = some 0 := rfl
  unfold hexPiece?
  rw [hzero, hexDigit?_digitChar _ (by omega), hexDigit?_digitChar _ (Nat.mod_lt _ (by omega))]
  have hunit : ((0 * 16 + 0) * 16 + c.toNat / 16) * 16 + c.toNat % 16 = c.toNat := by omega
  simp only [Option.bind_eq_bind, Option.bind_some, hunit]
  rw [if_neg (by omega), Char.ofNat_toNat]
  rfl

theorem readPieces_escaped {e : Char} (he : e ≠ 'u') (h : escaped? e = some c)
    (pieces : List Piece) (rest : List Char) :
    readPieces pieces ('\\' :: e :: rest) = readPieces (.char c :: pieces) rest := by
  rw [readPieces.eq_def]
  simp only [if_neg he, h, if_true, show ¬ '\\' = '"' by decide, if_false]

theorem readPieces_control (hc : c.toNat < 0x20) (pieces : List Piece) (rest : List Char) :
    readPieces pieces ('\\' :: 'u' :: '0' :: '0' :: Nat.digitChar (c.toNat / 16) ::
      Nat.digitChar (c.toNat % 16) :: rest) = readPieces (.char c :: pieces) rest := by
  rw [readPieces.eq_def]
  simp only [hexPiece?_control hc, if_true, show ¬ '\\' = '"' by decide, if_false]

theorem readPieces_plain (hquote : c ≠ '"') (hslash : c ≠ '\\') (hc : ¬ c.toNat < 0x20)
    (pieces : List Piece) (rest : List Char) :
    readPieces pieces (c :: rest) = readPieces (.char c :: pieces) rest := by
  rw [readPieces.eq_def]
  simp only [if_neg hquote, if_neg hslash, if_neg hc]

theorem readPieces_quotedChar (pieces : List Piece) (c : Char) (rest : List Char) :
    readPieces pieces (quotedChar c ++ rest) = readPieces (.char c :: pieces) rest := by
  have hshort {e : Char} (he : e ≠ 'u') (h : escaped? e = some c) :
      readPieces pieces (['\\', e] ++ rest) = readPieces (.char c :: pieces) rest :=
    readPieces_escaped he h pieces rest
  unfold quotedChar
  split
  next h => exact hshort (by decide) (by rw [h]; rfl)
  next hquote =>
    split
    next h => exact hshort (by decide) (by rw [h]; rfl)
    next hslash =>
      split
      next h => exact hshort (by decide) (by rw [h]; rfl)
      split
      next h => exact hshort (by decide) (by rw [h]; rfl)
      split
      next h => exact hshort (by decide) (by rw [h]; rfl)
      split
      next h => exact hshort (by decide) (by rw [h]; rfl)
      split
      next h => exact hshort (by decide) (by rw [h]; rfl)
      split
      next hc => exact readPieces_control hc pieces rest
      next hc => exact readPieces_plain hquote hslash hc pieces rest

theorem readPieces_quoted (pieces : List Piece) (cs behind : List Char) :
    readPieces pieces (cs.foldr (fun c text => quotedChar c ++ text) ('"' :: behind)) =
      ((cs.map .char).reverse ++ pieces, .ok behind) := by
  induction cs generalizing pieces with
  | nil => rw [List.foldr_nil, readPieces.eq_def]; rfl
  | cons c rest ih =>
    rw [List.foldr_cons, readPieces_quotedChar, ih, List.map_cons, List.reverse_cons,
      List.append_assoc]
    rfl

theorem joinPieces_char (cutOff : Bool) (cs : List Char) :
    joinPieces cutOff (cs.map .char) = some cs := by
  induction cs with
  | nil => rfl
  | cons c rest ih => rw [List.map_cons, joinPieces, ih]; rfl

/-- A text comes back from its quotes. -/
theorem readText_quoted (s : String) (behind : List Char) :
    readText (s.toList.foldr (fun c text => quotedChar c ++ text) ('"' :: behind)) =
      (some s, .ok behind) := by
  unfold readText
  rw [readPieces_quoted]
  simp only [List.append_nil, List.reverse_reverse, joinPieces_char, Option.map_some,
    String.ofList_toList]

/-! ## Reading from the front of a text -/

/-- Whatever stands in front of `behind` is read, with as much fuel as it has characters. -/
structure Consumes {ρ : Type} (read : Nat → List Char → ρ) (result : ρ) (text behind : List Char) :
    Prop where
  shorter : behind.length < text.length
  run {fuel : Nat} : text.length ≤ fuel + behind.length → read fuel text = result

/-- What stands in front of `behind` is read as a tree. -/
abbrev Reads (n : Node) (text behind : List Char) : Prop :=
  Consumes readValue (n, some behind) text behind

/-- What stands in front of `behind` is read as items, with the bracket that closes them. -/
abbrev ReadsItems (first : Bool) (ns : List Node) (text behind : List Char) : Prop :=
  Consumes (readItems · first) (ns, none, some behind) text behind

/-- What stands in front of `behind` is read as members, with the brace that closes them. -/
abbrev ReadsMembers (first : Bool) (ms : List (Key × Node)) (text behind : List Char) : Prop :=
  Consumes (readMembers · first) (ms, none, some behind) text behind

theorem skipSpace_cons_of_space (hc : isSpace c) : skipSpace (c :: text) = skipSpace text :=
  List.dropWhile_cons_of_pos hc

theorem skipSpace_cons_of_not_space (hc : ¬ isSpace c) : skipSpace (c :: text) = c :: text :=
  List.dropWhile_cons_of_neg hc

theorem skipSpace_skipSpace (text : List Char) : skipSpace (skipSpace text) = skipSpace text :=
  List.dropWhile_idempotent _ text

theorem length_skipSpace_le (text : List Char) : (skipSpace text).length ≤ text.length :=
  (List.dropWhile_sublist _).length_le

theorem skipSpace_lineBreak (level : Nat) (text : List Char) :
    skipSpace (lineBreak level text) = skipSpace text := by
  unfold lineBreak
  rw [skipSpace_cons_of_space rfl]
  exact List.dropWhile_append_of_pos fun c hc => by rw [List.eq_of_mem_replicate hc]; rfl

theorem length_le_lineBreak (level : Nat) (text : List Char) :
    text.length ≤ (lineBreak level text).length := by
  unfold lineBreak
  rw [List.length_cons, List.length_append]
  omega

/-- A reader that starts by skipping blanks. -/
class SkipsSpace {ρ : Type} (read : Nat → List Char → ρ) : Prop where
  read_skipSpace (fuel : Nat) (text : List Char) : read fuel (skipSpace text) = read fuel text

instance : SkipsSpace readValue where
  read_skipSpace fuel text := by cases fuel <;> simp only [readValue, skipSpace_skipSpace]

instance (first : Bool) : SkipsSpace (readItems · first) where
  read_skipSpace fuel text := by cases fuel <;> simp only [readItems, skipSpace_skipSpace]

instance (first : Bool) : SkipsSpace (readMembers · first) where
  read_skipSpace fuel text := by cases fuel <;> simp only [readMembers, skipSpace_skipSpace]

theorem readValue_skipSpace (fuel : Nat) (text : List Char) :
    readValue fuel (skipSpace text) = readValue fuel text :=
  SkipsSpace.read_skipSpace fuel text

namespace Consumes

variable {ρ : Type} {read : Nat → List Char → ρ} {result : ρ}

theorem of_succ (hlt : behind.length < text.length)
    (h : ∀ fuel, text.length ≤ fuel + 1 + behind.length → read (fuel + 1) text = result) :
    Consumes read result text behind where
  shorter := hlt
  run {fuel} hlen := by
    cases fuel with
    | zero => omega
    | succ fuel => exact h fuel hlen

/-- Blanks may stand in front. -/
theorem of_skipSpace [SkipsSpace read] (h : Consumes read result text behind)
    (hskip : skipSpace rest = skipSpace text) (hlen : text.length ≤ rest.length) :
    Consumes read result rest behind where
  shorter := Nat.lt_of_lt_of_le h.shorter hlen
  run {fuel} hfuel := by
    have hread (text : List Char) : read fuel (skipSpace text) = read fuel text :=
      SkipsSpace.read_skipSpace fuel text
    rw [← hread rest, hskip, hread]
    exact h.run (hlen.trans hfuel)

theorem blank [SkipsSpace read] (hc : isSpace c) (h : Consumes read result text behind) :
    Consumes read result (c :: text) behind :=
  h.of_skipSpace (skipSpace_cons_of_space hc) (Nat.le_succ _)

theorem lineBreak [SkipsSpace read] (level : Nat) (h : Consumes read result text behind) :
    Consumes read result (lineBreak level text) behind :=
  h.of_skipSpace (skipSpace_lineBreak level text) (length_le_lineBreak level text)

end Consumes

namespace Reads

/-- A value starts with a character that closes no array. -/
theorem start (h : Reads n text behind) : ∃ c rest, skipSpace text = c :: rest ∧ c ≠ ']' := by
  have hread := h.run (Nat.le_add_right _ _)
  obtain ⟨fuel, hfuel⟩ := Nat.exists_eq_succ_of_ne_zero (Nat.ne_zero_of_lt h.shorter)
  rw [hfuel, readValue] at hread
  cases hskip : skipSpace text with
  | nil => rw [hskip] at hread; cases hread
  | cons c rest =>
    refine ⟨c, rest, rfl, ?_⟩
    rintro rfl
    rw [hskip] at hread
    cases hread

theorem null (behind : List Char) : Reads .null (compact .null behind) behind :=
  .of_succ (by simp only [compact, List.length_cons]; omega) fun _ _ => by rw [compact]; rfl

theorem bool (b : Bool) (behind : List Char) :
    Reads (.bool b) (compact (.bool b) behind) behind := by
  cases b with
  | true =>
    exact .of_succ (by simp only [compact, List.length_cons]; omega) fun _ _ => by rw [compact]; rfl
  | false =>
    exact .of_succ (by simp only [compact, List.length_cons]; omega) fun _ _ => by rw [compact]; rfl

theorem arr (h : ReadsItems true ns text behind) :
    Reads (.arr ns none) ('[' :: text) behind := by
  refine .of_succ (Nat.lt_succ_of_lt h.shorter) fun fuel hlen => ?_
  rw [List.length_cons] at hlen
  have hitems := h.run (show text.length ≤ fuel + behind.length by omega)
  rw [readValue, skipSpace_cons_of_not_space (by decide)]
  simp only [hitems]
  rfl

theorem obj (h : ReadsMembers true ms text behind) :
    Reads (.obj ms none) ('\x7b' :: text) behind := by
  refine .of_succ (Nat.lt_succ_of_lt h.shorter) fun fuel hlen => ?_
  rw [List.length_cons] at hlen
  have hmembers := h.run (show text.length ≤ fuel + behind.length by omega)
  rw [readValue, skipSpace_cons_of_not_space (by decide)]
  simp only [hmembers]
  rfl

end Reads

theorem length_quoted (s : String) (behind : List Char) :
    behind.length + 1 < (quoted s behind).length := by
  unfold quoted
  rw [List.length_cons]
  induction s.toList with
  | nil => simp
  | cons c rest ih => rw [List.foldr_cons, List.length_append]; omega

theorem skipSpace_quoted (s : String) (behind : List Char) :
    skipSpace (quoted s behind) = quoted s behind := skipSpace_cons_of_not_space (by decide)

theorem Reads.str (s : String) (behind : List Char) :
    Reads (.str s) (quoted s behind) behind := by
  refine .of_succ (Nat.lt_of_succ_lt (length_quoted s behind)) fun fuel _ => ?_
  change readTextNode _ = _
  unfold readTextNode
  rw [readText_quoted]

namespace ReadsItems

variable {b : Bool}

/-- The bracket that ends the items. -/
theorem close (b : Bool) (behind : List Char) : ReadsItems b [] (']' :: behind) behind :=
  .of_succ (Nat.lt_succ_self _) fun _ _ => rfl

/-- The first item stands right behind the opening bracket. -/
theorem first (h : Reads n text rest) (hs : ReadsItems false ns rest behind) :
    ReadsItems true (n :: ns) text behind := by
  refine .of_succ (hs.shorter.trans h.shorter) fun fuel hlen => ?_
  obtain ⟨c, t, hstart, hc⟩ := h.start
  have hlt := hs.shorter
  have hlt' := h.shorter
  have hvalue := h.run (show text.length ≤ fuel + rest.length by omega)
  have hitems := hs.run (show rest.length ≤ fuel + behind.length by omega)
  rw [← readValue_skipSpace, hstart] at hvalue
  rw [readItems, hstart]
  simp only [if_neg hc, true_or, if_true, List.head?_cons, Option.some.injEq, hvalue, hitems]

/-- Any other item stands behind a comma. -/
theorem next (h : Reads n text rest) (hs : ReadsItems false ns rest behind) :
    ReadsItems false (n :: ns) (',' :: text) behind := by
  refine .of_succ (Nat.lt_succ_of_lt (hs.shorter.trans h.shorter)) fun fuel hlen => ?_
  rw [List.length_cons] at hlen
  obtain ⟨c, t, hstart, hc⟩ := h.start
  have hlt := hs.shorter
  have hlt' := h.shorter
  have hvalue := h.run (show text.length ≤ fuel + rest.length by omega)
  have hitems := hs.run (show rest.length ≤ fuel + behind.length by omega)
  rw [← readValue_skipSpace, hstart] at hvalue
  rw [readItems, skipSpace_cons_of_not_space (by decide)]
  simp only [show ¬ ',' = ']' by decide, if_false, Bool.false_eq_true, or_true, if_true, hstart,
    List.head?_cons, Option.some.injEq, if_neg hc, hvalue, hitems]

end ReadsItems

namespace ReadsMembers

variable {b : Bool} {k : String} {gap : List Char}

/-- The brace that ends the members. -/
theorem close (b : Bool) (behind : List Char) : ReadsMembers b [] ('\x7d' :: behind) behind :=
  .of_succ (Nat.lt_succ_self _) fun _ _ => rfl

/-- The first member stands right behind the opening brace. -/
theorem first (h : Reads n text rest) (hs : ReadsMembers false ms rest behind) :
    ReadsMembers true ((.text k, n) :: ms) (quoted k (':' :: text)) behind := by
  have hlong := length_quoted k (':' :: text)
  rw [List.length_cons] at hlong
  have hlt := hs.shorter
  have hlt' := h.shorter
  refine .of_succ (by omega) fun fuel hlen => ?_
  have hvalue := h.run (show text.length ≤ fuel + rest.length by omega)
  have hmembers := hs.run (show rest.length ≤ fuel + behind.length by omega)
  unfold quoted
  rw [readMembers, skipSpace_cons_of_not_space (by decide)]
  simp only [show ¬ '"' = '\x7d' by decide, if_false, true_or, if_true, readText_quoted,
    skipSpace_cons_of_not_space (show ¬ isSpace ':' by decide), hvalue, hmembers]

/-- Any other member stands behind a comma and blanks. -/
theorem next (h : Reads n text rest) (hs : ReadsMembers false ms rest behind)
    (hgap : skipSpace gap = quoted k (':' :: text)) :
    ReadsMembers false ((.text k, n) :: ms) (',' :: gap) behind := by
  have hlong := length_quoted k (':' :: text)
  rw [List.length_cons, ← hgap] at hlong
  have hskip := length_skipSpace_le gap
  have hlt := hs.shorter
  have hlt' := h.shorter
  refine .of_succ (by rw [List.length_cons]; omega) fun fuel hlen => ?_
  rw [List.length_cons] at hlen
  have hvalue := h.run (show text.length ≤ fuel + rest.length by omega)
  have hmembers := hs.run (show rest.length ≤ fuel + behind.length by omega)
  unfold quoted at hgap
  rw [readMembers, skipSpace_cons_of_not_space (by decide)]
  simp only [show ¬ ',' = '\x7d' by decide, if_false, Bool.false_eq_true, or_true, if_true, hgap,
    readText_quoted, skipSpace_cons_of_not_space (show ¬ isSpace ':' by decide), hvalue, hmembers]

end ReadsMembers

/-! ## Trees of values -/

/-- What the text of a number is read as. -/
def numeral (text : List Char) : Numeral :=
  match readNumber text with
  | .ok (n, _) => n
  | .error _ => ⟨false, true, 0, 0⟩

mutual
/-- The tree of a value. -/
def node : Json → Node
  | .null => .null
  | .bool b => .bool b
  | .int n => .num (numeral (intChars n))
  | .float x => .num (numeral (floatStyle.chars x))
  | .str s => .str s
  | .arr items => .arr (itemNodes items) none
  | .obj members => .obj (memberNodes members) none

/-- The trees of items. -/
def itemNodes : List Json → List Node
  | [] => []
  | j :: rest => j.node :: itemNodes rest

/-- The trees of members. -/
def memberNodes : List (String × Json) → List (Key × Node)
  | [] => []
  | (k, j) :: rest => (.text k, j.node) :: memberNodes rest
end

/-- Nothing follows that would go on with a number. -/
def Ends (behind : List Char) : Prop :=
  ∀ c ∈ behind.head?, ¬ isDigit c ∧ c ≠ '.' ∧ c ≠ 'e' ∧ c ≠ 'E'

theorem ends_nil : Ends [] := nofun

theorem ends_cons (hc : c = ',' ∨ c = ']' ∨ c = '\x7d' ∨ c = '\n') : Ends (c :: behind) := by
  rintro _ ⟨⟩
  rcases hc with rfl | rfl | rfl | rfl <;> decide

/-- The text of a number is read up to its end. -/
structure NumberText (text : List Char) : Prop where
  start : ∃ c rest, text = c :: rest ∧ (c = '-' ∨ isDigit c)
  read {behind : List Char} : Ends behind →
    readNumber (text ++ behind) = .ok (numeral text, behind)

mutual
/-- All numbers in a value have texts that are read up to their ends. -/
def Legible : Json → Prop
  | .int n => NumberText (intChars n)
  | .float x => NumberText (floatStyle.chars x)
  | .arr items => LegibleItems items
  | .obj members => LegibleMembers members
  | _ => True

/-- All numbers in some items are legible. -/
def LegibleItems : List Json → Prop
  | [] => True
  | j :: rest => j.Legible ∧ LegibleItems rest

/-- All numbers in some members are legible. -/
def LegibleMembers : List (String × Json) → Prop
  | [] => True
  | (_, j) :: rest => j.Legible ∧ LegibleMembers rest
end

theorem Reads.number (h : NumberText text) (hb : Ends behind) :
    Reads (.num (numeral text)) (text ++ behind) behind := by
  obtain ⟨c, rest, rfl, hc⟩ := h.start
  refine .of_succ (by simp only [List.length_append, List.length_cons]; omega) fun fuel _ => ?_
  have hspace : ¬ isSpace c := by
    rcases hc with rfl | hc
    · decide
    · intro hs
      simp only [isSpace, Bool.or_eq_true, decide_eq_true_eq] at hs
      rcases hs with ((rfl | rfl) | rfl) | rfl <;> exact absurd hc (by decide)
  have hword : c ≠ 'n' ∧ c ≠ 't' ∧ c ≠ 'f' ∧ c ≠ '"' := by
    refine ⟨?_, ?_, ?_, ?_⟩ <;> rintro rfl <;> exact absurd hc (by decide)
  rw [List.cons_append, readValue, skipSpace_cons_of_not_space hspace]
  simp only [if_neg hword.1, if_neg hword.2.1, if_neg hword.2.2.1, if_neg hword.2.2.2, if_pos hc]
  unfold readNumberNode
  rw [← List.cons_append, h.read hb]

/-! ## The compact form -/

mutual
theorem reads_compact : ∀ (j : Json) (behind : List Char), j.Legible → Ends behind →
    Reads j.node (j.compact behind) behind
  | .null, behind, _, _ => by rw [node]; exact .null behind
  | .bool b, behind, _, _ => by rw [node]; exact .bool b behind
  | .int n, behind, hj, hb => by rw [Legible] at hj; rw [node, compact]; exact .number hj hb
  | .float x, behind, hj, hb => by rw [Legible] at hj; rw [node, compact]; exact .number hj hb
  | .str s, behind, _, _ => by rw [node, compact]; exact .str s behind
  | .arr items, behind, hj, _ => by
    rw [Legible] at hj
    rw [node, compact]
    exact .arr (readsItems_compact items behind hj).1
  | .obj members, behind, hj, _ => by
    rw [Legible] at hj
    rw [node, compact]
    exact .obj (readsMembers_compact members behind hj).1

/-- Items, first and behind a comma. -/
theorem readsItems_compact : ∀ (items : List Json) (behind : List Char), LegibleItems items →
    ReadsItems true (itemNodes items) (compactItems items (']' :: behind)) behind ∧
      (items ≠ [] →
        ReadsItems false (itemNodes items) (',' :: compactItems items (']' :: behind)) behind)
  | [], behind, _ => by rw [itemNodes, compactItems]; exact ⟨.close true behind, nofun⟩
  | [j], behind, hj => by
    rw [LegibleItems] at hj
    have h := reads_compact j (']' :: behind) hj.1 (ends_cons (by decide))
    rw [itemNodes, itemNodes, compactItems]
    exact ⟨.first h (.close false behind), fun _ => .next h (.close false behind)⟩
  | j :: k :: rest, behind, hj => by
    rw [LegibleItems] at hj
    have h := reads_compact j (',' :: compactItems (k :: rest) (']' :: behind)) hj.1
      (ends_cons (by decide))
    have hs := (readsItems_compact (k :: rest) behind hj.2).2 (List.cons_ne_nil _ _)
    rw [itemNodes, compactItems]
    · exact ⟨.first h hs, fun _ => .next h hs⟩
    · exact nofun

/-- Members, first and behind a comma. -/
theorem readsMembers_compact : ∀ (members : List (String × Json)) (behind : List Char),
    LegibleMembers members →
      ReadsMembers true (memberNodes members) (compactMembers members ('\x7d' :: behind)) behind ∧
        (members ≠ [] → ReadsMembers false (memberNodes members)
          (',' :: compactMembers members ('\x7d' :: behind)) behind)
  | [], behind, _ => by rw [memberNodes, compactMembers]; exact ⟨.close true behind, nofun⟩
  | [(k, j)], behind, hj => by
    rw [LegibleMembers] at hj
    have h := reads_compact j ('\x7d' :: behind) hj.1 (ends_cons (by decide))
    rw [memberNodes, memberNodes, compactMembers]
    exact ⟨.first h (.close false behind),
      fun _ => .next h (.close false behind) (skipSpace_quoted _ _)⟩
  | (k, j) :: m :: rest, behind, hj => by
    rw [LegibleMembers] at hj
    have h := reads_compact j (',' :: compactMembers (m :: rest) ('\x7d' :: behind)) hj.1
      (ends_cons (by decide))
    have hs := (readsMembers_compact (m :: rest) behind hj.2).2 (List.cons_ne_nil _ _)
    rw [memberNodes, compactMembers]
    · exact ⟨.first h hs, fun _ => .next h hs (skipSpace_quoted _ _)⟩
    · exact nofun
end

/-! ## The pretty form -/

theorem skipSpace_lineBreak_quoted (level : Nat) (s : String) (behind : List Char) :
    skipSpace (lineBreak level (quoted s behind)) = quoted s behind :=
  (skipSpace_lineBreak level _).trans (skipSpace_quoted s behind)

mutual
theorem reads_pretty : ∀ (level : Nat) (j : Json) (behind : List Char), j.Legible → Ends behind →
    Reads j.node (j.pretty level behind) behind
  | _, .null, behind, hj, hb | _, .bool _, behind, hj, hb | _, .int _, behind, hj, hb
  | _, .float _, behind, hj, hb | _, .str _, behind, hj, hb | _, .arr [], behind, hj, hb
  | _, .obj [], behind, hj, hb => by
    rw [pretty]
    · exact reads_compact _ behind hj hb
    · exact nofun
    · exact nofun
  | level, .arr (j :: rest), behind, hj, _ => by
    rw [Legible] at hj
    rw [node, pretty]
    exact .arr (readsItems_pretty (level + 1) (j :: rest) _ behind (List.cons_ne_nil _ _) hj
      (ends_cons (by decide)) ((ReadsItems.close false behind).lineBreak _)).1
  | level, .obj (m :: rest), behind, hj, _ => by
    rw [Legible] at hj
    rw [node, pretty]
    exact .obj (readsMembers_pretty (level + 1) (m :: rest) _ behind (List.cons_ne_nil _ _) hj
      (ends_cons (by decide)) ((ReadsMembers.close false behind).lineBreak _)).1

/-- Items in front of what closes them, first and behind a comma. -/
theorem readsItems_pretty : ∀ (level : Nat) (items : List Json) (text behind : List Char),
    items ≠ [] → LegibleItems items → Ends text → ReadsItems false [] text behind →
      ReadsItems true (itemNodes items) (prettyItems level items text) behind ∧
        ReadsItems false (itemNodes items) (',' :: prettyItems level items text) behind
  | _, [], _, _, hne, _, _, _ => absurd rfl hne
  | level, [j], text, behind, _, hj, ht, hclose => by
    rw [LegibleItems] at hj
    have h := (reads_pretty level j text hj.1 ht).lineBreak level
    rw [itemNodes, itemNodes, prettyItems]
    exact ⟨.first h hclose, .next h hclose⟩
  | level, j :: k :: rest, text, behind, _, hj, ht, hclose => by
    rw [LegibleItems] at hj
    have h := (reads_pretty level j (',' :: prettyItems level (k :: rest) text) hj.1
      (ends_cons (by decide))).lineBreak level
    have hs := (readsItems_pretty level (k :: rest) text behind (List.cons_ne_nil _ _) hj.2 ht
      hclose).2
    rw [itemNodes, prettyItems]
    · exact ⟨.first h hs, .next h hs⟩
    · exact nofun

/-- Members in front of what closes them, first and behind a comma. -/
theorem readsMembers_pretty : ∀ (level : Nat) (members : List (String × Json))
    (text behind : List Char), members ≠ [] → LegibleMembers members → Ends text →
      ReadsMembers false [] text behind →
      ReadsMembers true (memberNodes members) (prettyMembers level members text) behind ∧
        ReadsMembers false (memberNodes members) (',' :: prettyMembers level members text) behind
  | _, [], _, _, hne, _, _, _ => absurd rfl hne
  | level, [(k, j)], text, behind, _, hj, ht, hclose => by
    rw [LegibleMembers] at hj
    have h := (reads_pretty level j text hj.1 ht).blank (c := ' ') rfl
    rw [memberNodes, memberNodes, prettyMembers]
    exact ⟨(ReadsMembers.first h hclose).lineBreak _,
      .next h hclose (skipSpace_lineBreak_quoted _ _ _)⟩
  | level, (k, j) :: m :: rest, text, behind, _, hj, ht, hclose => by
    rw [LegibleMembers] at hj
    have h := (reads_pretty level j (',' :: prettyMembers level (m :: rest) text) hj.1
      (ends_cons (by decide))).blank (c := ' ') rfl
    have hs := (readsMembers_pretty level (m :: rest) text behind (List.cons_ne_nil _ _) hj.2 ht
      hclose).2
    rw [memberNodes, prettyMembers]
    · exact ⟨(ReadsMembers.first h hs).lineBreak _, .next h hs (skipSpace_lineBreak_quoted _ _ _)⟩
    · exact nofun
end

/-! ## Whole texts -/

theorem Reads.readNode (h : Reads n text []) : readNode text = (n, none) := by
  unfold Json.readNode
  rw [h.run (by rw [List.length_nil]; omega)]
  rfl

/-- **The reader reads what the printers write.** -/
theorem Legible.readNode_pretty (hj : j.Legible) : readNode j.toPretty.toList = (j.node, none) := by
  unfold toPretty
  rw [String.toList_ofList]
  exact (reads_pretty 0 j [] hj ends_nil).readNode

theorem Legible.readNode_compact (hj : j.Legible) :
    readNode j.toCompact.toList = (j.node, none) := by
  unfold toCompact
  rw [String.toList_ofList]
  exact (reads_compact j [] hj ends_nil).readNode

end SnapBlocks.Json
