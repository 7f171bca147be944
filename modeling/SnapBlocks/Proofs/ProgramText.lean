import SnapBlocks.Program.Codec
import SnapBlocks.Proofs.Calls
import SnapBlocks.Proofs.Decoding

/-! The text of a program gives the program back, if it nests no deeper than a text may. -/

namespace SnapBlocks

open Json Decoder

variable {n : Nat} {x : Call} {c : Chain} {p : Program}

theorem InputType.valueOf?_name (t : InputType) : valueOf? names t.name = some t := by
  cases t <;> decide

theorem InputMode.valueOf?_name (m : InputMode) : valueOf? names m.name = some m := by
  cases m <;> decide

theorem BoundInput.restores (i : BoundInput) :
    BoundInput.fields.decoder.Restores n i.toJson i := by
  have hfields : BoundInput.fields.Restores n _ i := .map <|
    .cons (restores_text i.id) (by simp) <|
    .cons (restores_text i.name) (by simp) <|
    .cons (restores_text i.internalName) (by simp) <|
    .cons (restores_oneOf i.inputType.valueOf?_name) (by simp) <|
    .cons (restores_oneOf i.mode.valueOf?_name) (by simp) <|
    .cons (restores_ofText? i.key) (by simp) <|
    .field (restores_text i.segmentName)
  exact hfields.decoder.mono (Nat.le_succ n)

/-- Inputs and branches are listed by ascending segment id. -/
structure Call.Ordered (x : Call) : Prop where
  inputs : Ascending x.inputs
  branches : Ascending x.branches

instance (l : List (String × α)) : Decidable (Ascending l) :=
  inferInstanceAs (Decidable (l.Pairwise _))

instance (x : Call) : Decidable x.Ordered :=
  decidable_of_iff (Ascending x.inputs ∧ Ascending x.branches)
    ⟨fun ⟨hi, hb⟩ => ⟨hi, hb⟩, fun hx => ⟨hx.inputs, hx.branches⟩⟩

theorem Call.inputsJson_restores (l : List (String × List BoundInput)) :
    (table (list BoundInput.fields.decoder)).Restores n (Call.inputsJson l)
      (Table.ofPairs l) := by
  have hlist (p : String × List BoundInput) :
      (list BoundInput.fields.decoder).Restores n (.ofList BoundInput.toJson p.2) p.2 :=
    (restores_list fun i _ => i.restores).mono (Nat.le_succ n)
  exact (restores_table fun p _ => hlist p).mono (Nat.le_succ n)

theorem Chain.toItems_eq_map (c : Chain) : Chain.toItems c = c.map Call.toJson := by
  induction c with
  | nil => rw [Chain.toItems]; rfl
  | cons x rest ih => rw [Chain.toItems, ih]; rfl

theorem Chain.toJson_eq (c : Chain) : c.toJson = .obj [("calls", .ofList Call.toJson c)] := by
  rw [Chain.toJson, Chain.wrap, Chain.toItems_eq_map]
  rfl

/-- A branch as a value. -/
def Branch.toJson (b : Branch) : Json :=
  .obj [("segmentName", .str b.segmentName), ("body", Chain.toJson b.body)]

theorem Branch.toMembers_eq_map (l : List (String × Branch)) :
    Branch.toMembers l = l.map fun p => (p.1, Branch.toJson p.2) := by
  induction l with
  | nil => rw [Branch.toMembers]; rfl
  | cons p rest ih =>
    obtain ⟨id, name, body⟩ := p
    rw [Branch.toMembers, ih]
    rfl

section
variable {chain : Decoder Chain}

theorem Branch.restores {b : Branch} (h : chain.Restores n (Chain.toJson b.body) b.body) :
    (Branch.fields chain).decoder.Restores n (Branch.toJson b) b := by
  have hfields : (Branch.fields chain).Restores n _ b := .map <|
    .cons (restores_text b.segmentName) (by simp) <|
    .field h
  exact hfields.decoder.mono (Nat.le_succ n)

theorem Scope.restores {scope : Option Chain}
    (h : ∀ c ∈ scope.toList, chain.Restores n (Chain.toJson c) c) :
    (Fields.omittable "scope" chain).Restores n (Scope.toMembers scope) scope := by
  cases scope with
  | none => rw [Scope.toMembers]; exact .absent
  | some c =>
    rw [Scope.toMembers]
    exact .field (h c (List.mem_singleton_self c)).some

/-- The branches of a call as a member, if there are any. -/
def Branch.toMember (l : List (String × Branch)) : List (String × Json) :=
  if l.isEmpty then [] else [("branches", .obj (Branch.toMembers l))]

theorem Branch.restores_table {l : List (String × Branch)}
    (h : ∀ p ∈ l, chain.Restores n (Chain.toJson p.2.body) p.2.body) :
    (Fields.defaulted "branches" (table (Branch.fields chain).decoder) ∅).Restores n
      (Branch.toMember l) (Table.ofPairs l) := by
  cases l with
  | nil => exact .absent
  | cons p rest =>
    have htable := Decoder.restores_table fun p hp => Branch.restores (h p hp)
    rw [← Branch.toMembers_eq_map] at htable
    exact .field (htable.mono (Nat.le_succ n))

theorem Call.mk_eta (x : Call) : .mk x.target x.block x.inputs x.branches x.scope = x := by
  cases x
  rfl

theorem Call.toJson_eq (x : Call) : x.toJson = .obj (("target", .str x.target) ::
    ("block", .str x.block) :: ("inputs", Call.inputsJson x.inputs) ::
      (Branch.toMember x.branches ++ Scope.toMembers x.scope)) := by
  obtain ⟨_, _, _, _, _⟩ := x
  rw [Call.toJson]
  rfl

theorem Scope.key_of_mem {scope : Option Chain} {p : String × Json}
    (hp : p ∈ Scope.toMembers scope) : p.1 = "scope" := by
  cases scope with
  | none => rw [Scope.toMembers] at hp; cases hp
  | some c => rw [Scope.toMembers] at hp; cases List.mem_singleton.mp hp; rfl

theorem Branch.key_of_mem {l : List (String × Branch)} {p : String × Json}
    (hp : p ∈ Branch.toMember l) : p.1 = "branches" := by
  cases l with
  | nil => cases hp
  | cons => cases List.mem_singleton.mp hp; rfl

theorem Call.notMem_keys {key : String} (hb : key ≠ "branches") (hs : key ≠ "scope") (x : Call) :
    key ∉ (Branch.toMember x.branches ++ Scope.toMembers x.scope).map (·.1) := by
  intro hm
  obtain ⟨p, hp, rfl⟩ := List.mem_map.mp hm
  rcases List.mem_append.mp hp with hp | hp
  · exact hb (Branch.key_of_mem hp)
  · exact hs (Scope.key_of_mem hp)

/-- A call is restored if the chains in it are. -/
theorem Call.restores (hx : x.Ordered)
    (h : ∀ c ∈ x.bodies, chain.Restores n (Chain.toJson c) c) :
    (Call.fields chain).decoder.Restores n x.toJson x := by
  have hbranches := Branch.restores_table fun p hp =>
    h p.2.body (List.mem_append_left _ (List.mem_map_of_mem hp))
  have hscope := Scope.restores fun c hc => h c (List.mem_append_right _ hc)
  have hrest := hbranches.and hscope fun p hp => Fields.ignores_field (by
    rw [Scope.key_of_mem hp]
    decide)
  have hfields : (Call.fields chain).Restores n _ (Call.mk x.target x.block
      (Table.ofPairs x.inputs).toList (Table.ofPairs x.branches).toList x.scope) := .map <|
    .cons (restores_text x.target) (List.not_mem_cons_of_ne_of_not_mem (by simp)
      (List.not_mem_cons_of_ne_of_not_mem (by simp) (x.notMem_keys (by decide) (by decide)))) <|
    .cons (restores_text x.block) (List.not_mem_cons_of_ne_of_not_mem (by simp)
      (x.notMem_keys (by decide) (by decide))) <|
    .cons (Call.inputsJson_restores x.inputs) (x.notMem_keys (by decide) (by decide)) hrest
  rw [Table.toList_ofPairs hx.inputs, Table.toList_ofPairs hx.branches, x.mk_eta] at hfields
  rw [Call.toJson_eq]
  exact hfields.decoder.mono (Nat.le_succ n)

end

/-- A chain is decoded with as many levels as chains may nest in it. -/
theorem Chain.restores_of_calls (h : ∀ y ∈ c, ∀ n,
    (Call.fields (Chain.decoderTo n)).decoder.Restores n y.toJson y) (n : Nat) :
    (Chain.decoderTo n).Restores n c.toJson c := by
  rw [Chain.toJson_eq]
  cases n with
  | zero =>
    have hlist := restores_list fun y hy => h y hy 0
    exact ⟨⟨hlist.legible, trivial⟩, nofun⟩
  | succ n =>
    have hlist := restores_list fun y hy => h y hy n
    have hfields : (Fields.required "calls" (list (Call.fields (Chain.decoderTo n)).decoder)).Restores
      (n + 1) _ c := .field hlist
    exact hfields.decoder.mono (Nat.le_succ _)

theorem Call.restores_decoderTo (x : Call) : (∀ y ∈ x.calls, y.Ordered) → ∀ n,
    (Call.fields (Chain.decoderTo n)).decoder.Restores n x.toJson x := by
  induction x using Call.induct with
  | h x ih =>
    intro hx n
    refine Call.restores (hx x x.mem_calls_self) fun c hc => ?_
    have hc' := Call.bodies_all hx hc
    exact Chain.restores_of_calls (fun y hy => ih c hc y hy (hc'.call hy)) n

theorem Chain.restores (hc : Chain.All Call.Ordered c) (n : Nat) :
    (Chain.decoderTo n).Restores n c.toJson c :=
  Chain.restores_of_calls (fun y hy => y.restores_decoderTo (hc.call hy)) n

/-! ## Programs from texts -/

section
variable {chain : Decoder Chain} (h : chain.Makes (Chain.All Call.Ordered))
include h

theorem Branch.makes :
    (Branch.fields chain).decoder.Makes fun b => Chain.All Call.Ordered b.body := by
  have hfields : (Branch.fields chain).Makes (fun b => Chain.All Call.Ordered b.body) _ :=
    .map (.and (.required .any) (.required h)) fun _ hb => hb.2
  exact hfields.decoder

/-- A call that is decoded lists its inputs and branches in order, and so do the calls in it. -/
theorem Call.makes : (Call.fields chain).decoder.Makes fun x => ∀ y ∈ x.calls, y.Ordered := by
  have hbranches := (Branch.makes h).table
  have hfields : (Call.fields chain).Makes (fun x => ∀ y ∈ x.calls, y.Ordered) _ :=
    .map (.and (.required .any) <| .and (.required .any) <| .and (.required .any) <|
      .and (.defaulted hbranches nofun) (.omittable h)) ?_
  · exact hfields.decoder
  rintro ⟨target, block, inputs, branches, scope⟩ ⟨-, -, -, hbranches, hscope⟩ y hy
  rw [Call.calls_eq] at hy
  rcases List.mem_cons.mp hy with rfl | hy
  · exact ⟨Table.toList_ascending, Table.toList_ascending⟩
  rcases List.mem_append.mp hy with hy | hy
  · rw [Branch.calls_eq_flatMap] at hy
    obtain ⟨p, hp, hy⟩ := List.mem_flatMap.mp hy
    exact hbranches p hp y hy
  · cases scope with
    | none => rw [Call.scope_mk, Scope.calls_none] at hy; cases hy
    | some c => rw [Call.scope_mk, Scope.calls_some] at hy; exact hscope c rfl y hy

end

theorem Chain.all_of_calls {P : Call → Prop} (h : ∀ x ∈ c, ∀ y ∈ x.calls, P y) :
    Chain.All P c := by
  intro y hy
  rw [Chain.calls_eq_flatMap] at hy
  obtain ⟨x, hx, hy⟩ := List.mem_flatMap.mp hy
  exact h x hx y hy

theorem Chain.makes (n : Nat) : (Chain.decoderTo n).Makes (Chain.All Call.Ordered) := by
  induction n with
  | zero => exact ⟨nofun⟩
  | succ n ih =>
    have hfields : (Fields.required "calls" (list (Call.fields (Chain.decoderTo n)).decoder)).Makes
        (fun c => ∀ x ∈ c, ∀ y ∈ x.calls, y.Ordered) _ := .required (Call.makes ih).list
    exact ⟨fun hc => Chain.all_of_calls (hfields.decoder.of_ok hc)⟩

/-- The calls of a program list their inputs and branches in order, at every depth. -/
def Program.Ordered (p : Program) : Prop := ∀ x ∈ p.calls, x.Ordered

theorem Program.ordered_of_ofText {text : String} (h : Program.ofText text = .ok p) :
    p.Ordered := by
  have hfields : ((Fields.required "entries" (list Chain.decoder)).map fun entries =>
      (⟨entries⟩ : Program)).Makes Program.Ordered _ :=
    .map (.required (Chain.makes _).list) fun entries hentries x hx => by
      obtain ⟨c, hc, hx⟩ := List.mem_flatMap.mp hx
      exact hentries c hc x hx
  exact hfields.decoder.of_decode h

/-- **A program comes back from its text**, unless its text nests too deep. -/
theorem Program.ofText_toText (hp : p.Ordered) :
    Program.ofText p.toText = within p.toJson.depth levels p := by
  have hchain (c : Chain) (hc : c ∈ p.entries) :
      Chain.decoder.Restores (levels + 1) (Chain.toJson c) c :=
    Chain.restores (fun x hx => hp x (List.mem_flatMap.mpr ⟨c, hc, hx⟩)) _
  have hfields : ((Fields.required "entries" (list Chain.decoder)).map fun entries =>
      (⟨entries⟩ : Program)).Restores (levels + 2) [("entries", .ofList Chain.toJson p.entries)] p :=
    .map (.field (restores_list hchain))
  have hdecoder : Program.decoder.Restores (levels + 1) p.toJson p :=
    hfields.decoder.mono (Nat.le_add_right _ 2)
  exact hdecoder.decode_toPretty

/-- **Just the programs whose calls list everything in order, and whose texts nest no deeper than a
text may, come back from their texts.** -/
theorem Program.ofText_toText_eq_ok :
    Program.ofText p.toText = .ok p ↔ p.Ordered ∧ p.toJson.depth ≤ levels := by
  constructor
  · intro h
    have hp := Program.ordered_of_ofText h
    refine ⟨hp, Nat.le_of_not_lt fun hlt => ?_⟩
    rw [Program.ofText_toText hp, within_of_lt hlt] at h
    cases h
  · rintro ⟨hp, hdepth⟩
    rw [Program.ofText_toText hp, within_of_le hdepth]

/-- A branch in a branch, a scope without calls, inputs with and without a key, an empty chain, and
texts with quotes, a backslash, control characters and characters of four bytes. -/
def Program.ornate : Program where
  entries := [
    [.mk "if" "the \"first\"" [
        ("", []),
        ("seg\\ment", [⟨"a", "line\nbreak", "\t\x00\x1f", .operand, .read, none, "ü𝄞"⟩,
          ⟨"", "", "", .operator, .write, some "\x7f/", ""⟩])]
      [("body", ⟨"", [.mk "while" "b" [] [("body", ⟨"\x7b\x7d", [.mk "log" "c" [] [] none]⟩)] none]⟩),
        ("else", ⟨"null", []⟩)] none,
      .mk "" "" [] [] (some [])],
    []]

theorem Program.ofText_toText_ornate : Program.ofText ornate.toText = .ok ornate := by
  refine Program.ofText_toText_eq_ok.mpr ⟨?_, by decide⟩
  unfold Program.Ordered
  decide

end SnapBlocks
