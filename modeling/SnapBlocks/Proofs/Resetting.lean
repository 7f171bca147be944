import SnapBlocks.Proofs.Arrangement
import SnapBlocks.Proofs.Bindings
import SnapBlocks.Proofs.Replay

/-! Resets. A reset frees an input of its variable and its text, whatever edits came before it, and
changes nothing else. It leaves the flag of a constant as the edits left it, so that the input is as
in a new block just if it is no constant then. -/

namespace SnapBlocks

/-! ## Inputs by their ids -/

theorem find?_of_mem {l : List InputBinding} (hn : (l.map (·.declaration.id)).Nodup)
    {i : InputBinding} (hi : i ∈ l) :
    l.find? (·.declaration.id = i.declaration.id) = some i := by
  induction l with
  | nil => cases hi
  | cons j rest ih =>
    rw [List.map_cons, List.nodup_cons] at hn
    rcases List.mem_cons.mp hi with rfl | hi
    · exact List.find?_cons_of_pos (by simp)
    · have hne : j.declaration.id ≠ i.declaration.id := fun he =>
        hn.1 (he ▸ List.mem_map_of_mem hi)
      rw [List.find?_cons_of_neg (by simpa using hne), ih hn.2 hi]

/-- Inputs with the same declarations are the same if they are bound alike. -/
theorem bindings_ext {l m : List InputBinding} (hn : (l.map (·.declaration.id)).Nodup)
    (hd : l.map (·.declaration) = m.map (·.declaration))
    (hfind : ∀ x, l.find? (·.declaration.id = x) = m.find? (·.declaration.id = x)) : l = m := by
  have listed {l : List InputBinding} (hn : (l.map (·.declaration.id)).Nodup) :
      l.map some = (l.map (·.declaration)).map fun d => l.find? (·.declaration.id = d.id) := by
    rw [List.map_map]
    exact List.map_congr_left fun i hi => (find?_of_mem hn hi).symm
  have hids := congrArg (List.map (·.id)) hd
  rw [List.map_map, List.map_map] at hids
  have hn' : (m.map (·.declaration.id)).Nodup := (hids ▸ hn :)
  refine List.map_injective_iff.mpr (fun _ _ => Option.some.inj) ?_
  rw [listed hn, listed hn', hd]
  exact List.map_congr_left fun d _ => hfind d.id

/-! ## Blocks without bindings -/

theorem Block.input?_mapInputs {f : InputBinding → InputBinding}
    (hf : ∀ i, (f i).declaration = i.declaration) (b : Block) (k x : String) :
    (b.mapInputs f).input? k x = (b.input? k x).map f := by
  unfold input?
  rw [getElem?_mapInputs, Option.bind_map, Option.map_bind]
  refine congrArg _ (funext fun l => ?_)
  rw [Function.comp_apply, List.find?_map]
  exact congrArg (fun p => (l.find? p).map f) (funext fun i => by rw [Function.comp_apply, hf])

/-- A new block has inputs that name nothing. -/
theorem Block.inputs_fresh_eq {b : Block} (hf : b.Filled) (hc : b.definition.Coherent)
    (id : BlockId) (pos : Point) : (fresh id b.definition pos).inputs = b.unbound.inputs := by
  refine Table.ext fun k => ?_
  rw [Document.pending_fresh hf hc id pos, unbound, getElem?_mapInputs]
  split
  · rfl
  next hk =>
    cases hl : b.inputs[k]? with
    | none => rfl
    | some l =>
      obtain ⟨s, hs, _, hid⟩ := hf.segment_of hl
      exact absurd (List.mem_map.mpr ⟨s, hs, hid⟩) hk

theorem Block.input?_fresh {b : Block} (hf : b.Filled) (hc : b.definition.Coherent)
    (id : BlockId) (pos : Point) (k x : String) :
    (fresh id b.definition pos).input? k x = (b.input? k x).map InputBinding.unbound := by
  rw [input?, inputs_fresh_eq hf hc]
  exact b.input?_mapInputs (f := InputBinding.unbound) (fun _ => rfl) k x

/-- Reset all inputs of a block. -/
def Block.resetInputs (b : Block) : Block := b.mapInputs InputBinding.reset

theorem Block.unbound_resetInputs (b : Block) : b.resetInputs.unbound = b.unbound := by
  refine congrArg (fun t => { b with inputs := t }) (Table.ext fun k => ?_)
  refine (getElem?_mapInputs _ _ k).trans (.trans ?_ (getElem?_mapInputs _ _ k).symm)
  rw [resetInputs, getElem?_mapInputs, Option.map_map]
  exact congrArg (Option.map · _) (funext fun l => List.map_map)

/-- Nothing is in a block but what it is without bindings, and how its inputs are bound. -/
theorem Block.Filled.eq_of_unbound {b b' : Block} (hf : b.Filled) (hc : b.definition.Coherent)
    (hu : b.unbound = b'.unbound) (hat : ∀ k x, b.input? k x = b'.input? k x) : b = b' := by
  have hinputs : b.inputs = b'.inputs := by
    refine Table.ext fun k => ?_
    have hk : b.unbound.inputs[k]? = b'.unbound.inputs[k]? := by rw [hu]
    rw [unbound, unbound, getElem?_mapInputs, getElem?_mapInputs] at hk
    cases hl : b.inputs[k]? with
    | none =>
      rw [hl] at hk
      exact (Option.map_eq_none_iff.mp hk.symm).symm
    | some l =>
      rw [hl, Option.map_some, eq_comm, Option.map_eq_some_iff] at hk
      obtain ⟨m, hm, hml⟩ := hk
      have hd := congrArg (List.map (·.declaration)) hml
      rw [List.map_map, List.map_map] at hd
      rw [hm]
      refine congrArg some (bindings_ext (hf.ids_nodup hc hl) hd.symm fun x => ?_)
      simpa only [input?, hl, hm, Option.bind_some] using hat k x
  calc
    b = { b.unbound with inputs := b.inputs } := rfl
    _ = { b'.unbound with inputs := b'.inputs } := by rw [hu, hinputs]
    _ = b' := rfl

/-! ## Saved inputs -/

/-- A saved segment without the flags of constants. -/
def SavedSegment.plain (s : SavedSegment) : SavedSegment :=
  { s with inputs := s.inputs.map fun i => { i with constant := false } }

namespace Document

variable {b : Block}

theorem saveSegments_mapInputs (f : InputBinding → InputBinding) (b : Block) :
    saveSegments (b.mapInputs f) = b.definition.segments.map fun s =>
      ⟨s.id, ((b.inputs[s.id]?).getD []).map fun i => saveInput (f i)⟩ := by
  refine List.map_congr_left fun s _ => congrArg (SavedSegment.mk s.id) ?_
  rw [b.getElem?_mapInputs]
  cases b.inputs[s.id]? with
  | none => rfl
  | some l => exact List.map_map

theorem saveSegments_fresh (hf : b.Filled) (hc : b.definition.Coherent) (id : BlockId)
    (pos : Point) : saveSegments (.fresh id b.definition pos) = saveSegments b.unbound := by
  unfold saveSegments
  rw [Block.inputs_fresh_eq hf hc]
  rfl

theorem plain_saveSegments_resetInputs (b : Block) :
    (saveSegments b.resetInputs).map SavedSegment.plain = saveSegments b.unbound := by
  rw [Block.resetInputs, Block.unbound, saveSegments_mapInputs, saveSegments_mapInputs,
    List.map_map]
  refine List.map_congr_left fun s _ => congrArg (SavedSegment.mk s.id) ?_
  exact List.map_map

/-- A block whose inputs were reset is saved like a new one just if none of them is a constant. -/
theorem saveSegments_resetInputs_iff (hf : b.Filled) (hc : b.definition.Coherent) :
    saveSegments b.resetInputs = saveSegments b.unbound ↔
      ∀ seg input i, b.input? seg input = some i → i.constant = false := by
  rw [Block.resetInputs, Block.unbound, saveSegments_mapInputs, saveSegments_mapInputs,
    List.map_inj_left]
  constructor
  · intro h seg input i hi
    obtain ⟨l, hl, hfind⟩ := Option.bind_eq_some_iff.mp hi
    obtain ⟨s, hs, _, rfl⟩ := hf.segment_of hl
    have hsaved := congrArg SavedSegment.inputs (h s hs)
    rw [hl] at hsaved
    have hi := List.map_inj_left.mp hsaved i (List.mem_of_find?_eq_some hfind)
    exact congrArg SavedInput.constant hi
  · intro h s hs
    refine congrArg (SavedSegment.mk s.id) (List.map_congr_left fun i hi => ?_)
    cases hl : b.inputs[s.id]? with
    | none => simp [hl] at hi
    | some l =>
      rw [hl, Option.getD_some] at hi
      have hfind := find?_of_mem (hf.ids_nodup hc hl) hi
      have hconst := h s.id i.declaration.id i (by rw [Block.input?, hl]; exact hfind)
      rw [i.reset_eq, hconst]
      rfl

end Document

namespace Graph

variable {ok : Definition → Prop} {g h : Graph} {b : Block} {id : BlockId} {c : InputPlace}
variable {i : InputBinding} {ops : List Operation} {cells : List (String × String)}

theorem Sound.eq_of_unbound (S : g.Sound ok) (hok : ∀ d, ok d → d.Coherent)
    (hu : g.unbound = h.unbound) (hat : ∀ c, g.inputAt c = h.inputAt c) : g = h := by
  refine ext (congrArg config hu :) (congrArg catalog hu :) (congrArg layout hu :) (fun id => ?_)
    (fun k => (congrArg (·.snaps[k]?) hu :)) (congrArg notches hu :) (congrArg divots hu :)
    (congrArg drag hu :)
  cases hb : g.blocks[id]? with
  | none =>
    refine (Option.eq_none_iff_forall_ne_some.mpr fun b' hb' => ?_).symm
    obtain ⟨_, hb'', _⟩ := exists_block_of_unbound hu.symm hb'
    cases hb.symm.trans hb''
  | some b =>
    obtain ⟨b', hb', hbb⟩ := exists_block_of_unbound hu hb
    rw [hb']
    refine congrArg some ((S.filled hb).eq_of_unbound (hok _ (S.defined hb)) hbb fun k x => ?_)
    rw [← inputAt_of_block hb, ← inputAt_of_block hb', hat]

/-! ## All inputs of a block -/

/-- The resets of some inputs of a block. -/
def resetEach (id : BlockId) (cells : List (String × String)) : List Operation :=
  cells.map fun s => .resetInput id s.1 s.2

theorem edit?_of_mem_resetEach : ∀ op ∈ resetEach id cells, op.edit?.isSome := by
  intro op hop
  obtain ⟨s, _, rfl⟩ := List.mem_map.mp hop
  rfl

/-- To reset an input again makes no difference. -/
theorem rebindAll_resetEach (cells : List (String × String)) (i : InputBinding) :
    rebindAll (resetEach id cells) c i =
      if c.block = id ∧ (c.segment, c.input) ∈ cells then i.reset else i := by
  induction cells generalizing i with
  | nil => simp [resetEach, rebindAll]
  | cons s rest ih =>
    have hstep : rebindAll (resetEach id (s :: rest)) c i =
        rebindAll (resetEach id rest) c (if ⟨id, s.1, s.2⟩ = c then i.reset else i) := rfl
    rw [hstep, ih]
    by_cases hs : ⟨id, s.1, s.2⟩ = c
    · subst hs
      rw [if_pos rfl, i.reset_reset, ite_self, if_pos ⟨rfl, List.mem_cons_self⟩]
    · have hne : c.block = id → (c.segment, c.input) ≠ s := by
        rintro rfl rfl
        exact hs rfl
      rw [if_neg hs]
      refine if_congr (and_congr_right fun hid => ?_) rfl rfl
      rw [List.mem_cons, or_iff_right (hne hid)]

theorem inputAt_resetInputs : (g.modifyBlock id Block.resetInputs).inputAt c =
    (g.inputAt c).map fun i => if c.block = id then i.reset else i := by
  unfold inputAt
  rw [modifyBlock, Table.getElem?_modify]
  by_cases hid : id = c.block
  · rw [if_pos hid, Option.bind_map, Option.map_bind]
    simp only [hid, if_true]
    refine congrArg _ (funext fun b => ?_)
    exact b.input?_mapInputs (f := InputBinding.reset) (fun _ => rfl) c.segment c.input
  · simp [hid, Ne.symm hid]

/-- Resetting all inputs of a block resets these, and changes nothing else. -/
theorem Reachable.after_resetEach (hg : Reachable ok g) (hok : ∀ d, ok d → d.Coherent)
    (hcells : ∀ seg input, (g.inputAt ⟨id, seg, input⟩).isSome → (seg, input) ∈ cells) :
    g.after (resetEach id cells) = g.modifyBlock id Block.resetInputs := by
  have hedits : ∀ op ∈ resetEach id cells, op.edit?.isSome := edit?_of_mem_resetEach
  refine ((hg.after hedits).sound hok).eq_of_unbound hok ?_ fun c => ?_
  · rw [unbound_after hedits, unbound_modifyBlock Block.unbound_resetInputs]
  · rw [inputAt_after hedits, inputAt_resetInputs]
    refine Option.map_congr fun i hi => ?_
    rw [rebindAll_resetEach]
    refine if_congr (and_iff_left_of_imp ?_) rfl rfl
    rintro rfl
    exact hcells c.segment c.input (Option.isSome_of_mem hi)

theorem Reachable.saved_resetEach (hg : Reachable Definition.Coherent g)
    (hb : g.blocks[id]? = some b)
    (hcells : ∀ seg input, (g.inputAt ⟨id, seg, input⟩).isSome → (seg, input) ∈ cells) :
    ∃ d s, Document.ofGraph (g.after (resetEach id cells)) = .ok d ∧ d.blocks[id]? = some s ∧
      s.segments = Document.saveSegments b.resetInputs := by
  have hedits : ∀ op ∈ resetEach id cells, op.edit?.isSome := edit?_of_mem_resetEach
  have S := (hg.after hedits).sound fun _ h => h
  have hb' : (g.after (resetEach id cells)).blocks[id]? = some b.resetInputs := by
    rw [hg.after_resetEach (fun _ h => h) hcells, modifyBlock, Table.getElem?_modify_self, hb,
      Option.map_some]
  obtain ⟨d, hd, R⟩ := Document.ofGraph_eq S.toBase
  obtain ⟨s, hs⟩ := Document.exists_saveBlock S.toStocked S.placed hb'
  exact ⟨d, s, hd, R.blocks.mpr ⟨trivial, _, hb', hs⟩, (Document.saveBlock_eq_ok hs).2.1⟩

/-! ## Sessions -/

/-- An input of a block that is just made names nothing. -/
theorem findInput_insertDefinition (hf : b.Filled) (hc : b.definition.Coherent)
    {seg input : String} (hi : b.input? seg input = some i) (pos : Point) :
    ((Operation.insertDefinition id b.definition pos).apply g).findInput id seg input =
      .ok i.unbound := by
  have hnew := (getElem?_blocks_withNew (g := g) (b := .fresh id b.definition pos) id).trans
    (if_pos rfl)
  rw [← apply_insertDefinition] at hnew
  refine findInput_eq_ok (c := ⟨id, seg, input⟩).mpr ((inputAt_of_block hnew seg input).trans ?_)
  exact (Block.input?_fresh hf hc id pos seg input).trans (by rw [hi]; rfl)

theorem resetInput_run {seg input : String} (hi : g.inputAt ⟨id, seg, input⟩ = some i) :
    (resetInput id seg input).run g = (.ok (), (Operation.resetInput id seg input).apply g) := by
  have hfind : g.findInput id seg input = .ok i := findInput_eq_ok (c := ⟨id, seg, input⟩).mpr hi
  have hrun : (changeInput id seg input InputBinding.reset).run g =
      (.ok i.reset, g.modifyBlock id (·.modifyInput seg input InputBinding.reset)) := by
    unfold changeInput
    rw [Edit.run_bind_ok (by rw [Edit.run_ask, hfind]), Edit.run_bind_ok (Edit.run_change _),
      Edit.run_pure]
  have hreset : (resetInput id seg input).run g = (.ok (), _) :=
    Edit.run_bind_ok hrun fun _ => pure ()
  exact Prod.ext (by rw [hreset]) rfl

/-- **What resets come to** after some edits of the inputs in a graph, for a block of it. -/
structure Resets (g : Graph) (ops : List Operation) (id : BlockId) (b : Block) : Prop where
  /-- In a block that is just made of the same definition an input names nothing. -/
  made {seg input : String} {i : InputBinding} (h : Graph) (id' : BlockId) (pos : Point) :
    b.input? seg input = some i →
      ((Operation.insertDefinition id' b.definition pos).apply h).findInput id' seg input =
        .ok i.unbound
  answer {seg input : String} {i : InputBinding} : b.input? seg input = some i →
    (resetInput id seg input).run (g.after ops) =
      (.ok (), (Operation.resetInput id seg input).apply (g.after ops))
  /-- When it is reset it names nothing again, but keeps the flag that the edits gave it last. -/
  reset {seg input : String} {i : InputBinding} : b.input? seg input = some i →
    ((Operation.resetInput id seg input).apply (g.after ops)).findInput id seg input =
      .ok { i.unbound with
        constant := (ops.filterMap (·.constant? ⟨id, seg, input⟩)).getLast?.getD i.constant }
  others {seg input : String} {c : InputPlace} : c ≠ ⟨id, seg, input⟩ →
    ((Operation.resetInput id seg input).apply (g.after ops)).inputAt c = (g.after ops).inputAt c
  rest {seg input : String} :
    ((Operation.resetInput id seg input).apply (g.after ops)).unbound = (g.after ops).unbound
  /-- When all of its inputs are reset, in whatever order, a block is saved like one that is just
  made, apart from the flags; so with them, just if no input is a constant then. -/
  saved {cells : List (String × String)} (id' : BlockId) (pos : Point) :
    (∀ seg input, (b.input? seg input).isSome → (seg, input) ∈ cells) →
      ∃ d s, Document.ofGraph ((g.after ops).after (resetEach id cells)) = .ok d ∧
        d.blocks[id]? = some s ∧
        s.segments.map SavedSegment.plain =
          Document.saveSegments (.fresh id' b.definition pos) ∧
        (s.segments = Document.saveSegments (.fresh id' b.definition pos) ↔
          ∀ seg input i, (g.after ops).findInput id seg input = .ok i → i.constant = false)

/-- **Resets undo edits**, but for the flags of constants: in every session, after whatever edits,
for every block. -/
theorem Reachable.resets (hg : Reachable Definition.Coherent g)
    (hops : ∀ op ∈ ops, op.edit?.isSome) (hb : g.blocks[id]? = some b) : g.Resets ops id b := by
  have S := hg.sound fun _ h => h
  have hf := S.filled hb
  have hc := S.defined hb
  have hat {seg input i} (hi : b.input? seg input = some i) :
      (g.after ops).inputAt ⟨id, seg, input⟩ = some (rebindAll ops ⟨id, seg, input⟩ i) := by
    rw [inputAt_after hops, inputAt_of_block hb, hi, Option.map_some]
  refine {
    made := fun h id' pos hi => findInput_insertDefinition hf hc hi pos
    answer := fun hi => resetInput_run (hat hi)
    reset := fun {seg input i} hi => ?reset
    others := fun {seg input c} hne => ?others
    rest := unbound_apply rfl
    saved := fun {cells} id' pos hcells => ?saved }
  case reset =>
    refine findInput_eq_ok (c := ⟨id, seg, input⟩).mpr ?_
    rw [inputAt_apply rfl, hat hi, Option.map_some, ← constant_rebindAll, InputBinding.unbound,
      ← declaration_rebindAll ops ⟨id, seg, input⟩ i]
    exact congrArg some (if_pos rfl)
  case others =>
    rw [inputAt_apply rfl]
    exact (Option.map_congr fun i _ => if_neg hne.symm).trans Option.map_id'
  case saved =>
    have hg' := hg.after hops
    have S' := hg'.sound fun _ h => h
    obtain ⟨b', hb', hbb⟩ := exists_block_of_unbound (unbound_after hops).symm hb
    have hcells' seg input (hi : ((g.after ops).inputAt ⟨id, seg, input⟩).isSome) :
        (seg, input) ∈ cells := by
      rw [inputAt_after hops, Option.isSome_map, inputAt_of_block hb] at hi
      exact hcells seg input hi
    obtain ⟨d, s, hd, hs, hsaved⟩ := hg'.saved_resetEach hb' hcells'
    rw [Document.saveSegments_fresh hf hc, hbb]
    refine ⟨d, s, hd, hs, by rw [hsaved, Document.plain_saveSegments_resetInputs], ?_⟩
    rw [hsaved, Document.saveSegments_resetInputs_iff (S'.filled hb') (S'.defined hb')]
    refine forall₃_congr fun seg input i => imp_congr_left ?_
    exact (inputAt_of_block hb' seg input ▸ findInput_eq_ok (c := ⟨id, seg, input⟩)).symm

/-- The first operand of a loop's condition is made a constant. -/
def pinned : List Operation :=
  [.updateInput "b" "while.while" "while.while.varA"
    { displayText := "7", key := "seven", occupied := true, constant := true }]

/-- When that operand is reset it is a constant still, unlike in a loop that is just made. -/
theorem resets_pinned :
    let declared : InputDeclaration := ⟨"while.while.varA", "varA", "Variable A", .operand, .read⟩
    ((Operation.resetInput "b" "while.while" "while.while.varA").apply
        (Document.nestedGraph.after pinned)).findInput "b" "while.while" "while.while.varA" =
      .ok { declaration := declared, constant := true } ∧
    ((Operation.insertDefinition "d" Catalog.whileLoop .origin).apply
        Document.nestedGraph).findInput "d" "while.while" "while.while.varA" =
      .ok { declaration := declared } := by
  intro declared
  have hnested : Document.nestedGraph.inputAt ⟨"b", "while.while", "while.while.varA"⟩ =
      some { declaration := declared } ∧
        Document.nestedGraph.blocks["b"]?.map (·.definition) = some Catalog.whileLoop := by
    decide +kernel
  obtain ⟨hat, hdef⟩ := hnested
  obtain ⟨b, hb, hi⟩ := Option.bind_eq_some_iff.mp hat
  have hloop : b.definition = Catalog.whileLoop := by simpa [hb] using hdef
  have hg := Document.reachable_nestedGraph.mono fun _ hd => hd.toCoherent
  have hedits : ∀ op ∈ pinned, op.edit?.isSome := by decide
  have R := Reachable.resets hg hedits hb
  exact ⟨R.reset hi, hloop ▸ R.made _ "d" .origin hi⟩

end Graph

end SnapBlocks
