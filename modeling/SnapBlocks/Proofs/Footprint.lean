import SnapBlocks.Proofs.Atomic
import SnapBlocks.Proofs.Rewire

/-! What each operation changes, and what it leaves alone. Linking adds one link, and unlinking takes
one away; both put one block somewhere else. Removing a block takes it away with its snap points and
their links, and puts down what hung from it. All passes that follow change no more than heights,
tails and places within blocks, which no part of a footprint shows. -/

namespace SnapBlocks

namespace Graph

/-- The definition of a block. -/
def definitionOf (g : Graph) (id : BlockId) : Option Definition :=
  g.blocks[id]?.map (·.definition)

/-- The inputs of a block, with what they are bound to. -/
def inputsOf (g : Graph) (id : BlockId) : Option (Table (List InputBinding)) :=
  g.blocks[id]?.map (·.inputs)

/-- Where a block is placed. -/
def placementOf (g : Graph) (id : BlockId) : Option Placement := g.blocks[id]?.map (·.placement)

/-- The links of a graph are the pairs with a property, whichever end is asked. -/
def LinksAre (g : Graph) (P : SnapId → SnapId → Prop) : Prop :=
  ∀ n d, (g.Linked n d ↔ P n d) ∧ (g.Hung d n ↔ P n d)

/-- One block is placed anew. All other blocks, all definitions and inputs, the snap points but for
their links, the settings, the registries and the drag stay as they are. -/
structure Replaces (g : Graph) (low : BlockId) (pl : Placement) (h : Graph) : Prop where
  definitions (x : BlockId) : h.definitionOf x = g.definitionOf x
  inputs (x : BlockId) : h.inputsOf x = g.inputsOf x
  placed : h.placementOf low = some pl
  placements {x : BlockId} : x ≠ low → h.placementOf x = g.placementOf x
  stock : h.stock = g.stock
  frame : h.frame = g.frame

/-- What linking changes: a link is added, and the block of the divot is placed at the notch. -/
inductive Connects (g : Graph) (n d : SnapId) : ConnectOutcome → Graph → Prop
  | connected {q : SnapPoint} {c : Connection} {h : Graph} :
      g.snaps[d]? = some q → (∀ e, ¬ g.Linked n e) → (∀ m, ¬ g.Linked m d) →
      h.LinksAre (fun m e => (m = n ∧ e = d) ∨ g.Linked m e) →
      g.Replaces q.block (.attached n (-q.position)) h → Connects g n d (.connected c) h
  | rejected (r : Rejection) : Connects g n d (.rejected r) g

/-- What unlinking changes: a link is taken away, and its block becomes a root where it is; or the
block stays linked, at another offset; or there was no link. -/
inductive Disconnects (g : Graph) (d : SnapId) : DisconnectOutcome → Graph → Prop
  | detached {n : SnapId} {q : SnapPoint} {pos : Point} {c : Connection} {h : Graph} :
      g.Linked n d → g.snaps[d]? = some q → g.globalPosition q.block = .ok pos →
      h.LinksAre (fun m e => g.Linked m e ∧ ¬ (m = n ∧ e = d)) →
      g.Replaces q.block (.root pos) h → Disconnects g d (.detached c) h
  | realigned {n : SnapId} {q : SnapPoint} {old new correction : Point} :
      g.Linked n d → g.snaps[d]? = some q → g.placementOf q.block = some (.attached n old) →
      Disconnects g d (.realigned correction) (g.setPlacement q.block (.attached n new))
  | notLinked : (∀ n, ¬ g.Linked n d) → Disconnects g d .notLinked g

/-- What removing a block changes: it goes with its snap points and their links, and what hung from
it becomes a root where it is. -/
structure Removes (g : Graph) (id : BlockId) (h : Graph) : Prop where
  gone : h.blocks[id]? = none
  snaps_gone {i : SnapId} : g.owner i = .ok id → h.snaps[i]? = none
  snaps {i : SnapId} : g.owner i ≠ .ok id →
    h.snaps[i]?.map SnapPoint.blank = g.snaps[i]?.map SnapPoint.blank
  notches {i : SnapId} : i ∈ h.notches ↔ i ∈ g.notches ∧ g.owner i ≠ .ok id
  divots {i : SnapId} : i ∈ h.divots ↔ i ∈ g.divots ∧ g.owner i ≠ .ok id
  links : h.LinksAre fun m e => g.Linked m e ∧ g.owner m ≠ .ok id ∧ g.owner e ≠ .ok id
  definitions {x : BlockId} : x ≠ id → h.definitionOf x = g.definitionOf x
  inputs {x : BlockId} : x ≠ id → h.inputsOf x = g.inputsOf x
  roots {x : BlockId} : g.HangsFrom x id →
    ∃ pos, g.globalPosition x = .ok pos ∧ h.placementOf x = some (.root pos)
  placements {x : BlockId} : x ≠ id → ¬ g.HangsFrom x id → h.placementOf x = g.placementOf x
  settings : h.config = g.config ∧ h.catalog = g.catalog ∧ h.layout = g.layout
  drag : h.drag = if g.drag.active = some id then {} else g.drag

/-- Letting a block go unlinks it once at most. -/
inductive Releases (g : Graph) (id : BlockId) : Option DisconnectOutcome → Graph → Prop
  | none : Releases g id none g
  | some {b : Block} {d : SnapId} {out : DisconnectOutcome} {h : Graph} :
      g.blocks[id]? = some b → b.primaryDivot = some d → g.Disconnects d out h →
      Releases g id (some out) h

/-- The pending snap is linked once at most. -/
inductive Takes (g : Graph) : Option Candidate → Option ConnectOutcome → Graph → Prop
  | none : Takes g none none g
  | some {c : Candidate} {out : ConnectOutcome} {h : Graph} :
      g.Connects c.notch c.divot out h → Takes g (some c) (some out) h

/-- What the end of a drag changes: the drag is over, the block is unlinked once at most, and then
the pending snap is linked once at most. -/
inductive Drops (g : Graph) (id : BlockId) : Except GraphError DragOutcome → Graph → Prop
  | ignored : g.drag.active ≠ some id → Drops g id (.ok .ignored) g
  | finished {r : Option DisconnectOutcome} {m h : Graph} {out : Option ConnectOutcome} :
      g.drag.active = some id → Releases { g with drag := {} } id r m →
      m.Takes g.drag.pending out h → Drops g id (.ok (.finished r out)) h
  | failed {r : Option DisconnectOutcome} {m : Graph} (x : GraphError) :
      g.drag.active = some id → Releases { g with drag := {} } id r m → Drops g id (.error x) m

/-- The block of which an operation binds an input, or frees one. -/
def Operation.binds (op : Operation) (x : BlockId) : Prop :=
  match op with
  | updateInput id _ _ _ | resetInput id _ _ => x = id
  | _ => False

/-- The block that an operation moves. -/
def Operation.moves (op : Operation) (x : BlockId) : Prop :=
  match op with
  | move id _ | dragMove id _ => x = id
  | _ => False

/-- What an operation leaves alone that neither links nor unlinks: all links, and each part of a
block that it is not about. -/
structure Operation.Keeps (op : Operation) (g h : Graph) : Prop where
  links : h.LinksAre g.Linked
  definitions {x : BlockId} : (∀ d, op.creates g ≠ some (x, d)) →
    h.definitionOf x = g.definitionOf x
  inputs {x : BlockId} : (∀ d, op.creates g ≠ some (x, d)) → ¬ op.binds x →
    h.inputsOf x = g.inputsOf x
  placements {x : BlockId} : (∀ d, op.creates g ≠ some (x, d)) → ¬ op.moves x →
    h.placementOf x = g.placementOf x

variable {ok : Definition → Prop} {g h k : Graph} {b : Block} {id low x : BlockId} {n d : SnapId}
variable {pl : Placement} {op : Operation}

/-! ## Parts of blocks -/

theorem Wired.linksAre (H : h.Wired) {P : SnapId → SnapId → Prop}
    (hl : ∀ n d, h.Linked n d ↔ P n d) : h.LinksAre P :=
  fun n d => ⟨hl n d, H.linked_iff.symm.trans (hl n d)⟩

section
variable (heq : h.shape = g.shape)
include heq

theorem definitionOf_of_shape (x : BlockId) : h.definitionOf x = g.definitionOf x := by
  have hx := congrArg (Option.map Block.definition) (blocks_eq_of_view heq x)
  rwa [Option.map_map, Option.map_map] at hx

theorem inputsOf_of_shape (x : BlockId) : h.inputsOf x = g.inputsOf x := by
  have hx := congrArg (Option.map Block.inputs) (blocks_eq_of_view heq x)
  rwa [Option.map_map, Option.map_map] at hx

theorem placementOf_of_shape (x : BlockId) : h.placementOf x = g.placementOf x := by
  have hx := congrArg (Option.map Block.placement) (blocks_eq_of_view heq x)
  rwa [Option.map_map, Option.map_map] at hx

end

/-- A block is placed anew, whatever becomes of the links. -/
theorem replaces_of_blocks (hlow : low ∈ g.blocks) (heq : h.shape = k.shape)
    (hblocks : ∀ x : BlockId, k.blocks[x]? = (g.setPlacement low pl).blocks[x]?)
    (hstock : h.stock = g.stock) (hframe : h.frame = g.frame) :
    g.Replaces low pl h := by
  have hx (x : BlockId) : k.blocks[x]? =
      if low = x then g.blocks[x]?.map fun b => { b with placement := pl } else g.blocks[x]? :=
    (hblocks x).trans (getElem?_blocks_setPlacement ..)
  refine ⟨fun x => ?_, fun x => ?_, ?_, fun {x} hne => ?_, hstock, hframe⟩
  · rw [definitionOf_of_shape heq, definitionOf, hx, definitionOf]
    split
    · rw [Option.map_map]; rfl
    · rfl
  · rw [inputsOf_of_shape heq, inputsOf, hx, inputsOf]
    split
    · rw [Option.map_map]; rfl
    · rfl
  · obtain ⟨b, hb⟩ := Table.mem_iff.mp hlow
    rw [placementOf_of_shape heq, placementOf, hx, if_pos rfl, hb]
    rfl
  · rw [placementOf_of_shape heq, placementOf, hx, if_neg hne.symm]
    rfl

/-! ## Linking and unlinking -/

theorem Sound.connects (S : g.Sound ok) {out : ConnectOutcome}
    (hrun : (Graph.connect n d).run g = (.ok out, h)) : g.Connects n d out h := by
  have hframe := frame_hides.connect n d g
  have Sh := S.connect n d
  rw [hrun] at hframe Sh
  cases S.linking hrun with
  | rejected r => exact .rejected r
  | @connected p q l _ hp hq J hrefresh =>
    have hshape := shape_hides.refreshAround p.block q.block
      ((g.link n d).setPlacement q.block (.attached n (-q.position)))
    rw [hrefresh] at hshape
    have hw := wires_of_shape hshape
    have hstock : h.stock = g.stock := by
      rw [stock_of_wires hw, stock_setPlacement, stock_link]
    have hfree (e : SnapId) : ¬ g.Linked n e := by
      simp [linked_iff_next hp, J.notch_free]
    refine .connected hq hfree (fun m => ?_) (Sh.linksAre fun m e => ?_)
      (replaces_of_blocks (S.block_mem hq) hshape (fun _ => rfl) hstock hframe)
    · simp [S.linked_iff_previous hq, J.divot_free]
    · rw [linked_congr hw, linked_congr wires_setPlacement, linked_link hp hq (J.ends_ne hp hq)]
      refine or_congr_right (and_iff_right_of_imp fun hl hm => hfree e (hm ▸ hl))

theorem Sound.disconnects (S : g.Sound ok) {out : DisconnectOutcome}
    (hrun : (Graph.disconnect d).run g = (.ok out, h)) : g.Disconnects d out h := by
  have hframe := frame_hides.disconnect d g
  have Sh := S.disconnect d
  rw [hrun] at hframe Sh
  cases S.unlinking hrun with
  | notLinked hno => exact .notLinked hno
  | @realigned n q correction offset hl hq =>
    obtain ⟨b, hb⟩ := S.exists_block hq
    have hd := S.primaryDivot hq (S.isDivot hq ((S.linked_iff_previous hq).mp hl)) hb
    obtain ⟨old, hold⟩ := Placement.anchor_eq_some.mp ((S.seated.anchor_iff hb).mpr ⟨d, hd, hl⟩)
    have hplace : g.placementOf q.block = some (.attached n old) := by
      rw [placementOf, hb, Option.map_some, hold]
    exact .realigned hl hq hplace
  | @detached n p q l _ hl hp hq hrefresh =>
    have hshape := shape_hides.refreshAround p.block q.block (g.cutAt [n])
    rw [hrefresh] at hshape
    have hw := wires_of_shape hshape
    have hlow : q.block ∈ g.blocks := S.block_mem hq
    obtain ⟨pos, hpos⟩ := S.placed.exists_position hlow
    have hcut := S.cutAt_notch (fun _ _ => S.seated.anchor_iff) hl (owner_of_getElem? hq) hpos
    refine .detached hl hq hpos (Sh.linksAre fun m e => ?_)
      (replaces_of_blocks hlow hshape (fun x => by rw [← hcut]; rfl)
        ((stock_of_wires hw).trans stock_cutAt) hframe)
    rw [linked_congr hw, linked_cutAt S.toStocked, List.mem_singleton, List.mem_singleton]
    constructor
    · rintro ⟨hm, _, hme⟩
      exact ⟨hme, fun he => hm he.1⟩
    · rintro ⟨hme, hne⟩
      refine ⟨fun he => hne ⟨he, ?_⟩, fun he => S.not_linked_of_linked hme (he ▸ hl), hme⟩
      exact Linked.eq (he ▸ hme) hl

/-! ## Removing -/

section
variable (S : g.Sound ok) (hb : g.blocks[id]? = some b)
include S hb

/-- What hangs from a block is put down when its notches are cut. -/
theorem Sound.putDown_child (hh : g.HangsFrom x id) {c : Block} (hc : g.blocks[x]? = some c)
    {pos : Point} (hpos : g.globalPosition x = .ok pos) :
    c.putDown g b.snapPoints = { c with placement := .root pos } := by
  obtain ⟨n, d, hl, hn, hd⟩ := S.hangsFrom_iff.mp hh
  obtain ⟨q, hq, rfl⟩ := owner_eq_ok.mp hd
  have hdivot := S.primaryDivot hq (S.isDivot hq ((S.linked_iff_previous hq).mp hl)) hc
  refine putDown_of_mem ((S.seated.anchor_iff hc).mpr ⟨d, hdivot, hl⟩)
    ((S.mem_snapPoints_iff hb).mpr hn) ?_
  rwa [S.block_id hc]

theorem Sound.putDown_other (hno : ¬ g.HangsFrom x id) {c : Block} (hc : g.blocks[x]? = some c) :
    c.putDown g b.snapPoints = c := by
  refine putDown_of_notMem fun n hn hm => hno ?_
  obtain ⟨p, hp, hh⟩ := S.seated.hangsFrom S.toSimple hc hn
  rw [S.mem_snapPoints_iff hb, owner_of_getElem? hp] at hm
  cases hm
  exact hh

end

theorem Sound.removes (S : g.Sound ok) (hrun : (Graph.remove id).run g = (.ok (), h)) :
    g.Removes id h := by
  obtain ⟨b, hb⟩ : ∃ b, g.blocks[id]? = some b := by
    unfold Graph.remove at hrun
    obtain ⟨b, _, hask, _⟩ := Edit.run_bind_eq_ok.mp hrun
    exact ⟨b, block_eq_ok.mp (Edit.run_ask_eq_ok.mp hask).1⟩
  obtain ⟨l, hrefresh, _⟩ := Seated.remove_run S.toSimple S.placed S.seated hb
  obtain ⟨_, hrun', Sh, hshape⟩ := S.remove_run hb
  cases hrun'.symm.trans hrun
  have hframe := frame_hides.refreshAll l (g.without id b.snapPoints)
  rw [← hrefresh, hrun] at hframe
  have hw := wires_of_shape hshape
  have hown {i : SnapId} : i ∈ b.snapPoints ↔ g.owner i = .ok id := S.mem_snapPoints_iff hb
  have hsnaps (i : SnapId) := snaps_eq_of_view (stock_of_wires hw) i
  have hblock {x : BlockId} (hx : x ≠ id) : (g.without id b.snapPoints).blocks[x]? =
      g.blocks[x]?.map (·.putDown g b.snapPoints) := by
    rw [getElem?_blocks_without, if_neg hx.symm]
  have hparts {x : BlockId} (hx : x ≠ id) : h.definitionOf x = g.definitionOf x ∧
      h.inputsOf x = g.inputsOf x := by
    rw [definitionOf_of_shape hshape, inputsOf_of_shape hshape, definitionOf, inputsOf, hblock hx,
      definitionOf, inputsOf]
    cases g.blocks[x]? with
    | none => exact ⟨rfl, rfl⟩
    | some c => exact ⟨congrArg some (Block.eq_of_stem (stem_putDown c)).2,
        congrArg some (Block.core_putDown c).2⟩
  refine {
    gone := blocks_eq_none_of_view hshape.symm (by rw [getElem?_blocks_without, if_pos rfl])
    snaps_gone := fun hi => snaps_eq_none_of_view hshape.symm
      (by rw [getElem?_snaps_without, if_pos (hown.mpr hi)])
    snaps := fun {i} hi => ?_
    notches := fun {i} => ?_
    divots := fun {i} => ?_
    links := Sh.linksAre fun m e => ?_
    definitions := fun hx => (hparts hx).1
    inputs := fun hx => (hparts hx).2
    roots := fun {x} hh => ?_
    placements := fun {x} hx hno => ?_
    settings := ⟨(congrArg config hframe :), (congrArg catalog hframe :), (congrArg layout hframe :)⟩
    drag := (congrArg Graph.drag hframe :) }
  · rw [hsnaps, getElem?_snaps_without, if_neg (mt hown.mp hi), Option.map_map]
    rfl
  · rw [notches_of_frame hframe, Ne, ← hown, and_comm]
    exact TextSet.mem_eraseAll
  · rw [divots_of_frame hframe, Ne, ← hown, and_comm]
    exact TextSet.mem_eraseAll
  · rw [linked_congr hw, linked_without S.toStocked, hown, hown]
    tauto
  · obtain ⟨c, hc⟩ := Table.mem_iff.mp hh.mem_blocks
    obtain ⟨pos, hpos⟩ := S.placed.exists_position hh.mem_blocks
    refine ⟨pos, hpos, ?_⟩
    rw [placementOf_of_shape hshape, placementOf, hblock (S.hangsFrom_ne hh), hc, Option.map_some,
      S.putDown_child hb hh hc hpos]
    rfl
  · rw [placementOf_of_shape hshape, placementOf, hblock hx, placementOf]
    cases hc : g.blocks[x]? with
    | none => rfl
    | some c => rw [Option.map_some, S.putDown_other hb hno hc]

/-! ## The end of a drag -/

theorem Sound.releases (S : g.Sound ok) {r : Option DisconnectOutcome}
    (hrun : (Graph.releaseAbove id).run g = (.ok r, h)) : g.Releases id r h := by
  unfold Graph.releaseAbove at hrun
  obtain ⟨b, _, hask, hrest⟩ := Edit.run_bind_eq_ok.mp hrun
  obtain ⟨hb, rfl⟩ := Edit.run_ask_eq_ok.mp hask
  cases hd : b.primaryDivot with
  | none =>
    rw [hd] at hrest
    cases hrest
    exact .none
  | some d =>
    rw [hd] at hrest
    obtain ⟨q, _, hask, hrest⟩ := Edit.run_bind_eq_ok.mp hrest
    obtain ⟨_, rfl⟩ := Edit.run_ask_eq_ok.mp hask
    split at hrest
    · obtain ⟨out, _, hdisconnect, hdone⟩ := Edit.run_bind_eq_ok.mp hrest
      cases hdone
      exact .some (block_eq_ok.mp hb) hd (S.disconnects hdisconnect)
    · cases hrest
      exact .none

theorem Sound.drops (S : g.Sound Definition.WellFormed) {r : Except GraphError DragOutcome}
    (hrun : (Graph.dragEnd id).run g = (r, h)) : g.Drops id r h := by
  by_cases hactive : g.drag.active = some id
  case neg =>
    cases (dragEnd_idle hactive).symm.trans hrun
    exact .ignored hactive
  have S' := S.setDrag {}
  cases hb : g.blocks[id]? with
  | none =>
    cases (dragEnd_missing hactive hb).symm.trans hrun
    exact .failed _ hactive .none
  | some b =>
    obtain ⟨released, m, hrelease⟩ := S'.releaseAbove_completes (Table.mem_iff.mpr ⟨b, hb⟩)
    have hreleases := S'.releases hrelease
    have Sm := S'.releaseAbove id
    rw [hrelease] at Sm
    have hend := (dragEnd_run hactive hrelease).symm.trans hrun
    cases hpending : g.drag.pending with
    | none =>
      rw [hpending] at hend
      cases hend
      exact .finished hactive hreleases (hpending ▸ .none)
    | some c =>
      rw [hpending] at hend
      rcases hconnect : (Graph.connect c.notch c.divot).run m with ⟨x | out, k⟩
      · -- an end of the pending snap is gone, which is found out before anything is changed
        cases Sm.connect_atomic c.notch c.divot x k hconnect
        cases (Edit.run_bind_error hconnect _).symm.trans hend
        exact .failed x hactive hreleases
      · cases (Edit.run_bind_ok hconnect _).symm.trans hend
        exact .finished hactive hreleases (hpending ▸ .some (Sm.connects hconnect))

/-! ## Other operations -/

theorem Wired.keeps (H : g.Wired) (op : Operation) (heq : h.shape = g.shape) : op.Keeps g h where
  links := (H.of_wires (wires_of_shape heq).symm).linksAre fun _ _ =>
    linked_congr (wires_of_shape heq)
  definitions _ := definitionOf_of_shape heq _
  inputs _ _ := inputsOf_of_shape heq _
  placements _ _ := placementOf_of_shape heq _

/-- What a change of one block leaves alone. -/
theorem Wired.keeps_modifyBlock (H : g.Wired) {f : Block → Block}
    (hstem : ∀ b, (f b).stem = b.stem) (hinputs : ¬ op.binds id → ∀ b, (f b).inputs = b.inputs)
    (hplacement : ¬ op.moves id → ∀ b, (f b).placement = b.placement) :
    op.Keeps g (g.modifyBlock id f) := by
  have hw : (g.modifyBlock id f).wires = g.wires := view_modifyBlock hstem g id
  have hpart {γ : Type} (part : Block → γ) {x : BlockId}
      (hsame : id = x → ∀ b, part (f b) = part b) :
      (g.modifyBlock id f).blocks[x]?.map part = g.blocks[x]?.map part := by
    rw [modifyBlock, Table.getElem?_modify]
    split
    next he =>
      rw [Option.map_map]
      exact Option.map_congr fun b _ => hsame he b
    next => rfl
  exact {
    links := (H.of_wires hw.symm).linksAre fun _ _ => linked_congr hw
    definitions := fun _ => hpart Block.definition fun _ b => (Block.eq_of_stem (hstem b)).2
    inputs := fun {x} _ hno => hpart Block.inputs fun (he : id = x) => hinputs (he ▸ hno)
    placements := fun {x} _ hno =>
      hpart Block.placement fun (he : id = x) => hplacement (he ▸ hno) }

theorem Wired.keeps_withNew (H : g.Wired) (hb : g.blocks[b.id]? = none)
    (hcreates : op.creates g = some (b.id, b.definition)) : op.Keeps g (g.withNew b) := by
  have hw := wires_of_shape (shape_withNew (g := g) b)
  have hblock {x : BlockId} (hno : ∀ d, op.creates g ≠ some (x, d)) :
      (g.withNew b).blocks[x]? = g.blocks[x]? := by
    rw [getElem?_blocks_withNew, if_neg fun (he : b.id = x) => hno _ (he ▸ hcreates)]
  exact {
    links := ((H.addBlock hb).of_wires hw.symm).linksAre fun _ _ =>
      (linked_congr hw).trans (H.linked_addBlock hb)
    definitions := fun hno => by rw [definitionOf, hblock hno, definitionOf]
    inputs := fun hno _ => by rw [inputsOf, hblock hno, inputsOf]
    placements := fun hno _ => by rw [placementOf, hblock hno, placementOf] }

/-- A move leaves the graph, or places the block anew. -/
theorem Wired.keeps_moveBlock (H : g.Wired) (hmoves : op.moves id) (pos : Point) :
    op.Keeps g ((moveBlock id pos).run g).2 := by
  have hplaced (pl : Placement) : op.Keeps g (g.setPlacement id pl) :=
    H.keeps_modifyBlock (fun _ => rfl) (fun _ _ => rfl) fun hno => absurd hmoves hno
  unfold moveBlock
  refine Edit.leaves_ask (H.keeps op rfl) fun b _ => ?_
  split
  · exact hplaced _
  · exact Edit.leaves_ask (H.keeps op rfl) fun _ _ => hplaced _

theorem Wired.keeps_changeInput (H : g.Wired) (hbinds : op.binds id) {seg input : String}
    {f : InputBinding → InputBinding} : op.Keeps g ((changeInput id seg input f).run g).2 := by
  unfold changeInput
  refine Edit.leaves_ask (H.keeps op rfl) fun _ _ => ?_
  exact H.keeps_modifyBlock (fun _ => rfl) (fun hno => absurd hbinds hno) fun _ _ => rfl

/-- Of a graph, its links and the definitions, inputs and placements count. -/
theorem Operation.Keeps.congr {g' h' : Graph} (hk : op.Keeps g h) (hg : g'.shape = g.shape)
    (hcreates : op.creates g' = op.creates g) (hh : h'.shape = h.shape) : op.Keeps g' h' where
  links n d := by
    rw [linked_congr (wires_of_shape hh), hung_congr (wires_of_shape hh),
      linked_congr (wires_of_shape hg)]
    exact hk.links n d
  definitions hx := by
    rw [definitionOf_of_shape hh, definitionOf_of_shape hg, hk.definitions (hcreates ▸ hx)]
  inputs hx hno := by
    rw [inputsOf_of_shape hh, inputsOf_of_shape hg, hk.inputs (hcreates ▸ hx) hno]
  placements hx hno := by
    rw [placementOf_of_shape hh, placementOf_of_shape hg, hk.placements (hcreates ▸ hx) hno]

theorem Wired.keeps_dragMove (H : g.Wired) (hmoves : op.moves id) (pos : Point) :
    op.Keeps g ((dragMove id pos).run g).2 := by
  unfold dragMove
  rw [Edit.run_bind_ok Edit.run_get]
  split
  · exact H.keeps op rfl
  · rw [Edit.run_bind_ok (Edit.run_change _)]
    have hmove := (H.setDrag { g.drag with active := some id }).keeps_moveBlock hmoves pos
    have hcreates : op.creates g = op.creates { g with drag := { g.drag with active := some id } } :=
      by cases op <;> rfl
    refine Edit.leaves_bind (hmove.congr rfl hcreates rfl) fun _ h hh =>
      Edit.leaves_ask hh fun r _ => ?_
    rw [Edit.run_bind_ok (Edit.run_change _), Edit.run_pure]
    exact hh.congr rfl rfl rfl

/-- **An operation that neither links nor unlinks keeps all links**, and each part of a block that
it is not about. -/
theorem Wired.keeps_apply (H : g.Wired) (hfresh : op.Fresh g) (hconnect : ∀ n d, op ≠ .connect n d)
    (hdisconnect : ∀ d, op ≠ .disconnect d) (hremove : ∀ id, op ≠ .remove id)
    (hdragEnd : ∀ id, op ≠ .dragEnd id) : op.Keeps g (op.apply g) := by
  cases op with
  | insert id name pos =>
    rcases apply_insert g id name pos with ⟨_, hsame⟩ | ⟨d, hcreates, hmade⟩
    · rw [hsame]
      exact H.keeps _ rfl
    · rw [hmade]
      exact H.keeps_withNew (hfresh id d hcreates) hcreates
  | insertDefinition id d pos =>
    have hid : g.blocks[id]? = none := hfresh id d rfl
    rw [apply_insertDefinition]
    exact H.keeps_withNew hid rfl
  | remove id => exact absurd rfl (hremove id)
  | move id pos => exact H.keeps_moveBlock (by rfl) pos
  | connect n d => exact absurd rfl (hconnect n d)
  | disconnect d => exact absurd rfl (hdisconnect d)
  | dragMove id pos => exact Edit.leaves_bind (H.keeps_dragMove (by rfl) pos) fun _ _ hh => hh
  | dragEnd id => exact absurd rfl (hdragEnd id)
  | updateInput id seg input u =>
    exact Edit.leaves_bind (H.keeps_changeInput (by rfl)) fun _ _ hh => hh
  | resetInput id seg input =>
    exact Edit.leaves_bind (H.keeps_changeInput (by rfl)) fun _ _ hh => hh
  | adjustHeight id =>
    exact Edit.leaves_bind (H.keeps _ (shape_hides.adjustHeight id g)) fun _ _ hh => hh
  | calculateDeepest id =>
    exact Edit.leaves_bind (H.keeps _ (shape_hides.calculateDeepest id g)) fun _ _ hh => hh

/-! ## Footprints -/

/-- **What each operation changes.** -/
structure Footprint (g : Graph) : Prop where
  connect {n d : SnapId} {out : ConnectOutcome} {h : Graph} :
    (Graph.connect n d).run g = (.ok out, h) → g.Connects n d out h
  disconnect {d : SnapId} {out : DisconnectOutcome} {h : Graph} :
    (Graph.disconnect d).run g = (.ok out, h) → g.Disconnects d out h
  remove {id : BlockId} {h : Graph} : (Graph.remove id).run g = (.ok (), h) → g.Removes id h
  dragEnd {id : BlockId} {r : Except GraphError DragOutcome} {h : Graph} :
    (Graph.dragEnd id).run g = (r, h) → g.Drops id r h
  /-- An operation that fails to link, to unlink or to remove changes nothing. -/
  failed {n d : SnapId} {id : BlockId} :
    (Graph.connect n d).Atomic g ∧ (Graph.disconnect d).Atomic g ∧ (Graph.remove id).Atomic g
  others {op : Operation} : op.Fresh g → (∀ n d, op ≠ .connect n d) → (∀ d, op ≠ .disconnect d) →
    (∀ id, op ≠ .remove id) → (∀ id, op ≠ .dragEnd id) → op.Keeps g (op.apply g)

/-- **Each operation edits the links that it should**, and the definitions, inputs and placements of
the blocks that it is about. -/
theorem Reachable.edits_exactly (hg : Reachable Definition.WellFormed g) : g.Footprint := by
  have S := hg.sound fun _ hd => hd.toCoherent
  exact {
    connect := S.connects
    disconnect := S.disconnects
    remove := S.removes
    dragEnd := S.drops
    failed := ⟨S.connect_atomic _ _, S.disconnect_atomic _, S.remove_atomic _⟩
    others := S.toWired.keeps_apply }

/-- A body that is pulled off its loop, and a loop that is removed with its body in it. -/
theorem edits_exactly_hovering : hovering.Footprint ∧
    (∃ c h, (disconnect "divot-0-b").run hovering = (.ok (.detached c), h) ∧
      hovering.Disconnects "divot-0-b" (.detached c) h) ∧
    ∃ h, (remove "a").run hovering = (.ok (), h) ∧ hovering.Removes "a" h := by
  have hfoot : hovering.Footprint := Reachable.edits_exactly reachable_hovering
  have hruns : ((disconnect "divot-0-b").run hovering).1 =
        .ok (.detached ⟨"notch-0-a", "divot-0-b", ["a"]⟩) ∧
      ((remove "a").run hovering).1 = .ok () := by decide +kernel
  obtain ⟨hout, hgone⟩ := hruns
  refine ⟨hfoot, ?_, ?_⟩
  · rcases hrun : (disconnect "divot-0-b").run hovering with ⟨r, h⟩
    rw [hrun] at hout
    obtain rfl : r = _ := hout
    exact ⟨_, h, rfl, hfoot.disconnect hrun⟩
  · rcases hrun : (remove "a").run hovering with ⟨r, h⟩
    rw [hrun] at hgone
    obtain rfl : r = _ := hgone
    exact ⟨h, rfl, hfoot.remove hrun⟩

end Graph

end SnapBlocks
