import SnapBlocks.Proofs.Bindings
import SnapBlocks.Proofs.Completion
import SnapBlocks.Proofs.Linkage
import SnapBlocks.Proofs.Neat

/-! Documents are loaded whatever they say, as long as no block has two divots. The check of a link
follows the one divot that a block hangs by, and so it sees all that is linked: `Graph.Grove` holds
when a document's blocks are made, every link that passes the check can be made whole, and it holds
again then. So a load never breaks off; what it cannot apply it skips and notes. -/

namespace SnapBlocks

namespace Graph

/-- A graph whose links are whole, and that is a forest when its definitions are neat. -/
structure Grove (g : Graph) : Prop extends g.Wired where
  forest : g.neat.Forest

/-- A graph of blocks with one divot each at most, of which none hangs from another. -/
structure Scattered (g : Graph) : Prop extends g.Wired where
  singleDivot {id : BlockId} {b : Block} : g.blocks[id]? = some b → b.definition.SingleDivot
  not_linked {n d : SnapId} : ¬ g.Linked n d

variable {g h : Graph} {b : Block} {id up low start : BlockId} {n d : SnapId} {p q : SnapPoint}
variable {k room : Nat}

namespace Scattered

theorem of_wires (S : g.Scattered) (heq : g.wires = h.wires) : h.Scattered where
  toWired := S.toWired.of_wires heq
  singleDivot {id b} hb := by
    obtain ⟨c, hc, hbc⟩ := exists_block_of_view heq.symm hb
    exact (Block.eq_of_stem hbc).2 ▸ S.singleDivot hc
  not_linked hl := S.not_linked ((linked_congr heq).mpr hl)

theorem addBlock (S : g.Scattered) (hid : g.blocks[b.id]? = none)
    (hb : b.definition.SingleDivot) : (g.addBlock b).Scattered where
  toWired := S.toWired.addBlock hid
  singleDivot {id c} hc := by
    rw [getElem?_blocks_addBlock] at hc
    split at hc
    · cases hc
      exact hb
    · exact S.singleDivot hc
  not_linked hl := S.not_linked ((S.linked_addBlock hid).mp hl)

theorem empty (catalog : Catalog) (config : GraphConfig) :
    (Graph.empty catalog config).Scattered where
  toWired := wired_empty catalog config .stacked
  singleDivot hb := by
    rw [getElem?_blocks_empty] at hb
    cases hb
  not_linked := by
    rintro n d ⟨p, hp, _⟩
    rw [getElem?_snaps_empty] at hp
    cases hp

/-- Where no block hangs from another, each is a root. -/
theorem grove (S : g.Scattered) : g.Grove where
  toWired := S.toWired
  forest := by
    have hS := S.toWired.simple_neat fun _ _ hb => S.singleDivot hb
    refine { hS with depth := fun {id} hid => ⟨1, .root ?_, Nat.le_max_left ..⟩ }
    refine hS.predecessor_eq_none_iff.mpr ⟨hid, fun up hh => ?_⟩
    obtain ⟨n, d, hl, _⟩ := hS.hangsFrom_iff.mp hh
    exact S.not_linked (linked_neat.mp hl)

end Scattered

namespace Grove

theorem of_wires (G : g.Grove) (heq : g.wires = h.wires) : h.Grove where
  toWired := G.toWired.of_wires heq
  forest := neat_of_wires heq ▸ G.forest

/-! ## Refreshing -/

theorem exists_tail (G : g.Grove) (hid : id ∈ g.blocks) : ∃ tail, g.chainTail id = .ok tail := by
  obtain ⟨tail, ht⟩ := G.forest.exists_tail (mem_blocks_neat.mpr hid)
  exact ⟨tail, (chainTail_neat id).symm.trans ht⟩

theorem refreshDeepest_completes (G : g.Grove) (hk : g.neat.DepthOf id k) (hr : k ≤ room) :
    (refreshDeepest start room (some id)).Completes g := by
  induction k generalizing g id room with
  | zero => exact absurd hk.pos (by omega)
  | succ k ih =>
    obtain ⟨room, rfl⟩ : ∃ r, room = r + 1 := ⟨room - 1, by omega⟩
    obtain ⟨tail, ht⟩ := G.exists_tail (mem_blocks_neat.mp hk.mem_blocks)
    have hneat : (g.setDeepest id tail).neat = g.neat := neat_of_wires wires_setDeepest
    unfold Edit.Completes
    cases hk with
    | root hp =>
      rw [predecessor_neat] at hp
      rw [refreshDeepest_run_succ start room ht hp]
      exact ⟨(), g.setDeepest id tail, by cases room <;> rfl⟩
    | hang hh hk =>
      rw [HangsFrom, predecessor_neat] at hh
      rw [refreshDeepest_run_succ start room ht hh]
      exact ih (G.of_wires wires_setDeepest.symm) (hneat ▸ hk) (by omega)

theorem calculateDeepest_completes (G : g.Grove) (hid : id ∈ g.blocks) :
    (calculateDeepest id).Completes g := by
  obtain ⟨tail, ht⟩ := G.exists_tail hid
  obtain ⟨k, hk, hle⟩ := G.forest.depth (mem_blocks_neat.mpr hid)
  have hroom : k ≤ g.config.maxChainHops + 1 := by
    have hconfig : g.neat.config = g.config := rfl
    rw [hconfig] at hle
    omega
  obtain ⟨_, h, hrun⟩ := G.refreshDeepest_completes hk hroom
  exact ⟨tail, h, by rw [calculateDeepest_run_eq ht, hrun]⟩

/-- What hangs from a notch can be measured. -/
theorem exists_hangingHeight (G : g.Grove) (hp : g.snaps[n]? = some p) :
    ∃ x, g.hangingHeight p.next = .ok x := by
  cases hnext : p.next with
  | none => exact ⟨0, rfl⟩
  | some d =>
    obtain ⟨_, q, _, hq, _⟩ := G.ends ((linked_iff_next hp).mpr hnext)
    have hlow := mem_blocks_neat.mpr (G.block_mem hq)
    obtain ⟨l, hl⟩ := G.forest.exists_chain hlow
    have hchain : g.primaryChain q.block = .ok l :=
      (primaryChain_neat _).symm.trans (G.forest.primaryChain_eq hl)
    have hsum := sumHeights_eq (g := g) (fun x hx => mem_blocks_neat.mp (hl.mem_blocks x hx)) 0
    refine ⟨(l.map g.heightOf).foldl (· + ·) 0, ?_⟩
    unfold hangingHeight scopeHeight
    simp only [owner_of_getElem? hq, hchain, bind, Except.bind]
    exact hsum

theorem refreshHeight_completes (G : g.Grove) (hid : id ∈ g.blocks) :
    (refreshHeight id).Completes g := by
  obtain ⟨b, hb⟩ := Table.mem_iff.mp hid
  by_cases hd : b.isDynamic
  case neg => exact ⟨[], g, refreshHeight_run_of_static hb hd⟩
  have hscopes : g.scopes b.snapPoints = .ok (g.scopeList id b.definition.slots) := by
    unfold Block.snapPoints
    rw [G.block_id hb]
    exact G.scopes_eq hb fun _ hs => hs
  have hmeasure : ∀ e ∈ g.scopeList id b.definition.slots,
      g.hangingHeight e.2 = .ok (g.heightAt e.2) := by
    intro e he
    obtain ⟨s, hs, rfl⟩ := List.mem_map.mp he
    obtain ⟨p, hp, _⟩ := G.snap_at hb (List.mem_filter.mp hs).1
    obtain ⟨x, hx⟩ := G.exists_hangingHeight hp
    simp only [hp, Option.bind_some]
    exact hangingHeight_eq_heightAt hx
  unfold refreshHeight
  apply Edit.Completes.ask (block_of_getElem? hb)
  rw [if_pos hd]
  apply Edit.Completes.ask hscopes
  apply Edit.Completes.bind ⟨_, _, measureScopes_run hmeasure⟩
  intro _ h hrun
  have hshape := shape_hides.measureScopes id (g.scopeList id b.definition.slots) g
  rw [hrun] at hshape
  obtain ⟨c, hc, _⟩ := exists_block_of_view hshape.symm hb
  exact Edit.Completes.bind ⟨_, _, relayout_run hc⟩ fun _ _ _ => .pure _ _

theorem refreshHeights_completes (G : g.Grove) (hk : g.neat.DepthOf id k) (hr : k ≤ room) :
    (refreshHeights start room (some id)).Completes g := by
  induction k generalizing g id room with
  | zero => exact absurd hk.pos (by omega)
  | succ k ih =>
    obtain ⟨room, rfl⟩ : ∃ r, room = r + 1 := ⟨room - 1, by omega⟩
    rw [refreshHeights]
    apply Edit.Completes.bind (G.refreshHeight_completes (mem_blocks_neat.mp hk.mem_blocks))
    intro redrawn h hrun
    have hw := wires_of_shape (shape_hides.refreshHeight id g)
    rw [hrun] at hw
    have hneat : h.neat = g.neat := neat_of_wires hw
    have hp {r : Option BlockId} (hr : g.neat.predecessor id = .ok r) :
        h.predecessor id = .ok r := by
      rw [predecessor_congr hw, ← predecessor_neat]
      exact hr
    cases hk with
    | root hroot =>
      apply Edit.Completes.ask (hp hroot)
      exact Edit.Completes.bind ⟨[], h, by cases room <;> rfl⟩ fun _ _ _ => .pure _ _
    | hang hh hk =>
      apply Edit.Completes.ask (hp hh)
      apply Edit.Completes.bind (ih (G.of_wires hw.symm) (hneat ▸ hk) (by omega))
      exact fun _ _ _ => .pure _ _

theorem adjustHeight_completes (G : g.Grove) (hid : id ∈ g.blocks)
    (hhops : 0 < g.config.maxChainHops) : (adjustHeight id).Completes g := by
  obtain ⟨k, hk, hle⟩ := G.forest.depth (mem_blocks_neat.mpr hid)
  have hroom : k ≤ g.config.maxChainHops := by
    have hconfig : g.neat.config = g.config := rfl
    rw [hconfig] at hle
    omega
  exact G.refreshHeights_completes hk hroom

theorem refreshAround_completes (G : g.Grove) (hup : up ∈ g.blocks) (hlow : low ∈ g.blocks)
    (hhops : 0 < g.config.maxChainHops) : (refreshAround up low).Completes g := by
  -- each refresh leaves the wires alone, and with them all that the next one needs
  have hnext {α : Type} {e : Edit α} {a : α} {g h : Graph} (he : e.Fixes wires)
      (hrun : e.run g = (.ok a, h)) : h.wires = g.wires := by
    have hw := he g
    rwa [hrun] at hw
  unfold refreshAround
  apply Edit.Completes.bind (G.calculateDeepest_completes hup)
  intro _ h₁ hrun₁
  have hw₁ := hnext (wires_hides.calculateDeepest up) hrun₁
  apply Edit.Completes.bind
    ((G.of_wires hw₁.symm).calculateDeepest_completes ((mem_blocks_of_view hw₁).mpr hlow))
  intro _ h₂ hrun₂
  have hw₂ := (hnext (wires_hides.calculateDeepest low) hrun₂).trans hw₁
  apply Edit.Completes.bind ((G.of_wires hw₂.symm).adjustHeight_completes
    ((mem_blocks_of_view hw₂).mpr hup) (config_eq_of_view hw₂ ▸ hhops))
  intro _ h₃ hrun₃
  have hw₃ := (hnext (wires_hides.adjustHeight up) hrun₃).trans hw₂
  exact Edit.Completes.bind ((G.of_wires hw₃.symm).adjustHeight_completes
    ((mem_blocks_of_view hw₃).mpr hlow) (config_eq_of_view hw₃ ▸ hhops)) fun _ _ _ => .pure _ _

/-! ## Linking -/

theorem exists_linkRejection (G : g.Grove) (hp : g.snaps[n]? = some p)
    (hq : g.snaps[d]? = some q) :
    ∃ r, g.linkRejection n d = .ok r ∧ (r = none ↔ g.neat.Joinable p.neat q.neat) := by
  rw [← linkRejection_neat]
  refine G.forest.linkRejection_eq ?_ ?_
  · rw [neat, getElem?_snaps_view, hp, Option.map_some]
  · rw [neat, getElem?_snaps_view, hq, Option.map_some]

/-- Neat definitions make no difference to a new link. -/
theorem neat_link (hne : n ≠ d) : (g.link n d).neat.wires = (g.neat.link n d).wires := by
  refine view_ext rfl rfl (fun i => rfl) (fun i => ?_) rfl rfl
  rw [getElem?_snaps_link hne]
  simp only [neat, getElem?_snaps_view]
  rw [getElem?_snaps_link hne]
  split
  · cases g.snaps[i]? <;> rfl
  · split
    · cases g.snaps[i]? <;> rfl
    · rfl

/-- **A link that passes the check can be made.** It is whole then, and the graph is a grove as
before. -/
theorem attach_run (G : g.Grove) (hr : g.linkRejection n d = .ok none) :
    ∃ c h, (attach n d).run g = (.ok c, h) ∧ h.Grove ∧ h.wires = (g.link n d).wires := by
  obtain ⟨p, q, hp, hq, hpk, hqk, hpn, hqp, hblocks⟩ := ends_of_linkRejection hr
  obtain ⟨r, hr', hiff⟩ := G.exists_linkRejection hp hq
  cases hr.symm.trans hr'
  have J := hiff.mp rfl
  have hp' : g.neat.snaps[n]? = some p.neat := by rw [neat, getElem?_snaps_view, hp]; rfl
  have hq' : g.neat.snaps[d]? = some q.neat := by rw [neat, getElem?_snaps_view, hq]; rfl
  have hhops : 0 < g.neat.config.maxChainHops := J.hops_pos G.forest hp' hq'
  have Gl : (g.link n d).Grove := {
    G.toWired.link hp hq hpk hqk hpn hqp hblocks with
    forest := (G.forest.link hp' hq' J).of_wires (neat_link (J.ends_ne hp' hq')).symm }
  have hmem {x} (hx : ∃ b, g.blocks[x]? = some b) : x ∈ (g.link n d).blocks :=
    Table.mem_iff.mpr hx
  let h₀ := (g.link n d).setPlacement q.block (.attached n (-q.position))
  have hw₀ : h₀.wires = (g.link n d).wires := wires_setPlacement
  have G₀ : h₀.Grove := Gl.of_wires hw₀.symm
  obtain ⟨l, h, hrun⟩ := G₀.refreshAround_completes
    ((mem_blocks_of_view hw₀).mpr (hmem (G.exists_block hp)))
    ((mem_blocks_of_view hw₀).mpr (hmem (G.exists_block hq))) hhops
  have hw := wires_hides.refreshAround p.block q.block h₀
  rw [hrun] at hw
  refine ⟨⟨n, d, l⟩, h, ?_, G₀.of_wires hw.symm, hw.trans hw₀⟩
  rw [attach_run_link hp hq (G.block_mem hq), Edit.run_bind_ok hrun,
    Edit.run_pure]

end Grove

end Graph

/-! ## Inputs -/

/-- The inputs that are saved for a block and that it does not have, as they are noted. -/
def SavedBlock.unknownInputs (id : BlockId) (b : SavedBlock) : List Skipped :=
  b.segments.flatMap fun s =>
    (s.inputs.filter fun i =>
      ((Block.fresh id b.definition b.position).input? s.id i.id).isNone).map fun i =>
        .input (.inputNotFound id s.id i.id)

/-- A change of an input that keeps its declaration takes no input away and adds none. -/
theorem Block.isSome_input?_modifyInput (b : Block) {f : InputBinding → InputBinding}
    (hf : ∀ i, (f i).declaration = i.declaration) (seg input k x : String) :
    ((b.modifyInput seg input f).input? k x).isSome = (b.input? k x).isSome := by
  rw [b.input?_modifyInput hf, Option.isSome_map]

namespace Document

open SnapBlocks.Graph

variable {l m : Loading} {g h : Graph} {id : BlockId} {b : Block}

/-- A block has the inputs of another. -/
def HasInputs (g : Graph) (id : BlockId) (b : Block) : Prop :=
  ∃ c, g.blocks[id]? = some c ∧ ∀ seg input, (c.input? seg input).isSome = (b.input? seg input).isSome

theorem HasInputs.updateInput (hb : HasInputs g id b) (seg input : String) (u : InputUpdate) :
    HasInputs ((updateInput id seg input u).run g).2 id b ∧
      ((b.input? seg input).isSome → ∃ a, ((updateInput id seg input u).run g).1 = .ok a) ∧
      ((b.input? seg input).isSome = false →
        ((updateInput id seg input u).run g).1 = .error (.inputNotFound id seg input)) := by
  obtain ⟨c, hc, hsome⟩ := hb
  unfold Graph.updateInput changeInput
  cases hi : c.input? seg input with
  | none =>
    have hno : g.findInput id seg input = .error (.inputNotFound id seg input) := by
      unfold findInput
      simp only [block_of_getElem? hc, hi, bind, Except.bind]
      rfl
    rw [Edit.run_bind_error (by rw [Edit.run_ask, hno]), ← hsome, hi]
    exact ⟨⟨c, hc, hsome⟩, nofun, fun _ => rfl⟩
  | some i =>
    have hok : g.findInput id seg input = .ok i := by
      unfold findInput
      simp only [block_of_getElem? hc, hi, bind, Except.bind]
      rfl
    rw [Edit.run_bind_ok (by rw [Edit.run_ask, hok]), Edit.run_bind_ok (Edit.run_change _),
      Edit.run_pure, ← hsome, hi]
    refine ⟨⟨c.modifyInput seg input u.apply, ?_, fun k x => ?_⟩, fun _ => ⟨_, rfl⟩, nofun⟩
    · rw [modifyBlock, Table.getElem?_modify_self, hc, Option.map_some]
    · rw [c.isSome_input?_modifyInput (f := u.apply) (fun _ => rfl), hsome]

theorem HasInputs.loadInputs (hb : HasInputs l.graph id b) (seg : String)
    (saved : List SavedInput) :
    ((loadInputs id seg saved).run l).2.skipped = l.skipped ++
      (saved.filter fun i => (b.input? seg i.id).isNone).map fun i =>
        .input (.inputNotFound id seg i.id) := by
  induction saved generalizing l with
  | nil => exact (List.append_nil _).symm
  | cons i rest ih =>
    obtain ⟨skipped, hrun, hok, herror⟩ := loadInputs_cons (l := l) id seg i rest
    obtain ⟨hkept, hdone, hnoted⟩ := hb.updateInput seg i.id (SavedInput.update i)
    rw [hrun, ih (l := ⟨_, skipped⟩) hkept]
    cases hi : (b.input? seg i.id).isSome with
    | true =>
      obtain ⟨a, ha⟩ := hdone hi
      have hnone : (b.input? seg i.id).isNone = false := by
        rw [← Option.not_isSome, hi, Bool.not_true]
      rw [hok a ha, List.filter_cons_of_neg (by simp [hnone])]
    | false =>
      have hnone : (b.input? seg i.id).isNone = true := by
        rw [← Option.not_isSome, hi, Bool.not_false]
      rw [herror _ (hnoted hi), List.filter_cons_of_pos (by simp [hnone]), List.map_cons,
        List.append_assoc]
      rfl

theorem HasInputs.loadSegments (hb : HasInputs l.graph id b) (saved : List SavedSegment) :
    ((loadSegments id saved).run l).2.skipped = l.skipped ++ saved.flatMap fun s =>
      (s.inputs.filter fun i => (b.input? s.id i.id).isNone).map fun i =>
        .input (.inputNotFound id s.id i.id) := by
  induction saved generalizing l with
  | nil => exact (List.append_nil _).symm
  | cons s rest ih =>
    obtain ⟨m, hrun, hm⟩ := loadInputs_keeps (P := fun g => HasInputs g id b)
      (fun seg input u _ hg => (hg.updateInput seg input u).1) s.id s.inputs hb
    have hskipped := hb.loadInputs s.id s.inputs
    rw [hrun] at hskipped
    rw [Document.loadSegments, Load.run_bind_ok hrun, ih hm, hskipped, List.flatMap_cons,
      List.append_assoc]

/-- A load of blocks skips the inputs that they do not have, and no others. -/
theorem loadBlocks_skipped (saved : List (BlockId × SavedBlock)) :
    ((loadBlocks saved).run l).2.skipped =
      l.skipped ++ saved.flatMap fun p => p.2.unknownInputs p.1 := by
  induction saved generalizing l with
  | nil => exact (List.append_nil _).symm
  | cons p rest ih =>
    obtain ⟨id, b⟩ := p
    let new := Block.fresh id b.definition b.position
    have hnew : HasInputs (l.graph.withNew new) id new := by
      refine ⟨_, (getElem?_blocks_withNew (b := new) id).trans (if_pos rfl), fun _ _ => rfl⟩
    obtain ⟨m, hrun, _⟩ := loadSegments_keeps (P := fun _ => True)
      (l := ⟨l.graph.withNew new, l.skipped⟩) (fun _ _ _ _ _ => trivial) b.segments trivial
    have hskipped := HasInputs.loadSegments (l := ⟨l.graph.withNew new, l.skipped⟩) hnew b.segments
    rw [hrun] at hskipped
    rw [loadBlocks, Load.run_bind_ok (by rw [Load.run_onGraph, insertDefinition_run]),
      Load.run_bind_ok hrun, ih, hskipped, List.flatMap_cons, List.append_assoc]
    rfl

/-! ## Links -/

/-- What a load has made of some links when it is through with them: it goes on with a grove on the
same blocks, and each link was made, or skipped and noted. -/
structure Replayed (links : List (SnapId × SavedLink)) (g : Graph) (notes : List Skipped)
    (h : Graph) : Prop where
  grove : h.Grove
  blocks {id : BlockId} : id ∈ h.blocks ↔ id ∈ g.blocks
  kept {n d : SnapId} : g.Linked n d → h.Linked n d
  linked {n d : SnapId} : h.Linked n d → g.Linked n d ∨ ∃ p ∈ links, p.1 = n ∧ p.2.divotId = d
  settled {p : SnapId × SavedLink} : p ∈ links → h.Linked p.1 p.2.divotId ∨
    .unknownSnap p.1 p.2.divotId ∈ notes ∨ ∃ r, .link p.1 p.2.divotId r ∈ notes

/-- A link that is skipped is noted. -/
theorem Replayed.skip {p : SnapId × SavedLink} {links : List (SnapId × SavedLink)} {s : Skipped}
    {notes : List Skipped} (R : Replayed links g notes h)
    (hs : s = .unknownSnap p.1 p.2.divotId ∨ ∃ r, s = .link p.1 p.2.divotId r) :
    Replayed (p :: links) g (s :: notes) h where
  grove := R.grove
  blocks := R.blocks
  kept := R.kept
  linked hl := (R.linked hl).imp_right fun ⟨q, hq, he⟩ => ⟨q, .tail _ hq, he⟩
  settled {q} hq := by
    rcases List.mem_cons.mp hq with rfl | hq
    · rcases hs with rfl | ⟨r, rfl⟩
      · exact .inr (.inl List.mem_cons_self)
      · exact .inr (.inr ⟨r, List.mem_cons_self⟩)
    · exact (R.settled hq).imp_right (.imp (.tail _) fun ⟨r, hr⟩ => ⟨r, .tail _ hr⟩)

/-- A link that passes the check is made. -/
theorem Replayed.made {n : SnapId} {link : SavedLink} {links : List (SnapId × SavedLink)}
    {notes : List Skipped} {k : Graph} (hk : k.wires = (g.link n link.divotId).wires)
    (hends : ∃ p q, g.snaps[n]? = some p ∧ g.snaps[link.divotId]? = some q ∧ n ≠ link.divotId ∧
      p.next = none) (R : Replayed links k notes h) :
    Replayed ((n, link) :: links) g notes h := by
  obtain ⟨p, q, hp, hq, hne, hfree⟩ := hends
  have hlinked {m e : SnapId} : k.Linked m e ↔
      (m = n ∧ e = link.divotId) ∨ (m ≠ n ∧ g.Linked m e) :=
    (linked_congr hk).trans (linked_link hp hq hne)
  refine ⟨R.grove, fun {id} => ?_, fun {m e} hl => R.kept ?_, fun {m e} hl => ?_,
    fun {x} hx => ?_⟩
  · exact R.blocks.trans (mem_blocks_of_view (stock_of_wires hk |>.trans stock_link))
  · refine hlinked.mpr (.inr ⟨fun he => ?_, hl⟩)
    rw [he, linked_iff_next hp, hfree] at hl
    cases hl
  · rcases R.linked hl with hl | ⟨x, hx, he⟩
    · rcases hlinked.mp hl with ⟨rfl, rfl⟩ | ⟨_, hl⟩
      · exact .inr ⟨_, List.mem_cons_self, rfl, rfl⟩
      · exact .inl hl
    · exact .inr ⟨x, .tail _ hx, he⟩
  · rcases List.mem_cons.mp hx with rfl | hx
    · exact .inl (R.kept (hlinked.mpr (.inl ⟨rfl, rfl⟩)))
    · exact R.settled hx

theorem loadLinks_run (G : l.graph.Grove) (links : List (SnapId × SavedLink)) :
    ∃ notes h, (loadLinks links).run l = (.ok (), ⟨h, l.skipped ++ notes⟩) ∧
      Replayed links l.graph notes h := by
  induction links generalizing l with
  | nil =>
    refine ⟨[], l.graph, by rw [List.append_nil]; rfl, G, Iff.rfl, id, .inl, ?_⟩
    exact fun hp => nomatch hp
  | cons p rest ih =>
    obtain ⟨n, link⟩ := p
    have hskip (s : Skipped) (hs : s = .unknownSnap n link.divotId ∨
        ∃ r, s = .link n link.divotId r) :
        ∃ notes h, (loadLinks rest).run (l.note s) = (.ok (), ⟨h, l.skipped ++ notes⟩) ∧
          Replayed ((n, link) :: rest) l.graph notes h := by
      obtain ⟨notes, h, hrun, R⟩ := ih (l := l.note s) G
      refine ⟨s :: notes, h, ?_, R.skip hs⟩
      rw [hrun, Loading.note, List.append_assoc]
      rfl
    rw [loadLinks_cons]
    split
    next hknown =>
      obtain ⟨hn, hd⟩ := Bool.and_eq_true_iff.mp hknown
      obtain ⟨p, hp, _⟩ := G.mem_notches.mp (Std.ExtTreeSet.contains_iff_mem.mp hn)
      obtain ⟨q, hq, _⟩ := G.mem_divots.mp (Std.ExtTreeSet.contains_iff_mem.mp hd)
      obtain ⟨r, hr, _⟩ := G.exists_linkRejection hp hq
      rw [hr]
      cases r with
      | some r => exact hskip _ (.inr ⟨r, rfl⟩)
      | none =>
        obtain ⟨c, k, hrun, Gk, hk⟩ := G.attach_run hr
        obtain ⟨notes, h, hrest, R⟩ := ih (l := { l with graph := k }) Gk
        simp only [hrun]
        obtain ⟨p, q, hp, hq, _, _, hfree, _⟩ := ends_of_linkRejection hr
        exact ⟨notes, h, hrest, R.made hk ⟨p, q, hp, hq, ne_of_linkRejection hr, hfree⟩⟩
    · exact hskip _ (.inl rfl)

/-! ## Documents -/

/-- The offsets of blocks that exist are all put back. -/
theorem loadOffsets_run (saved : List (BlockId × SavedBlock))
    (hmem : ∀ p ∈ saved, p.1 ∈ l.graph.blocks) :
    ∃ h, (loadOffsets saved).run l = (.ok (), ⟨h, l.skipped⟩) := by
  induction saved generalizing l with
  | nil => exact ⟨l.graph, rfl⟩
  | cons p rest ih =>
    obtain ⟨id, b⟩ := p
    have hrest := fun q hq => hmem q (.tail (id, b) hq)
    rw [loadOffsets]
    cases b.offset with
    | none => exact ih hrest
    | some offset =>
      obtain ⟨c, hc⟩ := Table.mem_iff.mp (hmem (id, b) List.mem_cons_self)
      have hneed : (onGraph (Edit.needBlock id)).run l = (.ok c, l) := by
        rw [Load.run_onGraph, Edit.run_needBlock, block_of_getElem? hc]
      rw [Load.run_bind_ok hneed]
      cases c.placement with
      | root pos => exact ih hrest
      | attached n old =>
        have hmove : (onGraph (Edit.change (·.setPlacement id (.attached n offset)))).run l =
            (.ok (), { l with graph := l.graph.setPlacement id (.attached n offset) }) := by
          rw [Load.run_onGraph, Edit.run_change]
        rw [Load.run_bind_ok hmove]
        refine ih (l := { l with graph := _ }) fun q hq => ?_
        exact (mem_blocks_of_view wires_setPlacement).mpr (hrest q hq)

/-- **What comes of a document.** Its blocks are there, and every other entry of it was applied, or
skipped and noted. -/
structure Tolerated (d : Document) (g : Graph) (skipped : List Skipped) : Prop where
  blocks {id : BlockId} : id ∈ g.blocks ↔ id ∈ d.blocks
  /-- Of the inputs, those are skipped that their blocks do not have; notes of links follow. -/
  inputs : ∃ notes, skipped = (d.blocks.toList.flatMap fun p => p.2.unknownInputs p.1) ++ notes ∧
    ∀ p ∈ d.notches.toList, g.Linked p.1 p.2.divotId ∨ .unknownSnap p.1 p.2.divotId ∈ notes ∨
      ∃ r, .link p.1 p.2.divotId r ∈ notes
  /-- There is no link that the document does not have. -/
  linked {n e : SnapId} : g.Linked n e → ∃ link, d.notches[n]? = some link ∧ link.divotId = e

/-- **A load never breaks off** on a document whose blocks have one divot each at most, whatever
else the document says. -/
theorem toGraph_tolerated (d : Document) (catalog : Catalog) (config : GraphConfig)
    (hone : ∀ p ∈ d.blocks.toList, p.2.definition.SingleDivot) :
    ∃ g skipped, d.toGraph catalog config = (.ok g, skipped) ∧ d.Tolerated g skipped := by
  obtain ⟨m, hrun, Sm, hmem⟩ := loadBlocks_keeps (l := ⟨.empty catalog config, []⟩)
    (P := Graph.Scattered) Definition.SingleDivot (fun _ _ he S => S.of_wires he)
    (fun _ _ _ _ hx hid S => S.addBlock hid hx) d.blocks.toList Table.toList_keys_nodup
    (fun _ _ => Std.ExtTreeMap.getElem?_empty) hone (.empty catalog config)
  have hskipped := loadBlocks_skipped (l := ⟨.empty catalog config, []⟩) d.blocks.toList
  rw [hrun, List.nil_append] at hskipped
  obtain ⟨notes, h, hlinks, R⟩ := loadLinks_run Sm.grove d.notches.toList
  have hblocks (id : BlockId) : id ∈ m.graph.blocks ↔ id ∈ d.blocks := by
    rw [hmem, Table.mem_iff, Table.mem_iff, List.mem_map]
    simp [Table.mem_toList]
  obtain ⟨g, hoffsets⟩ := loadOffsets_run (l := ⟨h, m.skipped ++ notes⟩) d.blocks.toList
    fun p hp => R.blocks.mpr ((hmem p.1).mpr (.inr (List.mem_map_of_mem hp)))
  have hw : g.wires = h.wires := by
    have := loadOffsets_wires d.blocks.toList ⟨h, m.skipped ++ notes⟩
    rwa [hoffsets] at this
  refine ⟨g, m.skipped ++ notes, ?_, ?_⟩
  · have hload : d.load.run ⟨.empty catalog config, []⟩ = (.ok (), ⟨g, m.skipped ++ notes⟩) := by
      unfold load
      rw [Load.run_bind_ok hrun, Load.run_bind_ok hlinks, hoffsets]
    rw [toGraph_eq, hload]
    rfl
  · refine ⟨fun {id} => ?_, ⟨notes, by rw [hskipped], fun p hp => ?_⟩, fun {n e} hl => ?_⟩
    · exact (mem_blocks_of_view hw).trans (R.blocks.trans (hblocks id))
    · exact (R.settled hp).imp_left (linked_congr hw).mpr
    · rcases R.linked ((linked_congr hw).mp hl) with hl | ⟨p, hp, rfl, rfl⟩
      · exact absurd hl Sm.not_linked
      · exact ⟨p.2, Table.mem_toList.mp hp, rfl⟩

/-! ## Documents with faults -/

/-- A definition whose segments share an id. -/
def ambiguous : Definition where
  name := "ambiguous"
  segments := [
    { id := "s", name := "head", kind := .header, divot := true, notch := true },
    { id := "s", name := "foot", kind := .footer, notch := true }]
  style := { color := "#000000" }

/-- A root of some definition, saved with some inputs. -/
def savedRoot (id : BlockId) (d : Definition) (segments : List SavedSegment) :
    BlockId × SavedBlock :=
  (id, {
    id := id, name := d.name, position := .origin, offset := none, segments := segments
    definition := d, primaryNotchId := none, primaryDivotId := none })

/-- A link of a notch and a divot, by their ids alone. -/
def savedLink (notch divot : SnapId) : SnapId × SavedLink :=
  (notch, {
    notchBlockId := "", divotBlockId := "", notchId := notch, divotId := divot
    notchSegmentId := "", divotSegmentId := "", isPrimary := false })

/-- Links that cannot be made, but for the first: their divot is occupied, they close a loop, or
lead to their own block, or too deep, or nowhere; and an input that no segment declares. -/
def faulty : Document where
  blocks := Table.ofPairs [
    savedRoot "a" ambiguous [⟨"s", [⟨"x", none, none, false, false⟩]⟩],
    savedRoot "b" ambiguous [], savedRoot "c" ambiguous []]
  notches := Table.ofPairs [
    savedLink "notch-0-a" "divot-0-b", savedLink "notch-0-b" "divot-0-a",
    savedLink "notch-0-c" "divot-0-c", savedLink "notch-1-a" "divot-0-b",
    savedLink "notch-1-b" "divot-0-c", savedLink "notch-9-z" "divot-0-a"]

theorem toGraph_tolerated_faulty : ∃ g skipped,
    faulty.toGraph ∅ { maxChainHops := 2 } = (.ok g, skipped) ∧
      skipped = [
        .input (.inputNotFound "a" "s" "x"),
        .link "notch-0-b" "divot-0-a" .wouldCycle,
        .link "notch-0-c" "divot-0-c" .sameBlock,
        .link "notch-1-a" "divot-0-b" .alreadyLinked,
        .link "notch-1-b" "divot-0-c" (.tooDeep 3 2),
        .unknownSnap "notch-9-z" "divot-0-a"] ∧
      faulty.Tolerated g skipped := by
  obtain ⟨g, skipped, hload, htolerated⟩ :=
    toGraph_tolerated faulty ∅ { maxChainHops := 2 } (by decide)
  refine ⟨g, skipped, hload, ?_, htolerated⟩
  have hskipped : (faulty.toGraph ∅ { maxChainHops := 2 }).2 = skipped := by rw [hload]
  rw [← hskipped]
  decide +kernel

/-- Where blocks have two divots, the check of a link does not see the first ones. The second link
passes it and closes a loop, and the load breaks off. -/
def coiled : Document where
  blocks := Table.ofPairs [savedRoot "a" doubled [], savedRoot "b" doubled []]
  notches := Table.ofPairs [
    savedLink "notch-1-a" "divot-0-b", savedLink "notch-1-b" "divot-0-a"]

example : (coiled.load.run ⟨.empty ∅, []⟩).1 = .error (.structural (.chain "b" 100)) ∧
    (coiled.load.run ⟨.empty ∅, []⟩).2.skipped = [] := by decide +kernel

end Document

end SnapBlocks
