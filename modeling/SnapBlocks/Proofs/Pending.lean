import SnapBlocks.Definition.Catalog
import SnapBlocks.Proofs.Completion
import SnapBlocks.Proofs.Frame
import SnapBlocks.Proofs.Linkage
import SnapBlocks.Proofs.Offer

/-! The pending snap. A drag keeps the ids of the notch and the divot that would be linked if the
block were let go. They are those of snap points that are there, since the search finds no others,
and stay so until a block is removed. The removal of the dragged block ends the drag; that of
another block does not look at the pending snap, so that one of its ends may be gone then. A session
is `Careful` if that does not happen in it. -/

namespace SnapBlocks

namespace Graph

variable {α : Type} {ok : Definition → Prop} {g h : Graph} {b : Block} {id : BlockId}
variable {c : Candidate} {i : SnapId}

/-- Both ends of the pending snap are registered. -/
def Held (g : Graph) : Prop :=
  ∀ c, g.drag.pending = some c → c.notch ∈ g.notches ∧ c.divot ∈ g.divots

/-- If an operation removes a block, the pending snap of another block does not end there. -/
def Operation.Spares (op : Operation) (g : Graph) : Prop :=
  ∀ id c, op = .remove id → g.drag.pending = some c → g.drag.active ≠ some id →
    g.owner c.notch ≠ .ok id ∧ g.owner c.divot ≠ .ok id

/-- The graphs of sessions in which no removal takes an end of the pending snap away. -/
inductive Careful (ok : Definition → Prop) : Graph → Prop
  | start (catalog : Catalog) (config : GraphConfig) (layout : Layout) :
      Careful ok (empty catalog config layout)
  | loaded (d : Document) (catalog : Catalog) (config : GraphConfig) (skipped : List Skipped)
      {g : Graph} : (∀ p ∈ d.blocks.toList, ok p.2.definition) →
      d.toGraph catalog config = (.ok g, skipped) → Careful ok g
  | step {g : Graph} (op : Operation) : Careful ok g → op.Fresh g →
      (∀ id d, op.creates g = some (id, d) → ok d) → op.Spares g → Careful ok (op.apply g)

/-! ## What is registered -/

theorem Held.of_frame (hg : g.Held) (heq : h.frame = g.frame) : h.Held := by
  intro c hc
  rw [drag_of_frame heq] at hc
  rw [notches_of_frame heq, divots_of_frame heq]
  exact hg c hc

theorem Held.leaves (hg : g.Held) {e : Edit α} (he : e.Fixes frame) : (e.run g).2.Held :=
  hg.of_frame (he g)

theorem held_of_idle (hidle : g.drag.pending = none) : g.Held := by
  intro c hc
  rw [hidle] at hc
  cases hc

theorem Held.withNew (hg : g.Held) (b : Block) : (g.withNew b).Held := by
  refine Held.of_frame (g := g.addBlock b) (fun c hc => ?_) (frame_placeBlock b)
  rw [drag_addBlock] at hc
  rw [mem_notches_addBlock, mem_divots_addBlock]
  exact (hg c hc).imp .inl .inl

/-! ## Operations -/

/-- Removing a block keeps the ends that are not its own. -/
theorem Held.remove (hg : g.Held) (H : g.Wired) (hspares : (Operation.remove id).Spares g) :
    ((Graph.remove id).run g).2.Held := by
  unfold Graph.remove
  refine Edit.leaves_ask hg fun b hb => ?_
  have hb := block_eq_ok.mp hb
  have hframe := frame_hides.releaseAll b.snapPoints g
  rcases hrun : (releaseAll b.snapPoints).run g with ⟨x | touched, h⟩ <;> rw [hrun] at hframe
  · rw [Edit.run_bind_error hrun]
    exact hg.of_frame hframe
  · rw [Edit.run_bind_ok hrun, Edit.run_bind_ok (Edit.run_change _),
      Edit.run_bind_ok (Edit.run_change _)]
    refine Held.leaves (fun c hc => ?_) (frame_hides.refreshAll touched)
    have hdrag : (if h.drag.active = some id then {} else h.drag).pending = some c := hc
    rw [drag_of_frame hframe] at hdrag
    split at hdrag
    next => cases hdrag
    next hactive =>
      obtain ⟨hn, hd⟩ := hg c hdrag
      obtain ⟨hnotch, hdivot⟩ := hspares id c rfl hdrag hactive
      change c.notch ∈ b.snapPoints.foldl (·.erase ·) h.notches ∧
        c.divot ∈ b.snapPoints.foldl (·.erase ·) h.divots
      rw [TextSet.mem_eraseAll, TextSet.mem_eraseAll, notches_of_frame hframe,
        divots_of_frame hframe]
      exact ⟨⟨fun hi => hnotch ((H.mem_snapPoints_iff hb).mp hi), hn⟩,
        fun hi => hdivot ((H.mem_snapPoints_iff hb).mp hi), hd⟩

theorem Held.dragMove (hg : g.Held) (H : g.Wired) (id : BlockId) (pos : Point) :
    ((Graph.dragMove id pos).run g).2.Held := by
  unfold Graph.dragMove
  rw [Edit.run_bind_ok Edit.run_get]
  split
  · exact hg
  · rw [Edit.run_bind_ok (Edit.run_change _)]
    let taken : Graph := { g with drag := { g.drag with active := some id } }
    have htaken : taken.Held := hg
    have Hmoved :=
      (H.setDrag { g.drag with active := some id }).leaves (wires_hides.moveBlock id pos)
    have hmoved := htaken.leaves (frame_hides.moveBlock id pos)
    rcases hrun : (moveBlock id pos).run taken with ⟨x | u, h⟩ <;> rw [hrun] at Hmoved hmoved
    · rw [Edit.run_bind_error hrun]
      exact hmoved
    · rw [Edit.run_bind_ok hrun]
      refine Edit.leaves_ask hmoved fun r hr => ?_
      rw [Edit.run_bind_ok (Edit.run_change _), Edit.run_pure]
      intro c hc
      have hc : r = some c := hc
      rw [hc] at hr
      obtain ⟨b, hb, ho, _⟩ := nearest_eq_some hr
      exact Hmoved.registered_of_offers hb ho

theorem Held.dragEnd (hg : g.Held) (id : BlockId) : ((Graph.dragEnd id).run g).2.Held := by
  unfold Graph.dragEnd
  rw [Edit.run_bind_ok Edit.run_get]
  split
  · exact hg
  · rw [Edit.run_bind_ok Edit.run_get, Edit.run_bind_ok (Edit.run_change _)]
    refine (held_of_idle rfl).leaves (.bind (frame_hides.releaseAbove id) fun r => ?_)
    split
    · exact .pure _
    · exact .bind (frame_hides.connect _ _) fun _ => .pure _

/-- **Each operation that spares the pending snap keeps both of its ends.** -/
theorem Held.apply (hg : g.Held) (H : g.Wired) (op : Operation) (hspares : op.Spares g) :
    (op.apply g).Held := by
  cases op with
  | insert id name pos =>
    rcases apply_insert g id name pos with ⟨_, hsame⟩ | ⟨d, _, hmade⟩
    · rw [hsame]
      exact hg
    · rw [hmade]
      exact hg.withNew _
  | insertDefinition id d pos =>
    rw [apply_insertDefinition]
    exact hg.withNew _
  | remove id => exact hg.remove H hspares
  | move id pos => exact hg.leaves (frame_hides.moveBlock id pos)
  | connect n d => exact hg.leaves (.bind (frame_hides.connect n d) fun _ => .pure _)
  | disconnect d => exact hg.leaves (.bind (frame_hides.disconnect d) fun _ => .pure _)
  | dragMove id pos => exact Edit.leaves_bind (hg.dragMove H id pos) fun _ _ hh => hh
  | dragEnd id => exact Edit.leaves_bind (hg.dragEnd id) fun _ _ hh => hh
  | updateInput id seg input u => exact hg.leaves (.bind changeInput_fixes_frame fun _ => .pure _)
  | resetInput id seg input => exact hg.leaves (.bind changeInput_fixes_frame fun _ => .pure _)
  | adjustHeight id => exact hg.leaves (.bind (frame_hides.adjustHeight id) fun _ => .pure _)
  | calculateDeepest id =>
    exact hg.leaves (.bind (frame_hides.calculateDeepest id) fun _ => .pure _)

/-! ## Sessions -/

theorem Careful.reachable (hg : Careful ok g) : Reachable ok g := by
  induction hg with
  | start catalog config layout => exact .start catalog config layout (.refl _)
  | loaded d catalog config skipped hd hload =>
    exact .loaded d catalog config skipped hd hload (.refl _)
  | step op _ hfresh hd _ ih => exact ih.step op hfresh hd

theorem Careful.held (hg : Careful ok g) : g.Wired ∧ g.Held := by
  induction hg with
  | start catalog config layout => exact ⟨wired_empty catalog config layout, held_of_idle rfl⟩
  | loaded d catalog config skipped _ hload =>
    refine ⟨Document.toGraph_wired hload, held_of_idle ?_⟩
    rw [Document.toGraph_drag hload]
  | step op _ hfresh _ hspares ih =>
    obtain ⟨H, hg⟩ := ih
    exact ⟨H.apply op hfresh, hg.apply H op hspares⟩

theorem registries_hides : HidesLinks fun g => (g.notches, g.divots) where
  tail _ _ _ := rfl
  extra _ _ _ _ := rfl
  placed g b := (congrArg (fun k : Graph => (k.notches, k.divots)) (frame_placeBlock (g := g) b) :)
  placement _ _ _ := rfl
  next _ _ _ := rfl
  previous _ _ _ := rfl

/-- The pending snap ends at a notch and a divot of blocks that are there. -/
structure Pinned (g : Graph) : Prop where
  notch {c : Candidate} : g.drag.pending = some c →
    g.isNotch c.notch ∧ ∃ up ∈ g.blocks, g.owner c.notch = .ok up
  divot {c : Candidate} : g.drag.pending = some c →
    g.isDivot c.divot ∧ ∃ low ∈ g.blocks, g.owner c.divot = .ok low

theorem Wired.pending_ends (H : g.Wired) (hg : g.Held) : g.Pinned where
  notch {c} hc := by
    obtain ⟨hn, _⟩ := hg c hc
    obtain ⟨p, hp, _⟩ := H.mem_notches.mp hn
    exact ⟨Std.ExtTreeSet.contains_iff_mem.mpr hn, p.block, H.block_mem hp,
      owner_of_getElem? hp⟩
  divot {c} hc := by
    obtain ⟨_, hd⟩ := hg c hc
    obtain ⟨q, hq, _⟩ := H.mem_divots.mp hd
    exact ⟨Std.ExtTreeSet.contains_iff_mem.mpr hd, q.block, H.block_mem hq,
      owner_of_getElem? hq⟩

theorem Sound.exists_dragIndicator (S : g.Sound ok) (hg : g.Held) :
    ∃ r, g.dragIndicator = .ok r := by
  unfold dragIndicator
  cases hc : g.drag.pending with
  | none => exact ⟨none, rfl⟩
  | some c =>
    obtain ⟨hn, hd⟩ := hg c hc
    obtain ⟨p, hp, _⟩ := S.mem_notches.mp hn
    obtain ⟨q, hq, _⟩ := S.mem_divots.mp hd
    obtain ⟨x, hx⟩ := S.toBase.exists_snapPosition hp
    obtain ⟨y, hy⟩ := S.toBase.exists_snapPosition hq
    exact ⟨some (x, y), by simp only [hx, hy, bind, Except.bind]; rfl⟩

/-- A held snap is tried when the block is let go: no end of it is missed. -/
theorem Sound.dragEnd_completes (S : g.Sound Definition.WellFormed) (hg : g.Held)
    (hid : id ∈ g.blocks) : (Graph.dragEnd id).Completes g := by
  rcases S.dragEnd_cases hid with hdone | ⟨c, i, h, hc, hi, hno, hrun⟩
  · exact hdone
  · exfalso
    have hfixed := registries_hides.dragEnd (fun _ _ => rfl) id g
    have H := S.toWired.dragEnd id
    rw [hrun] at hfixed H
    obtain ⟨hn, hd⟩ := Prod.mk.inj hfixed
    obtain ⟨hcn, hcd⟩ := hg c hc
    have hsome : ∃ p, h.snaps[i]? = some p := by
      rcases hi with rfl | rfl
      · exact (H.mem_notches.mp (hn ▸ hcn)).imp fun _ hp => hp.1
      · exact (H.mem_divots.mp (hd ▸ hcd)).imp fun _ hq => hq.1
    obtain ⟨p, hp⟩ := hsome
    cases hno.symm.trans hp

/-- **The pending snap does not dangle** unless a removal takes one of its ends away. Where it does
not, it can be drawn, and the block that is dragged is let go without missing a snap point. -/
theorem Careful.pinned (hg : Careful ok g) :
    g.Pinned ∧ ((∀ d, ok d → d.WellFormed) → (∃ r, g.dragIndicator = .ok r) ∧
      ∀ id, g.drag.active = some id → ∀ i, ((dragEnd id).run g).1 ≠ .error (.snapNotFound i)) := by
  obtain ⟨H, hheld⟩ := hg.held
  refine ⟨H.pending_ends hheld, fun hok => ?_⟩
  have S := (hg.reachable.mono hok).sound fun _ hd => hd.toCoherent
  refine ⟨S.exists_dragIndicator hheld, fun id hactive i => ?_⟩
  cases hb : g.blocks[id]? with
  | none =>
    rw [dragEnd_missing hactive hb]
    exact fun he => by cases he
  | some b =>
    obtain ⟨r, h, hrun⟩ := S.dragEnd_completes hheld (Table.mem_iff.mpr ⟨b, hb⟩)
    rw [hrun]
    exact nofun

/-! ## A drag -/

/-- A loop and its body. -/
def looped : Graph :=
  let g := (Operation.insertDefinition "a" Catalog.whileLoop .origin).apply (empty ∅)
  let g := (Operation.insertDefinition "b" Catalog.broadcast ⟨22.5, 60⟩).apply g
  (Operation.connect "notch-0-a" "divot-0-b").apply g

/-- The body is held under the loop. -/
def hovering : Graph := (Operation.dragMove "b" ⟨0, 232.5⟩).apply looped

theorem careful_looped : Careful Definition.WellFormed looped := by
  have hmake {g : Graph} {id : BlockId} {d : Definition} {pos : Point}
      (hg : Careful Definition.WellFormed g) (hid : g.blocks[id]? = none) (hd : d.WellFormed) :
      Careful Definition.WellFormed ((Operation.insertDefinition id d pos).apply g) := by
    refine .step _ hg ?_ ?_ nofun
    · intro _ _ he
      cases he
      exact hid
    · intro _ _ he
      cases he
      exact hd
  refine .step (.connect "notch-0-a" "divot-0-b") (hmake (hmake ?_ rfl (by decide)) ?_ ?_) nofun
    nofun nofun
  · exact .start ∅ {} .stacked
  · decide +kernel
  · decide

theorem pinned_hovering : hovering.drag.pending = some ⟨"notch-1-a", "divot-0-b", 0⟩ ∧
    hovering.Pinned ∧ (∃ r, hovering.dragIndicator = .ok r) ∧
      ∀ i, ((dragEnd "b").run hovering).1 ≠ .error (.snapNotFound i) := by
  have hcareful : Careful Definition.WellFormed hovering :=
    .step _ careful_looped nofun nofun nofun
  obtain ⟨hpinned, hrest⟩ := Careful.pinned hcareful
  obtain ⟨hindicator, hend⟩ := hrest fun _ hd => hd
  exact ⟨by decide +kernel, hpinned, hindicator, hend "b" (by decide +kernel)⟩

/-- The removal of the loop does not look at the pending snap. -/
example : ((Operation.remove "a").apply hovering).drag.pending.map (·.notch) = some "notch-1-a" ∧
    ((Operation.remove "a").apply hovering).isNotch "notch-1-a" = false := by decide +kernel

end Graph

end SnapBlocks
