import SnapBlocks.Graph.Drag
import SnapBlocks.Graph.Inputs
import SnapBlocks.Graph.Remove
import SnapBlocks.Proofs.View

/-! The writes of an operation. An operation is built of a few writes: of the tails of chains, of
the rest that is derived from the links, of placements, and of the links themselves. A relation that
allows the writes of an operation, and goes through sequences, holds between a graph and what the
operation leaves of it, whether it succeeds or not. So each operation is gone through once: views
that are fixed and invariants that are kept are relations of this kind. -/

namespace SnapBlocks

variable {α β : Type} {R : Graph → Graph → Prop}

/-- A relation holds between each graph and what an edit leaves of it, also when the edit fails. -/
def Edit.Obeys (R : Graph → Graph → Prop) (e : Edit α) : Prop := ∀ g, R g (e.run g).2

namespace Graph

/-- A relation that goes through sequences. -/
structure Sequential (R : Graph → Graph → Prop) : Prop where
  refl (g : Graph) : R g g
  trans {g h k : Graph} : R g h → R h k → R g k

/-- A relation that allows a change of the tails of chains. -/
structure AllowsTails (R : Graph → Graph → Prop) : Prop extends Sequential R where
  tail (g : Graph) (id tail : BlockId) : R g (g.setDeepest id tail)

/-- A relation that allows a change of all that is derived from the links. A block is only laid
out as the graph has it. -/
structure AllowsDerived (R : Graph → Graph → Prop) : Prop extends AllowsTails R where
  extra (g : Graph) (id : BlockId) (segment : String) (x : Float) :
    R g (g.setExtra id segment x)
  placed {g : Graph} {id : BlockId} {b : Block} : g.blocks[id]? = some b → R g (g.placeBlock b)

/-- A relation that allows to put blocks down as well. -/
structure AllowsRoots (R : Graph → Graph → Prop) : Prop extends AllowsDerived R where
  root (g : Graph) (id : BlockId) (position : Point) : R g (g.setPlacement id (.root position))

/-- A relation that allows to put blocks down and to cut links. -/
structure AllowsCuts (R : Graph → Graph → Prop) : Prop extends AllowsRoots R where
  cutNext (g : Graph) (n : SnapId) : R g (g.setNext n none)
  cutPrevious (g : Graph) (d : SnapId) : R g (g.setPrevious d none)

/-- A relation that allows to place blocks in any way. -/
structure AllowsPlacements (R : Graph → Graph → Prop) : Prop extends AllowsRoots R where
  attached (g : Graph) (id : BlockId) (n : SnapId) (offset : Point) :
    R g (g.setPlacement id (.attached n offset))

/-- A relation that allows to place blocks and to change links in any way. -/
structure AllowsLinks (R : Graph → Graph → Prop) : Prop
    extends AllowsCuts R, AllowsPlacements R where
  next (g : Graph) (n : SnapId) (x : Option SnapId) : R g (g.setNext n x)
  previous (g : Graph) (d : SnapId) (x : Option SnapId) : R g (g.setPrevious d x)

/-! ## Sequences -/

namespace Sequential

variable (hR : Sequential R)
include hR

theorem pure (a : α) : (pure a : Edit α).Obeys R := hR.refl

theorem throw (e : GraphError) : (throw e : Edit α).Obeys R := hR.refl

theorem get : (get : Edit Graph).Obeys R := hR.refl

theorem ask (f : Graph → Except GraphError α) : (Edit.ask f).Obeys R := by
  intro g
  rw [Edit.run_ask]
  exact hR.refl g

theorem needBlock (id : BlockId) : (Edit.needBlock id).Obeys R := hR.ask _

theorem needSnap (id : SnapId) : (Edit.needSnap id).Obeys R := hR.ask _

theorem bind {e : Edit α} {f : α → Edit β} (he : e.Obeys R) (hf : ∀ a, (f a).Obeys R) :
    (e >>= f).Obeys R := by
  intro g
  have hg := he g
  rcases hr : e.run g with ⟨x | a, h⟩ <;> rw [hr] at hg
  · rw [Edit.run_bind_error hr]
    exact hg
  · rw [Edit.run_bind_ok hr]
    exact hR.trans hg (hf a h)

/-- A look-up decides what is done next. -/
theorem ask_bind {q : Graph → Except GraphError α} {f : α → Edit β}
    (hf : ∀ g a, q g = .ok a → R g ((f a).run g).2) : (Edit.ask q >>= f).Obeys R := by
  intro g
  exact Edit.leaves_ask (hR.refl g) fun a ha => hf g a ha

end Sequential

/-! ## Tails -/

theorem AllowsTails.refreshDeepest (hR : AllowsTails R) (start : BlockId) (room : Nat)
    (id : Option BlockId) : (refreshDeepest start room id).Obeys R := by
  induction room generalizing id with
  | zero =>
    cases id with
    | none => exact hR.pure ()
    | some id => exact hR.bind hR.get fun _ => hR.throw _
  | succ room ih =>
    cases id with
    | none => exact hR.pure ()
    | some id =>
      unfold Graph.refreshDeepest
      exact hR.bind (hR.ask _) fun tail => hR.bind (fun g => hR.tail g id tail) fun _ =>
        hR.bind (hR.ask _) fun _ => ih _

theorem AllowsTails.calculateDeepest (hR : AllowsTails R) (id : BlockId) :
    (calculateDeepest id).Obeys R := by
  unfold Graph.calculateDeepest
  exact hR.bind (hR.ask _) fun tail => hR.bind (fun g => hR.tail g id tail) fun _ =>
    hR.bind hR.get fun _ => hR.bind (hR.ask _) fun _ =>
      hR.bind (hR.refreshDeepest _ _ _) fun _ => hR.pure _

/-! ## Heights -/

theorem AllowsDerived.relayout (hR : AllowsDerived R) (id : BlockId) :
    (relayout id).Obeys R := by
  unfold Graph.relayout
  exact hR.ask_bind fun g b hb => hR.placed (block_eq_ok.mp hb)

theorem AllowsDerived.measureScopes (hR : AllowsDerived R) (id : BlockId)
    (scopes : List (String × Option SnapId)) : (measureScopes id scopes).Obeys R := by
  induction scopes with
  | nil => exact hR.pure ()
  | cons scope rest ih =>
    unfold Graph.measureScopes
    exact hR.bind (hR.ask _) fun x => hR.bind (fun g => hR.extra g id scope.1 x) fun _ => ih

theorem AllowsDerived.refreshHeight (hR : AllowsDerived R) (id : BlockId) :
    (refreshHeight id).Obeys R := by
  unfold Graph.refreshHeight
  apply hR.bind (hR.needBlock id)
  intro b
  split
  · exact hR.bind (hR.ask _) fun _ => hR.bind (hR.measureScopes id _) fun _ =>
      hR.bind (hR.relayout id) fun _ => hR.pure _
  · exact hR.pure []

theorem AllowsDerived.refreshHeights (hR : AllowsDerived R) (start : BlockId) (room : Nat)
    (id : Option BlockId) : (refreshHeights start room id).Obeys R := by
  induction room generalizing id with
  | zero =>
    cases id with
    | none => exact hR.pure []
    | some id => exact hR.bind hR.get fun _ => hR.throw _
  | succ room ih =>
    cases id with
    | none => exact hR.pure []
    | some id =>
      unfold Graph.refreshHeights
      exact hR.bind (hR.refreshHeight id) fun _ => hR.bind (hR.ask _) fun _ =>
        hR.bind (ih _) fun _ => hR.pure _

theorem AllowsDerived.adjustHeight (hR : AllowsDerived R) (id : BlockId) :
    (adjustHeight id).Obeys R := by
  unfold Graph.adjustHeight
  exact hR.bind hR.get fun _ => hR.refreshHeights id _ _

theorem AllowsDerived.refreshAround (hR : AllowsDerived R) (up low : BlockId) :
    (refreshAround up low).Obeys R := by
  unfold Graph.refreshAround
  exact hR.bind (hR.calculateDeepest up) fun _ => hR.bind (hR.calculateDeepest low) fun _ =>
    hR.bind (hR.adjustHeight up) fun _ => hR.bind (hR.adjustHeight low) fun _ => hR.pure _

theorem AllowsDerived.refreshAll (hR : AllowsDerived R) (touched : List BlockId) :
    (refreshAll touched).Obeys R := by
  induction touched with
  | nil => exact hR.pure ()
  | cons id rest ih =>
    unfold Graph.refreshAll
    exact hR.bind (hR.calculateDeepest id) fun _ => hR.bind (hR.adjustHeight id) fun _ => ih

/-! ## Moving -/

theorem AllowsRoots.detachToRoot (hR : AllowsRoots R) (id : BlockId) :
    (detachToRoot id).Obeys R := by
  unfold Graph.detachToRoot
  exact hR.bind (hR.ask _) fun position => fun g => hR.root g id position

theorem AllowsPlacements.moveBlock (hR : AllowsPlacements R) (id : BlockId) (pos : Point) :
    (moveBlock id pos).Obeys R := by
  unfold Graph.moveBlock
  apply hR.bind (hR.needBlock id)
  intro b
  split
  next => exact fun g => hR.root g id pos
  next n _ _ => exact hR.bind (hR.ask _) fun _ => fun g => hR.attached g id n _

/-! ## Cutting -/

theorem AllowsCuts.unlink (hR : AllowsCuts R) (n d : SnapId) : (unlink n d).Obeys R := by
  unfold Graph.unlink
  exact hR.bind (hR.needSnap n) fun _ => hR.bind (fun g => hR.cutNext g n) fun _ =>
    hR.bind (hR.needSnap d) fun _ => fun g => hR.cutPrevious g d

theorem AllowsCuts.release (hR : AllowsCuts R) (i : SnapId) : (release i).Obeys R := by
  unfold Graph.release
  apply hR.bind (hR.needSnap i)
  intro p
  cases p.previous with
  | none =>
    cases p.next with
    | none => exact hR.bind (hR.pure _) fun _ => hR.bind (hR.pure _) fun _ => hR.pure _
    | some d =>
      exact hR.bind (hR.pure _) fun _ => hR.bind (hR.ask _) fun _ => hR.bind (hR.detachToRoot _)
        fun _ => hR.bind (hR.unlink _ _) fun _ => hR.bind (hR.pure _) fun _ => hR.pure _
  | some n =>
    refine hR.bind (hR.ask _) fun _ => hR.bind (hR.unlink _ _) fun _ =>
      hR.bind (hR.pure _) fun _ => ?_
    cases p.next with
    | none => exact hR.bind (hR.pure _) fun _ => hR.pure _
    | some d =>
      exact hR.bind (hR.ask _) fun _ => hR.bind (hR.detachToRoot _) fun _ =>
        hR.bind (hR.unlink _ _) fun _ => hR.bind (hR.pure _) fun _ => hR.pure _

theorem AllowsCuts.releaseAll (hR : AllowsCuts R) (ids : List SnapId) :
    (releaseAll ids).Obeys R := by
  induction ids with
  | nil => exact hR.pure []
  | cons i rest ih =>
    unfold Graph.releaseAll
    exact hR.bind (hR.release i) fun _ => hR.bind ih fun _ => hR.pure _

theorem AllowsCuts.remove (hR : AllowsCuts R)
    (hdrop : ∀ g ids id, R g ((dropSnaps g ids).dropBlock id)) (id : BlockId) :
    (remove id).Obeys R := by
  unfold Graph.remove
  refine hR.bind (hR.needBlock id) fun b => hR.bind (hR.releaseAll _) fun touched => ?_
  intro g
  rw [Edit.run_bind_ok (Edit.run_change _), Edit.run_bind_ok (Edit.run_change _)]
  exact hR.trans (hdrop g b.snapPoints id) (hR.refreshAll touched _)

/-! ## Linking -/

theorem AllowsLinks.attach (hR : AllowsLinks R) (n d : SnapId) : (attach n d).Obeys R := by
  unfold Graph.attach
  exact hR.bind (hR.needSnap d) fun q => hR.bind (hR.needSnap n) fun p =>
    hR.bind (fun g => hR.next g n _) fun _ => hR.bind (fun g => hR.previous g d _) fun _ =>
      hR.bind (hR.needBlock _) fun _ => hR.bind (fun g => hR.attached g q.block n _) fun _ =>
        hR.bind (hR.refreshAround p.block q.block) fun _ => hR.pure _

theorem AllowsLinks.connect (hR : AllowsLinks R) (n d : SnapId) : (connect n d).Obeys R := by
  unfold Graph.connect
  apply hR.bind (hR.ask _)
  intro r
  cases r with
  | some r => exact hR.pure _
  | none =>
    refine hR.bind (hR.ask _) fun _ => hR.bind (hR.ask _) fun _ => hR.bind hR.get fun _ => ?_
    split
    · exact hR.bind (hR.attach n d) fun _ => hR.pure _
    · exact hR.pure _

theorem AllowsLinks.disconnect (hR : AllowsLinks R) (d : SnapId) :
    (disconnect d).Obeys R := by
  unfold Graph.disconnect
  apply hR.bind (hR.needSnap d)
  intro q
  cases q.previous with
  | none => exact hR.pure _
  | some n =>
    refine hR.bind (hR.ask _) fun _ => hR.bind (hR.ask _) fun _ => hR.bind (hR.ask _) fun _ =>
      hR.bind hR.get fun _ => ?_
    split
    · exact hR.bind (hR.ask _) fun _ => hR.bind (hR.moveBlock _ _) fun _ => hR.pure _
    · exact hR.bind (hR.detachToRoot _) fun _ => hR.bind (hR.unlink _ _) fun _ =>
        hR.bind (hR.refreshAround _ _) fun _ => hR.pure _

theorem AllowsLinks.releaseAbove (hR : AllowsLinks R) (id : BlockId) :
    (releaseAbove id).Obeys R := by
  unfold Graph.releaseAbove
  apply hR.bind (hR.needBlock id)
  intro b
  split
  · exact hR.pure none
  · apply hR.bind (hR.needSnap _)
    intro q
    split
    · exact hR.bind (hR.disconnect _) fun _ => hR.pure _
    · exact hR.pure none

/-! ## Dragging -/

section

variable (hdrag : ∀ (g : Graph) (x : Drag), R g { g with drag := x })
include hdrag

theorem AllowsPlacements.dragMove (hR : AllowsPlacements R) (id : BlockId) (pos : Point) :
    (dragMove id pos).Obeys R := by
  unfold Graph.dragMove
  apply hR.bind hR.get
  intro k
  split
  · exact hR.pure none
  · exact hR.bind (fun g => hdrag g _) fun _ => hR.bind (hR.moveBlock id pos) fun _ =>
      hR.bind (hR.ask _) fun _ => hR.bind (fun g => hdrag g _) fun _ => hR.pure _

theorem AllowsLinks.dragEnd (hR : AllowsLinks R) (id : BlockId) : (dragEnd id).Obeys R := by
  unfold Graph.dragEnd
  apply hR.bind hR.get
  intro k
  split
  · exact hR.pure _
  · refine hR.bind hR.get fun _ => hR.bind (fun g => hdrag g {}) fun _ =>
      hR.bind (hR.releaseAbove id) fun _ => ?_
    split
    · exact hR.pure _
    · exact hR.bind (hR.connect _ _) fun _ => hR.pure _

end

/-! ## Inputs -/

/-- The one write of a change of an input. -/
theorem Sequential.changeInput (hR : Sequential R) {id : BlockId} {segment input : String}
    {f : InputBinding → InputBinding}
    (hinput : ∀ g : Graph, R g (g.modifyBlock id (·.modifyInput segment input f))) :
    (changeInput id segment input f).Obeys R := by
  unfold Graph.changeInput
  exact hR.bind (hR.ask _) fun _ => hR.bind hinput fun _ => hR.pure _

end Graph

end SnapBlocks
