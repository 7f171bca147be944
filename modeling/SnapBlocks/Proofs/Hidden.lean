import SnapBlocks.Proofs.Writes

/-! What a view hides. A view that shows none of the writes of an operation is fixed by it, whether
it succeeds or not, so a view only has to say which writes it hides. -/

namespace SnapBlocks.Graph

/-- A view that does not show the tails of chains. -/
structure HidesTails (view : Graph → γ) : Prop where
  tail (g : Graph) (id tail : BlockId) : view (g.setDeepest id tail) = view g

/-- A view that shows nothing that is derived from the links. -/
structure HidesDerived (view : Graph → γ) : Prop extends HidesTails view where
  extra (g : Graph) (id : BlockId) (segment : String) (x : Float) :
    view (g.setExtra id segment x) = view g
  placed (g : Graph) (b : Block) : view (g.placeBlock b) = view g

/-- A view that does not show where blocks are either. -/
structure HidesPlacements (view : Graph → γ) : Prop extends HidesDerived view where
  placement (g : Graph) (id : BlockId) (pl : Placement) : view (g.setPlacement id pl) = view g

/-- A view that does not show the links either. -/
structure HidesLinks (view : Graph → γ) : Prop extends HidesPlacements view where
  next (g : Graph) (n : SnapId) (x : Option SnapId) : view (g.setNext n x) = view g
  previous (g : Graph) (d : SnapId) (x : Option SnapId) : view (g.setPrevious d x) = view g

theorem shape_hides : HidesDerived shape where
  tail _ _ _ := shape_setDeepest
  extra _ _ _ _ := shape_setExtra
  placed _ b := shape_placeBlock b

theorem wires_hides : HidesPlacements wires where
  tail g id tail := wires_of_shape (shape_hides.tail g id tail)
  extra g id seg x := wires_of_shape (shape_hides.extra g id seg x)
  placed g b := wires_of_shape (shape_hides.placed g b)
  placement _ _ _ := wires_setPlacement

variable {view : Graph → γ}

/-! ## Hidden writes are allowed

To fix a view is to obey the relation of graphs that it does not tell apart. -/

/-- A view does not tell two graphs apart. -/
def Alike (view : Graph → γ) (g h : Graph) : Prop := view h = view g

theorem alike_sequential : Sequential (Alike view) where
  refl _ := rfl
  trans hgh hhk := Eq.trans hhk hgh

theorem HidesTails.allows (hv : HidesTails view) : AllowsTails (Alike view) where
  toSequential := alike_sequential
  tail := hv.tail

theorem HidesDerived.allows (hv : HidesDerived view) : AllowsDerived (Alike view) where
  toAllowsTails := hv.toHidesTails.allows
  extra := hv.extra
  placed _ := hv.placed _ _

theorem HidesPlacements.allows (hv : HidesPlacements view) : AllowsPlacements (Alike view) where
  toAllowsDerived := hv.toHidesDerived.allows
  root _ _ _ := hv.placement _ _ _
  attached _ _ _ _ := hv.placement _ _ _

theorem HidesLinks.allows (hv : HidesLinks view) : AllowsLinks (Alike view) where
  toAllowsRoots := hv.toHidesPlacements.allows.toAllowsRoots
  attached _ _ _ _ := hv.placement _ _ _
  cutNext _ _ := hv.next _ _ _
  cutPrevious _ _ := hv.previous _ _ _
  next := hv.next
  previous := hv.previous

/-! ## Operations -/

theorem HidesTails.calculateDeepest (hv : HidesTails view) (id : BlockId) :
    (calculateDeepest id).Fixes view := hv.allows.calculateDeepest id

theorem HidesDerived.measureScopes (hv : HidesDerived view) (id : BlockId)
    (scopes : List (String × Option SnapId)) : (measureScopes id scopes).Fixes view :=
  hv.allows.measureScopes id scopes

theorem HidesDerived.refreshHeight (hv : HidesDerived view) (id : BlockId) :
    (refreshHeight id).Fixes view := hv.allows.refreshHeight id

theorem HidesDerived.adjustHeight (hv : HidesDerived view) (id : BlockId) :
    (adjustHeight id).Fixes view := hv.allows.adjustHeight id

theorem HidesDerived.refreshAround (hv : HidesDerived view) (up low : BlockId) :
    (refreshAround up low).Fixes view := hv.allows.refreshAround up low

theorem HidesDerived.refreshAll (hv : HidesDerived view) (touched : List BlockId) :
    (refreshAll touched).Fixes view := hv.allows.refreshAll touched

theorem HidesPlacements.moveBlock (hv : HidesPlacements view) (id : BlockId) (pos : Point) :
    (moveBlock id pos).Fixes view := hv.allows.moveBlock id pos

theorem HidesPlacements.detachToRoot (hv : HidesPlacements view) (id : BlockId) :
    (detachToRoot id).Fixes view := hv.allows.detachToRoot id

theorem HidesLinks.attach (hv : HidesLinks view) (n d : SnapId) : (attach n d).Fixes view :=
  hv.allows.attach n d

theorem HidesLinks.connect (hv : HidesLinks view) (n d : SnapId) : (connect n d).Fixes view :=
  hv.allows.connect n d

theorem HidesLinks.disconnect (hv : HidesLinks view) (d : SnapId) :
    (disconnect d).Fixes view := hv.allows.disconnect d

theorem HidesLinks.releaseAbove (hv : HidesLinks view) (id : BlockId) :
    (releaseAbove id).Fixes view := hv.allows.releaseAbove id

theorem HidesLinks.releaseAll (hv : HidesLinks view) (ids : List SnapId) :
    (releaseAll ids).Fixes view := hv.allows.releaseAll ids

section

variable (hdrag : ∀ (g : Graph) (x : Drag), view { g with drag := x } = view g)
include hdrag

theorem HidesPlacements.dragMove (hv : HidesPlacements view) (id : BlockId) (pos : Point) :
    (dragMove id pos).Fixes view := hv.allows.dragMove hdrag id pos

theorem HidesLinks.dragEnd (hv : HidesLinks view) (id : BlockId) : (dragEnd id).Fixes view :=
  hv.allows.dragEnd hdrag id

end

theorem changeInput_fixes {id : BlockId} {segment input : String}
    {f : InputBinding → InputBinding}
    (hv : ∀ g : Graph, view (g.modifyBlock id (·.modifyInput segment input f)) = view g) :
    (changeInput id segment input f).Fixes view := alike_sequential.changeInput hv

end SnapBlocks.Graph
