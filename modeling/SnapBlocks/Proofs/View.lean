import SnapBlocks.Graph.Height
import SnapBlocks.Graph.Link
import SnapBlocks.Proofs.Edit
import SnapBlocks.Proofs.Slot

/-! Views of a graph. Each forgets more of it than the one before:

* `Graph.shape` forgets what is derived from the links: heights, tails and local positions;
* `Graph.wires` forgets inputs and placements too, and keeps blocks, snap points and links;
* `Graph.stock` forgets the links as well.

Two graphs with one view agree on every walk that reads no more than the view keeps, so an
operation is shown once to leave a view as it was, and walks are carried over by equality. -/

namespace SnapBlocks

/-- A block without what is derived from links. -/
def Block.bare (b : Block) : Block := { b with extra := ∅, deepest := "", height := 0 }

/-- A block without all that changes after it was made. -/
def Block.stem (b : Block) : Block :=
  { b with extra := ∅, deepest := "", inputs := ∅, height := 0, placement := .root .origin }

/-- A snap point without its place. -/
def SnapPoint.unplaced (p : SnapPoint) : SnapPoint := { p with position := .origin }

/-- A snap point without its place and its links. -/
def SnapPoint.blank (p : SnapPoint) : SnapPoint :=
  { p with previous := none, next := none, position := .origin }

theorem Block.eq_of_stem {b c : Block} (h : b.stem = c.stem) :
    b.id = c.id ∧ b.definition = c.definition := by
  simpa [stem] using h

theorem Block.eq_of_bare {b c : Block} (h : b.bare = c.bare) :
    b.id = c.id ∧ b.definition = c.definition ∧ b.inputs = c.inputs ∧
      b.placement = c.placement := by
  simpa [bare] using h

theorem SnapPoint.eq_of_blank {p q : SnapPoint} (h : p.blank = q.blank) :
    p.id = q.id ∧ p.block = q.block ∧ p.segmentId = q.segmentId ∧
      p.segmentIndex = q.segmentIndex ∧ p.kind = q.kind := by
  simpa [blank] using h

theorem SnapPoint.eq_of_unplaced {p q : SnapPoint} (h : p.unplaced = q.unplaced) :
    p.blank = q.blank ∧ p.previous = q.previous ∧ p.next = q.next := by
  simp_all [unplaced, blank]

namespace Graph

variable {g h : Graph} {eb : Block → Block} {es : SnapPoint → SnapPoint}
variable {at? : Block → Option SnapId} {link : SnapPoint → Option SnapId}
variable {id low up tail : BlockId} {n d : SnapId}

/-- A graph without its drag and its catalog, seen through a view of blocks and one of snap
points. -/
def view (eb : Block → Block) (es : SnapPoint → SnapPoint) (g : Graph) : Graph :=
  { g with
    catalog := ∅
    blocks := g.blocks.map fun _ b => eb b
    snaps := g.snaps.map fun _ p => es p
    drag := {} }

/-- A graph without heights, tails and local positions. -/
def shape (g : Graph) : Graph := g.view Block.bare SnapPoint.unplaced

/-- The blocks, snap points and links of a graph. -/
def wires (g : Graph) : Graph := g.view Block.stem SnapPoint.unplaced

/-- The blocks and snap points of a graph. -/
def stock (g : Graph) : Graph := g.view Block.stem SnapPoint.blank

theorem ext (hc : g.config = h.config) (hk : g.catalog = h.catalog) (hl : g.layout = h.layout)
    (hb : ∀ i : BlockId, g.blocks[i]? = h.blocks[i]?)
    (hs : ∀ i : SnapId, g.snaps[i]? = h.snaps[i]?) (hn : g.notches = h.notches)
    (hd : g.divots = h.divots) (ht : g.drag = h.drag) : g = h := by
  obtain ⟨_, _, _, _, _, _, _, _⟩ := g
  obtain ⟨_, _, _, _, _, _, _, _⟩ := h
  cases hc; cases hk; cases hl; cases Table.ext hb; cases Table.ext hs; cases hn; cases hd; cases ht
  rfl

/-! ## Looking through a view -/

@[simp] theorem getElem?_blocks_view (i : BlockId) :
    (g.view eb es).blocks[i]? = g.blocks[i]?.map eb := Std.ExtTreeMap.getElem?_map

@[simp] theorem getElem?_snaps_view (i : SnapId) :
    (g.view eb es).snaps[i]? = g.snaps[i]?.map es := Std.ExtTreeMap.getElem?_map

@[simp] theorem config_view : (g.view eb es).config = g.config := rfl
@[simp] theorem layout_view : (g.view eb es).layout = g.layout := rfl
@[simp] theorem notches_view : (g.view eb es).notches = g.notches := rfl
@[simp] theorem divots_view : (g.view eb es).divots = g.divots := rfl
@[simp] theorem size_view : (g.view eb es).size = g.size := Std.ExtTreeMap.size_map

theorem view_ext (hc : g.config = h.config) (hl : g.layout = h.layout)
    (hb : ∀ i : BlockId, g.blocks[i]?.map eb = h.blocks[i]?.map eb)
    (hs : ∀ i : SnapId, g.snaps[i]?.map es = h.snaps[i]?.map es) (hn : g.notches = h.notches)
    (hd : g.divots = h.divots) : g.view eb es = h.view eb es :=
  ext hc rfl hl (fun i => by simpa using hb i) (fun i => by simpa using hs i) hn hd rfl

theorem wires_of_shape (e : g.shape = h.shape) : g.wires = h.wires := by
  have hview (k : Graph) : k.wires = k.shape.view Block.stem SnapPoint.unplaced :=
    ext rfl rfl rfl (fun i => by simp [wires, shape]; rfl) (fun i => by simp [wires, shape]; rfl)
      rfl rfl rfl
  rw [hview, hview, e]

theorem stock_of_wires (e : g.wires = h.wires) : g.stock = h.stock := by
  have hview (k : Graph) : k.stock = k.wires.view Block.stem SnapPoint.blank :=
    ext rfl rfl rfl (fun i => by simp [stock, wires]; rfl) (fun i => by simp [stock, wires]; rfl)
      rfl rfl rfl
  rw [hview, hview, e]

section
variable (e : g.view eb es = h.view eb es)
include e

theorem config_eq_of_view : g.config = h.config := (congrArg config e :)
theorem layout_eq_of_view : g.layout = h.layout := (congrArg layout e :)
theorem notches_eq_of_view : g.notches = h.notches := (congrArg notches e :)
theorem divots_eq_of_view : g.divots = h.divots := (congrArg divots e :)

theorem size_eq_of_view : g.size = h.size := by
  simpa using congrArg size e

theorem blocks_eq_of_view (i : BlockId) : g.blocks[i]?.map eb = h.blocks[i]?.map eb := by
  simpa using congrArg (fun k : Graph => k.blocks[i]?) e

theorem snaps_eq_of_view (i : SnapId) : g.snaps[i]?.map es = h.snaps[i]?.map es := by
  simpa using congrArg (fun k : Graph => k.snaps[i]?) e

theorem exists_block_of_view {i : BlockId} {b : Block} (hb : g.blocks[i]? = some b) :
    ∃ c, h.blocks[i]? = some c ∧ eb b = eb c := by
  have hi := blocks_eq_of_view e i
  rw [hb, Option.map_some, eq_comm, Option.map_eq_some_iff] at hi
  obtain ⟨c, hc, heq⟩ := hi
  exact ⟨c, hc, heq.symm⟩

theorem exists_snap_of_view {i : SnapId} {p : SnapPoint} (hp : g.snaps[i]? = some p) :
    ∃ q, h.snaps[i]? = some q ∧ es p = es q := by
  have hi := snaps_eq_of_view e i
  rw [hp, Option.map_some, eq_comm, Option.map_eq_some_iff] at hi
  obtain ⟨q, hq, heq⟩ := hi
  exact ⟨q, hq, heq.symm⟩

theorem blocks_eq_none_of_view {i : BlockId} (hb : g.blocks[i]? = none) :
    h.blocks[i]? = none := by
  have hi := blocks_eq_of_view e i
  rwa [hb, Option.map_none, eq_comm, Option.map_eq_none_iff] at hi

theorem snaps_eq_none_of_view {i : SnapId} (hp : g.snaps[i]? = none) :
    h.snaps[i]? = none := by
  have hi := snaps_eq_of_view e i
  rwa [hp, Option.map_none, eq_comm, Option.map_eq_none_iff] at hi

/-- What a view keeps of a snap point may be said on either side. -/
theorem exists_snap_iff_of_view {P : SnapPoint → Prop} (hP : ∀ {p q}, es p = es q → P p → P q)
    {i : SnapId} : (∃ p, g.snaps[i]? = some p ∧ P p) ↔ ∃ p, h.snaps[i]? = some p ∧ P p := by
  constructor
  · rintro ⟨p, hp, hk⟩
    obtain ⟨q, hq, hpq⟩ := exists_snap_of_view e hp
    exact ⟨q, hq, hP hpq hk⟩
  · rintro ⟨p, hp, hk⟩
    obtain ⟨q, hq, hpq⟩ := exists_snap_of_view e.symm hp
    exact ⟨q, hq, hP hpq hk⟩

theorem mem_blocks_of_view {i : BlockId} : i ∈ g.blocks ↔ i ∈ h.blocks := by
  have hi := congrArg Option.isSome (blocks_eq_of_view e i)
  simp only [Option.isSome_map] at hi
  rw [Std.ExtTreeMap.mem_iff_isSome_getElem?, Std.ExtTreeMap.mem_iff_isSome_getElem?, hi]

end

/-! ## Primitive changes and views -/

theorem view_modifyBlock {f : Block → Block} (hf : ∀ b, eb (f b) = eb b) (g : Graph)
    (id : BlockId) : (g.modifyBlock id f).view eb es = g.view eb es := by
  refine view_ext rfl rfl (fun i => ?_) (fun _ => rfl) rfl rfl
  rw [modifyBlock, Table.getElem?_modify]
  split
  · cases g.blocks[i]? <;> simp [hf]
  · rfl

theorem view_modifySnap {f : SnapPoint → SnapPoint} (hf : ∀ p, es (f p) = es p) (g : Graph)
    (id : SnapId) : (g.modifySnap id f).view eb es = g.view eb es := by
  refine view_ext rfl rfl (fun _ => rfl) (fun i => ?_) rfl rfl
  rw [modifySnap, Table.getElem?_modify]
  split
  · cases g.snaps[i]? <;> simp [hf]
  · rfl

@[simp] theorem shape_setDeepest : (g.setDeepest id tail).shape = g.shape :=
  view_modifyBlock (by intro _; rfl) g id

@[simp] theorem shape_setExtra : (g.setExtra id seg x).shape = g.shape :=
  view_modifyBlock (by intro _; rfl) g id

@[simp] theorem shape_setPositions (l : List (SnapId × Point)) :
    (g.setPositions l).shape = g.shape := by
  induction l generalizing g with
  | nil => rfl
  | cons p rest ih =>
    exact ih.trans (view_modifySnap (f := fun q => { q with position := p.2 }) (fun _ => rfl) g p.1)

@[simp] theorem shape_placeBlock (b : Block) : (g.placeBlock b).shape = g.shape := by
  unfold placeBlock
  exact (view_modifyBlock (by intro _; rfl) _ b.id).trans (shape_setPositions _)

@[simp] theorem wires_setPlacement : (g.setPlacement id pl).wires = g.wires :=
  view_modifyBlock (by intro _; rfl) g id

@[simp] theorem stock_setPlacement : (g.setPlacement id pl).stock = g.stock :=
  view_modifyBlock (by intro _; rfl) g id

@[simp] theorem stock_setNext : (g.setNext n x).stock = g.stock :=
  view_modifySnap (by intro _; rfl) g n

@[simp] theorem stock_setPrevious : (g.setPrevious d x).stock = g.stock :=
  view_modifySnap (by intro _; rfl) g d

theorem getElem?_snaps_setNext (n i : SnapId) (x : Option SnapId) :
    (g.setNext n x).snaps[i]? =
      if n = i then g.snaps[i]?.map fun p => { p with next := x } else g.snaps[i]? :=
  Table.getElem?_modify n i _

theorem getElem?_snaps_setPrevious (d i : SnapId) (x : Option SnapId) :
    (g.setPrevious d x).snaps[i]? =
      if d = i then g.snaps[i]?.map fun p => { p with previous := x } else g.snaps[i]? :=
  Table.getElem?_modify d i _

theorem getElem?_blocks_setPlacement (id i : BlockId) (pl : Placement) :
    (g.setPlacement id pl).blocks[i]? =
      if id = i then g.blocks[i]?.map fun b => { b with placement := pl } else g.blocks[i]? :=
  Table.getElem?_modify id i _

theorem getElem?_blocks_setDeepest (id i tail : BlockId) :
    (g.setDeepest id tail).blocks[i]? =
      if id = i then g.blocks[i]?.map fun b => { b with deepest := tail } else g.blocks[i]? :=
  Table.getElem?_modify id i _

/-! ## Look-ups -/

theorem block_eq_ok {id : BlockId} {b : Block} : g.block id = .ok b ↔ g.blocks[id]? = some b := by
  unfold block
  cases g.blocks[id]? <;> simp

theorem snap_eq_ok {id : SnapId} {p : SnapPoint} : g.snap id = .ok p ↔ g.snaps[id]? = some p := by
  unfold snap
  cases g.snaps[id]? <;> simp

theorem block_of_getElem? {id : BlockId} (h : g.blocks[id]? = some b) : g.block id = .ok b :=
  block_eq_ok.mpr h

theorem snap_of_getElem? {id : SnapId} (h : g.snaps[id]? = some p) : g.snap id = .ok p :=
  snap_eq_ok.mpr h

theorem owner_of_getElem? {id : SnapId} (h : g.snaps[id]? = some p) :
    g.owner id = .ok p.block := by
  rw [owner, snap_of_getElem? h]; rfl

theorem owner_eq_ok {id : SnapId} :
    g.owner id = .ok b ↔ ∃ p, g.snaps[id]? = some p ∧ p.block = b := by
  unfold owner snap
  cases g.snaps[id]? <;> simp [bind, Except.bind, pure, Except.pure]

/-- The block across the link at one end of a block. -/
def beyond (g : Graph) (at? : Block → Option SnapId) (link : SnapPoint → Option SnapId)
    (id : BlockId) : Except GraphError (Option BlockId) := do
  match at? (← g.block id) with
  | none => return none
  | some i => g.owner? (link (← g.snap i))

theorem beyond_eq_some :
    g.beyond at? link id = .ok (some x) ↔
      ∃ b i p j q, g.blocks[id]? = some b ∧ at? b = some i ∧ g.snaps[i]? = some p ∧
        link p = some j ∧ g.snaps[j]? = some q ∧ q.block = x := by
  unfold beyond owner? owner block snap
  cases hb : g.blocks[id]? with
  | none => simp [bind, Except.bind]
  | some b =>
    cases hi : at? b with
    | none => simp [bind, Except.bind, pure, Except.pure, hi]
    | some i =>
      cases hp : g.snaps[i]? with
      | none => simp [bind, Except.bind, hi, hp]
      | some p =>
        cases hj : link p with
        | none => simp [bind, Except.bind, hi, hp, hj]
        | some j => cases hq : g.snaps[j]? <;> simp [bind, Except.bind, pure, Except.pure, *]

theorem beyond_eq_none :
    g.beyond at? link id = .ok none ↔
      ∃ b, g.blocks[id]? = some b ∧
        ∀ i, at? b = some i → ∃ p, g.snaps[i]? = some p ∧ link p = none := by
  unfold beyond owner? owner block snap
  cases hb : g.blocks[id]? with
  | none => simp [bind, Except.bind]
  | some b =>
    cases hi : at? b with
    | none => simp [bind, Except.bind, pure, Except.pure, hi]
    | some i =>
      cases hp : g.snaps[i]? with
      | none => simp [bind, Except.bind, hi, hp]
      | some p =>
        cases hj : link p with
        | none => simp [bind, Except.bind, hi, hp, hj]
        | some j => cases hq : g.snaps[j]? <;> simp [bind, Except.bind, pure, Except.pure, *]

/-- A block hangs from the notch that its divot names. -/
theorem predecessor_eq_some :
    g.predecessor id = .ok (some up) ↔
      ∃ b d p n q, g.blocks[id]? = some b ∧ b.primaryDivot = some d ∧ g.snaps[d]? = some p ∧
        p.previous = some n ∧ g.snaps[n]? = some q ∧ q.block = up :=
  beyond_eq_some

theorem predecessor_eq_none :
    g.predecessor id = .ok none ↔
      ∃ b, g.blocks[id]? = some b ∧
        ∀ d, b.primaryDivot = some d → ∃ p, g.snaps[d]? = some p ∧ p.previous = none :=
  beyond_eq_none

theorem primaryNext_eq_some :
    g.primaryNext id = .ok (some low) ↔
      ∃ b n p d q, g.blocks[id]? = some b ∧ b.primaryNotch = some n ∧ g.snaps[n]? = some p ∧
        p.next = some d ∧ g.snaps[d]? = some q ∧ q.block = low :=
  beyond_eq_some

theorem primaryNext_eq_none :
    g.primaryNext id = .ok none ↔
      ∃ b, g.blocks[id]? = some b ∧
        ∀ n, b.primaryNotch = some n → ∃ p, g.snaps[n]? = some p ∧ p.next = none :=
  beyond_eq_none

/-! ## Walks through a view -/

section
variable (e : g.wires = h.wires)
include e

theorem owner_congr (id : SnapId) : g.owner id = h.owner id := by
  have hi := snaps_eq_of_view e id
  unfold owner snap
  revert hi
  cases g.snaps[id]? <;> cases h.snaps[id]? <;>
    simp [bind, Except.bind, pure, Except.pure, SnapPoint.unplaced]
  intros; assumption

/-- A walk along the links reads no more of a graph than its wires. -/
theorem beyond_congr (hat : ∀ b : Block, at? b.stem = at? b)
    (hlink : ∀ p : SnapPoint, link p.unplaced = link p) (id : BlockId) :
    g.beyond at? link id = h.beyond at? link id := by
  have howner (x : Option SnapId) : g.owner? x = h.owner? x := by
    cases x with
    | none => rfl
    | some i => rw [owner?, owner?, owner_congr e]
  unfold beyond block snap
  cases hb : g.blocks[id]? with
  | none =>
    rw [blocks_eq_none_of_view e hb]
    rfl
  | some b =>
    obtain ⟨c, hc, hbc⟩ := exists_block_of_view e hb
    have hends : at? c = at? b := by rw [← hat c, ← hbc, hat]
    rw [hc]
    simp only [bind, Except.bind, hends]
    cases at? b with
    | none => rfl
    | some i =>
      cases hp : g.snaps[i]? with
      | none => simp only [hp, snaps_eq_none_of_view e hp]
      | some p =>
        obtain ⟨q, hq, hpq⟩ := exists_snap_of_view e hp
        have hends : link q = link p := by rw [← hlink q, ← hpq, hlink]
        simp only [hp, hq, hends, howner]

theorem predecessor_congr (id : BlockId) : g.predecessor id = h.predecessor id :=
  beyond_congr e (fun _ => rfl) (fun _ => rfl) id

theorem primaryNext_congr (id : BlockId) : g.primaryNext id = h.primaryNext id :=
  beyond_congr e (fun _ => rfl) (fun _ => rfl) id

theorem chainAfter_congr (start : BlockId) (room : Nat) (id : BlockId) :
    g.chainAfter start room id = h.chainAfter start room id := by
  induction room generalizing id with
  | zero =>
    unfold chainAfter
    rw [primaryNext_congr e, config_eq_of_view e]
  | succ room ih =>
    unfold chainAfter
    rw [primaryNext_congr e]
    simp only [ih]

theorem primaryChain_congr (id : BlockId) : g.primaryChain id = h.primaryChain id := by
  unfold primaryChain
  rw [chainAfter_congr e, config_eq_of_view e]

theorem chainTail_congr (id : BlockId) : g.chainTail id = h.chainTail id := by
  unfold chainTail
  rw [primaryChain_congr e]

end

end Graph

end SnapBlocks
