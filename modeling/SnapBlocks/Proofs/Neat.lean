import SnapBlocks.Proofs.Integrity

/-! Graphs whose segments are not told apart. Links and walks read of a definition which kinds of
snap points its segments have, and nothing else. So a graph may be seen with neat definitions, in
which each segment is named by its index and declares no input: all walks and checks of links
answer as before, and a block with one divot at most has a coherent definition then. In this way
what was shown of forests holds where segment ids or input ids repeat. -/

namespace SnapBlocks

/-- A segment that is named by its index. -/
def Segment.neat (s : Segment) (index : Nat) : Segment :=
  { s with id := toString index, inputs := [] }

/-- A slot whose segment is named by its index. -/
def Slot.neat (s : Slot) : Slot := { s with segmentId := toString s.index }

/-- A definition whose segments are named by their indices. -/
def Definition.neat (d : Definition) : Definition :=
  { d with segments := d.segments.mapIdx fun i s => s.neat i }

/-- A block of which links and walks are all that is kept. -/
def Block.neat (b : Block) : Block := { b.stem with definition := b.definition.neat }

/-- A snap point whose segment is named by its index. -/
def SnapPoint.neat (p : SnapPoint) : SnapPoint :=
  { p.unplaced with segmentId := toString p.segmentIndex }

namespace Definition

variable {d : Definition}

/-- A definition by which a block hangs in one place at most. -/
def SingleDivot (d : Definition) : Prop := (d.segments.filter (·.divot)).length ≤ 1

instance : Decidable d.SingleDivot := inferInstanceAs (Decidable (_ ≤ _))

theorem slots_segment_neat (s : Segment) (count index : Nat) :
    (s.neat index).slots count index = (s.slots count index).map Slot.neat := by
  unfold Segment.slots Segment.neat
  split <;> split <;> rfl

theorem slots_neat (d : Definition) : d.neat.slots = d.slots.map Slot.neat := by
  have hzip : (d.segments.mapIdx fun i s => s.neat i).zipIdx =
      d.segments.zipIdx.map fun p => (p.1.neat p.2, p.2) := by
    refine List.ext_getElem? fun i => ?_
    cases hi : d.segments[i]? <;> simp [List.getElem?_zipIdx, hi]
  unfold slots
  simp only [neat, List.length_mapIdx, hzip, List.flatMap_map, List.map_flatMap,
    slots_segment_neat]

theorem slot?_neat (kind : SnapKind) : d.neat.slot? kind = (d.slot? kind).map Slot.neat := by
  unfold slot?
  rw [slots_neat, List.filter_map, List.getLast?_map]
  rfl

theorem neat_coherent (hd : d.SingleDivot) : d.neat.Coherent where
  divot_unique := by
    have hcount (l : List Segment) (k : Nat) :
        ((l.mapIdx fun i s => s.neat (k + i)).filter (·.divot)).length =
          (l.filter (·.divot)).length := by
      induction l generalizing k with
      | nil => rfl
      | cons s rest ih =>
        have hrest := ih (k + 1)
        simp only [List.mapIdx_cons, List.filter_cons, Nat.add_assoc, Nat.add_comm 1] at hrest ⊢
        split <;> simp_all [Segment.neat]
    have := hcount d.segments 0
    simp only [Nat.zero_add] at this
    exact this ▸ hd
  segments_nodup := by
    have hids : d.neat.segments.map (·.id) = (List.range d.segments.length).map toString := by
      refine List.ext_getElem? fun i => ?_
      by_cases hi : i < d.segments.length <;> simp [neat, Segment.neat, hi]
    rw [hids]
    exact List.nodup_range.map fun _ _ => Nat.repr_injective
  inputs_nodup := by
    intro s hs
    obtain ⟨i, hi, rfl⟩ := List.mem_mapIdx.mp hs
    exact List.nodup_nil

end Definition

theorem Block.snapPoints_neat (b : Block) : b.neat.snapPoints = b.snapPoints := by
  unfold snapPoints
  change b.definition.neat.slots.map _ = _
  rw [Definition.slots_neat, List.map_map]
  rfl

theorem Block.end_neat (b : Block) (kind : SnapKind) :
    (b.neat.definition.slot? kind).map (·.snapId b.neat.id) =
      (b.definition.slot? kind).map (·.snapId b.id) := by
  change (b.definition.neat.slot? kind).map _ = _
  rw [Definition.slot?_neat, Option.map_map]
  rfl

namespace Graph

variable {g h : Graph} {b : Block} {id : BlockId} {n d i : SnapId} {p q : SnapPoint}

/-- The wires of a graph, with neat definitions. -/
def neat (g : Graph) : Graph := g.view Block.neat SnapPoint.neat

theorem neat_of_wires (e : g.wires = h.wires) : g.neat = h.neat := by
  have hview (k : Graph) : k.neat = k.wires.view Block.neat SnapPoint.neat :=
    ext rfl rfl rfl (fun i => by simp [neat, wires]; rfl) (fun i => by simp [neat, wires]; rfl)
      rfl rfl rfl
  rw [hview, hview, e]

theorem mem_blocks_neat : id ∈ g.neat.blocks ↔ id ∈ g.blocks := by
  rw [Table.mem_iff, Table.mem_iff, neat, getElem?_blocks_view]
  cases g.blocks[id]? <;> simp

theorem exists_snap_neat {P : SnapPoint → Prop} (hP : ∀ p, P p.neat ↔ P p) :
    (∃ p, g.neat.snaps[i]? = some p ∧ P p) ↔ ∃ p, g.snaps[i]? = some p ∧ P p := by
  rw [neat, getElem?_snaps_view]
  cases g.snaps[i]? <;> simp [hP]

theorem linked_neat : g.neat.Linked n d ↔ g.Linked n d := exists_snap_neat fun _ => Iff.rfl

theorem hung_neat : g.neat.Hung d n ↔ g.Hung d n := exists_snap_neat fun _ => Iff.rfl

/-! ## Integrity -/

theorem Stocked.neat (H : g.Stocked) : g.neat.Stocked where
  block_id {id b} hb := by
    rw [Graph.neat, getElem?_blocks_view] at hb
    obtain ⟨c, hc, rfl⟩ := Option.map_eq_some_iff.mp hb
    exact (H.block_id hc : c.id = id)
  snap_of {i p} hp := by
    rw [Graph.neat, getElem?_snaps_view] at hp
    obtain ⟨q, hq, rfl⟩ := Option.map_eq_some_iff.mp hp
    obtain ⟨b, hb, s, hs, hi, hfresh⟩ := H.snap_of hq
    refine ⟨b.neat, ?_, s.neat, ?_, hi, ?_⟩
    · change (g.view Block.neat SnapPoint.neat).blocks[q.block]? = _
      rw [getElem?_blocks_view, hb, Option.map_some]
    · exact Definition.slots_neat _ ▸ List.mem_map_of_mem hs
    · exact congrArg (fun p : SnapPoint => p.neat) hfresh
  snap_at {id b s} hb hs := by
    rw [Graph.neat, getElem?_blocks_view] at hb
    obtain ⟨c, hc, rfl⟩ := Option.map_eq_some_iff.mp hb
    have hs : s ∈ c.definition.neat.slots := hs
    rw [Definition.slots_neat] at hs
    obtain ⟨t, ht, rfl⟩ := List.mem_map.mp hs
    obtain ⟨p, hp, hfresh⟩ := H.snap_at hc ht
    refine ⟨p.neat, ?_, congrArg (fun p : SnapPoint => p.neat) hfresh⟩
    change (g.view Block.neat SnapPoint.neat).snaps[t.snapId id]? = _
    rw [getElem?_snaps_view, hp, Option.map_some]
  mem_notches := H.mem_notches.trans (exists_snap_neat fun _ => Iff.rfl).symm
  mem_divots := H.mem_divots.trans (exists_snap_neat fun _ => Iff.rfl).symm

theorem Wired.neat (H : g.Wired) : g.neat.Wired := by
  refine H.toStocked.neat.wired (fun n d => ?_) fun n d hl p hp q hq => ?_
  · rw [linked_neat, hung_neat]
    exact H.linked_iff
  · obtain ⟨p₀, q₀, hp₀, hq₀, _, _, hends⟩ := H.ends (linked_neat.mp hl)
    rw [Graph.neat, getElem?_snaps_view, hp₀] at hp
    rw [Graph.neat, getElem?_snaps_view, hq₀] at hq
    cases hp
    cases hq
    exact hends

/-- With one divot each, the blocks of a graph are coherent when they are neat. -/
theorem Wired.simple_neat (H : g.Wired)
    (hone : ∀ (id : BlockId) (b : Block), g.blocks[id]? = some b → b.definition.SingleDivot) :
    g.neat.Simple where
  toWired := H.neat
  coherent {id b} hb := by
    rw [Graph.neat, getElem?_blocks_view] at hb
    obtain ⟨c, hc, rfl⟩ := Option.map_eq_some_iff.mp hb
    exact Definition.neat_coherent (hone id c hc)

/-! ## Walks -/

theorem owner_neat (i : SnapId) : g.neat.owner i = g.owner i := by
  unfold owner snap
  rw [neat, getElem?_snaps_view]
  cases g.snaps[i]? <;> rfl

theorem owner?_neat (x : Option SnapId) : g.neat.owner? x = g.owner? x := by
  cases x with
  | none => rfl
  | some i => rw [owner?, owner?, owner_neat]

/-- A walk along the links goes the same way when definitions are neat. -/
theorem beyond_neat (at? : Block → Option SnapId) {link : SnapPoint → Option SnapId}
    (hat : ∀ b : Block, at? b.neat = at? b) (hlink : ∀ p : SnapPoint, link p.neat = link p)
    (id : BlockId) : g.neat.beyond at? link id = g.beyond at? link id := by
  unfold beyond block snap
  simp only [owner?_neat]
  simp only [neat, getElem?_blocks_view, getElem?_snaps_view]
  cases g.blocks[id]? with
  | none => rfl
  | some b =>
    simp only [Option.map_some, bind, Except.bind, hat]
    cases at? b with
    | none => rfl
    | some i =>
      simp only
      cases g.snaps[i]? with
      | none => rfl
      | some p => simp only [Option.map_some, hlink]

theorem predecessor_neat (id : BlockId) : g.neat.predecessor id = g.predecessor id :=
  beyond_neat Block.primaryDivot (fun b => b.end_neat _) (fun _ => rfl) id

theorem primaryNext_neat (id : BlockId) : g.neat.primaryNext id = g.primaryNext id :=
  beyond_neat Block.primaryNotch (fun b => b.end_neat _) (fun _ => rfl) id

theorem primaryChain_neat (id : BlockId) : g.neat.primaryChain id = g.primaryChain id := by
  have hafter (start : BlockId) (room : Nat) (id : BlockId) :
      g.neat.chainAfter start room id = g.chainAfter start room id := by
    induction room generalizing id with
    | zero =>
      unfold chainAfter
      rw [primaryNext_neat]
      rfl
    | succ room ih =>
      unfold chainAfter
      rw [primaryNext_neat]
      simp only [ih]
  unfold primaryChain
  rw [hafter]
  rfl

theorem chainTail_neat (id : BlockId) : g.neat.chainTail id = g.chainTail id := by
  unfold chainTail
  rw [primaryChain_neat]

theorem wouldCycle_neat (up low : BlockId) : g.neat.wouldCycle up low = g.wouldCycle up low := by
  have hmeets (room : Nat) (x : Option BlockId) :
      g.neat.meetsAbove up low room x = g.meetsAbove up low room x := by
    induction room generalizing x with
    | zero => cases x <;> rfl
    | succ room ih =>
      cases x with
      | none => rfl
      | some id =>
        unfold meetsAbove
        simp only [predecessor_neat, ih]
  unfold wouldCycle
  rw [hmeets, neat, size_view]

theorem depthAbove_neat (id : BlockId) : g.neat.depthAbove id = g.depthAbove id := by
  have hcount (room : Nat) (x : Option BlockId) :
      g.neat.countAbove id room x = g.countAbove id room x := by
    induction room generalizing x with
    | zero => cases x <;> rfl
    | succ room ih =>
      cases x with
      | none => rfl
      | some id =>
        unfold countAbove
        simp only [predecessor_neat, ih]
  unfold depthAbove
  simp only [predecessor_neat, hcount]
  rw [neat, size_view]

theorem childrenOf_neat (ids : List SnapId) : g.neat.childrenOf ids = g.childrenOf ids := by
  induction ids with
  | nil => rfl
  | cons i rest ih =>
    unfold childrenOf snap
    simp only [owner?_neat, ih]
    rw [neat, getElem?_snaps_view]
    cases g.snaps[i]? <;> rfl

theorem depthBelow_neat (id : BlockId) : g.neat.depthBelow id = g.depthBelow id := by
  have hdeepest (room : Nat) (stack : List (BlockId × Nat)) (deepest : Nat) :
      g.neat.deepestFrom id room stack deepest = g.deepestFrom id room stack deepest := by
    induction room generalizing stack deepest with
    | zero => cases stack <;> rfl
    | succ room ih =>
      cases stack with
      | nil => rfl
      | cons x rest =>
        unfold deepestFrom block
        simp only [childrenOf_neat, ih]
        rw [neat, getElem?_blocks_view]
        cases g.blocks[x.1]? with
        | none => rfl
        | some b => simp only [Option.map_some, bind, Except.bind, Block.snapPoints_neat]
  unfold depthBelow
  rw [hdeepest, neat, size_view]

/-- The check of a link reads the wires of a graph, and is the same when definitions are neat. -/
theorem linkRejection_neat (n d : SnapId) : g.neat.linkRejection n d = g.linkRejection n d := by
  unfold linkRejection snap
  simp only [wouldCycle_neat, depthAbove_neat, depthBelow_neat]
  simp only [neat, getElem?_snaps_view]
  cases g.snaps[n]? with
  | none => rfl
  | some p => cases g.snaps[d]? <;> rfl

end Graph

end SnapBlocks
