import SnapBlocks.Proofs.Chain

/-! Heights. A block is stretched right when the extra height of each of its segments is the sum
of the heights of what hangs there. It depends on blocks below it alone, so a refresh from a
block on, which goes upwards, stretches right every block that it passes, and spoils no other. -/

namespace SnapBlocks

/-- A block without what is measured. -/
def Block.flat (b : Block) : Block := { b with extra := ∅, height := 0 }

/-- A block with its height as all that changes. -/
def Block.profile (b : Block) : Block := { b.stem with height := b.height }

/-- Extra heights are kept for the segments of a block, and are zero where no chain nests. -/
structure Block.Plain (b : Block) : Prop where
  mem_extra {k : String} : k ∈ b.extra ↔ ∃ seg ∈ b.definition.segments, seg.id = k
  zero {seg : Segment} : seg ∈ b.definition.segments →
    (∀ s ∈ b.definition.slots, s.kind = .secondaryNotch → s.segmentId ≠ seg.id) →
    b.extra[seg.id]? = some 0

theorem Block.Plain.congr {b c : Block} (hp : b.Plain) (hdef : c.definition = b.definition)
    (hextra : c.extra = b.extra) : c.Plain :=
  ⟨by rw [hdef, hextra]; exact hp.mem_extra, by rw [hdef, hextra]; exact hp.zero⟩

/-- Set the extra heights of some segments. -/
def fillExtra (vals : List (String × Float)) (t : Table Float) : Table Float :=
  vals.foldl (fun t p => t.modify p.1 fun _ => p.2) t

theorem getElem?_fillExtra_of_notMem {vals : List (String × Float)} {k : String}
    (h : ∀ p ∈ vals, p.1 ≠ k) (t : Table Float) : (fillExtra vals t)[k]? = t[k]? := by
  induction vals generalizing t with
  | nil => rfl
  | cons p rest ih =>
    refine (ih (fun q hq => h q (.tail _ hq)) _).trans ?_
    exact Table.getElem?_modify_ne (h p List.mem_cons_self) _

theorem getElem?_fillExtra_of_mem {vals : List (String × Float)} (hn : (vals.map (·.1)).Nodup)
    {p : String × Float} (h : p ∈ vals) {t : Table Float} (ht : p.1 ∈ t) :
    (fillExtra vals t)[p.1]? = some p.2 := by
  induction vals generalizing t with
  | nil => simp at h
  | cons q rest ih =>
    rw [List.map_cons, List.nodup_cons] at hn
    obtain ⟨v, hv⟩ := Table.mem_iff.mp ht
    rcases List.mem_cons.mp h with rfl | h
    · have hne : ∀ q ∈ rest, q.1 ≠ p.1 := fun q hq he => hn.1 (he ▸ List.mem_map_of_mem hq)
      refine (getElem?_fillExtra_of_notMem hne _).trans ?_
      rw [Table.getElem?_modify_self, hv]
      rfl
    · refine ih hn.2 h (Table.mem_iff.mpr ?_)
      rw [Table.getElem?_modify]
      split <;> simp [hv]

theorem mem_fillExtra {vals : List (String × Float)} {k : String} {t : Table Float} :
    k ∈ fillExtra vals t ↔ k ∈ t := by
  induction vals generalizing t with
  | nil => rfl
  | cons p rest ih =>
    refine ih.trans ?_
    rw [Table.mem_iff, Table.mem_iff, Table.getElem?_modify]
    split
    next he =>
      subst he
      simp
    next => rfl

namespace Graph

/-- All of a graph but what is measured. -/
def flat (g : Graph) : Graph := g.view Block.flat SnapPoint.unplaced

/-- The wires of a graph and the heights of its blocks. -/
def profile (g : Graph) : Graph := g.view Block.profile SnapPoint.unplaced

/-- The height of a block. -/
def heightOf (g : Graph) (id : BlockId) : Float := (g.blocks[id]?.map (·.height)).getD 0

/-- The height of a block and the places of its snap points are what the layout answers. -/
structure Laid (g : Graph) (b : Block) : Prop where
  height : b.height = (g.layout.place b.definition b.extra).height
  position {i : SnapId} {pos : Point} :
    (i, pos) ∈ b.snapPoints.zip (g.layout.place b.definition b.extra).positions →
      ∃ p, g.snaps[i]? = some p ∧ p.position = pos

/-- Every block has the extra heights that it may have, and is laid out by them. -/
structure Kempt (g : Graph) : Prop where
  plain {id : BlockId} {b : Block} : g.blocks[id]? = some b → b.Plain
  laid {id : BlockId} {b : Block} : g.blocks[id]? = some b → g.Laid b

/-- The extra height of each segment of a block is the height of what hangs there. -/
def Stretched (g : Graph) (id : BlockId) : Prop :=
  ∀ b, g.blocks[id]? = some b → ∀ s ∈ b.definition.slots, s.kind = .secondaryNotch →
    ∃ p x, g.snaps[s.snapId id]? = some p ∧ g.hangingHeight p.next = .ok x ∧
      b.extra[s.segmentId]? = some x

variable {g h : Graph} {b : Block} {id low up start : BlockId} {l : List BlockId} {n d i : SnapId}
variable {p q : SnapPoint} {j k room : Nat}

/-! ## Views -/

theorem shape_of_flat (heq : g.flat = h.flat) : g.shape = h.shape := by
  have hview (k : Graph) : k.shape = k.flat.view Block.bare SnapPoint.unplaced :=
    ext rfl rfl rfl (fun i => by simp [shape, flat]; rfl)
      (fun i => by simp [shape, flat]; rfl) rfl rfl rfl
  rw [hview, hview, heq]

theorem wires_of_profile (heq : g.profile = h.profile) : g.wires = h.wires := by
  have hview (k : Graph) : k.wires = k.profile.view Block.stem SnapPoint.unplaced :=
    ext rfl rfl rfl (fun i => by simp [wires, profile]; rfl)
      (fun i => by simp [wires, profile]; rfl) rfl rfl rfl
  rw [hview, hview, heq]

@[simp] theorem flat_setPositions (l : List (SnapId × Point)) :
    (g.setPositions l).flat = g.flat := by
  induction l generalizing g with
  | nil => rfl
  | cons p rest ih =>
    exact ih.trans (view_modifySnap (f := fun q => { q with position := p.2 }) (fun _ => rfl) g p.1)

@[simp] theorem flat_placeBlock (b : Block) : (g.placeBlock b).flat = g.flat := by
  unfold placeBlock
  exact (view_modifyBlock (by intro _; rfl) _ b.id).trans (flat_setPositions _)

@[simp] theorem profile_setExtra : (g.setExtra id seg x).profile = g.profile :=
  view_modifyBlock (by intro _; rfl) g id

/-! ## Sums of heights -/

theorem sumHeights_eq (hl : ∀ x ∈ l, x ∈ g.blocks) (total : Float) :
    g.sumHeights total l = .ok ((l.map g.heightOf).foldl (· + ·) total) := by
  induction l generalizing total with
  | nil => rfl
  | cons x rest ih =>
    obtain ⟨b, hb⟩ := Table.mem_iff.mp (hl x List.mem_cons_self)
    unfold sumHeights
    simp only [block_of_getElem? hb, bind, Except.bind]
    rw [ih fun y hy => hl y (.tail _ hy)]
    simp [heightOf, hb]

theorem sumHeights_congr
    (hl : ∀ x ∈ l, g.blocks[x]?.map (·.height) = h.blocks[x]?.map (·.height)) (total : Float) :
    g.sumHeights total l = h.sumHeights total l := by
  induction l generalizing total with
  | nil => rfl
  | cons x rest ih =>
    have hx := hl x List.mem_cons_self
    have hrest : ∀ t, g.sumHeights t rest = h.sumHeights t rest :=
      ih fun y hy => hl y (.tail _ hy)
    unfold sumHeights block
    revert hx
    cases g.blocks[x]? <;> cases h.blocks[x]? <;> simp [bind, Except.bind, hrest]
    intro he
    rw [he]

theorem hangingHeight_of_profile (heq : g.profile = h.profile) (x : Option SnapId) :
    g.hangingHeight x = h.hangingHeight x := by
  cases x with
  | none => rfl
  | some d =>
    change (do g.sumHeights 0 (← g.primaryChain (← g.owner d))) =
      (do h.sumHeights 0 (← h.primaryChain (← h.owner d)))
    rw [owner_congr (wires_of_profile heq)]
    simp only [primaryChain_congr (wires_of_profile heq)]
    have hsum : ∀ l, g.sumHeights 0 l = h.sumHeights 0 l := by
      refine fun l => sumHeights_congr (fun x _ => ?_) 0
      have hx := congrArg (Option.map (·.height)) (blocks_eq_of_view heq x)
      simpa [Option.map_map, Function.comp_def, Block.profile] using hx
    simp only [hsum]

/-- What hangs from a notch has the heights of the blocks of one chain, from the left. -/
theorem Forest.hangingHeight_eq (H : g.Forest) (hd : g.owner d = .ok low)
    (hl : g.ChainOf low l) :
    g.hangingHeight (some d) = .ok ((l.map g.heightOf).foldl (· + ·) 0) := by
  unfold hangingHeight scopeHeight
  simp only [hd, H.primaryChain_eq hl, bind, Except.bind]
  exact sumHeights_eq hl.mem_blocks 0

/-- A chain that hangs from a notch, or none. -/
theorem Forest.hanging_cases (H : g.Forest) (hp : g.snaps[n]? = some p) :
    p.next = none ∨ ∃ d low l, p.next = some d ∧ g.owner d = .ok low ∧
      g.HangsFrom low p.block ∧ g.ChainOf low l := by
  cases hnext : p.next with
  | none => exact .inl rfl
  | some d =>
    have hl : g.Linked n d := ⟨p, hp, hnext⟩
    obtain ⟨_, q, _, hq, _⟩ := H.ends hl
    have hh : g.HangsFrom q.block p.block :=
      H.hangsFrom_iff.mpr ⟨n, d, hl, owner_of_getElem? hp, owner_of_getElem? hq⟩
    obtain ⟨l, hl⟩ := H.exists_chain hh.mem_blocks
    exact .inr ⟨d, q.block, l, rfl, owner_of_getElem? hq, hh, hl⟩

theorem Forest.exists_hangingHeight (H : g.Forest) (hp : g.snaps[n]? = some p) :
    ∃ x, g.hangingHeight p.next = .ok x := by
  rcases H.hanging_cases hp with hn | ⟨d, low, l, hn, hd, _, hl⟩
  · exact ⟨0, by rw [hn]; rfl⟩
  · exact ⟨_, by rw [hn]; exact H.hangingHeight_eq hd hl⟩

/-- What hangs in a block has a height that depends on the blocks below that block alone. -/
theorem Forest.hangingHeight_congr (H : g.Forest) (heq : g.wires = h.wires)
    (hp : g.snaps[n]? = some p)
    (hh : ∀ x, x ≠ p.block → g.Under x p.block →
      g.blocks[x]?.map (·.height) = h.blocks[x]?.map (·.height)) :
    g.hangingHeight p.next = h.hangingHeight p.next := by
  rcases H.hanging_cases hp with hn | ⟨d, low, l, hn, hd, hlow, hl⟩
  · rw [hn]; rfl
  · have hd' : h.owner d = .ok low := (owner_congr heq d).symm.trans hd
    have hl' : h.ChainOf low l := hl.congr fun x _ => (primaryNext_congr heq x).symm
    have hheights : l.map g.heightOf = l.map h.heightOf := by
      refine List.map_congr_left fun x hx => ?_
      have hu := hl.under H.toSimple x hx
      have hne : x ≠ p.block := fun he => by
        subst he
        exact H.not_under_of_hangsFrom hlow hu
      rw [heightOf, hh x hne (hu.tail hlow), heightOf]
    rw [hn, H.hangingHeight_eq hd hl, (H.of_wires heq).hangingHeight_eq hd' hl', hheights]

/-! ## Laying out -/

@[simp] theorem blocks_setPositions (l : List (SnapId × Point)) :
    (g.setPositions l).blocks = g.blocks := by
  induction l generalizing g with
  | nil => rfl
  | cons p rest ih => exact ih

@[simp] theorem layout_setPositions (l : List (SnapId × Point)) :
    (g.setPositions l).layout = g.layout := by
  induction l generalizing g with
  | nil => rfl
  | cons p rest ih => exact ih

@[simp] theorem layout_placeBlock (b : Block) : (g.placeBlock b).layout = g.layout :=
  layout_setPositions _

theorem getElem?_setPositions_of_notMem {l : List (SnapId × Point)} (hi : ∀ q ∈ l, q.1 ≠ i) :
    (g.setPositions l).snaps[i]? = g.snaps[i]? := by
  induction l generalizing g with
  | nil => rfl
  | cons p rest ih =>
    refine (ih fun q hq => hi q (.tail _ hq)).trans ?_
    exact Table.getElem?_modify_ne (hi p List.mem_cons_self) _

theorem getElem?_setPositions_of_mem {l : List (SnapId × Point)} (hn : (l.map (·.1)).Nodup)
    {q : SnapId × Point} (hq : q ∈ l) :
    (g.setPositions l).snaps[q.1]? = g.snaps[q.1]?.map fun p => { p with position := q.2 } := by
  induction l generalizing g with
  | nil => simp at hq
  | cons p rest ih =>
    rw [List.map_cons, List.nodup_cons] at hn
    rcases List.mem_cons.mp hq with rfl | hq
    · have hne : ∀ r ∈ rest, r.1 ≠ q.1 := fun r hr he => hn.1 (he ▸ List.mem_map_of_mem hr)
      exact (getElem?_setPositions_of_notMem hne).trans (Table.getElem?_modify_self _ _)
    · have hne : p.1 ≠ q.1 := fun he => hn.1 (he ▸ List.mem_map_of_mem hq)
      refine (ih hn.2 hq).trans ?_
      exact congrArg _ (Table.getElem?_modify_ne hne _)

theorem zip_fst_nodup {as : List SnapId} (hn : as.Nodup) (bs : List Point) :
    ((as.zip bs).map (·.1)).Nodup := by
  refine List.Sublist.nodup ?_ hn
  induction as generalizing bs with
  | nil => exact List.Sublist.refl []
  | cons a as ih =>
    cases bs with
    | nil => exact List.nil_sublist _
    | cons b bs => exact (ih (List.nodup_cons.mp hn).2 bs).cons_cons a

theorem getElem?_blocks_placeBlock (i : BlockId) :
    (g.placeBlock b).blocks[i]? =
      if b.id = i then
        g.blocks[i]?.map fun c =>
          { c with height := (g.layout.place b.definition b.extra).height }
      else g.blocks[i]? := by
  unfold placeBlock
  refine (Table.getElem?_modify _ _ _).trans ?_
  rw [blocks_setPositions]

/-- Laying out a block moves no snap point of another. -/
theorem getElem?_snaps_placeBlock_of_notMem (hi : i ∉ b.snapPoints) :
    (g.placeBlock b).snaps[i]? = g.snaps[i]? := by
  unfold placeBlock
  exact getElem?_setPositions_of_notMem fun q hq he => hi (he ▸ (List.of_mem_zip hq).1)

/-- A block is laid out by the layout. -/
theorem laid_placeBlock (hsnaps : ∀ i ∈ b.snapPoints, ∃ p, g.snaps[i]? = some p) :
    (g.placeBlock b).Laid
      { b with height := (g.layout.place b.definition b.extra).height } := by
  refine ⟨by rw [layout_placeBlock], fun {i pos} hq => ?_⟩
  rw [layout_placeBlock] at hq
  obtain ⟨p, hp⟩ := hsnaps i (List.of_mem_zip hq).1
  refine ⟨{ p with position := pos }, ?_, rfl⟩
  unfold placeBlock
  refine (getElem?_setPositions_of_mem (zip_fst_nodup b.snapPoints_nodup _) hq).trans ?_
  rw [hp]
  rfl

end Graph

end SnapBlocks
