import SnapBlocks.Graph.Inputs
import SnapBlocks.Proofs.Cascade
import SnapBlocks.Proofs.Release

/-! The invariant of an editing session, `Graph.Sound`: a seated forest whose caches are right. A
change of links leaves the caches of a block right if nothing below it changed; a refresh from a
block on puts the caches above right. So a change is settled if every block at which it was made
stands below a block from which it is refreshed. -/

namespace SnapBlocks

/-- The inputs of a block are those that its definition declares. -/
structure Block.Filled (b : Block) : Prop where
  declared {seg : Segment} : seg ∈ b.definition.segments → seg.inputs ≠ [] →
    ∃ l, b.inputs[seg.id]? = some l ∧ l.map (·.declaration) = seg.inputs
  segment_of {k : String} {l : List InputBinding} : b.inputs[k]? = some l →
    ∃ seg ∈ b.definition.segments, seg.inputs ≠ [] ∧ seg.id = k

theorem Block.Filled.congr {b c : Block} (hf : b.Filled) (hdef : c.definition = b.definition)
    (hinputs : c.inputs = b.inputs) : c.Filled :=
  ⟨by rw [hdef, hinputs]; exact hf.declared, by rw [hdef, hinputs]; exact hf.segment_of⟩

/-- What is derived from the links below a block. -/
def Block.core (b : Block) : Block := { b with inputs := ∅, placement := .root .origin }

/-- What a layout decides of a block, and by what. -/
def Block.sizes (b : Block) : Block := { b.core with deepest := "" }

theorem Block.eq_of_core {b c : Block} (h : b.core = c.core) :
    b.id = c.id ∧ b.definition = c.definition ∧ b.extra = c.extra ∧ b.deepest = c.deepest ∧
      b.height = c.height := by
  simpa [core] using h

theorem Block.eq_of_sizes {b c : Block} (h : b.sizes = c.sizes) :
    b.id = c.id ∧ b.definition = c.definition ∧ b.extra = c.extra ∧ b.height = c.height := by
  simpa [sizes, core] using h

namespace Graph

open Relation

/-- **The invariant, caches aside**: a seated forest of blocks of definitions that are in use, with
their inputs and their layout. -/
structure Base (ok : Definition → Prop) (g : Graph) : Prop extends g.Forest where
  defined {id : BlockId} {b : Block} : g.blocks[id]? = some b → ok b.definition
  seated : g.Seated
  kempt : g.Kempt
  filled {id : BlockId} {b : Block} : g.blocks[id]? = some b → b.Filled

/-- **The invariant.** The caches too are right at every block. -/
structure Sound (ok : Definition → Prop) (g : Graph) : Prop extends g.Base ok where
  tailed {id : BlockId} : id ∈ g.blocks → g.Tailed id
  stretched (id : BlockId) : g.Stretched id

/-- A block with its caches and what hangs from it is the same in two graphs. -/
structure Kept (g h : Graph) (id : BlockId) : Prop where
  block {b : Block} : g.blocks[id]? = some b → ∃ c, h.blocks[id]? = some c ∧ c.core = b.core
  next {b : Block} {s : Slot} {p : SnapPoint} : g.blocks[id]? = some b → s ∈ b.definition.slots →
    g.snaps[s.snapId id]? = some p → ∃ q, h.snaps[s.snapId id]? = some q ∧ q.next = p.next

variable {ok : Definition → Prop} {g h : Graph} {b c : Block} {id low up x y : BlockId}
variable {n d i : SnapId} {p q : SnapPoint} {l : List BlockId}

theorem Base.placed (B : g.Base ok) : g.Placed := B.seated.placed B.toForest

theorem Base.of_shape (B : g.Base ok) (heq : g.shape = h.shape) (K : h.Kempt) : h.Base ok where
  toForest := B.toForest.of_wires (wires_of_shape heq)
  defined {id b} hb := by
    obtain ⟨c, hc, hbc⟩ := exists_block_of_view heq.symm hb
    exact (Block.eq_of_bare hbc).2.1 ▸ B.defined hc
  seated := B.seated.of_shape heq
  kempt := K
  filled {id b} hb := by
    obtain ⟨c, hc, hbc⟩ := exists_block_of_view heq.symm hb
    obtain ⟨_, hdef, hinputs, _⟩ := Block.eq_of_bare hbc
    exact (B.filled hc).congr hdef hinputs

/-! ## Caches of blocks below which nothing changed -/

theorem Stocked.block_eq (H : g.Stocked) (H' : h.Stocked) (hp : g.snaps[i]? = some p)
    (hq : h.snaps[i]? = some q) : p.block = q.block := by
  obtain ⟨_, _, s, _, hs, _⟩ := H.snap_of hp
  obtain ⟨_, _, t, _, ht, _⟩ := H'.snap_of hq
  exact Slot.snapId_block (hs.trans ht.symm)

section
variable (H : g.Forest) (H' : h.Forest)
include H H'

theorem Kept.primaryNext (hk : Kept g h x) (hx : x ∈ g.blocks) :
    h.primaryNext x = g.primaryNext x := by
  obtain ⟨b, hb⟩ := Table.mem_iff.mp hx
  obtain ⟨c, hc, hcore⟩ := hk.block hb
  obtain ⟨hid, hdef, _⟩ := Block.eq_of_core hcore
  have hnotch : c.primaryNotch = b.primaryNotch := by
    rw [Block.primaryNotch, hid, hdef]
    rfl
  have hsnap {n p} (hn : b.primaryNotch = some n) (hp : g.snaps[n]? = some p) :
      ∃ q, h.snaps[n]? = some q ∧ q.next = p.next := by
    obtain ⟨s, hs, rfl⟩ := Option.map_eq_some_iff.mp hn
    rw [H.block_id hb] at hp ⊢
    exact hk.next hb (Definition.slot?_eq_some hs).1 hp
  obtain ⟨_ | low, hr⟩ := H.primaryNext_total hx
  · rw [hr]
    obtain ⟨b', hb', hfree⟩ := primaryNext_eq_none.mp hr
    cases hb.symm.trans hb'
    refine primaryNext_eq_none.mpr ⟨c, hc, fun n hn => ?_⟩
    obtain ⟨p, hp, hnone⟩ := hfree n (hnotch ▸ hn)
    obtain ⟨q, hq, hqp⟩ := hsnap (hnotch ▸ hn) hp
    exact ⟨q, hq, hqp.trans hnone⟩
  · rw [hr]
    obtain ⟨b', n, p, d, q, hb', hn, hp, hd, hq, hlow⟩ := primaryNext_eq_some.mp hr
    cases hb.symm.trans hb'
    obtain ⟨p', hp', hpp⟩ := hsnap hn hp
    obtain ⟨_, q', _, hq', _⟩ := H'.ends ⟨p', hp', hpp.trans hd⟩
    exact primaryNext_eq_some.mpr ⟨c, n, p', d, q', hc, hnotch.trans hn, hp', hpp.trans hd, hq',
      (H.toStocked.block_eq H'.toStocked hq hq').symm.trans hlow⟩

theorem Kept.chainOf (hk : ∀ y, g.Under y x → Kept g h y) (hl : g.ChainOf x l) : h.ChainOf x l :=
  hl.congr fun y hy =>
    (hk y (hl.under H.toSimple y hy)).primaryNext H H' (hl.mem_blocks y hy)

theorem Tailed.of_kept (hk : ∀ y, g.Under y x → Kept g h y) (ht : g.Tailed x) : h.Tailed x := by
  obtain ⟨b, hb, htail⟩ := ht
  obtain ⟨l, hl⟩ := H.exists_chain (Table.mem_iff.mpr ⟨b, hb⟩)
  obtain ⟨c, hc, hcore⟩ := (hk x .refl).block hb
  obtain ⟨_, _, _, hdeepest, _⟩ := Block.eq_of_core hcore
  rw [H.chainTail_eq hl] at htail
  exact ⟨c, hc, by rw [H'.chainTail_eq (Kept.chainOf H H' hk hl), hdeepest, htail]⟩

theorem Stretched.of_kept (hx : x ∈ g.blocks) (hk : ∀ y, g.Under y x → Kept g h y)
    (hs : g.Stretched x) : h.Stretched x := by
  obtain ⟨b, hb⟩ := Table.mem_iff.mp hx
  obtain ⟨c, hc, hcore⟩ := (hk x .refl).block hb
  obtain ⟨_, hdef, hextra, _⟩ := Block.eq_of_core hcore
  intro c' hc' s hslot hkind
  cases hc.symm.trans hc'
  rw [hdef] at hslot
  obtain ⟨p, z, hp, hz, he⟩ := hs b hb s hslot hkind
  obtain ⟨q, hq, hnext⟩ := (hk x .refl).next hb hslot hp
  refine ⟨q, z, hq, ?_, hextra ▸ he⟩
  rw [hnext]
  rcases H.hanging_cases hp with hn | ⟨d, low, l, hn, hd, hh, hl⟩
  · rw [hn] at hz ⊢
    exact hz
  · rw [hn] at hz ⊢
    have hlow : g.Under low x := (H.snap_at_eq hb hslot hp).1 ▸ .single hh
    have hl' := Kept.chainOf H H' (fun y hy => hk y (hy.trans hlow)) hl
    obtain ⟨_, q', _, hq', _⟩ := H'.ends ⟨q, hq, hnext.trans hn⟩
    obtain ⟨q₀, hq₀, hlow₀⟩ := owner_eq_ok.mp hd
    have hd' : h.owner d = .ok low := owner_eq_ok.mpr
      ⟨q', hq', (H.toStocked.block_eq H'.toStocked hq₀ hq').symm.trans hlow₀⟩
    have hheights : l.map h.heightOf = l.map g.heightOf := by
      refine List.map_congr_left fun y hy => ?_
      obtain ⟨e, he⟩ := Table.mem_iff.mp (hl.mem_blocks y hy)
      obtain ⟨f, hf, hfe⟩ := (hk y ((hl.under H.toSimple y hy).trans hlow)).block he
      obtain ⟨_, _, _, _, hheight⟩ := Block.eq_of_core hfe
      simp [heightOf, he, hf, hheight]
    rw [H'.hangingHeight_eq hd' hl', hheights, ← H.hangingHeight_eq hd hl, hz]

end

/-- What is laid out stays so as long as neither sizes nor places change. -/
theorem Kempt.of_sizes (K : g.Kempt) (hlayout : h.layout = g.layout)
    (hblocks : ∀ (id : BlockId) (c : Block), h.blocks[id]? = some c →
      ∃ b : Block, g.blocks[id]? = some b ∧ c.sizes = b.sizes)
    (hsnaps : ∀ (id : BlockId) (c : Block), h.blocks[id]? = some c → ∀ i ∈ c.snapPoints,
      ∀ p : SnapPoint, g.snaps[i]? = some p →
        ∃ q : SnapPoint, h.snaps[i]? = some q ∧ q.position = p.position) : h.Kempt where
  plain {id c} hc := by
    obtain ⟨b, hb, hsizes⟩ := hblocks id c hc
    obtain ⟨_, hdef, hextra, _⟩ := Block.eq_of_sizes hsizes
    exact (K.plain hb).congr hdef hextra
  laid {id c} hc := by
    obtain ⟨b, hb, hsizes⟩ := hblocks id c hc
    obtain ⟨hid, hdef, hextra, hheight⟩ := Block.eq_of_sizes hsizes
    have hl := K.laid hb
    refine ⟨by rw [hlayout, hdef, hextra, hheight]; exact hl.height, fun {i pos} hq => ?_⟩
    have hi := (List.of_mem_zip hq).1
    rw [hlayout, hdef, hextra, Block.snapPoints, hid, hdef] at hq
    obtain ⟨p, hp, hpos⟩ := hl.position hq
    obtain ⟨q, hq, hqp⟩ := hsnaps id c hc i hi p hp
    exact ⟨q, hq, hqp.trans hpos⟩

/-! ## Refreshing -/

theorem Base.calculateDeepest_run (B : g.Base ok) (hid : id ∈ g.blocks) :
    ∃ tail h, (calculateDeepest id).run g = (.ok tail, h) ∧ h.shape = g.shape ∧ h.Base ok ∧
      (∀ x, g.Tailed x ∨ g.Under id x → h.Tailed x) ∧ ∀ x, g.Stretched x → h.Stretched x := by
  obtain ⟨tail, h, hrun, hall⟩ := Graph.calculateDeepest_run B.toForest hid
  have htailless : g.tailless = h.tailless := by
    have hf := tailless_hides.calculateDeepest id g
    rw [hrun] at hf
    exact hf.symm
  have hshape := shape_of_tailless htailless
  exact ⟨tail, h, hrun, hshape.symm, B.of_shape hshape (kempt_congr htailless B.kempt), hall,
    fun x hx => stretched_congr htailless hx⟩

theorem Base.adjustHeight_run (B : g.Base ok) (hid : id ∈ g.blocks) :
    ∃ r h, (adjustHeight id).run g = (r, h) ∧ h.shape = g.shape ∧ h.Base ok ∧
      (∀ x, g.Tailed x → h.Tailed x) ∧ (∀ x, g.Stretched x → h.Stretched x) ∧
      (0 < g.config.maxChainHops → (∃ l, r = .ok l) ∧ ∀ x, g.Under id x → h.Stretched x) := by
  obtain ⟨r, h, hrun, hflat, K, hkeep, hup⟩ := Graph.adjustHeight_run B.toForest B.kempt hid
  have hshape := shape_of_flat hflat.symm
  exact ⟨r, h, hrun, hshape.symm, B.of_shape hshape K, fun x hx => tailed_congr hflat.symm hx,
    hkeep, hup⟩

/-- Both refreshes from a block on put the caches right there and above. -/
theorem Base.refresh_run (B : g.Base ok) (hid : id ∈ g.blocks)
    (hpos : 0 < g.config.maxChainHops) :
    ∃ tail l g₁ h, (calculateDeepest id).run g = (.ok tail, g₁) ∧
      (adjustHeight id).run g₁ = (.ok l, h) ∧ h.shape = g.shape ∧ h.Base ok ∧
      (∀ x, g.Tailed x ∨ g.Under id x → h.Tailed x) ∧
      ∀ x, g.Stretched x ∨ g.Under id x → h.Stretched x := by
  obtain ⟨tail, g₁, hrun₁, hshape₁, B₁, ht₁, hs₁⟩ := B.calculateDeepest_run hid
  have hw := wires_of_shape hshape₁
  obtain ⟨r, h, hrun, hshape, B', ht, hs, hup⟩ :=
    B₁.adjustHeight_run ((mem_blocks_of_view hw).mpr hid)
  obtain ⟨⟨l, rfl⟩, hall⟩ := hup (config_eq_of_view hw ▸ hpos)
  refine ⟨tail, l, g₁, h, hrun₁, hrun, hshape.trans hshape₁, B', fun x hx => ht x (ht₁ x hx), ?_⟩
  rintro x (hx | hu)
  · exact hs x (hs₁ x hx)
  · exact hall x ((under_congr hw.symm).mp hu)

/-- A change is settled by refreshing from the blocks at which it was made. -/
theorem Base.refreshAll_run (B : g.Base ok) (hl : ∀ y ∈ l, y ∈ g.blocks)
    (hpos : l ≠ [] → 0 < g.config.maxChainHops)
    (ht : ∀ x ∈ g.blocks, g.Tailed x ∨ ∃ y ∈ l, g.Under y x)
    (hs : ∀ x ∈ g.blocks, g.Stretched x ∨ ∃ y ∈ l, g.Under y x) :
    ∃ h, (refreshAll l).run g = (.ok (), h) ∧ h.shape = g.shape ∧ h.Sound ok := by
  induction l generalizing g with
  | nil =>
    refine ⟨g, rfl, rfl, { B with
      tailed := fun {x} hx => (ht x hx).resolve_right (by simp)
      stretched := fun x => ?_ }⟩
    by_cases hx : x ∈ g.blocks
    · exact (hs x hx).resolve_right (by simp)
    · intro b hb
      exact absurd (Table.mem_iff.mpr ⟨b, hb⟩) hx
  | cons y rest ih =>
    have hpos := hpos (List.cons_ne_nil _ _)
    obtain ⟨tail, above, g₁, g₂, hrun₁, hrun₂, hshape₂, B₂, ht₂, hs₂⟩ :=
      B.refresh_run (hl y List.mem_cons_self) hpos
    have hw := wires_of_shape hshape₂
    have hmem {x} : x ∈ g₂.blocks ↔ x ∈ g.blocks := mem_blocks_of_view hw
    have hsplit {P : BlockId → Prop} {x : BlockId} (hx : P x ∨ ∃ z ∈ y :: rest, g.Under z x) :
        (P x ∨ g.Under y x) ∨ ∃ z ∈ rest, g₂.Under z x := by
      rcases hx with hx | ⟨z, hz, hu⟩
      · exact .inl (.inl hx)
      · rcases List.mem_cons.mp hz with rfl | hz
        · exact .inl (.inr hu)
        · exact .inr ⟨z, hz, (under_congr hw.symm).mp hu⟩
    obtain ⟨h, hrun, hshape, hsound⟩ := ih B₂ (fun z hz => hmem.mpr (hl z (.tail _ hz)))
      (fun _ => by rw [config_eq_of_view hw]; exact hpos)
      (fun x hx => (hsplit (ht x (hmem.mp hx))).imp_left (ht₂ x))
      (fun x hx => (hsplit (hs x (hmem.mp hx))).imp_left (hs₂ x))
    refine ⟨h, ?_, hshape.trans hshape₂, hsound⟩
    unfold refreshAll
    rw [Edit.run_bind_ok hrun₁, Edit.run_bind_ok hrun₂, hrun]

/-- A change at a block is settled by refreshing from both ends of a link. -/
theorem Base.refreshAround_run (B : g.Base ok) (hup : up ∈ g.blocks) (hlow : low ∈ g.blocks)
    (hpos : 0 < g.config.maxChainHops) (ht : ∀ x ∈ g.blocks, g.Tailed x ∨ g.Under up x)
    (hs : ∀ x ∈ g.blocks, g.Stretched x ∨ g.Under up x) :
    ∃ l h, (refreshAround up low).run g = (.ok l, h) ∧ h.shape = g.shape ∧ h.Sound ok := by
  obtain ⟨t₁, g₁, hrun₁, hshape₁, B₁, ht₁, hs₁⟩ := B.calculateDeepest_run hup
  have hw₁ := wires_of_shape hshape₁
  obtain ⟨t₂, g₂, hrun₂, hshape₂, B₂, ht₂, hs₂⟩ :=
    B₁.calculateDeepest_run ((mem_blocks_of_view hw₁).mpr hlow)
  have hw₂ := (wires_of_shape hshape₂).trans hw₁
  obtain ⟨r₃, g₃, hrun₃, hshape₃, B₃, ht₃, hs₃, hup₃⟩ :=
    B₂.adjustHeight_run ((mem_blocks_of_view hw₂).mpr hup)
  obtain ⟨⟨l₃, rfl⟩, hall₃⟩ := hup₃ (by rw [config_eq_of_view hw₂]; exact hpos)
  have hw₃ := (wires_of_shape hshape₃).trans hw₂
  obtain ⟨r₄, h, hrun₄, hshape₄, B₄, ht₄, hs₄, hup₄⟩ :=
    B₃.adjustHeight_run ((mem_blocks_of_view hw₃).mpr hlow)
  obtain ⟨⟨l₄, rfl⟩, _⟩ := hup₄ (by rw [config_eq_of_view hw₃]; exact hpos)
  have hw₄ := (wires_of_shape hshape₄).trans hw₃
  refine ⟨appendNew l₃ l₄, h, ?_, hshape₄.trans (hshape₃.trans (hshape₂.trans hshape₁)),
    { B₄ with tailed := fun {x} hx => ?_, stretched := fun x => ?_ }⟩
  · unfold refreshAround
    rw [Edit.run_bind_ok hrun₁, Edit.run_bind_ok hrun₂, Edit.run_bind_ok hrun₃,
      Edit.run_bind_ok hrun₄, Edit.run_pure]
  · have hx := (mem_blocks_of_view hw₄).mp hx
    exact ht₄ x (ht₃ x (ht₂ x (.inl (ht₁ x (ht x hx)))))
  · by_cases hx : x ∈ g.blocks
    · rcases hs x hx with hx | hu
      · exact hs₄ x (hs₃ x (hs₂ x (hs₁ x hx)))
      · exact hs₄ x (hall₃ x ((under_congr hw₂.symm).mp hu))
    · intro b hb
      exact absurd ((mem_blocks_of_view hw₄).mp (Table.mem_iff.mpr ⟨b, hb⟩)) hx

end Graph

end SnapBlocks
