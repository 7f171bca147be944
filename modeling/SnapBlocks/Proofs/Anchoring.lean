import SnapBlocks.Proofs.Completion
import SnapBlocks.Proofs.Linkage
import SnapBlocks.Proofs.Frame
import SnapBlocks.Proofs.Pending
import SnapBlocks.Proofs.Stacking

/-! Where divots lie. A block that hangs by its first segment has its divot at one place, whatever
nests in the block. A link keeps the offset that puts the divot on the notch when the link is made;
as the divot stays, the offset stays right, until the block is moved on its own. The blocks to which
that happened are recorded beside the session: `Graph.Drifts`. -/

namespace SnapBlocks

theorem SnapKind.eq_divot_of_slug {k : SnapKind} (h : k.slug = SnapKind.primaryDivot.slug) :
    k = .primaryDivot := by
  cases k with
  | primaryDivot => rfl
  | primaryNotch | secondaryNotch | joint => exact absurd h (by decide)

/-- A snap point without its links. -/
def SnapPoint.unlinked (p : SnapPoint) : SnapPoint := { p with previous := none, next := none }

theorem SnapPoint.eq_of_unlinked {p q : SnapPoint} (h : p.unlinked = q.unlinked) :
    p.block = q.block ∧ p.kind = q.kind ∧ p.position = q.position := by
  simp_all [unlinked]

namespace Graph

variable {g h : Graph} {b : Block} {id x : BlockId} {i n d : SnapId} {p q : SnapPoint}
variable {S T : BlockId → Prop}

/-- What holds of one graph holds of another. -/
def Preserves (P : Graph → Prop) (g h : Graph) : Prop := P g → P h

theorem preserves_sequential (P : Graph → Prop) : Sequential (Preserves P) where
  refl _ := id
  trans hgh hhk hg := hhk (hgh hg)

/-! ## Divots stay in their places -/

/-- The blocks and the places of their snap points. -/
def stand (g : Graph) : Graph := g.view Block.stem SnapPoint.unlinked

/-- In a graph of stacked blocks, those that hang by their first segments have their divots at one
place. -/
structure Braced (g : Graph) : Prop where
  layout : g.layout = .stacked
  block_id {id : BlockId} {b : Block} : g.blocks[id]? = some b → b.id = id
  divot_id {i : SnapId} {p : SnapPoint} : g.snaps[i]? = some p → p.kind = .primaryDivot →
    ∃ k, i = SnapId.derive p.block k .primaryDivot
  spot {i : SnapId} {p : SnapPoint} {b : Block} : g.snaps[i]? = some p →
    p.kind = .primaryDivot → g.blocks[p.block]? = some b → b.definition.TopHung →
      p.position = Layout.divotSpot

namespace Braced

theorem of_stand (hg : g.Braced) (heq : h.stand = g.stand) : h.Braced where
  layout := (layout_eq_of_view heq).trans hg.layout
  block_id {id b} hb := by
    obtain ⟨c, hc, hbc⟩ := exists_block_of_view heq hb
    exact (Block.eq_of_stem hbc).1.trans (hg.block_id hc)
  divot_id {i p} hp hk := by
    obtain ⟨q, hq, hpq⟩ := exists_snap_of_view heq hp
    obtain ⟨hblock, hkind, _⟩ := SnapPoint.eq_of_unlinked hpq
    rw [hblock]
    exact hg.divot_id hq (hkind ▸ hk)
  spot {i p b} hp hk hb hd := by
    obtain ⟨q, hq, hpq⟩ := exists_snap_of_view heq hp
    obtain ⟨hblock, hkind, hposition⟩ := SnapPoint.eq_of_unlinked hpq
    obtain ⟨c, hc, hbc⟩ := exists_block_of_view heq hb
    rw [hposition]
    exact hg.spot hq (hkind ▸ hk) (hblock ▸ hc) ((Block.eq_of_stem hbc).2 ▸ hd)

theorem modifyBlock (hg : g.Braced) {f : Block → Block} (hf : ∀ b, (f b).stem = b.stem) :
    (g.modifyBlock id f).Braced :=
  hg.of_stand (view_modifyBlock hf g id)

theorem modifySnap (hg : g.Braced) {f : SnapPoint → SnapPoint}
    (hf : ∀ p, (f p).unlinked = p.unlinked) : (g.modifySnap i f).Braced :=
  hg.of_stand (view_modifySnap hf g i)

end Braced

/-- Laying out a block that hangs by its first segment puts its divot at its place. -/
theorem snap_placeBlock_divot (hl : g.layout = .stacked) (hd : b.definition.TopHung) {s : Slot}
    (hs : s ∈ b.definition.slots) (hk : s.kind = .primaryDivot) :
    (g.placeBlock b).snaps[s.snapId b.id]? =
      g.snaps[s.snapId b.id]?.map fun p => { p with position := Layout.divotSpot } := by
  obtain ⟨k, hslot⟩ := List.mem_iff_getElem?.mp hs
  have hpair : (s.snapId b.id, Layout.divotSpot) ∈
      b.snapPoints.zip (g.layout.place b.definition b.extra).positions := by
    refine List.mem_iff_getElem?.mpr ⟨k, List.getElem?_zip_eq_some.mpr ⟨?_, ?_⟩⟩
    · rw [Block.snapPoints, List.getElem?_map, hslot, Option.map_some]
    · rw [hl]
      exact Layout.getElem?_positions_divot hd hslot hk
  exact getElem?_setPositions_of_mem (zip_fst_nodup b.snapPoints_nodup _) hpair

theorem Braced.placeBlock (hg : g.Braced) (hb : g.blocks[id]? = some b) :
    (g.placeBlock b).Braced where
  layout := (layout_placeBlock b).trans hg.layout
  block_id {x c} hc := by
    obtain ⟨c', hc', heq⟩ := exists_block_of_view (shape_placeBlock b) hc
    exact (Block.eq_of_bare heq).1.trans (hg.block_id hc')
  divot_id {i p} hp hk := by
    obtain ⟨q, hq, hpq⟩ := exists_snap_of_view (shape_placeBlock b) hp
    obtain ⟨_, hblock, _, _, hkind⟩ := SnapPoint.eq_of_blank (SnapPoint.eq_of_unplaced hpq).1
    rw [hblock]
    exact hg.divot_id hq (hkind ▸ hk)
  spot {i p c} hp hk hc hd := by
    obtain ⟨q, hq, hpq⟩ := exists_snap_of_view (shape_placeBlock b) hp
    obtain ⟨_, hblock, _, _, hkind⟩ := SnapPoint.eq_of_blank (SnapPoint.eq_of_unplaced hpq).1
    obtain ⟨c', hc', hcc⟩ := exists_block_of_view (shape_placeBlock b) hc
    have hd' : c'.definition.TopHung := (Block.eq_of_bare hcc).2.1 ▸ hd
    rw [hblock] at hc'
    by_cases hi : i ∈ b.snapPoints
    · obtain ⟨s, hs, rfl⟩ := Block.mem_snapPoints.mp hi
      obtain ⟨k, hderive⟩ := hg.divot_id hq (hkind ▸ hk)
      obtain ⟨hid, _, hslug⟩ := SnapId.derive_inj hderive
      rw [← hid, hg.block_id hb, hb] at hc'
      cases hc'
      rw [snap_placeBlock_divot hg.layout hd' hs (SnapKind.eq_divot_of_slug hslug), hq] at hp
      cases hp
      rfl
    · rw [getElem?_snaps_placeBlock_of_notMem hi] at hp
      cases hq.symm.trans hp
      exact hg.spot hq hk hc' hd'

theorem Braced.withNew (hg : g.Braced) (H : g.Stocked) (hb : g.blocks[b.id]? = none) :
    (g.withNew b).Braced where
  layout := (layout_withNew b).trans hg.layout
  block_id {x c} hc := by
    rw [getElem?_blocks_withNew] at hc
    split at hc
    next he =>
      cases hc
      exact he
    · exact hg.block_id hc
  divot_id {i p} hp hk := by
    by_cases hi : i ∈ b.snapPoints
    · obtain ⟨s, hs, rfl⟩ := Block.mem_snapPoints.mp hi
      obtain ⟨q, hq, hpq⟩ := exists_snap_of_view (shape_withNew b) hp
      cases (getElem?_snaps_addBlock_of_mem hs).symm.trans hq
      obtain ⟨_, hblock, _, _, hkind⟩ := SnapPoint.eq_of_blank (SnapPoint.eq_of_unplaced hpq).1
      have hsk : s.kind = .primaryDivot := hkind.symm.trans hk
      exact ⟨s.index, by rw [hblock, Slot.snapId, hsk]; rfl⟩
    · rw [Graph.withNew, getElem?_snaps_placeBlock_of_notMem hi,
        getElem?_snaps_addBlock_of_notMem hi] at hp
      exact hg.divot_id hp hk
  spot {i p c} hp hk hc hd := by
    rw [getElem?_blocks_withNew] at hc
    by_cases hi : i ∈ b.snapPoints
    · obtain ⟨s, hs, rfl⟩ := Block.mem_snapPoints.mp hi
      obtain ⟨q, hq, hpq⟩ := exists_snap_of_view (shape_withNew b) hp
      cases (getElem?_snaps_addBlock_of_mem hs).symm.trans hq
      obtain ⟨_, hblock, _, _, hkind⟩ := SnapPoint.eq_of_blank (SnapPoint.eq_of_unplaced hpq).1
      rw [if_pos (show b.id = p.block from hblock.symm)] at hc
      have hd : b.definition.TopHung := congrArg Block.definition (Option.some.inj hc) ▸ hd
      have hlayout : (g.addBlock b).layout = .stacked := layout_addBlock.trans hg.layout
      rw [Graph.withNew, snap_placeBlock_divot hlayout hd hs (hkind.symm.trans hk),
        getElem?_snaps_addBlock_of_mem hs] at hp
      cases hp
      rfl
    · rw [Graph.withNew, getElem?_snaps_placeBlock_of_notMem hi,
        getElem?_snaps_addBlock_of_notMem hi] at hp
      have hne : b.id ≠ p.block := by
        intro he
        obtain ⟨c', hc'⟩ := H.exists_block hp
        rw [he, hc'] at hb
        cases hb
      rw [if_neg hne] at hc
      exact hg.spot hp hk hc hd

theorem getElem?_blocks_drop (ids : List SnapId) (id x : BlockId) :
    ((g.dropSnaps ids).dropBlock id).blocks[x]? = if id = x then none else g.blocks[x]? :=
  Table.getElem?_erase _ _

theorem getElem?_snaps_drop (ids : List SnapId) (id : BlockId) (i : SnapId) :
    ((g.dropSnaps ids).dropBlock id).snaps[i]? = if i ∈ ids then none else g.snaps[i]? :=
  Table.getElem?_eraseAll _ _

theorem block_of_drop {ids : List SnapId}
    (hb : ((g.dropSnaps ids).dropBlock id).blocks[x]? = some b) : g.blocks[x]? = some b := by
  rw [getElem?_blocks_drop] at hb
  split at hb
  · cases hb
  · exact hb

theorem snap_of_drop {ids : List SnapId}
    (hp : ((g.dropSnaps ids).dropBlock id).snaps[i]? = some p) : g.snaps[i]? = some p := by
  rw [getElem?_snaps_drop] at hp
  split at hp
  · cases hp
  · exact hp

theorem Braced.drop (hg : g.Braced) (ids : List SnapId) (id : BlockId) :
    ((g.dropSnaps ids).dropBlock id).Braced where
  layout := hg.layout
  block_id hb := hg.block_id (block_of_drop hb)
  divot_id hp hk := hg.divot_id (snap_of_drop hp) hk
  spot hp hk hb hd := hg.spot (snap_of_drop hp) hk (block_of_drop hb) hd

theorem braced_allows : AllowsLinks (Preserves Braced) where
  toSequential := preserves_sequential Braced
  tail _ _ _ hg := hg.modifyBlock fun _ => rfl
  extra _ _ _ _ hg := hg.modifyBlock fun _ => rfl
  placed hb hg := hg.placeBlock hb
  root _ _ _ hg := hg.modifyBlock fun _ => rfl
  attached _ _ _ _ hg := hg.modifyBlock fun _ => rfl
  cutNext _ _ hg := hg.modifySnap fun _ => rfl
  cutPrevious _ _ hg := hg.modifySnap fun _ => rfl
  next _ _ _ hg := hg.modifySnap fun _ => rfl
  previous _ _ _ hg := hg.modifySnap fun _ => rfl

/-- **No operation moves such a divot in its block.** -/
theorem Braced.apply (hg : g.Braced) (H : g.Stocked) (op : Operation) (hfresh : op.Fresh g) :
    (op.apply g).Braced := by
  refine braced_allows.apply (fun _ _ hk => hk.of_stand rfl)
    (fun _ _ _ _ _ hk => hk.modifyBlock fun _ => rfl) (fun _ ids id hk => hk.drop ids id) op ?_ hg
  intro id d pos hc hg
  exact hg.withNew H (hfresh id d hc)

/-! ## Offsets stay right -/

/-- Blocks that hang from a notch have divots. Those that hang by their first segments, and have not
drifted, are at the offset that puts the divot on the notch. -/
def Aligned (drifted : BlockId → Prop) (g : Graph) : Prop :=
  ∀ (x : BlockId) (b : Block) n offset, g.blocks[x]? = some b →
    b.placement = .attached n offset →
    (∃ s ∈ b.definition.slots, s.kind = .primaryDivot) ∧
      (b.definition.TopHung → ¬ drifted x → offset = -Layout.divotSpot)

namespace Aligned

theorem mono (hg : g.Aligned S) (hST : ∀ x, S x → T x) : g.Aligned T := by
  intro x b n offset hb hpl
  obtain ⟨hdivot, hoffset⟩ := hg x b n offset hb hpl
  exact ⟨hdivot, fun hd hx => hoffset hd fun hS => hx (hST x hS)⟩

/-- Blocks are only judged by their definitions and placements. -/
theorem of_blocks (hg : g.Aligned S)
    (hblocks : ∀ (x : BlockId) (b : Block), h.blocks[x]? = some b → ∀ n offset,
      b.placement = .attached n offset → ∃ c, g.blocks[x]? = some c ∧ c.definition = b.definition ∧
        c.placement = .attached n offset) : h.Aligned S := by
  intro x b n offset hb hpl
  obtain ⟨c, hc, hdef, hplc⟩ := hblocks x b hb n offset hpl
  exact hdef ▸ hg x c n offset hc hplc

theorem of_shape (hg : g.Aligned S) (heq : h.shape = g.shape) : h.Aligned S := by
  refine hg.of_blocks fun x b hb n offset hpl => ?_
  obtain ⟨c, hc, hbc⟩ := exists_block_of_view heq hb
  obtain ⟨_, hdef, _, hplacement⟩ := Block.eq_of_bare hbc
  exact ⟨c, hc, hdef.symm, hplacement.symm.trans hpl⟩

theorem modifyBlock (hg : g.Aligned S) {f : Block → Block}
    (hf : ∀ b, (f b).definition = b.definition ∧ (f b).placement = b.placement) :
    (g.modifyBlock id f).Aligned S := by
  refine hg.of_blocks fun x b hb n offset hpl => ?_
  rw [Graph.modifyBlock, Table.getElem?_modify] at hb
  split at hb
  · obtain ⟨c, hc, rfl⟩ := Option.map_eq_some_iff.mp hb
    exact ⟨c, hc, (hf c).1.symm, (hf c).2.symm.trans hpl⟩
  · exact ⟨b, hb, rfl, hpl⟩

theorem root (hg : g.Aligned S) (id : BlockId) (pos : Point) :
    (g.setPlacement id (.root pos)).Aligned S := by
  refine hg.of_blocks fun x b hb n offset hpl => ?_
  rw [getElem?_blocks_setPlacement] at hb
  split at hb
  · obtain ⟨c, _, rfl⟩ := Option.map_eq_some_iff.mp hb
    cases hpl
  · exact ⟨b, hb, rfl, hpl⟩

theorem drop (hg : g.Aligned S) (ids : List SnapId) (id : BlockId) :
    ((g.dropSnaps ids).dropBlock id).Aligned S :=
  hg.of_blocks fun _ b hb _ _ hpl => ⟨b, block_of_drop hb, rfl, hpl⟩

theorem withNew (hg : g.Aligned S) (id : BlockId) (def' : Definition) (pos : Point) :
    (g.withNew (.fresh id def' pos)).Aligned S := by
  refine hg.of_blocks fun x b hb n offset hpl => ?_
  rw [getElem?_blocks_withNew] at hb
  split at hb
  · cases hb
    cases hpl
  · exact ⟨b, hb, rfl, hpl⟩

/-- A block that hangs from a notch may be moved if it counts as drifted. -/
theorem shift (hg : g.Aligned S) (hx : S id) (hb : g.blocks[id]? = some b) {m : SnapId}
    {old : Point} (hpl : b.placement = .attached m old) (n : SnapId) (offset : Point) :
    (g.setPlacement id (.attached n offset)).Aligned S := by
  intro x c n' offset' hc hplc
  rw [getElem?_blocks_setPlacement] at hc
  split at hc
  next he =>
    subst he
    rw [hb] at hc
    cases hc
    exact ⟨(hg id b m old hb hpl).1, fun _ hno => absurd hx hno⟩
  · exact hg x c n' offset' hc hplc

end Aligned

/-- A move that fails changes nothing. -/
theorem moveBlock_error {pos : Point} {e : GraphError}
    (hrun : (moveBlock id pos).run g = (.error e, h)) : h = g := by
  unfold moveBlock at hrun
  rw [Edit.needBlock, Edit.run_ask_bind] at hrun
  cases hb : g.block id with
  | error x =>
    rw [hb] at hrun
    exact (Prod.mk.inj hrun).2.symm
  | ok b =>
    rw [hb] at hrun
    dsimp only at hrun
    split at hrun
    · cases hrun
    next n _ _ =>
      rw [Edit.run_ask_bind] at hrun
      cases ha : g.snapPosition n with
      | error x =>
        rw [ha] at hrun
        exact (Prod.mk.inj hrun).2.symm
      | ok anchor =>
        rw [ha] at hrun
        cases hrun

/-- A link that is tried to be broken is cut at most, unless the block is realigned, which is
answered. -/
theorem disconnect_cases (d : SnapId) (g : Graph) :
    (∀ R, AllowsCuts R → R g ((disconnect d).run g).2) ∨
      ∃ q c pos h, g.snaps[d]? = some q ∧ (moveBlock q.block pos).run g = (.ok (), h) ∧
        (disconnect d).run g = (.ok (.realigned c), h) := by
  unfold disconnect
  rw [Edit.needSnap, Edit.run_ask_bind]
  cases hq : g.snap d with
  | error x => exact .inl fun R hR => hR.refl g
  | ok q =>
    dsimp only
    cases q.previous with
    | none => exact .inl fun R hR => hR.refl g
    | some n =>
      dsimp only
      rw [Edit.run_ask_bind]
      cases g.owner n with
      | error x => exact .inl fun R hR => hR.refl g
      | ok up =>
        dsimp only
        rw [Edit.run_ask_bind]
        cases g.snapPosition d with
        | error x => exact .inl fun R hR => hR.refl g
        | ok low =>
          dsimp only
          rw [Edit.run_ask_bind]
          cases g.snapPosition n with
          | error x => exact .inl fun R hR => hR.refl g
          | ok high =>
            dsimp only
            rw [Edit.run_bind_ok Edit.run_get]
            split
            · rw [Edit.run_ask_bind]
              cases g.globalPosition q.block with
              | error x => exact .inl fun R hR => hR.refl g
              | ok pos =>
                dsimp only
                rcases hmove : (moveBlock q.block (pos - (low - high))).run g with ⟨x | _, h⟩
                · rw [Edit.run_bind_error hmove, moveBlock_error hmove]
                  exact .inl fun R hR => hR.refl g
                · rw [Edit.run_bind_ok hmove]
                  exact .inr ⟨q, -(low - high), _, h, snap_eq_ok.mp hq, hmove, rfl⟩
            · refine .inl fun R hR => ?_
              exact hR.bind (hR.detachToRoot _) (fun _ => hR.bind (hR.unlink _ _) fun _ =>
                hR.bind (hR.refreshAround _ _) fun _ => hR.pure _) g

/-- A block is let go by breaking the link of its divot, if there is one. -/
theorem releaseAbove_cases (id : BlockId) (g : Graph) :
    ((releaseAbove id).run g).2 = g ∨ ∃ b d, g.blocks[id]? = some b ∧ b.primaryDivot = some d ∧
      (releaseAbove id).run g = (do return some (← disconnect d) : Edit _).run g := by
  unfold releaseAbove
  rw [Edit.needBlock, Edit.run_ask_bind]
  cases hb : g.block id with
  | error x => exact .inl rfl
  | ok b =>
    dsimp only
    cases hd : b.primaryDivot with
    | none => exact .inl rfl
    | some d =>
      dsimp only
      rw [Edit.needSnap, Edit.run_ask_bind]
      cases g.snap d with
      | error x => exact .inl rfl
      | ok q =>
        dsimp only
        split
        · exact .inr ⟨b, d, block_eq_ok.mp hb, hd, rfl⟩
        · exact .inl rfl

/-- What does not change where a block hangs from a notch keeps offsets right. -/
theorem aligned_allows (S : BlockId → Prop) : AllowsCuts (Preserves (Aligned S)) where
  toSequential := preserves_sequential _
  tail _ _ _ hg := hg.of_shape shape_setDeepest
  extra _ _ _ _ hg := hg.of_shape shape_setExtra
  placed _ hg := hg.of_shape (shape_placeBlock _)
  root _ id pos hg := hg.root id pos
  cutNext _ _ hg := hg
  cutPrevious _ _ hg := hg

namespace Aligned

theorem leaves {α : Type} (hg : g.Aligned S) {e : Edit α}
    (he : e.Obeys (Preserves (Aligned S))) : (e.run g).2.Aligned S := he g hg

theorem moveBlock (hg : g.Aligned S) (hx : S id) (pos : Point) :
    ((moveBlock id pos).run g).2.Aligned S := by
  unfold Graph.moveBlock
  refine Edit.leaves_ask hg fun b hb => ?_
  split
  · exact hg.root id pos
  next n offset hpl =>
    refine Edit.leaves_ask hg fun anchor _ => ?_
    exact hg.shift hx (block_eq_ok.mp hb) hpl n (pos - anchor)

/-- A block that is hung from a notch lies right, even if it had drifted before. -/
theorem attach (hg : g.Aligned S) (H : g.Stocked) (B : g.Braced) (hp : g.snaps[n]? = some p)
    (hq : g.snaps[d]? = some q) (hk : q.kind = .primaryDivot) :
    ((attach n d).run g).2.Aligned fun x => S x ∧ x ≠ q.block := by
  obtain ⟨b, hb, s, hs, _, hfresh⟩ := H.snap_of hq
  have hsk : s.kind = .primaryDivot := (congrArg SnapPoint.kind hfresh :).symm.trans hk
  have hlink : ((g.setNext n (some d)).setPrevious d (some n)).blocks[q.block]? = some b := hb
  have hblock : (Edit.needBlock q.block).run ((g.setNext n (some d)).setPrevious d (some n)) =
      (.ok b, (g.setNext n (some d)).setPrevious d (some n)) := by
    rw [Edit.run_needBlock, block_of_getElem? hlink]
  unfold Graph.attach
  rw [Edit.run_bind_ok (by rw [Edit.run_needSnap, snap_of_getElem? hq]),
    Edit.run_bind_ok (by rw [Edit.run_needSnap, snap_of_getElem? hp]),
    Edit.run_bind_ok (Edit.run_change _), Edit.run_bind_ok (Edit.run_change _),
    Edit.run_bind_ok hblock, Edit.run_bind_ok (Edit.run_change _)]
  apply leaves
  · intro x c m offset hc hpl
    rw [getElem?_blocks_setPlacement] at hc
    split at hc
    next he =>
      subst he
      rw [hlink] at hc
      cases hc
      cases hpl
      exact ⟨⟨s, hs, hsk⟩, fun hd _ => congrArg _ (B.spot hq hk hb hd)⟩
    next hne =>
      obtain ⟨hdivot, hoffset⟩ := hg x c m offset hc hpl
      exact ⟨hdivot, fun hd hx => hoffset hd fun hS => hx ⟨hS, Ne.symm hne⟩⟩
  · exact (aligned_allows _).bind ((aligned_allows _).refreshAround _ _) fun _ =>
      (aligned_allows _).pure _

/-- A link that is made puts the lower block right. -/
theorem connect (hg : g.Aligned S) (H : g.Stocked) (B : g.Braced) (n d : SnapId) :
    ((connect n d).run g).2.Aligned fun x =>
      S x ∧ ¬ (g.owner d = .ok x ∧ ∃ c, ((connect n d).run g).1 = .ok (.connected c)) := by
  have idle {r : Except GraphError ConnectOutcome} (hr : ∀ c, r ≠ .ok (.connected c)) :
      g.Aligned fun x => S x ∧ ¬ (g.owner d = .ok x ∧ ∃ c, r = .ok (.connected c)) :=
    hg.mono fun x hx => ⟨hx, fun ⟨_, c, hc⟩ => hr c hc⟩
  unfold Graph.connect
  rw [Edit.run_ask_bind]
  cases hrejection : g.linkRejection n d with
  | error x => exact idle nofun
  | ok rejection =>
    cases rejection with
    | some r => exact idle nofun
    | none =>
      obtain ⟨p, q, hp, hq, _, hk, _⟩ := ends_of_linkRejection hrejection
      dsimp only
      rw [Edit.run_ask_bind]
      cases g.snapPosition n with
      | error x => exact idle nofun
      | ok high =>
        dsimp only
        rw [Edit.run_ask_bind]
        cases g.snapPosition d with
        | error x => exact idle nofun
        | ok low =>
          dsimp only
          rw [Edit.run_bind_ok Edit.run_get]
          split
          · have hattach := hg.attach H B hp hq hk
            rw [Edit.state_map]
            refine hattach.mono ?_
            rintro x ⟨hx, hne⟩
            refine ⟨hx, fun ⟨howner, _⟩ => hne ?_⟩
            exact Except.ok.inj (howner.symm.trans (owner_of_getElem? hq))
          · exact idle nofun

theorem disconnect (hg : g.Aligned S) (d : SnapId)
    (hx : ∀ q c, g.snaps[d]? = some q → ((disconnect d).run g).1 = .ok (.realigned c) →
      S q.block) : ((disconnect d).run g).2.Aligned S := by
  obtain hcuts | ⟨q, c, pos, h, hq, hmove, hrun⟩ := disconnect_cases d g
  · exact hcuts _ (aligned_allows S) hg
  · have hS := hx q c hq (congrArg Prod.fst hrun)
    have hmoved := hg.moveBlock hS pos
    rw [hmove] at hmoved
    rw [hrun]
    exact hmoved

theorem releaseAbove (hg : g.Aligned S) (H : g.Stocked) (id : BlockId)
    (hx : ∀ c, ((releaseAbove id).run g).1 = .ok (some (.realigned c)) → S id) :
    ((releaseAbove id).run g).2.Aligned S := by
  obtain hidle | ⟨b, d, hb, hd, hrun⟩ := releaseAbove_cases id g
  · rw [hidle]
    exact hg
  · rw [hrun] at hx ⊢
    have hbroken := hg.disconnect d fun q c hq hanswer => by
      obtain ⟨q', hq', hblock, _⟩ := H.snap_of_primaryDivot hb hd
      cases hq.symm.trans hq'
      rw [hblock]
      refine hx c ?_
      rw [Edit.run_bind]
      rcases hr : (Graph.disconnect d).run g with ⟨x | o, h⟩ <;> rw [hr] at hanswer
      · cases hanswer
      · cases hanswer
        rfl
    rw [Edit.state_map]
    exact hbroken

end Aligned

/-! ## Operations -/

namespace Operation

/-- The operation puts a block elsewhere: it moves the block, or realigns it when the block is
pulled away from where it hangs. -/
def Shifts (op : Operation) (g : Graph) (x : BlockId) : Prop :=
  match op with
  | move id pos => x = id ∧ ((moveBlock id pos).run g).1 = .ok ()
  | dragMove id pos => x = id ∧ ¬ g.drag.active.any (fun y => decide (y ≠ id)) = true ∧
      ((moveBlock id pos).run { g with drag := { g.drag with active := some id } }).1 = .ok ()
  | disconnect d => g.owner d = .ok x ∧ ∃ c, ((Graph.disconnect d).run g).1 = .ok (.realigned c)
  | dragEnd id => x = id ∧ g.drag.active = some id ∧
      ∃ c, ((releaseAbove id).run { g with drag := {} }).1 = .ok (some (.realigned c))
  | _ => False

/-- The operation hangs a block from a notch. -/
def Attaches (op : Operation) (g : Graph) (x : BlockId) : Prop :=
  match op with
  | connect n d => g.owner d = .ok x ∧ ∃ c, ((Graph.connect n d).run g).1 = .ok (.connected c)
  | dragEnd id => ∃ p, g.drag.pending = some p ∧ g.owner p.divot = .ok x ∧
      ∃ r c, ((Graph.dragEnd id).run g).1 = .ok (.finished r (some (.connected c)))
  | _ => False

/-- The blocks that have drifted after an operation: those that it puts elsewhere, and those that
had drifted, unless it hangs them anew. -/
def Drifted (op : Operation) (g : Graph) (drifted : BlockId → Prop) (x : BlockId) : Prop :=
  (op.Shifts g x ∨ drifted x) ∧ ¬ op.Attaches g x

end Operation

theorem stock_hides : HidesLinks stock where
  tail g id tail := stock_of_wires (wires_hides.tail g id tail)
  extra g id seg x := stock_of_wires (wires_hides.extra g id seg x)
  placed g b := stock_of_wires (wires_hides.placed g b)
  placement _ _ _ := stock_setPlacement
  next _ _ _ := stock_setNext
  previous _ _ _ := stock_setPrevious

namespace Aligned

/-- Only a move that succeeds makes a block drift. -/
theorem move (hg : g.Aligned S) (id : BlockId) (pos : Point) :
    ((Graph.moveBlock id pos).run g).2.Aligned
      fun x => (x = id ∧ ((Graph.moveBlock id pos).run g).1 = .ok ()) ∨ S x := by
  rcases hrun : (Graph.moveBlock id pos).run g with ⟨e | u, h⟩
  · rw [moveBlock_error hrun]
    exact hg.mono fun _ => .inr
  · have hwider : g.Aligned fun x => (x = id ∧ (.ok u : Except GraphError Unit) = .ok ()) ∨ S x :=
      hg.mono fun _ => .inr
    have hmoved := hwider.moveBlock (.inl ⟨rfl, rfl⟩) pos
    rw [hrun] at hmoved
    exact hmoved

theorem dragMove (hg : g.Aligned S) (id : BlockId) (pos : Point) :
    ((dragMove id pos).run g).2.Aligned
      fun x => (Operation.dragMove id pos).Shifts g x ∨ S x := by
  unfold Graph.dragMove
  rw [Edit.run_bind_ok Edit.run_get]
  split
  · exact hg.mono fun _ => .inr
  next hfree =>
    rw [Edit.run_bind_ok (Edit.run_change _)]
    let taken : Graph := { g with drag := { g.drag with active := some id } }
    have htaken : taken.Aligned S := hg
    have hmoved := (htaken.move id pos).mono fun x hx =>
      (hx.imp_left fun ⟨he, hok⟩ => ⟨he, hfree, hok⟩ :
        (Operation.dragMove id pos).Shifts g x ∨ S x)
    refine Edit.leaves_bind (P := Aligned _) hmoved fun _ k hk => ?_
    exact Edit.leaves_ask (P := Aligned _) hk fun _ _ => hk

theorem dragEnd (hg : g.Aligned S) (H : g.Wired) (B : g.Braced) (id : BlockId) :
    ((dragEnd id).run g).2.Aligned ((Operation.dragEnd id).Drifted g S) := by
  by_cases hactive : g.drag.active = some id
  case neg =>
    have hrun := dragEnd_idle hactive
    rw [hrun]
    refine hg.mono fun x hx => ⟨.inr hx, fun ⟨_, _, _, _, _, hanswer⟩ => ?_⟩
    rw [hrun] at hanswer
    cases hanswer
  let idle : Graph := { g with drag := {} }
  have halign : ((Graph.releaseAbove id).run idle).2.Aligned
      fun x => (Operation.dragEnd id).Shifts g x ∨ S x := by
    have hidle : idle.Aligned fun x => (Operation.dragEnd id).Shifts g x ∨ S x :=
      hg.mono fun _ => .inr
    exact hidle.releaseAbove (H.setDrag {}).toStocked id fun c hc => .inl ⟨rfl, hactive, c, hc⟩
  have Hr := (H.setDrag {}).releaseAbove id
  have Br := braced_allows.releaseAbove id idle (B.of_stand rfl)
  have hstock := stock_hides.releaseAbove id idle
  rcases hrun : (Graph.releaseAbove id).run idle with ⟨e | r, h⟩ <;>
    rw [hrun] at halign Hr Br hstock
  · have hend : (Graph.dragEnd id).run g = (.error e, h) := by
      unfold Graph.dragEnd
      rw [Edit.run_bind_ok Edit.run_get, if_neg (not_not.mpr hactive),
        Edit.run_bind_ok Edit.run_get, Edit.run_bind_ok (Edit.run_change _),
        Edit.run_bind_error hrun]
    rw [hend]
    refine halign.mono fun x hx => ⟨hx, fun ⟨_, _, _, _, _, hanswer⟩ => ?_⟩
    rw [hend] at hanswer
    cases hanswer
  · have hend := dragEnd_run hactive hrun
    cases hpending : g.drag.pending with
    | none =>
      rw [hpending] at hend
      rw [hend]
      refine halign.mono fun x hx => ⟨hx, fun ⟨p, hp, _⟩ => ?_⟩
      cases hpending.symm.trans hp
    | some p =>
      rw [hpending] at hend
      dsimp only at hend
      rw [hend, Edit.state_map]
      refine (halign.connect Hr.toStocked Br p.notch p.divot).mono fun x ⟨hx, hno⟩ => ⟨hx, ?_⟩
      rintro ⟨p', hp', howner, r', c, hanswer⟩
      cases hpending.symm.trans hp'
      refine hno ⟨(owner_congr_stock hstock p.divot).trans howner, c, ?_⟩
      rw [hend, Edit.run_bind] at hanswer
      rcases hconnect : (Graph.connect p.notch p.divot).run h with ⟨e | o, k⟩ <;>
        rw [hconnect] at hanswer <;> cases hanswer
      rfl

/-- **Each operation keeps right what has not drifted.** -/
theorem apply (hg : g.Aligned S) (H : g.Wired) (B : g.Braced) (op : Operation) :
    (op.apply g).Aligned (op.Drifted g S) := by
  have answered {α : Type} {e : Edit α} {T : BlockId → Prop} (he : (e.run g).2.Aligned T) :
      ((do let _ ← e : Edit Unit).run g).2.Aligned T := by
    rw [Edit.state_map]
    exact he
  have stays (hno : ∀ x, ¬ op.Attaches g x) (x : BlockId) (hx : S x) : op.Drifted g S x :=
    ⟨.inr hx, hno x⟩
  have shifted (hno : ∀ x, ¬ op.Attaches g x) (x : BlockId) (hx : op.Shifts g x ∨ S x) :
      op.Drifted g S x := ⟨hx, hno x⟩
  have hR := aligned_allows S
  have input {id seg input f} : (changeInput id seg input f).Obeys (Preserves (Aligned S)) :=
    hR.changeInput fun _ hk => hk.modifyBlock fun _ => ⟨rfl, rfl⟩
  cases op with
  | insert id name pos =>
    rcases apply_insert g id name pos with ⟨_, hsame⟩ | ⟨d, _, hmade⟩
    · rw [hsame]
      exact hg.mono (stays fun _ => not_false)
    · rw [hmade]
      exact (hg.withNew _ d pos).mono (stays fun _ => not_false)
  | insertDefinition id d pos =>
    rw [apply_insertDefinition]
    exact (hg.withNew _ d pos).mono (stays fun _ => not_false)
  | remove id =>
    have hremove := hR.remove (fun g ids id hg => hg.drop ids id) id
    exact (hg.leaves hremove).mono (stays fun _ => not_false)
  | move id pos => exact (hg.move id pos).mono (shifted fun _ => not_false)
  | connect n d =>
    exact answered ((hg.connect H.toStocked B n d).mono fun x hx => ⟨.inr hx.1, hx.2⟩)
  | disconnect d =>
    have hwide : g.Aligned fun x => (Operation.disconnect d).Shifts g x ∨ S x :=
      hg.mono fun _ => .inr
    refine answered ((hwide.disconnect d fun q c hq hc => ?_).mono (shifted fun _ => not_false))
    exact .inl ⟨owner_of_getElem? hq, c, hc⟩
  | dragMove id pos => exact answered ((hg.dragMove id pos).mono (shifted fun _ => not_false))
  | dragEnd id => exact answered (hg.dragEnd H B id)
  | updateInput id seg name u => exact answered ((hg.leaves input).mono (stays fun _ => not_false))
  | resetInput id seg name => exact answered ((hg.leaves input).mono (stays fun _ => not_false))
  | adjustHeight id =>
    exact answered ((hg.leaves (hR.adjustHeight id)).mono (stays fun _ => not_false))
  | calculateDeepest id =>
    exact answered ((hg.leaves (hR.calculateDeepest id)).mono (stays fun _ => not_false))

end Aligned

/-- Links, divots and offsets are right, but for the blocks that have drifted. -/
structure Poised (drifted : BlockId → Prop) (g : Graph) : Prop where
  wired : g.Wired
  braced : g.Braced
  aligned : g.Aligned drifted

theorem Poised.apply (hg : g.Poised S) (op : Operation) (hfresh : op.Fresh g) :
    (op.apply g).Poised (op.Drifted g S) where
  wired := hg.wired.apply op hfresh
  braced := hg.braced.apply hg.wired.toStocked op hfresh
  aligned := hg.aligned.apply hg.wired hg.braced op

theorem poised_empty (catalog : Catalog) (config : GraphConfig) :
    (empty catalog config).Poised S where
  wired := wired_empty catalog config .stacked
  braced :=
    { layout := rfl
      block_id hb := by
        cases Std.ExtTreeMap.getElem?_empty.symm.trans hb
      divot_id hp := by
        cases Std.ExtTreeMap.getElem?_empty.symm.trans hp
      spot hp := by
        cases Std.ExtTreeMap.getElem?_empty.symm.trans hp }
  aligned _ _ _ _ hb := by
    cases Std.ExtTreeMap.getElem?_empty.symm.trans hb

end Graph

/-! ## Loads -/

namespace Document

open SnapBlocks.Graph

variable {l : Loading} {g : Graph} {S : BlockId → Prop}

/-- The document has an offset for a block. -/
def RecordsOffset (d : Document) (x : BlockId) : Prop :=
  ∃ b, d.blocks[x]? = some b ∧ b.offset.isSome

theorem poised_withNew (hg : g.Poised S) {id : BlockId} (hid : g.blocks[id]? = none)
    (d : Definition) (pos : Point) : (g.withNew (.fresh id d pos)).Poised S where
  wired := (hg.wired.addBlock hid).of_wires (wires_of_shape (shape_withNew _)).symm
  braced := hg.braced.withNew hg.wired.toStocked hid
  aligned := hg.aligned.withNew id d pos

theorem poised_updateInput (hg : g.Poised S) (id : BlockId) (seg input : String)
    (u : InputUpdate) : ((updateInput id seg input u).run g).2.Poised S where
  wired := hg.wired.leaves changeInput_fixes_wires
  braced := braced_allows.changeInput (fun _ hk => hk.modifyBlock fun _ => rfl) g hg.braced
  aligned := (aligned_allows S).changeInput (fun _ hk => hk.modifyBlock fun _ => ⟨rfl, rfl⟩) g
    hg.aligned

theorem poised_attach (hg : g.Poised S) {n d : SnapId} (hr : g.linkRejection n d = .ok none) :
    ((attach n d).run g).2.Poised S := by
  obtain ⟨p, q, hp, hq, _, hk, _⟩ := ends_of_linkRejection hr
  have haligned := hg.aligned.attach hg.wired.toStocked hg.braced hp hq hk
  exact ⟨hg.wired.attach hr, braced_allows.attach n d g hg.braced, haligned.mono fun _ h => h.1⟩

/-- **A load leaves offsets right**, but for those that it puts back. -/
theorem toGraph_poised {d : Document} {catalog : Catalog} {config : GraphConfig}
    {skipped : List Skipped} (h : d.toGraph catalog config = (.ok g, skipped)) :
    g.Poised d.RecordsOffset := by
  obtain ⟨m, hrun, hm, _⟩ := loadBlocks_makes (l := ⟨.empty catalog config, []⟩)
    (P := Poised d.RecordsOffset) (fun _ => True)
    (fun _ _ d pos _ hid hg => poised_withNew hg hid d pos)
    (fun id seg input u _ hg => poised_updateInput hg id seg input u) d.blocks.toList
    Table.toList_keys_nodup (fun _ _ => Std.ExtTreeMap.getElem?_empty) (fun _ _ => trivial)
    (poised_empty catalog config)
  have hleaves : (d.load.run ⟨.empty catalog config, []⟩).2.graph.Poised d.RecordsOffset := by
    unfold load
    rw [Load.run_bind_ok hrun]
    have hlinks := loadLinks_keeps (P := Poised d.RecordsOffset)
      (fun _ _ _ hr hg => poised_attach hg hr) d.notches.toList hm
    refine Load.leaves_bind (P := fun m => m.graph.Poised d.RecordsOffset) hlinks
      fun _ m' hm' => ?_
    rw [hm'] at hlinks
    refine loadOffsets_keeps_of_mem d.blocks.toList ?_ hlinks
    intro p hp offset hoffset g b n old hg hb hpl
    have hrecorded : d.RecordsOffset p.1 :=
      ⟨p.2, Table.mem_toList.mp hp, by rw [hoffset, Option.isSome_some]⟩
    exact ⟨hg.wired.of_wires wires_setPlacement.symm, hg.braced.modifyBlock fun _ => rfl,
      hg.aligned.shift hrecorded hb hpl n offset⟩
  exact graph_of_toGraph h ▸ hleaves

end Document

/-! ## Sessions -/

namespace Graph

variable {ok : Definition → Prop} {g h : Graph} {b c : Block} {id x : BlockId} {i : SnapId}
variable {p q : SnapPoint} {S : BlockId → Prop}

/-- Sessions, with the blocks that have drifted since they were hung from a notch: a load gave them
an offset, or an operation put them elsewhere. -/
inductive Drifts : Graph → (BlockId → Prop) → Prop
  | start (catalog : Catalog) (config : GraphConfig) (layout : Layout) :
      Drifts (empty catalog config layout) fun _ => False
  | loaded (d : Document) (catalog : Catalog) (config : GraphConfig) (skipped : List Skipped)
      {g : Graph} : d.toGraph catalog config = (.ok g, skipped) → Drifts g d.RecordsOffset
  | step {g : Graph} {drifted : BlockId → Prop} (op : Operation) : Drifts g drifted →
      op.Fresh g → Drifts (op.apply g) (op.Drifted g drifted)

theorem Drifts.poised (hg : Drifts g S) (hl : g.layout = .stacked) : g.Poised S := by
  induction hg with
  | start catalog config layout =>
    cases hl
    exact poised_empty catalog config
  | loaded d catalog config skipped hload => exact Document.toGraph_poised hload
  | step op _ hfresh ih => exact (ih ((layout_apply op).symm.trans hl)).apply op hfresh

theorem Drifts.reaches (hg : Drifts g S) (hr : Reaches ok g h) : ∃ T, Drifts h T := by
  induction hr with
  | refl => exact ⟨S, hg⟩
  | step op _ hfresh _ ih =>
    obtain ⟨T, hT⟩ := ih
    exact ⟨_, hT.step op hfresh⟩

/-- Every session has such a record. -/
theorem Reachable.exists_drifts (hg : Reachable ok g) : ∃ S, Drifts g S := by
  cases hg with
  | start catalog config layout hr => exact (Drifts.start catalog config layout).reaches hr
  | loaded d catalog config skipped _ hload hr =>
    exact (Drifts.loaded d catalog config skipped hload).reaches hr

/-- A block keeps the definition that it was made from. -/
theorem definition_apply (op : Operation) (hfresh : op.Fresh g) (hb : g.blocks[x]? = some b)
    (hc : (op.apply g).blocks[x]? = some c) : c.definition = b.definition := by
  let P (k : Graph) : Prop := ∀ c, k.blocks[x]? = some c → c.definition = b.definition
  have hstock {k k' : Graph} (heq : k'.stock = k.stock) (hk : P k) : P k' := by
    intro c hc
    obtain ⟨c', hc', hcc⟩ := exists_block_of_view heq hc
    exact (Block.eq_of_stem hcc).2.trans (hk c' hc')
  have hallows : AllowsLinks (Preserves P) :=
    { toSequential := preserves_sequential P
      tail _ _ _ := hstock (stock_hides.tail _ _ _)
      extra _ _ _ _ := hstock (stock_hides.extra _ _ _ _)
      placed _ := hstock (stock_hides.placed _ _)
      root _ _ _ := hstock stock_setPlacement
      attached _ _ _ _ := hstock stock_setPlacement
      cutNext _ _ := hstock stock_setNext
      cutPrevious _ _ := hstock stock_setPrevious
      next _ _ _ := hstock stock_setNext
      previous _ _ _ := hstock stock_setPrevious }
  refine hallows.apply (fun _ _ => hstock rfl)
    (fun k id _ _ _ => hstock (view_modifyBlock (by intro _; rfl) k id))
    (fun _ _ _ hk c hc => hk c (block_of_drop hc)) op (fun id d pos hcreates hk c hc => ?_)
    (fun c hc => ?_) c hc
  · rw [getElem?_blocks_withNew, if_neg] at hc
    · exact hk c hc
    · rintro rfl
      cases (hfresh _ d hcreates).symm.trans hb
  · cases hb.symm.trans hc
    rfl

/-- Scopes may grow and shrink: divots stay, and so do the blocks that hang by them. -/
structure Steadfast (g : Graph) : Prop where
  /-- No operation moves the divot of a block that hangs by its first segment. -/
  still {op : Operation} {i : SnapId} {p q : SnapPoint} {b : Block} : op.Fresh g →
    g.snaps[i]? = some p → p.kind = .primaryDivot → g.blocks[p.block]? = some b →
    b.definition.TopHung → (op.apply g).snaps[i]? = some q → q.position = p.position
  /-- The session has a record of the blocks that have drifted. -/
  recorded : ∃ drifted, Drifts g drifted
  /-- A block that has not drifted since it was hung from a notch is still at the offset that puts
  its divot on the notch. -/
  hangs {drifted : BlockId → Prop} {x : BlockId} {b : Block} {n : SnapId} {offset : Point} :
    Drifts g drifted → g.blocks[x]? = some b → b.definition.TopHung →
    b.placement = .attached n offset → ¬ drifted x →
      ∃ d p, b.primaryDivot = some d ∧ g.snaps[d]? = some p ∧ offset = -p.position

theorem Poised.hangs (hg : g.Poised S) {n : SnapId} {offset : Point} (hb : g.blocks[x]? = some b)
    (hd : b.definition.TopHung) (hpl : b.placement = .attached n offset) (hx : ¬ S x) :
    ∃ d p, b.primaryDivot = some d ∧ g.snaps[d]? = some p ∧ offset = -p.position := by
  obtain ⟨⟨s, hs, hk⟩, hoffset⟩ := hg.aligned x b n offset hb hpl
  obtain ⟨t, ht⟩ := Option.ne_none_iff_exists'.mp fun hnone =>
    Definition.slot?_eq_none.mp hnone s hs hk
  have hdivot : b.primaryDivot = some (t.snapId b.id) := by
    rw [Block.primaryDivot, ht, Option.map_some]
  obtain ⟨p, hp, hblock, hpk⟩ := hg.wired.snap_of_primaryDivot hb hdivot
  refine ⟨_, p, hdivot, hp, (hoffset hd hx).trans (congrArg _ ?_)⟩
  exact (hg.braced.spot hp hpk (hblock ▸ hb) hd).symm

/-- The snap point of an id belongs to the same block, and is of the same kind, as long as the
block is there. -/
theorem Stocked.snap_eq (H : g.Stocked) (K : h.Stocked) (hp : g.snaps[i]? = some p)
    (hq : h.snaps[i]? = some q) : p.block = q.block ∧ p.kind.slug = q.kind.slug := by
  obtain ⟨_, _, s, _, hs, hps⟩ := H.snap_of hp
  obtain ⟨_, _, t, _, ht, hqt⟩ := K.snap_of hq
  obtain ⟨hblock, _, hslug⟩ := SnapId.derive_inj (hs.trans ht.symm)
  have hpk : p.kind = s.kind := congrArg SnapPoint.kind hps
  have hqk : q.kind = t.kind := congrArg SnapPoint.kind hqt
  exact ⟨hblock, by rw [hpk, hqk, hslug]⟩

theorem Poised.still (hg : g.Poised S) {op : Operation} (hfresh : op.Fresh g)
    (hp : g.snaps[i]? = some p) (hk : p.kind = .primaryDivot) (hb : g.blocks[p.block]? = some b)
    (hd : b.definition.TopHung) (hq : (op.apply g).snaps[i]? = some q) :
    q.position = p.position := by
  have hh := hg.apply op hfresh
  obtain ⟨hblock, hslug⟩ := hg.wired.snap_eq hh.wired.toStocked hp hq
  obtain ⟨c, hc⟩ := hh.wired.exists_block hq
  have hdef := definition_apply op hfresh hb (hblock ▸ hc)
  have hqk : q.kind = .primaryDivot := SnapKind.eq_divot_of_slug (by rw [← hslug, hk])
  rw [hh.braced.spot hq hqk hc (hdef ▸ hd), hg.braced.spot hp hk hb hd]

/-- **Scope growth never moves a divot.** The layout is causal, the blocks of every editor hang by
their first segments, and so divots stay and offsets stay right in every session. -/
theorem Reachable.steadfast (hg : Reachable ok g) (hl : g.layout = .stacked) :
    (∀ (d : Definition) (extra extra' : Table Float) (k : Nat) (s : Slot),
      d.slots[k]? = some s →
      (∀ j < s.index, ∀ seg, d.segments[j]? = some seg →
        (extra[seg.id]?).getD 0 = (extra'[seg.id]?).getD 0) →
      (Layout.stacked.place d extra).positions[k]? =
        (Layout.stacked.place d extra').positions[k]?) ∧
    (∀ d ∈ Catalog.standardBlocks, d.TopHung ∧ (d.segments.map (·.id)).Nodup) ∧
    g.Steadfast := by
  refine ⟨fun d extra extra' k s hs h => Layout.getElem?_positions_congr hs h,
    fun d hd => Catalog.topHung_of_mem hd, ?_⟩
  obtain ⟨S, hS⟩ := hg.exists_drifts
  exact
    { still hfresh hp hk hb hd hq := (hS.poised hl).still hfresh hp hk hb hd hq
      recorded := ⟨S, hS⟩
      hangs hT hb hd hpl hx := (hT.poised hl).hangs hb hd hpl hx }

/-- The body of a loop, at the offset with which it was hung. -/
theorem steadfast_looped : Reachable Definition.WellFormed looped ∧ looped.layout = .stacked ∧
    (looped.blocks["b"]?.map (·.placement)) =
      some (.attached "notch-0-a" (-Layout.divotSpot)) ∧ looped.Steadfast := by
  have hlayout : looped.layout = .stacked := by
    unfold looped
    rw [layout_apply, layout_apply, layout_apply]
    rfl
  have hreach : Reachable Definition.WellFormed looped := careful_looped.reachable
  obtain ⟨_, _, hsteadfast⟩ := Reachable.steadfast hreach hlayout
  exact ⟨hreach, hlayout, by decide +kernel, hsteadfast⟩

end Graph

end SnapBlocks
