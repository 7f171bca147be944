import SnapBlocks.Proofs.Loading

/-! Link integrity for all definitions: `Graph.Wired` is kept by every operation, whatever the
definitions of the blocks are, and also when the operation is rejected or fails on its way. Most
of what an operation does leaves the wires of a graph alone. What is left is the making of a block,
the linking of two free ends, and cuts: `Graph.Severed` is what a removal has come to when it stops
between two of them. -/

namespace SnapBlocks

namespace Graph

variable {α : Type} {ok : Definition → Prop} {g h k : Graph} {b : Block} {id : BlockId}
variable {n d i j : SnapId} {p q : SnapPoint} {ids : List SnapId}

/-! ## Edits that leave the wires alone -/

theorem wired_empty (catalog : Catalog) (config : GraphConfig) (layout : Layout) :
    (empty catalog config layout).Wired :=
  (sound_empty _ _ _ : (empty catalog config layout).Sound fun _ => True).toWired

theorem Wired.leaves (H : g.Wired) {e : Edit α} (he : e.Fixes wires) : (e.run g).2.Wired :=
  H.of_wires (he g).symm

/-- What is asked and done after an edit that leaves the wires alone. -/
theorem Wired.leaves_bind {β : Type} (H : g.Wired) {e : Edit α} {f : α → Edit β}
    (he : e.Fixes wires) (hf : ∀ a h, h.wires = g.wires → h.Wired → ((f a).run h).2.Wired) :
    ((e >>= f).run g).2.Wired := by
  have hw := he g
  rcases hr : e.run g with ⟨x | a, h⟩ <;> rw [hr] at hw
  · rw [Edit.run_bind_error hr]
    exact H.of_wires hw.symm
  · rw [Edit.run_bind_ok hr]
    exact hf a h hw (H.of_wires hw.symm)

/-! ## Making and linking -/

theorem Wired.withNew {b : Block} (H : g.Wired) (hb : g.blocks[b.id]? = none) :
    (g.withNew b).Wired :=
  (H.addBlock hb).of_wires (wires_of_shape (shape_withNew b)).symm

/-- Only a free notch and a free divot of two blocks pass the check of a link. -/
theorem ends_of_linkRejection (hr : g.linkRejection n d = .ok none) :
    ∃ p q, g.snaps[n]? = some p ∧ g.snaps[d]? = some q ∧ p.kind.isNotch ∧
      q.kind = .primaryDivot ∧ p.next = none ∧ q.previous = none ∧ p.block ≠ q.block := by
  obtain ⟨p, q, hp, hq⟩ := exists_snaps_of_linkRejection hr
  unfold linkRejection at hr
  simp only [snap_of_getElem? hp, snap_of_getElem? hq, bind, Except.bind] at hr
  by_cases hpk : p.kind.isNotch
  case neg => simp [hpk, pure, Except.pure] at hr
  by_cases hqk : q.kind.isDivot
  case neg => simp [hpk, hqk, pure, Except.pure] at hr
  by_cases hpn : p.next = none
  case neg => simp [hpk, hqk, Option.isSome_iff_ne_none.mpr hpn, pure, Except.pure] at hr
  by_cases hqp : q.previous = none
  case neg =>
    simp [hpk, hqk, hpn, Option.isSome_iff_ne_none.mpr hqp, pure, Except.pure] at hr
  by_cases hne : p.block = q.block
  case pos => simp [hpk, hqk, hpn, hqp, hne, pure, Except.pure] at hr
  exact ⟨p, q, hp, hq, hpk, SnapKind.isDivot_iff.mp hqk, hpn, hqp, hne⟩

/-- The ends of a link that passes the check differ. -/
theorem ne_of_linkRejection (hr : g.linkRejection n d = .ok none) : n ≠ d := by
  obtain ⟨p, q, hp, hq, _, _, _, _, hblocks⟩ := ends_of_linkRejection hr
  intro he
  rw [he] at hp
  cases hp.symm.trans hq
  exact hblocks rfl

/-- A link is whole before anything that depends on it is refreshed. -/
theorem Wired.attach (H : g.Wired) (hr : g.linkRejection n d = .ok none) :
    ((attach n d).run g).2.Wired := by
  obtain ⟨p, q, hp, hq, hpk, hqk, hpn, hqp, hne⟩ := ends_of_linkRejection hr
  have hlink : (g.link n d).Wired := H.link hp hq hpk hqk hpn hqp hne
  unfold Graph.attach
  rw [Edit.run_bind_ok (by rw [Edit.run_needSnap, snap_of_getElem? hq]),
    Edit.run_bind_ok (by rw [Edit.run_needSnap, snap_of_getElem? hp]),
    Edit.run_bind_ok (Edit.run_change _), Edit.run_bind_ok (Edit.run_change _)]
  exact hlink.leaves <| .bind (.needBlock _) fun _ => .bind (.change fun _ => wires_setPlacement)
    fun _ => .bind (wires_hides.refreshAround _ _) fun _ => .pure _

theorem Wired.connect (H : g.Wired) (n d : SnapId) : ((connect n d).run g).2.Wired := by
  unfold Graph.connect
  refine Edit.leaves_ask H fun r hr => ?_
  cases r with
  | some r => exact H
  | none =>
    refine Edit.leaves_ask H fun x _ => Edit.leaves_ask H fun y _ => ?_
    rw [Edit.run_bind_ok Edit.run_get]
    split
    · exact Edit.leaves_bind (H.attach hr) fun _ _ hh => hh
    · exact H

/-! ## Cutting -/

/-- No link starts or ends at a snap point. -/
def Free (g : Graph) (i : SnapId) : Prop := ∀ j, ¬ g.Linked i j ∧ ¬ g.Linked j i

/-- One graph is another without some of its links. -/
structure Severed (g h : Graph) : Prop where
  wired : h.Wired
  stock : h.stock = g.stock
  linked {n d : SnapId} : h.Linked n d → g.Linked n d

namespace Severed

theorem of_wires (H : g.Wired) (heq : h.wires = g.wires) : g.Severed h where
  wired := H.of_wires heq.symm
  stock := stock_of_wires heq
  linked := (linked_congr heq).mp

theorem trans (hgh : g.Severed h) (hhk : h.Severed k) : g.Severed k where
  wired := hhk.wired
  stock := hhk.stock.trans hgh.stock
  linked hl := hgh.linked (hhk.linked hl)

theorem free (hgh : g.Severed h) (hi : g.Free i) : h.Free i := by
  intro j
  exact ⟨fun hl => (hi j).1 (hgh.linked hl), fun hl => (hi j).2 (hgh.linked hl)⟩

end Severed

theorem linked_of_wires (H : g.Wired) (hl : g.Linked n d) (heq : h.wires = g.wires) :
    h.Wired ∧ h.Linked n d := ⟨H.of_wires heq.symm, (linked_congr heq).mpr hl⟩

/-- Breaking a link cuts it and no other. -/
theorem Wired.unlink (H : g.Wired) (hl : g.Linked n d) :
    ∃ h, (unlink n d).run g = (.ok (), h) ∧ g.Severed h ∧ h.Free n ∧ h.Free d := by
  obtain ⟨p, q, hp, hq, _⟩ := H.ends hl
  refine ⟨_, unlink_run hp hq, ?_⟩
  have hcut {i : SnapId} (hi : i = n ∨ i = d) :
      ((g.setNext n none).setPrevious d none).wires = (g.cutAt [i]).wires := by
    refine view_ext rfl rfl (fun x => ?_) (fun j => ?_) rfl rfl
    · rw [getElem?_blocks_cutAt]
      change g.blocks[x]?.map Block.stem = _
      cases g.blocks[x]? <;> simp [stem_putDown]
    · rw [H.snaps_unlink hl hi]
  have hlinked {i : SnapId} (hi : i = n ∨ i = d) {m e : SnapId}
      (hm : ((g.setNext n none).setPrevious d none).Linked m e) :
      m ≠ i ∧ e ≠ i ∧ g.Linked m e := by
    have hm := (linked_cutAt H.toStocked).mp ((linked_congr (hcut hi)).mp hm)
    simpa using hm
  have hfree {i : SnapId} (hi : i = n ∨ i = d) :
      ((g.setNext n none).setPrevious d none).Free i :=
    fun _ => ⟨fun hm => (hlinked hi hm).1 rfl, fun hm => (hlinked hi hm).2.1 rfl⟩
  exact ⟨⟨(H.cutAt [n]).of_wires (hcut (.inl rfl)).symm, by simp,
    fun hm => (hlinked (.inl rfl) hm).2.2⟩, hfree (.inl rfl), hfree (.inr rfl)⟩

theorem Wired.disconnect (H : g.Wired) (d : SnapId) : ((disconnect d).run g).2.Wired := by
  unfold Graph.disconnect
  refine Edit.leaves_ask H fun q hq => ?_
  have hq := snap_eq_ok.mp hq
  cases hprev : q.previous with
  | none => exact H
  | some n =>
    have hl : g.Linked n d := (H.linked_iff_previous hq).mpr hprev
    refine Edit.leaves_ask H fun up _ => Edit.leaves_ask H fun x _ =>
      Edit.leaves_ask H fun y _ => ?_
    rw [Edit.run_bind_ok Edit.run_get]
    split
    · exact H.leaves <| .bind (.ask _) fun _ => .bind (wires_hides.moveBlock _ _) fun _ => .pure _
    · refine H.leaves_bind (wires_hides.detachToRoot _) fun _ h hw Hh => ?_
      obtain ⟨k, hrun, hk, _⟩ := Hh.unlink ((linked_congr hw).mpr hl)
      rw [Edit.run_bind_ok hrun]
      exact hk.wired.leaves <| .bind (wires_hides.refreshAround _ _) fun _ => .pure _

/-! ## Removing -/

/-- What comes of an edit that cuts links: a graph with no new ones, and if the edit succeeds,
some snap points are free. -/
def Severs (e : Edit α) (g : Graph) (ids : List SnapId) : Prop :=
  ∃ r h, e.run g = (r, h) ∧ g.Severed h ∧ ∀ a, r = .ok a → ∀ i ∈ ids, h.Free i

theorem Wired.release (H : g.Wired) (i : SnapId) : Severs (release i) g [i] := by
  have hself : g.Severed g := .of_wires H rfl
  unfold Severs
  simp only [List.mem_singleton, forall_eq]
  unfold Graph.release
  cases hp : g.snaps[i]? with
  | none =>
    have hneed : (Edit.needSnap i).run g = (.error (.snapNotFound i), g) := by
      rw [Edit.run_needSnap, snap, hp]
    exact ⟨_, g, Edit.run_bind_error hneed _, hself, nofun⟩
  | some p =>
    have hneed : (Edit.needSnap i).run g = (.ok p, g) := by
      rw [Edit.run_needSnap, snap_of_getElem? hp]
    rw [Edit.run_bind_ok hneed]
    cases hprev : p.previous with
    | some n =>
      have hl : g.Linked n i := (H.linked_iff_previous hp).mpr hprev
      obtain ⟨r, _, hr, _⟩ := H.ends hl
      have hnext : p.next = none := Option.eq_none_iff_forall_ne_some.mpr fun e he =>
        H.not_linked_of_linked hl ((linked_iff_next hp).mpr he)
      obtain ⟨h, hrun, hh, _, hfree⟩ := H.unlink hl
      refine ⟨.ok [r.block], h, ?_, hh, fun _ _ => hfree⟩
      simp only [hnext, Edit.run_bind, Edit.run_ask, owner_of_getElem? hr, hrun, Edit.run_pure,
        List.append_nil]
    | none =>
      cases hnext : p.next with
      | none =>
        refine ⟨.ok [], g, rfl, hself, fun _ _ j => ?_⟩
        simp [H.linked_iff_previous hp, linked_iff_next hp, hprev, hnext]
      | some d =>
        have hl : g.Linked i d := (linked_iff_next hp).mpr hnext
        obtain ⟨_, q, _, hq, _⟩ := H.ends hl
        have howner := owner_of_getElem? hq
        have hw := wires_hides.detachToRoot q.block g
        rcases hdetach : (detachToRoot q.block).run g with ⟨x | u, k⟩ <;> rw [hdetach] at hw
        · refine ⟨.error x, k, ?_, .of_wires H hw, nofun⟩
          simp only [Edit.run_bind, Edit.run_ask, howner, hdetach, Edit.run_pure]
        · obtain ⟨Hk, hlk⟩ := linked_of_wires H hl hw
          obtain ⟨h, hrun, hh, hfree, _⟩ := Hk.unlink hlk
          refine ⟨.ok [q.block], h, ?_, (Severed.of_wires H hw).trans hh, fun _ _ => hfree⟩
          simp only [Edit.run_bind, Edit.run_ask, howner, hdetach, hrun, Edit.run_pure,
            List.nil_append]

theorem Wired.releaseAll (H : g.Wired) (ids : List SnapId) : Severs (releaseAll ids) g ids := by
  induction ids generalizing g with
  | nil => exact ⟨.ok [], g, rfl, .of_wires H rfl, fun _ _ _ hi => absurd hi List.not_mem_nil⟩
  | cons i rest ih =>
    unfold Graph.releaseAll
    obtain ⟨r, h, hrun, hh, hfree⟩ := H.release i
    cases r with
    | error x => exact ⟨.error x, h, Edit.run_bind_error hrun _, hh, fun _ he => by cases he⟩
    | ok l =>
      rw [Severs, Edit.run_bind_ok hrun]
      have hi : h.Free i := hfree l rfl i List.mem_cons_self
      obtain ⟨r', k, hrun', hk, hfree'⟩ := ih hh.wired
      cases r' with
      | error x =>
        exact ⟨.error x, k, Edit.run_bind_error hrun' _, hh.trans hk, fun _ he => by cases he⟩
      | ok l' =>
        refine ⟨.ok (l ++ l'), k, Edit.run_bind_ok hrun' _, hh.trans hk, fun _ _ j hj => ?_⟩
        rcases List.mem_cons.mp hj with rfl | hj
        · exact hk.free hi
        · exact hfree' l' rfl j hj

/-- A block may be dropped when its snap points are free. -/
theorem Wired.drop (H : g.Wired) (hb : g.blocks[id]? = some b)
    (hfree : ∀ i ∈ b.snapPoints, g.Free i) : ((g.dropSnaps b.snapPoints).dropBlock id).Wired := by
  refine (H.without hb).of_wires (view_ext rfl rfl (fun x => ?_) (fun j => ?_) rfl rfl)
  · have hdropped : ((g.dropSnaps b.snapPoints).dropBlock id).blocks[x]? =
        if id = x then none else g.blocks[x]? := Table.getElem?_erase _ _
    rw [getElem?_blocks_without, hdropped]
    split
    · rfl
    · cases g.blocks[x]? <;> simp [stem_putDown]
  · have hdropped : ((g.dropSnaps b.snapPoints).dropBlock id).snaps[j]? =
        if j ∈ b.snapPoints then none else g.snaps[j]? := Table.getElem?_eraseAll _ _
    rw [getElem?_snaps_without, hdropped]
    split
    · rfl
    next hj =>
      cases hp : g.snaps[j]? with
      | none => rfl
      | some p =>
        rw [Option.map_some, H.freed_eq_self hp hj]
        exact fun i hi => hfree i hi j

theorem Wired.remove (H : g.Wired) (id : BlockId) : ((remove id).run g).2.Wired := by
  unfold Graph.remove
  refine Edit.leaves_ask H fun b hb => ?_
  have hb := block_eq_ok.mp hb
  obtain ⟨r, h, hrun, hh, hfree⟩ := H.releaseAll b.snapPoints
  cases r with
  | error x =>
    rw [Edit.run_bind_error hrun]
    exact hh.wired
  | ok touched =>
    rw [Edit.run_bind_ok hrun, Edit.run_bind_ok (Edit.run_change _),
      Edit.run_bind_ok (Edit.run_change _)]
    -- the block is the same but for its placement, so it has the same snap points
    obtain ⟨c, hc, hbc⟩ := exists_block_of_view hh.stock.symm hb
    have hsnaps : b.snapPoints = c.snapPoints := by
      obtain ⟨hid, hdef⟩ := Block.eq_of_stem hbc
      rw [Block.snapPoints, Block.snapPoints, hid, hdef]
    rw [hsnaps] at hfree ⊢
    exact (hh.wired.drop hc (hfree touched rfl)).leaves (wires_hides.refreshAll touched)

/-! ## Operations -/

theorem Wired.setDrag (H : g.Wired) (x : Drag) : Wired { g with drag := x } :=
  H.of_wires rfl

theorem Wired.releaseAbove (H : g.Wired) (id : BlockId) : ((releaseAbove id).run g).2.Wired := by
  unfold Graph.releaseAbove
  refine Edit.leaves_ask H fun b _ => ?_
  split
  · exact H
  · refine Edit.leaves_ask H fun q _ => ?_
    split
    · exact Edit.leaves_bind (H.disconnect _) fun _ _ hh => hh
    · exact H

theorem Wired.dragEnd (H : g.Wired) (id : BlockId) : ((dragEnd id).run g).2.Wired := by
  unfold Graph.dragEnd
  rw [Edit.run_bind_ok Edit.run_get]
  split
  · exact H
  · rw [Edit.run_bind_ok Edit.run_get, Edit.run_bind_ok (Edit.run_change _)]
    refine Edit.leaves_bind ((H.setDrag _).releaseAbove _) fun _ h hh => ?_
    split
    · exact hh
    · exact Edit.leaves_bind (hh.connect _ _) fun _ _ hh => hh

/-- **Each operation keeps the links whole**, if blocks are made under fresh ids. -/
theorem Wired.apply (H : g.Wired) (op : Operation) (hfresh : op.Fresh g) : (op.apply g).Wired := by
  cases op with
  | insert id name pos =>
    rcases apply_insert g id name pos with ⟨_, hsame⟩ | ⟨d, hc, hmade⟩
    · rw [hsame]
      exact H
    · rw [hmade]
      exact H.withNew (hfresh id d hc)
  | insertDefinition id d pos =>
    rw [apply_insertDefinition]
    exact H.withNew (hfresh id d rfl)
  | remove id => exact H.remove id
  | move id pos => exact H.leaves (wires_hides.moveBlock id pos)
  | connect n d => exact Edit.leaves_bind (H.connect n d) fun _ _ hh => hh
  | disconnect d => exact Edit.leaves_bind (H.disconnect d) fun _ _ hh => hh
  | dragMove id pos =>
    exact H.leaves (.bind (wires_hides.dragMove (fun _ _ => rfl) id pos) fun _ => .pure _)
  | dragEnd id => exact Edit.leaves_bind (H.dragEnd id) fun _ _ hh => hh
  | updateInput id seg input u =>
    exact H.leaves (.bind Document.changeInput_fixes_wires fun _ => .pure _)
  | resetInput id seg input =>
    exact H.leaves (.bind Document.changeInput_fixes_wires fun _ => .pure _)
  | adjustHeight id => exact H.leaves (.bind (wires_hides.adjustHeight id) fun _ => .pure _)
  | calculateDeepest id =>
    exact H.leaves (.bind (wires_hides.calculateDeepest id) fun _ => .pure _)

theorem Wired.reaches (H : g.Wired) (hr : Reaches ok g h) : h.Wired := by
  induction hr with
  | refl => exact H
  | step op _ hfresh _ ih => exact ih.apply op hfresh

end Graph

end SnapBlocks
