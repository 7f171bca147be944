import SnapBlocks.Proofs.Progress
import SnapBlocks.Proofs.Saving

/-! No walk runs on. The walks of the editor carry bounds of their own: the configured number of
hops, the number of blocks, and one more or one less than these. In a session none of them is met,
so that every question about blocks and snap points that exist is answered, every operation on them
is carried out, and a link that nothing speaks against is made whole. -/

namespace SnapBlocks

namespace Edit

variable {α β : Type} {g h : Graph} {e : Edit α} {k : α → Edit β} {a : α}

/-- An edit of a graph succeeds. -/
def Completes (e : Edit α) (g : Graph) : Prop := ∃ a h, e.run g = (.ok a, h)

theorem Completes.pure (a : α) (g : Graph) : (Pure.pure a : Edit α).Completes g := ⟨a, g, rfl⟩

theorem Completes.ask {f : Graph → Except GraphError α} (hf : f g = .ok a)
    (hk : (k a).Completes g) : (Edit.ask f >>= k).Completes g := by
  obtain ⟨b, h, hrun⟩ := hk
  exact ⟨b, h, (run_bind_ok (by rw [run_ask, hf]) k).trans hrun⟩

theorem Completes.bind (he : e.Completes g)
    (hk : ∀ a h, e.run g = (.ok a, h) → (k a).Completes h) : (e >>= k).Completes g := by
  obtain ⟨a, h, hrun⟩ := he
  obtain ⟨b, h', hrun'⟩ := hk a h hrun
  exact ⟨b, h', (run_bind_ok hrun k).trans hrun'⟩

end Edit

namespace Graph

/-- One graph is another with a link more, its block put at the notch, and its caches right. -/
structure Joins (g : Graph) (n d : SnapId) (h : Graph) : Prop where
  linked : h.Linked n d
  hung : h.Hung d n
  shape {q : SnapPoint} : g.snaps[d]? = some q →
    h.shape = ((g.link n d).setPlacement q.block (.attached n (-q.position))).shape
  sound : h.Sound Definition.WellFormed

variable {ok : Definition → Prop} {g h : Graph} {b : Block} {id low up : BlockId}
variable {n d : SnapId} {p q : SnapPoint} {ids : List SnapId} {x : Point} {c : Candidate}

/-! ## Questions -/

theorem Base.exists_snapPosition (B : g.Base ok) (hp : g.snaps[n]? = some p) :
    ∃ x, g.snapPosition n = .ok x := by
  obtain ⟨x, hx⟩ := B.placed.exists_position (B.block_mem hp)
  unfold snapPosition
  simp only [snap_of_getElem? hp, hx, bind, Except.bind]
  exact ⟨_, rfl⟩

theorem Base.exists_pairsBelow (B : g.Base ok) (hup : up ∈ g.blocks)
    (hids : ∀ d ∈ ids, ∃ q, g.snaps[d]? = some q) (active : BlockId) :
    ∃ l, g.pairsBelow active up n x ids = .ok l := by
  induction ids with
  | nil => exact ⟨[], rfl⟩
  | cons d rest ih =>
    obtain ⟨q, hq⟩ := hids d List.mem_cons_self
    obtain ⟨l, hl⟩ := ih fun e he => hids e (.tail _ he)
    obtain ⟨r, hr, _⟩ := B.wouldCycle_eq hup q.block
    obtain ⟨y, hy⟩ := B.exists_snapPosition hq
    unfold pairsBelow
    simp only [snap_of_getElem? hq, hr, hl, hy, bind, Except.bind, pure, Except.pure]
    split
    · exact ⟨_, rfl⟩
    · split <;> exact ⟨_, rfl⟩

theorem Base.exists_pairsAbove (B : g.Base ok)
    (hids : ∀ n ∈ ids, ∃ p, g.snaps[n]? = some p) (active : BlockId) :
    ∃ l, g.pairsAbove active d x ids = .ok l := by
  induction ids with
  | nil => exact ⟨[], rfl⟩
  | cons n rest ih =>
    obtain ⟨p, hp⟩ := hids n List.mem_cons_self
    obtain ⟨l, hl⟩ := ih fun m hm => hids m (.tail _ hm)
    obtain ⟨r, hr, _⟩ := B.wouldCycle_eq (B.block_mem hp) active
    obtain ⟨y, hy⟩ := B.exists_snapPosition hp
    unfold pairsAbove
    simp only [snap_of_getElem? hp, hr, hl, hy, bind, Except.bind, pure, Except.pure]
    split
    · exact ⟨_, rfl⟩
    · split <;> exact ⟨_, rfl⟩

/-- The end of a chain is known, since no cached tail is stale. -/
theorem Sound.anchorOf_eq (S : g.Sound ok) (hb : g.blocks[id]? = some b) :
    ∃ l t, g.ChainOf id l ∧ l.getLast? = some b.deepest ∧ g.blocks[b.deepest]? = some t ∧
      g.anchorOf b = .ok (t.primaryNotch <|> b.primaryNotch) := by
  obtain ⟨l, hl, hlast⟩ := S.chain_of_tailed hb (S.tailed (Table.mem_iff.mpr ⟨b, hb⟩))
  obtain ⟨t, ht⟩ := Table.mem_iff.mp (hl.mem_blocks _ (List.mem_of_getLast? hlast))
  refine ⟨l, t, hl, hlast, ht, ?_⟩
  unfold anchorOf
  rw [block_of_getElem? ht]
  rfl

theorem Sound.exists_anchor (S : g.Sound ok) (hb : g.blocks[id]? = some b) :
    ∃ r, g.anchorOf b = .ok r ∧ ∀ n, r = some n → ∃ p, g.snaps[n]? = some p := by
  obtain ⟨_, t, _, _, ht, hanchor⟩ := S.anchorOf_eq hb
  refine ⟨t.primaryNotch <|> b.primaryNotch, hanchor, ?_⟩
  intro n hn
  cases htn : t.primaryNotch with
  | none =>
    rw [htn] at hn
    exact (S.snap_of_primaryNotch hb hn).imp fun _ h => h.1
  | some m =>
    rw [htn] at hn
    cases hn
    exact (S.snap_of_primaryNotch ht htn).imp fun _ h => h.1

theorem Sound.exists_candidatesBelow (S : g.Sound ok) (hb : g.blocks[id]? = some b)
    (hids : ∀ d ∈ ids, d ∈ g.divots) : ∃ l, g.candidatesBelow b ids = .ok l := by
  have hdivots : ∀ d ∈ ids, ∃ q, g.snaps[d]? = some q := fun d hd =>
    (S.mem_divots.mp (hids d hd)).imp fun _ h => h.1
  obtain ⟨_ | n, hr, hn⟩ := S.exists_anchor hb
  · exact ⟨[], by unfold candidatesBelow; rw [hr]; rfl⟩
  · obtain ⟨p, hp⟩ := hn n rfl
    obtain ⟨x, hx⟩ := S.toBase.exists_snapPosition hp
    obtain ⟨l, hl⟩ := S.toBase.exists_pairsBelow (n := n) (x := x) (S.block_mem hp) hdivots b.id
    unfold candidatesBelow
    simp only [hr, snap_of_getElem? hp, hx, hl, bind, Except.bind]
    split <;> exact ⟨_, rfl⟩

theorem Sound.exists_candidatesAbove (S : g.Sound ok) (hb : g.blocks[id]? = some b)
    (hids : ∀ n ∈ ids, n ∈ g.notches) : ∃ l, g.candidatesAbove b ids = .ok l := by
  have hnotches : ∀ n ∈ ids, ∃ p, g.snaps[n]? = some p := fun n hn =>
    (S.mem_notches.mp (hids n hn)).imp fun _ h => h.1
  unfold candidatesAbove
  cases hd : b.primaryDivot with
  | none => exact ⟨[], rfl⟩
  | some d =>
    obtain ⟨q, hq, _⟩ := S.snap_of_primaryDivot hb hd
    obtain ⟨x, hx⟩ := S.toBase.exists_snapPosition hq
    obtain ⟨l, hl⟩ := S.toBase.exists_pairsAbove (d := d) (x := x) hnotches b.id
    exact ⟨l, by simp only [hx, hl, bind, Except.bind]⟩

theorem Sound.exists_nearest (S : g.Sound ok) (hid : id ∈ g.blocks) :
    ∃ r, g.nearest id = .ok r := by
  obtain ⟨b, hb⟩ := Table.mem_iff.mp hid
  obtain ⟨l, hl⟩ := S.exists_candidatesBelow hb fun _ => Std.ExtTreeSet.mem_toList.mp
  obtain ⟨l', hl'⟩ := S.exists_candidatesAbove hb fun _ => Std.ExtTreeSet.mem_toList.mp
  unfold nearest
  simp only [block_of_getElem? hb, hl, hl', bind, Except.bind]
  exact ⟨_, rfl⟩

/-! ## Operations -/

theorem Base.moveBlock_completes (B : g.Base ok) (hid : id ∈ g.blocks) (pos : Point) :
    ∃ pl, (moveBlock id pos).run g = (.ok (), g.setPlacement id pl) := by
  obtain ⟨b, hb⟩ := Table.mem_iff.mp hid
  unfold moveBlock
  rw [Edit.run_bind_ok (by rw [Edit.run_needBlock, block_of_getElem? hb])]
  cases hpl : b.placement with
  | root old => exact ⟨_, Edit.run_change _⟩
  | attached n offset =>
    obtain ⟨p, hp, _⟩ := B.seated.hangsFrom B.toSimple hb (by rw [hpl]; rfl)
    obtain ⟨x, hx⟩ := B.exists_snapPosition hp
    exact ⟨_, Edit.run_bind_ok (by rw [Edit.run_ask, hx]) _⟩

/-- A link that nothing speaks against is made whole. -/
theorem Sound.attach_joins (S : g.Sound Definition.WellFormed)
    (hr : g.linkRejection n d = .ok none) :
    ∃ c h, (attach n d).run g = (.ok c, h) ∧ g.Joins n d h := by
  obtain ⟨p, q, hp, hq⟩ := exists_snaps_of_linkRejection hr
  obtain ⟨r, hr', hiff⟩ := S.linkRejection_eq hp hq
  cases hr.symm.trans hr'
  have J := hiff.mp rfl
  obtain ⟨c, h, hrun, hs, hshape⟩ := S.attach_run hp hq J
  have hl : h.Linked n d := by
    rw [linked_congr (wires_of_shape hshape), linked_congr wires_setPlacement,
      linked_link hp hq (J.ends_ne hp hq)]
    exact .inl ⟨rfl, rfl⟩
  refine ⟨c, h, hrun, hl, hs.linked_iff.mp hl, ?_, hs⟩
  intro q' hq'
  cases hq.symm.trans hq'
  exact hshape

/-- Linking makes the whole link or none of it. -/
theorem Sound.connect_cases (S : g.Sound Definition.WellFormed) (hp : g.snaps[n]? = some p)
    (hq : g.snaps[d]? = some q) :
    (∃ r, (Graph.connect n d).run g = (.ok (.rejected r), g)) ∨
      ∃ c h, (Graph.connect n d).run g = (.ok (.connected c), h) ∧ g.Joins n d h := by
  obtain ⟨r, hr, _⟩ := S.linkRejection_eq hp hq
  unfold Graph.connect
  rw [Edit.run_bind_ok (by rw [Edit.run_ask, hr])]
  cases r with
  | some r => exact .inl ⟨r, rfl⟩
  | none =>
    obtain ⟨x, hx⟩ := S.toBase.exists_snapPosition hp
    obtain ⟨y, hy⟩ := S.toBase.exists_snapPosition hq
    rw [Edit.run_bind_ok (by rw [Edit.run_ask, hx]), Edit.run_bind_ok (by rw [Edit.run_ask, hy]),
      Edit.run_bind_ok Edit.run_get]
    split
    · obtain ⟨c, h, hrun, hjoins⟩ := S.attach_joins hr
      exact .inr ⟨c, h, Edit.run_bind_ok hrun _, hjoins⟩
    · exact .inl ⟨_, rfl⟩

/-- A block is pulled off, or put back where its link holds it, or nothing holds it. -/
theorem Sound.disconnect_cases (S : g.Sound ok) (hq : g.snaps[d]? = some q) :
    (q.previous = none ∧ (Graph.disconnect d).run g = (.ok .notLinked, g)) ∨
      ∃ n, g.Linked n d ∧
        ((∃ x pl, (Graph.disconnect d).run g = (.ok (.realigned x), g.setPlacement q.block pl)) ∨
          ∃ c h, (Graph.disconnect d).run g = (.ok (.detached c), h) ∧ h.Sound ok ∧
            h.shape = (g.cutAt [n]).shape) := by
  unfold Graph.disconnect
  rw [Edit.run_bind_ok (by rw [Edit.run_needSnap, snap_of_getElem? hq])]
  cases hprev : q.previous with
  | none => exact .inl ⟨rfl, rfl⟩
  | some n =>
    have hl : g.Linked n d := (S.linked_iff_previous hq).mpr hprev
    obtain ⟨p, _, hp, _⟩ := S.ends hl
    have hlow : q.block ∈ g.blocks := S.block_mem hq
    obtain ⟨x, hx⟩ := S.toBase.exists_snapPosition hq
    obtain ⟨y, hy⟩ := S.toBase.exists_snapPosition hp
    obtain ⟨z, hz⟩ := S.placed.exists_position hlow
    refine .inr ⟨n, hl, ?_⟩
    rw [Edit.run_bind_ok (by rw [Edit.run_ask, owner_of_getElem? hp]),
      Edit.run_bind_ok (by rw [Edit.run_ask, hx]), Edit.run_bind_ok (by rw [Edit.run_ask, hy]),
      Edit.run_bind_ok Edit.run_get]
    split
    · obtain ⟨pl, hrun⟩ := S.toBase.moveBlock_completes hlow (z - (x - y))
      refine .inl ⟨-(x - y), pl, ?_⟩
      rw [Edit.run_bind_ok (by rw [Edit.run_ask, hz]), Edit.run_bind_ok hrun, Edit.run_pure]
    · obtain ⟨l, h, hrun, hs, hshape⟩ := S.cut_run hl (owner_of_getElem? hp) (owner_of_getElem? hq)
      have hunlink := unlink_run (g := g.setPlacement q.block (.root z)) hp hq
      rw [S.cutAt_notch (fun _ _ => S.seated.anchor_iff) hl (owner_of_getElem? hq) hz] at hunlink
      refine .inr ⟨⟨n, d, l⟩, h, ?_, hs, hshape⟩
      rw [Edit.run_bind_ok (detachToRoot_run hz), Edit.run_bind_ok hunlink,
        Edit.run_bind_ok hrun, Edit.run_pure]

theorem Sound.disconnect_completes (S : g.Sound ok) (hq : g.snaps[d]? = some q) :
    (Graph.disconnect d).Completes g := by
  rcases S.disconnect_cases hq with ⟨_, hrun⟩ | ⟨n, _, ⟨x, pl, hrun⟩ | ⟨c, h, hrun, _⟩⟩
  · exact ⟨_, g, hrun⟩
  · exact ⟨_, _, hrun⟩
  · exact ⟨_, h, hrun⟩

theorem Sound.dragMove_completes (S : g.Sound ok) (hid : id ∈ g.blocks) (pos : Point) :
    (Graph.dragMove id pos).Completes g := by
  unfold Graph.dragMove
  apply Edit.Completes.bind ⟨_, _, Edit.run_get⟩
  rintro _ _ ⟨⟩
  split
  · exact .pure _ _
  · apply Edit.Completes.bind ⟨_, _, Edit.run_change _⟩
    rintro _ _ ⟨⟩
    have S' := S.setDrag { g.drag with active := some id }
    obtain ⟨pl, hrun⟩ := S'.toBase.moveBlock_completes hid pos
    apply Edit.Completes.bind ⟨_, _, hrun⟩
    intro _ h hrun'
    have hs := S'.moveBlock id pos
    cases hrun.symm.trans hrun'
    rw [hrun] at hs
    obtain ⟨r, hr⟩ := hs.exists_nearest ((mem_blocks_of_view stock_setPlacement).mpr hid)
    apply Edit.Completes.ask hr
    exact Edit.Completes.bind ⟨_, _, Edit.run_change _⟩ fun _ _ _ => .pure _ _

/-- A block that hangs from nothing is let go as it is; another one is pulled off or put back. -/
theorem Sound.releaseAbove_cases (S : g.Sound ok) (hb : g.blocks[id]? = some b) :
    ((∀ n d, b.primaryDivot = some d → ¬ g.Linked n d) ∧
        (Graph.releaseAbove id).run g = (.ok none, g)) ∨
      ∃ n d, b.primaryDivot = some d ∧ g.Linked n d ∧
        ((∃ x pl, (Graph.releaseAbove id).run g =
            (.ok (some (.realigned x)), g.setPlacement id pl)) ∨
          ∃ c h, (Graph.releaseAbove id).run g = (.ok (some (.detached c)), h) ∧ h.Sound ok ∧
            h.shape = (g.cutAt [n]).shape) := by
  unfold Graph.releaseAbove
  rw [Edit.run_bind_ok (by rw [Edit.run_needBlock, block_of_getElem? hb])]
  cases hd : b.primaryDivot with
  | none => exact .inl ⟨nofun, rfl⟩
  | some d =>
    obtain ⟨q, hq, hblock, _⟩ := S.snap_of_primaryDivot hb hd
    rw [Edit.run_bind_ok (by rw [Edit.run_needSnap, snap_of_getElem? hq])]
    rcases S.disconnect_cases hq with ⟨hprev, _⟩ | ⟨n, hl, hcases⟩
    · refine .inl ⟨fun n e he hl => ?_, ?_⟩
      · cases he
        rw [S.linked_iff_previous hq, hprev] at hl
        cases hl
      · rw [hprev]
        rfl
    · have hsome : q.previous.isSome := by
        rw [(S.linked_iff_previous hq).mp hl]
        rfl
      refine .inr ⟨n, d, rfl, hl, ?_⟩
      rw [if_pos hsome]
      rcases hcases with ⟨x, pl, hrun⟩ | ⟨c, h, hrun, hs, hshape⟩
      · exact .inl ⟨x, pl, by rw [Edit.run_bind_ok hrun, hblock, Edit.run_pure]⟩
      · exact .inr ⟨c, h, by rw [Edit.run_bind_ok hrun, Edit.run_pure], hs, hshape⟩

theorem Sound.releaseAbove_completes (S : g.Sound ok) (hid : id ∈ g.blocks) :
    (Graph.releaseAbove id).Completes g := by
  obtain ⟨b, hb⟩ := Table.mem_iff.mp hid
  rcases S.releaseAbove_cases hb with ⟨_, hrun⟩ | ⟨n, d, _, _, ⟨x, pl, hrun⟩ | ⟨c, h, hrun, _⟩⟩
  · exact ⟨_, g, hrun⟩
  · exact ⟨_, _, hrun⟩
  · exact ⟨_, h, hrun⟩

theorem connect_missing (h : g.snaps[n]? = none ∨ g.snaps[d]? = none) :
    ∃ i, (i = n ∨ i = d) ∧ g.snaps[i]? = none ∧
      (Graph.connect n d).run g = (.error (.snapNotFound i), g) := by
  have hrun {i : SnapId} (hr : g.linkRejection n d = .error (.snapNotFound i)) :
      (Graph.connect n d).run g = (.error (.snapNotFound i), g) := by
    unfold Graph.connect
    exact Edit.run_bind_error (by rw [Edit.run_ask, hr]) _
  cases hn : g.snaps[n]? with
  | none =>
    refine ⟨n, .inl rfl, hn, hrun ?_⟩
    simp [linkRejection, snap, hn, bind, Except.bind]
  | some p =>
    have hd : g.snaps[d]? = none := h.resolve_left (by simp [hn])
    refine ⟨d, .inr rfl, hd, hrun ?_⟩
    simp [linkRejection, snap, hn, hd, bind, Except.bind]

/-- The block that is dragged is released from above, then linked where its last move found. -/
theorem dragEnd_run (hactive : g.drag.active = some id)
    (hrun : (releaseAbove id).run { g with drag := {} } = (.ok r, h)) :
    (dragEnd id).run g = match g.drag.pending with
      | none => (.ok (.finished r none), h)
      | some c => (do return .finished r (some (← connect c.notch c.divot)) :
        Edit DragOutcome).run h := by
  unfold dragEnd
  rw [Edit.run_bind_ok Edit.run_get, if_neg (not_not.mpr hactive), Edit.run_bind_ok Edit.run_get,
    Edit.run_bind_ok (Edit.run_change _), Edit.run_bind_ok hrun]
  cases g.drag.pending <;> rfl

/-- A block that is gone gives the token back. -/
theorem dragEnd_missing (hactive : g.drag.active = some id) (hno : g.blocks[id]? = none) :
    (dragEnd id).run g = (.error (.blockNotFound id), { g with drag := {} }) := by
  have hrelease : (releaseAbove id).run { g with drag := {} } =
      (.error (.blockNotFound id), { g with drag := {} }) := by
    unfold releaseAbove
    exact Edit.run_bind_error (by rw [Edit.run_needBlock, block, hno]) _
  unfold dragEnd
  rw [Edit.run_bind_ok Edit.run_get, if_neg (not_not.mpr hactive), Edit.run_bind_ok Edit.run_get,
    Edit.run_bind_ok (Edit.run_change _), Edit.run_bind_error hrelease]

/-- The block that holds the token is released, and then linked unless an end of the pending snap is
gone. -/
theorem Sound.dragEnd_holder (S : g.Sound Definition.WellFormed) (hid : id ∈ g.blocks)
    (hactive : g.drag.active = some id) :
    ∃ r h, (Graph.releaseAbove id).run { g with drag := {} } = (.ok r, h) ∧
      ((Graph.dragEnd id).Completes g ∨
        ∃ c i, g.drag.pending = some c ∧ (i = c.notch ∨ i = c.divot) ∧ h.snaps[i]? = none ∧
          (Graph.dragEnd id).run g = (.error (.snapNotFound i), h)) := by
  have S' := S.setDrag {}
  obtain ⟨r, h, hrun⟩ := S'.releaseAbove_completes hid
  refine ⟨r, h, hrun, ?_⟩
  have hs := S'.releaseAbove id
  rw [hrun] at hs
  have hend := dragEnd_run hactive hrun
  cases hpending : g.drag.pending with
  | none =>
    rw [hpending] at hend
    exact .inl ⟨_, h, hend⟩
  | some c =>
    rw [hpending] at hend
    by_cases hgone : h.snaps[c.notch]? = none ∨ h.snaps[c.divot]? = none
    · obtain ⟨i, hi, hno, hfail⟩ := connect_missing hgone
      exact .inr ⟨c, i, rfl, hi, hno, hend.trans (Edit.run_bind_error hfail _)⟩
    · rw [not_or] at hgone
      obtain ⟨p, hp⟩ := Option.ne_none_iff_exists'.mp hgone.1
      obtain ⟨q, hq⟩ := Option.ne_none_iff_exists'.mp hgone.2
      rcases hs.connect_cases hp hq with ⟨x, hx⟩ | ⟨x, h', hx, _⟩
      · exact .inl ⟨_, h, hend.trans (Edit.run_bind_ok hx _)⟩
      · exact .inl ⟨_, h', hend.trans (Edit.run_bind_ok hx _)⟩

/-- A block that does not hold the token is not let go. -/
theorem dragEnd_idle (hactive : g.drag.active ≠ some id) :
    (dragEnd id).run g = (.ok .ignored, g) := by
  unfold dragEnd
  rw [Edit.run_bind_ok Edit.run_get, if_pos hactive, Edit.run_pure]

/-- A block is let go, unless an end of the pending snap is gone by then. -/
theorem Sound.dragEnd_cases (S : g.Sound Definition.WellFormed) (hid : id ∈ g.blocks) :
    (Graph.dragEnd id).Completes g ∨
      ∃ c i h, g.drag.pending = some c ∧ (i = c.notch ∨ i = c.divot) ∧ h.snaps[i]? = none ∧
        (Graph.dragEnd id).run g = (.error (.snapNotFound i), h) := by
  by_cases hactive : g.drag.active = some id
  · obtain ⟨_, h, _, hdone | ⟨c, i, hc, hi, hno, hrun⟩⟩ := S.dragEnd_holder hid hactive
    · exact .inl hdone
    · exact .inr ⟨c, i, h, hc, hi, hno, hrun⟩
  · exact .inl ⟨.ignored, g, dragEnd_idle hactive⟩

/-! ## Whole sessions -/

/-- **A graph on which nothing runs on.** Blocks and snap points that it has are dealt with. -/
structure Dependable (g : Graph) : Prop where
  primaryChain {id : BlockId} : id ∈ g.blocks → ∃ l, g.primaryChain id = .ok l
  globalPosition {id : BlockId} : id ∈ g.blocks → ∃ x, g.globalPosition id = .ok x
  snapPosition {n : SnapId} : n ∈ g.snaps → ∃ x, g.snapPosition n = .ok x
  nearest {id : BlockId} : id ∈ g.blocks → ∃ r, g.nearest id = .ok r
  linkRejection {n d : SnapId} : n ∈ g.snaps → d ∈ g.snaps → ∃ r, g.linkRejection n d = .ok r
  /-- A link that nothing speaks against is made whole. -/
  attach {n d : SnapId} : g.linkRejection n d = .ok none →
    ∃ c h, (Graph.attach n d).run g = (.ok c, h) ∧ g.Joins n d h
  /-- Linking changes nothing, or makes a whole link. -/
  connect {n d : SnapId} : n ∈ g.snaps → d ∈ g.snaps →
    (∃ r, (Graph.connect n d).run g = (.ok (.rejected r), g)) ∨
      ∃ c h, (Graph.connect n d).run g = (.ok (.connected c), h) ∧ g.Joins n d h
  disconnect {d : SnapId} : d ∈ g.snaps → (Graph.disconnect d).Completes g
  remove {id : BlockId} : id ∈ g.blocks → (Graph.remove id).Completes g
  moveBlock {id : BlockId} : id ∈ g.blocks → ∀ pos, (Graph.moveBlock id pos).Completes g
  dragMove {id : BlockId} : id ∈ g.blocks → ∀ pos, (Graph.dragMove id pos).Completes g
  /-- A block is let go, unless an end of the pending snap is gone by then. -/
  dragEnd {id : BlockId} : id ∈ g.blocks → (Graph.dragEnd id).Completes g ∨
    ∃ c i h, g.drag.pending = some c ∧ (i = c.notch ∨ i = c.divot) ∧ h.snaps[i]? = none ∧
      (Graph.dragEnd id).run g = (.error (.snapNotFound i), h)
  adjustHeight {id : BlockId} : id ∈ g.blocks → (Graph.adjustHeight id).Completes g
  calculateDeepest {id : BlockId} : id ∈ g.blocks → (Graph.calculateDeepest id).Completes g
  ofGraph : ∃ d, Document.ofGraph g = .ok d
  /-- A chain compiles, unless one nests in a block whose continuation is its body. -/
  compileChain {id : BlockId} : id ∈ g.blocks → ∀ e, g.compileChain id ≠ .error (.graph e)
  compile (e : GraphError) : g.compile ≠ .error (.graph e)

/-- **No walk runs on** in a session whose configuration lets a walk take a step at all. -/
theorem Reachable.dependable (hg : Reachable Definition.WellFormed g)
    (hpos : 0 < g.config.maxChainHops) : g.Dependable := by
  have S := hg.sound fun _ hd => hd.toCoherent
  refine {
    primaryChain := ?_
    globalPosition := S.placed.exists_position
    snapPosition := ?_
    nearest := S.exists_nearest
    linkRejection := ?_
    attach := S.attach_joins
    connect := ?_
    disconnect := ?_
    remove := ?_
    moveBlock := ?_
    dragMove := S.dragMove_completes
    dragEnd := S.dragEnd_cases
    adjustHeight := ?_
    calculateDeepest := ?_
    ofGraph := (Document.ofGraph_eq S.toBase).imp fun _ h => h.1
    compileChain := S.compileChain_sane
    compile := S.compile_sane }
  · intro id hid
    obtain ⟨l, hl⟩ := S.exists_chain hid
    exact ⟨l, S.primaryChain_eq hl⟩
  · intro n hn
    obtain ⟨p, hp⟩ := Table.mem_iff.mp hn
    exact S.toBase.exists_snapPosition hp
  · intro n d hn hd
    obtain ⟨p, hp⟩ := Table.mem_iff.mp hn
    obtain ⟨q, hq⟩ := Table.mem_iff.mp hd
    exact (S.linkRejection_eq hp hq).imp fun _ h => h.1
  · intro n d hn hd
    obtain ⟨p, hp⟩ := Table.mem_iff.mp hn
    obtain ⟨q, hq⟩ := Table.mem_iff.mp hd
    exact S.connect_cases hp hq
  · intro d hd
    obtain ⟨q, hq⟩ := Table.mem_iff.mp hd
    exact S.disconnect_completes hq
  · intro id hid
    obtain ⟨b, hb⟩ := Table.mem_iff.mp hid
    obtain ⟨h, hrun, _⟩ := S.remove_run hb
    exact ⟨(), h, hrun⟩
  · intro id hid pos
    obtain ⟨pl, hrun⟩ := S.toBase.moveBlock_completes hid pos
    exact ⟨(), _, hrun⟩
  · intro id hid
    obtain ⟨r, h, hrun, _, _, _, _, hall⟩ := S.toBase.adjustHeight_run hid
    obtain ⟨⟨l, rfl⟩, _⟩ := hall hpos
    exact ⟨l, h, hrun⟩
  · intro id hid
    obtain ⟨tail, h, hrun, _⟩ := S.toBase.calculateDeepest_run hid
    exact ⟨tail, h, hrun⟩

theorem dependable_nestedGraph : (Document.nestedGraph.HangsFrom "c" "b" ∧
    Document.nestedGraph.HangsFrom "b" "a") ∧ 0 < Document.nestedGraph.config.maxChainHops ∧
      Document.nestedGraph.Dependable := by
  have hpos : 0 < Document.nestedGraph.config.maxChainHops := by decide +kernel
  exact ⟨Document.hangsFrom_nestedGraph, hpos,
    Reachable.dependable Document.reachable_nestedGraph hpos⟩

end Graph

end SnapBlocks
