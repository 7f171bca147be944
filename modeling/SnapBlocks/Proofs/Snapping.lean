import SnapBlocks.Proofs.Distance
import SnapBlocks.Proofs.Pending

/-! Letting a block go. Before the link that a drag has found is made, the block is pulled off the
notch from which it hung, and the link is checked again. What the search has checked, the kinds of
the ends, that they are free and that they close no loop, stays right when a link is taken away. It
has not checked how deep the blocks would stand then, and a notch may move when the blocks around
it shrink. So the link is made unless it is too deep or has got out of range (`Graph.Snaps`); out of
range only what was pulled off, since the two ends of any other link lie as the search found them
(`Graph.Close`). -/

namespace SnapBlocks.Graph

variable {ok : Definition → Prop} {g h m : Graph} {b : Block} {id : BlockId} {pos : Point}
variable {n d : SnapId} {p q : SnapPoint} {c : Candidate} {conn : Connection}

/-- The number of blocks on the longest way through a link, if it is made. -/
def joinedDepth (g : Graph) (n d : SnapId) : Except GraphError Nat := do
  return (← g.depthAbove (← g.owner n)) + (← g.depthBelow (← g.owner d))

/-- What comes of a link that was found for a dragged block, and the graph it leaves. It is made
between the two ends that were found, unless it would be too deep or is out of range by now. -/
inductive Snaps (g : Graph) (c : Candidate) : ConnectOutcome → Graph → Prop
  | connected {depth : Nat} {x y : Point} {l : List BlockId} {h : Graph} :
      g.joinedDepth c.notch c.divot = .ok depth → depth ≤ g.config.maxChainHops →
      g.snapPosition c.notch = .ok x → g.snapPosition c.divot = .ok y →
      y.within x g.config.snapRadius → g.Joins c.notch c.divot h →
      Snaps g c (.connected ⟨c.notch, c.divot, l⟩) h
  | tooDeep {depth : Nat} :
      g.joinedDepth c.notch c.divot = .ok depth → g.config.maxChainHops < depth →
      Snaps g c (.rejected (.tooDeep depth g.config.maxChainHops)) g
  | outOfRange {depth : Nat} {x y : Point} :
      g.joinedDepth c.notch c.divot = .ok depth → depth ≤ g.config.maxChainHops →
      g.snapPosition c.notch = .ok x → g.snapPosition c.divot = .ok y →
      ¬ y.within x g.config.snapRadius → Snaps g c (.rejected (.outOfRange (y - x))) g

/-- The two ends of a pair are as far apart as it says, and that is close enough for the search. -/
def Close (g : Graph) (c : Candidate) : Prop :=
  ∃ x y, g.snapPosition c.notch = .ok x ∧ g.snapPosition c.divot = .ok y ∧
    c.distance = x.distanceTo y ∧ ¬ c.distance ≥ g.config.snapRadius

/-- The two ends of a pair are at finite places, and the snap radius is not so small that the
squares of distances vanish. -/
structure Measured (g : Graph) (c : Candidate) : Prop where
  radius : 1e-150 ≤ g.config.snapRadius
  notch {x : Point} : g.snapPosition c.notch = .ok x → x.Finite
  divot {x : Point} : g.snapPosition c.divot = .ok x → x.Finite

/-- Where a snap point is does not depend on what is dragged. -/
theorem snapPosition_setDrag (g : Graph) (x : Drag) (n : SnapId) :
    ({ g with drag := x } : Graph).snapPosition n = g.snapPosition n := by
  have hwithin (start : BlockId) (room : Nat) (id : BlockId) :
      ({ g with drag := x } : Graph).positionWithin start room id =
        g.positionWithin start room id := by
    induction room generalizing id with
    | zero => rfl
    | succ room ih =>
      unfold positionWithin
      simp only [ih]
      rfl
  unfold snapPosition globalPosition
  simp only [hwithin]
  rfl

theorem Close.setDrag (h : g.Close c) (x : Drag) : ({ g with drag := x } : Graph).Close c := by
  unfold Close
  simp only [snapPosition_setDrag]
  exact h

theorem Measured.setDrag (h : g.Measured c) (x : Drag) :
    ({ g with drag := x } : Graph).Measured c where
  radius := h.radius
  notch hn := h.notch ((g.snapPosition_setDrag x _).symm.trans hn)
  divot hd := h.divot ((g.snapPosition_setDrag x _).symm.trans hd)

/-! ## What the search has checked -/

theorem Offers.close (ho : g.Offers b c) (hnear : ¬ c.distance ≥ g.config.snapRadius) :
    g.Close c := by
  cases ho with
  | below _ _ _ _ _ _ _ _ hx hy hdist => exact ⟨_, _, hx, hy, hdist, hnear⟩
  | above _ _ _ _ _ hy hx hdist =>
    exact ⟨_, _, hx, hy, hdist.trans (Point.distanceTo_comm _ _), hnear⟩

/-- **The ends of a pair that is close are in range of each other.** -/
theorem Close.within (h : g.Close c) (hm : g.Measured c) {x y : Point}
    (hx : g.snapPosition c.notch = .ok x) (hy : g.snapPosition c.divot = .ok y) :
    y.within x g.config.snapRadius := by
  obtain ⟨x', y', hx', hy', hdist, hnear⟩ := h
  cases hx.symm.trans hx'
  cases hy.symm.trans hy'
  rw [hdist, Point.distanceTo_comm] at hnear
  exact Point.within_of_distanceTo (hm.divot hy) (hm.notch hx) hm.radius hnear

/-- A pair that the search went through is open to a link, also when links are taken away so that
the dragged block hangs from nothing. -/
theorem Offers.open_of_fewer (F : g.Forest) (F' : h.Forest) (hstock : h.stock = g.stock)
    (hl : ∀ n d, h.Linked n d → g.Linked n d) (hb : g.blocks[b.id]? = some b)
    (hfree : ∀ n d, b.primaryDivot = some d → ¬ h.Linked n d) (ho : g.Offers b c) :
    ∃ p q, h.snaps[c.notch]? = some p ∧ h.snaps[c.divot]? = some q ∧ h.Open p q := by
  obtain ⟨hnotch, hdivot⟩ := F.registered_of_offers hb ho
  obtain ⟨p, hp, hpk⟩ := F.mem_notches.mp hnotch
  obtain ⟨q, hq, hqk⟩ := F.mem_divots.mp hdivot
  obtain ⟨p', hp', hpp⟩ := exists_snap_of_view hstock.symm hp
  obtain ⟨q', hq', hqq⟩ := exists_snap_of_view hstock.symm hq
  obtain ⟨_, hpblock, _, _, hpkind⟩ := SnapPoint.eq_of_blank hpp
  obtain ⟨_, hqblock, _, _, hqkind⟩ := SnapPoint.eq_of_blank hqq
  have hcycle {low : BlockId} (hr : g.wouldCycle p.block low = .ok false) :
      ¬ g.Under p.block low :=
    (F.wouldCycle_eq_false (F.block_mem hp) low).mp hr
  have hends : ¬ g.Under p.block q.block ∧ (∀ e, ¬ h.Linked c.notch e) ∧
      ∀ i, ¬ h.Linked i c.divot := by
    cases ho with
    | below _ hp₁ hnext _ hq₁ _ hprev hr =>
      cases hp.symm.trans hp₁
      cases hq.symm.trans hq₁
      refine ⟨hcycle hr, fun e he => ?_, fun i hi => ?_⟩
      · have := (linked_iff_next hp).mp (hl _ _ he)
        rw [hnext] at this
        cases this
      · have := (F.linked_iff_previous hq).mp (hl _ _ hi)
        rw [hprev] at this
        cases this
    | above hown _ hp₁ hroom hr =>
      cases hp.symm.trans hp₁
      obtain ⟨q₁, hq₁, hblock, _⟩ := F.snap_of_primaryDivot hb hown
      cases hq.symm.trans hq₁
      rw [hblock]
      refine ⟨hcycle hr, fun e he => ?_, fun i => hfree i _ hown⟩
      have hself := hroom e ((linked_iff_next hp).mp (hl _ _ he))
      exact hfree _ _ hown (hself ▸ he)
  obtain ⟨hunder, hnext, hprev⟩ := hends
  have hunder' : ¬ h.Under p'.block q'.block := by
    rw [← hpblock, ← hqblock]
    exact fun hu => hunder (hu.mono (F.hangsFrom_mono F'.toSimple (owner_congr_stock hstock) hl))
  refine ⟨p', q', hp', hq', {
    notch := hpkind ▸ hpk
    divot := SnapKind.isDivot_iff.mp (hqkind ▸ hqk)
    notch_free := Option.eq_none_iff_forall_ne_some.mpr fun e he =>
      hnext e ((linked_iff_next hp').mpr he)
    divot_free := Option.eq_none_iff_forall_ne_some.mpr fun i hi =>
      hprev i ((F'.linked_iff_previous hq').mpr hi)
    block_ne := fun he => hunder' (he ▸ .refl)
    not_under := hunder' }⟩

/-! ## The link -/

/-- A link that is made is that of the two ends it was asked for. -/
theorem attach_ends (hp : g.snaps[n]? = some p) (hq : g.snaps[d]? = some q)
    (hlow : q.block ∈ g.blocks) (hrun : (attach n d).run g = (.ok conn, h)) :
    ∃ l, conn = ⟨n, d, l⟩ := by
  rw [attach_run_link hp hq hlow, Edit.run_bind] at hrun
  split at hrun
  next l _ _ =>
    cases hrun
    exact ⟨l, rfl⟩
  next => cases hrun

theorem Sound.connect_snaps (S : g.Sound Definition.WellFormed) (hp : g.snaps[c.notch]? = some p)
    (hq : g.snaps[c.divot]? = some q) (O : g.Open p q) :
    ∃ out h, (Graph.connect c.notch c.divot).run g = (.ok out, h) ∧ g.Snaps c out h := by
  obtain ⟨i, j, hi, hj, hr⟩ := S.linkRejection_open hp hq O
  obtain ⟨x, hx⟩ := S.toBase.exists_snapPosition hp
  obtain ⟨y, hy⟩ := S.toBase.exists_snapPosition hq
  have hdepth : g.joinedDepth c.notch c.divot = .ok (i + j) := by
    unfold joinedDepth
    simp only [owner_of_getElem? hp, owner_of_getElem? hq, hi, hj, bind, Except.bind, pure,
      Except.pure]
  have hask := Edit.run_ask (g := g) (·.linkRejection c.notch c.divot)
  rw [hr] at hask
  unfold Graph.connect
  rw [Edit.run_bind_ok hask]
  by_cases hdeep : g.config.maxChainHops < i + j
  · rw [if_pos hdeep]
    exact ⟨_, g, rfl, .tooDeep hdepth hdeep⟩
  · rw [if_neg hdeep] at hr ⊢
    rw [Edit.run_bind_ok (by rw [Edit.run_ask, hx]), Edit.run_bind_ok (by rw [Edit.run_ask, hy]),
      Edit.run_bind_ok Edit.run_get]
    split
    next hnear =>
      obtain ⟨conn, h, hrun, hjoins⟩ := S.attach_joins hr
      obtain ⟨l, rfl⟩ := attach_ends hp hq (S.block_mem hq) hrun
      exact ⟨_, h, Edit.run_bind_ok hrun _,
        .connected hdepth (Nat.le_of_not_lt hdeep) hx hy hnear hjoins⟩
    next hfar =>
      exact ⟨_, g, rfl, .outOfRange hdepth (Nat.le_of_not_lt hdeep) hx hy hfar⟩

/-- A link of a pair that is close is made unless it is too deep. -/
theorem Snaps.of_close {out : ConnectOutcome} (h : g.Snaps c out m) (hc : g.Close c)
    (hm : g.Measured c) : (∃ l, out = .connected ⟨c.notch, c.divot, l⟩) ∨
      ∃ depth, g.config.maxChainHops < depth ∧
        out = .rejected (.tooDeep depth g.config.maxChainHops) := by
  cases h with
  | connected => exact .inl ⟨_, rfl⟩
  | tooDeep _ hdeep => exact .inr ⟨_, hdeep, rfl⟩
  | outOfRange _ _ hx hy hfar => exact absurd (hc.within hm hx hy) hfar

/-! ## Dragging -/

/-- A move that finds a link keeps it in mind. -/
theorem dragMove_eq_some (hmove : (dragMove id pos).run g = (.ok (some c), h)) :
    ∃ m, (moveBlock id pos).run { g with drag := { g.drag with active := some id } } = (.ok (), m) ∧
      m.nearest id = .ok (some c) ∧ h = { m with drag := { m.drag with pending := some c } } := by
  unfold dragMove at hmove
  rw [Edit.run_bind_ok Edit.run_get] at hmove
  split at hmove
  · cases hmove
  · rw [Edit.run_bind_ok (Edit.run_change _), Edit.run_bind] at hmove
    split at hmove
    next m hrun =>
      rw [Edit.run_bind, Edit.run_ask] at hmove
      cases hc : m.nearest id with
      | error e =>
        rw [hc] at hmove
        cases hmove
      | ok r =>
        rw [hc] at hmove
        cases hmove
        exact ⟨m, hrun, hc, rfl⟩
    next => cases hmove

/-- A block that hangs from nothing is let go as it is. -/
theorem Sound.releaseAbove_root (S : g.Sound ok) (hb : g.blocks[id]? = some b)
    (hroot : g.predecessor id = .ok none) : (Graph.releaseAbove id).run g = (.ok none, g) := by
  rcases S.releaseAbove_cases hb with ⟨_, hrun⟩ | ⟨n, d, hd, hl, _⟩
  · exact hrun
  · obtain ⟨q, hq, rfl, _⟩ := S.snap_of_primaryDivot hb hd
    obtain ⟨p, _, hp, _⟩ := S.ends hl
    have hh : g.HangsFrom q.block p.block :=
      S.hangsFrom_iff.mpr ⟨n, d, hl, owner_of_getElem? hp, owner_of_getElem? hq⟩
    exact absurd hroot hh.predecessor_ne

/-- Letting a block go makes no link. A block that is not put back hangs from nothing then. -/
theorem Sound.releaseAbove_fewer (S : g.Sound ok) (hb : g.blocks[id]? = some b)
    {r : Option DisconnectOutcome} (hrun : (Graph.releaseAbove id).run g = (.ok r, h)) :
    h.stock = g.stock ∧ (∀ n d, h.Linked n d → g.Linked n d) ∧
      ((r = none ∨ ∃ old, r = some (.detached old)) →
        ∀ n d, b.primaryDivot = some d → ¬ h.Linked n d) := by
  rcases S.releaseAbove_cases hb with
    ⟨hfree, hrun'⟩ | ⟨n, d, hd, hl, ⟨x, pl, hrun'⟩ | ⟨old, k, hrun', _, hshape⟩⟩
  · cases hrun.symm.trans hrun'
    exact ⟨rfl, fun _ _ hl => hl, fun _ => hfree⟩
  · cases hrun.symm.trans hrun'
    exact ⟨stock_setPlacement, fun _ _ => (linked_congr wires_setPlacement).mp, by simp⟩
  · cases hrun.symm.trans hrun'
    have hw := wires_of_shape hshape
    have hcut (m e : SnapId) (hme : h.Linked m e) : m ≠ n ∧ g.Linked m e := by
      obtain ⟨hm, _, hold⟩ := (linked_cutAt S.toStocked).mp ((linked_congr hw).mp hme)
      exact ⟨by simpa using hm, hold⟩
    refine ⟨(stock_of_wires hw).trans stock_cutAt, fun m e hme => (hcut m e hme).2, ?_⟩
    intro _ m e he hme
    cases hd.symm.trans he
    exact (hcut m d hme).1 (S.notch_eq (hcut m d hme).2 hl)

/-- What comes of a drag that has found a link when the block is let go. -/
structure Lands (g : Graph) (id : BlockId) (c : Candidate) (released : Option DisconnectOutcome)
    (out : ConnectOutcome) (h : Graph) : Prop where
  /-- A block that hangs from nothing is linked as it lies, where the search has found the two ends
  close to each other. -/
  root : g.predecessor id = .ok none →
    released = none ∧ Snaps { g with drag := {} } c out h ∧ g.Close c
  /-- So it is linked unless the link is too deep. -/
  near : g.predecessor id = .ok none → g.Measured c →
    (∃ l, out = .connected ⟨c.notch, c.divot, l⟩) ∨
      ∃ depth, g.config.maxChainHops < depth ∧
        out = .rejected (.tooDeep depth g.config.maxChainHops)
  /-- A block that is pulled off is linked as things lie then. -/
  detached {old : Connection} : released = some (.detached old) →
    ∃ k, (releaseAbove id).run { g with drag := {} } = (.ok released, k) ∧ k.Snaps c out h

/-- **What the search has found is linked** when the block is let go, if it hangs from nothing or is
pulled off, unless the link would be too deep or, after it was pulled off, is out of range. -/
theorem Reachable.dragEnd_lands (hg : Reachable Definition.WellFormed g)
    (hmove : (dragMove id pos).run g = (.ok (some c), h)) :
    ∃ released out k, (dragEnd id).run h = (.ok (.finished released (some out)), k) ∧
      h.Lands id c released out k := by
  have S := hg.sound fun _ hd => hd.toCoherent
  obtain ⟨m, hrun, hc, rfl⟩ := dragMove_eq_some hmove
  have Sm := (S.setDrag { g.drag with active := some id }).moveBlock id pos
  have hframe := frame_hides.moveBlock id pos { g with drag := { g.drag with active := some id } }
  rw [hrun] at Sm hframe
  have hactive : m.drag.active = some id := by rw [drag_of_frame hframe]
  obtain ⟨b, hb, ho, hnear⟩ := nearest_eq_some hc
  have hbid : b.id = id := Sm.block_id hb
  have hb' : m.blocks[b.id]? = some b := by rw [hbid, hb]
  -- the drag aside, this is the graph in which the search was made
  let freed : Graph := { m with drag := {} }
  have Sfreed : freed.Sound Definition.WellFormed := Sm.setDrag {}
  obtain ⟨r, k, hrel⟩ := Sfreed.releaseAbove_completes (Table.mem_iff.mpr ⟨b, hb⟩)
  have Sk := Sfreed.releaseAbove id
  rw [hrel] at Sk
  obtain ⟨hstock, hl, hfree⟩ := Sfreed.releaseAbove_fewer hb hrel
  have hend {out : ConnectOutcome} {k' : Graph}
      (hconn : (Graph.connect c.notch c.divot).run k = (.ok out, k')) :
      (dragEnd id).run { m with drag := { m.drag with pending := some c } } =
        (.ok (.finished r (some out)), k') :=
    (dragEnd_run (g := { m with drag := { m.drag with pending := some c } }) hactive hrel).trans
      (Edit.run_bind_ok hconn _)
  have hroot (hr : freed.predecessor id = .ok none) : r = none ∧ k = freed := by
    have hsame := Sfreed.releaseAbove_root hb hr
    cases hrel.symm.trans hsame
    exact ⟨rfl, rfl⟩
  by_cases hpulled : r = none ∨ ∃ old, r = some (.detached old)
  · obtain ⟨p, q, hp, hq, O⟩ :=
      ho.open_of_fewer Sm.toForest Sk.toForest hstock hl hb' (hfree hpulled)
    obtain ⟨out, k', hconn, hsnaps⟩ := Sk.connect_snaps hp hq O
    have hclose : m.Close c := ho.close hnear
    refine ⟨r, out, k', hend hconn, fun hr => ?_, fun hr hm => ?_, fun _ => ⟨k, hrel, hsnaps⟩⟩
    · obtain ⟨hnone, hk⟩ := hroot hr
      rw [hk] at hsnaps
      exact ⟨hnone, hsnaps, hclose.setDrag _⟩
    · obtain ⟨_, hk⟩ := hroot hr
      rw [hk] at hsnaps
      exact hsnaps.of_close (hclose.setDrag {}) (hm.setDrag {})
  · -- the block was put back where it hung, so that nothing is said of the link
    obtain ⟨hnotch, hdivot⟩ := Sm.registered_of_offers hb ho
    obtain ⟨p, hp, _⟩ := Sm.mem_notches.mp hnotch
    obtain ⟨q, hq, _⟩ := Sm.mem_divots.mp hdivot
    obtain ⟨p', hp', _⟩ := exists_snap_of_view hstock.symm hp
    obtain ⟨q', hq', _⟩ := exists_snap_of_view hstock.symm hq
    have hdone : ∃ out k', (Graph.connect c.notch c.divot).run k = (.ok out, k') := by
      rcases Sk.connect_cases hp' hq' with ⟨x, hconn⟩ | ⟨conn, k', hconn, _⟩
      · exact ⟨_, k, hconn⟩
      · exact ⟨_, k', hconn⟩
    obtain ⟨out, k', hconn⟩ := hdone
    exact ⟨r, out, k', hend hconn, fun hr => absurd (.inl (hroot hr).1) hpulled,
      fun hr => absurd (.inl (hroot hr).1) hpulled, fun hr => absurd (.inr ⟨_, hr⟩) hpulled⟩

/-- The body of a loop is found to fit under it, and is rejected there: the loop has shrunk. -/
theorem dragEnd_lands_looped : ∃ h, (dragMove "b" ⟨0, 232.5⟩).run looped =
    (.ok (some ⟨"notch-1-a", "divot-0-b", 0⟩), h) ∧ ∃ old out k,
      (dragEnd "b").run h = (.ok (.finished (some (.detached old)) (some out)), k) ∧
        h.Lands "b" ⟨"notch-1-a", "divot-0-b", 0⟩ (some (.detached old)) out k ∧
          out = .rejected (.outOfRange ⟨0, 60⟩) := by
  have hfound : ((dragMove "b" ⟨0, 232.5⟩).run looped).1 =
      .ok (some ⟨"notch-1-a", "divot-0-b", 0⟩) := by decide +kernel
  have hout : ((dragEnd "b").run ((dragMove "b" ⟨0, 232.5⟩).run looped).2).1 =
      .ok (.finished (some (.detached ⟨"notch-0-a", "divot-0-b", ["a"]⟩))
        (some (.rejected (.outOfRange ⟨0, 60⟩)))) := by decide +kernel
  rcases hmove : (dragMove "b" ⟨0, 232.5⟩).run looped with ⟨r, h⟩
  rw [hmove] at hfound hout
  obtain rfl : r = _ := hfound
  obtain ⟨released, out, k, hend, hlands⟩ :=
    Reachable.dragEnd_lands careful_looped.reachable hmove
  rw [hend] at hout
  cases hout
  exact ⟨h, rfl, _, _, k, hend, hlands, rfl⟩

end SnapBlocks.Graph
