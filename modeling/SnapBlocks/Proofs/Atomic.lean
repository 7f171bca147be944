import SnapBlocks.Proofs.Pending

/-! Failures change nothing, but for the drag. An operation of a session fails only when it is asked
for a block, a snap point, an input or a definition that does not exist, and all but two look that
up before they change anything. A drag takes the token first, and gives it back first, so that a
block which does not exist can hold it; and a block is let go before the ends of the pending snap
are looked up. -/

namespace SnapBlocks

namespace Edit

variable {α β : Type} {g h : Graph} {e : Edit α} {x : GraphError}

/-- If an edit of a graph fails, it leaves the graph as it was. -/
def Atomic (e : Edit α) (g : Graph) : Prop := ∀ x h, e.run g = (.error x, h) → h = g

theorem Atomic.of_completes (hc : e.Completes g) : e.Atomic g := by
  obtain ⟨a, k, hrun⟩ := hc
  intro x h hfail
  cases hrun.symm.trans hfail

/-- An edit that fails at its first question changes nothing. -/
theorem Atomic.of_ask {f : Graph → Except GraphError α} (hf : f g = .error x) (k : α → Edit β) :
    (ask f >>= k).Atomic g := by
  have hrun : (ask f >>= k).run g = (.error x, g) := run_bind_error (by rw [run_ask, hf]) k
  intro y h hfail
  cases hrun.symm.trans hfail
  rfl

/-- What is done with the answer alone changes nothing. -/
theorem Atomic.answer (he : e.Atomic g) (f : α → β) : (e >>= fun a => pure (f a)).Atomic g := by
  intro x h hfail
  rw [run_bind] at hfail
  split at hfail
  next => cases hfail
  next y k hrun =>
    cases hfail
    exact he x h hrun

end Edit

namespace Graph

open Edit

variable {ok : Definition → Prop} {g h : Graph} {b : Block} {id : BlockId} {n d : SnapId}

theorem block_missing (hno : id ∉ g.blocks) : g.block id = .error (.blockNotFound id) := by
  have hnone : g.blocks[id]? = none := by
    by_contra hsome
    exact hno (Table.mem_iff.mpr (Option.ne_none_iff_exists'.mp hsome))
  rw [block, hnone]

/-! ## Operations -/

theorem insert_atomic (id : BlockId) (name : String) (pos : Point) :
    (Graph.insert id name pos).Atomic g := by
  intro x h hfail
  unfold Graph.insert at hfail
  rw [run_bind_ok run_get] at hfail
  cases hd : g.catalog[name]? with
  | none =>
    rw [hd] at hfail
    cases hfail
    rfl
  | some d =>
    rw [hd] at hfail
    dsimp only at hfail
    rw [insertDefinition_run] at hfail
    cases hfail

theorem changeInput_atomic (id : BlockId) (seg input : String) (f : InputBinding → InputBinding) :
    (changeInput id seg input f).Atomic g := by
  unfold changeInput
  cases hi : g.findInput id seg input with
  | error x => exact .of_ask hi _
  | ok i =>
    exact .of_completes (.ask hi (.bind ⟨_, _, run_change _⟩ fun _ _ _ => .pure _ _))

theorem Sound.remove_atomic (S : g.Sound ok) (id : BlockId) : (Graph.remove id).Atomic g := by
  cases hb : g.blocks[id]? with
  | some b =>
    obtain ⟨h, hrun, _⟩ := S.remove_run hb
    exact .of_completes ⟨(), h, hrun⟩
  | none =>
    unfold Graph.remove
    exact .of_ask (by rw [block, hb]) _

theorem Sound.moveBlock_atomic (S : g.Sound ok) (id : BlockId) (pos : Point) :
    (Graph.moveBlock id pos).Atomic g := by
  by_cases hid : id ∈ g.blocks
  · obtain ⟨pl, hrun⟩ := S.toBase.moveBlock_completes hid pos
    exact .of_completes ⟨(), _, hrun⟩
  · unfold Graph.moveBlock
    exact .of_ask (block_missing hid) _

theorem Sound.connect_atomic (S : g.Sound Definition.WellFormed) (n d : SnapId) :
    (Graph.connect n d).Atomic g := by
  by_cases hgone : g.snaps[n]? = none ∨ g.snaps[d]? = none
  · obtain ⟨i, _, _, hrun⟩ := connect_missing hgone
    intro x h hfail
    cases hrun.symm.trans hfail
    rfl
  · rw [not_or] at hgone
    obtain ⟨p, hp⟩ := Option.ne_none_iff_exists'.mp hgone.1
    obtain ⟨q, hq⟩ := Option.ne_none_iff_exists'.mp hgone.2
    rcases S.connect_cases hp hq with ⟨r, hrun⟩ | ⟨c, h, hrun, _⟩
    · exact .of_completes ⟨_, g, hrun⟩
    · exact .of_completes ⟨_, h, hrun⟩

/-- A link that is rejected changes nothing. -/
theorem Sound.connect_rejected (S : g.Sound Definition.WellFormed) {r : Rejection}
    (hrun : (Graph.connect n d).run g = (.ok (.rejected r), h)) : h = g := by
  by_cases hgone : g.snaps[n]? = none ∨ g.snaps[d]? = none
  · obtain ⟨i, _, _, hfail⟩ := connect_missing hgone
    cases hrun.symm.trans hfail
  · rw [not_or] at hgone
    obtain ⟨p, hp⟩ := Option.ne_none_iff_exists'.mp hgone.1
    obtain ⟨q, hq⟩ := Option.ne_none_iff_exists'.mp hgone.2
    rcases S.connect_cases hp hq with ⟨s, hrun'⟩ | ⟨c, k, hrun', _⟩
    · cases hrun.symm.trans hrun'
      rfl
    · cases hrun.symm.trans hrun'

theorem Sound.disconnect_atomic (S : g.Sound ok) (d : SnapId) :
    (Graph.disconnect d).Atomic g := by
  cases hq : g.snaps[d]? with
  | some q => exact .of_completes (S.disconnect_completes hq)
  | none =>
    unfold Graph.disconnect
    exact .of_ask (by rw [snap, hq]) _

theorem Sound.calculateDeepest_atomic (S : g.Sound ok) (id : BlockId) :
    (Graph.calculateDeepest id).Atomic g := by
  by_cases hid : id ∈ g.blocks
  · obtain ⟨tail, h, hrun, _⟩ := S.toBase.calculateDeepest_run hid
    exact .of_completes ⟨tail, h, hrun⟩
  · have htail : g.chainTail id = .error (.blockNotFound id) := by
      unfold chainTail primaryChain chainAfter primaryNext
      simp only [block_missing hid, bind, Except.bind]
    unfold Graph.calculateDeepest
    exact .of_ask htail _

theorem Sound.adjustHeight_atomic (S : g.Sound ok) (hpos : 0 < g.config.maxChainHops)
    (id : BlockId) : (Graph.adjustHeight id).Atomic g := by
  by_cases hid : id ∈ g.blocks
  · obtain ⟨r, h, hrun, _, _, _, _, hall⟩ := S.toBase.adjustHeight_run hid
    obtain ⟨⟨l, rfl⟩, _⟩ := hall hpos
    exact .of_completes ⟨l, h, hrun⟩
  · obtain ⟨room, hroom⟩ := Nat.exists_eq_succ_of_ne_zero (Nat.pos_iff_ne_zero.mp hpos)
    have hrefresh : (refreshHeight id).run g = (.error (.blockNotFound id), g) := by
      unfold refreshHeight
      exact run_bind_error (by rw [run_needBlock, block_missing hid]) _
    have hrun : (Graph.adjustHeight id).run g = (.error (.blockNotFound id), g) := by
      unfold Graph.adjustHeight
      rw [run_bind_ok run_get, hroom, refreshHeights, run_bind_error hrefresh]
    intro x h hfail
    cases hrun.symm.trans hfail
    rfl

/-! ## Drags -/

/-- The first move of a drag takes the token, also for a block that does not exist. -/
theorem Sound.dragMove_error (S : g.Sound ok) {pos : Point} {x : GraphError}
    (hfail : (Graph.dragMove id pos).run g = (.error x, h)) :
    id ∉ g.blocks ∧ x = .blockNotFound id ∧
      h = { g with drag := { g.drag with active := some id } } := by
  by_cases hid : id ∈ g.blocks
  · obtain ⟨r, k, hrun⟩ := S.dragMove_completes hid pos
    cases hrun.symm.trans hfail
  · unfold Graph.dragMove at hfail
    rw [run_bind_ok run_get] at hfail
    split at hfail
    next => cases hfail
    next =>
      let taken : Graph := { g with drag := { g.drag with active := some id } }
      have hmove : (Graph.moveBlock id pos).run taken = (.error (.blockNotFound id), taken) := by
        unfold Graph.moveBlock
        exact run_bind_error (by rw [run_needBlock, block_missing (g := taken) hid]) _
      rw [run_bind_ok (run_change _), run_bind_error hmove] at hfail
      obtain ⟨hx, hh⟩ := Prod.mk.inj hfail
      exact ⟨hid, (Except.error.inj hx).symm, hh.symm⟩

/-- The token is given back also by a block that does not exist; and a block is let go before an
end of the pending snap is missed. -/
theorem Sound.dragEnd_error (S : g.Sound Definition.WellFormed) {x : GraphError}
    (hfail : (Graph.dragEnd id).run g = (.error x, h)) : g.drag.active = some id ∧
      ((id ∉ g.blocks ∧ x = .blockNotFound id ∧ h = { g with drag := {} }) ∨
        ∃ c i r, g.drag.pending = some c ∧ (i = c.notch ∨ i = c.divot) ∧ h.snaps[i]? = none ∧
          x = .snapNotFound i ∧
            (Graph.releaseAbove id).run { g with drag := {} } = (.ok r, h)) := by
  by_cases hactive : g.drag.active = some id
  · refine ⟨hactive, ?_⟩
    cases hb : g.blocks[id]? with
    | none =>
      cases (dragEnd_missing hactive hb).symm.trans hfail
      refine .inl ⟨fun hid => ?_, rfl, rfl⟩
      obtain ⟨c, hc⟩ := Table.mem_iff.mp hid
      cases hb.symm.trans hc
    | some b =>
      obtain ⟨r, k, hrel, ⟨o, k', hrun⟩ | ⟨c, i, hc, hi, hno, hrun⟩⟩ :=
        S.dragEnd_holder (Table.mem_iff.mpr ⟨b, hb⟩) hactive
      · cases hrun.symm.trans hfail
      · cases hrun.symm.trans hfail
        exact .inr ⟨c, i, r, hc, hi, hno, rfl, hrel⟩
  · cases (dragEnd_idle hactive).symm.trans hfail

/-! ## Sessions -/

/-- **What failures leave behind.** -/
structure Failsafe (g : Graph) : Prop where
  /-- An operation that fails leaves the graph as it was, unless it is one of a drag. -/
  atomic {op : Operation} {x : GraphError} {h : Graph} : op.perform.run g = (.error x, h) →
    (∀ id pos, op ≠ .dragMove id pos) → (∀ id, op ≠ .dragEnd id) → h = g
  /-- So does a link that is rejected. -/
  rejected {n d : SnapId} {r : Rejection} {h : Graph} :
    (connect n d).run g = (.ok (.rejected r), h) → h = g
  /-- A drag of a block fails only if there is no such block. It leaves the token with it. -/
  dragMove {id : BlockId} {pos : Point} {x : GraphError} {h : Graph} :
    (Graph.dragMove id pos).run g = (.error x, h) → id ∉ g.blocks ∧ x = .blockNotFound id ∧
      h = { g with drag := { g.drag with active := some id } }
  /-- A block that holds the token cannot be let go only if it does not exist, or an end of the
  pending snap does not. The drag is over then, and the block has been released. -/
  dragEnd {id : BlockId} {x : GraphError} {h : Graph} :
    (Graph.dragEnd id).run g = (.error x, h) → g.drag.active = some id ∧
      ((id ∉ g.blocks ∧ x = .blockNotFound id ∧ h = { g with drag := {} }) ∨
        ∃ c i r, g.drag.pending = some c ∧ (i = c.notch ∨ i = c.divot) ∧ h.snaps[i]? = none ∧
          x = .snapNotFound i ∧ (releaseAbove id).run { g with drag := {} } = (.ok r, h))

/-- **Failures change nothing but the drag** in a session whose configuration lets a walk take a
step at all, apart from a block that is released before an end of its pending snap is missed. -/
theorem Reachable.failsafe (hg : Reachable Definition.WellFormed g)
    (hpos : 0 < g.config.maxChainHops) : g.Failsafe := by
  have S := hg.sound fun _ hd => hd.toCoherent
  refine { atomic := ?_, rejected := S.connect_rejected, dragMove := S.dragMove_error,
           dragEnd := S.dragEnd_error }
  intro op x h hfail hmove hend
  suffices hop : op.perform.Atomic g from hop x h hfail
  cases op with
  | insert id name pos => exact (insert_atomic id name pos).answer _
  | insertDefinition id d pos =>
    exact .answer (.of_completes ⟨id, _, insertDefinition_run id d pos g⟩) _
  | remove id => exact S.remove_atomic id
  | move id pos => exact S.moveBlock_atomic id pos
  | connect n d => exact (S.connect_atomic n d).answer _
  | disconnect d => exact (S.disconnect_atomic d).answer _
  | dragMove id pos => exact absurd rfl (hmove id pos)
  | dragEnd id => exact absurd rfl (hend id)
  | updateInput id seg input u => exact (changeInput_atomic id seg input u.apply).answer _
  | resetInput id seg input => exact (changeInput_atomic id seg input _).answer _
  | adjustHeight id => exact (S.adjustHeight_atomic hpos id).answer _
  | calculateDeepest id => exact (S.calculateDeepest_atomic id).answer _

theorem failsafe_looped : 0 < looped.config.maxChainHops ∧ looped.Failsafe ∧
    ∃ h, (dragMove "ghost" .origin).run looped = (.error (.blockNotFound "ghost"), h) ∧
      h = { looped with drag := { active := some "ghost" } } := by
  have hpos : 0 < looped.config.maxChainHops := by decide +kernel
  have hsafe : looped.Failsafe := Reachable.failsafe careful_looped.reachable hpos
  refine ⟨hpos, hsafe, ?_⟩
  have hfound : ((dragMove "ghost" .origin).run looped).1 = .error (.blockNotFound "ghost") := by
    decide +kernel
  have hidle : looped.drag = {} := by decide +kernel
  rcases hmove : (dragMove "ghost" .origin).run looped with ⟨r, h⟩
  rw [hmove] at hfound
  obtain rfl : r = _ := hfound
  obtain ⟨_, _, hleft⟩ := hsafe.dragMove hmove
  rw [hidle] at hleft
  exact ⟨h, rfl, hleft⟩

end Graph

end SnapBlocks
