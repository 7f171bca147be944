import SnapBlocks.Proofs.Pending

/-! What linking and unlinking do when they succeed. Linking is rejected, or it makes the link and
refreshes around it (`Graph.Linking`). Unlinking finds no link, puts the block back at its notch, or
cuts the link and refreshes around it (`Graph.Unlinking`). What is shown of a refresh and of a change
of links then holds of the operations. -/

namespace SnapBlocks

namespace Graph

variable {ok : Definition → Prop} {g h : Graph} {b : Block} {id : BlockId}
variable {n d : SnapId}

/-- What linking does: nothing, or it makes the link, puts the block of the divot at the notch, and
refreshes around the link. -/
inductive Linking (g : Graph) (n d : SnapId) : ConnectOutcome → Graph → Prop
  | rejected (r : Rejection) : Linking g n d (.rejected r) g
  | connected {p q : SnapPoint} {l : List BlockId} {h : Graph} :
      g.snaps[n]? = some p → g.snaps[d]? = some q → g.Joinable p q →
      (refreshAround p.block q.block).run
        ((g.link n d).setPlacement q.block (.attached n (-q.position))) = (.ok l, h) →
      Linking g n d (.connected ⟨n, d, l⟩) h

/-- What unlinking does: nothing where there is no link; else it puts the block of the divot back at
the notch, or cuts the link and refreshes around it. -/
inductive Unlinking (g : Graph) (d : SnapId) : DisconnectOutcome → Graph → Prop
  | notLinked : (∀ n, ¬ g.Linked n d) → Unlinking g d .notLinked g
  | realigned {n : SnapId} {q : SnapPoint} (correction offset : Point) :
      g.Linked n d → g.snaps[d]? = some q →
      Unlinking g d (.realigned correction) (g.setPlacement q.block (.attached n offset))
  | detached {n : SnapId} {p q : SnapPoint} {l : List BlockId} {h : Graph} :
      g.Linked n d → g.snaps[n]? = some p → g.snaps[d]? = some q →
      (refreshAround p.block q.block).run (g.cutAt [n]) = (.ok l, h) →
      Unlinking g d (.detached ⟨n, d, l⟩) h

theorem Sound.linking (S : g.Sound ok) {out : ConnectOutcome}
    (hrun : (Graph.connect n d).run g = (.ok out, h)) : g.Linking n d out h := by
  unfold Graph.connect at hrun
  obtain ⟨r, _, hask, hrest⟩ := Edit.run_bind_eq_ok.mp hrun
  obtain ⟨hr, rfl⟩ := Edit.run_ask_eq_ok.mp hask
  cases r with
  | some r =>
    cases hrest
    exact .rejected r
  | none =>
    obtain ⟨p, q, hp, hq⟩ := exists_snaps_of_linkRejection hr
    obtain ⟨r, hr', hiff⟩ := S.linkRejection_eq hp hq
    cases hr.symm.trans hr'
    obtain ⟨x, hx⟩ := S.toBase.exists_snapPosition hp
    obtain ⟨y, hy⟩ := S.toBase.exists_snapPosition hq
    rw [Edit.run_bind_ok (by rw [Edit.run_ask, hx]), Edit.run_bind_ok (by rw [Edit.run_ask, hy]),
      Edit.run_bind_ok Edit.run_get] at hrest
    split at hrest
    · obtain ⟨c, _, hattach, hdone⟩ := Edit.run_bind_eq_ok.mp hrest
      cases hdone
      rw [attach_run_link hp hq (S.block_mem hq)] at hattach
      obtain ⟨l, _, hrefresh, hmade⟩ := Edit.run_bind_eq_ok.mp hattach
      cases hmade
      exact .connected hp hq (hiff.mp rfl) hrefresh
    · cases hrest
      exact .rejected _

/-- Moving a block that hangs from a notch changes its offset. -/
theorem moveBlock_attached (H : g.Seated) (hb : g.blocks[id]? = some b)
    (hd : b.primaryDivot = some d) (hl : g.Linked n d) {pos : Point}
    (hrun : (moveBlock id pos).run g = (.ok (), h)) :
    ∃ offset, h = g.setPlacement id (.attached n offset) := by
  obtain ⟨old, hpl⟩ := Placement.anchor_eq_some.mp ((H.anchor_iff hb).mpr ⟨d, hd, hl⟩)
  unfold moveBlock at hrun
  rw [Edit.run_bind_ok (by rw [Edit.run_needBlock, block_of_getElem? hb]), hpl] at hrun
  obtain ⟨anchor, _, hask, hrest⟩ := Edit.run_bind_eq_ok.mp hrun
  obtain ⟨_, rfl⟩ := Edit.run_ask_eq_ok.mp hask
  cases hrest
  exact ⟨_, rfl⟩

theorem Sound.unlinking (S : g.Sound ok) {out : DisconnectOutcome}
    (hrun : (Graph.disconnect d).run g = (.ok out, h)) : g.Unlinking d out h := by
  unfold Graph.disconnect at hrun
  obtain ⟨q, _, hask, hrest⟩ := Edit.run_bind_eq_ok.mp hrun
  obtain ⟨hq, rfl⟩ := Edit.run_ask_eq_ok.mp hask
  have hq := snap_eq_ok.mp hq
  cases hprev : q.previous with
  | none =>
    rw [hprev] at hrest
    cases hrest
    refine .notLinked fun n hl => ?_
    rw [S.linked_iff_previous hq, hprev] at hl
    cases hl
  | some n =>
    have hl : g.Linked n d := (S.linked_iff_previous hq).mpr hprev
    obtain ⟨p, _, hp, _⟩ := S.ends hl
    obtain ⟨b, hb⟩ := S.exists_block hq
    obtain ⟨x, hx⟩ := S.toBase.exists_snapPosition hq
    obtain ⟨y, hy⟩ := S.toBase.exists_snapPosition hp
    obtain ⟨z, hz⟩ := S.placed.exists_position (Table.mem_iff.mpr ⟨b, hb⟩)
    rw [hprev] at hrest
    dsimp only at hrest
    rw [Edit.run_bind_ok (by rw [Edit.run_ask, owner_of_getElem? hp]),
      Edit.run_bind_ok (by rw [Edit.run_ask, hx]), Edit.run_bind_ok (by rw [Edit.run_ask, hy]),
      Edit.run_bind_ok Edit.run_get] at hrest
    split at hrest
    · rw [Edit.run_bind_ok (by rw [Edit.run_ask, hz])] at hrest
      obtain ⟨_, m, hmove, hdone⟩ := Edit.run_bind_eq_ok.mp hrest
      cases hdone
      have hdivot := S.primaryDivot hq (S.isDivot hq hprev) hb
      obtain ⟨offset, rfl⟩ := moveBlock_attached S.seated hb hdivot hl hmove
      exact .realigned _ offset hl hq
    · have hunlink := unlink_run (g := g.setPlacement q.block (.root z)) hp hq
      rw [S.cutAt_notch (fun _ _ => S.seated.anchor_iff) hl (owner_of_getElem? hq) hz] at hunlink
      rw [Edit.run_bind_ok (detachToRoot_run hz), Edit.run_bind_ok hunlink] at hrest
      obtain ⟨l, _, hrefresh, hdone⟩ := Edit.run_bind_eq_ok.mp hrest
      cases hdone
      exact .detached hl hp hq hrefresh

theorem reachable_hovering : Reachable Definition.WellFormed hovering :=
  careful_looped.reachable.step (.dragMove "b" ⟨0, 232.5⟩) nofun nofun

end Graph

end SnapBlocks
