import SnapBlocks.Proofs.Arrangement

/-! No cache is ever stale. Throughout a session each block is stretched by what hangs inside of
it, its height and the places of its snap points are what the layout answers for that, and its
cached tail is the last block of the chain that starts there. -/

namespace SnapBlocks.Graph

/-- **Every block fits what hangs inside of it.** -/
structure Fitted (g : Graph) : Prop where
  /-- A free notch for a nested chain does not stretch its segment. -/
  free {id : BlockId} {b : Block} {s : Slot} {p : SnapPoint} : g.blocks[id]? = some b →
    s ∈ b.definition.slots → s.kind = .secondaryNotch → g.snaps[s.snapId id]? = some p →
    p.next = none → b.extra[s.segmentId]? = some 0
  /-- A nested chain stretches its segment by the heights of its blocks, summed in order. -/
  nested {id : BlockId} {b : Block} {s : Slot} {p : SnapPoint} {d : SnapId} :
    g.blocks[id]? = some b → s ∈ b.definition.slots → s.kind = .secondaryNotch →
    g.snaps[s.snapId id]? = some p → p.next = some d →
    ∃ low, ∃ cs : List Block, g.owner d = .ok low ∧ g.ChainOf low (cs.map (·.id)) ∧
      (∀ c ∈ cs, g.blocks[c.id]? = some c) ∧
      b.extra[s.segmentId]? = some ((cs.map (·.height)).foldl (· + ·) 0)
  /-- Any other segment is not stretched. -/
  plain {id : BlockId} {b : Block} {seg : Segment} : g.blocks[id]? = some b →
    seg ∈ b.definition.segments →
    (∀ s ∈ b.definition.slots, s.kind = .secondaryNotch → s.segmentId ≠ seg.id) →
    b.extra[seg.id]? = some 0
  height {id : BlockId} {b : Block} : g.blocks[id]? = some b →
    b.height = (g.layout.place b.definition b.extra).height
  /-- The snap points lie where the layout puts them, in order. -/
  position {id : BlockId} {b : Block} {k : Nat} {i : SnapId} {pos : Point} :
    g.blocks[id]? = some b → b.snapPoints[k]? = some i →
    (g.layout.place b.definition b.extra).positions[k]? = some pos →
    ∃ p, g.snaps[i]? = some p ∧ p.position = pos

variable {ok : Definition → Prop} {g : Graph} {b : Block} {id : BlockId} {l : List BlockId}

/-! ## Heights -/

/-- The blocks of a chain, in order. -/
theorem Stocked.exists_blocks (H : g.Stocked) (hl : ∀ y ∈ l, y ∈ g.blocks) :
    ∃ cs : List Block, cs.map (·.id) = l ∧ (∀ c ∈ cs, g.blocks[c.id]? = some c) ∧
      cs.map (·.height) = l.map g.heightOf := by
  induction l with
  | nil => exact ⟨[], rfl, by simp, rfl⟩
  | cons y rest ih =>
    obtain ⟨c, hc⟩ := Table.mem_iff.mp (hl y List.mem_cons_self)
    obtain ⟨cs, hids, hget, hheights⟩ := ih fun z hz => hl z (.tail _ hz)
    have hid : c.id = y := H.block_id hc
    refine ⟨c :: cs, by rw [List.map_cons, hid, hids], ?_, ?_⟩
    · intro e he
      rcases List.mem_cons.mp he with rfl | he
      · rw [hid]; exact hc
      · exact hget e he
    · rw [List.map_cons, List.map_cons, hheights]
      simp [heightOf, hc]

/-- **Heights.** No operation of a session leaves a height behind that is not right. -/
theorem Reachable.fitted (hg : Reachable Definition.WellFormed g) : g.Fitted := by
  have S := hg.sound fun _ hd => hd.toCoherent
  refine ⟨?_, ?_, fun hb => (S.kempt.plain hb).zero, fun hb => (S.kempt.laid hb).height, ?_⟩
  · intro id b s p hb hs hk hp hnone
    obtain ⟨p', x, hp', hx, he⟩ := S.stretched id b hb s hs hk
    cases hp.symm.trans hp'
    rw [hnone] at hx
    cases hx
    exact he
  · intro id b s p d hb hs hk hp hd
    obtain ⟨p', x, hp', hx, he⟩ := S.stretched id b hb s hs hk
    cases hp.symm.trans hp'
    rcases S.hanging_cases hp with hnone | ⟨d', low, l, hd', hlow, _, hl⟩
    · cases hnone.symm.trans hd
    · cases hd.symm.trans hd'
      obtain ⟨cs, rfl, hget, hheights⟩ := S.exists_blocks hl.mem_blocks
      refine ⟨low, cs, hlow, hl, hget, ?_⟩
      rw [hd, S.hangingHeight_eq hlow hl, ← hheights] at hx
      cases hx
      exact he
  · intro id b k i pos hb hi hpos
    refine (S.kempt.laid hb).position (List.mem_of_getElem? (i := k) ?_)
    rw [List.getElem?_zip_eq_some]
    exact ⟨hi, hpos⟩

theorem fitted_nestedGraph : (Document.nestedGraph.HangsFrom "c" "b" ∧
    Document.nestedGraph.HangsFrom "b" "a") ∧ Document.nestedGraph.Fitted :=
  ⟨Document.hangsFrom_nestedGraph, Reachable.fitted Document.reachable_nestedGraph⟩

/-! ## Tails -/

/-- A block with no primary notch, or a free one, is a chain of its own. -/
theorem Simple.chainOf_alone (H : g.Simple) (hb : g.blocks[id]? = some b)
    (hfree : ∀ n, b.primaryNotch = some n → ∃ p, g.snaps[n]? = some p ∧ p.next = none) :
    g.ChainOf id [id] := by
  apply ChainOf.last
  obtain ⟨_ | low, hr⟩ := H.primaryNext_total (Table.mem_iff.mpr ⟨b, hb⟩)
  · exact hr
  · obtain ⟨b', n, p, d, _, hb', hn, hp, hd, _⟩ := primaryNext_eq_some.mp hr
    cases hb.symm.trans hb'
    obtain ⟨p', hp', hnone⟩ := hfree n hn
    cases hp.symm.trans hp'
    cases hnone.symm.trans hd

/-- **Tails.** Whatever the operations of a session and their order, the cached tail of each block
is the last block of its chain, as the graph is then. -/
theorem Reachable.deepest_last (hg : Reachable Definition.WellFormed g) (hb : g.blocks[id]? = some b) :
    b.deepest ∈ g.blocks ∧
      (∃ l, g.ChainOf id l ∧ g.primaryChain id = .ok l ∧ l.getLast? = some b.deepest) ∧
      ((∀ n, b.primaryNotch = some n → ∃ p, g.snaps[n]? = some p ∧ p.next = none) →
        b.deepest = id) := by
  have S := hg.sound fun _ hd => hd.toCoherent
  obtain ⟨l, hl, hlast⟩ := S.chain_of_tailed hb (S.tailed (Table.mem_iff.mpr ⟨b, hb⟩))
  refine ⟨hl.mem_blocks _ (List.mem_of_getLast? hlast), ⟨l, hl, S.primaryChain_eq hl, hlast⟩, ?_⟩
  intro hfree
  rw [hl.unique (S.chainOf_alone hb hfree)] at hlast
  exact (Option.some.inj hlast).symm

theorem deepest_last_nestedGraph : ∃ b, Document.nestedGraph.blocks["a"]? = some b ∧
    b.deepest = "b" ∧ b.deepest ∈ Document.nestedGraph.blocks ∧
      (∃ l, Document.nestedGraph.ChainOf "a" l ∧ Document.nestedGraph.primaryChain "a" = .ok l ∧
        l.getLast? = some b.deepest) ∧
      ((∀ n, b.primaryNotch = some n →
        ∃ p, Document.nestedGraph.snaps[n]? = some p ∧ p.next = none) → b.deepest = "a") := by
  have hdeepest : Document.nestedGraph.blocks["a"]?.map (·.deepest) = some "b" := by
    decide +kernel
  obtain ⟨b, hb, he⟩ := Option.map_eq_some_iff.mp hdeepest
  exact ⟨b, hb, he, Reachable.deepest_last Document.reachable_nestedGraph hb⟩

end SnapBlocks.Graph
