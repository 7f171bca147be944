import SnapBlocks.Definition.Catalog
import SnapBlocks.Proofs.Loading

/-! How blocks are arranged in a session: walks up end at roots, no way down is too long, and the
placement of a block names the notch that it hangs from. -/

namespace SnapBlocks

theorem Catalog.wellFormed_of_mem : ∀ d ∈ Catalog.standardBlocks, d.WellFormed := by decide

namespace Graph

open Relation

/-- One of the notches of a block holds the divot of another. -/
def Carries (g : Graph) (up low : BlockId) : Prop :=
  ∃ n d, g.Linked n d ∧ g.owner n = .ok up ∧ g.owner d = .ok low

/-- **A forest with its placements.** -/
structure Arranged (g : Graph) : Prop where
  /-- A walk along predecessors ends at a block that has none. -/
  climb {id : BlockId} : id ∈ g.blocks → ∃ top, g.Under id top ∧ g.predecessor top = .ok none
  /-- No block stands above a block that carries it. -/
  acyclic {up low : BlockId} : g.Carries up low → ¬ g.Under up low
  /-- A way down, through primary and nested links, is not too long. -/
  path_le {path : List BlockId} : path.IsChain g.Carries →
    path.length ≤ max 1 g.config.maxChainHops
  attached_iff {id : BlockId} {b : Block} {n : SnapId} : g.blocks[id]? = some b →
    ((∃ offset, b.placement = .attached n offset) ↔
      ∃ d, b.primaryDivot = some d ∧ g.Linked n d)
  root_iff {id : BlockId} {b : Block} : g.blocks[id]? = some b →
    ((∃ pos, b.placement = .root pos) ↔
      ∀ d, b.primaryDivot = some d → ∃ q, g.snaps[d]? = some q ∧ q.previous = none)

variable {ok : Definition → Prop} {g : Graph} {id up low : BlockId} {path : List BlockId} {k : Nat}

theorem Forest.exists_top (hk : g.DepthOf id k) :
    ∃ top, g.Under id top ∧ g.predecessor top = .ok none := by
  induction hk with
  | root hr => exact ⟨_, .refl, hr⟩
  | hang hh _ ih =>
    obtain ⟨top, hu, hr⟩ := ih
    exact ⟨top, .head hh hu, hr⟩

/-- Each block of a way down is one deeper than the one before. -/
theorem Simple.depth_getLast (H : g.Simple) (hp : (id :: path).IsChain g.Carries)
    (hk : g.DepthOf id k) :
    g.DepthOf ((id :: path).getLast (List.cons_ne_nil id path)) (k + path.length) := by
  induction path generalizing id k with
  | nil => exact hk
  | cons low rest ih =>
    obtain ⟨hc, hrest⟩ := List.isChain_cons_cons.mp hp
    have hlast := ih hrest (.hang (H.hangsFrom_iff.mpr hc) hk)
    rw [List.getLast_cons_cons, List.length_cons]
    rwa [Nat.add_assoc, Nat.add_comm 1] at hlast

theorem Forest.path_le (H : g.Forest) (hp : path.IsChain g.Carries) :
    path.length ≤ max 1 g.config.maxChainHops := by
  match path, hp with
  | [], _ => exact Nat.zero_le _
  | [_], _ => exact Nat.le_max_left ..
  | up :: low :: rest, hp =>
    have hh : g.HangsFrom low up := H.hangsFrom_iff.mpr (List.isChain_cons_cons.mp hp).1
    obtain ⟨k, hk, _⟩ := H.depth (H.hangsFrom_mem hh)
    have := H.depth_le (H.depth_getLast hp hk)
    have := hk.pos
    simp only [List.length_cons] at *
    omega

/-- **Arrangement.** In every session that uses well-formed definitions, as those of the standard
catalog are, the links form a forest of bounded depth, and the placements agree with them. -/
theorem Reachable.arranged (hg : Reachable Definition.WellFormed g) :
    g.Arranged ∧ ∀ d ∈ Catalog.standardBlocks, d.WellFormed := by
  have S := hg.sound fun _ hd => hd.toCoherent
  refine ⟨⟨fun hid => ?_, fun hc => ?_, S.path_le, fun hb => ?_, fun {id b} hb => ?_⟩,
    Catalog.wellFormed_of_mem⟩
  · obtain ⟨k, hk, _⟩ := S.depth hid
    exact Forest.exists_top hk
  · exact S.not_under_of_hangsFrom (S.hangsFrom_iff.mpr hc)
  · rw [← S.seated.anchor_iff hb]
    exact Placement.anchor_eq_some.symm
  · rw [← Placement.anchor_eq_none, S.seated.root_iff S.toSimple hb, predecessor_eq_none]
    constructor
    · rintro ⟨c, hc, hfree⟩
      cases hb.symm.trans hc
      exact hfree
    · intro hfree
      exact ⟨b, hb, hfree⟩

end Graph

/-! ## A document with links -/

namespace Document

open SnapBlocks.Graph

/-- An entry with a loop as its body, and a statement in the loop. -/
def nested : Document where
  blocks := Table.ofPairs <|
    [("a", Catalog.startAgent), ("b", Catalog.whileLoop), ("c", Catalog.logVariable)].map fun p =>
      (p.1, { id := p.1, name := p.2.name, position := .origin, offset := none, segments := []
              definition := p.2, primaryNotchId := none, primaryDivotId := none })
  notches := Table.ofPairs [
    ("notch-0-a", {
      notchBlockId := "a", divotBlockId := "b", notchId := "notch-0-a", divotId := "divot-0-b"
      notchSegmentId := "startAgent.startAgent", divotSegmentId := "while.while"
      isPrimary := true }),
    ("notch-0-b", {
      notchBlockId := "b", divotBlockId := "c", notchId := "notch-0-b", divotId := "divot-0-c"
      notchSegmentId := "while.while", divotSegmentId := "logVariable.logVariable"
      isPrimary := false })]

theorem nested_wellFormed (p : BlockId × SavedBlock) (hp : p ∈ nested.blocks.toList) :
    p.2.definition.WellFormed := by
  have hmem : ∀ p ∈ nested.blocks.toList, p.2.definition ∈ Catalog.standardBlocks := by decide
  exact Catalog.wellFormed_of_mem _ (hmem p hp)

/-- The graph of that document. -/
def nestedGraph : Graph := (nested.load.run ⟨.empty ∅, []⟩).2.graph

theorem toGraph_nested : nested.toGraph ∅ = (.ok nestedGraph, []) := by
  have hload : (nested.load.run ⟨.empty ∅, []⟩).1 = .ok () ∧
      (nested.load.run ⟨.empty ∅, []⟩).2.skipped = [] := by decide +kernel
  rw [toGraph_eq, hload.1, hload.2]
  rfl

theorem hangsFrom_nestedGraph : nestedGraph.HangsFrom "c" "b" ∧ nestedGraph.HangsFrom "b" "a" := by
  unfold HangsFrom
  decide +kernel

theorem reachable_nestedGraph : Reachable Definition.WellFormed nestedGraph :=
  .loaded nested ∅ {} [] nested_wellFormed toGraph_nested (.refl _)

theorem arranged_nestedGraph :
    (nestedGraph.HangsFrom "c" "b" ∧ nestedGraph.HangsFrom "b" "a") ∧
      nestedGraph.Arranged ∧ ∀ d ∈ Catalog.standardBlocks, d.WellFormed :=
  ⟨hangsFrom_nestedGraph, Reachable.arranged reachable_nestedGraph⟩

end Document

end SnapBlocks
