import SnapBlocks.Proofs.Arrangement
import Mathlib.Data.List.Chain
import Mathlib.Order.Bounds.Basic

/-! The check of a link is exact. It passes just the links of open ends that leave every way down
through them short enough, where a way goes from a root to a leaf of the tree that the link would
make. Otherwise it names the first condition that fails, and if that is the depth, the length of
the longest way. -/

namespace SnapBlocks

namespace Graph

open Relation

/-- A way down from a root to a leaf. -/
structure Way (g : Graph) (path : List BlockId) : Prop where
  chain : path.IsChain g.Carries
  root {top : BlockId} : top ∈ path.head? → g.predecessor top = .ok none
  leaf {last low : BlockId} : last ∈ path.getLast? → ¬ g.Carries last low

/-- With the link of a notch and a divot, a way goes down through it. -/
structure Passes (g : Graph) (n d : SnapId) (p q : SnapPoint) (path : List BlockId) : Prop extends
    (g.link n d).Way path where
  through : [p.block, q.block] <:+: path

/-- How long the ways down through a link are. -/
def lengthsThrough (g : Graph) (n d : SnapId) (p q : SnapPoint) : Set Nat :=
  {k | ∃ path, g.Passes n d p q path ∧ path.length = k}

/-- **What the check of a link says**, by the first condition that fails. -/
structure Decides (g : Graph) (n d : SnapId) (p q : SnapPoint) (r : Option Rejection) : Prop where
  none_iff : r = none ↔
    (p.kind.isNotch ∧ q.kind.isDivot ∧ p.next = none ∧ q.previous = none ∧ p.block ≠ q.block ∧
      ¬ g.Under p.block q.block) ∧
    ∀ path, g.Passes n d p q path → path.length ≤ g.config.maxChainHops
  notANotch_iff : r = some .notANotch ↔ ¬ p.kind.isNotch
  notADivot_iff : r = some .notADivot ↔ p.kind.isNotch ∧ ¬ q.kind.isDivot
  alreadyLinked_iff : r = some .alreadyLinked ↔
    p.kind.isNotch ∧ q.kind.isDivot ∧ (p.next ≠ none ∨ q.previous ≠ none)
  sameBlock_iff : r = some .sameBlock ↔
    p.kind.isNotch ∧ q.kind.isDivot ∧ p.next = none ∧ q.previous = none ∧ p.block = q.block
  wouldCycle_iff : r = some .wouldCycle ↔
    p.kind.isNotch ∧ q.kind.isDivot ∧ p.next = none ∧ q.previous = none ∧ p.block ≠ q.block ∧
      g.Under p.block q.block
  tooDeep_iff {depth limit : Nat} : r = some (.tooDeep depth limit) ↔
    (p.kind.isNotch ∧ q.kind.isDivot ∧ p.next = none ∧ q.previous = none ∧ p.block ≠ q.block ∧
      ¬ g.Under p.block q.block) ∧
    IsGreatest (g.lengthsThrough n d p q) depth ∧ limit = g.config.maxChainHops ∧ limit < depth
  /-- Distances are not its concern. -/
  ne_outOfRange {delta : Point} : r ≠ some (.outOfRange delta)

variable {g : Graph} {id low up : BlockId} {n d : SnapId} {p q : SnapPoint} {i j k : Nat}
variable {path : List BlockId} {r : Option Rejection}

theorem open_iff : g.Open p q ↔ p.kind.isNotch ∧ q.kind.isDivot ∧ p.next = none ∧
    q.previous = none ∧ p.block ≠ q.block ∧ ¬ g.Under p.block q.block := by
  rw [SnapKind.isDivot_iff]
  exact ⟨fun ⟨hp, hq, hn, hd, hne, hu⟩ => ⟨hp, hq, hn, hd, hne, hu⟩,
    fun ⟨hp, hq, hn, hd, hne, hu⟩ => ⟨hp, hq, hn, hd, hne, hu⟩⟩

/-! ## Ways -/

namespace Simple

variable (H : g.Simple)
include H

theorem carries_iff : g.Carries up low ↔ g.HangsFrom low up := H.hangsFrom_iff.symm

/-- A way down leads from a root to every block. -/
theorem exists_way_to (hk : g.DepthOf id k) : ∃ above, (above ++ [id]).IsChain g.Carries ∧
    ∀ top ∈ (above ++ [id]).head?, g.predecessor top = .ok none := by
  induction hk with
  | @root id hr =>
    refine ⟨[], List.isChain_singleton id, fun top ht => ?_⟩
    cases Option.mem_some.mp ht
    exact hr
  | @hang id up k hh _ ih =>
    obtain ⟨above, hchain, hroot⟩ := ih
    refine ⟨above ++ [up], ?_, fun top ht => hroot top ?_⟩
    · rw [List.append_assoc]
      exact List.isChain_append_cons_cons.mpr
        ⟨hchain, H.carries_iff.mpr hh, List.isChain_singleton id⟩
    · rwa [List.head?_append_of_ne_nil _ (by simp)] at ht

/-- A way down leads to every block that stands below. -/
theorem exists_way_from (hu : g.Under low up) : ∃ below, (up :: below).IsChain g.Carries ∧
    (up :: below).getLast (List.cons_ne_nil up below) = low := by
  refine List.exists_isChain_cons_of_relationReflTransGen ?_
  exact ReflTransGen.mono (fun _ _ hh => H.carries_iff.mpr hh) _ _ (reflTransGen_swap.mpr hu)

/-- The last block of a way down from a root is as deep as the way is long. -/
theorem depth_of_chain (hchain : path.IsChain g.Carries)
    (hroot : ∀ top ∈ path.head?, g.predecessor top = .ok none) (hne : path ≠ []) :
    g.DepthOf (path.getLast hne) path.length := by
  obtain ⟨top, rest, rfl⟩ := List.exists_cons_of_ne_nil hne
  rw [List.length_cons, Nat.add_comm]
  exact H.depth_getLast hchain (.root (hroot top rfl))

end Simple

section
variable (H : g.Forest) (hp : g.snaps[n]? = some p) (hq : g.snaps[d]? = some q) (O : g.Open p q)
include H hp hq O

/-- What stands below the divot with the link stood there before. -/
theorem Open.under_of_link (hu : (g.link n d).Under low q.block) : g.Under low q.block := by
  induction hu using ReflTransGen.head_induction_on with
  | refl => exact .refl
  | head hh _ ih =>
    rcases (O.hangsFrom_link H hp hq).mp hh with hh | ⟨_, rfl⟩
    · exact .head hh ih
    · exact absurd ih O.not_under

/-- A way through a link ends below the divot. It is as long as the notch and its end are deep. -/
theorem Open.length_of_passes (hi : g.DepthOf p.block i) (hw : g.Passes n d p q path) :
    ∃ low k, g.Under low q.block ∧ g.DepthOf low k ∧ path.length = i + k := by
  have hS := O.simple_link H hp hq
  obtain ⟨above, below, hpath⟩ := hw.through
  rw [List.append_assoc] at hpath
  have hchain := hw.chain
  rw [← hpath] at hchain
  obtain ⟨_, _, hbelow⟩ := List.isChain_append_cons_cons.mp hchain
  have hne : path ≠ [] := by rw [← hpath]; simp
  have hlast : path.getLast hne = (q.block :: below).getLast (List.cons_ne_nil _ _) := by
    simp [← hpath]
  have hu : (g.link n d).Under (path.getLast hne) q.block := by
    rw [hlast]
    refine reflTransGen_swap.mp (List.relationReflTransGen_of_exists_isChain_cons below ?_ rfl)
    exact hbelow.imp fun _ _ hc => hS.carries_iff.mp hc
  have hu := O.under_of_link H hp hq hu
  have hlow := hu.mem_blocks_of_up (H.block_mem hq)
  obtain ⟨k, hk, _⟩ := H.depth hlow
  refine ⟨_, k, hu, hk, ?_⟩
  exact (hS.depth_of_chain hw.chain (fun _ => hw.root) hne).unique (O.depth_below H hp hq hi hk hu)

/-- A way through a link goes down to any block below the divot from which no other hangs. -/
theorem Open.exists_passes (hi : g.DepthOf p.block i) (hu : g.Under low q.block)
    (hk : g.DepthOf low k) (hlast : ∀ x, ¬ g.HangsFrom x low) :
    ∃ path, g.Passes n d p q path ∧ path.length = i + k := by
  have hS := O.simple_link H hp hq
  obtain ⟨above, habove, htop⟩ := hS.exists_way_to (O.depth_above H hp hq hi O.not_under)
  obtain ⟨below, hbelow, hlow⟩ := hS.exists_way_from (O.under_link H hp hq hu)
  have hhangs := (O.hangsFrom_link H hp hq).mpr (.inr ⟨rfl, rfl⟩)
  have hchain : (above ++ p.block :: q.block :: below).IsChain (g.link n d).Carries :=
    List.isChain_append_cons_cons.mpr ⟨habove, hS.carries_iff.mpr hhangs, hbelow⟩
  have hne : above ++ p.block :: q.block :: below ≠ [] := by simp
  have hend : (above ++ p.block :: q.block :: below).getLast hne = low := by
    rw [List.getLast_append_of_ne_nil _ (List.cons_ne_nil _ _), List.getLast_cons_cons, hlow]
  have hstart : ∀ top ∈ (above ++ p.block :: q.block :: below).head?,
      (g.link n d).predecessor top = .ok none := by
    intro top ht
    refine htop top ?_
    cases above <;> exact ht
  refine ⟨_, ⟨⟨hchain, fun ht => hstart _ ht, fun {last x} hl hc => ?_⟩, above, below, by simp⟩, ?_⟩
  · rw [List.getLast?_eq_some_getLast hne, hend] at hl
    cases hl
    rcases (O.hangsFrom_link H hp hq).mp (hS.carries_iff.mp hc) with hh | ⟨_, rfl⟩
    · exact hlast x hh
    · exact O.not_under hu
  · have hdepth := hS.depth_of_chain hchain hstart hne
    rw [hend] at hdepth
    exact hdepth.unique (O.depth_below H hp hq hi hk hu)

/-- One of the ways through a link goes down to the deepest block below the divot. -/
theorem Open.isGreatest_lengths (hi : g.depthAbove p.block = .ok i)
    (hj : g.depthBelow q.block = .ok j) : IsGreatest (g.lengthsThrough n d p q) (i + j) := by
  obtain ⟨i', hi', _⟩ := H.depth (H.block_mem hp)
  cases hi.symm.trans (depthAbove_eq hi')
  have hroot := DepthOf.root (H.predecessor_of_free hq O.divot O.divot_free)
  obtain ⟨j', hj', hle, low, k, hu, hk, rfl⟩ := H.depthBelow_eq hroot
  cases hj.symm.trans hj'
  have hmost {x m} (hx : g.Under x q.block) (hm : g.DepthOf x m) : m ≤ 1 + k := by
    have hpos := hm.pos
    have := hle x (m - 1) hx (by rwa [show 1 + (m - 1) = m by omega])
    omega
  constructor
  · refine O.exists_passes H hp hq hi' hu hk fun x hh => ?_
    -- what hangs from the deepest block would be deeper still
    have := hmost (.head hh hu) (.hang hh hk)
    omega
  · rintro _ ⟨path, hw, rfl⟩
    obtain ⟨x, m, hx, hm, hlen⟩ := O.length_of_passes H hp hq hi' hw
    have := hmost hx hm
    omega

end

/-! ## The check -/

/-- **The check of a link is exact.** -/
theorem Reachable.linkRejection_decides (hg : Reachable Definition.WellFormed g)
    (hp : g.snaps[n]? = some p) (hq : g.snaps[d]? = some q) :
    ∃ r, g.linkRejection n d = .ok r ∧ g.Decides n d p q r := by
  have S := hg.sound fun _ hd => hd.toCoherent
  obtain ⟨r, hr, hv⟩ := S.linkRejection_verdict hp hq
  refine ⟨r, hr, ?_⟩
  cases hv with
  | notANotch hpk => constructor <;> simp [hpk]
  | notADivot hpk hqk => constructor <;> simp [hpk, hqk]
  | alreadyLinked hpk hqk hno =>
    constructor <;> simp [hpk, hqk] <;> grind
  | sameBlock hpk hqk hpn hqp he => constructor <;> simp [hpk, hqk, hpn, hqp, he]
  | wouldCycle hpk hqk hpn hqp hne hu => constructor <;> simp [hpk, hqk, hpn, hqp, hne, hu]
  | tooDeep O hi hj hdeep =>
    have hgreatest := O.isGreatest_lengths S.toForest hp hq hi hj
    obtain ⟨hpk, hqk, hpn, hqp, hne, hu⟩ := open_iff.mp O
    constructor
    case none_iff =>
      refine iff_of_false nofun fun ⟨_, hshort⟩ => ?_
      obtain ⟨path, hw, hlen⟩ := hgreatest.1
      exact Nat.not_le_of_lt hdeep (hlen ▸ hshort path hw)
    case tooDeep_iff =>
      intro depth limit
      constructor
      · rintro ⟨⟩
        exact ⟨open_iff.mp O, hgreatest, rfl, hdeep⟩
      · rintro ⟨_, hdepth, rfl, _⟩
        rw [hgreatest.unique hdepth]
    all_goals simp [hpk, hqk, hpn, hqp, hne, hu]
  | none O hi hj hshort =>
    have hgreatest := O.isGreatest_lengths S.toForest hp hq hi hj
    obtain ⟨hpk, hqk, hpn, hqp, hne, hu⟩ := open_iff.mp O
    constructor
    case none_iff =>
      refine iff_of_true rfl ⟨open_iff.mp O, fun path hw => ?_⟩
      exact (hgreatest.2 ⟨path, hw, rfl⟩).trans hshort
    case tooDeep_iff =>
      refine fun {depth limit} => iff_of_false nofun fun ⟨_, hdepth, hlimit, hdeep⟩ => ?_
      rw [← hgreatest.unique hdepth, hlimit] at hdeep
      exact Nat.not_le_of_lt hdeep hshort
    all_goals simp [hpk, hqk, hpn, hqp, hne, hu]

end Graph

/-! ## Two stacks that are too high together -/

namespace Document

open SnapBlocks.Graph

/-- Two stacks of two statements. -/
def stacked : Document where
  blocks := Table.ofPairs <| ["a", "b", "c", "d"].map fun id =>
    (id, { id, name := "Log", position := .origin, offset := none, segments := []
           definition := Catalog.logVariable, primaryNotchId := none, primaryDivotId := none })
  notches := Table.ofPairs <| [("a", "b"), ("c", "d")].map fun (up, low) =>
    ("notch-0-" ++ up, {
      notchBlockId := up, divotBlockId := low, notchId := "notch-0-" ++ up
      divotId := "divot-0-" ++ low, notchSegmentId := "logVariable.logVariable"
      divotSegmentId := "logVariable.logVariable", isPrimary := true })

theorem stacked_wellFormed (p : BlockId × SavedBlock) (hp : p ∈ stacked.blocks.toList) :
    p.2.definition.WellFormed := by
  have hmem : ∀ p ∈ stacked.blocks.toList, p.2.definition ∈ Catalog.standardBlocks := by decide
  exact Catalog.wellFormed_of_mem _ (hmem p hp)

/-- The graph of that document, with stacks of at most three blocks. -/
def stackedGraph : Graph := (stacked.load.run ⟨.empty ∅ { maxChainHops := 3 }, []⟩).2.graph

theorem toGraph_stacked : stacked.toGraph ∅ { maxChainHops := 3 } = (.ok stackedGraph, []) := by
  have hload : (stacked.load.run ⟨.empty ∅ { maxChainHops := 3 }, []⟩).1 = .ok () ∧
      (stacked.load.run ⟨.empty ∅ { maxChainHops := 3 }, []⟩).2.skipped = [] := by decide +kernel
  rw [toGraph_eq, hload.1, hload.2]
  rfl

theorem reachable_stackedGraph : Reachable Definition.WellFormed stackedGraph :=
  .loaded stacked ∅ { maxChainHops := 3 } [] stacked_wellFormed toGraph_stacked (.refl _)

/-- The longest way through that link takes in all four blocks. -/
theorem linkRejection_decides_stackedGraph : ∃ p q r,
    stackedGraph.snaps["notch-0-b"]? = some p ∧ stackedGraph.snaps["divot-0-c"]? = some q ∧
      stackedGraph.linkRejection "notch-0-b" "divot-0-c" = .ok r ∧ r = some (.tooDeep 4 3) ∧
      IsGreatest (stackedGraph.lengthsThrough "notch-0-b" "divot-0-c" p q) 4 := by
  have hfound : stackedGraph.snaps["notch-0-b"]?.isSome ∧ stackedGraph.snaps["divot-0-c"]?.isSome ∧
      stackedGraph.linkRejection "notch-0-b" "divot-0-c" = .ok (some (.tooDeep 4 3)) := by
    decide +kernel
  obtain ⟨p, hp⟩ := Option.isSome_iff_exists.mp hfound.1
  obtain ⟨q, hq⟩ := Option.isSome_iff_exists.mp hfound.2.1
  obtain ⟨r, hr, hdecides⟩ := Reachable.linkRejection_decides reachable_stackedGraph hp hq
  cases hr.symm.trans hfound.2.2
  exact ⟨p, q, _, hp, hq, hr, rfl, (hdecides.tooDeep_iff.mp rfl).2.1⟩

end Document

end SnapBlocks
