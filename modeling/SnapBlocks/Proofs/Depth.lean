import SnapBlocks.Proofs.Change
import Mathlib.Logic.Relation

/-! Forests. In a graph whose blocks have one divot at most, each block hangs from one notch at
most; if moreover every walk up ends after a bounded number of blocks, then the graph is a forest
(`Graph.Forest`). The walks of the editor, with their different bounds, then all end in time, and
give the ancestors, the depth of a block and the depth of what hangs below it. -/

namespace SnapBlocks.Graph

open Relation

/-- A block hangs from a notch of another. -/
def HangsFrom (g : Graph) (low up : BlockId) : Prop := g.predecessor low = .ok (some up)

/-- A walk up from `low` meets `up`. -/
def Under (g : Graph) (low up : BlockId) : Prop := ReflTransGen g.HangsFrom low up

/-- A walk up from a block visits so many blocks, and ends at one that hangs from no notch. -/
inductive DepthOf (g : Graph) : BlockId → Nat → Prop
  | root {id} : g.predecessor id = .ok none → DepthOf g id 1
  | hang {id up k} : g.HangsFrom id up → DepthOf g up k → DepthOf g id (k + 1)

/-- Every block hangs from one notch at most. -/
structure Simple (g : Graph) : Prop extends g.Wired where
  coherent {id : BlockId} {b : Block} : g.blocks[id]? = some b → b.definition.Coherent

/-- **The forest invariant.** Every walk up ends after a bounded number of blocks. -/
structure Forest (g : Graph) : Prop extends g.Simple where
  depth {id : BlockId} : id ∈ g.blocks → ∃ k, g.DepthOf id k ∧ k ≤ max 1 g.config.maxChainHops

variable {g h : Graph} {b : Block} {id low up top start target : BlockId} {n d : SnapId}
variable {p q : SnapPoint}

/-! ## Hanging -/

theorem owner_congr_stock (heq : g.stock = h.stock) (i : SnapId) : g.owner i = h.owner i := by
  have hi := snaps_eq_of_view heq i
  unfold owner snap
  revert hi
  cases g.snaps[i]? with
  | none => cases h.snaps[i]? <;> simp
  | some p =>
    cases h.snaps[i]? with
    | none => simp
    | some q =>
      intro hpq
      have hb := (SnapPoint.eq_of_blank (Option.some.inj hpq)).2.1
      simp [bind, Except.bind, pure, Except.pure, hb]

theorem HangsFrom.mem_blocks (hh : g.HangsFrom low up) : low ∈ g.blocks := by
  obtain ⟨b, _, _, _, _, hb, _⟩ := predecessor_eq_some.mp hh
  exact Table.mem_iff.mpr ⟨b, hb⟩

theorem HangsFrom.eq (h₁ : g.HangsFrom low up) (h₂ : g.HangsFrom low top) : up = top := by
  unfold HangsFrom at h₁ h₂
  simpa using h₁.symm.trans h₂

theorem HangsFrom.predecessor_eq (hh : g.HangsFrom low up) :
    g.predecessor low = .ok (some up) := hh

/-- A block that hangs from a notch is no root. -/
theorem HangsFrom.predecessor_ne (hh : g.HangsFrom low up) : g.predecessor low ≠ .ok none := by
  unfold HangsFrom at hh
  simp [hh]

/-- Only a root itself stands above a root. -/
theorem under_iff_of_root (hr : g.predecessor low = .ok none) : g.Under low up ↔ low = up := by
  constructor
  · intro hu
    rcases ReflTransGen.cases_head hu with he | ⟨_, hh, _⟩
    · exact he
    · exact absurd hr hh.predecessor_ne
  · rintro rfl
    exact .refl

/-- A walk up goes on through the block that the first one hangs from. -/
theorem HangsFrom.under_iff (hh : g.HangsFrom low top) :
    g.Under low up ↔ low = up ∨ g.Under top up := by
  constructor
  · intro hu
    rcases ReflTransGen.cases_head hu with he | ⟨_, hh', hu⟩
    · exact .inl he
    · exact .inr (hh.eq hh' ▸ hu)
  · rintro (rfl | hu)
    · exact .refl
    · exact .head hh hu

theorem hangsFrom_congr (heq : g.wires = h.wires) : g.HangsFrom low up ↔ h.HangsFrom low up := by
  unfold HangsFrom
  rw [predecessor_congr heq]

theorem Under.mono (hsub : ∀ {low up}, g.HangsFrom low up → h.HangsFrom low up)
    (hu : g.Under low up) : h.Under low up := by
  induction hu with
  | refl => exact .refl
  | tail _ hh ih => exact ih.tail (hsub hh)

theorem under_congr (heq : g.wires = h.wires) : g.Under low up ↔ h.Under low up := by
  have hrel : g.HangsFrom = h.HangsFrom := by
    funext a c
    exact propext (hangsFrom_congr heq)
  rw [Under, Under, hrel]

theorem DepthOf.congr (heq : g.wires = h.wires) (hd : g.DepthOf id k) : h.DepthOf id k := by
  induction hd with
  | root hr => exact .root (predecessor_congr heq _ ▸ hr)
  | hang hh _ ih => exact .hang ((hangsFrom_congr heq).mp hh) ih

namespace Simple

theorem of_stock (H : g.Simple) (W : h.Wired) (heq : g.stock = h.stock) : h.Simple where
  toWired := W
  coherent {id b} hb := by
    obtain ⟨c, hc, hbc⟩ := exists_block_of_view heq.symm hb
    exact (Block.eq_of_stem hbc).2 ▸ H.coherent hc

theorem of_wires (H : g.Simple) (heq : g.wires = h.wires) : h.Simple :=
  H.of_stock (H.toWired.of_wires heq) (stock_of_wires heq)

theorem primaryDivot (H : g.Simple) (hq : g.snaps[d]? = some q) (hk : q.kind = .primaryDivot)
    (hb : g.blocks[q.block]? = some b) : b.primaryDivot = some d :=
  H.primaryDivot_of_snap hq hk hb (H.coherent hb)

/-- To hang from a block is to be linked to one of its notches. -/
theorem hangsFrom_iff (H : g.Simple) :
    g.HangsFrom low up ↔ ∃ n d, g.Linked n d ∧ g.owner n = .ok up ∧ g.owner d = .ok low := by
  constructor
  · intro hh
    obtain ⟨b, d, q, n, p, hb, hd, hq, hn, hp, hup⟩ := predecessor_eq_some.mp hh
    refine ⟨n, d, (H.linked_iff_previous hq).mpr hn, owner_eq_ok.mpr ⟨p, hp, hup⟩, ?_⟩
    obtain ⟨q', hq', hlow, _⟩ := H.snap_of_primaryDivot hb hd
    exact owner_eq_ok.mpr ⟨q', hq', hlow⟩
  · rintro ⟨n, d, hl, hn, hd⟩
    obtain ⟨p, q, hp, hq, _, hprev, _, hkind, _⟩ := H.ends hl
    obtain ⟨b, hb⟩ := H.exists_block hq
    obtain ⟨_, hp', hup⟩ := owner_eq_ok.mp hn
    obtain ⟨_, hq', hlow⟩ := owner_eq_ok.mp hd
    cases hp.symm.trans hp'
    cases hq.symm.trans hq'
    subst hup hlow
    exact predecessor_eq_some.mpr
      ⟨b, d, q, n, p, hb, H.primaryDivot hq hkind hb, hq, hprev, hp, rfl⟩

/-- With fewer links less hangs. -/
theorem hangsFrom_mono (H : g.Simple) (H' : h.Simple) (howner : ∀ i, h.owner i = g.owner i)
    (hl : ∀ n d, h.Linked n d → g.Linked n d) (hh : h.HangsFrom low up) : g.HangsFrom low up := by
  obtain ⟨n, d, hnd, hn, hd⟩ := H'.hangsFrom_iff.mp hh
  rw [howner] at hn hd
  exact H.hangsFrom_iff.mpr ⟨n, d, hl n d hnd, hn, hd⟩

theorem hangsFrom_mem (H : g.Simple) (hh : g.HangsFrom low up) : up ∈ g.blocks := by
  obtain ⟨n, d, _, hn, _⟩ := H.hangsFrom_iff.mp hh
  obtain ⟨p, hp, rfl⟩ := owner_eq_ok.mp hn
  exact H.block_mem hp

theorem hangsFrom_ne (H : g.Simple) (hh : g.HangsFrom low up) : low ≠ up := by
  obtain ⟨n, d, hl, hn, hd⟩ := H.hangsFrom_iff.mp hh
  exact (H.owner_ne hl hn hd).symm

/-- The block above is known of every block. -/
theorem predecessor_total (H : g.Simple) (hid : id ∈ g.blocks) :
    g.predecessor id = .ok none ∨ ∃ up, g.HangsFrom id up := by
  obtain ⟨b, hb⟩ := Table.mem_iff.mp hid
  cases hd : b.primaryDivot with
  | none => exact .inl (predecessor_eq_none.mpr ⟨b, hb, fun d h => by rw [hd] at h; cases h⟩)
  | some d =>
    obtain ⟨q, hq, _, _⟩ := H.snap_of_primaryDivot hb hd
    cases hn : q.previous with
    | none =>
      refine .inl (predecessor_eq_none.mpr ⟨b, hb, fun d' h => ?_⟩)
      cases hd.symm.trans h
      exact ⟨q, hq, hn⟩
    | some n =>
      obtain ⟨p, hp, _⟩ := (H.linked_iff_previous hq).mpr hn
      exact .inr ⟨p.block, predecessor_eq_some.mpr ⟨b, d, q, n, p, hb, hd, hq, hn, hp, rfl⟩⟩

theorem predecessor_eq_none_iff (H : g.Simple) :
    g.predecessor id = .ok none ↔ id ∈ g.blocks ∧ ∀ up, ¬ g.HangsFrom id up := by
  constructor
  · intro hr
    obtain ⟨b, hb, _⟩ := predecessor_eq_none.mp hr
    refine ⟨Table.mem_iff.mpr ⟨b, hb⟩, fun up hh => ?_⟩
    exact hh.predecessor_ne hr
  · rintro ⟨hid, hno⟩
    rcases H.predecessor_total hid with hr | ⟨up, hh⟩
    · exact hr
    · exact absurd hh (hno up)

/-- The next block of a chain hangs from the one before. -/
theorem hangsFrom_of_primaryNext (H : g.Simple) (hn : g.primaryNext up = .ok (some low)) :
    g.HangsFrom low up := by
  obtain ⟨b, n, p, d, q, hb, hn, hp, hd, hq, hlow⟩ := primaryNext_eq_some.mp hn
  refine H.hangsFrom_iff.mpr ⟨n, d, ⟨p, hp, hd⟩, ?_, owner_eq_ok.mpr ⟨q, hq, hlow⟩⟩
  obtain ⟨p', hp', hup, _⟩ := H.snap_of_primaryNotch hb hn
  exact owner_eq_ok.mpr ⟨p', hp', hup⟩

/-- The next block of a chain is known of every block. -/
theorem primaryNext_total (H : g.Simple) (hid : id ∈ g.blocks) :
    ∃ r, g.primaryNext id = .ok r := by
  obtain ⟨b, hb⟩ := Table.mem_iff.mp hid
  cases hn : b.primaryNotch with
  | none =>
    exact ⟨none, primaryNext_eq_none.mpr ⟨b, hb, fun n h => by rw [hn] at h; cases h⟩⟩
  | some n =>
    obtain ⟨p, hp, _, _⟩ := H.snap_of_primaryNotch hb hn
    cases hd : p.next with
    | none =>
      refine ⟨none, primaryNext_eq_none.mpr ⟨b, hb, fun n' h => ?_⟩⟩
      cases hn.symm.trans h
      exact ⟨p, hp, hd⟩
    | some d =>
      obtain ⟨q, hq, _⟩ := H.linked_iff.mp ⟨p, hp, hd⟩
      exact ⟨some q.block, primaryNext_eq_some.mpr ⟨b, n, p, d, q, hb, hn, hp, hd, hq, rfl⟩⟩

end Simple

/-! ## Depth -/

theorem DepthOf.unique (hj : g.DepthOf id j) (hk : g.DepthOf id k) : j = k := by
  induction hj generalizing k with
  | root hr =>
    cases hk with
    | root => rfl
    | hang hh _ => exact absurd hr hh.predecessor_ne
  | hang hh _ ih =>
    cases hk with
    | root hr => exact absurd hr hh.predecessor_ne
    | hang hh' hk =>
      cases hh.eq hh'
      rw [ih hk]

theorem DepthOf.pos (hk : g.DepthOf id k) : 0 < k := by
  cases hk <;> omega

theorem DepthOf.mem_blocks (hk : g.DepthOf id k) : id ∈ g.blocks := by
  cases hk with
  | root hr =>
    obtain ⟨b, hb, _⟩ := predecessor_eq_none.mp hr
    exact Table.mem_iff.mpr ⟨b, hb⟩
  | hang hh _ => exact hh.mem_blocks

/-- The depth falls on the way up. -/
theorem DepthOf.under (hk : g.DepthOf low k) (hu : g.Under low up) :
    ∃ j, g.DepthOf up j ∧ j ≤ k ∧ (j = k → up = low) := by
  induction hu with
  | refl => exact ⟨k, hk, Nat.le_refl k, fun _ => rfl⟩
  | tail _ hh ih =>
    obtain ⟨j, hj, hle, _⟩ := ih
    cases hj with
    | root hr => exact absurd hr hh.predecessor_ne
    | hang hh' hj' =>
      cases hh.eq hh'
      exact ⟨_, hj', by omega, fun he => by omega⟩

theorem DepthOf.not_under (hk : g.DepthOf low k) (hh : g.HangsFrom low up) :
    ¬ g.Under up low := by
  intro hu
  cases hk with
  | root hr => exact absurd hr hh.predecessor_ne
  | hang hh' hk' =>
    cases hh.eq hh'
    obtain ⟨j, hj, hle, _⟩ := hk'.under hu
    have := hj.unique (.hang hh hk')
    omega

theorem Under.mem_blocks_of_up (hu : g.Under low up) (hup : up ∈ g.blocks) : low ∈ g.blocks := by
  rcases ReflTransGen.cases_head hu with rfl | ⟨_, hh, _⟩
  · exact hup
  · exact hh.mem_blocks

/-- The walk up from a block visits distinct blocks. -/
theorem DepthOf.exists_walk (hk : g.DepthOf id k) :
    ∃ walk : List BlockId, walk.length = k ∧ walk.Nodup ∧
      ∀ x ∈ walk, x ∈ g.blocks ∧ ∃ j, g.DepthOf x j ∧ j ≤ k := by
  induction hk with
  | @root id hr =>
    refine ⟨[id], rfl, List.nodup_singleton id, fun x hx => ?_⟩
    cases List.mem_singleton.mp hx
    exact ⟨(DepthOf.root hr).mem_blocks, 1, .root hr, Nat.le_refl 1⟩
  | @hang id up k hh hk ih =>
    obtain ⟨walk, hlen, hnodup, hwalk⟩ := ih
    refine ⟨id :: walk, by simp [hlen], List.nodup_cons.mpr ⟨fun hm => ?_, hnodup⟩, fun x hx => ?_⟩
    · obtain ⟨_, j, hj, hle⟩ := hwalk id hm
      have := hj.unique (.hang hh hk)
      omega
    · rcases List.mem_cons.mp hx with rfl | hx
      · exact ⟨hh.mem_blocks, k + 1, .hang hh hk, Nat.le_refl _⟩
      · obtain ⟨hm, j, hj, hle⟩ := hwalk x hx
        exact ⟨hm, j, hj, by omega⟩

theorem DepthOf.le_size (hk : g.DepthOf id k) : k ≤ g.size := by
  obtain ⟨walk, rfl, hnodup, hwalk⟩ := hk.exists_walk
  exact Table.length_le_size hnodup fun x hx => (hwalk x hx).1

namespace Forest

theorem of_wires (H : g.Forest) (heq : g.wires = h.wires) : h.Forest where
  toSimple := H.toSimple.of_wires heq
  depth {id} hid := by
    obtain ⟨k, hk, hle⟩ := H.depth ((mem_blocks_of_view heq).mpr hid)
    exact ⟨k, hk.congr heq, config_eq_of_view heq ▸ hle⟩

theorem depth_le (H : g.Forest) (hk : g.DepthOf id k) : k ≤ max 1 g.config.maxChainHops := by
  obtain ⟨j, hj, hle⟩ := H.depth hk.mem_blocks
  rw [hk.unique hj]
  exact hle

theorem not_under_of_hangsFrom (H : g.Forest) (hh : g.HangsFrom low up) : ¬ g.Under up low :=
  let ⟨_, hk, _⟩ := H.depth hh.mem_blocks
  hk.not_under hh

end Forest

end SnapBlocks.Graph
