import SnapBlocks.Proofs.Hidden
import SnapBlocks.Proofs.Join

/-! Chains, and the cache of their last blocks. A refresh from a block on makes the cache right
there and at each block above, and spoils it nowhere. -/

namespace SnapBlocks

/-- A block without its cached tail. -/
def Block.tailless (b : Block) : Block := { b with deepest := "" }

theorem Block.eq_of_tailless {b c : Block} (h : b.tailless = c.tailless) :
    b.id = c.id ∧ b.definition = c.definition ∧ b.extra = c.extra ∧ b.height = c.height := by
  simp_all [tailless]

namespace Graph

open Relation

/-- The chain of statements from a block on, that block included. -/
inductive ChainOf (g : Graph) : BlockId → List BlockId → Prop
  | last {id} : g.primaryNext id = .ok none → ChainOf g id [id]
  | next {id low l} : g.primaryNext id = .ok (some low) → ChainOf g low l → ChainOf g id (id :: l)

/-- The cached tail of a block is the last block of its chain. -/
def Tailed (g : Graph) (id : BlockId) : Prop :=
  ∃ b, g.blocks[id]? = some b ∧ g.chainTail id = .ok b.deepest

/-- All of a graph but the cached tails. -/
def tailless (g : Graph) : Graph := g.view Block.tailless fun p => p

variable {g h : Graph} {b : Block} {id low up start : BlockId} {l l' : List BlockId}
variable {j k room : Nat}

/-! ## Chains -/

theorem ChainOf.unique (hl : g.ChainOf id l) (hl' : g.ChainOf id l') : l = l' := by
  induction hl generalizing l' with
  | last hn =>
    cases hl' with
    | last => rfl
    | next hn' _ => have := hn.symm.trans hn'; simp at this
  | next hn _ ih =>
    cases hl' with
    | last hn' => have := hn.symm.trans hn'; simp at this
    | next hn' hl' =>
      have := hn.symm.trans hn'
      simp only [Except.ok.injEq, Option.some.injEq] at this
      subst this
      rw [ih hl']

/-- A chain is the same in a graph in which its blocks are followed by the same blocks. -/
theorem ChainOf.congr (hl : g.ChainOf id l)
    (hnext : ∀ x ∈ l, h.primaryNext x = g.primaryNext x) : h.ChainOf id l := by
  induction hl with
  | last hn => exact .last ((hnext _ List.mem_cons_self).trans hn)
  | next hn _ ih =>
    exact .next ((hnext _ List.mem_cons_self).trans hn) (ih fun x hx => hnext x (.tail _ hx))

theorem ChainOf.head_mem (hl : g.ChainOf id l) : id ∈ l := by
  cases hl <;> exact List.mem_cons_self

/-- The blocks of a chain stand below its first block. -/
theorem ChainOf.under (H : g.Simple) (hl : g.ChainOf id l) : ∀ x ∈ l, g.Under x id := by
  induction hl with
  | last => intro x hx; cases List.mem_singleton.mp hx; exact .refl
  | next hn _ ih =>
    intro x hx
    rcases List.mem_cons.mp hx with rfl | hx
    · exact .refl
    · exact (ih x hx).tail (H.hangsFrom_of_primaryNext hn)

theorem ChainOf.mem_blocks (hl : g.ChainOf id l) : ∀ x ∈ l, x ∈ g.blocks := by
  have hmem : ∀ {id r}, g.primaryNext id = .ok r → id ∈ g.blocks := by
    intro id r hr
    unfold primaryNext block at hr
    cases hb : g.blocks[id]? with
    | none => simp [hb, bind, Except.bind] at hr
    | some b => exact Table.mem_iff.mpr ⟨b, hb⟩
  induction hl with
  | last hn => intro x hx; cases List.mem_singleton.mp hx; exact hmem hn
  | next hn _ ih =>
    intro x hx
    rcases List.mem_cons.mp hx with rfl | hx
    · exact hmem hn
    · exact ih x hx

/-- The depth of a block bounds the length of its chain. -/
theorem ChainOf.length_le (H : g.Forest) (hl : g.ChainOf id l) (hk : g.DepthOf id k) :
    k + l.length ≤ max 1 g.config.maxChainHops + 1 := by
  induction hl generalizing k with
  | last =>
    have := H.depth_le hk
    simp only [List.length_singleton]
    omega
  | next hn _ ih =>
    have := ih (.hang (H.hangsFrom_of_primaryNext hn) hk)
    simp only [List.length_cons]
    omega

/-- Each next block is deeper, and the depth is bounded. -/
private theorem Forest.exists_chain_within (H : g.Forest) (room : Nat) (hk : g.DepthOf id k)
    (hroom : max 1 g.config.maxChainHops ≤ k + room) : ∃ l, g.ChainOf id l := by
  induction room generalizing id k with
  | zero =>
    obtain ⟨_ | low, hr⟩ := H.primaryNext_total hk.mem_blocks
    · exact ⟨[id], .last hr⟩
    · have := H.depth_le (.hang (H.hangsFrom_of_primaryNext hr) hk)
      omega
  | succ room ih =>
    obtain ⟨_ | low, hr⟩ := H.primaryNext_total hk.mem_blocks
    · exact ⟨[id], .last hr⟩
    · obtain ⟨l, hl⟩ := ih (.hang (H.hangsFrom_of_primaryNext hr) hk) (by omega)
      exact ⟨id :: l, .next hr hl⟩

theorem Forest.exists_chain (H : g.Forest) (hid : id ∈ g.blocks) : ∃ l, g.ChainOf id l := by
  obtain ⟨k, hk, _⟩ := H.depth hid
  exact H.exists_chain_within _ hk (Nat.le_add_left ..)

theorem chainAfter_eq (hl : g.ChainOf id l) (hr : l.length ≤ room + 1) :
    g.chainAfter start room id = .ok l.tail := by
  induction hl generalizing room with
  | last hn =>
    unfold chainAfter
    rw [hn]
    rfl
  | @next id low l hn hl ih =>
    obtain ⟨room, rfl⟩ : ∃ r, room = r + 1 := by
      cases hl <;> simp only [List.length_cons] at hr <;> exact ⟨room - 1, by omega⟩
    have hc : g.chainAfter start room low = .ok l.tail := ih (by simpa using hr)
    unfold chainAfter
    simp only [hn, hc, bind, Except.bind]
    cases hl <;> rfl

/-- A chain within the limit is walked to its end. -/
theorem primaryChain_eq_of_short (hl : g.ChainOf id l)
    (hshort : l.length ≤ max 1 g.config.maxChainHops) : g.primaryChain id = .ok l := by
  unfold primaryChain
  rw [chainAfter_eq hl (by omega)]
  cases hl <;> rfl

theorem Forest.primaryChain_eq (H : g.Forest) (hl : g.ChainOf id l) :
    g.primaryChain id = .ok l := by
  obtain ⟨k, hk, _⟩ := H.depth (hl.mem_blocks id hl.head_mem)
  have hlen := hl.length_le H hk
  have hpos := hk.pos
  exact primaryChain_eq_of_short hl (by omega)

theorem Forest.chainTail_eq (H : g.Forest) (hl : g.ChainOf id l) :
    g.chainTail id = .ok (l.getLastD id) := by
  unfold chainTail
  rw [H.primaryChain_eq hl]
  rfl

theorem Forest.exists_tail (H : g.Forest) (hid : id ∈ g.blocks) :
    ∃ tail, g.chainTail id = .ok tail := by
  obtain ⟨l, hl⟩ := H.exists_chain hid
  exact ⟨_, H.chainTail_eq hl⟩

theorem ChainOf.getLast?_eq (hl : g.ChainOf id l) : l.getLast? = some (l.getLastD id) := by
  cases hl <;> simp [List.getLast?_cons, List.getLastD_eq_getLast?]

/-- A cached tail that is right ends the chain. -/
theorem Forest.chain_of_tailed (H : g.Forest) (hb : g.blocks[id]? = some b) (ht : g.Tailed id) :
    ∃ l, g.ChainOf id l ∧ l.getLast? = some b.deepest := by
  obtain ⟨b', hb', htail⟩ := ht
  cases hb.symm.trans hb'
  obtain ⟨l, hl⟩ := H.exists_chain (Table.mem_iff.mpr ⟨b, hb⟩)
  refine ⟨l, hl, hl.getLast?_eq.trans (congrArg some ?_)⟩
  exact Except.ok.inj ((H.chainTail_eq hl).symm.trans htail)

/-! ## Refreshing tails -/

theorem shape_of_tailless (heq : g.tailless = h.tailless) : g.shape = h.shape := by
  have hview (k : Graph) : k.shape = k.tailless.view Block.bare SnapPoint.unplaced :=
    ext rfl rfl rfl (fun i => by simp [shape, tailless]; rfl)
      (fun i => by simp [shape, tailless]) rfl rfl rfl
  rw [hview, hview, heq]

@[simp] theorem tailless_setDeepest : (g.setDeepest id tail).tailless = g.tailless :=
  view_modifyBlock (by intro _; rfl) g id

theorem tailless_hides : HidesTails tailless where
  tail _ _ _ := tailless_setDeepest

theorem wires_setDeepest : (g.setDeepest id tail).wires = g.wires :=
  wires_of_shape shape_setDeepest

/-- Caching the right tail of a block spoils no other cache. -/
theorem Tailed.setDeepest (ht : g.chainTail id = .ok tail)
    (hx : g.Tailed x ∨ (x = id ∧ x ∈ g.blocks)) : (g.setDeepest id tail).Tailed x := by
  unfold Tailed
  rw [getElem?_blocks_setDeepest, chainTail_congr wires_setDeepest]
  by_cases he : id = x
  · subst he
    have hid : id ∈ g.blocks := by
      rcases hx with ⟨b, hb, _⟩ | ⟨_, hid⟩
      · exact Table.mem_iff.mpr ⟨b, hb⟩
      · exact hid
    obtain ⟨b, hb⟩ := Table.mem_iff.mp hid
    exact ⟨_, by rw [if_pos rfl, hb]; rfl, ht⟩
  · rw [if_neg he]
    rcases hx with hx | ⟨rfl, _⟩
    · exact hx
    · exact absurd rfl he

/-- A refresh caches the tail of one block, and goes on above. -/
theorem refreshDeepest_run_succ (start : BlockId) (room : Nat) (ht : g.chainTail id = .ok tail)
    {next : Option BlockId} (hp : g.predecessor id = .ok next) :
    (refreshDeepest start (room + 1) (some id)).run g =
      (refreshDeepest start room next).run (g.setDeepest id tail) := by
  have hp' : (g.setDeepest id tail).predecessor id = .ok next :=
    (predecessor_congr wires_setDeepest id).trans hp
  rw [refreshDeepest]
  simp only [Edit.run_bind, Edit.run_ask, Edit.run_change, ht, hp']

theorem refreshDeepest_run (start : BlockId) (H : g.Forest) (hk : g.DepthOf id k) (hr : k ≤ room) :
    ∃ h, (refreshDeepest start room (some id)).run g = (.ok (), h) ∧
      ∀ x, g.Tailed x ∨ g.Under id x → h.Tailed x := by
  induction k generalizing g id room with
  | zero => exact absurd hk.pos (by omega)
  | succ k ih =>
    obtain ⟨room, rfl⟩ : ∃ r, room = r + 1 := ⟨room - 1, by omega⟩
    have hid := hk.mem_blocks
    obtain ⟨tail, ht⟩ := H.exists_tail hid
    have heq : g.wires = (g.setDeepest id tail).wires := wires_setDeepest.symm
    have hself : (g.setDeepest id tail).Tailed id := .setDeepest ht (.inr ⟨rfl, hid⟩)
    cases hk with
    | root hp =>
      rw [refreshDeepest_run_succ start room ht hp]
      refine ⟨g.setDeepest id tail, by cases room <;> rfl, fun x hx => ?_⟩
      rcases hx with hx | hu
      · exact .setDeepest ht (.inl hx)
      · exact (under_iff_of_root hp).mp hu ▸ hself
    | @hang _ up _ hh hk =>
      have hroom : k ≤ room := by omega
      obtain ⟨h, hrun, hall⟩ := ih (H.of_wires heq) (hk.congr heq) hroom
      rw [refreshDeepest_run_succ start room ht hh.predecessor_eq]
      refine ⟨h, hrun, fun x hx => ?_⟩
      rcases hx with hx | hu
      · exact hall x (.inl (.setDeepest ht (.inl hx)))
      · rcases hh.under_iff.mp hu with rfl | hu
        · exact hall id (.inl hself)
        · exact hall x (.inr ((under_congr heq).mp hu))

theorem calculateDeepest_run_eq (ht : g.chainTail id = .ok tail) :
    (calculateDeepest id).run g =
      match (refreshDeepest id (g.config.maxChainHops + 1) (some id)).run g with
      | (.ok (), h) => (.ok tail, h)
      | (.error x, h) => (.error x, h) := by
  have hconfig : (g.setDeepest id tail).config = g.config := rfl
  unfold calculateDeepest
  rw [refreshDeepest]
  simp only [Edit.run_bind, Edit.run_ask, Edit.run_change, Edit.run_get, Edit.run_pure, ht, hconfig]
  cases (g.setDeepest id tail).predecessor id with
  | error => rfl
  | ok up =>
    dsimp only
    rcases (refreshDeepest id g.config.maxChainHops up).run (g.setDeepest id tail) with
      ⟨_ | _, _⟩ <;> rfl

/-- A refresh from a block on succeeds, and makes the tails right there and above. -/
theorem calculateDeepest_run (H : g.Forest) (hid : id ∈ g.blocks) :
    ∃ tail h, (calculateDeepest id).run g = (.ok tail, h) ∧
      ∀ x, g.Tailed x ∨ g.Under id x → h.Tailed x := by
  obtain ⟨k, hk, hle⟩ := H.depth hid
  obtain ⟨tail, ht⟩ := H.exists_tail hid
  have hroom : k ≤ g.config.maxChainHops + 1 := by omega
  obtain ⟨h, hrun, hall⟩ := refreshDeepest_run id H hk hroom
  exact ⟨tail, h, by rw [calculateDeepest_run_eq ht, hrun], hall⟩

end Graph

end SnapBlocks
