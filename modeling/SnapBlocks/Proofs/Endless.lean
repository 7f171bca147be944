import SnapBlocks.Proofs.Linkage
import Mathlib.Data.Fintype.Card
import Mathlib.Data.Set.Finite.Basic

/-! Chains that have no end. Links that were made past all checks may lead back up a chain, or make
it longer than the limit. As long as they lead to blocks that exist, a walk down a chain still ends:
it gives the whole chain if there is one within the limit. Otherwise it fails, and then the chain is
too long, or runs into a loop. -/

namespace SnapBlocks.Graph

open Relation

/-- A block is followed by another in its chain. -/
def Continues (g : Graph) (id low : BlockId) : Prop := g.primaryNext id = .ok (some low)

/-- The links of chains lead to snap points and blocks that exist, wherever they lead. -/
structure Threaded (g : Graph) : Prop where
  exists_notch {id : BlockId} {b : Block} {n : SnapId} : g.blocks[id]? = some b →
    b.primaryNotch = some n → ∃ p, g.snaps[n]? = some p
  exists_next {id : BlockId} {b : Block} {n d : SnapId} {p : SnapPoint} : g.blocks[id]? = some b →
    b.primaryNotch = some n → g.snaps[n]? = some p → p.next = some d →
    ∃ q, g.snaps[d]? = some q ∧ q.block ∈ g.blocks

variable {g : Graph} {id low x start : BlockId} {l : List BlockId} {room : Nat}

theorem Wired.threaded (H : g.Wired) : g.Threaded where
  exists_notch hb hn := (H.snap_of_primaryNotch hb hn).imp fun _ h => h.1
  exists_next hb hn hp hd := by
    obtain ⟨_, q, _, hq, _⟩ := H.ends ⟨_, hp, hd⟩
    exact ⟨q, hq, H.block_mem hq⟩

/-- A block is the last of its chain, or is followed by one that exists. -/
theorem Threaded.next_cases (T : g.Threaded) (hid : id ∈ g.blocks) :
    g.primaryNext id = .ok none ∨ ∃ low ∈ g.blocks, g.Continues id low := by
  obtain ⟨b, hb⟩ := Table.mem_iff.mp hid
  cases hn : b.primaryNotch with
  | none => exact .inl (primaryNext_eq_none.mpr ⟨b, hb, by simp [hn]⟩)
  | some n =>
    obtain ⟨p, hp⟩ := T.exists_notch hb hn
    cases hd : p.next with
    | none => exact .inl (primaryNext_eq_none.mpr ⟨b, hb, by simpa [hn] using ⟨p, hp, hd⟩⟩)
    | some d =>
      obtain ⟨q, hq, hmem⟩ := T.exists_next hb hn hp hd
      exact .inr ⟨q.block, hmem, primaryNext_eq_some.mpr ⟨b, n, p, d, q, hb, hn, hp, hd, hq, rfl⟩⟩

/-! ## Chains that end -/

theorem Continues.not_last (hc : g.Continues id low) : g.primaryNext id ≠ .ok none := by
  unfold Continues at hc
  simp [hc]

theorem Continues.eq (hc : g.Continues id low) (hc' : g.Continues id x) : low = x := by
  unfold Continues at hc hc'
  simpa using hc.symm.trans hc'

/-- A chain goes on as the chain of the block that follows. -/
theorem ChainOf.of_continues (hl : g.ChainOf id l) (hc : g.Continues id low) :
    ∃ rest, l = id :: rest ∧ g.ChainOf low rest := by
  cases hl with
  | last hn => exact absurd hn hc.not_last
  | next hn hrest => exact ⟨_, rfl, hc.eq hn ▸ hrest⟩

/-- What a chain comes to has a chain, which is no longer. -/
theorem ChainOf.of_reaches (hl : g.ChainOf id l) (hr : ReflTransGen g.Continues id x) :
    ∃ m, g.ChainOf x m ∧ m.length ≤ l.length := by
  induction hr with
  | refl => exact ⟨l, hl, Nat.le_refl _⟩
  | tail _ hc ih =>
    obtain ⟨m, hm, hle⟩ := ih
    obtain ⟨rest, rfl, hrest⟩ := hm.of_continues hc
    exact ⟨rest, hrest, Nat.le_of_succ_le hle⟩

/-- A chain that ends does not come back to its first block. -/
theorem ChainOf.not_looped (hl : g.ChainOf id l) : ¬ TransGen g.Continues id id := by
  intro hloop
  obtain ⟨low, hc, hr⟩ := TransGen.head'_iff.mp hloop
  obtain ⟨rest, rfl, hrest⟩ := hl.of_continues hc
  obtain ⟨m, hm, hle⟩ := hrest.of_reaches hr
  rw [hm.unique hl] at hle
  exact Nat.not_succ_le_self _ hle

theorem ChainOf.reaches_of_mem (hl : g.ChainOf id l) (hx : x ∈ l) :
    ReflTransGen g.Continues id x := by
  induction hl with
  | last => cases List.mem_singleton.mp hx; exact .refl
  | next hn _ ih =>
    rcases List.mem_cons.mp hx with rfl | hx
    · exact .refl
    · exact .head hn (ih hx)

theorem ChainOf.nodup (hl : g.ChainOf id l) : l.Nodup := by
  induction hl with
  | last => exact List.nodup_singleton _
  | next hn hrest ih =>
    refine List.nodup_cons.mpr ⟨fun hmem => ?_, ih⟩
    exact (ChainOf.next hn hrest).not_looped (.head' hn (hrest.reaches_of_mem hmem))

theorem ChainOf.head?_eq (hl : g.ChainOf id l) : l.head? = some id := by
  cases hl <;> rfl

/-! ## Chains that do not end -/

/-- A chain runs into a loop. -/
def Loops (g : Graph) (id : BlockId) : Prop :=
  ∃ x, ReflTransGen g.Continues id x ∧ TransGen g.Continues x x

theorem Threaded.mem_of_reaches (T : g.Threaded) (hid : id ∈ g.blocks)
    (hr : ReflTransGen g.Continues id x) : x ∈ g.blocks := by
  induction hr with
  | refl => exact hid
  | tail _ hc ih =>
    rcases T.next_cases ih with hn | ⟨low, hlow, hc'⟩
    · exact absurd hn hc.not_last
    · exact hc.eq hc' ▸ hlow

/-- There are finitely many blocks, so a chain that runs into no loop comes to its end. -/
theorem Threaded.exists_chain (T : g.Threaded) (hid : id ∈ g.blocks) (hno : ¬ g.Loops id) :
    ∃ l, g.ChainOf id l := by
  let Met := { x // ReflTransGen g.Continues id x }
  have : Finite Met := by
    refine Set.Finite.subset g.blocks.keys.finite_toSet fun x hx => ?_
    exact Std.ExtTreeMap.mem_keys.mpr (T.mem_of_reaches hid hx)
  let Behind (x y : Met) : Prop := TransGen g.Continues y.1 x.1
  have : IsTrans Met Behind := ⟨fun _ _ _ hxy hyz => hyz.trans hxy⟩
  have : Std.Irrefl Behind := ⟨fun x hx => hno ⟨x.1, x.2, hx⟩⟩
  have hwf : WellFounded Behind := Finite.wellFounded_of_trans_of_irrefl Behind
  suffices h : ∀ x : Met, ∃ l, g.ChainOf x.1 l from h ⟨id, .refl⟩
  intro x
  induction x using hwf.induction with
  | _ x ih =>
    rcases T.next_cases (T.mem_of_reaches hid x.2) with hn | ⟨low, _, hc⟩
    · exact ⟨[x.1], .last hn⟩
    · obtain ⟨l, hl⟩ := ih ⟨low, x.2.tail hc⟩ (.single hc)
      exact ⟨x.1 :: l, .next hc hl⟩

/-- A chain ends just if it runs into no loop. -/
theorem Threaded.exists_chain_iff (T : g.Threaded) (hid : id ∈ g.blocks) :
    (∃ l, g.ChainOf id l) ↔ ¬ g.Loops id := by
  refine ⟨?_, T.exists_chain hid⟩
  rintro ⟨l, hl⟩ ⟨x, hr, hloop⟩
  obtain ⟨m, hm, _⟩ := hl.of_reaches hr
  exact hm.not_looped hloop

/-! ## The walk -/

/-- The walk fails when it would have to go further than it may. -/
theorem Threaded.chainAfter_eq_error (T : g.Threaded) (hid : id ∈ g.blocks)
    (hlong : ∀ l, g.ChainOf id l → room + 1 < l.length) :
    g.chainAfter start room id = .error (.structural (.chain start g.config.maxChainHops)) := by
  induction room generalizing id with
  | zero =>
    rcases T.next_cases hid with hn | ⟨low, _, hc⟩
    · exact absurd (hlong [id] (.last hn)) (by simp)
    · unfold chainAfter
      rw [hc]
      rfl
  | succ room ih =>
    rcases T.next_cases hid with hn | ⟨low, hlow, hc⟩
    · exact absurd (hlong [id] (.last hn)) (by simp)
    · have hrest := ih hlow fun l hl => Nat.lt_of_succ_lt_succ (hlong (id :: l) (.next hc hl))
      unfold chainAfter
      rw [hc]
      simp only [bind, Except.bind, hrest]

theorem Threaded.primaryChain_eq_error (T : g.Threaded) (hid : id ∈ g.blocks)
    (hlong : ∀ l, g.ChainOf id l → max 1 g.config.maxChainHops < l.length) :
    g.primaryChain id = .error (.structural (.chain id g.config.maxChainHops)) := by
  unfold primaryChain
  rw [T.chainAfter_eq_error hid fun l hl => by have := hlong l hl; omega]
  rfl

theorem primaryChain_eq_of_absent (hid : id ∉ g.blocks) :
    g.primaryChain id = .error (.blockNotFound id) := by
  have hb : g.blocks[id]? = none :=
    Option.eq_none_iff_forall_ne_some.mpr fun b hb => hid (Table.mem_iff.mpr ⟨b, hb⟩)
  unfold primaryChain chainAfter primaryNext block
  rw [hb]
  rfl

/-- **What a walk down a chain comes to**, whatever the links are. -/
structure Bounded (g : Graph) (id : BlockId) : Prop where
  /-- It answers the whole chain just if that has an end within the limit. -/
  ok_iff {l : List BlockId} : g.primaryChain id = .ok l ↔
    g.ChainOf id l ∧ l.length ≤ max 1 g.config.maxChainHops
  head_eq {l : List BlockId} : g.primaryChain id = .ok l → l.head? = some id
  answer_nodup {l : List BlockId} : g.primaryChain id = .ok l → l.Nodup
  /-- Else it fails, … -/
  otherwise : id ∈ g.blocks →
    (¬ ∃ l, g.ChainOf id l ∧ l.length ≤ max 1 g.config.maxChainHops) →
    g.primaryChain id = .error (.structural (.chain id g.config.maxChainHops))
  /-- … and just because the chain is longer, or runs into a loop. -/
  error_iff : g.primaryChain id = .error (.structural (.chain id g.config.maxChainHops)) ↔
    id ∈ g.blocks ∧
      ((∃ l, g.ChainOf id l ∧ max 1 g.config.maxChainHops < l.length) ∨ g.Loops id)
  absent : id ∉ g.blocks → g.primaryChain id = .error (.blockNotFound id)

/-- **The limit of chains is exact**, also when links lead back up a chain. -/
theorem Threaded.primaryChain_exact (T : g.Threaded) (id : BlockId) : g.Bounded id := by
  by_cases hid : id ∈ g.blocks
  case neg =>
    have habsent := primaryChain_eq_of_absent hid
    have hno {l} : ¬ g.ChainOf id l := fun hl => hid (hl.mem_blocks id hl.head_mem)
    constructor <;> simp [habsent, hid, hno]
  have hshort {l} (h : g.ChainOf id l ∧ l.length ≤ max 1 g.config.maxChainHops) :
      g.primaryChain id = .ok l := primaryChain_eq_of_short h.1 h.2
  have hfail (h : ¬ ∃ l, g.ChainOf id l ∧ l.length ≤ max 1 g.config.maxChainHops) :
      g.primaryChain id = .error (.structural (.chain id g.config.maxChainHops)) :=
    T.primaryChain_eq_error hid fun l hl => Nat.lt_of_not_le fun hle => h ⟨l, hl, hle⟩
  have hok {l} (h : g.primaryChain id = .ok l) :
      g.ChainOf id l ∧ l.length ≤ max 1 g.config.maxChainHops := by
    by_cases hex : ∃ l, g.ChainOf id l ∧ l.length ≤ max 1 g.config.maxChainHops
    · obtain ⟨m, hm⟩ := hex
      cases (hshort hm).symm.trans h
      exact hm
    · cases (hfail hex).symm.trans h
  refine ⟨⟨hok, hshort⟩, fun h => (hok h).1.head?_eq, fun h => (hok h).1.nodup, fun _ => hfail,
    ⟨fun herr => ⟨hid, ?_⟩, fun ⟨_, hcause⟩ => hfail fun ⟨l, hl, hle⟩ => ?_⟩,
    fun hno => absurd hid hno⟩
  · by_cases hloop : g.Loops id
    · exact .inr hloop
    · obtain ⟨l, hl⟩ := T.exists_chain hid hloop
      refine .inl ⟨l, hl, Nat.lt_of_not_le fun hle => ?_⟩
      cases (hshort ⟨hl, hle⟩).symm.trans herr
  · rcases hcause with ⟨m, hm, hlong⟩ | hloop
    · rw [hm.unique hl] at hlong
      exact Nat.not_le_of_lt hlong hle
    · exact (T.exists_chain_iff hid).mp ⟨l, hl⟩ hloop

theorem wired_coiled : coiled.Wired := by
  have hempty := wired_empty ∅ { snapRadius := 1000 } .stacked
  have ha := hempty.apply (.insertDefinition "a" doubled .origin) (by rintro _ _ ⟨⟩; decide)
  have hb := ha.apply (.insertDefinition "b" doubled .origin) (by rintro _ _ ⟨⟩; decide +kernel)
  exact (hb.apply (.connect "notch-1-a" "divot-0-b") nofun).apply _ nofun

/-- Two blocks that hang from each other: the walk fails, for its chain runs into a loop. -/
theorem primaryChain_exact_coiled : coiled.Threaded ∧ coiled.Loops "a" ∧
    coiled.primaryChain "a" = .error (.structural (.chain "a" 100)) := by
  have T : coiled.Threaded := wired_coiled.threaded
  have hlinks : coiled.primaryNext "a" = .ok (some "b") ∧ coiled.primaryNext "b" = .ok (some "a") ∧
      "a" ∈ coiled.blocks ∧ coiled.config.maxChainHops = 100 := by decide +kernel
  obtain ⟨hab, hba, hmem, hhops⟩ := hlinks
  have hloop : coiled.Loops "a" := ⟨"a", .refl, .head hab (.single hba)⟩
  refine ⟨T, hloop, ?_⟩
  have hfail := (Threaded.primaryChain_exact T "a").error_iff.mpr ⟨hmem, .inr hloop⟩
  rwa [hhops] at hfail

/-- At the limit: a chain of two blocks is within two, and not within one. -/
example : { coupled with config.maxChainHops := 2 }.primaryChain "a" = .ok ["a", "b"] ∧
    { coupled with config.maxChainHops := 1 }.primaryChain "a" =
      .error (.structural (.chain "a" 1)) := by
  decide +kernel

end SnapBlocks.Graph
