import Mathlib.Data.String.Basic
import SnapBlocks.Proofs.Doubles
import SnapBlocks.Proofs.Rewire

/-! The search for the place where a block would snap finds the best one. `Graph.Admissible` says
which pairs come into question, by chains and by what stands above what; on a sound graph these are
the pairs that the search goes through. What it keeps of them depends on the set of them alone, and
so not on the order in which the registries are gone through. -/

namespace SnapBlocks

namespace Candidate

/-- Pairs are compared by their distances, and equally distant ones by their ids. -/
def key (c : Candidate) : (ℤ ×ₗ ℤ ×ₗ ℤ) ×ₗ String ×ₗ String :=
  toLex (Doubles.place c.distance, toLex (c.notch, c.divot))

/-- What the best of the pairs in a set is: nothing if none of them is close enough. -/
def Leads (radius : Float) (s : Candidate → Prop) : Option Candidate → Prop
  | none => ∀ c, s c → Doubles.place radius ≤ Doubles.place c.distance
  | some c => s c ∧ Doubles.place c.distance < Doubles.place radius ∧ ∀ a, s a → c.key ≤ a.key

variable {a b c : Candidate} {radius : Float} {s : Candidate → Prop} {best r r' : Option Candidate}
variable {l : List Candidate}

theorem key_le_of_place_lt (h : Doubles.place a.distance < Doubles.place b.distance) :
    a.key ≤ b.key :=
  (Prod.Lex.toLex_lt_toLex.mpr (.inl h)).le

theorem precedes_iff (ha : a.distance.isNaN = false) (hb : b.distance.isNaN = false) :
    a.precedes b ↔ a.key < b.key := by
  unfold precedes key
  simp only [Bool.or_eq_true, Bool.and_eq_true, decide_eq_true_eq, Doubles.lt_iff ha hb,
    Doubles.beq_iff ha hb, Prod.Lex.toLex_lt_toLex]

/-- One more pair does not beat the best one so far. -/
theorem Leads.keep (h : Leads radius s (some b)) (hle : b.key ≤ c.key) :
    Leads radius (fun a => s a ∨ a = c) (some b) := by
  refine ⟨.inl h.1, h.2.1, ?_⟩
  rintro a (ha | rfl)
  · exact h.2.2 a ha
  · exact hle

/-- One more pair is too far apart. -/
theorem Leads.skip (h : Leads radius s best)
    (hfar : Doubles.place radius ≤ Doubles.place c.distance) :
    Leads radius (fun a => s a ∨ a = c) best := by
  cases best with
  | none =>
    rintro a (ha | rfl)
    · exact h a ha
    · exact hfar
  | some b => exact h.keep (key_le_of_place_lt (h.2.1.trans_le hfar))

/-- One more pair beats all others. -/
theorem leads_of_le (hclose : Doubles.place c.distance < Doubles.place radius)
    (hle : ∀ a, s a → c.key ≤ a.key) : Leads radius (fun a => s a ∨ a = c) (some c) := by
  refine ⟨.inr rfl, hclose, ?_⟩
  rintro a (ha | rfl)
  · exact hle a ha
  · exact le_rfl

/-- One more pair is compared with the best one so far. -/
theorem Leads.better (hr : radius.isNaN = false) (hc : c.distance.isNaN = false)
    (hs : ∀ a, s a → a.distance.isNaN = false) (h : Leads radius s best) :
    Leads radius (fun a => s a ∨ a = c) (Candidate.better radius best c) := by
  have hfar : c.distance ≥ radius ↔ Doubles.place radius ≤ Doubles.place c.distance :=
    Doubles.le_iff hr hc
  unfold Candidate.better
  split
  next hskip => exact h.skip (hfar.mp hskip)
  next hskip =>
    have hclose := not_le.mp (hfar.not.mp hskip)
    cases best with
    | none => exact leads_of_le hclose fun a ha => key_le_of_place_lt (hclose.trans_le (h a ha))
    | some b =>
      have hb := precedes_iff hc (hs b h.1)
      dsimp only
      split
      next hp => exact leads_of_le hclose fun a ha => (hb.mp hp).le.trans (h.2.2 a ha)
      next hp => exact h.keep (not_lt.mp (hb.not.mp hp))

/-- A scan of pairs ends with the best one of them. -/
theorem leads_foldl_better (hr : radius.isNaN = false) (hl : ∀ c ∈ l, c.distance.isNaN = false) :
    Leads radius (· ∈ l) (l.foldl (Candidate.better radius) none) := by
  suffices hscan : ∀ s best, (∀ a, s a → a.distance.isNaN = false) → Leads radius s best →
      Leads radius (fun a => s a ∨ a ∈ l) (l.foldl (Candidate.better radius) best) by
    simpa using hscan (fun _ => False) none nofun nofun
  -- on the pairs to come, while the set of those that were compared grows
  induction l with
  | nil => simp
  | cons c rest ih =>
    intro s best hs hbest
    have hc := hl c List.mem_cons_self
    have hstep := hbest.better hr hc hs
    have hs' : ∀ a, s a ∨ a = c → a.distance.isNaN = false := by
      rintro a (ha | rfl)
      exacts [hs a ha, hc]
    simpa [or_assoc] using ih (fun a ha => hl a (.tail c ha)) _ _ hs' hstep

/-- There is one best pair, if pairs of the set are told apart by their ends. -/
theorem Leads.unique (hs : ∀ a b, s a → s b → a.notch = b.notch → a.divot = b.divot → a = b)
    (h : Leads radius s r) (h' : Leads radius s r') : r = r' := by
  cases r with
  | none =>
    cases r' with
    | none => rfl
    | some c => exact absurd h'.2.1 (h c h'.1).not_gt
  | some c =>
    cases r' with
    | none => exact absurd h.2.1 (h' c h.1).not_gt
    | some c' =>
      have hkey : c.key = c'.key := le_antisymm (h.2.2 c' h'.1) (h'.2.2 c h.1)
      simp only [key, EmbeddingLike.apply_eq_iff_eq, Prod.mk.injEq] at hkey
      exact congrArg some (hs c c' h.1 h'.1 hkey.2.1 hkey.2.2)

end Candidate

namespace Graph

variable {ok : Definition → Prop} {g : Graph} {b : Block} {active : BlockId} {n : SnapId}
variable {c c' : Candidate} {ds ns : List SnapId}

/-! ## Admissible pairs -/

/-- A pair by which a block may snap. -/
inductive Admissible (g : Graph) (active : BlockId) (c : Candidate) : Prop
  /-- The free notch at the end of the block's chain, or its own notch if the end has none, with a
  free divot of another block that does not stand above that notch. -/
  | below {b t : Block} {tail : BlockId} {chain : List BlockId} {p q : SnapPoint} {x y : Point} :
      g.blocks[active]? = some b → g.ChainOf active chain → chain.getLast? = some tail →
      g.blocks[tail]? = some t → (t.primaryNotch <|> b.primaryNotch) = some c.notch →
      g.snaps[c.notch]? = some p → p.next = none →
      g.snaps[c.divot]? = some q → q.kind.isDivot → q.previous = none →
      q.block ≠ active → ¬ g.Under p.block q.block →
      g.snapPosition c.notch = .ok x → g.snapPosition c.divot = .ok y →
      c.distance = x.distanceTo y → Admissible g active c
  /-- The block's own divot with a notch that is free or holds it already, of a block that does not
  stand below. -/
  | above {b : Block} {p : SnapPoint} {x y : Point} :
      g.blocks[active]? = some b → b.primaryDivot = some c.divot →
      g.snaps[c.notch]? = some p → p.kind.isNotch → (p.next = none ∨ p.next = some c.divot) →
      ¬ g.Under p.block active →
      g.snapPosition c.divot = .ok x → g.snapPosition c.notch = .ok y →
      c.distance = x.distanceTo y → Admissible g active c

/-- The search starts from the end of the chain. -/
theorem Sound.anchorOf_eq_some (S : g.Sound ok) (hb : g.blocks[active]? = some b) :
    g.anchorOf b = .ok (some n) ↔ ∃ chain tail t, g.ChainOf active chain ∧
      chain.getLast? = some tail ∧ g.blocks[tail]? = some t ∧
      (t.primaryNotch <|> b.primaryNotch) = some n := by
  obtain ⟨chain, t, hchain, hlast, ht, hanchor⟩ := S.anchorOf_eq hb
  rw [hanchor, Except.ok.injEq]
  constructor
  · exact fun h => ⟨chain, _, t, hchain, hlast, ht, h⟩
  · rintro ⟨chain', tail, t', hchain', hlast', ht', h⟩
    cases hchain.unique hchain'
    cases hlast.symm.trans hlast'
    cases ht.symm.trans ht'
    exact h

/-- **The search goes through the admissible pairs.** -/
theorem Sound.offers_iff (S : g.Sound ok) (hb : g.blocks[active]? = some b) :
    g.Offers b c ↔ g.Admissible active c := by
  have hid : b.id = active := S.block_id hb
  have hcycle {i : SnapId} {p : SnapPoint} (hp : g.snaps[i]? = some p) :=
    S.wouldCycle_eq_false (S.block_mem hp)
  constructor
  · intro ho
    cases ho with
    | below hanchor hp hfree hd hq hblock hprev hr hx hy hdist =>
      obtain ⟨chain, tail, t, hchain, hlast, ht, hn⟩ := (S.anchorOf_eq_some hb).mp hanchor
      obtain ⟨q, hq', hqk⟩ := S.mem_divots.mp (Std.ExtTreeSet.contains_iff_mem.mp hd)
      cases hq.symm.trans hq'
      exact .below hb hchain hlast ht hn hp hfree hq hqk hprev (hid ▸ hblock)
        ((hcycle hp _).mp hr) hx hy hdist
    | above hdivot hn hp hroom hr hx hy hdist =>
      obtain ⟨p, hp', hpk⟩ := S.mem_notches.mp (Std.ExtTreeSet.contains_iff_mem.mp hn)
      cases hp.symm.trans hp'
      refine .above hb hdivot hp hpk ?_ (hid ▸ (hcycle hp _).mp hr) hx hy hdist
      exact Option.eq_none_or_eq_some _ |>.imp_right fun ⟨e, he⟩ => hroom e he ▸ he
  · intro ha
    cases ha with
    | below hb' hchain hlast ht hn hp hfree hq hqk hprev hblock hunder hx hy hdist =>
      cases hb.symm.trans hb'
      have hd := Std.ExtTreeSet.contains_iff_mem.mpr (S.mem_divots.mpr ⟨_, hq, hqk⟩)
      exact .below ((S.anchorOf_eq_some hb).mpr ⟨_, _, _, hchain, hlast, ht, hn⟩) hp hfree hd hq
        (hid ▸ hblock) hprev ((hcycle hp _).mpr hunder) hx hy hdist
    | above hb' hdivot hp hpk hnext hunder hx hy hdist =>
      cases hb.symm.trans hb'
      have hn := Std.ExtTreeSet.contains_iff_mem.mpr (S.mem_notches.mpr ⟨_, hp, hpk⟩)
      refine .above hdivot hn hp (fun e he => ?_) (hid.symm ▸ (hcycle hp _).mpr hunder) hx hy hdist
      rcases hnext with hnone | hself
      · cases hnone.symm.trans he
      · cases hself.symm.trans he
        rfl

/-- What the search has checked of a pair is what speaks against a link for good. -/
theorem Sound.admissible_ends (S : g.Sound ok) (hb : g.blocks[active]? = some b)
    (ha : g.Admissible active c) : ∃ p q, g.snaps[c.notch]? = some p ∧
      g.snaps[c.divot]? = some q ∧ p.kind.isNotch ∧ q.kind.isDivot ∧
      ¬ g.Under p.block q.block := by
  obtain ⟨hn, hd⟩ := S.registered_of_offers hb ((S.offers_iff hb).mpr ha)
  obtain ⟨p, hp, hpk⟩ := S.mem_notches.mp hn
  obtain ⟨q, hq, hqk⟩ := S.mem_divots.mp hd
  refine ⟨p, q, hp, hq, hpk, hqk, ?_⟩
  cases ha with
  | below _ _ _ _ _ hp' _ hq' _ _ _ hunder =>
    cases hp.symm.trans hp'
    cases hq.symm.trans hq'
    exact hunder
  | above hb' hdivot hp' _ _ hunder =>
    cases hp.symm.trans hp'
    obtain ⟨_, hq', rfl, _⟩ := S.snap_of_primaryDivot hb' hdivot
    cases hq.symm.trans hq'
    exact hunder

/-- The ends of an admissible pair tell its distance. -/
theorem Sound.admissible_inj (S : g.Sound ok) (hc : g.Admissible active c)
    (hc' : g.Admissible active c') (hn : c.notch = c'.notch) (hd : c.divot = c'.divot) : c = c' := by
  have hown {b : Block} {q : SnapPoint} (hb : g.blocks[active]? = some b)
      (hdivot : b.primaryDivot = some c.divot) (hq : g.snaps[c.divot]? = some q) :
      q.block = active := by
    obtain ⟨_, hq', hblock, _⟩ := S.snap_of_primaryDivot hb hdivot
    cases hq.symm.trans hq'
    exact hblock
  refine Candidate.ext hn hd ?_
  cases hc with
  | below _ _ _ _ _ _ _ hq _ _ hblock _ hx hy hdist =>
    cases hc' with
    | below _ _ _ _ _ _ _ _ _ _ _ _ hx' hy' hdist' =>
      cases hx.symm.trans (hn ▸ hx')
      cases hy.symm.trans (hd ▸ hy')
      rw [hdist, hdist']
    | above hb hdivot => exact absurd (hown hb (hd ▸ hdivot) hq) hblock
  | above hb hdivot _ _ _ _ hx hy hdist =>
    cases hc' with
    | below _ _ _ _ _ _ _ hq _ _ hblock => exact absurd (hown hb hdivot (hd ▸ hq)) hblock
    | above _ _ _ _ _ _ hx' hy' hdist' =>
      cases hx.symm.trans (hd ▸ hx')
      cases hy.symm.trans (hn ▸ hy')
      rw [hdist, hdist']

/-! ## The search -/

/-- The search, with the divots and the notches taken in some order. -/
def nearestAlong (g : Graph) (active : BlockId) (ds ns : List SnapId) :
    Except GraphError (Option Candidate) := do
  let b ← g.block active
  let below ← g.candidatesBelow b ds
  let above ← g.candidatesAbove b ns
  return (below ++ above).foldl (Candidate.better g.config.snapRadius) none

theorem nearest_eq_nearestAlong (g : Graph) (active : BlockId) :
    g.nearest active = g.nearestAlong active g.divots.toList g.notches.toList := rfl

/-- The radius is a number, and so is the distance of each pair that it is compared with. (No pair
is closer than a radius that is no number, but none would be passed over for it.) -/
structure Comparable (g : Graph) (active : BlockId) : Prop where
  radius : g.config.snapRadius.isNaN = false
  distance {c : Candidate} : g.Admissible active c → c.distance.isNaN = false

/-- Whether a search compares numbers only. -/
def comparesNumbers (g : Graph) (active : BlockId) : Except GraphError Bool := do
  let b ← g.block active
  let below ← g.candidatesBelow b g.divots.toList
  let above ← g.candidatesAbove b g.notches.toList
  return (g.config.snapRadius :: (below ++ above).map (·.distance)).all (! ·.isNaN)

theorem Sound.comparable (S : g.Sound ok) (h : g.comparesNumbers active = .ok true) :
    g.Comparable active := by
  obtain ⟨b, hb, h⟩ := except_bind_eq_ok.mp h
  obtain ⟨below, hbelow, h⟩ := except_bind_eq_ok.mp h
  obtain ⟨above, habove, h⟩ := except_bind_eq_ok.mp h
  have hall : ∀ x ∈ g.config.snapRadius :: (below ++ above).map (·.distance), x.isNaN = false := by
    simpa using List.all_eq_true.mp (Except.ok.inj h)
  refine ⟨hall _ List.mem_cons_self, fun {c} hc => hall _ (.tail _ (List.mem_map_of_mem ?_))⟩
  exact (mem_candidates g.mem_toList_divots g.mem_toList_notches hbelow habove).mpr
    ((S.offers_iff (block_eq_ok.mp hb)).mpr hc)

/-- The search answers the best of the admissible pairs. -/
theorem Sound.nearestAlong_leads (S : g.Sound ok) (hid : active ∈ g.blocks)
    (hnan : g.Comparable active) (hds : ∀ d, d ∈ ds ↔ g.isDivot d)
    (hns : ∀ n, n ∈ ns ↔ g.isNotch n) : ∃ r, g.nearestAlong active ds ns = .ok r ∧
      Candidate.Leads g.config.snapRadius (g.Admissible active) r := by
  obtain ⟨b, hb⟩ := Table.mem_iff.mp hid
  have hdivots : ∀ d ∈ ds, d ∈ g.divots := fun d hd =>
    Std.ExtTreeSet.contains_iff_mem.mp ((hds d).mp hd)
  have hnotches : ∀ n ∈ ns, n ∈ g.notches := fun n hn =>
    Std.ExtTreeSet.contains_iff_mem.mp ((hns n).mp hn)
  obtain ⟨below, hbelow⟩ := S.exists_candidatesBelow hb hdivots
  obtain ⟨above, habove⟩ := S.exists_candidatesAbove hb hnotches
  have hmem : (· ∈ below ++ above) = g.Admissible active := funext fun c =>
    propext ((mem_candidates hds hns hbelow habove).trans (S.offers_iff hb))
  refine ⟨(below ++ above).foldl (Candidate.better g.config.snapRadius) none, ?_, ?_⟩
  · unfold nearestAlong
    rw [block_of_getElem? hb]
    simp only [hbelow, habove, bind, Except.bind, pure, Except.pure]
  · rw [← hmem]
    exact Candidate.leads_foldl_better hnan.radius fun c hc => hnan.distance (hmem ▸ hc)

/-- A pair is the one by which a block is to snap: close enough, and no other pair is closer, or as
close and of lower ids. -/
structure Best (g : Graph) (active : BlockId) (c : Candidate) : Prop where
  admissible : g.Admissible active c
  close : c.distance < g.config.snapRadius
  least {a : Candidate} : g.Admissible active a → a = c ∨ c.distance < a.distance ∨
    c.distance == a.distance ∧ (c.notch < a.notch ∨ c.notch = a.notch ∧ c.divot < a.divot)

theorem Sound.best_of_leads (S : g.Sound ok) (hnan : g.Comparable active)
    (h : Candidate.Leads g.config.snapRadius (g.Admissible active) (some c)) :
    g.Best active c where
  admissible := h.1
  close := (Doubles.lt_iff (hnan.distance h.1) hnan.radius).mpr h.2.1
  least {a} ha := by
    rcases (h.2.2 a ha).lt_or_eq with hlt | heq
    · have := (Candidate.precedes_iff (hnan.distance h.1) (hnan.distance ha)).mpr hlt
      simpa [Candidate.precedes] using Or.inr this
    · simp only [Candidate.key, EmbeddingLike.apply_eq_iff_eq, Prod.mk.injEq] at heq
      exact .inl (S.admissible_inj ha h.1 heq.2.1.symm heq.2.2.symm)

/-- A link of an admissible pair is refused only when an end is taken, or for its depth. -/
theorem Sound.linkRejection_admissible (S : g.Sound ok) (hb : g.blocks[active]? = some b)
    (ha : g.Admissible active c) : ∃ x, g.linkRejection c.notch c.divot = .ok x ∧
      x ∉ [some .notANotch, some .notADivot, some .sameBlock, some .wouldCycle] := by
  obtain ⟨p, q, hp, hq, hpk, hqk, hunder⟩ := S.admissible_ends hb ha
  obtain ⟨x, hx, hv⟩ := S.linkRejection_verdict hp hq
  refine ⟨x, hx, ?_⟩
  cases hv with
  | notANotch h => exact absurd hpk h
  | notADivot _ h => exact absurd hqk h
  | sameBlock _ _ _ _ h => exact absurd (h ▸ .refl) hunder
  | wouldCycle _ _ _ _ _ h => exact absurd h hunder
  | alreadyLinked | tooDeep | none => simp

/-- **The search is exact.** It answers nothing if no admissible pair is close enough, and else the
best one, in whatever order it takes the divots and the notches. A link of what it has found is
refused only because an end is taken, or for its depth. -/
theorem Reachable.nearest_exact (hg : Reachable Definition.WellFormed g) (hid : active ∈ g.blocks)
    (hnan : g.Comparable active) (hds : ds.Perm g.divots.toList) (hns : ns.Perm g.notches.toList) :
    ∃ r, g.nearest active = .ok r ∧ g.nearestAlong active ds ns = .ok r ∧
      (r = none ↔ ∀ c, g.Admissible active c → ¬ c.distance < g.config.snapRadius) ∧
      ∀ c, r = some c → g.Best active c ∧ ∃ x, g.linkRejection c.notch c.divot = .ok x ∧
        x ∉ [some .notANotch, some .notADivot, some .sameBlock, some .wouldCycle] := by
  have S := hg.sound fun _ hd => hd.toCoherent
  obtain ⟨b, hb⟩ := Table.mem_iff.mp hid
  obtain ⟨r, hr, hlead⟩ :=
    S.nearestAlong_leads hid hnan g.mem_toList_divots g.mem_toList_notches
  obtain ⟨r', hr', hlead'⟩ := S.nearestAlong_leads hid hnan
    (fun d => hds.mem_iff.trans (g.mem_toList_divots d))
    (fun n => hns.mem_iff.trans (g.mem_toList_notches n))
  obtain rfl := hlead.unique (fun _ _ ha hb => S.admissible_inj ha hb) hlead'
  refine ⟨r, (g.nearest_eq_nearestAlong active).trans hr, hr', ?_, ?_⟩
  · have hfar {c : Candidate} (hc : g.Admissible active c) :
        ¬ c.distance < g.config.snapRadius ↔
          Doubles.place g.config.snapRadius ≤ Doubles.place c.distance := by
      rw [Doubles.lt_iff (hnan.distance hc) hnan.radius, not_lt]
    cases r with
    | none => exact iff_of_true rfl fun c hc => (hfar hc).mpr (hlead c hc)
    | some c =>
      refine iff_of_false nofun fun h => ?_
      exact h c hlead.1 (S.best_of_leads hnan hlead).close
  · rintro c rfl
    exact ⟨S.best_of_leads hnan hlead, S.linkRejection_admissible hb hlead.1⟩

/-- A body is held under its loop, nearer to the notch that follows the loop than to its own. -/
theorem nearest_exact_hovering : hovering.Comparable "b" ∧
    hovering.nearestAlong "b" hovering.divots.toList.reverse hovering.notches.toList.reverse =
      .ok (some ⟨"notch-1-a", "divot-0-b", 0⟩) ∧
    hovering.Best "b" ⟨"notch-1-a", "divot-0-b", 0⟩ := by
  have hruns : "b" ∈ hovering.blocks ∧ hovering.comparesNumbers "b" = .ok true ∧
      hovering.nearest "b" = .ok (some ⟨"notch-1-a", "divot-0-b", 0⟩) := by decide +kernel
  obtain ⟨hid, hnumbers, hfound⟩ := hruns
  have hnan : hovering.Comparable "b" :=
    (reachable_hovering.sound fun _ hd => hd.toCoherent).comparable hnumbers
  obtain ⟨r, hr, halong, _, hbest⟩ := Reachable.nearest_exact reachable_hovering hid hnan
    (List.reverse_perm _) (List.reverse_perm _)
  obtain rfl := Except.ok.inj (hfound.symm.trans hr)
  exact ⟨hnan, halong, (hbest _ rfl).1⟩

end Graph

end SnapBlocks
