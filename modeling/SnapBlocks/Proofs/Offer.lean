import SnapBlocks.Graph.Nearest
import SnapBlocks.Proofs.Join

/-! What the search for a snap finds. `Graph.Offers` says which pairs it goes through and what it
has checked of each; the pair that it answers is one of these, and closer than the radius. -/

namespace SnapBlocks

attribute [ext] Candidate

namespace Graph

variable {g : Graph} {b : Block} {id active up : BlockId} {n d : SnapId} {x : Point}
variable {c : Candidate} {l : List Candidate}

/-- The search for a snap of a block goes through a pair: the end of the block's chain with a free
divot, or its own divot with a notch that has room for it. -/
inductive Offers (g : Graph) (b : Block) (c : Candidate) : Prop
  | below {p q : SnapPoint} {x y : Point} :
      g.anchorOf b = .ok (some c.notch) → g.snaps[c.notch]? = some p → p.next = none →
      g.isDivot c.divot → g.snaps[c.divot]? = some q → q.block ≠ b.id → q.previous = none →
      g.wouldCycle p.block q.block = .ok false →
      g.snapPosition c.notch = .ok x → g.snapPosition c.divot = .ok y →
      c.distance = x.distanceTo y → Offers g b c
  | above {p : SnapPoint} {x y : Point} :
      b.primaryDivot = some c.divot → g.isNotch c.notch → g.snaps[c.notch]? = some p →
      (∀ e, p.next = some e → e = c.divot) → g.wouldCycle p.block b.id = .ok false →
      g.snapPosition c.divot = .ok x → g.snapPosition c.notch = .ok y →
      c.distance = x.distanceTo y → Offers g b c

/-! ## The pairs -/

/-- A divot is passed over, or it makes a pair. -/
theorem pairsBelow_cons {rest : List SnapId}
    (hl : g.pairsBelow active up n x (d :: rest) = .ok l) :
    ∃ q l', g.snaps[d]? = some q ∧ g.pairsBelow active up n x rest = .ok l' ∧
      ((l = l' ∧ (q.block = active ∨ q.previous ≠ none ∨ g.wouldCycle up q.block = .ok true)) ∨
        ∃ y, q.block ≠ active ∧ q.previous = none ∧ g.wouldCycle up q.block = .ok false ∧
          g.snapPosition d = .ok y ∧ l = ⟨n, d, x.distanceTo y⟩ :: l') := by
  unfold pairsBelow at hl
  obtain ⟨q, hq, hl⟩ := except_bind_eq_ok.mp hl
  have hq := snap_eq_ok.mp hq
  split at hl
  next hends =>
    refine ⟨q, l, hq, hl, .inl ⟨rfl, ?_⟩⟩
    rcases Bool.or_eq_true_iff.mp hends with hblock | hlinked
    · exact .inl (of_decide_eq_true hblock)
    · exact .inr (.inl (Option.isSome_iff_ne_none.mp hlinked))
  next hends =>
    obtain ⟨hblock, hfree⟩ : q.block ≠ active ∧ q.previous = none := by simpa using hends
    obtain ⟨skip, hcycle, hl⟩ := except_bind_eq_ok.mp hl
    cases skip with
    | true => exact ⟨q, l, hq, hl, .inl ⟨rfl, .inr (.inr hcycle)⟩⟩
    | false =>
      obtain ⟨y, hy, hl⟩ := except_bind_eq_ok.mp hl
      obtain ⟨l', hl', hl⟩ := except_bind_eq_ok.mp hl
      cases hl
      exact ⟨q, l', hq, hl', .inr ⟨y, hblock, hfree, hcycle, hy, rfl⟩⟩

theorem mem_pairsBelow {ids : List SnapId} (hl : g.pairsBelow active up n x ids = .ok l) :
    c ∈ l ↔ c.notch = n ∧ c.divot ∈ ids ∧ ∃ q y, g.snaps[c.divot]? = some q ∧
      q.block ≠ active ∧ q.previous = none ∧ g.wouldCycle up q.block = .ok false ∧
      g.snapPosition c.divot = .ok y ∧ c.distance = x.distanceTo y := by
  induction ids generalizing l with
  | nil =>
    cases hl
    simp
  | cons d rest ih =>
    obtain ⟨q, l', hq, hl', ⟨rfl, hskip⟩ | ⟨y, hblock, hfree, hcycle, hy, rfl⟩⟩ :=
      pairsBelow_cons hl
    · rw [ih hl']
      refine and_congr_right fun _ => ⟨fun ⟨hd, h⟩ => ⟨.tail d hd, h⟩, fun ⟨hd, h⟩ => ⟨?_, h⟩⟩
      refine (List.mem_cons.mp hd).resolve_left ?_
      rintro rfl
      obtain ⟨q', y, hq', hblock, hfree, hcycle, _⟩ := h
      cases hq.symm.trans hq'
      rcases hskip with hs | hs | hs
      · exact hblock hs
      · exact hs hfree
      · cases hs.symm.trans hcycle
    · rw [List.mem_cons, ih hl']
      constructor
      · rintro (rfl | ⟨hn, hd, h⟩)
        · exact ⟨rfl, .head rest, q, y, hq, hblock, hfree, hcycle, hy, rfl⟩
        · exact ⟨hn, .tail d hd, h⟩
      · rintro ⟨hn, hd, h⟩
        rcases List.mem_cons.mp hd with rfl | hd
        · obtain ⟨_, y', _, _, _, _, hy', hdist⟩ := h
          cases hy.symm.trans hy'
          exact .inl (Candidate.ext hn rfl hdist)
        · exact .inr ⟨hn, hd, h⟩

/-- A notch is passed over, or it makes a pair. -/
theorem pairsAbove_cons {rest : List SnapId}
    (hl : g.pairsAbove active d x (n :: rest) = .ok l) :
    ∃ p l', g.snaps[n]? = some p ∧ g.pairsAbove active d x rest = .ok l' ∧
      ((l = l' ∧ ((∃ e, p.next = some e ∧ e ≠ d) ∨ g.wouldCycle p.block active = .ok true)) ∨
        ∃ y, (∀ e, p.next = some e → e = d) ∧ g.wouldCycle p.block active = .ok false ∧
          g.snapPosition n = .ok y ∧ l = ⟨n, d, x.distanceTo y⟩ :: l') := by
  unfold pairsAbove at hl
  obtain ⟨p, hp, hl⟩ := except_bind_eq_ok.mp hl
  have hp := snap_eq_ok.mp hp
  split at hl
  next hend =>
    refine ⟨p, l, hp, hl, .inl ⟨rfl, .inl ?_⟩⟩
    obtain ⟨e, he, hne⟩ := Option.any_eq_true _ _ |>.mp hend
    exact ⟨e, he, of_decide_eq_true hne⟩
  next hend =>
    have hroom : ∀ e, p.next = some e → e = d := by
      intro e he
      simpa [he] using hend
    obtain ⟨skip, hcycle, hl⟩ := except_bind_eq_ok.mp hl
    cases skip with
    | true => exact ⟨p, l, hp, hl, .inl ⟨rfl, .inr hcycle⟩⟩
    | false =>
      obtain ⟨y, hy, hl⟩ := except_bind_eq_ok.mp hl
      obtain ⟨l', hl', hl⟩ := except_bind_eq_ok.mp hl
      cases hl
      exact ⟨p, l', hp, hl', .inr ⟨y, hroom, hcycle, hy, rfl⟩⟩

theorem mem_pairsAbove {ids : List SnapId} (hl : g.pairsAbove active d x ids = .ok l) :
    c ∈ l ↔ c.divot = d ∧ c.notch ∈ ids ∧ ∃ p y, g.snaps[c.notch]? = some p ∧
      (∀ e, p.next = some e → e = d) ∧ g.wouldCycle p.block active = .ok false ∧
      g.snapPosition c.notch = .ok y ∧ c.distance = x.distanceTo y := by
  induction ids generalizing l with
  | nil =>
    cases hl
    simp
  | cons n rest ih =>
    obtain ⟨p, l', hp, hl', ⟨rfl, hskip⟩ | ⟨y, hroom, hcycle, hy, rfl⟩⟩ := pairsAbove_cons hl
    · rw [ih hl']
      refine and_congr_right fun _ => ⟨fun ⟨hn, h⟩ => ⟨.tail n hn, h⟩, fun ⟨hn, h⟩ => ⟨?_, h⟩⟩
      refine (List.mem_cons.mp hn).resolve_left ?_
      rintro rfl
      obtain ⟨p', y, hp', hroom, hcycle, _⟩ := h
      cases hp.symm.trans hp'
      rcases hskip with ⟨e, he, hne⟩ | hs
      · exact hne (hroom e he)
      · cases hs.symm.trans hcycle
    · rw [List.mem_cons, ih hl']
      constructor
      · rintro (rfl | ⟨hd, hn, h⟩)
        · exact ⟨rfl, .head rest, p, y, hp, hroom, hcycle, hy, rfl⟩
        · exact ⟨hd, .tail n hn, h⟩
      · rintro ⟨hd, hn, h⟩
        rcases List.mem_cons.mp hn with rfl | hn
        · obtain ⟨_, y', _, _, _, hy', hdist⟩ := h
          cases hy.symm.trans hy'
          exact .inl (Candidate.ext rfl hd hdist)
        · exact .inr ⟨hd, hn, h⟩

/-! ## The search -/

section

variable {ds ns : List SnapId} {below above : List Candidate}
variable (hds : ∀ d, d ∈ ds ↔ g.isDivot d) (hns : ∀ n, n ∈ ns ↔ g.isNotch n)

include hds in
theorem offers_of_candidatesBelow (hl : g.candidatesBelow b ds = .ok l) (hc : c ∈ l) :
    g.Offers b c := by
  unfold candidatesBelow at hl
  obtain ⟨anchor, hanchor, hl⟩ := except_bind_eq_ok.mp hl
  cases anchor with
  | none =>
    cases hl
    cases hc
  | some n =>
    obtain ⟨p, hp, hl⟩ := except_bind_eq_ok.mp hl
    split at hl
    next =>
      cases hl
      cases hc
    next hfree =>
      obtain ⟨x, hx, hl⟩ := except_bind_eq_ok.mp hl
      obtain ⟨rfl, hd, q, y, hq, hblock, hprev, hcycle, hy, hdist⟩ := (mem_pairsBelow hl).mp hc
      exact .below hanchor (snap_eq_ok.mp hp) (by simpa using hfree) ((hds _).mp hd) hq hblock hprev
        hcycle hx hy hdist

include hns in
theorem offers_of_candidatesAbove (hl : g.candidatesAbove b ns = .ok l) (hc : c ∈ l) :
    g.Offers b c := by
  unfold candidatesAbove at hl
  cases hdivot : b.primaryDivot with
  | none =>
    rw [hdivot] at hl
    cases hl
    cases hc
  | some d =>
    rw [hdivot] at hl
    obtain ⟨x, hx, hl⟩ := except_bind_eq_ok.mp hl
    obtain ⟨rfl, hn, p, y, hp, hroom, hcycle, hy, hdist⟩ := (mem_pairsAbove hl).mp hc
    exact .above hdivot ((hns _).mp hn) hp hroom hcycle hx hy hdist

include hds hns in
/-- **The search goes through the pairs that it offers**, in whatever order it takes the divots and
the notches. -/
theorem mem_candidates (hbelow : g.candidatesBelow b ds = .ok below)
    (habove : g.candidatesAbove b ns = .ok above) : c ∈ below ++ above ↔ g.Offers b c := by
  rw [List.mem_append]
  constructor
  · rintro (hc | hc)
    · exact offers_of_candidatesBelow hds hbelow hc
    · exact offers_of_candidatesAbove hns habove hc
  · intro ho
    cases ho with
    | below hanchor hp hfree hd hq hblock hprev hcycle hx hy hdist =>
      unfold candidatesBelow at hbelow
      simp only [hanchor, snap_of_getElem? hp, hx, hfree, bind, Except.bind, Option.isSome_none,
        Bool.false_eq_true, if_false] at hbelow
      exact .inl ((mem_pairsBelow hbelow).mpr
        ⟨rfl, (hds _).mpr hd, _, _, hq, hblock, hprev, hcycle, hy, hdist⟩)
    | above hdivot hn hp hroom hcycle hx hy hdist =>
      unfold candidatesAbove at habove
      simp only [hdivot, hx, bind, Except.bind] at habove
      exact .inr ((mem_pairsAbove habove).mpr
        ⟨rfl, (hns _).mpr hn, _, _, hp, hroom, hcycle, hy, hdist⟩)

end

theorem mem_toList_divots (g : Graph) (d : SnapId) : d ∈ g.divots.toList ↔ g.isDivot d :=
  Std.ExtTreeSet.mem_toList.trans Std.ExtTreeSet.contains_iff_mem.symm

theorem mem_toList_notches (g : Graph) (n : SnapId) : n ∈ g.notches.toList ↔ g.isNotch n :=
  Std.ExtTreeSet.mem_toList.trans Std.ExtTreeSet.contains_iff_mem.symm

/-- The best of some pairs is one of them, and closer than the radius. -/
theorem mem_of_foldl_better {radius : Float} {best : Option Candidate}
    (hbest : ∀ a, best = some a → ¬ a.distance ≥ radius)
    (hc : l.foldl (Candidate.better radius) best = some c) :
    (best = some c ∨ c ∈ l) ∧ ¬ c.distance ≥ radius := by
  induction l generalizing best with
  | nil => exact ⟨.inl hc, hbest c hc⟩
  | cons a rest ih =>
    have hstep : Candidate.better radius best a = best ∨
        (Candidate.better radius best a = some a ∧ ¬ a.distance ≥ radius) := by
      unfold Candidate.better
      split
      next => exact .inl rfl
      next hnear =>
        cases best with
        | none => exact .inr ⟨rfl, hnear⟩
        | some b =>
          dsimp only
          split
          · exact .inr ⟨rfl, hnear⟩
          · exact .inl rfl
    rw [List.foldl_cons] at hc
    rcases hstep with heq | ⟨heq, hnear⟩ <;> rw [heq] at hc
    · obtain ⟨hmem, hlt⟩ := ih hbest hc
      exact ⟨hmem.imp_right (.tail a), hlt⟩
    · obtain ⟨hmem, hlt⟩ := ih (fun b hb => Option.some.inj hb ▸ hnear) hc
      refine ⟨.inr ?_, hlt⟩
      rcases hmem with ha | hrest
      · cases ha
        exact .head rest
      · exact .tail a hrest

/-- **The search answers a pair that it went through**, closer than the radius. -/
theorem nearest_eq_some (hc : g.nearest id = .ok (some c)) :
    ∃ b, g.blocks[id]? = some b ∧ g.Offers b c ∧ ¬ c.distance ≥ g.config.snapRadius := by
  unfold nearest at hc
  obtain ⟨b, hb, hc⟩ := except_bind_eq_ok.mp hc
  obtain ⟨below, hbelow, hc⟩ := except_bind_eq_ok.mp hc
  obtain ⟨above, habove, hc⟩ := except_bind_eq_ok.mp hc
  obtain ⟨hmem, hnear⟩ := mem_of_foldl_better (fun _ hnone => by cases hnone) (Except.ok.inj hc)
  exact ⟨b, block_eq_ok.mp hb, (mem_candidates g.mem_toList_divots g.mem_toList_notches hbelow
    habove).mp (hmem.resolve_left (by simp)), hnear⟩

/-- The search looks at registered snap points only. -/
theorem Stocked.registered_of_offers (H : g.Stocked) (hb : g.blocks[id]? = some b)
    (ho : g.Offers b c) : c.notch ∈ g.notches ∧ c.divot ∈ g.divots := by
  have hnotch {x : BlockId} {t : Block} {n : SnapId} (ht : g.blocks[x]? = some t)
      (hn : t.primaryNotch = some n) : n ∈ g.notches := by
    obtain ⟨p, hp, _, hk⟩ := H.snap_of_primaryNotch ht hn
    exact H.mem_notches.mpr ⟨p, hp, by rw [hk]; rfl⟩
  cases ho with
  | below hanchor _ _ hdivot =>
    refine ⟨?_, Std.ExtTreeSet.contains_iff_mem.mp hdivot⟩
    obtain ⟨t, ht, hn⟩ := except_bind_eq_ok.mp hanchor
    have hn : (t.primaryNotch <|> b.primaryNotch) = some c.notch := Except.ok.inj hn
    cases htn : t.primaryNotch with
    | none =>
      rw [htn] at hn
      exact hnotch hb hn
    | some n =>
      rw [htn] at hn
      cases hn
      exact hnotch (block_eq_ok.mp ht) htn
  | above hdivot hn =>
    obtain ⟨q, hq, _, hk⟩ := H.snap_of_primaryDivot hb hdivot
    exact ⟨Std.ExtTreeSet.contains_iff_mem.mp hn,
      H.mem_divots.mpr ⟨q, hq, SnapKind.isDivot_iff.mpr hk⟩⟩

end Graph

end SnapBlocks
