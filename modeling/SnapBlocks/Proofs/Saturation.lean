import SnapBlocks.Proofs.Tolerance

/-! A load keeps as many links of its document as the blocks can have. Links are made one after
the other and none is ever taken back, so that a link which was refused once stays refused:
`Graph.Grows` says that one graph has the blocks of another and its links, and maybe more links,
and then ends that are occupied stay so, blocks that stand above a block stay there, and ways only
get longer. Blocks that hang from nothing in the end lie where the document says. -/

namespace SnapBlocks

namespace Graph

/-- One graph has the blocks of another, its links, and maybe more links. -/
structure Grows (g h : Graph) : Prop where
  grove : h.Grove
  stock : h.stock = g.stock
  linked {n d : SnapId} : g.Linked n d → h.Linked n d

/-- A link cannot be made: one of its ends is not registered, or something speaks against it. -/
def Refuses (g : Graph) (n d : SnapId) : Prop :=
  g.isNotch n = false ∨ g.isDivot d = false ∨ ∃ r, g.linkRejection n d = .ok (some r)

variable {g h k : Graph} {id low up : BlockId} {n d : SnapId} {p q p' q' : SnapPoint}
variable {pl : Placement}

namespace Grows

theorem refl (G : g.Grove) : g.Grows g := ⟨G, rfl, fun hl => hl⟩

theorem trans (hgh : g.Grows h) (hhk : h.Grows k) : g.Grows k :=
  ⟨hhk.grove, hhk.stock.trans hgh.stock, fun hl => hhk.linked (hgh.linked hl)⟩

/-- A link that passes the check makes a graph grow. -/
theorem of_link (G : h.Grove) (heq : h.wires = (g.link n d).wires)
    (hr : g.linkRejection n d = .ok none) : g.Grows h where
  grove := G
  stock := (stock_of_wires heq).trans stock_link
  linked {m e} hl := by
    obtain ⟨p, q, hp, hq, _, _, hfree, _⟩ := ends_of_linkRejection hr
    refine (linked_congr heq).mpr
      ((linked_link hp hq (ne_of_linkRejection hr)).mpr (.inr ⟨fun hm => ?_, hl⟩))
    rw [hm, linked_iff_next hp, hfree] at hl
    cases hl

variable (hgh : g.Grows h) (G : g.Grove)
include hgh G

theorem hangsFrom (hh : g.neat.HangsFrom low up) : h.neat.HangsFrom low up := by
  refine hgh.grove.forest.hangsFrom_mono G.forest.toSimple (fun i => ?_) (fun n d hl => ?_) hh
  · rw [owner_neat, owner_neat, owner_congr_stock hgh.stock]
  · exact linked_neat.mpr (hgh.linked (linked_neat.mp hl))

/-- Ways to a block get longer. -/
theorem exists_depth {j : Nat} (hj : g.neat.DepthOf id j) :
    ∃ k, h.neat.DepthOf id k ∧ j ≤ k := by
  have hmem : id ∈ h.blocks := (mem_blocks_of_view hgh.stock).mpr (mem_blocks_neat.mp hj.mem_blocks)
  obtain ⟨k, hk, _⟩ := hgh.grove.forest.depth (mem_blocks_neat.mpr hmem)
  obtain ⟨i, hi, hle⟩ := G.forest.exists_depth (fun hh => hgh.hangsFrom G hh) hk hj.mem_blocks
  cases hi.unique hj
  exact ⟨k, hk, hle⟩

/-- What speaks for a link in a graph that has grown, spoke for it before. -/
theorem joinable (hp : g.snaps[n]? = some p) (hq : g.snaps[d]? = some q)
    (hp' : h.snaps[n]? = some p') (hq' : h.snaps[d]? = some q')
    (J : h.neat.Joinable p'.neat q'.neat) : g.neat.Joinable p.neat q.neat := by
  have hblank {i : SnapId} {r r' : SnapPoint} (hr : g.snaps[i]? = some r)
      (hr' : h.snaps[i]? = some r') : r'.block = r.block ∧ r'.kind = r.kind := by
    have heq := snaps_eq_of_view hgh.stock i
    rw [hr, hr'] at heq
    obtain ⟨_, hblock, _, _, hkind⟩ := SnapPoint.eq_of_blank (Option.some.inj heq)
    exact ⟨hblock, hkind⟩
  obtain ⟨hpb, hpk⟩ := hblank hp hp'
  obtain ⟨hqb, hqk⟩ := hblank hq hq'
  have hup : p'.neat.block = p.neat.block := hpb
  have hlow : q'.neat.block = q.neat.block := hqb
  exact {
    notch := (congrArg SnapKind.isNotch hpk).symm.trans J.notch
    divot := hqk.symm.trans J.divot
    notch_free := by
      refine Option.eq_none_iff_forall_ne_some.mpr fun e he => ?_
      have hl := hgh.linked ((linked_iff_next hp).mpr he)
      rw [linked_iff_next hp', show p'.next = none from J.notch_free] at hl
      cases hl
    divot_free := by
      refine Option.eq_none_iff_forall_ne_some.mpr fun m hm => ?_
      have hl := hgh.linked ((G.linked_iff_previous hq).mpr hm)
      rw [hgh.grove.linked_iff_previous hq', show q'.previous = none from J.divot_free] at hl
      cases hl
    block_ne := hup ▸ hlow ▸ J.block_ne
    not_under := fun hu => J.not_under (hup ▸ hlow ▸ hu.mono fun hh => hgh.hangsFrom G hh)
    short := fun {base low j} hbase hu hj => by
      obtain ⟨base', hbase', hle⟩ := hgh.exists_depth G hbase
      obtain ⟨j', hj', hle'⟩ := hgh.exists_depth G hj
      have hshort := J.short (hup ▸ hbase') (hlow ▸ hu.mono fun hh => hgh.hangsFrom G hh) hj'
      have hconfig : h.config = g.config := config_eq_of_view hgh.stock
      rw [show h.neat.config = g.config from hconfig] at hshort
      change base + j ≤ g.config.maxChainHops
      omega }

/-- **A link that is refused stays refused**, whatever links are made then. -/
theorem refuses (hr : g.Refuses n d) : h.Refuses n d := by
  unfold Refuses isNotch isDivot at hr ⊢
  rw [notches_eq_of_view hgh.stock, divots_eq_of_view hgh.stock]
  refine hr.imp_right (.imp_right fun ⟨r, hr⟩ => ?_)
  obtain ⟨p, q, hp, hq⟩ := exists_snaps_of_linkRejection hr
  obtain ⟨p', hp', _⟩ := exists_snap_of_view hgh.stock.symm hp
  obtain ⟨q', hq', _⟩ := exists_snap_of_view hgh.stock.symm hq
  obtain ⟨s, hs, hiff⟩ := G.exists_linkRejection hp hq
  obtain ⟨s', hs', hiff'⟩ := hgh.grove.exists_linkRejection hp' hq'
  cases s' with
  | some r' => exact ⟨r', hs'⟩
  | none =>
    cases hr.symm.trans hs
    cases hiff.mpr (hgh.joinable G hp hq hp' hq' (hiff'.mp rfl))

end Grows

/-- A link that passes the check is made, and the graph grows by it. -/
theorem Grove.attach_grows (G : g.Grove) (hr : g.linkRejection n d = .ok none) :
    ∃ c h, (attach n d).run g = (.ok c, h) ∧ g.Grows h ∧ h.Linked n d := by
  obtain ⟨p, q, hp, hq, _⟩ := ends_of_linkRejection hr
  obtain ⟨c, h, hmade, Gh, hw⟩ := G.attach_run hr
  have hl : (g.link n d).Linked n d :=
    (linked_link hp hq (ne_of_linkRejection hr)).mpr (.inl ⟨rfl, rfl⟩)
  exact ⟨c, h, hmade, .of_link Gh hw hr, (linked_congr hw).mpr hl⟩

/-! ## Placements -/

/-- Where a block is placed. -/
def seat? (g : Graph) (id : BlockId) : Option Placement := g.blocks[id]?.map (·.placement)

theorem seat?_of_shape (heq : h.shape = g.shape) (id : BlockId) : h.seat? id = g.seat? id := by
  have hb := blocks_eq_of_view heq id
  unfold seat?
  cases hh : h.blocks[id]? with
  | none =>
    rw [blocks_eq_none_of_view heq hh]
  | some c =>
    obtain ⟨b, hb, hcb⟩ := exists_block_of_view heq hh
    rw [hb, Option.map_some, Option.map_some, (Block.eq_of_bare hcb).2.2.2]

theorem seat?_setPlacement (low : BlockId) (hlow : low ∈ g.blocks) :
    (g.setPlacement low pl).seat? id = if low = id then some pl else g.seat? id := by
  unfold seat?
  rw [getElem?_blocks_setPlacement]
  split
  next he =>
    obtain ⟨b, hb⟩ := Table.mem_iff.mp hlow
    rw [← he, hb]
    rfl
  next => rfl

theorem seat?_withNew {b : Block} :
    (g.withNew b).seat? id = if b.id = id then some b.placement else g.seat? id := by
  unfold seat?
  rw [getElem?_blocks_withNew]
  split <;> rfl

theorem changeInput_fixes_seats {seg input : String} {f : InputBinding → InputBinding} :
    (changeInput low seg input f).Fixes seat? := by
  refine changeInput_fixes fun g => funext fun id => ?_
  unfold seat? modifyBlock
  rw [Table.getElem?_modify]
  split
  · cases g.blocks[id]? <;> rfl
  · rfl

/-- A link that is made puts the block of the divot at the notch, and moves no other block. -/
theorem seat?_attach {c : Connection} (hp : g.snaps[n]? = some p) (hq : g.snaps[d]? = some q)
    (hlow : q.block ∈ g.blocks) (hrun : (attach n d).run g = (.ok c, h)) :
    h.seat? id = if q.block = id then some (.attached n (-q.position)) else g.seat? id := by
  let placed := (g.link n d).setPlacement q.block (.attached n (-q.position))
  have hshape : h.shape = placed.shape := by
    have hfixed := (shape_hides.refreshAround p.block q.block).bind
      (fun l => .pure (⟨n, d, l⟩ : Connection)) placed
    rwa [← attach_run_link hp hq hlow, hrun] at hfixed
  rw [seat?_of_shape hshape, seat?_setPlacement (g := g.link n d) _ hlow]
  rfl

end Graph

namespace Document

open SnapBlocks.Graph

variable {d : Document} {l m : Loading} {g h : Graph} {id : BlockId} {pl : Placement}

/-- Each block lies where the document says, or at a notch from which one of its divots hangs. -/
def Grounded (d : Document) (g : Graph) : Prop :=
  ∀ ⦃id : BlockId⦄ ⦃pl : Placement⦄, g.seat? id = some pl →
    (∃ b, d.blocks[id]? = some b ∧ pl = .root b.position) ∨
      ∃ n e, pl.anchor = some n ∧ g.Linked n e ∧ g.owner e = .ok id

theorem Grounded.grows (P : d.Grounded g) (hgh : g.Grows h)
    (hseat : ∀ id pl, h.seat? id = some pl → g.seat? id = some pl ∨
      ∃ n e, pl.anchor = some n ∧ h.Linked n e ∧ h.owner e = .ok id) : d.Grounded h := by
  intro id pl hpl
  rcases hseat id pl hpl with hold | hnew
  · refine (P hold).imp_right fun ⟨n, e, hn, hl, he⟩ => ⟨n, e, hn, hgh.linked hl, ?_⟩
    rw [owner_congr_stock hgh.stock, he]
  · exact .inr hnew

/-- The block that a new link moves hangs from the notch. -/
theorem Grounded.attach {n e : SnapId} {c : Connection} (P : d.Grounded g) (G : g.Grove)
    (hr : g.linkRejection n e = .ok none) (hmade : (Graph.attach n e).run g = (.ok c, h))
    (hgh : g.Grows h) (hl : h.Linked n e) : d.Grounded h := by
  obtain ⟨p, q, hp, hq, _⟩ := ends_of_linkRejection hr
  refine P.grows hgh fun id pl hpl => ?_
  rw [seat?_attach hp hq (G.block_mem hq) hmade] at hpl
  split at hpl
  next he =>
    cases hpl
    refine .inr ⟨n, e, rfl, hl, ?_⟩
    rw [owner_congr_stock hgh.stock, owner_of_getElem? hq, he]
  next => exact .inl hpl

/-- A load of blocks makes each a root where it was, and moves none. -/
theorem loadBlocks_seats (saved : List (BlockId × SavedBlock))
    (hrun : (loadBlocks saved).run l = (.ok (), m)) (hpl : m.graph.seat? id = some pl) :
    l.graph.seat? id = some pl ∨ ∃ b, (id, b) ∈ saved ∧ pl = .root b.position := by
  induction saved generalizing l with
  | nil =>
    cases hrun
    exact .inl hpl
  | cons p rest ih =>
    obtain ⟨key, b⟩ := p
    let new := Block.fresh key b.definition b.position
    obtain ⟨m₁, hrun₁, hm₁⟩ := loadSegments_keeps
      (l := { l with graph := l.graph.withNew new })
      (P := fun g => g.seat? = (l.graph.withNew new).seat?)
      (fun _ _ _ g hg => (@changeInput_fixes_seats key _ _ _ g).trans hg) b.segments rfl
    rw [loadBlocks, Load.run_bind_ok (by rw [Load.run_onGraph, insertDefinition_run]),
      Load.run_bind_ok hrun₁] at hrun
    rcases ih hrun with hold | ⟨c, hc, he⟩
    · rw [hm₁, seat?_withNew] at hold
      split at hold
      next hkey =>
        cases hold
        exact .inr ⟨b, List.mem_cons.mpr (.inl (Prod.ext hkey.symm rfl)), rfl⟩
      next => exact .inl hold
    · exact .inr ⟨c, .tail _ hc, he⟩

theorem loadBlocks_grounded {catalog : Catalog} {config : GraphConfig}
    (hrun : (loadBlocks d.blocks.toList).run ⟨.empty catalog config, []⟩ = (.ok (), m)) :
    d.Grounded m.graph := by
  intro id pl hpl
  rcases loadBlocks_seats _ hrun hpl with hold | ⟨b, hb, he⟩
  · rw [seat?, getElem?_blocks_empty] at hold
    cases hold
  · exact .inl ⟨b, Table.mem_toList.mp hb, he⟩

/-- A block of which no divot hangs from a notch lies where the document says. -/
theorem Grounded.root {saved : SavedBlock} {b : Block} (P : d.Grounded g)
    (hs : d.blocks[id]? = some saved) (hb : g.blocks[id]? = some b)
    (hno : ∀ n e, g.Linked n e → g.owner e ≠ .ok id) : b.placement = .root saved.position := by
  have hseat : g.seat? id = some b.placement := by
    rw [seat?, hb, Option.map_some]
  rcases P hseat with ⟨saved', hs', hroot⟩ | ⟨n, e, _, hl, he⟩
  · cases hs.symm.trans hs'
    exact hroot
  · exact absurd he (hno n e hl)

/-- **A load of links goes on as long as it can**: each link is made, or it is refused in the end.
-/
theorem loadLinks_saturates (G : l.graph.Grove) (P : d.Grounded l.graph)
    (links : List (SnapId × SavedLink)) (hrun : (loadLinks links).run l = (.ok (), m)) :
    l.graph.Grows m.graph ∧ d.Grounded m.graph ∧
      ∀ p ∈ links, m.graph.Linked p.1 p.2.divotId ∨ m.graph.Refuses p.1 p.2.divotId := by
  induction links generalizing l with
  | nil =>
    cases hrun
    exact ⟨.refl G, P, fun _ hp => nomatch hp⟩
  | cons p rest ih =>
    obtain ⟨n, link⟩ := p
    have hskip {k : Loading} (hgraph : k.graph = l.graph) (hno : l.graph.Refuses n link.divotId)
        (hrun : (loadLinks rest).run k = (.ok (), m)) : l.graph.Grows m.graph ∧
          d.Grounded m.graph ∧ ∀ p ∈ (n, link) :: rest,
            m.graph.Linked p.1 p.2.divotId ∨ m.graph.Refuses p.1 p.2.divotId := by
      obtain ⟨hgrows, hgrounded, hsettled⟩ := ih (hgraph ▸ G) (hgraph ▸ P) hrun
      rw [hgraph] at hgrows
      refine ⟨hgrows, hgrounded, fun p hp => ?_⟩
      rcases List.mem_cons.mp hp with rfl | hp
      · exact .inr (hgrows.refuses G hno)
      · exact hsettled p hp
    rw [loadLinks_cons] at hrun
    split at hrun
    next hknown =>
      split at hrun
      next => cases hrun
      next r hr => exact hskip (k := l.note _) rfl (.inr (.inr ⟨r, hr⟩)) hrun
      next hr =>
        obtain ⟨c, k, hmade, hgrows, hl⟩ := G.attach_grows hr
        have Pk : d.Grounded k := P.attach G hr hmade hgrows hl
        rw [hmade] at hrun
        obtain ⟨hrest, hgrounded, hsettled⟩ :=
          ih (l := { l with graph := k }) hgrows.grove Pk hrun
        refine ⟨hgrows.trans hrest, hgrounded, fun p hp => ?_⟩
        rcases List.mem_cons.mp hp with rfl | hp
        · exact .inl (hrest.linked hl)
        · exact hsettled p hp
    next hknown =>
      refine hskip (k := l.note _) rfl ?_ hrun
      rw [Bool.and_eq_true_iff, not_and_or, Bool.not_eq_true, Bool.not_eq_true] at hknown
      exact hknown.imp_right .inl

theorem loadOffsets_grounded (P : d.Grounded l.graph) (saved : List (BlockId × SavedBlock)) :
    d.Grounded ((loadOffsets saved).run l).2.graph := by
  refine loadOffsets_keeps ?_ saved P
  intro g low b n old offset P hb hpl id pl hseat
  rw [seat?_setPlacement low (Table.mem_iff.mpr ⟨b, hb⟩)] at hseat
  split at hseat
  next he =>
    have hold : g.seat? id = some (.attached n old) := by
      rw [← he, seat?, hb, Option.map_some, hpl]
    cases hseat
    -- a block that hangs from the notch goes on hanging from it, so it is no root
    exact (P hold).imp_left fun ⟨_, _, hroot⟩ => by cases hroot
  next => exact P hseat

/-- **What a load keeps of a table of links.** -/
structure Saturated (d : Document) (g : Graph) : Prop where
  blocks {id : BlockId} : id ∈ g.blocks ↔ id ∈ d.blocks
  /-- Every link is one of the table. -/
  linked {n e : SnapId} : g.Linked n e → ∃ link, d.notches[n]? = some link ∧ link.divotId = e
  /-- No link of the table can be added: it is there, or it is refused. -/
  refused {n : SnapId} {link : SavedLink} : d.notches[n]? = some link →
    ¬ g.Linked n link.divotId → g.Refuses n link.divotId
  /-- A block of which no divot hangs from a notch is a root where it was. -/
  root {id : BlockId} {saved : SavedBlock} {b : Block} : d.blocks[id]? = some saved →
    g.blocks[id]? = some b → (∀ n e, g.Linked n e → g.owner e ≠ .ok id) →
      b.placement = .root saved.position

/-- **A load keeps a table of links to which nothing of the document can be added.** Of a
well-formed definition it takes no more than that it has one divot at most. -/
theorem toGraph_saturated (d : Document) (catalog : Catalog) (config : GraphConfig)
    (hone : ∀ p ∈ d.blocks.toList, p.2.definition.SingleDivot) :
    ∃ g skipped, d.toGraph catalog config = (.ok g, skipped) ∧ d.Saturated g := by
  obtain ⟨m, hblocks, Sm, hmem⟩ := loadBlocks_keeps (l := ⟨.empty catalog config, []⟩)
    (P := Graph.Scattered) Definition.SingleDivot (fun _ _ he S => S.of_wires he)
    (fun _ _ _ _ hx hid S => S.addBlock hid hx) d.blocks.toList Table.toList_keys_nodup
    (fun _ _ => Std.ExtTreeMap.getElem?_empty) hone (.empty catalog config)
  have Gm : m.graph.Grove := Sm.grove
  obtain ⟨notes, h, hlinks, R⟩ := loadLinks_run Gm d.notches.toList
  obtain ⟨hgrows, hground, hsettled⟩ :=
    loadLinks_saturates Gm (loadBlocks_grounded hblocks) _ hlinks
  obtain ⟨g, hoffsets⟩ := loadOffsets_run (l := ⟨h, m.skipped ++ notes⟩) d.blocks.toList
    fun p hp => R.blocks.mpr ((hmem p.1).mpr (.inr (List.mem_map_of_mem hp)))
  have hw : g.wires = h.wires := by
    have := loadOffsets_wires d.blocks.toList ⟨h, m.skipped ++ notes⟩
    rwa [hoffsets] at this
  have hground : d.Grounded g := by
    have := loadOffsets_grounded (l := ⟨h, m.skipped ++ notes⟩) hground d.blocks.toList
    rwa [hoffsets] at this
  have hlast : h.Grows g :=
    ⟨R.grove.of_wires hw.symm, stock_of_wires hw, fun hl => (linked_congr hw).mpr hl⟩
  refine ⟨g, m.skipped ++ notes, ?_, ?_⟩
  · have hload : d.load.run ⟨.empty catalog config, []⟩ = (.ok (), ⟨g, m.skipped ++ notes⟩) := by
      unfold load
      rw [Load.run_bind_ok hblocks, Load.run_bind_ok hlinks, hoffsets]
    rw [toGraph_eq, hload]
    rfl
  refine { blocks := fun {id} => ?_, linked := fun {n e} hl => ?_,
           refused := fun {n link} hlink hno => ?_, root := hground.root }
  · have hkeys : id ∈ m.graph.blocks ↔ id ∈ d.blocks := by
      rw [hmem, Table.mem_iff, Table.mem_iff, List.mem_map]
      simp [Table.mem_toList]
    exact (mem_blocks_of_view hw).trans (R.blocks.trans hkeys)
  · rcases R.linked ((linked_congr hw).mp hl) with hl | ⟨p, hp, rfl, rfl⟩
    · exact absurd hl Sm.not_linked
    · exact ⟨p.2, Table.mem_toList.mp hp, rfl⟩
  · rcases hsettled (n, link) (Table.mem_toList.mpr hlink) with hl | hrefused
    · exact absurd ((linked_congr hw).mpr hl) hno
    · exact hlast.refuses R.grove hrefused

theorem toGraph_saturated_faulty : ∃ g skipped,
    faulty.toGraph ∅ { maxChainHops := 2 } = (.ok g, skipped) ∧ faulty.Saturated g ∧
      (g.snaps["notch-0-a"]?.bind (·.next)) = some "divot-0-b" ∧
      (g.snaps["notch-1-b"]?.bind (·.next)) = none ∧
      (g.linkRejection "notch-1-b" "divot-0-c").toOption = some (some (.tooDeep 3 2)) ∧
      (g.linkRejection "notch-1-a" "divot-0-b").toOption = some (some .alreadyLinked) := by
  obtain ⟨g, skipped, hload, hsaturated⟩ :=
    toGraph_saturated faulty ∅ { maxChainHops := 2 } (by decide)
  refine ⟨g, skipped, hload, hsaturated, ?_⟩
  have hlinks : (faulty.toGraph ∅ { maxChainHops := 2 }).1.toOption.all fun g =>
      (g.snaps["notch-0-a"]?.bind (·.next)) = some "divot-0-b" ∧
        (g.snaps["notch-1-b"]?.bind (·.next)) = none ∧
        (g.linkRejection "notch-1-b" "divot-0-c").toOption = some (some (.tooDeep 3 2)) ∧
        (g.linkRejection "notch-1-a" "divot-0-b").toOption = some (some .alreadyLinked) := by
    decide +kernel
  rw [hload] at hlinks
  exact of_decide_eq_true hlinks

end Document

end SnapBlocks
