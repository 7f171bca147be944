import SnapBlocks.Proofs.Rewire

/-! Redrawing. An operation that makes or breaks a link answers the blocks that it has laid out anew,
so that they are drawn again. `Graph.look` is what is drawn of a block: its height, the heights of
what hangs in it, and the places of its snap points. A pass upwards changes the look of the blocks
that it answers and of no other (`Graph.Redraws`), and this goes through one pass after another. -/

namespace SnapBlocks

/-- What is drawn of a block. -/
structure Look where
  height : Float
  /-- The height of what hangs inside of each segment, by segment id. -/
  extra : Table Float
  /-- The places of its snap points, segment by segment, from the origin of the block. -/
  places : List (Option Point)

section
variable {xs ys : List String} {x : String}

theorem appendNew_cons (xs ys : List String) (y : String) :
    appendNew xs (y :: ys) = appendNew (if xs.contains y then xs else xs ++ [y]) ys := rfl

theorem mem_appendNew : x ∈ appendNew xs ys ↔ x ∈ xs ∨ x ∈ ys := by
  induction ys generalizing xs with
  | nil => simp [appendNew]
  | cons y rest ih =>
    rw [appendNew_cons, ih]
    split
    next hy =>
      have hy : y ∈ xs := by simpa using hy
      constructor
      · exact fun h => h.imp_right (.tail y)
      · rintro (hx | hx)
        · exact .inl hx
        · rcases List.mem_cons.mp hx with rfl | hx
          · exact .inl hy
          · exact .inr hx
    next => simp [or_assoc]

theorem nodup_appendNew (hxs : xs.Nodup) : (appendNew xs ys).Nodup := by
  induction ys generalizing xs with
  | nil => exact hxs
  | cons y rest ih =>
    rw [appendNew_cons]
    apply ih
    split
    next => exact hxs
    next hy => exact List.concat_eq_append ▸ hxs.concat (by simpa using hy)

end

namespace Graph

variable {ok : Definition → Prop} {g h k : Graph} {b : Block} {id low up x y : BlockId}
variable {n d i : SnapId} {p q : SnapPoint} {l l' : List BlockId} {on : BlockId → Prop}
variable {c : Connection} {room : Nat} {start : BlockId}

/-- How a block is drawn. -/
def look (g : Graph) (id : BlockId) : Option Look :=
  g.blocks[id]?.map fun b =>
    ⟨b.height, b.extra, b.snapPoints.map fun i => g.snaps[i]?.map (·.position)⟩

/-- The effect of a pass that answers the blocks it has laid out: they are some of those that it goes
through, each is answered once, and no other block looks different. -/
structure Redraws (g : Graph) (on : BlockId → Prop) (l : List BlockId) (h : Graph) : Prop where
  shape : h.shape = g.shape
  listed {x : BlockId} : x ∈ l → on x ∧ ∃ b, g.blocks[x]? = some b ∧ b.isDynamic
  nodup : l.Nodup
  unlisted {x : BlockId} : x ∉ l → h.look x = g.look x

/-! ## Looks -/

/-- The look of a block depends on its sizes and on the places of its snap points. -/
theorem look_congr (hb : h.blocks[x]?.map Block.sizes = g.blocks[x]?.map Block.sizes)
    (hs : ∀ b, g.blocks[x]? = some b → ∀ i ∈ b.snapPoints,
      h.snaps[i]?.map (·.position) = g.snaps[i]?.map (·.position)) : h.look x = g.look x := by
  unfold look
  cases hgb : g.blocks[x]? with
  | none =>
    rw [hgb, Option.map_none, Option.map_eq_none_iff] at hb
    rw [hb, Option.map_none, Option.map_none]
  | some b =>
    rw [hgb, Option.map_some, Option.map_eq_some_iff] at hb
    obtain ⟨c, hc, hsizes⟩ := hb
    obtain ⟨hid, hdef, hextra, hheight⟩ := Block.eq_of_sizes hsizes
    have hpoints : c.snapPoints = b.snapPoints := by rw [Block.snapPoints, hid, hdef]; rfl
    rw [hc, Option.map_some, Option.map_some, hextra, hheight, hpoints]
    exact congrArg (fun places => some (Look.mk _ _ places)) (List.map_congr_left (hs b hgb))

/-- What looks the same has its snap points at the same places. -/
theorem position_of_look (H : g.Stocked) (heq : h.stock = g.stock)
    (hlook : h.look p.block = g.look p.block) (hp : g.snaps[i]? = some p)
    (hq : h.snaps[i]? = some q) : q.position = p.position := by
  obtain ⟨b, hb⟩ := H.exists_block hp
  obtain ⟨c, hc, hbc⟩ := exists_block_of_view heq.symm hb
  obtain ⟨hid, hdef⟩ := Block.eq_of_stem hbc
  have hpoints : c.snapPoints = b.snapPoints := by rw [Block.snapPoints, ← hid, ← hdef]; rfl
  rw [look, look, hb, hc, Option.map_some, Option.map_some, hpoints] at hlook
  have hplaces := congrArg Look.places (Option.some.inj hlook)
  have hi := List.map_eq_map_iff.mp hplaces i (H.mem_snapPoints hp hb)
  rw [hp, hq] at hi
  exact Option.some.inj hi

theorem look_of_tailless (heq : h.tailless = g.tailless) : h.look x = g.look x := by
  refine look_congr ?_ fun b _ i _ => ?_
  · have hx := congrArg (Option.map Block.sizes) (blocks_eq_of_view heq x)
    rwa [Option.map_map, Option.map_map] at hx
  · have hi := snaps_eq_of_view heq i
    simp only [Option.map_id'] at hi
    rw [hi]

theorem look_link (hne : n ≠ d) (pl : Placement) :
    ((g.link n d).setPlacement low pl).look x = g.look x := by
  refine look_congr ?_ fun b _ i _ => ?_
  · rw [getElem?_blocks_setPlacement]
    change Option.map _ (if low = x then g.blocks[x]?.map _ else g.blocks[x]?) = _
    split
    · cases g.blocks[x]? <;> rfl
    · rfl
  · change (g.link n d).snaps[i]?.map _ = _
    rw [getElem?_snaps_link hne]
    cases g.snaps[i]? with
    | none => simp
    | some p => split <;> [rfl; (split <;> rfl)]

theorem look_cutAt {ids : List SnapId} : (g.cutAt ids).look x = g.look x := by
  refine look_congr ?_ fun b _ i _ => ?_
  · rw [getElem?_blocks_cutAt]
    cases g.blocks[x]? with
    | none => rfl
    | some b => exact congrArg some (Block.sizes_of_core (Block.core_putDown b).1)
  · rw [getElem?_snaps_cutAt]
    cases g.snaps[i]? <;> rfl

/-! ## Passes -/

theorem Redraws.mono {on' : BlockId → Prop} (hr : g.Redraws on l h) (hon : ∀ x, on x → on' x) :
    g.Redraws on' l h :=
  { hr with listed := fun hx => (hr.listed hx).imp_left (hon _) }

/-- One pass after another. -/
theorem Redraws.trans {on' : BlockId → Prop} {m : List BlockId} (hg : g.Redraws on l h)
    (hh : h.Redraws on' l' k) (hnodup : m.Nodup) (hm : ∀ x, x ∈ m ↔ x ∈ l ∨ x ∈ l') :
    g.Redraws (fun x => on x ∨ on' x) m k where
  shape := hh.shape.trans hg.shape
  listed {x} hx := by
    rcases (hm x).mp hx with hx | hx
    · exact (hg.listed hx).imp_left .inl
    · obtain ⟨hon, b, hb, hd⟩ := hh.listed hx
      obtain ⟨c, hc, hbc⟩ := exists_block_of_view hg.shape hb
      refine ⟨.inr hon, c, hc, ?_⟩
      rwa [Block.isDynamic, ← (Block.eq_of_bare hbc).2.1]
  nodup := hnodup
  unlisted {x} hx := by
    rw [hm, not_or] at hx
    exact (hh.unlisted hx.2).trans (hg.unlisted hx.1)

theorem look_refreshed (H : g.Stocked) (hb : g.blocks[id]? = some b) (hne : id ≠ x) :
    (g.refreshed b).look x = g.look x := by
  refine look_congr ?_ fun c hc i hi => ?_
  · rw [getElem?_blocks_refreshed_ne H hb hne]
  · have hno : i ∉ (g.measured b).snapPoints := fun hm => hne (H.eq_of_mem_snapPoints hb hc hm hi)
    rw [refreshed, getElem?_snaps_placeBlock_of_notMem hno]
    rfl

theorem refreshHeight_redraws (H : g.Forest) (hid : id ∈ g.blocks) :
    ∃ l h, (refreshHeight id).run g = (.ok l, h) ∧ g.Redraws (id = ·) l h := by
  obtain ⟨b, hb⟩ := Table.mem_iff.mp hid
  by_cases hd : b.isDynamic
  · refine ⟨[id], g.refreshed b, refreshHeight_run_of_dynamic H hb hd, {
      shape := shape_of_flat flat_refreshed
      listed := fun hx => ?_
      nodup := List.nodup_singleton id
      unlisted := fun hx => look_refreshed H.toStocked hb fun he => hx (he ▸ List.mem_cons_self) }⟩
    cases List.mem_singleton.mp hx
    exact ⟨rfl, b, hb, hd⟩
  · exact ⟨[], g, refreshHeight_run_of_static hb hd, rfl, nofun, List.nodup_nil, fun _ => rfl⟩

/-- On the way up every block is passed once, as the way does not come back to one. -/
theorem refreshHeights_redraws (H : g.Forest) (hid : id ∈ g.blocks)
    (hrun : (refreshHeights start room (some id)).run g = (.ok l, h)) :
    g.Redraws (g.Under id) l h := by
  induction room generalizing g id l with
  | zero => cases hrun
  | succ room ih =>
    obtain ⟨here, g₁, hhere, hr⟩ := refreshHeight_redraws H hid
    have hw : g₁.wires = g.wires := wires_of_shape hr.shape
    rw [refreshHeights, Edit.run_bind_ok hhere] at hrun
    obtain ⟨up?, _, hask, hrest⟩ := Edit.run_bind_eq_ok.mp hrun
    obtain ⟨above, _, habove, hdone⟩ := Edit.run_bind_eq_ok.mp hrest
    cases hdone
    rw [Edit.run_ask, predecessor_congr hw] at hask
    obtain ⟨hup, rfl⟩ := Prod.mk.inj hask
    cases up? with
    | none =>
      rw [show (refreshHeights start room none).run g₁ = (.ok [], g₁) by cases room <;> rfl]
        at habove
      cases habove
      rw [List.append_nil]
      exact hr.mono fun x he => he ▸ .refl
    | some up =>
      have hh : g.HangsFrom id up := hup
      have hr' := ih (H.of_wires hw.symm) ((mem_blocks_of_view hw).mpr (H.hangsFrom_mem hh)) habove
      have hdisjoint : here.Disjoint above := fun x hx hx' => by
        obtain ⟨rfl, _⟩ := hr.listed hx
        exact H.not_under_of_hangsFrom hh ((under_congr hw).mp (hr'.listed hx').1)
      refine (hr.trans hr' (hr.nodup.append hr'.nodup hdisjoint) fun x => List.mem_append).mono ?_
      rintro x (rfl | hx)
      · exact .refl
      · exact .head hh ((under_congr hw).mp hx)

theorem adjustHeight_redraws (H : g.Forest) (hid : id ∈ g.blocks)
    (hrun : (adjustHeight id).run g = (.ok l, h)) : g.Redraws (g.Under id) l h := by
  have hheights : (refreshHeights id g.config.maxChainHops (some id)).run g = (.ok l, h) := hrun
  exact refreshHeights_redraws H hid hheights

/-- Refreshing tails shows nowhere. -/
theorem calculateDeepest_redraws (hrun : (calculateDeepest id).run g = (r, h)) :
    g.Redraws (fun _ => False) [] h := by
  have htailless := tailless_hides.calculateDeepest id g
  rw [hrun] at htailless
  exact ⟨shape_of_tailless htailless, nofun, List.nodup_nil, fun _ => look_of_tailless htailless⟩

/-- Both ways up from a link are laid out, and answered as one list. -/
theorem refreshAround_redraws (H : g.Forest) (hup : up ∈ g.blocks) (hlow : low ∈ g.blocks)
    (hrun : (refreshAround up low).run g = (.ok l, h)) :
    g.Redraws (fun x => g.Under up x ∨ g.Under low x) l h := by
  unfold refreshAround at hrun
  obtain ⟨_, g₁, hrun₁, hrun⟩ := Edit.run_bind_eq_ok.mp hrun
  obtain ⟨_, g₂, hrun₂, hrun⟩ := Edit.run_bind_eq_ok.mp hrun
  obtain ⟨above, g₃, hrun₃, hrun⟩ := Edit.run_bind_eq_ok.mp hrun
  obtain ⟨below, g₄, hrun₄, hrun⟩ := Edit.run_bind_eq_ok.mp hrun
  cases hrun
  have hr₂ := (calculateDeepest_redraws hrun₁).trans (calculateDeepest_redraws hrun₂)
    List.nodup_nil fun _ => by simp
  have hw₂ : g₂.wires = g.wires := wires_of_shape hr₂.shape
  have hr₃ := adjustHeight_redraws (H.of_wires hw₂.symm) ((mem_blocks_of_view hw₂).mpr hup) hrun₃
  have hw₃ : g₃.wires = g.wires := (wires_of_shape hr₃.shape).trans hw₂
  have hr₄ := adjustHeight_redraws (H.of_wires hw₃.symm) ((mem_blocks_of_view hw₃).mpr hlow) hrun₄
  have hnodup : (appendNew above below).Nodup := nodup_appendNew hr₃.nodup
  have hr := hr₂.trans (hr₃.trans hr₄ hnodup fun _ => mem_appendNew) hnodup fun _ => by simp
  refine hr.mono ?_
  rintro x ((h | h) | hx | hx)
  · exact h.elim
  · exact h.elim
  · exact .inl ((under_congr hw₂).mp hx)
  · exact .inr ((under_congr hw₃).mp hx)

/-! ## Signals -/

/-- The blocks that are answered with a link that was made or broken are those to draw again: every
block that looks different is among them, each of them may hold nested chains and is a block of the
link or stands above one, and none is answered twice. -/
structure Signals (g : Graph) (c : Connection) (h : Graph) : Prop where
  complete {x : BlockId} : h.look x ≠ g.look x → x ∈ c.relayout
  dynamic {x : BlockId} : x ∈ c.relayout → ∃ b, h.blocks[x]? = some b ∧ b.isDynamic
  around {x : BlockId} : x ∈ c.relayout →
    ∃ i y, (i = c.notch ∨ i = c.divot) ∧ h.owner i = .ok y ∧ h.Under y x
  nodup : c.relayout.Nodup

/-- A refresh around a link signals what looks different since before the link was changed. -/
theorem Redraws.signals (hr : k.Redraws (fun x => k.Under up x ∨ k.Under low x) c.relayout h)
    (hlook : ∀ x, k.look x = g.look x) (hn : k.owner c.notch = .ok up)
    (hd : k.owner c.divot = .ok low) : g.Signals c h where
  complete {x} hx := by
    by_contra hno
    exact hx ((hr.unlisted hno).trans (hlook x))
  dynamic {x} hx := by
    obtain ⟨_, b, hb, hdynamic⟩ := hr.listed hx
    obtain ⟨c, hc, hbc⟩ := exists_block_of_view hr.shape.symm hb
    refine ⟨c, hc, ?_⟩
    rwa [Block.isDynamic, ← (Block.eq_of_bare hbc).2.1]
  around {x} hx := by
    have hw := wires_of_shape hr.shape
    obtain ⟨hu | hu, _⟩ := hr.listed hx
    · exact ⟨_, _, .inl rfl, (owner_congr hw _).trans hn, (under_congr hw).mpr hu⟩
    · exact ⟨_, _, .inr rfl, (owner_congr hw _).trans hd, (under_congr hw).mpr hu⟩
  nodup := hr.nodup

/-- A change of links moves no snap point to another block. -/
theorem Stocked.owner_of_stock (H : g.Stocked) (hstock : k.stock = g.stock)
    (hp : g.snaps[n]? = some p) : p.block ∈ k.blocks ∧ k.owner n = .ok p.block :=
  ⟨(mem_blocks_of_view hstock).mpr (H.block_mem hp),
    (owner_congr_stock hstock n).trans (owner_of_getElem? hp)⟩

theorem Sound.signals_connect (S : g.Sound ok)
    (hrun : (Graph.connect n d).run g = (.ok (.connected c), h)) :
    c.notch = n ∧ c.divot = d ∧ g.Signals c h := by
  cases S.linking hrun with
  | @connected p q l _ hp hq J hrefresh =>
    let made := (g.link n d).setPlacement q.block (.attached n (-q.position))
    have B : made.Base ok := S.toBase.link hp hq J _
    have hstock : made.stock = g.stock := by rw [stock_setPlacement, stock_link]
    obtain ⟨hup, hn⟩ := S.owner_of_stock hstock hp
    obtain ⟨hlow, hd⟩ := S.owner_of_stock hstock hq
    have hr := refreshAround_redraws B.toForest hup hlow hrefresh
    exact ⟨rfl, rfl, hr.signals (c := ⟨n, d, l⟩) (fun _ => look_link (J.ends_ne hp hq) _) hn hd⟩

theorem Sound.signals_disconnect (S : g.Sound ok)
    (hrun : (Graph.disconnect d).run g = (.ok (.detached c), h)) :
    g.Linked c.notch d ∧ c.divot = d ∧ g.Signals c h := by
  cases S.unlinking hrun with
  | @detached n p q l _ hl hp hq hrefresh =>
    obtain ⟨hup, hn⟩ := S.owner_of_stock stock_cutAt hp
    obtain ⟨hlow, hd⟩ := S.owner_of_stock stock_cutAt hq
    have hr := refreshAround_redraws (S.toForest.cutAt [n]) hup hlow hrefresh
    exact ⟨hl, rfl, hr.signals (c := ⟨n, d, l⟩) (fun _ => look_cutAt) hn hd⟩

/-- **Redraw signals are complete.** With a link that is made or broken, all blocks that look
different afterwards are answered, and no blocks but those on the ways up from it. -/
theorem Reachable.signals_complete (hg : Reachable Definition.WellFormed g) :
    (∀ n d c h, (connect n d).run g = (.ok (.connected c), h) →
      c.notch = n ∧ c.divot = d ∧ g.Signals c h) ∧
    ∀ d c h, (disconnect d).run g = (.ok (.detached c), h) →
      g.Linked c.notch d ∧ c.divot = d ∧ g.Signals c h := by
  have S := hg.sound fun _ hd => hd.toCoherent
  exact ⟨fun _ _ _ _ hrun => S.signals_connect hrun, fun _ _ _ hrun => S.signals_disconnect hrun⟩

/-- The loop shrinks when its body is pulled off, and is to be drawn again. -/
theorem signals_complete_hovering :
    ∃ c h, (disconnect "divot-0-b").run hovering = (.ok (.detached c), h) ∧
      hovering.Signals c h ∧ c.relayout = ["a"] ∧ h.look "a" ≠ hovering.look "a" := by
  have hruns : ((disconnect "divot-0-b").run hovering).1 =
        .ok (.detached ⟨"notch-0-a", "divot-0-b", ["a"]⟩) ∧
      (((disconnect "divot-0-b").run hovering).2.look "a").map (·.height) ≠
        (hovering.look "a").map (·.height) := by decide +kernel
  obtain ⟨hout, hheight⟩ := hruns
  obtain ⟨_, hdisconnect⟩ := Reachable.signals_complete reachable_hovering
  rcases hrun : (disconnect "divot-0-b").run hovering with ⟨r, h⟩
  rw [hrun] at hout hheight
  obtain rfl : r = _ := hout
  obtain ⟨_, _, hsignals⟩ := hdisconnect _ _ _ hrun
  refine ⟨_, h, rfl, hsignals, rfl, fun he => hheight ?_⟩
  rw [he]

end Graph

end SnapBlocks
