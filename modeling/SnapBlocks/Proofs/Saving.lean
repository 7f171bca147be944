import SnapBlocks.Document.Restore
import SnapBlocks.Proofs.Settle

/-! What saving a graph writes down: every block, with its place, and every link under the id of
its notch. -/

namespace SnapBlocks.Document

open SnapBlocks.Graph

/-- A document holds some of the blocks of a graph, and the links of some of its notches. -/
structure Records (g : Graph) (ids : BlockId → Prop) (ns : SnapId → Prop) (d : Document) :
    Prop where
  blocks {id : BlockId} {saved : SavedBlock} : d.blocks[id]? = some saved ↔
    ids id ∧ ∃ b, g.blocks[id]? = some b ∧ saveBlock g b = .ok saved
  notches {n : SnapId} {link : SavedLink} : d.notches[n]? = some link ↔
    ns n ∧ saveLink g n = .ok (some link)

variable {ok : Definition → Prop} {g : Graph} {b : Block} {id : BlockId} {n e : SnapId}
variable {p : SnapPoint} {d : Document} {saved : SavedBlock}
variable {ids ids' : BlockId → Prop} {ns ns' : SnapId → Prop}

/-! ## Links -/

theorem saveLink_free (hp : g.snaps[n]? = some p) (hfree : p.next = none) :
    saveLink g n = .ok none := by
  unfold saveLink
  simp only [snap_of_getElem? hp, bind, Except.bind, hfree]
  cases p.kind.isNotch <;> rfl

/-- A link is saved under its notch, with the divot that hangs there. -/
theorem saveLink_linked (H : g.Wired) (hl : g.Linked n e) :
    ∃ link, saveLink g n = .ok (some link) ∧ link.notchId = n ∧ link.divotId = e := by
  obtain ⟨p, q, hp, hq, hnext, _, hk, _⟩ := H.ends hl
  have hsaved : saveLink g n = .ok (some ⟨p.block, q.block, p.id, q.id, p.segmentId, q.segmentId,
      p.kind = .primaryNotch⟩) := by
    unfold saveLink
    simp only [snap_of_getElem? hp, snap_of_getElem? hq, bind, Except.bind, hnext, hk]
    rfl
  exact ⟨_, hsaved, H.snap_id hp, H.snap_id hq⟩

/-- Only links are saved. -/
theorem linked_of_saveLink (H : g.Wired) {link : SavedLink} (h : saveLink g n = .ok (some link)) :
    g.Linked n link.divotId ∧ link.notchId = n := by
  cases hp : g.snaps[n]? with
  | none => simp [saveLink, snap, hp, bind, Except.bind] at h
  | some p =>
    cases hnext : p.next with
    | none =>
      rw [saveLink_free hp hnext] at h
      cases h
    | some e =>
      have hl : g.Linked n e := ⟨p, hp, hnext⟩
      obtain ⟨link', h', hn, rfl⟩ := saveLink_linked H hl
      cases h.symm.trans h'
      exact ⟨hl, hn⟩

theorem exists_saveLink (H : g.Wired) (hp : g.snaps[n]? = some p) :
    ∃ r, saveLink g n = .ok r := by
  cases hnext : p.next with
  | none => exact ⟨none, saveLink_free hp hnext⟩
  | some e =>
    obtain ⟨link, h, _⟩ := saveLink_linked H ⟨p, hp, hnext⟩
    exact ⟨some link, h⟩

/-! ## Writing down -/

/-- What a list holds, or another thing does, when the list is gone through from its head. -/
theorem mem_cons_or {a x : α} {l : List α} {P : Prop} : a ∈ x :: l ∨ P ↔ a ∈ l ∨ x = a ∨ P := by
  rw [List.mem_cons, eq_comm]
  exact or_assoc.trans or_left_comm

namespace Records

theorem empty : Records g (fun _ => False) (fun _ => False) {} where
  blocks {id saved} := by
    rw [show (({} : Document).blocks)[id]? = none from Std.ExtTreeMap.getElem?_empty]
    simp
  notches {n link} := by
    rw [show (({} : Document).notches)[n]? = none from Std.ExtTreeMap.getElem?_empty]
    simp

theorem congr (R : Records g ids ns d)
    (hids : ∀ id saved, (∃ b, g.blocks[id]? = some b ∧ saveBlock g b = .ok saved) →
      (ids id ↔ ids' id))
    (hns : ∀ n link, saveLink g n = .ok (some link) → (ns n ↔ ns' n)) :
    Records g ids' ns' d where
  blocks {id saved} := R.blocks.trans (and_congr_left (hids id saved))
  notches {n link} := R.notches.trans (and_congr_left (hns n link))

theorem block (R : Records g ids ns d) (hb : g.blocks[b.id]? = some b)
    (hsaved : saveBlock g b = .ok saved) :
    Records g (fun id => b.id = id ∨ ids id) ns
      { d with blocks := d.blocks.insert b.id saved } where
  blocks {id saved'} := by
    rw [Table.getElem?_insert]
    split
    next he =>
      subst he
      simp [hb, hsaved]
    next he => simp [he, R.blocks]
  notches := R.notches

theorem link (R : Records g ids ns d) {link : SavedLink} (hlink : saveLink g n = .ok (some link)) :
    Records g ids (fun m => n = m ∨ ns m) { d with notches := d.notches.insert n link } where
  blocks := R.blocks
  notches {m link'} := by
    rw [Table.getElem?_insert]
    split
    next he =>
      subst he
      simp [hlink]
    next he => simp [he, R.notches]

end Records

theorem saveLinks_eq (H : g.Wired) (R : Records g ids ns d) {l : List SnapId}
    (hl : ∀ n ∈ l, ∃ p, g.snaps[n]? = some p) :
    ∃ d', saveLinks g d l = .ok d' ∧ Records g ids (fun n => n ∈ l ∨ ns n) d' := by
  induction l generalizing d ns with
  | nil => exact ⟨d, rfl, R.congr (fun _ _ _ => .rfl) fun _ _ _ => by simp⟩
  | cons n rest ih =>
    obtain ⟨p, hp⟩ := hl n List.mem_cons_self
    obtain ⟨r, hr⟩ := exists_saveLink H hp
    have hrest : ∀ m ∈ rest, ∃ p, g.snaps[m]? = some p := fun m hm => hl m (.tail _ hm)
    rw [saveLinks]
    simp only [hr, bind, Except.bind]
    cases r with
    | none =>
      obtain ⟨d', hd', R'⟩ := ih R hrest
      refine ⟨d', hd', R'.congr (fun _ _ _ => .rfl) fun m link hm => ?_⟩
      have hne : m ≠ n := by
        rintro rfl
        cases hr.symm.trans hm
      simp [hne]
    | some link =>
      obtain ⟨d', hd', R'⟩ := ih (R.link hr) hrest
      rw [← (linked_of_saveLink H hr).2] at hd'
      exact ⟨d', hd', R'.congr (fun _ _ _ => .rfl) fun m _ _ => mem_cons_or.symm⟩

theorem exists_saveBlock (H : g.Stocked) (hplaced : g.Placed) (hb : g.blocks[id]? = some b) :
    ∃ saved, saveBlock g b = .ok saved := by
  obtain ⟨pos, hpos⟩ := hplaced.exists_position (Table.mem_iff.mpr ⟨b, hb⟩)
  unfold saveBlock
  rw [H.block_id hb, hpos]
  exact ⟨_, rfl⟩

theorem saveBlocks_eq (H : g.Wired) (hplaced : g.Placed) (R : Records g ids ns d) {l : List Block}
    (hl : ∀ b ∈ l, g.blocks[b.id]? = some b) :
    ∃ d', saveBlocks g d l = .ok d' ∧ Records g (fun id => (∃ b ∈ l, b.id = id) ∨ ids id)
      (fun n => (∃ b ∈ l, n ∈ b.snapPoints) ∨ ns n) d' := by
  induction l generalizing d ids ns with
  | nil => exact ⟨d, rfl, R.congr (fun _ _ _ => by simp) fun _ _ _ => by simp⟩
  | cons b rest ih =>
    have hb := hl b List.mem_cons_self
    obtain ⟨saved, hsaved⟩ := exists_saveBlock H.toStocked hplaced hb
    obtain ⟨d₁, hd₁, R₁⟩ := saveLinks_eq H (R.block hb hsaved) fun n hn =>
      (H.snap_of_mem hb hn).imp fun _ h => h.1
    obtain ⟨d', hd', R'⟩ := ih R₁ fun c hc => hl c (.tail _ hc)
    rw [saveBlocks]
    simp only [hsaved, hd₁, bind, Except.bind]
    refine ⟨d', hd', R'.congr (fun id _ _ => ?_) fun n _ _ => ?_⟩ <;>
      simp only [List.mem_cons, exists_eq_or_imp] <;> exact or_left_comm.trans or_assoc.symm

/-- **Saving.** A graph is saved whole. -/
theorem ofGraph_eq (S : g.Base ok) :
    ∃ d, ofGraph g = .ok d ∧ Records g (fun _ => True) (fun _ => True) d := by
  have hmem {b : Block} (hb : b ∈ g.blockList) : g.blocks[b.id]? = some b := by
    obtain ⟨p, hp, rfl⟩ := List.mem_map.mp hb
    have hb := Table.mem_toList.mp hp
    rw [S.block_id hb]
    exact hb
  have hlist {id : BlockId} {b : Block} (hb : g.blocks[id]? = some b) : b ∈ g.blockList :=
    List.mem_map.mpr ⟨(id, b), Table.mem_toList.mpr hb, rfl⟩
  obtain ⟨d, hd, R⟩ := saveBlocks_eq S.toWired S.placed .empty fun b => hmem (b := b)
  refine ⟨d, hd, R.congr (fun id saved hb => ?_) fun n link hn => ?_⟩
  · obtain ⟨b, hb, _⟩ := hb
    simp only [or_false, iff_true]
    exact ⟨b, hlist hb, S.block_id hb⟩
  · obtain ⟨p, hp, _⟩ := (linked_of_saveLink S.toWired hn).1
    obtain ⟨b, hb⟩ := S.exists_block hp
    simp only [or_false, iff_true]
    exact ⟨b, hlist hb, S.mem_snapPoints hp hb⟩

end SnapBlocks.Document
