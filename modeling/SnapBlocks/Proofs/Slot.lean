import SnapBlocks.Graph.Block
import SnapBlocks.Proofs.Table
import Std.Data.String.ToNat

/-! Snap points of definitions. The id of a snap point determines its block, and within a block
its slot, so that blocks with different ids never share a snap point. -/

namespace SnapBlocks

/-! ## Ids -/

private theorem append_dash_inj {l l' r r' : List Char} (hl : '-' ∉ l) (hl' : '-' ∉ l')
    (h : l ++ '-' :: r = l' ++ '-' :: r') : l = l' ∧ r = r' := by
  induction l generalizing l' with
  | nil =>
    cases l' with
    | nil => simpa using h
    | cons c l' => exact absurd (List.cons.inj h).1 fun hc => hl' (hc ▸ List.mem_cons_self)
  | cons c l ih =>
    cases l' with
    | nil => exact absurd (List.cons.inj h).1 fun hc => hl (hc ▸ List.mem_cons_self)
    | cons c' l' =>
      obtain ⟨rfl, hrest⟩ := List.cons.inj h
      obtain ⟨rfl, rfl⟩ := ih (fun hm => hl (.tail _ hm)) (fun hm => hl' (.tail _ hm)) hrest
      exact ⟨rfl, rfl⟩

private theorem dash_notMem_slug (k : SnapKind) : '-' ∉ k.slug.toList := by
  cases k <;> decide

private theorem dash_notMem_repr (n : Nat) : '-' ∉ (Nat.repr n).toList := by
  intro h
  rw [Nat.toList_repr] at h
  exact absurd (Nat.isDigit_of_mem_toDigits (by decide) (by decide) h) (by decide)

/-- The id of a snap point determines its block, its segment and the word for its kind. -/
theorem SnapId.derive_inj {b b' : BlockId} {i i' : Nat} {k k' : SnapKind}
    (h : SnapId.derive b i k = SnapId.derive b' i' k') : b = b' ∧ i = i' ∧ k.slug = k'.slug := by
  have hchars : k.slug.toList ++ '-' :: ((Nat.repr i).toList ++ '-' :: b.toList) =
      k'.slug.toList ++ '-' :: ((Nat.repr i').toList ++ '-' :: b'.toList) := by
    have := congrArg String.toList h
    simpa [SnapId.derive, toString] using this
  obtain ⟨hslug, hrest⟩ := append_dash_inj (dash_notMem_slug k) (dash_notMem_slug k') hchars
  obtain ⟨hindex, hblock⟩ := append_dash_inj (dash_notMem_repr i) (dash_notMem_repr i') hrest
  exact ⟨String.toList_injective hblock, Nat.repr_injective (String.toList_injective hindex),
    String.toList_injective hslug⟩

theorem Slot.snapId_block {s t : Slot} (h : s.snapId b = t.snapId b') : b = b' :=
  (SnapId.derive_inj h).1

/-! ## Slots of a definition -/

theorem SegmentKind.notchKind_isNotch (count : Nat) (k : SegmentKind) :
    (k.notchKind count).isNotch := by
  cases k with
  | header => rw [notchKind]; split <;> rfl
  | divider | footer => rfl

theorem SegmentKind.notchKind_ne_divot (count : Nat) (k : SegmentKind) :
    k.notchKind count ≠ .primaryDivot := fun h => by
  have hn := k.notchKind_isNotch count
  rw [h] at hn
  exact Bool.noConfusion hn

theorem SegmentKind.notchKind_slug (count : Nat) (k : SegmentKind) :
    (k.notchKind count).slug = "notch" := by
  cases k with
  | header => rw [notchKind]; split <;> rfl
  | divider | footer => rfl

theorem Segment.mem_slots {seg : Segment} {s : Slot} :
    s ∈ seg.slots count i ↔
      (seg.divot ∧ s = ⟨i, seg.id, .primaryDivot⟩) ∨
        (seg.notch ∧ s = ⟨i, seg.id, seg.kind.notchKind count⟩) := by
  unfold slots
  split <;> split <;> simp_all

theorem Definition.mem_slots {d : Definition} {s : Slot} :
    s ∈ d.slots ↔
      ∃ (seg : Segment) (i : Nat), d.segments[i]? = some seg ∧
        s ∈ seg.slots d.segments.length i := by
  simp only [slots, List.mem_flatMap, Prod.exists, List.mem_zipIdx_iff_getElem?]

theorem Definition.segment_of_mem_slots {d : Definition} {s : Slot} (h : s ∈ d.slots) :
    ∃ seg ∈ d.segments, s.segmentId = seg.id := by
  obtain ⟨seg, i, hi, h⟩ := mem_slots.mp h
  refine ⟨seg, List.mem_of_getElem? hi, ?_⟩
  rcases Segment.mem_slots.mp h with ⟨_, rfl⟩ | ⟨_, rfl⟩ <;> rfl

/-- Within a definition the segment and the word for the kind determine the slot. -/
theorem Definition.slot_ext {d : Definition} {s t : Slot} (hs : s ∈ d.slots) (ht : t ∈ d.slots)
    (hi : s.index = t.index) (hk : s.kind.slug = t.kind.slug) : s = t := by
  obtain ⟨seg, i, hseg, hs⟩ := mem_slots.mp hs
  obtain ⟨seg', i', hseg', ht⟩ := mem_slots.mp ht
  have hw := seg.kind.notchKind_slug d.segments.length
  have hw' := seg'.kind.notchKind_slug d.segments.length
  rcases Segment.mem_slots.mp hs with ⟨_, rfl⟩ | ⟨_, rfl⟩ <;>
    rcases Segment.mem_slots.mp ht with ⟨_, rfl⟩ | ⟨_, rfl⟩ <;>
    dsimp only at hi hk <;> subst hi <;> cases hseg.symm.trans hseg'
  · rfl
  · rw [hw] at hk; exact absurd hk (by decide)
  · rw [hw] at hk; exact absurd hk (by decide)
  · rfl

theorem Definition.snapId_inj {d : Definition} {s t : Slot} (hs : s ∈ d.slots)
    (ht : t ∈ d.slots) (h : s.snapId b = t.snapId b') : s = t :=
  let ⟨_, hi, hk⟩ := SnapId.derive_inj h
  slot_ext hs ht hi hk

private theorem pairwise_zipIdx_snd {l : List α} : l.zipIdx.Pairwise fun p q => p.2 ≠ q.2 := by
  have h : (l.zipIdx.map Prod.snd).Nodup := by
    rw [List.zipIdx_map_snd]; exact List.nodup_range'
  exact List.pairwise_map.mp h

theorem Definition.slots_nodup (d : Definition) : d.slots.Nodup := by
  unfold slots
  refine List.pairwise_flatMap.mpr ⟨fun p _ => ?_, pairwise_zipIdx_snd.imp ?_⟩
  · have h := p.1.kind.notchKind_ne_divot d.segments.length
    unfold Segment.slots
    split <;> split <;> simp [h.symm]
  · intro p q hpq s hs t ht hst
    subst hst
    rcases Segment.mem_slots.mp hs with ⟨_, rfl⟩ | ⟨_, rfl⟩ <;>
      rcases Segment.mem_slots.mp ht with ⟨_, ht⟩ | ⟨_, ht⟩ <;>
      exact hpq (congrArg Slot.index ht)

/-- A block has no two snap points with one id. -/
theorem Block.snapPoints_nodup (b : Block) : b.snapPoints.Nodup := by
  refine List.Nodup.map_on (fun s hs t ht h => ?_) b.definition.slots_nodup
  exact Definition.snapId_inj hs ht h

theorem Block.mem_snapPoints {b : Block} {id : SnapId} :
    id ∈ b.snapPoints ↔ ∃ s ∈ b.definition.slots, s.snapId b.id = id := List.mem_map

theorem Definition.slot?_eq_some {d : Definition} (h : d.slot? kind = some s) :
    s ∈ d.slots ∧ s.kind = kind := by
  simpa using List.mem_of_getLast? h

theorem Definition.slot?_eq_none {d : Definition} :
    d.slot? kind = none ↔ ∀ s ∈ d.slots, s.kind ≠ kind := by
  simp [slot?]

theorem Block.isDynamic_iff {b : Block} :
    b.isDynamic ↔ ∃ s ∈ b.definition.slots, s.kind = .secondaryNotch := by
  simp [isDynamic]

/-! ## Definitions without ambiguity -/

/-- A definition by which a block hangs in one place at most, and whose segments and inputs are
told apart by their ids. -/
structure Definition.Coherent (d : Definition) : Prop where
  divot_unique : (d.segments.filter (·.divot)).length ≤ 1
  segments_nodup : (d.segments.map (·.id)).Nodup
  inputs_nodup : ∀ s ∈ d.segments, (s.inputs.map (·.id)).Nodup

/-- A coherent definition in which at most one segment has a notch for the next statement. -/
structure Definition.WellFormed (d : Definition) : Prop extends d.Coherent where
  notch_unique : (d.segments.filter fun s =>
    s.notch && s.kind.notchKind d.segments.length = .primaryNotch).length ≤ 1

namespace Definition

variable {d : Definition} {s t : Slot}

private theorem unique_of_filter {l : List Segment} {p : Segment → Bool}
    (h : (l.filter p).length ≤ 1) {i j : Nat} {a b : Segment}
    (hi : l[i]? = some a)
    (hj : l[j]? = some b) (ha : p a) (hb : p b) : i = j := by
  induction l generalizing i j with
  | nil => simp at hi
  | cons c l ih =>
    have hrest : p c → ∀ {k : Nat} {x : Segment}, l[k]? = some x → ¬ p x := by
      intro hc k x hk hx
      rw [List.filter_cons_of_pos hc] at h
      have hm : x ∈ l.filter p := List.mem_filter.mpr ⟨List.mem_of_getElem? hk, hx⟩
      have := List.length_pos_of_mem hm
      simp only [List.length_cons] at h
      omega
    cases i with
    | zero =>
      obtain rfl : c = a := by simpa using hi
      cases j with
      | zero => rfl
      | succ j => exact absurd hb (hrest ha (by simpa using hj))
    | succ i =>
      cases j with
      | zero =>
        obtain rfl : c = b := by simpa using hj
        exact absurd ha (hrest hb (by simpa using hi))
      | succ j =>
        have h' : (l.filter p).length ≤ 1 :=
          Nat.le_trans (List.Sublist.length_le ((List.sublist_cons_self c l).filter p)) h
        exact congrArg (· + 1) (ih h' hi hj)

/-- If one segment at most gives slots of a kind, there is one such slot at most. -/
private theorem slot_eq_of_filter {kind : SnapKind} {p : Segment → Bool}
    (h : (d.segments.filter p).length ≤ 1)
    (hp : ∀ {seg i u}, u ∈ seg.slots d.segments.length i → u.kind = kind → p seg)
    (hs : s ∈ d.slots) (ht : t ∈ d.slots) (hks : s.kind = kind) (hkt : t.kind = kind) :
    s = t := by
  have hsort {u : Slot} (hu : u ∈ d.slots) (hk : u.kind = kind) :
      ∃ seg, d.segments[u.index]? = some seg ∧ p seg := by
    obtain ⟨seg, i, hseg, hu⟩ := mem_slots.mp hu
    have hindex : u.index = i := by
      rcases Segment.mem_slots.mp hu with ⟨_, rfl⟩ | ⟨_, rfl⟩ <;> rfl
    exact ⟨seg, hindex ▸ hseg, hp hu hk⟩
  obtain ⟨a, ha, hpa⟩ := hsort hs hks
  obtain ⟨b, hb, hpb⟩ := hsort ht hkt
  exact slot_ext hs ht (unique_of_filter h ha hb hpa hpb) (by rw [hks, hkt])

/-- A coherent definition has one divot at most. -/
theorem Coherent.divot_eq (h : d.Coherent) (hs : s ∈ d.slots) (ht : t ∈ d.slots)
    (hks : s.kind = .primaryDivot) (hkt : t.kind = .primaryDivot) : s = t := by
  refine slot_eq_of_filter h.divot_unique (fun {seg _ _} hu hk => ?_) hs ht hks hkt
  rcases Segment.mem_slots.mp hu with ⟨hd, _⟩ | ⟨_, rfl⟩
  · exact hd
  · exact absurd hk (seg.kind.notchKind_ne_divot _)

/-- A well-formed definition has one notch for the next statement at most. -/
theorem WellFormed.notch_eq (h : d.WellFormed) (hs : s ∈ d.slots) (ht : t ∈ d.slots)
    (hks : s.kind = .primaryNotch) (hkt : t.kind = .primaryNotch) : s = t := by
  refine slot_eq_of_filter h.notch_unique (fun hu hk => ?_) hs ht hks hkt
  rcases Segment.mem_slots.mp hu with ⟨_, rfl⟩ | ⟨hn, rfl⟩
  · exact SnapKind.noConfusion hk
  · simpa using ⟨hn, hk⟩

/-- Slots of one kind word in segments of one id are one slot. -/
theorem Coherent.slot_eq (h : d.Coherent) (hs : s ∈ d.slots) (ht : t ∈ d.slots)
    (hid : s.segmentId = t.segmentId) (hk : s.kind.slug = t.kind.slug) : s = t := by
  have hsort {u : Slot} (hu : u ∈ d.slots) :
      (d.segments.map (·.id))[u.index]? = some u.segmentId := by
    obtain ⟨seg, i, hseg, hu⟩ := mem_slots.mp hu
    rcases Segment.mem_slots.mp hu with ⟨_, rfl⟩ | ⟨_, rfl⟩ <;> simp [hseg]
  have hs' := hsort hs
  rw [hid] at hs'
  refine slot_ext hs ht ?_ hk
  have hlt := (List.getElem?_eq_some_iff.mp hs').1
  exact (List.getElem?_inj hlt h.segments_nodup).mp (hs'.trans (hsort ht).symm)

/-- No two chains nest in one segment. -/
theorem Coherent.nests_nodup (h : d.Coherent) :
    ((d.slots.filter (·.kind = .secondaryNotch)).map (·.segmentId)).Nodup := by
  refine List.Nodup.map_on ?_ (d.slots_nodup.filter _)
  intro s hs t ht hst
  obtain ⟨hs, hks⟩ := List.mem_filter.mp hs
  obtain ⟨ht, hkt⟩ := List.mem_filter.mp ht
  have hk : s.kind = t.kind := (of_decide_eq_true hks).trans (of_decide_eq_true hkt).symm
  exact h.slot_eq hs ht hst (congrArg _ hk)

/-- The only slot of its kind is the one that is found. -/
theorem slot?_of_unique (hs : s ∈ d.slots)
    (hunique : ∀ t ∈ d.slots, t.kind = s.kind → t = s) : d.slot? s.kind = some s := by
  cases hq : d.slot? s.kind with
  | none => exact absurd rfl (slot?_eq_none.mp hq s hs)
  | some t =>
    obtain ⟨ht, hkt⟩ := slot?_eq_some hq
    rw [hunique t ht hkt]

/-- The divot of a coherent definition is the one that a block hangs by. -/
theorem Coherent.slot?_divot (h : d.Coherent) (hs : s ∈ d.slots)
    (hk : s.kind = .primaryDivot) : d.slot? .primaryDivot = some s :=
  hk ▸ slot?_of_unique hs fun _ ht hkt => h.divot_eq ht hs (hkt.trans hk) hk

theorem WellFormed.slot?_notch (h : d.WellFormed) (hs : s ∈ d.slots)
    (hk : s.kind = .primaryNotch) : d.slot? .primaryNotch = some s :=
  hk ▸ slot?_of_unique hs fun _ ht hkt => h.notch_eq ht hs (hkt.trans hk) hk

instance : Decidable d.Coherent :=
  decidable_of_iff ((d.segments.filter (·.divot)).length ≤ 1 ∧ (d.segments.map (·.id)).Nodup ∧
      ∀ s ∈ d.segments, (s.inputs.map (·.id)).Nodup)
    ⟨fun ⟨h, h', h''⟩ => ⟨h, h', h''⟩, fun ⟨h, h', h''⟩ => ⟨h, h', h''⟩⟩

instance : Decidable d.WellFormed :=
  decidable_of_iff (d.Coherent ∧ (d.segments.filter fun s =>
      s.notch && s.kind.notchKind d.segments.length = .primaryNotch).length ≤ 1)
    ⟨fun ⟨h, h'⟩ => ⟨h, h'⟩, fun ⟨h, h'⟩ => ⟨h, h'⟩⟩

end Definition

end SnapBlocks
