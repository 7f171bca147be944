import SnapBlocks.Json.Decoder
import SnapBlocks.Proofs.Reading
import SnapBlocks.Proofs.Table

/-! Laws of decoders. A decoder restores a value from a tree if it gives the value back whenever
the tree nests no deeper than it may, and finds it malformed otherwise. What a record is made of
may be restored member by member, since each field leaves alone the keys of the others.

The rooms for which a decoder is known to do so are bounded: chains in chains are decoded by
recursion on a number that only stays ahead of the room. -/

namespace SnapBlocks.Json

variable {α β γ σ τ : Type} {n m : Nat} {d : Decoder α} {j : Json} {a : α} {b : β} {key : String}
variable {ms ms' : List (String × Json)} {room p q : Nat}

/-- A value that nests no deeper than it may. -/
def within (depth room : Nat) (a : α) : Except Problem α :=
  if depth ≤ room then .ok a else .error .malformed

theorem within_of_le (h : p ≤ room) : within p room a = .ok a := if_pos h

theorem within_of_lt (h : room < p) : within p room a = .error .malformed :=
  if_neg (Nat.not_le_of_lt h)

theorem within_map (f : α → β) : (within p room a).map f = within p room (f a) := by
  unfold within
  split <;> rfl

theorem within_max (f : α → β → γ) :
    (within p room a >>= fun a => within q room b >>= fun b => pure (f a b)) =
      within (max p q) room (f a b) := by
  unfold within
  by_cases hp : p ≤ room
  · by_cases hq : q ≤ room
    · rw [if_pos hp, if_pos hq, if_pos (Nat.max_le.mpr ⟨hp, hq⟩)]
      rfl
    · rw [if_pos hp, if_neg hq, if_neg fun hm => hq (Nat.max_le.mp hm).2]
      rfl
  · rw [if_neg hp, if_neg fun hm => hp (Nat.max_le.mp hm).1]
    rfl

/-- A level more, in a room that is larger by one. -/
theorem within_succ (f : α → β) :
    (within p room a >>= fun a => closed none (f a)) = within (p + 1) (room + 1) (f a) := by
  rcases Nat.lt_or_ge room p with h | h
  · rw [within_of_lt h, within_of_lt (Nat.succ_lt_succ h)]
    rfl
  · rw [within_of_le h, within_of_le (Nat.succ_le_succ h)]
    rfl

/-- A decoder gives a value back from its tree, if the tree nests no deeper than it may. -/
structure Decoder.Restores (n : Nat) (d : Decoder α) (j : Json) (a : α) : Prop where
  legible : j.Legible
  decode {room : Nat} : room < n → d room j.node = within j.depth room a

theorem legibleItems_iff {items : List Json} : LegibleItems items ↔ ∀ j ∈ items, j.Legible := by
  induction items with
  | nil => simp [LegibleItems]
  | cons j rest ih => simp [LegibleItems, ih]

theorem legibleMembers_iff {members : List (String × Json)} :
    LegibleMembers members ↔ ∀ p ∈ members, p.2.Legible := by
  induction members with
  | nil => simp [LegibleMembers]
  | cons p rest ih => simp [LegibleMembers, ih]

/-! ## Depths -/

section
variable {k : Nat}

theorem itemsDepth_le {items : List Json} : itemsDepth items ≤ k ↔ ∀ j ∈ items, j.depth ≤ k := by
  induction items with
  | nil => simp [itemsDepth]
  | cons j rest ih => rw [itemsDepth, Nat.max_le, ih, List.forall_mem_cons]

theorem membersDepth_le {members : List (String × Json)} :
    membersDepth members ≤ k ↔ ∀ p ∈ members, p.2.depth ≤ k := by
  induction members with
  | nil => simp [membersDepth]
  | cons p rest ih => rw [membersDepth, Nat.max_le, ih, List.forall_mem_cons]

theorem depth_obj_le {members : List (String × Json)} :
    (obj members).depth ≤ k + 1 ↔ ∀ p ∈ members, p.2.depth ≤ k := by
  rw [depth, Nat.add_le_add_iff_right, membersDepth_le]

theorem depth_ofList_le {α : Type} {f : α → Json} {as : List α} :
    (ofList f as).depth ≤ k + 1 ↔ ∀ a ∈ as, (f a).depth ≤ k := by
  rw [ofList, depth, Nat.add_le_add_iff_right, itemsDepth_le, List.forall_mem_map]

theorem depth_ofTable_le {α : Type} {f : α → Json} {t : Table α} :
    (ofTable f t).depth ≤ k + 1 ↔ ∀ p ∈ t.toList, (f p.2).depth ≤ k := by
  rw [ofTable, depth_obj_le, List.forall_mem_map]

theorem depth_str (s : String) : (str s).depth = 0 := rfl

theorem depth_ofText? (s : Option String) : (ofText? s).depth = 0 := by
  cases s with
  | none => rfl
  | some s => rfl

end

/-! ## Values of one kind -/

namespace Decoder

theorem Restores.mono (h : d.Restores n j a) (hm : m ≤ n) : d.Restores m j a :=
  ⟨h.legible, fun hroom => h.decode (Nat.lt_of_lt_of_le hroom hm)⟩

theorem restores_of_flat (hl : j.Legible) (hd : j.depth = 0)
    (h : ∀ room, d room j.node = .ok a) : d.Restores n j a :=
  ⟨hl, fun _ => by rw [h, within_of_le (hd ▸ Nat.zero_le _)]⟩

theorem restores_text (s : String) : text.Restores n (.str s) s :=
  restores_of_flat trivial rfl fun _ => rfl

theorem restores_flag (b : Bool) : flag.Restores n (.bool b) b :=
  restores_of_flat trivial rfl fun _ => rfl

theorem restores_oneOf {names : List (String × α)} (h : valueOf? names key = some a) :
    (oneOf names).Restores n (.str key) a := by
  refine restores_of_flat trivial rfl fun room => ?_
  rw [node, oneOf]
  simp only [h]

theorem restores_ofText? (s : Option String) : text.option.Restores n (.ofText? s) s := by
  cases s with
  | none => exact restores_of_flat trivial rfl fun _ => rfl
  | some s => exact restores_of_flat trivial rfl fun _ => rfl

/-- An optional value that is not `null` is the value itself. -/
theorem Restores.some (h : d.Restores n (.obj ms) a) : d.option.Restores n (.obj ms) (some a) where
  legible := h.legible
  decode {room} hroom := by
    rw [← within_map, ← h.decode hroom]
    rfl

section
variable {f : α → Json}

theorem items_eq {as : List α} (h : ∀ a ∈ as, d.Restores n (f a) a) (hroom : room < n) :
    items d room (itemNodes (as.map f)) = within (itemsDepth (as.map f)) room as := by
  induction as with
  | nil => exact (within_of_le (Nat.zero_le _)).symm
  | cons a rest ih =>
    have ha := (h a List.mem_cons_self).decode hroom
    have hrest := ih fun b hb => h b (.tail _ hb)
    rw [List.map_cons, itemNodes, items, ha, hrest, itemsDepth]
    exact within_max List.cons

theorem restores_list {as : List α} (h : ∀ a ∈ as, d.Restores n (f a) a) :
    d.list.Restores (n + 1) (.ofList f as) as where
  legible := by
    rw [ofList, Legible, legibleItems_iff]
    intro j hj
    obtain ⟨a, ha, rfl⟩ := List.mem_map.mp hj
    exact (h a ha).legible
  decode {room} hroom := by
    rw [ofList, node, depth]
    cases room with
    | zero => rfl
    | succ room =>
      change (items d room (itemNodes (as.map f)) >>= fun as => closed none as) = _
      rw [items_eq h (Nat.lt_of_succ_lt_succ hroom)]
      exact within_succ id

theorem members_eq {l : List (String × α)} (h : ∀ p ∈ l, d.Restores n (f p.2) p.2)
    (hroom : room < n) : members d room (memberNodes (l.map fun p => (p.1, f p.2))) =
      within (membersDepth (l.map fun p => (p.1, f p.2))) room l := by
  induction l with
  | nil => exact (within_of_le (Nat.zero_le _)).symm
  | cons p rest ih =>
    have hp := (h p List.mem_cons_self).decode hroom
    have hrest := ih fun q hq => h q (.tail _ hq)
    rw [List.map_cons, memberNodes, members, Key.text?, hp, hrest, membersDepth]
    exact within_max fun a as => (p.1, a) :: as

theorem restores_table {l : List (String × α)} (h : ∀ p ∈ l, d.Restores n (f p.2) p.2) :
    d.table.Restores (n + 1) (.obj (l.map fun p => (p.1, f p.2))) (Table.ofPairs l) where
  legible := by
    rw [Legible, legibleMembers_iff]
    intro q hq
    obtain ⟨p, hp, rfl⟩ := List.mem_map.mp hq
    exact (h p hp).legible
  decode {room} hroom := by
    rw [node, depth]
    cases room with
    | zero => rfl
    | succ room =>
      change (members d room (memberNodes (l.map fun p => (p.1, f p.2))) >>= fun l =>
        closed none (Table.ofPairs l)) = _
      rw [members_eq h (Nat.lt_of_succ_lt_succ hroom)]
      exact within_succ Table.ofPairs

theorem restores_ofTable {t : Table α} (h : ∀ p ∈ t.toList, d.Restores n (f p.2) p.2) :
    d.table.Restores (n + 1) (.ofTable f t) t := by
  have htable := restores_table h
  rwa [Table.ofPairs_toList] at htable

/-! Any value that is a list of such values comes back, whatever it means. -/

theorem values_eq {js : List Json} (h : ∀ j ∈ js, Restores n value j j) (hroom : room < n) :
    values room (itemNodes js) = within (itemsDepth js) room js := by
  induction js with
  | nil => exact (within_of_le (Nat.zero_le _)).symm
  | cons j rest ih =>
    have hj := (h j List.mem_cons_self).decode hroom
    have hrest := ih fun b hb => h b (.tail _ hb)
    rw [itemNodes, values, hj, hrest, itemsDepth]
    exact within_max List.cons

theorem restores_value_str (s : String) : Restores n value (.str s) (.str s) :=
  restores_of_flat trivial rfl fun _ => rfl

theorem restores_value_arr {js : List Json} (h : ∀ j ∈ js, Restores n value j j) :
    Restores (n + 1) value (.arr js) (.arr js) where
  legible := by
    rw [Legible, legibleItems_iff]
    exact fun j hj => (h j hj).legible
  decode {room} hroom := by
    rw [node, depth]
    cases room with
    | zero => rfl
    | succ room =>
      rw [value, values_eq h (Nat.lt_of_succ_lt_succ hroom)]
      exact within_succ Json.arr

end

end Decoder

/-! ## Records -/

theorem mem_keys_member? {f : α → Json} {o : Option α} {k : String} :
    k ∈ (member? key f o).map (·.1) ↔ k = key ∧ o.isSome := by
  cases o <;> simp [member?]

namespace Fields

variable {f : Fields σ α} {g : Fields τ β} {s s' s'' : σ} {t t' : τ}

/-- A record has no field under a key. -/
def Ignores (f : Fields σ α) (key : String) : Prop :=
  ∀ room node met, f.take room key node met = none

/-- Members are taken in one after the other, unless one nests too deep. -/
inductive Takes (n : Nat) (f : Fields σ α) : List (String × Json) → σ → σ → Prop
  | nil {s : σ} : Takes n f [] s s
  | cons {key : String} {j : Json} {ms : List (String × Json)} {s s' s'' : σ} : j.Legible →
      (∀ room < n, f.take room key j.node s = some (within j.depth room s')) →
      Takes n f ms s' s'' → Takes n f ((key, j) :: ms) s s''

/-- A record is made of what its fields take in. -/
def Restores (n : Nat) (f : Fields σ α) (ms : List (String × Json)) (a : α) : Prop :=
  ∃ met, f.Takes n ms f.start met ∧ f.finish met = .ok a

theorem ignores_field {d : Decoder α} {absent absentItem : Option α} {key' : String}
    (h : key' ≠ key) : (field key d absent absentItem).Ignores key' := fun _ _ _ => if_neg h

namespace Takes

theorem legible (h : f.Takes n ms s s') : LegibleMembers ms := by
  induction h with
  | nil => exact trivial
  | cons hj _ _ ih => exact ⟨hj, ih⟩

theorem append (h : f.Takes n ms s s') (h' : f.Takes n ms' s' s'') :
    f.Takes n (ms ++ ms') s s'' := by
  induction h with
  | nil => exact h'
  | cons hj ht _ ih => exact .cons hj ht (ih h')

theorem map {build : α → β} (h : f.Takes n ms s s') : (f.map build).Takes n ms s s' := by
  induction h with
  | nil => exact .nil
  | cons hj ht _ ih => exact .cons hj ht ih

/-- The first of two records takes what is its own. -/
theorem left (h : f.Takes n ms s s') : (f.and g).Takes n ms (s, t) (s', t) := by
  induction h with
  | nil => exact .nil
  | cons hj ht _ ih =>
    refine .cons hj (fun room hroom => ?_) ih
    unfold Fields.and
    simp only [ht room hroom, within_map]

/-- The second takes what the first leaves alone. -/
theorem right (hi : ∀ p ∈ ms, f.Ignores p.1) (h : g.Takes n ms t t') :
    (f.and g).Takes n ms (s, t) (s, t') := by
  induction h with
  | nil => exact .nil
  | cons hj ht _ ih =>
    refine .cons hj (fun room hroom => ?_) (ih fun p hp => hi p (.tail _ hp))
    unfold Fields.and
    simp only [hi _ List.mem_cons_self _ _ s, ht room hroom, Option.map_some, within_map]

/-- A scan goes on as long as no member nests too deep. -/
theorem scan (h : f.Takes n ms s s') (hroom : room < n) :
    (membersDepth ms ≤ room → f.scan room none s (memberNodes ms) = (s', none)) ∧
      (room < membersDepth ms → (f.scan room none s (memberNodes ms)).2 = some .malformed) := by
  induction h with
  | nil => exact ⟨fun _ => rfl, nofun⟩
  | @cons key j ms s s' s'' hj ht _ ih =>
    rw [memberNodes, membersDepth, Fields.scan, Key.text?]
    simp only [ht room hroom]
    rcases Nat.lt_or_ge room j.depth with hlt | hle
    · rw [within_of_lt hlt]
      exact ⟨fun hm => absurd (Nat.max_le.mp hm).1 (Nat.not_le_of_lt hlt), fun _ => rfl⟩
    · rw [within_of_le hle]
      refine ⟨fun hm => ih.1 (Nat.max_le.mp hm).2, fun hm => ih.2 ?_⟩
      omega

end Takes

namespace Restores

/-- A record is decoded from an object with its members. -/
theorem decoder (h : f.Restores n ms a) : f.decoder.Restores (n + 1) (.obj ms) a := by
  obtain ⟨met, ht, hfinish⟩ := h
  refine ⟨by rw [Legible]; exact ht.legible, fun {room} hroom => ?_⟩
  rw [node, depth]
  cases room with
  | zero => rfl
  | succ room =>
    obtain ⟨hok, herror⟩ := ht.scan (Nat.lt_of_succ_lt_succ hroom)
    rw [Fields.decoder]
    rcases Nat.lt_or_ge room (membersDepth ms) with hlt | hle
    · have hscan : f.scan room none f.start (memberNodes ms) =
          ((f.scan room none f.start (memberNodes ms)).1, some .malformed) :=
        Prod.ext rfl (herror hlt)
      rw [hscan]
      exact (within_of_lt (Nat.succ_lt_succ hlt)).symm
    · rw [hok hle]
      exact hfinish.trans (within_of_le (Nat.succ_le_succ hle)).symm

theorem map {build : α → β} (h : f.Restores n ms a) : (f.map build).Restores n ms (build a) := by
  obtain ⟨met, ht, hfinish⟩ := h
  refine ⟨met, ht.map, ?_⟩
  change (f.finish met).map build = _
  rw [hfinish]
  rfl

/-- A field and the members of its own. -/
theorem and (hf : f.Restores n ms a) (hg : g.Restores n ms' b)
    (hi : ∀ p ∈ ms', f.Ignores p.1) : (f.and g).Restores n (ms ++ ms') (a, b) := by
  obtain ⟨met, ht, hfinish⟩ := hf
  obtain ⟨met', ht', hfinish'⟩ := hg
  refine ⟨(met, met'), ht.left.append (ht'.right hi), ?_⟩
  change (do return (← f.finish met, ← g.finish met')) = _
  rw [hfinish, hfinish']
  rfl

theorem field {absent absentItem : Option α} (h : d.Restores n j a) :
    (field key d absent absentItem).Restores n [(key, j)] a := by
  refine ⟨some a, .cons h.legible (fun room hroom => ?_) .nil, rfl⟩
  change (if key = key then some ((d room j.node).map some) else none) = _
  rw [if_pos rfl, h.decode hroom, within_map]

/-- A field with a value for the case that it is absent. -/
theorem absent {absentItem : Option α} :
    (Fields.field key d (some a) absentItem).Restores n [] a := ⟨none, .nil, rfl⟩

/-- A field whose member is only written when it has a value. -/
theorem member? {f : α → Json} {o : Option α}
    (h : ∀ a ∈ o, d.option.Restores n (f a) (some a)) :
    (omittable key d).Restores n (Json.member? key f o) o := by
  cases o with
  | none => exact absent
  | some a => exact field (h a rfl)

/-- A field whose members stand in front of all others. -/
theorem front {absent absentItem : Option α}
    (hf : (Fields.field key d absent absentItem).Restores n ms a) (hkey : key ∉ ms'.map (·.1))
    (hg : g.Restores n ms' b) :
    ((Fields.field key d absent absentItem).and g).Restores n (ms ++ ms') (a, b) := by
  refine and hf hg fun p hp => ignores_field ?_
  rintro rfl
  exact hkey (List.mem_map_of_mem hp)

theorem cons {absent absentItem : Option α} (h : d.Restores n j a) (hkey : key ∉ ms.map (·.1))
    (hg : g.Restores n ms b) :
    ((Fields.field key d absent absentItem).and g).Restores n ((key, j) :: ms) (a, b) :=
  front (field h) hkey hg

end Restores

end Fields

/-! ## What decoders can give -/

/-- Whatever a decoder gives has a property. -/
structure Decoder.Makes (d : Decoder α) (P : α → Prop) : Prop where
  of_ok {room : Nat} {node : Node} {a : α} : d room node = .ok a → P a

/-- Whatever a record is made into has a property, kept up while its members are taken in. -/
structure Fields.Makes (f : Fields σ α) (P : α → Prop) (S : σ → Prop) : Prop where
  start : S f.start
  take {room : Nat} {key : String} {node : Node} {met met' : σ} : S met →
    f.take room key node met = some (.ok met') → S met'
  finish {met : σ} {a : α} : S met → f.finish met = .ok a → P a
  inOrder {room : Nat} {nodes rest : List Node} {tail : Option Problem} {a : α} :
    f.inOrder room nodes tail = .ok (a, rest) → P a

theorem closed_eq_ok {tail : Option Problem} {a b : α} (h : closed tail a = .ok b) : a = b := by
  cases tail with
  | none => exact Except.ok.inj h
  | some p => cases h

namespace Decoder

variable {P : α → Prop}

theorem Makes.any : d.Makes fun _ => True := ⟨fun _ => trivial⟩

theorem Makes.option (h : d.Makes P) : d.option.Makes fun o => ∀ a ∈ o, P a := by
  refine ⟨fun {room node o} ho a ha => ?_⟩
  unfold Decoder.option at ho
  split at ho
  next => cases ho; cases ha
  next =>
    obtain ⟨b, hb, rfl⟩ := except_map_eq_ok.mp ho
    cases ha
    exact h.of_ok hb

theorem Makes.items (h : d.Makes P) {nodes : List Node} {as : List α}
    (has : items d room nodes = .ok as) : ∀ a ∈ as, P a := by
  induction nodes generalizing as with
  | nil => cases has; nofun
  | cons node rest ih =>
    obtain ⟨a, ha, hs⟩ := except_bind_eq_ok.mp has
    obtain ⟨rest', hrest, hs⟩ := except_bind_eq_ok.mp hs
    cases hs
    exact List.forall_mem_cons.mpr ⟨h.of_ok ha, ih hrest⟩

theorem Makes.list (h : d.Makes P) : d.list.Makes fun as => ∀ a ∈ as, P a := by
  refine ⟨fun {room node as} has => ?_⟩
  unfold Decoder.list at has
  split at has
  next => cases has
  next =>
    obtain ⟨as, hitems, hs⟩ := except_bind_eq_ok.mp has
    cases closed_eq_ok hs
    exact h.items hitems
  next => cases has

theorem Makes.members (h : d.Makes P) {nodes : List (Key × Node)} {l : List (String × α)}
    (hl : members d room nodes = .ok l) : ∀ p ∈ l, P p.2 := by
  induction nodes generalizing l with
  | nil => cases hl; nofun
  | cons node rest ih =>
    obtain ⟨key, _, hs⟩ := except_bind_eq_ok.mp hl
    obtain ⟨a, ha, hs⟩ := except_bind_eq_ok.mp hs
    obtain ⟨rest', hrest, hs⟩ := except_bind_eq_ok.mp hs
    cases hs
    exact List.forall_mem_cons.mpr ⟨h.of_ok ha, ih hrest⟩

theorem Makes.table (h : d.Makes P) : d.table.Makes fun t => ∀ p ∈ t.toList, P p.2 := by
  refine ⟨fun {room node t} ht => ?_⟩
  unfold Decoder.table at ht
  split at ht
  next => cases ht
  next =>
    obtain ⟨l, hmembers, hs⟩ := except_bind_eq_ok.mp ht
    cases closed_eq_ok hs
    exact fun p hp => h.members hmembers p (Table.mem_of_getElem?_ofPairs (Table.mem_toList.mp hp))
  next => cases ht

end Decoder

namespace Fields.Makes

variable {f : Fields σ α} {g : Fields τ β} {P : α → Prop} {Q : β → Prop} {S : σ → Prop}
variable {T : τ → Prop}

theorem field {absent absentItem : Option α} (h : d.Makes P) (ha : ∀ a ∈ absent, P a)
    (hi : ∀ a ∈ absentItem, P a) :
    (Fields.field key d absent absentItem).Makes P fun met => ∀ a ∈ met, P a where
  start := nofun
  take := by
    intro room key' node met met' _ ht
    unfold Fields.field at ht
    dsimp only at ht
    split at ht
    next =>
      split at ht
      next => cases ht
      next =>
        obtain ⟨b, hb, rfl⟩ := except_map_eq_ok.mp (Option.some.inj ht)
        rintro _ ⟨⟩
        exact h.of_ok hb
    next => cases ht
  finish := by
    intro met a hmet hf
    unfold Fields.field at hf
    dsimp only at hf
    split at hf <;> cases hf
    · exact hmet _ rfl
    · exact ha _ rfl
  inOrder := by
    intro room nodes rest tail a hf
    unfold Fields.field at hf
    dsimp only at hf
    split at hf
    next =>
      obtain ⟨b, hb, hs⟩ := except_bind_eq_ok.mp hf
      cases hs
      exact h.of_ok hb
    next =>
      split at hf <;> cases hf
      exact hi _ rfl

theorem required (h : d.Makes P) : (Fields.required key d).Makes P fun met => ∀ a ∈ met, P a :=
  field h nofun nofun

theorem omittable (h : d.Makes P) :
    (Fields.omittable key d).Makes (fun o => ∀ a ∈ o, P a) fun met => ∀ o ∈ met, ∀ a ∈ o, P a :=
  field h.option (by rintro _ ⟨⟩; nofun) (by rintro _ ⟨⟩; nofun)

theorem defaulted (h : d.Makes P) (ha : P a) :
    (Fields.defaulted key d a).Makes P fun met => ∀ a ∈ met, P a :=
  field h (by rintro _ ⟨⟩; exact ha) (by rintro _ ⟨⟩; exact ha)

theorem and (hf : f.Makes P S) (hg : g.Makes Q T) :
    (f.and g).Makes (fun r => P r.1 ∧ Q r.2) fun met => S met.1 ∧ T met.2 where
  start := ⟨hf.start, hg.start⟩
  take := by
    intro room key node met met' hmet ht
    unfold Fields.and at ht
    dsimp only at ht
    split at ht
    next r hr =>
      obtain ⟨s, rfl, rfl⟩ := except_map_eq_ok.mp (Option.some.inj ht)
      exact ⟨hf.take hmet.1 hr, hmet.2⟩
    next =>
      obtain ⟨r, hr, ht⟩ := Option.map_eq_some_iff.mp ht
      obtain ⟨t, rfl, rfl⟩ := except_map_eq_ok.mp ht
      exact ⟨hmet.1, hg.take hmet.2 hr⟩
  finish := by
    intro met r hmet hr
    obtain ⟨a, ha, hs⟩ := except_bind_eq_ok.mp hr
    obtain ⟨b, hb, hs⟩ := except_bind_eq_ok.mp hs
    cases hs
    exact ⟨hf.finish hmet.1 ha, hg.finish hmet.2 hb⟩
  inOrder := by
    intro room nodes rest tail r hr
    obtain ⟨⟨a, nodes⟩, ha, hs⟩ := except_bind_eq_ok.mp hr
    obtain ⟨⟨b, nodes⟩, hb, hs⟩ := except_bind_eq_ok.mp hs
    cases hs
    exact ⟨hf.inOrder ha, hg.inOrder hb⟩

theorem map {build : α → β} (hf : f.Makes P S) (h : ∀ a, P a → Q (build a)) :
    (f.map build).Makes Q S where
  start := hf.start
  take := hf.take
  finish hmet hb := by
    obtain ⟨a, ha, rfl⟩ := except_map_eq_ok.mp hb
    exact h a (hf.finish hmet ha)
  inOrder hb := by
    obtain ⟨⟨a, rest⟩, ha, hs⟩ := except_map_eq_ok.mp hb
    cases hs
    exact h a (hf.inOrder ha)

theorem scan (hf : f.Makes P S) {nodes : List (Key × Node)} {tail p : Option Problem}
    {met met' : σ} (hmet : S met) (h : f.scan room tail met nodes = (met', p)) : S met' := by
  induction nodes generalizing met with
  | nil => cases h; exact hmet
  | cons m rest ih =>
    obtain ⟨key, node⟩ := m
    rw [Fields.scan] at h
    split at h
    next => cases h; exact hmet
    next =>
      split at h
      next ht => exact ih (hf.take hmet ht) h
      next => cases h; exact hmet
      next =>
        split at h
        next => exact ih hmet h
        next => cases h; exact hmet

theorem decoder (hf : f.Makes P S) : f.decoder.Makes P := by
  refine ⟨fun {room node a} ha => ?_⟩
  unfold Fields.decoder at ha
  split at ha
  next => cases ha
  next =>
    split at ha
    next hscan => exact hf.finish (hf.scan hf.start hscan) ha
    next => cases ha
  next => cases ha
  next =>
    obtain ⟨⟨b, rest⟩, hb, hs⟩ := except_bind_eq_ok.mp ha
    dsimp only at hs
    split at hs
    next =>
      cases closed_eq_ok hs
      exact hf.inOrder hb
    next => cases hs
  next => cases ha

end Fields.Makes

/-! ## Whole texts -/

/-- **A value comes back from its text**, if the text nests no deeper than it may. -/
theorem Decoder.Restores.decode_toPretty (h : d.Restores (levels + 1) j a) :
    Json.decode d j.toPretty = within j.depth levels a := by
  unfold Json.decode
  rw [h.legible.readNode_pretty]
  change (d levels j.node >>= fun a => closed none a) = _
  rw [h.decode (Nat.lt_succ_self _)]
  unfold within
  split <;> rfl

/-- What comes of a text is what the decoder makes. -/
theorem Decoder.Makes.of_decode {P : α → Prop} {text : String} (h : d.Makes P)
    (ha : Json.decode d text = .ok a) : P a := by
  obtain ⟨b, hb, hs⟩ := except_bind_eq_ok.mp ha
  cases closed_eq_ok hs
  exact h.of_ok hb

end SnapBlocks.Json
