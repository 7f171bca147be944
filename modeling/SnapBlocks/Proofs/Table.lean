import SnapBlocks.Table
import Mathlib.Data.List.Nodup
import Mathlib.Data.List.Perm.Subperm

/-! Laws of the data that everything is made of: results that may be errors, and finite maps and
sets, with equality of keys in place of comparison. -/

namespace SnapBlocks

section
variable {ε α β : Type} {x : Except ε α} {a : α} {b : β} {e : ε}

theorem except_bind_eq_ok {f : α → Except ε β} :
    (x >>= f) = .ok b ↔ ∃ a, x = .ok a ∧ f a = .ok b := by
  cases x with
  | error e => exact ⟨nofun, fun ⟨_, h, _⟩ => nomatch h⟩
  | ok a => exact ⟨fun h => ⟨a, rfl, h⟩, fun ⟨_, h, hf⟩ => by cases h; exact hf⟩

theorem except_map_eq_ok {f : α → β} : x.map f = .ok b ↔ ∃ a, x = .ok a ∧ f a = b := by
  cases x with
  | error e => exact ⟨nofun, fun ⟨_, h, _⟩ => nomatch h⟩
  | ok a => exact ⟨fun h => ⟨a, rfl, Except.ok.inj h⟩, fun ⟨_, h, hf⟩ => by cases h; rw [← hf]; rfl⟩

theorem except_eq_error_of_map {f : α → β} (h : x.map f = .error e) : x = .error e := by
  cases x with
  | error e' => exact congrArg Except.error (Except.error.inj h)
  | ok a => cases h

theorem except_eq_ok_of_toOption (h : x.toOption = some a) : x = .ok a := by
  cases x with
  | error e => cases h
  | ok c => exact congrArg Except.ok (Option.some.inj h)

end

theorem Ascending.keys_nodup {pairs : List (String × α)} (h : Ascending pairs) :
    (pairs.map (·.1)).Nodup := by
  refine List.pairwise_map.mpr (h.imp fun {p q} hlt he => ?_)
  rw [he] at hlt
  exact String.lt_irrefl _ hlt

namespace Table

variable {α β : Type} {t u : Table α}

theorem getElem?_insert (k a : String) (v : α) :
    (t.insert k v)[a]? = if k = a then some v else t[a]? := by
  simp [Std.ExtTreeMap.getElem?_insert]

theorem getElem?_erase (k a : String) :
    (t.erase k)[a]? = if k = a then none else t[a]? := by
  simp [Std.ExtTreeMap.getElem?_erase]

theorem getElem?_modify (k a : String) (f : α → α) :
    (t.modify k f)[a]? = if k = a then t[a]?.map f else t[a]? := by
  rw [Std.ExtTreeMap.getElem?_modify]
  by_cases h : k = a <;> simp [h]

theorem getElem?_modify_self (k : String) (f : α → α) :
    (t.modify k f)[k]? = t[k]?.map f := by
  rw [getElem?_modify, if_pos rfl]

theorem getElem?_modify_ne {k a : String} (h : k ≠ a) (f : α → α) :
    (t.modify k f)[a]? = t[a]? := by
  rw [getElem?_modify, if_neg h]

theorem getElem?_eraseAll (keys : List String) (a : String) :
    (keys.foldl (·.erase ·) t)[a]? = if a ∈ keys then none else t[a]? := by
  induction keys generalizing t with
  | nil => simp
  | cons k rest ih =>
    rw [List.foldl_cons, ih, getElem?_erase]
    by_cases h : a ∈ rest
    · simp [h]
    · simp [h, eq_comm (a := a)]

theorem mem_iff {k : String} : k ∈ t ↔ ∃ v, t[k]? = some v := by
  rw [Std.ExtTreeMap.mem_iff_isSome_getElem?, Option.isSome_iff_exists]

theorem mem_toList {p : String × α} : p ∈ t.toList ↔ t[p.1]? = some p.2 :=
  Std.ExtTreeMap.mem_toList_iff_getElem?_eq_some

theorem ext (h : ∀ k : String, t[k]? = u[k]?) : t = u :=
  Std.ExtTreeMap.ext_getElem? h

theorem insert_insert (k : String) (v w : α) : (t.insert k v).insert k w = t.insert k w := by
  refine ext fun a => ?_
  simp only [getElem?_insert]
  split <;> rfl

theorem insert_self {k : String} {v : α} (h : t[k]? = some v) : t.insert k v = t := by
  refine ext fun a => ?_
  rw [getElem?_insert]
  split
  next he => rw [← he, h]
  next => rfl

/-- Keys are listed in strictly ascending order. -/
theorem toList_ascending : Ascending t.toList := by
  refine Std.ExtTreeMap.ordered_keys_toList.imp fun h => ?_
  exact compareOfLessAndEq_eq_lt.mp h

theorem toList_keys_nodup : (t.toList.map (·.1)).Nodup := toList_ascending.keys_nodup

/-- There are no more distinct keys than entries. -/
theorem length_le_size {keys : List String} (hn : keys.Nodup) (h : ∀ k ∈ keys, k ∈ t) :
    keys.length ≤ t.size := by
  rw [← Std.ExtTreeMap.length_keys]
  exact (List.subperm_of_subset hn fun k hk => Std.ExtTreeMap.mem_keys.mpr (h k hk)).length_le

theorem getElem?_foldl_insert_of_notMem {pairs : List (String × α)} {k : String}
    (h : ∀ p ∈ pairs, p.1 ≠ k) (t : Table α) :
    (pairs.foldl (fun t p => t.insert p.1 p.2) t)[k]? = t[k]? := by
  induction pairs generalizing t with
  | nil => rfl
  | cons p rest ih =>
    rw [List.foldl_cons, ih fun q hq => h q (.tail _ hq), getElem?_insert,
      if_neg (h p List.mem_cons_self)]

/-- With distinct keys every pair is found under its key. -/
theorem getElem?_foldl_insert_of_mem {pairs : List (String × α)}
    (hn : (pairs.map (·.1)).Nodup) {p : String × α} (h : p ∈ pairs) (t : Table α) :
    (pairs.foldl (fun t p => t.insert p.1 p.2) t)[p.1]? = some p.2 := by
  induction pairs generalizing t with
  | nil => simp at h
  | cons q rest ih =>
    rw [List.map_cons, List.nodup_cons] at hn
    rw [List.foldl_cons]
    rcases List.mem_cons.mp h with rfl | h
    · have hne : ∀ q ∈ rest, q.1 ≠ p.1 := fun q hq he => hn.1 (he ▸ List.mem_map_of_mem hq)
      rw [getElem?_foldl_insert_of_notMem hne, getElem?_insert, if_pos rfl]
    · exact ih hn.2 h _

theorem getElem?_ofPairs_of_mem {pairs : List (String × α)} (hn : (pairs.map (·.1)).Nodup)
    {p : String × α} (h : p ∈ pairs) : (ofPairs pairs)[p.1]? = some p.2 :=
  getElem?_foldl_insert_of_mem hn h ∅

/-- What is found after some pairs were put in is one of them, or was there before. -/
theorem mem_of_getElem?_foldl_insert {pairs : List (String × α)} {k : String} {v : α} {t : Table α}
    (h : (pairs.foldl (fun t p => t.insert p.1 p.2) t)[k]? = some v) :
    (k, v) ∈ pairs ∨ t[k]? = some v := by
  induction pairs generalizing t with
  | nil => exact .inr h
  | cons p rest ih =>
    rcases ih h with hrest | hp
    · exact .inl (.tail _ hrest)
    · rw [getElem?_insert] at hp
      split at hp
      next hk =>
        cases hk
        cases hp
        exact .inl List.mem_cons_self
      next => exact .inr hp

/-- Every entry of a table that was made from pairs is one of the pairs. -/
theorem mem_of_getElem?_ofPairs {pairs : List (String × α)} {k : String} {v : α}
    (h : (ofPairs pairs)[k]? = some v) : (k, v) ∈ pairs := by
  rcases mem_of_getElem?_foldl_insert h with h | h
  · exact h
  · rw [Std.ExtTreeMap.getElem?_empty] at h
    cases h

/-- A table is made again from its entries. -/
theorem ofPairs_toList : ofPairs t.toList = t := by
  refine ext fun k => ?_
  cases hk : t[k]? with
  | some v =>
    have hmem : (k, v) ∈ t.toList := mem_toList.mpr hk
    exact getElem?_ofPairs_of_mem toList_keys_nodup hmem
  | none =>
    refine Option.eq_none_iff_forall_ne_some.mpr fun v hv => ?_
    have hmem := mem_toList.mp (mem_of_getElem?_ofPairs hv)
    rw [hk] at hmem
    cases hmem

/-- Pairs in ascending order are listed as they were given. -/
theorem toList_ofPairs {pairs : List (String × α)} (h : Ascending pairs) :
    (ofPairs pairs).toList = pairs := by
  have hn := h.keys_nodup
  have hmem (p : String × α) : p ∈ (ofPairs pairs).toList ↔ p ∈ pairs := by
    exact ⟨fun hp => mem_of_getElem?_ofPairs (mem_toList.mp hp),
      fun hp => mem_toList.mpr (getElem?_ofPairs_of_mem hn hp)⟩
  have hperm : (ofPairs pairs).toList.Perm pairs :=
    (List.perm_ext_iff_of_nodup (.of_map _ toList_keys_nodup) (.of_map _ hn)).mpr hmem
  exact hperm.eq_of_pairwise (fun p q _ _ hpq hqp => (String.lt_asymm hpq hqp).elim)
    toList_ascending h

end Table

namespace TextSet

variable {s u : TextSet}

theorem mem_insert {k a : String} : a ∈ s.insert k ↔ k = a ∨ a ∈ s := by
  simp [Std.ExtTreeSet.mem_insert]

theorem mem_erase {k a : String} : a ∈ s.erase k ↔ k ≠ a ∧ a ∈ s := by
  simp [Std.ExtTreeSet.mem_erase]

theorem mem_eraseAll {keys : List String} {a : String} :
    a ∈ keys.foldl (·.erase ·) s ↔ a ∉ keys ∧ a ∈ s := by
  induction keys generalizing s with
  | nil => simp
  | cons k rest ih =>
    rw [List.foldl_cons, ih, mem_erase, List.mem_cons, not_or, eq_comm (a := a)]
    tauto

theorem ext (h : ∀ k : String, k ∈ s ↔ k ∈ u) : s = u :=
  Std.ExtTreeSet.ext_mem h

end TextSet

end SnapBlocks
