import Mathlib.Data.Finset.Card
import SnapBlocks.Proofs.Bytes
import SnapBlocks.Proofs.ProjectText

/-! Stores as maps from names to texts. Every command that fills or empties a store has its effect
on such a map, or fails and leaves it alone; so after any commands the store answers like the map
that their effects make one after the other. Data makes a store from all of its pairs or from
none. -/

namespace SnapBlocks.Store

open Json

variable {s : Store} {pairs : List (String × String)} {items : List Json} {v : Json}

/-! ## Commands -/

/-- What is done to a store. -/
inductive Command where
  | set (key value : String)
  | setJson (key value : Json)
  | remove (key : String)
  | clear
  | restore (pairs : List (String × String))
  | ofJson (value : Json)
  | decode (text : String)

/-- Whether a command succeeds, and the store behind it. -/
def Command.exec (s : Store) : Command → Bool × Store
  | set key value => (true, s.insert key value)
  | setJson key value => ((s.writeJson key value).1.isOk, (s.writeJson key value).2)
  | remove key => (true, s.erase key)
  | clear => (true, ∅)
  | restore pairs => (true, Store.restore pairs)
  | ofJson value => (true, (Store.ofJson value).1)
  | decode text =>
    match (ofText text).1 with
    | .ok s' => (true, s')
    | .error _ => (false, s)

/-- The store behind a command. -/
def run (s : Store) (c : Command) : Store := (c.exec s).2

/-! ## Effects -/

/-- What each variable is. -/
abbrev Contents := String → Option String

/-- What each variable of a store is. -/
def contents (s : Store) : Contents := fun k => s[k]?

/-- What each variable is last in a list of pairs. -/
def lastIn (pairs : List (String × String)) : Contents := fun k =>
  (pairs.filter (·.1 = k)).getLast?.map (·.2)

/-- Data that is a pair of texts. -/
def pair? : Json → Option (String × String)
  | .arr [.str key, .str value] => some (key, value)
  | _ => none

/-- Data that is an array of pairs of texts. -/
def pairs? : Json → Option (List (String × String))
  | .arr items => items.mapM pair?
  | _ => none

/-- What a command makes of the contents, if it succeeds. -/
def Command.effect? (m : Contents) : Command → Option Contents
  | set key value => some (Function.update m key (some value))
  | setJson (.str key) (.str value) => some (Function.update m key (some value))
  | setJson _ _ => none
  | remove key => some (Function.update m key none)
  | clear => some (lastIn [])
  | restore pairs => some (lastIn pairs)
  | ofJson value => some (lastIn ((pairs? value).getD []))
  | decode text => (Json.decode Decoder.value text).toOption.map fun value =>
      lastIn ((pairs? value).getD [])

/-- What a command makes of the contents. -/
def effect (m : Contents) (c : Command) : Contents := (c.effect? m).getD m

/-! ## Data -/

theorem pair?_eq_some {p : String × String} : pair? v = some p ↔ v = pairJson p := by
  obtain ⟨key, value⟩ := p
  constructor
  · intro h
    unfold pair? at h
    split at h
    · cases h
      rfl
    · cases h
  · rintro rfl
    rfl

theorem mapM_pair?_eq_some : items.mapM pair? = some pairs ↔ items = pairs.map pairJson := by
  induction items generalizing pairs with
  | nil => cases pairs <;> simp
  | cons v rest ih =>
    rw [List.mapM_cons]
    constructor
    · intro h
      obtain ⟨p, hp, h⟩ := Option.bind_eq_some_iff.mp h
      obtain ⟨ps, hps, h⟩ := Option.bind_eq_some_iff.mp h
      cases h
      rw [List.map_cons, ← pair?_eq_some.mp hp, ← ih.mp hps]
    · intro h
      cases pairs with
      | nil => cases h
      | cons p ps =>
        obtain ⟨hp, hrest⟩ := List.cons.inj h
        rw [pair?_eq_some.mpr hp, ih.mpr hrest]
        rfl

theorem pairs?_eq_some : pairs? v = some pairs ↔ v = .arr (pairs.map pairJson) := by
  unfold pairs?
  split
  next items => rw [mapM_pair?_eq_some, Json.arr.injEq]
  next hv => exact ⟨nofun, fun h => absurd h (hv _)⟩

theorem contents_restore (pairs : List (String × String)) :
    (restore pairs).contents = lastIn pairs := by
  funext k
  have hset : (restore pairs)[k]? = (setAll ∅ pairs)[k]? := rfl
  rw [contents, hset, getElem?_setAll, Std.ExtTreeMap.getElem?_empty, Option.or_none, lastIn]

theorem ofJson_of_pairs (h : pairs? v = some pairs) : ofJson v = (restore pairs, none) := by
  obtain rfl := pairs?_eq_some.mp h
  have hpairs : ofJson? (.arr (pairs.map pairJson)) = .ok (restore pairs) := setPairs_map ∅ pairs
  rw [ofJson, hpairs]

theorem setPairs_cons_of_not_pair (h : pair? v = none) :
    ∃ e, s.setPairs (v :: items) = .error e := by
  unfold setPairs setJson writeJson
  split
  next heq => cases heq
  next key value rest heq =>
    cases heq
    cases key with
    | str k =>
      cases value with
      | str w => cases h
      | _ => exact ⟨_, rfl⟩
    | _ => exact ⟨_, rfl⟩
  next heq =>
    cases heq
    exact ⟨_, rfl⟩

/-- One item that is no pair spoils the data, whatever stands before it. -/
theorem setPairs_of_not_pairs (h : items.mapM pair? = none) : ∃ e, s.setPairs items = .error e := by
  induction items generalizing s with
  | nil => cases h
  | cons v rest ih =>
    cases hp : pair? v with
    | none => exact setPairs_cons_of_not_pair hp
    | some p =>
      rw [List.mapM_cons, hp] at h
      obtain rfl := pair?_eq_some.mp hp
      cases hrest : rest.mapM pair? with
      | none => exact ih (s := s.insert p.1 p.2) hrest
      | some ps =>
        rw [hrest] at h
        cases h

theorem ofJson_of_not_pairs (h : pairs? v = none) : ∃ e, ofJson v = (∅, some e) := by
  have herror : ∃ e, ofJson? v = .error e := by
    unfold pairs? at h
    split at h
    next items => exact setPairs_of_not_pairs h
    next hv =>
      unfold ofJson?
      split
      next items => exact absurd rfl (hv items)
      next => exact ⟨_, rfl⟩
  obtain ⟨e, he⟩ := herror
  exact ⟨e, by rw [ofJson, he]⟩

theorem contents_ofJson (v : Json) : (ofJson v).1.contents = lastIn ((pairs? v).getD []) := by
  cases h : pairs? v with
  | some pairs => rw [ofJson_of_pairs h, contents_restore, Option.getD_some]
  | none =>
    obtain ⟨e, he⟩ := ofJson_of_not_pairs h
    rw [he, Option.getD_none, ← contents_restore]
    rfl

/-- A text is read as its data is. -/
theorem ofText_eq (text : String) :
    (ofText text).1 = (Json.decode Decoder.value text).map fun v => (ofJson v).1 := by
  unfold ofText Json.decode
  dsimp only
  cases Decoder.value levels (readNode text.toList).1 with
  | error p => rfl
  | ok v => cases h : (readNode text.toList).2 <;> rfl

theorem ofText_toCompact (s : Store) : ofText s.toJson.toCompact = (.ok s, none) := by
  have hs : Decoder.Restores (levels + 1) Decoder.value s.toJson s.toJson := s.restores
  have hdepth : s.toJson.depth ≤ levels := s.depth_toJson_le.trans (by decide)
  unfold ofText
  rw [hs.legible.readNode_compact]
  dsimp only
  rw [hs.decode (Nat.lt_succ_self _), within_of_le hdepth]
  dsimp only
  rw [s.ofJson_toJson]
  rfl

/-! ## Runs -/

theorem contents_insert (s : Store) (k v : String) :
    contents (s.insert k v) = Function.update s.contents k (some v) := by
  funext a
  rw [contents, Table.getElem?_insert, Function.update_apply]
  simp only [eq_comm, contents]

theorem contents_erase (s : Store) (k : String) :
    contents (s.erase k) = Function.update s.contents k none := by
  funext a
  rw [contents, Table.getElem?_erase, Function.update_apply]
  simp only [eq_comm, contents]

/-- A command succeeds when it has an effect. -/
theorem exec_succeeds (s : Store) (c : Command) :
    (c.exec s).1 = (c.effect? s.contents).isSome := by
  cases c with
  | setJson key value =>
    cases key with
    | str k => cases value <;> rfl
    | _ => rfl
  | decode text =>
    dsimp only [Command.exec, Command.effect?]
    rw [ofText_eq]
    cases Json.decode Decoder.value text <;> rfl
  | _ => rfl

/-- A command has its effect, and leaves a store alone on which it has none. -/
theorem contents_run (s : Store) (c : Command) : (s.run c).contents = effect s.contents c := by
  cases c with
  | set key value => exact contents_insert s key value
  | setJson key value =>
    cases key with
    | str k =>
      cases value with
      | str w => exact contents_insert s k w
      | _ => rfl
    | _ => rfl
  | remove key => exact contents_erase s key
  | clear => exact contents_restore []
  | restore pairs => exact contents_restore pairs
  | ofJson value => exact contents_ofJson value
  | decode text =>
    dsimp only [run, Command.exec, effect, Command.effect?]
    rw [ofText_eq]
    cases Json.decode Decoder.value text with
    | error p => rfl
    | ok v => exact contents_ofJson v

/-- Data that does not fit is found out before anything is written. -/
theorem writeJson_error {key value : Json} {e : StoreError} {s' : Store}
    (h : s.writeJson key value = (.error e, s')) : s' = s := by
  unfold writeJson at h
  split at h
  · cases h
    rfl
  · split at h
    · cases h
      rfl
    · cases h

theorem contents_foldl_run (s : Store) (cs : List Command) :
    (cs.foldl run s).contents = cs.foldl effect s.contents := by
  induction cs generalizing s with
  | nil => rfl
  | cons c rest ih => rw [List.foldl_cons, List.foldl_cons, ih, contents_run]

/-- A store answers like a map. -/
structure Answers (s : Store) (m : Contents) : Prop where
  get : ∀ k, s[k]? = m k
  size : ∃ keys : Finset String, (∀ k, k ∈ keys ↔ m k ≠ none) ∧ s.size = keys.card
  isEmpty : s.isEmpty ↔ ∀ k, m k = none
  snapshot : ∀ k v, (k, v) ∈ s.snapshot ↔ m k = some v
  ascending : s.snapshot.Pairwise fun p q => Text.bytes p.1 < Text.bytes q.1
  restored : restore s.snapshot = s
  reread : ofJson s.toJson = (s, none)
  decoded : ofText s.toJson.toCompact = (.ok s, none)

theorem answers (s : Store) : s.Answers s.contents := by
  constructor
  case get => exact fun k => rfl
  case size =>
    refine ⟨(s.snapshot.map (·.1)).toFinset, fun k => ?_, ?_⟩
    · rw [List.mem_toFinset, List.mem_map, Option.ne_none_iff_exists']
      exact ⟨fun ⟨p, hp, hk⟩ => ⟨p.2, hk ▸ Table.mem_toList.mp hp⟩,
        fun ⟨v, hv⟩ => ⟨(k, v), Table.mem_toList.mpr hv, rfl⟩⟩
    · have hn : (s.snapshot.map (·.1)).Nodup := Table.toList_keys_nodup
      rw [List.toFinset_card_of_nodup hn, List.length_map]
      exact Std.ExtTreeMap.length_toList.symm
  case isEmpty =>
    rw [Std.ExtTreeMap.isEmpty_iff]
    constructor
    · rintro rfl k
      exact Std.ExtTreeMap.getElem?_empty
    · intro h
      exact Table.ext fun k => (h k).trans Std.ExtTreeMap.getElem?_empty.symm
  case snapshot => exact fun k v => Table.mem_toList
  case ascending => exact Table.toList_ascending.imp Text.bytes_lt
  case restored => exact Table.ofPairs_toList
  case reread => exact s.ofJson_toJson
  case decoded => exact s.ofText_toCompact

/-- **After any commands a store answers like the map that their effects make**; a command fails
when it has no effect, and then it changes nothing; data is a store if it is an array of pairs of
texts, of which the last with a key counts, and else it is the empty store. -/
structure Refines (s : Store) (cs : List Command) : Prop where
  answers : (cs.foldl run s).Answers (cs.foldl effect s.contents)
  succeeds : ∀ c : Command,
    (c.exec (cs.foldl run s)).1 = (c.effect? (cs.foldl effect s.contents)).isSome
  setJson : ∀ key value e s', (cs.foldl run s).writeJson key value = (.error e, s') →
    s' = cs.foldl run s
  pairs : ∀ pairs, ofJson (.arr (pairs.map pairJson)) = (restore pairs, none) ∧
    (restore pairs).Answers (lastIn pairs)
  others : ∀ v, (∀ pairs : List (String × String), v ≠ .arr (pairs.map pairJson)) →
    ∃ e, ofJson v = (∅, some e)

theorem refines (s : Store) (cs : List Command) : Refines s cs := by
  constructor
  case answers =>
    rw [← contents_foldl_run]
    exact (cs.foldl run s).answers
  case succeeds =>
    intro c
    rw [← contents_foldl_run, exec_succeeds]
  case setJson => exact fun _ _ _ _ h => writeJson_error h
  case pairs =>
    intro pairs
    refine ⟨ofJson_of_pairs (pairs?_eq_some.mpr rfl), ?_⟩
    rw [← contents_restore]
    exact (restore pairs).answers
  case others =>
    intro v h
    exact ofJson_of_not_pairs (Option.eq_none_iff_forall_ne_some.mpr fun pairs hpairs =>
      h pairs (pairs?_eq_some.mp hpairs))

end SnapBlocks.Store
