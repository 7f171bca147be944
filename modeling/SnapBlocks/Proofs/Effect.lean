import SnapBlocks.Proofs.Calls
import SnapBlocks.Run.Function

/-! What effects come to. `Effect.Yields` says that whatever an effect comes to in a world has a
property; it goes through sequencing. -/

namespace SnapBlocks

variable {H α β : Type} {w w' : World H} {em : Emitter H} {c x : Call}

namespace Effect

/-- Whatever an effect comes to in a world has a property. -/
def Yields (e : Effect H α) (w : World H) (Q : Except RunError α → World H → Prop) : Prop :=
  ∀ r w', e.run w = some (r, w') → Q r w'

theorem run_bind (e : Effect H α) (f : α → Effect H β) (w : World H) :
    (e >>= f).run w =
      match e.run w with
      | none => none
      | some (.ok a, w') => (f a).run w'
      | some (.error x, w') => some (.error x, w') := by
  unfold run
  rw [ExceptT.run_bind]
  simp only [StateT.run_bind]
  rcases StateT.run (ExceptT.run e) w with _ | ⟨_ | a, w'⟩ <;> rfl

namespace Yields

variable {Q Q' : Except RunError α → World H → Prop} {R : Except RunError β → World H → Prop}
variable {e : Effect H α} {f : α → Effect H β}

theorem mono (he : e.Yields w Q) (hQ : ∀ r w', Q r w' → Q' r w') : e.Yields w Q' :=
  fun r w' h => hQ r w' (he r w' h)

theorem pure {a : α} (h : Q (.ok a) w) : (Pure.pure a : Effect H α).Yields w Q := by
  rintro _ _ ⟨⟩
  exact h

theorem bind (he : e.Yields w Q) (hok : ∀ a w', Q (.ok a) w' → (f a).Yields w' R)
    (herror : ∀ x w', Q (.error x) w' → R (.error x) w') : (e >>= f).Yields w R := by
  intro r w' h
  rw [run_bind] at h
  rcases hr : e.run w with _ | ⟨x | a, u⟩ <;> rw [hr] at h
  · cases h
  · cases h
    exact herror x _ (he _ _ hr)
  · exact hok a u (he _ _ hr) r w' h

/-- A failure ends an effect. -/
theorem throw_bind {x : RunError} (h : R (.error x) w) : ((throw x : Effect H α) >>= f).Yields w R :=
  bind (Q := fun r u => r = .error x ∧ u = w) (by rintro _ _ ⟨⟩; exact ⟨rfl, rfl⟩)
    (by rintro _ _ ⟨⟨⟩, _⟩) (by rintro _ _ ⟨⟨⟩, rfl⟩; exact h)

theorem look_bind {f : Shared H → α} {k : α → Effect H β} (h : (k (f w.shared)).Yields w R) :
    (look f >>= k).Yields w R :=
  bind (Q := fun r u => r = .ok (f w.shared) ∧ u = w) (by rintro _ _ ⟨⟩; exact ⟨rfl, rfl⟩)
    (by rintro _ _ ⟨⟨⟩, rfl⟩; exact h) (by rintro _ _ ⟨⟨⟩, _⟩)

theorem change_bind {f : World H → World H} {k : Unit → Effect H β}
    (h : (k ()).Yields (f w) R) : (change f >>= k).Yields w R :=
  bind (Q := fun r u => r = .ok () ∧ u = f w) (by rintro _ _ ⟨⟩; exact ⟨rfl, rfl⟩)
    (by rintro _ _ ⟨⟨⟩, rfl⟩; exact h) (by rintro _ _ ⟨⟨⟩, _⟩)

theorem emit_bind {event : String} {args : List BoundInput} {k : Nat → Effect H β}
    (h : ∀ n u, em event args w = some (n, u) → (k n).Yields u R) :
    (emit em event args >>= k).Yields w R := by
  have hrun : (emit em event args).run w = (em event args w).map fun p => (.ok p.1, p.2) := by
    change (em event args w).bind _ = _
    cases em event args w <;> rfl
  intro r w' hr
  rw [run_bind, hrun] at hr
  rcases he : em event args w with _ | ⟨n, u⟩ <;> rw [he] at hr
  · cases hr
  · exact h n u he r w' hr

theorem react_bind {r : Reaction H} {k : Unit → Effect H β}
    (hok : ∀ u, r.run em w = some (.ok (), u) → (k ()).Yields u R)
    (herror : ∀ x u, r.run em w = some (.error x, u) → R (.error x) u) :
    (react em r >>= k).Yields w R :=
  bind (Q := fun x u => r.run em w = some (x, u)) (fun _ _ h => h) (fun _ u h => hok u h) herror

/-- A check goes through or ends the effect. -/
theorem check_bind {a : Except RunError α} (hok : ∀ b, a = .ok b → (f b).Yields w R)
    (herror : ∀ x, a = .error x → R (.error x) w) :
    ((ofExcept a : Effect H α) >>= f).Yields w R := by
  cases a with
  | error x => exact throw_bind (herror x rfl)
  | ok b =>
    intro r w' h
    exact hok b rfl r w' h

end Yields

end Effect

/-! ## The calls in a call -/

section
variable {P : Call → Prop} {chain : Chain}

theorem Call.scope_all (hc : ∀ x ∈ c.calls, P x) (hs : c.scope = some chain) :
    Chain.All P chain :=
  bodies_all hc (List.mem_append_right _ (hs ▸ List.mem_singleton_self chain))

end

/-! ## The standard library -/

theorem Builtin.mem_all (b : Builtin) : b ∈ Builtin.all := by
  cases b <;> decide

theorem Builtin.names_nodup : (Builtin.all.map Builtin.name).Nodup := by decide

theorem Builtin.eq_of_name {b b' : Builtin} (h : b.name = b'.name) : b = b' :=
  List.inj_on_of_nodup_map names_nodup b.mem_all b'.mem_all h

theorem Library.getElem?_standard (b : Builtin) :
    (Library.standard : Library H)[b.name]? = some (.builtin b) := by
  have hn : ((Builtin.all.map fun b => (b.name, Function.builtin (H := H) b)).map (·.1)).Nodup := by
    rw [List.map_map]
    exact Builtin.names_nodup
  have hb := Table.getElem?_ofPairs_of_mem hn (List.mem_map_of_mem b.mem_all)
  exact hb

/-- A call of a built-in function is a call that is counted and then carried out. -/
theorem Call.effect_standard {b : Builtin} (ht : c.target = b.name) :
    c.effect Library.standard em = (Effect.change World.countCall >>= fun _ => b.effect em c) := by
  unfold Call.effect
  rw [ht, Library.getElem?_standard]
  rfl

end SnapBlocks
