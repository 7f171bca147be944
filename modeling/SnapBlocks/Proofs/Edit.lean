import SnapBlocks.Graph.Basic

/-! Runs of edits. `Edit.Fixes` says that an edit leaves a view of the graph as it was, whether
it succeeds or fails; it goes through sequencing, so that it is shown once for each operation. -/

namespace SnapBlocks

/-- What follows a step goes on from the state that it leaves, unless it fails. -/
theorem run_bind_state {ε σ α β : Type} (e : ExceptT ε (StateM σ) α)
    (f : α → ExceptT ε (StateM σ) β) (s : σ) :
    StateT.run (ExceptT.run (e >>= f)) s =
      match StateT.run (ExceptT.run e) s with
      | (.ok a, t) => StateT.run (ExceptT.run (f a)) t
      | (.error x, t) => (.error x, t) := by
  rw [ExceptT.run_bind]
  simp only [StateT.run_bind]
  rcases hr : StateT.run (ExceptT.run e) s with ⟨_ | a, t⟩ <;> rfl

namespace Edit

variable {α β γ : Type} {g h : Graph}

@[simp] theorem run_pure (a : α) : (pure a : Edit α).run g = (.ok a, g) := rfl

@[simp] theorem run_throw (e : GraphError) : (throw e : Edit α).run g = (.error e, g) := rfl

@[simp] theorem run_get : (get : Edit Graph).run g = (.ok g, g) := rfl

@[simp] theorem run_change (f : Graph → Graph) : (change f).run g = (.ok (), f g) := rfl

@[simp] theorem run_ask (f : Graph → Except GraphError α) : (ask f).run g = (f g, g) := by
  have h : (ask f).run g = (ofExcept (f g) : Edit α).run g := rfl
  rw [h]
  cases f g <;> rfl

@[simp] theorem run_needBlock (id : BlockId) : (needBlock id).run g = (g.block id, g) :=
  run_ask _

@[simp] theorem run_needSnap (id : SnapId) : (needSnap id).run g = (g.snap id, g) :=
  run_ask _

theorem run_bind (e : Edit α) (f : α → Edit β) :
    (e >>= f).run g =
      match e.run g with
      | (.ok a, h) => (f a).run h
      | (.error x, h) => (.error x, h) := by
  unfold run
  rw [run_bind_state]
  rcases StateT.run (ExceptT.run e) g with ⟨_ | a, h⟩ <;> rfl

/-- What follows a step that succeeds. -/
theorem run_bind_ok {e : Edit α} {a : α} (he : e.run g = (.ok a, h)) (f : α → Edit β) :
    (e >>= f).run g = (f a).run h := by
  rw [run_bind, he]

/-- Nothing follows a step that fails. -/
theorem run_bind_error {e : Edit α} {x : GraphError} (he : e.run g = (.error x, h))
    (f : α → Edit β) : (e >>= f).run g = (.error x, h) := by
  rw [run_bind, he]

theorem run_bind_eq_ok {e : Edit α} {f : α → Edit β} {k : Graph} {r : β} :
    (e >>= f).run g = (.ok r, k) ↔ ∃ a h, e.run g = (.ok a, h) ∧ (f a).run h = (.ok r, k) := by
  rw [run_bind]
  rcases e.run g with ⟨_ | a, h⟩
  · simp
  · constructor
    · exact fun hr => ⟨a, h, rfl, hr⟩
    · rintro ⟨_, _, ⟨⟩, hr⟩
      exact hr

theorem run_ask_eq_ok {q : Graph → Except GraphError α} {a : α} :
    (ask q).run g = (.ok a, h) ↔ q g = .ok a ∧ g = h := by
  rw [run_ask, Prod.mk.injEq]

/-- What follows a question depends on its answer. -/
theorem run_ask_bind (q : Graph → Except GraphError α) (f : α → Edit β) :
    (ask q >>= f).run g =
      match q g with
      | .ok a => (f a).run g
      | .error x => (.error x, g) := by
  rw [run_bind, run_ask]
  cases q g <;> rfl

/-- An answer that is only wrapped does not change what is left. -/
theorem state_map (e : Edit α) (f : α → β) :
    ((do return f (← e) : Edit β).run g).2 = (e.run g).2 := by
  rw [run_bind]
  rcases e.run g with ⟨x | a, h⟩ <;> rfl

/-- A question changes nothing. -/
theorem leaves_ask {P : Graph → Prop} {f : Graph → Except GraphError α} {k : α → Edit β}
    (hg : P g) (hk : ∀ a, f g = .ok a → P ((k a).run g).2) : P ((ask f >>= k).run g).2 := by
  cases hf : f g with
  | error x => rw [run_bind_error (by rw [run_ask, hf])]; exact hg
  | ok a => rw [run_bind_ok (by rw [run_ask, hf])]; exact hk a hf

/-- What an edit leaves, if its first step leaves as much. -/
theorem leaves_bind {P : Graph → Prop} {e : Edit α} {k : α → Edit β} (he : P (e.run g).2)
    (hk : ∀ a h, P h → P ((k a).run h).2) : P ((e >>= k).run g).2 := by
  rcases hr : e.run g with ⟨x | a, h⟩ <;> rw [hr] at he
  · rw [run_bind_error hr]
    exact he
  · rw [run_bind_ok hr]
    exact hk a h he

/-- A view of the graph is the same after an edit, also when the edit fails. -/
def Fixes (view : Graph → γ) (e : Edit α) : Prop := ∀ g, view (e.run g).2 = view g

namespace Fixes

variable {view : Graph → γ}

theorem pure (a : α) : Fixes view (pure a : Edit α) := fun _ => rfl

theorem ask (f : Graph → Except GraphError α) : Fixes view (ask f) := fun g => by simp

theorem needBlock (id : BlockId) : Fixes view (needBlock id) := ask _

theorem change {f : Graph → Graph} (hf : ∀ g, view (f g) = view g) :
    Fixes view (change f) := hf

theorem bind {e : Edit α} {f : α → Edit β} (he : Fixes view e) (hf : ∀ a, Fixes view (f a)) :
    Fixes view (e >>= f) := by
  intro g
  have hg := he g
  rcases hr : e.run g with ⟨x | a, h⟩ <;> rw [hr] at hg
  · rw [run_bind_error hr]
    exact hg
  · rw [run_bind_ok hr]
    exact (hf a h).trans hg

end Fixes

end Edit

end SnapBlocks
