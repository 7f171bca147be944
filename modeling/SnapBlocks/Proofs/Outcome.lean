import SnapBlocks.Proofs.Act
import SnapBlocks.Proofs.Moves

/-! Outcomes do not depend on how deep emissions may nest. Emissions that may nest deeper have the
outcome that they have anyway. So `Machine.Leads`, which is a step for some bound, takes the paths
that there are for any bound. -/

namespace SnapBlocks

variable {H : Type} {w w' : World H} {em em' : Emitter H} {c : Call} {event : String}
variable {args : List BoundInput} {depth depth' n : Nat}

/-- Emissions that have an outcome have it with another emitter, too. -/
def Emitter.Below (em em' : Emitter H) : Prop :=
  ∀ event args w p, em event args w = some p → em' event args w = some p

section
variable (hem : em.Below em')
include hem

theorem Reaction.run_mono {r : Reaction H} {p : Except RunError Unit × World H}
    (h : r.run em w = some p) : r.run em' w = some p := by
  fun_induction Reaction.run em r w with
  | case1 => exact h
  | case2 rest w ih => exact ih h
  | case3 f rest w ih => exact ih h
  | case4 event s rest w ih => exact ih h
  | case5 event args rest w count u he ih =>
    unfold run
    rw [hem _ _ _ _ he]
    exact ih h
  | case6 => cases h

theorem Subscriber.serve_mono {s : Subscriber H} (h : s.serve em event args w = some w') :
    s.serve em' event args w = some w' := by
  cases s with
  | own d => exact h
  | handler respond =>
    simp only [serve] at h ⊢
    cases hrun : (respond args).run em w with
    | none => rw [hrun] at h; cases h
    | some p => rw [hrun] at h; rw [Reaction.run_mono hem hrun]; exact h

theorem serveAll_mono {l : List (Subscriber H)} (h : serveAll em event args l w = some w') :
    serveAll em' event args l w = some w' := by
  induction l generalizing w with
  | nil => exact h
  | cons s rest ih =>
    unfold serveAll at h ⊢
    split at h
    next hs =>
      rw [Subscriber.serve_mono hem hs]
      exact ih h
    · cases h

end

/-- Emissions may as well nest deeper. -/
theorem World.emit_mono (hd : depth ≤ depth') :
    (World.emit depth : Emitter H).Below (World.emit depth') := by
  induction depth generalizing depth' with
  | zero => exact nofun
  | succ depth ih =>
    obtain ⟨depth', rfl⟩ := Nat.exists_eq_add_of_le' (Nat.le_trans (Nat.le_add_left 1 depth) hd)
    intro event args w p h
    obtain ⟨u, hu, he⟩ := Option.map_eq_some_iff.mp h
    have hserve := serveAll_mono (ih (Nat.le_of_succ_le_succ hd)) hu
    exact Option.map_eq_some_iff.mpr ⟨u, hserve, he⟩

/-! ## Calls and threads -/

section
variable (hem : em.Below em')
include hem

theorem Act.run_mono {a : Act H} {p : Work H × World H} (h : a.run em w = some p) :
    a.run em' w = some p := by
  cases a with
  | emit event args n =>
    obtain ⟨q, hq, he⟩ := Option.map_eq_some_iff.mp h
    exact Option.map_eq_some_iff.mpr ⟨q, hem _ _ _ _ hq, he⟩
  | _ => exact h

theorem Function.effect_mono {f : Function H} {p : Except RunError (Work H) × World H}
    (h : (f.effect em c).run w = some p) : (f.effect em' c).run w = some p := by
  induction f generalizing w with
  | builtin b =>
    unfold effect at h ⊢
    rw [Builtin.effect_run] at h ⊢
    cases ha : b.act c w.shared with
    | error e => rw [ha] at h; exact h
    | ok a =>
      rw [ha] at h
      obtain ⟨q, hq, he⟩ := Option.map_eq_some_iff.mp h
      exact Option.map_eq_some_iff.mpr ⟨q, a.run_mono hem hq, he⟩
  | host respond => exact h
  | guarded guard inner ih =>
    unfold effect at h ⊢
    rw [Effect.run_bind, Effect.run_react] at h ⊢
    cases hr : (guard c).run em w with
    | none => rw [hr] at h; cases h
    | some q =>
      rw [hr] at h
      rw [Reaction.run_mono hem hr]
      obtain ⟨e | u, w'⟩ := q
      · exact h
      · exact ih h

theorem Call.effect_mono {library : Library H} {p : Except RunError (Work H) × World H}
    (h : (c.effect library em).run w = some p) : (c.effect library em').run w = some p := by
  unfold effect at h ⊢
  cases hf : library[c.target]? with
  | none => rw [hf] at h; exact h
  | some f =>
    rw [hf] at h
    rw [Effect.run_bind, Effect.run_change] at h ⊢
    exact f.effect_mono hem h

theorem advance_mono {library : Library H} {t : Thread H} {p : Advance H × World H}
    (h : advance library em t w = some p) : advance library em' t w = some p := by
  unfold advance at h ⊢
  split at h
  case h_3 c cs k =>
    cases hrun : (c.effect library em).run w with
    | none => rw [hrun] at h; cases h
    | some q => rw [hrun] at h; rw [Call.effect_mono hem hrun]; exact h
  case h_9 t replies k =>
    rcases hnext : t replies with (e | _) | r | _ | ⟨isolated, b⟩
    case react =>
      rw [hnext] at h
      dsimp only at h ⊢
      cases hrun : r.run em w with
      | none => rw [hrun] at h; cases h
      | some q => rw [hrun] at h; rw [Reaction.run_mono hem hrun]; exact h
    all_goals
      rw [hnext] at h
      exact h
  all_goals exact h

namespace Machine

variable {m m' : Machine H} {s : Setting H}

theorem step_mono (h : m.step s em = some m') : m.step s em' = some m' := by
  unfold step at h ⊢
  split at h
  · exact h
  · obtain ⟨p, hp, he⟩ := Option.map_eq_some_iff.mp h
    exact Option.map_eq_some_iff.mpr ⟨p, advance_mono hem hp, he⟩
  · split at h
    · unfold proceed at h ⊢
      split at h
      · exact h
      · obtain ⟨p, hp, he⟩ := Option.map_eq_some_iff.mp h
        exact Option.map_eq_some_iff.mpr ⟨p, hem _ _ _ _ hp, he⟩
      · exact h
    · exact h

end Machine

end

/-! ## Runs -/

namespace Machine

variable {m m' m'' : Machine H} {s : Setting H} {trace trace' : List (Machine H)}

theorem Path.deeper (hp : Path s depth m trace m') (hd : depth ≤ depth') :
    Path s depth' m trace m' := by
  induction hp with
  | nil => exact .nil
  | cons hshifts hmore hstep _ ih =>
    exact .cons hshifts hmore (step_mono (World.emit_mono hd) hstep) ih

theorem Path.append (hp : Path s depth m trace m') (hp' : Path s depth m' trace' m'') :
    Path s depth m (trace ++ trace') m'' := by
  induction hp with
  | nil => exact hp'
  | cons hshifts hmore hstep _ ih => exact .cons hshifts hmore hstep (ih hp')

theorem Comes.path (h : Comes s m m') : ∃ depth trace, Path s depth m trace m' := by
  induction h using Relation.ReflTransGen.head_induction_on with
  | refl => exact ⟨0, [], .nil⟩
  | head hleads _ ih =>
    obtain ⟨x, hshifts, hmore, depth, hstep⟩ := hleads
    obtain ⟨depth', trace, hp⟩ := ih
    refine ⟨max depth depth', _, .cons hshifts hmore ?_ (hp.deeper (Nat.le_max_right ..))⟩
    exact step_mono (World.emit_mono (Nat.le_max_left ..)) hstep

end Machine

end SnapBlocks
