import SnapBlocks.Proofs.Failures
import SnapBlocks.Proofs.Keeping

/-! Hosts that answer. A host has a part in a step of a machine in three ways: as a guard of the
library, as a function that reacts, or as a handler of an event that the step emits. A machine goes on
as long as hosts answer when they are asked. -/

namespace SnapBlocks

variable {H : Type} {w w' : World H} {em : Emitter H} {c : Call} {event : String}
variable {args : List BoundInput} {depth : Nat} {library : Library H}

/-- Whether one who hears an event is of the host. -/
def Subscriber.isHandler : Subscriber H → Bool
  | .own _ => false
  | .handler _ => true

/-- Whether the host hears an event. -/
def World.isHeard (w : World H) (event : String) : Bool :=
  (w.subscribersOf event).any Subscriber.isHandler

/-- The event that a call of a built-in function emits. -/
def Builtin.emitted? (b : Builtin) (c : Call) (s : Shared H) : Option String :=
  match b.act c s with
  | .ok (.emit event _ _) => some event
  | _ => none

/-- Whether the host has a part in a call: it guards the function, or hears the event that the call
emits. -/
def Call.engages (library : Library H) (w : World H) (c : Call) : Bool :=
  match library[c.target]? with
  | none => false
  | some (.builtin b) => (b.emitted? c w.shared).any w.isHeard
  | some (.host _) => false
  | some (.guarded _ _) => true

/-! ## Answers -/

/-- Whatever the world is, a handler comes to an end by itself. -/
def Answers (respond : List BoundInput → Reaction H) : Prop :=
  ∀ (args : List BoundInput) (em : Emitter H) (w : World H), ((respond args).run em w).isSome

theorem serveAll_isSome {l : List (Subscriber H)}
    (h : ∀ respond, .handler respond ∈ l → Answers respond) :
    (serveAll em event args l w).isSome := by
  induction l generalizing w with
  | nil => rfl
  | cons who rest ih =>
    have hrest (u : World H) : (serveAll em event args rest u).isSome :=
      ih fun respond hmem => h respond (.tail _ hmem)
    cases who with
    | own d => exact hrest _
    | handler respond =>
      obtain ⟨⟨result, u⟩, hrun⟩ :=
        Option.isSome_iff_exists.mp (h respond List.mem_cons_self args em w)
      unfold serveAll Subscriber.serve
      dsimp only
      rw [hrun]
      cases result with
      | ok => exact hrest _
      | error => exact hrest _

/-- An event is emitted without nesting if those of the host who hear it answer. -/
theorem World.emit_isSome (h : ∀ respond, .handler respond ∈ w.subscribersOf event → Answers respond)
    (depth : Nat) : (World.emit (depth + 1) event args w).isSome := by
  have hserve : (serveAll (World.emit depth) event args (w.subscribersOf event) w).isSome :=
    serveAll_isSome h
  exact Option.isSome_map.trans hserve

/-- An event that the host does not hear is emitted without nesting. -/
theorem World.emit_isSome_of_isHeard (h : w.isHeard event = false) (depth : Nat) :
    (World.emit (depth + 1) event args w).isSome :=
  emit_isSome (fun _ hmem => absurd rfl (List.any_eq_false.mp h _ hmem)) depth

/-- A call has an outcome if no guard stands before its function, and those of the host answer who
hear the event that it emits. -/
theorem Call.effect_isSome
    (hguard : ∀ guard inner, library[c.target]? ≠ some (.guarded guard inner))
    (hanswers : ∀ b event respond, library[c.target]? = some (.builtin b) →
      b.emitted? c w.shared = some event → .handler respond ∈ w.subscribersOf event → Answers respond)
    (depth : Nat) : ((c.effect library (World.emit (depth + 1))).run w).isSome := by
  unfold effect
  cases hf : library[c.target]? with
  | none => rfl
  | some f =>
    cases f with
    | host => rfl
    | guarded guard inner => exact absurd hf (hguard guard inner)
    | builtin b =>
      dsimp only
      rw [Effect.run_bind, Effect.run_change]
      dsimp only [Function.effect]
      rw [Builtin.effect_run]
      cases ha : b.act c w.countCall.shared with
      | error e => rfl
      | ok a =>
        cases a with
        | emit event args n =>
          have hact : b.act c w.shared = .ok (.emit event args n) := ha
          have hemitted : b.emitted? c w.shared = some event := by
            unfold Builtin.emitted?
            rw [hact]
          have hemit : (World.emit (depth + 1) event args w.countCall).isSome := by
            refine World.emit_isSome (fun respond hmem => ?_) depth
            exact hanswers b event respond hf hemitted hmem
          exact Option.isSome_map.trans (Option.isSome_map.trans hemit)
        | _ => rfl

/-- A call in which the host has no part has an outcome. -/
theorem Call.effect_isSome_of_engages (h : c.engages library w = false) (depth : Nat) :
    ((c.effect library (World.emit (depth + 1))).run w).isSome := by
  unfold engages at h
  refine effect_isSome (fun guard inner hf => ?_) (fun b event respond hf hemitted hmem => ?_) depth
  · rw [hf] at h
    cases h
  · rw [hf] at h
    dsimp only at h
    rw [hemitted] at h
    exact absurd rfl (List.any_eq_false.mp h _ hmem)

namespace Machine

variable {m m' m'' x : Machine H} {s : Setting H} {trace : List (Machine H)}

/-- If the host has a part in the next step, it answers. -/
structure Answered (s : Setting H) (m : Machine H) : Prop where
  call {c : Call} : m.calling? = some c → c.engages s.library m.world →
    ∃ depth, ((c.effect s.library (World.emit depth)).run m.world).isSome
  react {r : Reaction H} : m.reacting? = some r →
    ∃ depth, (r.run (World.emit depth) m.world).isSome
  start : m.isStarting → m.world.isHeard startEvent →
    ∃ depth, (World.emit depth startEvent [] m.world).isSome

/-- Whatever a machine comes to, the host answers. -/
def Responsive (s : Setting H) (m : Machine H) : Prop :=
  ∀ m', Comes s m m' → ∀ x, m'.Shifts x → x.Answered s

theorem Responsive.comes (h : m.Responsive s) (hm : Comes s m m') : m'.Responsive s :=
  fun x hx => h x (hm.trans hx)

/-- A machine that is answered goes on. -/
theorem Answered.steps (h : m.Answered s) (hmore : m.isDone = false) : ∃ m', m.Steps s m' := by
  have hcall (c : Call) (hc : m.calling? = some c) :
      ∃ depth, ((c.effect s.library (World.emit depth)).run m.world).isSome := by
    cases he : c.engages s.library m.world with
    | true => exact h.call hc he
    | false => exact ⟨1, Call.effect_isSome_of_engages he 0⟩
  have hstart (hs : m.isStarting) : ∃ depth, (World.emit depth startEvent [] m.world).isSome := by
    cases he : m.world.isHeard startEvent with
    | true => exact h.start hs he
    | false => exact ⟨1, World.emit_isSome_of_isHeard he 0⟩
  obtain ⟨depth, m', hm'⟩ : ∃ depth m', m.step s (World.emit depth) = some m' := by
    by_contra hno
    have hnone (depth : Nat) : m.Sticks s (World.emit depth) :=
      sticks_of_step (Option.eq_none_iff_forall_ne_some.mpr fun m' hm' => hno ⟨depth, m', hm'⟩)
    -- the emission that has no outcome at first has none however deep it may nest
    have hstuck {α : Type} {f : Nat → Option α} (hf : ∃ depth, (f depth).isSome)
        (hno : ∀ depth, f depth = none) : False := by
      obtain ⟨depth, hsome⟩ := hf
      rw [hno depth] at hsome
      cases hsome
    cases hnone 0 with
    | call hc => exact hstuck (hcall _ hc) fun depth => (hnone depth).call_eq hc
    | react hr => exact hstuck (h.react hr) fun depth => (hnone depth).react_eq hr
    | start hs => exact hstuck (hstart hs) fun depth => (hnone depth).start_eq hs
  exact ⟨m', hmore, depth, hm'⟩

end Machine

/-- By some terms, handlers answer, and so do functions of the host when they go on. -/
structure Terms.Prompt (R : Terms H) : Prop where
  handler {respond : List BoundInput → Reaction H} : R.handlers respond → Answers respond
  task {t : Task H} {replies : List (Reply H)} {r : Reaction H} {w : World H} : R.tasks t →
    t replies = .react r → w.Respects R → ∃ depth, (r.run (World.emit depth) w).isSome

theorem Terms.prompt_unaided {P : Call → Prop} : (unaided P : Terms H).Prompt := ⟨nofun, nofun⟩

/-- No function of a library is guarded. -/
def Library.Unguarded (l : Library H) : Prop :=
  ∀ (name : String) (guard : Call → Reaction H) (inner : Function H),
    l[name]? ≠ some (.guarded guard inner)

theorem Library.unguarded_standard : (Library.standard : Library H).Unguarded := by
  intro name guard inner hf
  obtain ⟨_, _, hb⟩ := List.mem_map.mp (Table.mem_of_getElem?_ofPairs hf)
  cases congrArg Prod.snd hb

theorem Library.Unguarded.insert_host (hl : library.Unguarded) (name : String)
    (respond : Call → Task H) : Library.Unguarded (library.insert name (.host respond)) := by
  intro name' guard inner hf
  rw [Table.getElem?_insert] at hf
  split at hf
  · cases hf
  · exact hl name' guard inner hf

/-- **Machines whose hosts answer go on.** -/
theorem Machine.Keeps.responsive {m : Machine H} {s : Setting H} {R : Terms H} (hm : m.Keeps R s)
    (hR : R.Lasting) (hprompt : R.Prompt) (hl : s.library.Unguarded) : m.Responsive s := by
  intro m' hm' x hx
  have hx := ((hm.comes hR hm').shifts hR hx).1
  have hanswers {event : String} {respond : List BoundInput → Reaction H}
      (hmem : .handler respond ∈ x.world.subscribersOf event) : Answers respond := by
    cases hx.world.subscribers hmem with
    | handler hhandler => exact hprompt.handler hhandler
  refine ⟨fun {c} _ _ => ⟨1, ?_⟩, fun {r} hr => ?_, fun _ _ => ⟨1, ?_⟩⟩
  · exact Call.effect_isSome (hl c.target) (fun _ _ _ _ _ hmem => hanswers hmem) 0
  · unfold reacting? at hr
    split at hr
    next t rest hready =>
      have ht := hx.threads (mem_threads_of_ready hready)
      unfold Thread.reacting? at hr
      split at hr
      next t replies k =>
        have htask : t.Respects R := ht.head
        split at hr
        next hnext =>
          cases hr
          exact hprompt.task htask.task hnext hx.world
        · cases hr
      · cases hr
    · cases hr
  · exact World.emit_isSome (fun _ hmem => hanswers hmem) 0

end SnapBlocks
