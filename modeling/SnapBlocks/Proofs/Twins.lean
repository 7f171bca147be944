import SnapBlocks.Proofs.Isolation
import SnapBlocks.Proofs.Act

/-! What programs cannot tell apart. Nothing that runs reads how many calls were counted or what was
noted, and a failure ends at the same boundary whatever that one is called. So worlds that differ in
no more than this come to worlds of the same kind, and threads that differ in the names of their
boundaries only, or in how the conditions of their arms are written, do the same in them. -/

namespace SnapBlocks

variable {H α β : Type} {w w' : World H} {em : Emitter H} {c : Call} {event : String}
variable {args : List BoundInput} {library : Library H} {t t' k : Thread H}

/-! ## Worlds -/

/-- Two worlds differ at most in the calls that were counted and in what was noted. -/
structure World.Like (w w' : World H) : Prop where
  shared : w'.shared = w.shared
  subscribers : w'.subscribers = w.subscribers
  queue : w'.queue = w.queue
  signal : w'.signal = w.signal
  failures : w'.failures = w.failures

namespace World.Like

theorem symm (h : w.Like w') : w'.Like w :=
  ⟨h.shared.symm, h.subscribers.symm, h.queue.symm, h.signal.symm, h.failures.symm⟩

theorem refl (w : World H) : w.Like w := ⟨rfl, rfl, rfl, rfl, rfl⟩

theorem note (h : w.Like w') (n n' : Notice) : (w.note n).Like (w'.note n') :=
  ⟨h.shared, h.subscribers, h.queue, h.signal, h.failures⟩

theorem noteAny (h : w.Like w') (n : Option Notice) : (w.noteAny n).Like (w'.noteAny n) := by
  cases n with
  | none => exact h
  | some n => exact h.note n n

theorem noteFailure (h : w.Like w') (n n' : Notice) : (w.noteFailure n).Like (w'.noteFailure n') :=
  ⟨h.shared, h.subscribers, h.queue, h.signal, congrArg (· + 1) h.failures⟩

theorem countCall (h : w.Like w') : w.countCall.Like w'.countCall :=
  ⟨h.shared, h.subscribers, h.queue, h.signal, h.failures⟩

theorem enqueue (h : w.Like w') (b : Body) : (w.enqueue b).Like (w'.enqueue b) :=
  ⟨h.shared, h.subscribers, congrArg (· ++ [b]) h.queue, rfl, h.failures⟩

theorem change (h : w.Like w') (f : Shared H → Shared H) :
    World.Like { w with shared := f w.shared } { w' with shared := f w'.shared } :=
  ⟨congrArg f h.shared, h.subscribers, h.queue, h.signal, h.failures⟩

theorem trip (h : w.Like w') (t : Token) : (w.trip t).Like (w'.trip t) :=
  h.change fun s => { s with tokens := s.tokens.trip t }

theorem setVariable (h : w.Like w') (key value : String) :
    (w.setVariable key value).Like (w'.setVariable key value) :=
  h.change fun s => { s with store := s.store.insert key value }

theorem subscribersOf (h : w.Like w') (event : String) :
    w'.subscribersOf event = w.subscribersOf event := by
  unfold World.subscribersOf
  rw [h.subscribers]

theorem subscribe (h : w.Like w') (event : String) (s : Subscriber H) :
    (w.subscribe event s).Like (w'.subscribe event s) := by
  refine ⟨h.shared, ?_, h.queue, h.signal, h.failures⟩
  unfold World.subscribe
  rw [h.subscribersOf, h.subscribers]

end World.Like

/-! ## Effects -/

/-- Two outcomes correspond: there is none, or their worlds are alike and the rest is related. -/
inductive Alike (R : α → β → Prop) : Option (α × World H) → Option (β × World H) → Prop
  | none : Alike R .none .none
  | some {a : α} {b : β} {w w' : World H} : R a b → w.Like w' →
      Alike R (.some (a, w)) (.some (b, w'))

/-- What an emitter does is the same in worlds that are alike. -/
def Emitter.Blind (em : Emitter H) : Prop :=
  ∀ event args {w w' : World H}, w.Like w' → Alike Eq (em event args w) (em event args w')

section
variable (hem : em.Blind)
include hem

theorem Reaction.run_alike (r : Reaction H) (h : w.Like w') :
    Alike Eq (r.run em w) (r.run em w') := by
  fun_induction Reaction.run em r w generalizing w' with
  | case1 => exact .some rfl h
  | case2 rest w ih =>
    change Alike Eq _ ((rest w'.shared).run em w')
    rw [h.shared]
    exact ih h
  | case3 f rest w ih => exact ih (h.change f)
  | case4 event s rest w ih => exact ih (h.subscribe event s)
  | case5 event args rest w count u he ih =>
    have hemit := hem event args h
    rw [he] at hemit
    simp only [run]
    generalize em event args w' = o at hemit
    cases hemit with
    | some hcount hu =>
      cases hcount
      exact ih hu
  | case6 event args rest w he =>
    have hemit := hem event args h
    rw [he] at hemit
    simp only [run]
    generalize em event args w' = o at hemit
    cases hemit
    exact .none

theorem Subscriber.serve_alike (s : Subscriber H) (h : w.Like w') :
    Option.Rel World.Like (s.serve em event args w) (s.serve em event args w') := by
  cases s with
  | own duty =>
    cases duty with
    | stop =>
      refine .some ?_
      change (w.trip w.shared.tokens.current).Like (w'.trip w'.shared.tokens.current)
      rw [h.shared]
      exact h.trip _
    | start body => exact .some (h.enqueue body)
  | handler respond =>
    have hrun := Reaction.run_alike hem (respond args) h
    simp only [serve]
    generalize (respond args).run em w = o, (respond args).run em w' = o' at hrun
    cases hrun with
    | none => exact .none
    | @some a _ _ _ ha hu =>
      cases ha
      cases a with
      | ok => exact .some hu
      | error e => exact .some (hu.note _ _)

theorem serveAll_alike (l : List (Subscriber H)) (h : w.Like w') :
    Option.Rel World.Like (serveAll em event args l w) (serveAll em event args l w') := by
  induction l generalizing w w' with
  | nil => exact .some h
  | cons s rest ih =>
    have hserve : Option.Rel World.Like (s.serve em event args w) (s.serve em event args w') :=
      s.serve_alike hem h
    unfold serveAll
    generalize s.serve em event args w = o, s.serve em event args w' = o' at hserve
    cases hserve with
    | none => exact .none
    | some hu => exact ih hu

end

theorem World.emit_blind (depth : Nat) : (World.emit depth : Emitter H).Blind := by
  induction depth with
  | zero => exact fun _ _ _ _ _ => .none
  | succ depth ih =>
    intro event args w w' h
    have hserve : Option.Rel World.Like
        (serveAll (emit depth) event args (w.subscribersOf event) w)
        (serveAll (emit depth) event args (w.subscribersOf event) w') :=
      serveAll_alike ih _ h
    unfold emit
    rw [h.subscribersOf]
    dsimp only
    generalize serveAll _ event args _ w = o, serveAll _ event args _ w' = o' at hserve
    cases hserve with
    | none => exact .none
    | some hu => exact .some rfl hu

section
variable (hem : em.Blind)
include hem

theorem Act.run_alike (a : Act H) (h : w.Like w') : Alike Eq (a.run em w) (a.run em w') := by
  cases a with
  | note n => exact .some rfl (h.note n n)
  | listen n event body => exact .some rfl ((h.noteAny n).subscribe event _)
  | emit event args n =>
    have hemit := hem event args h
    simp only [run]
    generalize em event args w = o, em event args w' = o' at hemit
    cases hemit with
    | none => exact .none
    | some hcount hu =>
      cases hcount
      exact .some rfl (hu.noteAny _)
  | set key value => exact .some rfl (h.setVariable key value)
  | leave k => exact .some rfl h

theorem Function.effect_alike (f : Function H) (h : w.Like w') :
    Alike Eq ((f.effect em c).run w) ((f.effect em c).run w') := by
  induction f generalizing w w' with
  | builtin b =>
    unfold effect
    rw [Builtin.effect_run, Builtin.effect_run, h.shared]
    cases b.act c w.shared with
    | error e => exact .some rfl h
    | ok a =>
      have hrun := Act.run_alike hem a h
      unfold Act.outcome
      dsimp only
      generalize a.run em w = o, a.run em w' = o' at hrun
      cases hrun with
      | none => exact .none
      | some hwork hu => exact .some (congrArg _ hwork) hu
  | host respond => exact .some rfl h
  | guarded guard inner ih =>
    unfold effect
    rw [Effect.run_bind, Effect.run_bind, Effect.run_react, Effect.run_react]
    have hrun := Reaction.run_alike hem (guard c) h
    generalize (guard c).run em w = o, (guard c).run em w' = o' at hrun
    cases hrun with
    | none => exact .none
    | @some a _ _ _ ha hu =>
      cases ha
      cases a with
      | ok => exact ih hu
      | error e => exact .some rfl hu

/-- **A call has the same effect in worlds that are alike.** -/
theorem Call.effect_alike (h : w.Like w') :
    Alike Eq ((c.effect library em).run w) ((c.effect library em).run w') := by
  unfold effect
  cases library[c.target]? with
  | none => exact .some rfl h
  | some f =>
    rw [Effect.run_bind, Effect.run_bind, Effect.run_change, Effect.run_change]
    exact Function.effect_alike hem f h.countCall

end

/-! ## Threads -/

/-- Inputs that name the same variables for a condition. -/
structure SameCondition (l l' : List BoundInput) : Prop where
  varA : variableOf? l' "varA" = variableOf? l "varA"
  varB : variableOf? l' "varB" = variableOf? l "varB"
  eval : variableOf? l' "eval" = variableOf? l "eval"

theorem SameCondition.holds_eq {l l' : List BoundInput} (h : SameCondition l l') (s : Shared H) :
    s.conditionHolds l' = s.conditionHolds l := by
  unfold Shared.conditionHolds
  rw [h.varA, h.varB, h.eval]

/-- Arms with the same condition and the same chain. -/
structure Arm.Like (a a' : Arm) : Prop where
  condition : SameCondition a.condition a'.condition
  chain : a'.body.chain = a.body.chain

theorem Arm.Like.refl (a : Arm) : a.Like a := ⟨⟨rfl, rfl, rfl⟩, rfl⟩

/-- Boundaries that differ at most in what a body is called. -/
inductive Boundary.Like : Boundary H → Boundary H → Prop
  | refl (b : Boundary H) : Like b b
  | body (label label' : String) : Like (.body label) (.body label')

theorem Boundary.Like.catch {b b' : Boundary H} (hb : b.Like b') (e : RunError) (h : w.Like w') :
    (b.catch e w).Like (b'.catch e w') := by
  cases hb with
  | refl b =>
    unfold Boundary.catch
    cases b.notice? e with
    | none => exact h
    | some n => exact h.noteFailure n n
  | body => exact h.noteFailure _ _

theorem Boundary.Like.resume_eq {b b' : Boundary H} (hb : b.Like b') (result : Except RunError Unit)
    (shared : Shared H) : b'.resume result shared = b.resume result shared := by
  cases hb with
  | refl => rfl
  | body => rfl

/-- Frames that differ at most in the names of boundaries, and in how conditions are written. -/
inductive Frame.Like : Frame H → Frame H → Prop
  | calls (cs : List Call) : Like (.calls cs) (.calls cs)
  | boundary {b b' : Boundary H} : b.Like b' → Like (.boundary b) (.boundary b')
  | arms {as as' : List Arm} : List.Forall₂ Arm.Like as as' → Like (.arms as) (.arms as')
  | loop (l : Loop) : Like (.loop l) (.loop l)
  | check (token : Token) (l : Loop) : Like (.check token l) (.check token l)
  | task (x : Task H) (replies : List (Reply H)) : Like (.task x replies) (.task x replies)

theorem Frame.Like.refl (f : Frame H) : f.Like f := by
  cases f with
  | calls cs => exact .calls cs
  | boundary b => exact .boundary (.refl b)
  | arms as => exact .arms (List.forall₂_same.mpr fun a _ => .refl a)
  | loop l => exact .loop l
  | check token l => exact .check token l
  | task x replies => exact .task x replies

/-- Threads of frames that are alike. -/
def Thread.Like (t t' : Thread H) : Prop := List.Forall₂ Frame.Like t t'

namespace Thread.Like

theorem refl (t : Thread H) : t.Like t := List.forall₂_same.mpr fun f _ => .refl f

theorem append (h : t.Like t') {k k' : Thread H} (hk : k.Like k') : (t ++ k).Like (t' ++ k') :=
  List.rel_append h hk

theorem body (b b' : Body) (h : b'.chain = b.chain) :
    Thread.Like (b.frames : Thread H) b'.frames := by
  unfold Body.frames
  rw [h]
  exact .cons (.calls _) (.cons (.boundary (.body _ _)) .nil)

end Thread.Like

/-- What comes of steps of threads that are alike. -/
inductive Advance.Like : Advance H → Advance H → Prop
  | on {t t' : Thread H} : t.Like t' → Like (.on t) (.on t')
  | pause (token : Option Token) {t t' : Thread H} : t.Like t' →
      Like (.pause token t) (.pause token t')
  | escaped (e : RunError) : Like (.escaped e) (.escaped e)

theorem unwind_alike (ht : t.Like t') :
    (unwind t).1.Like (unwind t').1 ∧ Thread.Like (unwind t).2 (unwind t').2 := by
  induction ht with
  | nil => exact ⟨.refl _, .nil⟩
  | cons hf hk ih =>
    cases hf with
    | boundary hb => exact ⟨hb, hk⟩
    | _ => exact ih

theorem fail_alike (e : RunError) (ht : t.Like t') (h : w.Like w') :
    Alike Advance.Like (some (fail e t w)) (some (fail e t' w')) := by
  obtain ⟨hb, hk⟩ := unwind_alike ht
  unfold fail
  generalize unwind t = p, unwind t' = p' at hb hk
  obtain ⟨b, k⟩ := p
  obtain ⟨b', k'⟩ := p'
  have hon : Alike Advance.Like (some (.on (b.resume (.error e) w.shared ++ k), b.catch e w))
      (some (.on (b'.resume (.error e) w'.shared ++ k'), b'.catch e w')) := by
    rw [hb.resume_eq, h.shared]
    exact .some (.on ((Thread.Like.refl _).append hk)) (hb.catch e h)
  cases hb with
  | refl b =>
    cases b with
    | outside => exact .some (.escaped e) h
    | _ => exact hon
  | body => exact hon

theorem Loop.leave_alike (l : Loop) (h : w.Like w') : (l.leave w).Like (l.leave w') := by
  unfold leave
  cases l.condition with
  | none => exact h.note _ _
  | some inputs => exact h

/-- **Threads that are alike do the same** in worlds that are alike. -/
theorem advance_alike (hem : em.Blind) (ht : t.Like t') (h : w.Like w') :
    Alike Advance.Like (advance library em t w) (advance library em t' w') := by
  cases ht with
  | nil => exact .some (.on .nil) h
  | cons hf hk =>
    cases hf with
    | calls cs =>
      cases cs with
      | nil => exact .some (.on hk) h
      | cons c cs =>
        have hrun : Alike Eq ((c.effect library em).run w) ((c.effect library em).run w') :=
          Call.effect_alike hem h
        simp only [advance]
        generalize (c.effect library em).run w = o, (c.effect library em).run w' = o' at hrun
        cases hrun with
        | none => exact .none
        | @some a _ _ _ ha hu =>
          cases ha
          cases a with
          | ok work => exact .some (.on ((Thread.Like.refl _).append (.cons (.calls cs) hk))) hu
          | error e => exact fail_alike e hk hu
    | boundary hb =>
      simp only [advance, h.shared, hb.resume_eq]
      exact .some (.on ((Thread.Like.refl _).append hk)) h
    | arms has =>
      cases has with
      | nil => exact .some (.on hk) h
      | @cons a a' as as' ha has =>
        simp only [advance, h.shared, ha.condition.holds_eq]
        split
        · exact .some (.on ((Thread.Like.body _ _ ha.chain).append (.cons (.arms has) hk))) h
        · exact .some (.on (.cons (.arms has) hk)) h
    | loop l =>
      simp only [advance, h.shared]
      split
      · exact .some (.on hk) (l.leave_alike h)
      · exact .some (.pause _ (.cons (.check _ l) hk)) h
    | check token l =>
      simp only [advance, h.shared]
      split
      · exact .some (.on ((Thread.Like.refl _).append (.cons (.loop l) hk))) h
      · exact .some (.on hk) (l.leave_alike h)
    | task x replies =>
      simp only [advance, h.shared]
      cases x replies with
      | finish result =>
        cases result with
        | ok => exact .some (.on hk) h
        | error e => exact fail_alike e hk h
      | react r =>
        have hrun := Reaction.run_alike hem r h
        dsimp only
        generalize r.run em w = o, r.run em w' = o' at hrun
        cases hrun with
        | none => exact .none
        | @some result _ _ _ hresult hu =>
          cases hresult
          dsimp only
          rw [hu.shared]
          exact .some (.on (.cons (.task x _) hk)) hu
      | pause => exact .some (.pause none (.cons (.task x _) hk)) h
      | invoke isolated b => exact .some (.on (.cons (.calls _) (.cons (.boundary (.refl _)) hk))) h

end SnapBlocks
