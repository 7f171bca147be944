import SnapBlocks.Proofs.Act

/-! What happens when events are emitted. Those who hear an event may subscribe, emit in turn and
fail while it is delivered, so emissions nest. `World.record` emits an event and records all that
happens. In the record of any history each emission serves just those who had subscribed before it
began, at whatever depth it and they began. -/

namespace SnapBlocks

variable {H : Type} {w w' u : World H} {event : String} {args : List BoundInput}

/-- How one who hears an event was served. -/
structure ServiceOf (Happening H : Type) where
  who : Subscriber H
  args : List BoundInput
  /-- What happened in the course of it. -/
  meanwhile : List Happening
  result : Except RunError Unit

/-- What happens to those who hear events. -/
inductive Happening (H : Type) where
  /-- One more hears an event. -/
  | joined (event : String) (who : Subscriber H)
  /-- An event was emitted; `count` is the answer to who emitted it. -/
  | emitted (event : String) (args : List BoundInput)
      (services : List (ServiceOf (Happening H) H)) (count : Nat)

/-- A service. -/
abbrev Service (H : Type) := ServiceOf (Happening H) H

/-- A subscription to an event. -/
abbrev Subscription (H : Type) := String × Subscriber H

/-- Those who subscribed to one event, in order. -/
def subscribersIn (event : String) (l : List (Subscription H)) : List (Subscriber H) :=
  (l.filter fun p => p.1 = event).map (·.2)

namespace Happening

mutual
/-- The subscriptions that were made, at every depth. -/
def subscriptions : Happening H → List (Subscription H)
  | .joined event who => [(event, who)]
  | .emitted _ _ services _ => subscriptionsDuring services

/-- The subscriptions that were made during some services. -/
def subscriptionsDuring : List (ServiceOf (Happening H) H) → List (Subscription H)
  | [] => []
  | ⟨_, _, meanwhile, _⟩ :: rest => subscriptionsAll meanwhile ++ subscriptionsDuring rest

/-- The subscriptions that were made in the course of some happenings. -/
def subscriptionsAll : List (Happening H) → List (Subscription H)
  | [] => []
  | h :: rest => h.subscriptions ++ subscriptionsAll rest
end

/-- What happened in the course of a happening. -/
def meanwhile : Happening H → List (Happening H)
  | .joined _ _ => []
  | .emitted _ _ services _ => services.flatMap (·.meanwhile)

/-- Something happens, at whatever depth, after some subscriptions were made. -/
inductive Arises (d : Happening H) : List (Subscription H) → List (Happening H) → Prop
  | here {rest : List (Happening H)} : Arises d [] (d :: rest)
  | within {earlier : List (Subscription H)} {h : Happening H} {rest : List (Happening H)} :
      Arises d earlier h.meanwhile → Arises d earlier (h :: rest)
  | later {earlier : List (Subscription H)} {h : Happening H} {rest : List (Happening H)} :
      Arises d earlier rest → Arises d (h.subscriptions ++ earlier) (h :: rest)

variable {d h : Happening H} {hs hs' : List (Happening H)} {services : List (Service H)}
variable {earlier : List (Subscription H)}

@[simp] theorem subscriptionsAll_nil : subscriptionsAll ([] : List (Happening H)) = [] := by
  rw [subscriptionsAll]

@[simp] theorem subscriptionsAll_cons (h : Happening H) (hs : List (Happening H)) :
    subscriptionsAll (h :: hs) = h.subscriptions ++ subscriptionsAll hs := by
  rw [subscriptionsAll]

@[simp] theorem subscriptionsAll_append (hs hs' : List (Happening H)) :
    subscriptionsAll (hs ++ hs') = subscriptionsAll hs ++ subscriptionsAll hs' := by
  induction hs with
  | nil => rfl
  | cons h rest ih => rw [List.cons_append, subscriptionsAll_cons, ih, subscriptionsAll_cons,
      List.append_assoc]

theorem subscriptionsDuring_eq (services : List (Service H)) :
    subscriptionsDuring services = subscriptionsAll (services.flatMap (·.meanwhile)) := by
  induction services with
  | nil => rw [subscriptionsDuring]; rfl
  | cons s rest ih =>
    obtain ⟨_, _, meanwhile, _⟩ := s
    rw [subscriptionsDuring, ih, List.flatMap_cons, subscriptionsAll_append]

theorem subscriptions_joined (event : String) (who : Subscriber H) :
    (joined event who).subscriptions = [(event, who)] := by rw [subscriptions]

theorem subscriptions_emitted (event : String) (args : List BoundInput)
    (services : List (Service H)) (count : Nat) :
    (emitted event args services count).subscriptions =
      subscriptionsAll (services.flatMap (·.meanwhile)) := by
  rw [subscriptions, subscriptionsDuring_eq]

theorem Arises.append (h : Arises d earlier (hs ++ hs')) : Arises d earlier hs ∨
    ∃ later, earlier = subscriptionsAll hs ++ later ∧ Arises d later hs' := by
  induction hs generalizing earlier with
  | nil => exact .inr ⟨earlier, rfl, h⟩
  | cons first rest ih =>
    cases h with
    | here => exact .inl .here
    | within h => exact .inl (.within h)
    | later h =>
      rcases ih h with hs | ⟨after, rfl, hs'⟩
      · exact .inl (.later hs)
      · exact .inr ⟨after, by rw [subscriptionsAll_cons, List.append_assoc], hs'⟩

end Happening

open Happening

/-! ## Records -/

/-- Emits an event, and tells what happened. -/
abbrev Recorder (H : Type) :=
  String → List BoundInput → World H → Option (Happening H × Nat × World H)

/-- Carry out a reaction, and tell what happened. -/
def Reaction.record (rec : Recorder H) :
    Reaction H → World H → Option (List (Happening H) × Except RunError Unit × World H)
  | .finish result, w => some ([], result, w)
  | .look rest, w => (rest w.shared).record rec w
  | .change f rest, w => rest.record rec { w with shared := f w.shared }
  | .subscribe event s rest, w =>
    (rest.record rec (w.subscribe event s)).map fun (hs, r) => (.joined event s :: hs, r)
  | .emit event args rest, w =>
    match rec event args w with
    | some (h, count, w) => ((rest count).record rec w).map fun (hs, r) => (h :: hs, r)
    | none => none

/-- Serve a subscriber of an event, and tell what happened. -/
def Subscriber.record (rec : Recorder H) (event : String) (args : List BoundInput) :
    Subscriber H → World H → Option (Service H × World H)
  | .own duty, w => some (⟨.own duty, args, [], .ok ()⟩, duty.perform w)
  | .handler respond, w =>
    match (respond args).record rec w with
    | some (hs, .ok (), w) => some (⟨.handler respond, args, hs, .ok ()⟩, w)
    | some (hs, .error e, w) =>
      some (⟨.handler respond, args, hs, .error e⟩, w.note (.subscriberFailed event e))
    | none => none

/-- Serve subscribers of an event in order, and tell what happened. -/
def recordAll (rec : Recorder H) (event : String) (args : List BoundInput) :
    List (Subscriber H) → World H → Option (List (Service H) × World H)
  | [], w => some ([], w)
  | s :: rest, w =>
    match s.record rec event args w with
    | some (service, w) =>
      (recordAll rec event args rest w).map fun (services, w) => (service :: services, w)
    | none => none

/-- Emit an event, and tell what happened. -/
def World.record : (depth : Nat) → Recorder H
  | 0, _, _, _ => none
  | depth + 1, event, args, w =>
    let subscribers := w.subscribersOf event
    (recordAll (World.record depth) event args subscribers w).map fun (services, w) =>
      (.emitted event args services subscribers.length, subscribers.length, w)

/-- Emit an event without telling what happened. -/
def Recorder.emitter (rec : Recorder H) : Emitter H := fun event args w =>
  (rec event args w).map (·.2)

section
variable {rec : Recorder H}

theorem Reaction.run_eq_record (r : Reaction H) (w : World H) :
    r.run rec.emitter w = (r.record rec w).map (·.2) := by
  fun_induction Reaction.record rec r w with
  | case1 => rfl
  | case2 rest w ih => exact ih
  | case3 f rest w ih => exact ih
  | case4 event s rest w ih => rw [run, ih, Option.map_map]; rfl
  | case5 event args rest w h count u hrec ih =>
    have he : rec.emitter event args w = some (count, u) := by rw [Recorder.emitter, hrec]; rfl
    simp only [run, he, ih, Option.map_map]
    rfl
  | case6 event args rest w hrec =>
    have he : rec.emitter event args w = none := by rw [Recorder.emitter, hrec]; rfl
    simp only [run, he]
    rfl

theorem Subscriber.serve_eq_record (s : Subscriber H) (w : World H) :
    s.serve rec.emitter event args w = (s.record rec event args w).map (·.2) := by
  cases s with
  | own duty => rfl
  | handler respond =>
    rw [serve, record, Reaction.run_eq_record]
    rcases (respond args).record rec w with _ | ⟨hs, _ | _, u⟩ <;> rfl

theorem serveAll_eq_record (l : List (Subscriber H)) (w : World H) :
    serveAll rec.emitter event args l w = (recordAll rec event args l w).map (·.2) := by
  induction l generalizing w with
  | nil => rfl
  | cons s rest ih =>
    rw [serveAll, recordAll, s.serve_eq_record]
    rcases s.record rec event args w with _ | ⟨service, u⟩
    · rfl
    · dsimp only [Option.map_some]
      rw [ih, Option.map_map]
      rfl

end

/-- **Records are those of the emissions that programs make.** -/
theorem World.emitter_record (depth : Nat) :
    (World.record depth : Recorder H).emitter = World.emit depth := by
  induction depth with
  | zero => rfl
  | succ depth ih =>
    funext event args w
    unfold Recorder.emitter
    rw [emit, record, ← ih, serveAll_eq_record]
    simp only [Option.map_map]
    rfl

/-! ## Exact emissions -/

/-- An emission serves those who hear its event, each once and in order, tells them all the same,
and answers with their number. -/
inductive Happening.Exact (hearing : String → List (Subscriber H)) : Happening H → Prop
  | joined {event : String} {who : Subscriber H} : Exact hearing (.joined event who)
  | emitted {event : String} {args : List BoundInput} {services : List (Service H)} :
      services.map (·.who) = hearing event → (∀ s ∈ services, s.args = args) →
      Exact hearing (.emitted event args services services.length)

/-- What is heard between two worlds. -/
structure World.Hears (w : World H) (hs : List (Happening H)) (w' : World H) : Prop where
  /-- Who subscribes to an event hears it ever after, behind those who subscribed before. -/
  kept (event : String) :
    w'.subscribersOf event = w.subscribersOf event ++ subscribersIn event (subscriptionsAll hs)
  /-- An emission serves those who had subscribed when it began. -/
  exact {d : Happening H} {earlier : List (Subscription H)} : Arises d earlier hs →
    d.Exact fun event => w.subscribersOf event ++ subscribersIn event earlier

variable {hs hs' : List (Happening H)} {services : List (Service H)}

@[simp] theorem subscribersIn_append (event : String) (l l' : List (Subscription H)) :
    subscribersIn event (l ++ l') = subscribersIn event l ++ subscribersIn event l' := by
  unfold subscribersIn
  rw [List.filter_append, List.map_append]

namespace World

namespace Hears

theorem quiet (h : w'.subscribers = w.subscribers) : w.Hears [] w' where
  kept event := by
    unfold subscribersOf
    rw [h, subscriptionsAll_nil]
    exact (List.append_nil _).symm
  exact := nofun

theorem joined (w : World H) (event : String) (who : Subscriber H) :
    w.Hears [.joined event who] (w.subscribe event who) where
  kept event' := by
    rw [subscribersOf_subscribe, subscriptionsAll_cons, subscriptions_joined, subscriptionsAll_nil]
    by_cases he : event = event'
    · subst he
      simp [subscribersIn]
    · simp [subscribersIn, he]
  exact h := by
    cases h with
    | here => exact .joined
    | within h => cases h
    | later h => cases h

theorem append (h : w.Hears hs u) (h' : u.Hears hs' w') : w.Hears (hs ++ hs') w' where
  kept event := by
    rw [h'.kept, h.kept, subscriptionsAll_append, subscribersIn_append, List.append_assoc]
  exact ha := by
    rcases ha.append with ha | ⟨after, rfl, ha'⟩
    · exact h.exact ha
    · have hexact := h'.exact ha'
      simp only [h.kept, List.append_assoc] at hexact
      simpa only [subscribersIn_append] using hexact

/-- What is heard while those are served who hear an event is heard from its emission on. -/
theorem emitted (h : w.Hears (services.flatMap (·.meanwhile)) w')
    (hwho : services.map (·.who) = w.subscribersOf event) (hargs : ∀ s ∈ services, s.args = args) :
    w.Hears [.emitted event args services services.length] w' where
  kept event' := by
    rw [h.kept, subscriptionsAll_cons, subscriptionsAll_nil, List.append_nil, subscriptions_emitted]
  exact ha := by
    cases ha with
    | here => exact .emitted (hwho.trans (List.append_nil _).symm) hargs
    | within ha => exact h.exact ha
    | later ha => cases ha

end Hears

end World

/-! ## Histories -/

/-- The history of those who hear events. They subscribe, events are emitted, which `E` tells of,
and all else leaves the subscriptions as they are. -/
inductive Chronicle (E : World H → Happening H → World H → Prop) :
    World H → List (Happening H) → World H → Prop
  | quiet {w w' : World H} : w'.subscribers = w.subscribers → Chronicle E w [] w'
  | subscribe (w : World H) (event : String) (who : Subscriber H) :
      Chronicle E w [.joined event who] (w.subscribe event who)
  | emit {w w' : World H} {h : Happening H} : E w h w' → Chronicle E w [h] w'
  | append {w u w' : World H} {hs hs' : List (Happening H)} : Chronicle E w hs u →
      Chronicle E u hs' w' → Chronicle E w (hs ++ hs') w'

section
variable {E : World H → Happening H → World H → Prop}

theorem Chronicle.hears (hE : ∀ {w h w'}, E w h w' → w.Hears [h] w') (hc : Chronicle E w hs w') :
    w.Hears hs w' := by
  induction hc with
  | quiet h => exact .quiet h
  | subscribe w event who => exact .joined w event who
  | emit h => exact hE h
  | append _ _ ih ih' => exact ih.append ih'

/-- What happens after a history that leaves the subscriptions as they are. -/
theorem Chronicle.then_quiet (hc : Chronicle E w hs u) (h : w'.subscribers = u.subscribers) :
    Chronicle E w hs w' := by
  rw [← List.append_nil hs]
  exact hc.append (.quiet h)

end

/-- What a recorder tells of an emission. -/
def Recorder.Tells (rec : Recorder H) (w : World H) (h : Happening H) (w' : World H) : Prop :=
  ∃ event args n, rec event args w = some (h, n, w')

section
variable {rec : Recorder H}

theorem Reaction.chronicle_of_record (r : Reaction H) {x : Except RunError Unit}
    (h : r.record rec w = some (hs, x, w')) : Chronicle rec.Tells w hs w' := by
  fun_induction Reaction.record rec r w generalizing hs with
  | case1 =>
    cases h
    exact .quiet rfl
  | case2 rest w ih => exact ih h
  | case3 f rest w ih =>
    have hquiet : Chronicle rec.Tells w [] { w with shared := f w.shared } := .quiet rfl
    exact hquiet.append (ih h)
  | case4 event s rest w ih =>
    obtain ⟨⟨hs, r⟩, hrest, he⟩ := Option.map_eq_some_iff.mp h
    cases he
    exact (Chronicle.subscribe w event s).append (ih hrest)
  | case5 event args rest w d count u hd ih =>
    obtain ⟨⟨hs, r⟩, hrest, he⟩ := Option.map_eq_some_iff.mp h
    cases he
    exact (Chronicle.emit ⟨event, args, count, hd⟩).append (ih hrest)
  | case6 => cases h

theorem Subscriber.chronicle_of_record (s : Subscriber H) {service : Service H}
    (h : s.record rec event args w = some (service, w')) :
    service.who = s ∧ service.args = args ∧ Chronicle rec.Tells w service.meanwhile w' := by
  unfold record at h
  split at h
  next duty =>
    cases h
    refine ⟨rfl, rfl, .quiet ?_⟩
    cases duty <;> rfl
  next respond =>
    split at h
    next hr =>
      cases h
      exact ⟨rfl, rfl, Reaction.chronicle_of_record _ hr⟩
    next hr =>
      cases h
      exact ⟨rfl, rfl, (Reaction.chronicle_of_record _ hr).then_quiet rfl⟩
    next => cases h

theorem chronicle_of_recordAll {l : List (Subscriber H)}
    (h : recordAll rec event args l w = some (services, w')) :
    services.map (·.who) = l ∧ (∀ s ∈ services, s.args = args) ∧
      Chronicle rec.Tells w (services.flatMap (·.meanwhile)) w' := by
  induction l generalizing w services with
  | nil =>
    cases h
    exact ⟨rfl, nofun, .quiet rfl⟩
  | cons s rest ih =>
    unfold recordAll at h
    split at h
    next service u hs =>
      obtain ⟨⟨services, w'⟩, hrest, he⟩ := Option.map_eq_some_iff.mp h
      cases he
      obtain ⟨rfl, hargs, hmeanwhile⟩ := s.chronicle_of_record hs
      obtain ⟨rfl, hall, hmeanwhile'⟩ := ih hrest
      exact ⟨rfl, List.forall_mem_cons.mpr ⟨hargs, hall⟩, hmeanwhile.append hmeanwhile'⟩
    next => cases h

end

/-- What is told of an emission is what is heard, however deep emissions nest in it. -/
theorem World.hears_of_record {depth n : Nat} {h : Happening H}
    (hrec : World.record depth event args w = some (h, n, w')) :
    (∃ services, h = .emitted event args services n) ∧ w.Hears [h] w' := by
  induction depth generalizing event args w w' h n with
  | zero => cases hrec
  | succ depth ih =>
    obtain ⟨⟨services, u⟩, hall, he⟩ := Option.map_eq_some_iff.mp hrec
    obtain ⟨hwho, hargs, hmeanwhile⟩ := chronicle_of_recordAll hall
    have hlength : (w.subscribersOf event).length = services.length := by
      rw [← hwho, List.length_map]
    rw [hlength] at he
    cases he
    have hheard := hmeanwhile.hears fun ⟨_, _, _, h⟩ => (ih h).2
    exact ⟨⟨services, rfl⟩, hheard.emitted hwho hargs⟩

/-- An emission, of any event and with any arguments. -/
def World.Emits (w : World H) (h : Happening H) (w' : World H) : Prop :=
  ∃ depth, (World.record depth).Tells w h w'

theorem Chronicle.hears_emits (hc : Chronicle World.Emits w hs w') : w.Hears hs w' :=
  hc.hears fun ⟨_, _, _, _, h⟩ => (World.hears_of_record h).2

/-! ## Deliveries -/

/-- How events are delivered between two worlds. -/
structure World.Delivered (w : World H) (hs : List (Happening H)) (w' : World H) : Prop extends
    w.Hears hs w' where
  /-- Who subscribes after an emission began is served by all that begin later, and by no other. -/
  later {event : String} {args args' : List BoundInput} {services services' : List (Service H)}
    {n n' : Nat} {earlier between : List (Subscription H)} :
    Arises (.emitted event args services n) earlier hs →
    Arises (.emitted event args' services' n') (earlier ++ between) hs →
    services'.map (·.who) = services.map (·.who) ++ subscribersIn event between
  /-- What happens to other events does not matter. -/
  others {event : String} : (∀ p ∈ subscriptionsAll hs, p.1 ≠ event) →
    w'.subscribersOf event = w.subscribersOf event

theorem Happening.Exact.who_eq {hearing : String → List (Subscriber H)} {n : Nat}
    (h : (Happening.emitted event args services n).Exact hearing) :
    services.map (·.who) = hearing event := by
  cases h with
  | emitted hwho _ => exact hwho

theorem World.Hears.delivered (h : w.Hears hs w') : w.Delivered hs w' where
  toHears := h
  later hd hd' := by
    rw [(h.exact hd).who_eq, (h.exact hd').who_eq, subscribersIn_append, List.append_assoc]
  others hno := by
    have hnone : subscribersIn _ (subscriptionsAll hs) = [] :=
      List.map_eq_nil_iff.mpr (List.filter_eq_nil_iff.mpr fun p hp => by simpa using hno p hp)
    rw [h.kept, hnone, List.append_nil]

/-- **Delivery of events.** After any history, an emission that returns serves those who have
subscribed, and it and all emissions before it and in it are delivered exactly. -/
theorem Chronicle.emit_delivered {depth n : Nat} (hc : Chronicle World.Emits w hs u)
    (he : u.emit depth event args = some (n, w')) : ∃ services,
      World.record depth event args u = some (.emitted event args services n, n, w') ∧
      (Happening.emitted event args services n).Exact u.subscribersOf ∧
      w.Delivered (hs ++ [.emitted event args services n]) w' := by
  rw [← World.emitter_record] at he
  obtain ⟨⟨h, r⟩, hrec, hr⟩ := Option.map_eq_some_iff.mp he
  cases hr
  obtain ⟨⟨services, rfl⟩, hheard⟩ := World.hears_of_record hrec
  have hbefore := hc.hears_emits
  have hexact := hheard.exact .here
  simp only [subscribersIn, List.filter_nil, List.map_nil, List.append_nil] at hexact
  exact ⟨services, hrec, hexact, (hbefore.append hheard).delivered⟩

/-! ## A handler that makes others hear what it hears -/

/-- The first time that it hears something, it lets one more hear it, emits it again and fails. All
count what they hear. -/
def echo : Subscriber Nat :=
  let hear (n : Nat) : Reaction Nat → Reaction Nat :=
    .change fun s => { s with host := s.host + n }
  .handler fun args => hear 1 <| .look fun s =>
    if s.host = 1 then
      .subscribe "ping" (.handler fun _ => hear 10 .done) <|
        .emit "ping" args fun _ => .fail (.custom "once")
    else .done

/-- A world in which two such handlers hear an event. -/
def echoing : World Nat :=
  (({ shared := { host := 0 } } : World Nat).subscribe "ping" echo).subscribe "ping" echo

/-- The first emission serves two, and the one in it three. -/
theorem emit_delivered_echoing : ∃ w' services,
    echoing.emit 2 "ping" [] = some (2, w') ∧ w'.shared.host = 14 ∧
      (w'.subscribersOf "ping").length = 3 ∧
      (Happening.emitted "ping" [] services 2).Exact echoing.subscribersOf ∧
      echoing.Delivered [.emitted "ping" [] services 2] w' := by
  have hrun : (echoing.emit 2 "ping" []).map (fun p =>
      (p.1, p.2.shared.host, (p.2.subscribersOf "ping").length)) = some (2, 14, 3) := by
    decide +kernel
  obtain ⟨⟨n, w'⟩, he, hcounts⟩ := Option.map_eq_some_iff.mp hrun
  simp only [Prod.mk.injEq] at hcounts
  obtain ⟨rfl, hhost, hlength⟩ := hcounts
  have hnone : Chronicle World.Emits echoing [] echoing := .quiet rfl
  obtain ⟨services, _, hexact, hdelivered⟩ := Chronicle.emit_delivered hnone he
  exact ⟨w', services, he, hhost, hlength, hexact, hdelivered⟩

end SnapBlocks
