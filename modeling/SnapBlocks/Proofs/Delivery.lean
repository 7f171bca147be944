import SnapBlocks.Proofs.Act
import SnapBlocks.Proofs.Moves

/-! What emissions deliver. An emission serves those who had subscribed when it began: a body that
had subscribed is queued once, and a handler may emit in turn. `Delivery` is the tree of what came
of an emission, and `World.delivery` the tree of a given one. Emissions queue the bodies of their
trees behind those that wait and tell whoever waits for bodies, and leave the accounts of failures
and calls as they are. -/

namespace SnapBlocks

variable {H : Type} {w w' : World H} {em : Emitter H} {c : Call} {event : String}
variable {args : List BoundInput} {b : Body}

/-- What comes of an emission. -/
inductive Delivery where
  /-- A body that had subscribed was queued. -/
  | body (b : Body)
  /-- An event was emitted when these bodies had subscribed to it; the parts came of it in turn. -/
  | emission (event : String) (subscribed : List Body) (parts : List Delivery)

namespace Delivery

mutual
/-- The bodies that are queued, in order. -/
def bodies : Delivery → List Body
  | .body b => [b]
  | .emission _ _ parts => bodiesAll parts

/-- The bodies that several deliveries queue, in order. -/
def bodiesAll : List Delivery → List Body
  | [] => []
  | d :: ds => d.bodies ++ bodiesAll ds
end

/-- The body that is queued here and not by an emission in turn. -/
def own? : Delivery → Option Body
  | .body b => some b
  | .emission .. => none

/-- Every emission itself queues just the bodies that had subscribed when it began, each of them
once and in the order of their subscriptions. -/
inductive Exact : Delivery → Prop
  | body {b : Body} : Exact (.body b)
  | emission {event : String} {parts : List Delivery} {subscribed : List Body} :
      parts.filterMap own? = subscribed → (∀ d ∈ parts, Exact d) →
      Exact (.emission event subscribed parts)

theorem bodiesAll_append (ds ds' : List Delivery) :
    bodiesAll (ds ++ ds') = bodiesAll ds ++ bodiesAll ds' := by
  induction ds with
  | nil => rfl
  | cons d ds ih =>
    simp only [List.cons_append, bodiesAll]
    rw [ih, List.append_assoc]

theorem bodiesAll_singleton (d : Delivery) : bodiesAll [d] = d.bodies := by
  simp only [bodiesAll, List.append_nil]

end Delivery

open Delivery

/-! ## The deliveries of emissions -/

/-- Tells what comes of an emission. -/
abbrev Tracer (H : Type) := String → List BoundInput → World H → Delivery

/-- The body that a subscriber queues. -/
def Subscriber.body? : Subscriber H → Option Body
  | .own (.start b) => some b
  | .own .stop => none
  | .handler _ => none

/-- The bodies that have subscribed to an event, in order. -/
def World.bodiesOf (w : World H) (event : String) : List Body :=
  (w.subscribersOf event).filterMap Subscriber.body?

/-- What the emissions of a reaction deliver. -/
def Reaction.deliveries (em : Emitter H) (tr : Tracer H) : Reaction H → World H → List Delivery
  | .finish _, _ => []
  | .look rest, w => (rest w.shared).deliveries em tr w
  | .change f rest, w => rest.deliveries em tr { w with shared := f w.shared }
  | .subscribe event s rest, w => rest.deliveries em tr (w.subscribe event s)
  | .emit event args rest, w =>
    tr event args w ::
      match em event args w with
      | some (count, w) => (rest count).deliveries em tr w
      | none => []

/-- What is delivered when a subscriber of an event is served. -/
def Subscriber.deliveries (em : Emitter H) (tr : Tracer H) (args : List BoundInput) :
    Subscriber H → World H → List Delivery
  | .own .stop, _ => []
  | .own (.start b), _ => [.body b]
  | .handler respond, w => (respond args).deliveries em tr w

/-- What is delivered when subscribers of an event are served in order. -/
def deliveriesAll (em : Emitter H) (tr : Tracer H) (event : String) (args : List BoundInput) :
    List (Subscriber H) → World H → List Delivery
  | [], _ => []
  | s :: rest, w =>
    s.deliveries em tr args w ++
      match s.serve em event args w with
      | some w => deliveriesAll em tr event args rest w
      | none => []

/-- What comes of the emission of an event. -/
def World.delivery : (depth : Nat) → Tracer H
  | 0, event, _, w => .emission event (w.bodiesOf event) []
  | depth + 1, event, args, w =>
    .emission event (w.bodiesOf event)
      (deliveriesAll (World.emit depth) (World.delivery depth) event args (w.subscribersOf event) w)

/-! ## Accounts -/

/-- Whether a notice is that of a failure that was counted. -/
def Notice.isFailure : Notice → Bool
  | .entryFailed _ => true
  | .bodyFailed _ _ => true
  | _ => false

/-- The failures that were noted, in order. -/
def World.noted (w : World H) : List Notice := w.log.filter Notice.isFailure

/-- A world in which deliveries were made: the bodies wait behind those that waited before, and
whoever waits for bodies is told. -/
structure World.Delivers (w : World H) (ds : List Delivery) (w' : World H) : Prop where
  queue : w'.queue = w.queue ++ bodiesAll ds
  exact {d : Delivery} : d ∈ ds → d.Exact
  alert : w.Alert → w'.Alert

/-- A world in which deliveries were made, and no call or failure was counted. -/
structure World.Served (w : World H) (ds : List Delivery) (w' : World H) : Prop extends
    World.Delivers w ds w' where
  calls : w'.calls = w.calls
  failures : w'.failures = w.failures
  noted : w'.noted = w.noted

namespace World

theorem Alert.of_eq (h : w.Alert) (hq : w'.queue = w.queue) (hs : w'.signal = w.signal) :
    w'.Alert := fun hne => hs ▸ h (hq ▸ hne)

theorem Delivers.trans {u : World H} {ds ds' : List Delivery} (h : w.Delivers ds u)
    (h' : u.Delivers ds' w') : w.Delivers (ds ++ ds') w' where
  queue := by rw [h'.queue, h.queue, bodiesAll_append, List.append_assoc]
  exact hd := (List.mem_append.mp hd).elim h.exact h'.exact
  alert := h'.alert ∘ h.alert

theorem delivers_of_eq (hq : w'.queue = w.queue) (hs : w'.signal = w.signal) : w.Delivers [] w' where
  queue := hq.trans (List.append_nil _).symm
  exact := nofun
  alert h := h.of_eq hq hs

theorem served_of_eq (hq : w'.queue = w.queue) (hs : w'.signal = w.signal)
    (hc : w'.calls = w.calls) (hf : w'.failures = w.failures) (hl : w'.log = w.log) :
    w.Served [] w' where
  toDelivers := delivers_of_eq hq hs
  calls := hc
  failures := hf
  noted := congrArg (List.filter Notice.isFailure) hl

theorem Served.refl (w : World H) : w.Served [] w := served_of_eq rfl rfl rfl rfl rfl

theorem Served.trans {u : World H} {ds ds' : List Delivery} (h : w.Served ds u)
    (h' : u.Served ds' w') : w.Served (ds ++ ds') w' where
  toDelivers := h.toDelivers.trans h'.toDelivers
  calls := h'.calls.trans h.calls
  failures := h'.failures.trans h.failures
  noted := h'.noted.trans h.noted

theorem noted_note (w : World H) (n : Notice) :
    (w.note n).noted = w.noted ++ [n].filter Notice.isFailure := List.filter_append ..

theorem served_note (w : World H) {n : Notice} (hn : n.isFailure = false) :
    w.Served [] (w.note n) where
  toDelivers := delivers_of_eq rfl rfl
  calls := rfl
  failures := rfl
  noted := by rw [noted_note, List.filter_cons_of_neg (by simp [hn]), List.filter_nil,
    List.append_nil]

theorem served_enqueue (w : World H) (b : Body) : w.Served [.body b] (w.enqueue b) where
  queue := rfl
  exact hd := List.mem_singleton.mp hd ▸ .body
  alert _ _ := rfl
  calls := rfl
  failures := rfl
  noted := rfl

theorem served_share (w : World H) (shared : Shared H) :
    w.Served [] { w with shared := shared } := served_of_eq rfl rfl rfl rfl rfl

theorem served_subscribe (w : World H) (event : String) (s : Subscriber H) :
    w.Served [] (w.subscribe event s) := served_of_eq rfl rfl rfl rfl rfl

end World

/-! ## Emissions -/

/-- Emissions deliver what a tracer tells. -/
structure Emitter.Traced (em : Emitter H) (tr : Tracer H) : Prop where
  own (event : String) (args : List BoundInput) (w : World H) : (tr event args w).own? = none
  served {event : String} {args : List BoundInput} {w w' : World H} {n : Nat} :
    em event args w = some (n, w') → w.Served [tr event args w] w'

section
variable {tr : Tracer H} (hem : em.Traced tr)
include hem

theorem Reaction.run_served (r : Reaction H) {x : Except RunError Unit}
    (h : r.run em w = some (x, w')) : w.Served (r.deliveries em tr w) w' := by
  fun_induction Reaction.run em r w with
  | case1 result w =>
    cases h
    exact .refl _
  | case2 rest w ih => exact ih h
  | case3 f rest w ih => exact (World.served_share w _).trans (ih h)
  | case4 event s rest w ih => exact (World.served_subscribe w event s).trans (ih h)
  | case5 event args rest w count u he ih =>
    have hd : (Reaction.emit event args rest).deliveries em tr w =
        [tr event args w] ++ (rest count).deliveries em tr u := by
      simp only [deliveries, he, List.singleton_append]
    rw [hd]
    exact (hem.served he).trans (ih h)
  | case6 => cases h

theorem Subscriber.serve_served (s : Subscriber H) (h : s.serve em event args w = some w') :
    w.Served (s.deliveries em tr args w) w' := by
  unfold serve at h
  split at h
  next duty =>
    cases h
    cases duty with
    | stop => exact w.served_share _
    | start b => exact w.served_enqueue b
  next respond =>
    split at h
    next hr =>
      cases h
      exact Reaction.run_served hem _ hr
    next e u hr =>
      cases h
      have hnote := (Reaction.run_served hem _ hr).trans
        (u.served_note (n := .subscriberFailed event e) rfl)
      rwa [List.append_nil] at hnote
    · cases h

theorem serveAll_served {l : List (Subscriber H)} (h : serveAll em event args l w = some w') :
    w.Served (deliveriesAll em tr event args l w) w' := by
  induction l generalizing w with
  | nil =>
    cases h
    exact .refl _
  | cons s rest ih =>
    unfold serveAll at h
    split at h
    next u hs =>
      unfold deliveriesAll
      rw [hs]
      exact (s.serve_served hem hs).trans (ih h)
    · cases h

/-- What a handler delivers, it delivers by emissions in turn. -/
theorem Reaction.own_deliveries (r : Reaction H) (w : World H) :
    (r.deliveries em tr w).filterMap own? = [] := by
  fun_induction Reaction.deliveries em tr r w with
  | case1 => rfl
  | case2 rest w ih => exact ih
  | case3 f rest w ih => exact ih
  | case4 event s rest w ih => exact ih
  | case5 event args rest w ih =>
    rw [List.filterMap_cons_none (hem.own _ _ _)]
    split
    next count u _ => exact ih count u
    · rfl

theorem Subscriber.own_deliveries (s : Subscriber H) (w : World H) :
    (s.deliveries em tr args w).filterMap own? = s.body?.toList := by
  unfold deliveries
  split
  · rfl
  · rfl
  · exact Reaction.own_deliveries hem _ w

/-- Those who are served queue the bodies that they stand for. -/
theorem own_deliveriesAll {l : List (Subscriber H)} (h : serveAll em event args l w = some w') :
    (deliveriesAll em tr event args l w).filterMap own? = l.filterMap Subscriber.body? := by
  induction l generalizing w with
  | nil => rfl
  | cons s rest ih =>
    unfold serveAll at h
    split at h
    next u hs =>
      unfold deliveriesAll
      rw [hs, List.filterMap_append, s.own_deliveries hem w, ih h, List.filterMap_cons]
      cases s.body? <;> rfl
    · cases h

end

/-- **Exact emissions.** However deep emissions nest, each of them queues the bodies that had
subscribed when it began, and nothing else of its own. -/
theorem World.emit_traced (depth : Nat) :
    (World.emit depth : Emitter H).Traced (World.delivery depth) := by
  induction depth with
  | zero => exact ⟨fun _ _ _ => rfl, nofun⟩
  | succ depth ih =>
    refine ⟨fun _ _ _ => rfl, fun {event args w w' n} h => ?_⟩
    obtain ⟨u, hu, he⟩ := Option.map_eq_some_iff.mp h
    cases he
    have hs := serveAll_served ih hu
    refine { hs with queue := ?_, exact := fun hd => ?_ }
    · rw [hs.queue, bodiesAll_singleton]
      rfl
    · cases List.mem_singleton.mp hd
      exact .emission (own_deliveriesAll ih hu) fun d hd => hs.exact hd

/-! ## Calls -/

/-- What the emissions of a built-in function deliver. -/
def Builtin.deliveries (tr : Tracer H) (b : Builtin) (c : Call) (w : World H) : List Delivery :=
  match b with
  | endAgent => [tr stopEvent [] w]
  | broadcast =>
    match c.need b "broadcast" 1 with
    | .error _ => []
    | .ok inputs =>
      match w.shared.lookup? (variableOf? inputs "channel") with
      | none => []
      | some channel => [tr channel inputs w]
  | _ => []

/-- What the emissions of a function deliver before it leaves work. -/
def Function.deliveries (em : Emitter H) (tr : Tracer H) :
    Function H → Call → World H → List Delivery
  | .builtin b, c, w => b.deliveries tr c w
  | .host _, _, _ => []
  | .guarded guard inner, c, w =>
    (guard c).deliveries em tr w ++
      match (guard c).run em w with
      | some (.ok (), w) => inner.deliveries em tr c w
      | _ => []

/-- What the emissions of a call deliver. -/
def Call.deliveries (library : Library H) (em : Emitter H) (tr : Tracer H) (c : Call)
    (w : World H) : List Delivery :=
  match library[c.target]? with
  | none => []
  | some f => f.deliveries em tr c w.countCall

/-- Whether a library has the function that a call names. -/
def Call.isFound (library : Library H) (c : Call) : Bool := library[c.target]?.isSome

section
variable {tr : Tracer H} (hem : em.Traced tr)
include hem

theorem Builtin.effect_served (b : Builtin) (c : Call) (w : World H) :
    (b.effect em c).Yields w fun _ w' => w.Served (b.deliveries tr c w) w' := by
  have hdone {u : World H} {k : Work H} {ds : List Delivery} (hu : w.Served ds u) :
      (pure k : Effect H (Work H)).Yields u fun _ w' => w.Served ds w' := .pure hu
  have hnote {n : Notice} {u : World H} {ds : List Delivery} (hn : n.isFailure = false)
      (hu : w.Served ds u) :
      (Effect.change (World.note · n) >>= fun _ => pure Work.none).Yields u
        fun _ w' => w.Served ds w' :=
    .change_bind (hdone (by simpa using hu.trans (u.served_note hn)))
  have hneed {segment : String} {n : Nat} {f : List BoundInput → Effect H (Work H)}
      (hf : ∀ l, (f l).Yields w fun _ w' => w.Served [] w') :
      ((ofExcept (c.need b segment n) : Effect H (List BoundInput)) >>= f).Yields w
        fun _ w' => w.Served [] w' := .check_bind (fun l _ => hf l) fun _ _ => .refl w
  unfold effect deliveries
  cases b <;> dsimp only
  case startAgent =>
    split
    · exact hnote rfl (.refl w)
    · exact .change_bind (hdone (w.served_subscribe _ _))
  case endAgent => exact .emit_bind fun _ _ he => hdone (hem.served he)
  case broadcast =>
    refine .check_bind (fun l hl => ?_) fun e he => ?_
    · rw [hl]
      refine .look_bind ?_
      dsimp only
      cases w.shared.lookup? (variableOf? l "channel") with
      | none => exact hnote rfl (.refl w)
      | some channel => exact .emit_bind fun _ _ he => hnote rfl (hem.served he)
    · rw [he]
      exact .refl w
  case onMessage =>
    refine hneed fun l => .look_bind ?_
    split
    · exact hnote rfl (.refl w)
    · split
      · exact hdone (.refl w)
      · refine .change_bind (.change_bind (hdone ?_))
        exact (w.served_note rfl).trans (World.served_subscribe _ _ _)
  case setVariableTo =>
    refine hneed fun l => ?_
    split
    · exact .throw_bind (.refl w)
    · refine .look_bind ?_
      split
      · exact hnote rfl (.refl w)
      · exact .change_bind (hdone (w.served_share _))
  case logVariable =>
    refine hneed fun l => .look_bind ?_
    split
    · exact hnote rfl (.refl w)
    · exact hnote rfl (.refl w)
  case whileLoop =>
    refine hneed fun l => ?_
    split
    · exact hdone (.refl w)
    · exact hdone (.refl w)
  case forever =>
    split
    · exact hdone (.refl w)
    · exact hdone (.refl w)
  case ifElse => exact hneed fun l => .check_bind (fun _ _ => hdone (.refl w)) fun _ _ => .refl w
  case ifOnly => exact hneed fun l => hdone (.refl w)

theorem Function.effect_served (f : Function H) (c : Call) (w : World H) :
    (f.effect em c).Yields w fun _ w' => w.Served (f.deliveries em tr c w) w' := by
  induction f generalizing w with
  | builtin b => exact b.effect_served hem c w
  | host respond => exact .pure (.refl w)
  | guarded guard inner ih =>
    unfold effect deliveries
    refine .react_bind (fun u h => ?_) fun e u h => ?_
    · rw [h]
      exact (ih u).mono fun _ _ hi => (Reaction.run_served hem _ h).trans hi
    · rw [h]
      exact (Reaction.run_served hem _ h).trans (.refl u)

/-- **Deliveries of calls.** A call queues the bodies that its emissions deliver. It is counted if
its function is found. -/
theorem Call.effect_served (library : Library H) (c : Call) (w : World H) :
    (c.effect library em).Yields w fun _ w' =>
      (if c.isFound library then w.countCall else w).Served (c.deliveries library em tr w) w' := by
  unfold effect deliveries isFound
  cases library[c.target]? with
  | none => exact Effect.Yields.throw_bind (f := pure) (.refl w)
  | some f => exact .change_bind (f.effect_served hem c w.countCall)

end

end SnapBlocks
