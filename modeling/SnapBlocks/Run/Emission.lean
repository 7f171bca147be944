import SnapBlocks.Run.World

/-! Emission of events. An emission serves those who had subscribed when it began, one after the
other; one who fails is noted, and the next one is served. A handler may emit in turn, so
emissions nest; `depth` bounds how deep, and an emission that nests deeper has no outcome. -/

namespace SnapBlocks

/-- How an event is emitted: the number of subscribers that were served, and the world then. -/
abbrev Emitter (H : Type) := String → List BoundInput → World H → Option (Nat × World H)

/-- Carry out a reaction. -/
def Reaction.run (emit : Emitter H) :
    Reaction H → World H → Option (Except RunError Unit × World H)
  | .finish result, w => some (result, w)
  | .look rest, w => (rest w.shared).run emit w
  | .change f rest, w => rest.run emit { w with shared := f w.shared }
  | .subscribe event s rest, w => rest.run emit (w.subscribe event s)
  | .emit event args rest, w =>
    match emit event args w with
    | some (count, w) => (rest count).run emit w
    | none => none

/-- Do a duty. -/
def Duty.perform : Duty → World H → World H
  | .stop, w => w.stop
  | .start body, w => w.enqueue body

/-- Serve a subscriber of an event. -/
def Subscriber.serve (emit : Emitter H) (event : String) (args : List BoundInput) :
    Subscriber H → World H → Option (World H)
  | .own duty, w => some (duty.perform w)
  | .handler respond, w =>
    match (respond args).run emit w with
    | some (.ok (), w) => some w
    | some (.error e, w) => some (w.note (.subscriberFailed event e))
    | none => none

/-- Serve subscribers of an event in order. -/
def serveAll (emit : Emitter H) (event : String) (args : List BoundInput) :
    List (Subscriber H) → World H → Option (World H)
  | [], w => some w
  | s :: rest, w =>
    match s.serve emit event args w with
    | some w => serveAll emit event args rest w
    | none => none

/-- Emit an event. -/
def World.emit : (depth : Nat) → Emitter H
  | 0, _, _, _ => none
  | depth + 1, event, args, w =>
    let subscribers := w.subscribersOf event
    (serveAll (World.emit depth) event args subscribers w).map fun w => (subscribers.length, w)

end SnapBlocks
