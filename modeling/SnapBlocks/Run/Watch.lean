import SnapBlocks.Run.Session

/-! A host that watches a session. A guard in front of every function counts the calls, writes a
trace of them, stops the program at a given call, and refuses calls once a budget is spent.
Listeners write down what they hear of events. -/

namespace SnapBlocks

/-- What a listener wrote down. -/
inductive Heard where
  /-- The arguments of an event: the internal name of each input, and its variable. -/
  | event (tag : String) (args : List (String × Option String))
  /-- The number of subscribers of an event that the listener emitted. -/
  | emitted (tag : String) (count : Nat)
  deriving DecidableEq, Repr, Inhabited

/-- What the host knows. -/
structure Watch where
  /-- How many calls the guard has seen. -/
  count : Nat := 0
  /-- Function and block of each call that was let through. -/
  trace : List String := []
  heard : List Heard := []
  deriving DecidableEq, Repr, Inhabited

/-- What the guard enforces. -/
structure Budget where
  /-- The call at which the program is stopped. -/
  cancelAt : Option Nat := none
  /-- The last call that is let through; it stops the program too. -/
  maxCalls : Nat := 200
  deriving DecidableEq, Repr, Inhabited

namespace Watch

/-- Change what the host knows. -/
def record (f : Watch → Watch) (s : Shared Watch) : Shared Watch := { s with host := f s.host }

/-- See a call. -/
def guard (budget : Budget) (c : Call) : Reaction Watch :=
  .change (record fun h => { h with count := h.count + 1 }) <|
  .look fun s =>
    let count := s.host.count
    let pass : Reaction Watch :=
      .change (record fun h => { h with trace := h.trace ++ [c.target ++ " " ++ c.block] }) .done
    if budget.maxCalls < count then .fail (.custom "call budget exhausted")
    else if some count = budget.cancelAt ∨ count = budget.maxCalls then
      .change (fun s => { s with tokens := s.tokens.stop }) pass
    else pass

/-- A function that always fails. -/
def hostFail (c : Call) : Task Watch := .of (.fail (.custom ("host failure at " ++ c.block)))

/-- The built-in functions but some, and the one that always fails, all behind the guard. -/
def library (budget : Budget) (without : List String) : Library Watch :=
  Library.guard ((without.foldl (·.erase ·) Library.standard).insert "hostFail" (.host hostFail))
    (guard budget)

end Watch

/-- What one listener does about an event. -/
structure Hearing where
  /-- The name under which it writes down what it hears. -/
  tag : String
  /-- It emits this event with the same arguments. -/
  emits : Option String := none
  /-- It fails in these words. -/
  fails : Option String := none
  deriving DecidableEq, Repr, Inhabited

/-- Listeners. One may subscribe another one to an event whenever it hears something. -/
inductive Listener where
  | alone (h : Hearing)
  | leading (h : Hearing) (event : String) (next : Listener)
  deriving DecidableEq, Repr, Inhabited

namespace Hearing

/-- Write down the arguments of an event. -/
def hear (h : Hearing) (args : List BoundInput) : Watch → Watch := fun w =>
  { w with heard := w.heard ++ [.event h.tag (args.map fun i => (i.internalName, i.key))] }

/-- Fail, if that is what the listener does. -/
def finish (h : Hearing) : Reaction Watch :=
  match h.fails with
  | none => .done
  | some text => .fail (.custom text)

/-- Emit, if that is what the listener does, and write down how many heard it. -/
def answer (h : Hearing) (args : List BoundInput) : Reaction Watch :=
  match h.emits with
  | none => h.finish
  | some event =>
    .emit event args fun count =>
      .change (Watch.record fun w => { w with heard := w.heard ++ [.emitted h.tag count] })
        h.finish

end Hearing

/-- What a listener does about an event: write it down, subscribe, emit, fail. -/
def Listener.respond : Listener → List BoundInput → Reaction Watch
  | alone h, args => .change (Watch.record (h.hear args)) (h.answer args)
  | leading h event next, args =>
    .change (Watch.record (h.hear args)) <|
      .subscribe event (.handler next.respond) (h.answer args)

/-- A listener as a subscriber. -/
def Listener.subscriber (l : Listener) : Subscriber Watch := .handler l.respond

end SnapBlocks
