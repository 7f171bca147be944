import SnapBlocks.Condition
import SnapBlocks.Run.Emission

/-! The functions that calls name. The built-in ones answer to the blocks of the standard catalog;
hosts add functions of their own, and guards that see a call before its function does.

A function has all of its effects at once, except that a control block leaves work to be done:
arms to be tried, or a loop to be run. What a function of the host does is all left to be done: it
goes on step by step, and in between it may wait, or run bodies, one after the other. -/

namespace SnapBlocks

/-- What is to be run if a condition holds. -/
structure Arm where
  /-- The inputs that name the variables of the condition. -/
  condition : List BoundInput
  body : Body
  deriving Inhabited

/-- A loop: a body that is run while a condition holds, or until the program is stopped. -/
structure Loop where
  /-- The inputs that name the variables of the condition, if there is one. -/
  condition : Option (List BoundInput)
  body : Body
  deriving Inhabited

/-- What a function of the host asks for next. -/
inductive Request (H : Type) where
  /-- Nothing more: the call is over. -/
  | finish (result : Except RunError Unit)
  | react (r : Reaction H)
  /-- Wait for something outside of the run. -/
  | pause
  /-- Run a body. If it is isolated, a failure of it is noted and counted. -/
  | invoke (isolated : Bool) (b : Body)

instance : Inhabited (Request H) := ⟨.finish (.ok ())⟩

/-- What came of a request, and what was shared then. -/
structure Reply (H : Type) where
  result : Except RunError Unit
  shared : Shared H

/-- What a function of the host does about a call: what it asks for, after the replies so far. -/
abbrev Task (H : Type) := List (Reply H) → Request H

/-- Carry out a reaction, and nothing else. -/
def Task.of (r : Reaction H) : Task H
  | [] => .react r
  | reply :: _ => .finish reply.result

/-- What a call leaves to be done. -/
inductive Work (H : Type) where
  | none
  /-- Arms to be tried one after the other. -/
  | arms (arms : List Arm)
  | loop (l : Loop)
  | task (t : Task H)

/-- The input with an internal name. -/
def input? (inputs : List BoundInput) (name : String) : Option BoundInput :=
  inputs.find? (·.internalName = name)

/-- The variable that is bound to the input with an internal name. -/
def variableOf? (inputs : List BoundInput) (name : String) : Option String :=
  (input? inputs name).bind (·.key)

/-- Whether the condition that some inputs describe holds now. -/
def Shared.conditionHolds (s : Shared H) (inputs : List BoundInput) : Bool :=
  Condition.holds
    (s.lookup? (variableOf? inputs "varA"))
    (s.lookup? (variableOf? inputs "varB"))
    (s.lookup? (variableOf? inputs "eval"))

/-- The built-in functions. -/
inductive Builtin where
  | startAgent
  | endAgent
  | broadcast
  | onMessage
  | setVariableTo
  | logVariable
  | whileLoop
  | forever
  | ifElse
  | ifOnly
  deriving DecidableEq, Repr, Inhabited

namespace Builtin

/-- The name of a function. -/
def name : Builtin → String
  | startAgent => "startAgent"
  | endAgent => "endAgent"
  | broadcast => "broadcast"
  | onMessage => "onMessage"
  | setVariableTo => "setVariableTo"
  | logVariable => "logVariable"
  | whileLoop => "while"
  | forever => "forever"
  | ifElse => "ifElse"
  | ifOnly => "if"

/-- All built-in functions. -/
def all : List Builtin :=
  [startAgent, endAgent, broadcast, onMessage, setVariableTo, logVariable, whileLoop, forever,
    ifElse, ifOnly]

end Builtin

/-- The event by which programs are started. -/
def startEvent : String := "start"

/-- The event by which programs are stopped. -/
def stopEvent : String := "stop"

/-- The inputs of a segment of a call, of which there have to be `expected`. -/
def Call.need (c : Call) (b : Builtin) (segment : String) (expected : Nat) :
    Except RunError (List BoundInput) :=
  match c.segmentInputs? segment with
  | none => .error (.invalidInputs b.name (.absent segment))
  | some inputs =>
    if inputs.length = expected then .ok inputs
    else .error (.invalidInputs b.name (.count segment inputs.length expected))

/-- The body that hangs from a segment of a call. -/
def Call.body? (c : Call) (segment : String) : Option Body :=
  (c.branch? segment).map fun b => ⟨c.target ++ "." ++ segment, b.body⟩

/-- The arm of a segment, unless nothing hangs there. -/
def Call.arm? (c : Call) (segment : String) (condition : List BoundInput) : Option Arm :=
  (c.body? segment).map fun body => ⟨condition, body⟩

/-- The effect of a call: the work it leaves, or its error, and the world then. It has none when
an emission has none. -/
abbrev Effect (H : Type) := ExceptT RunError (StateT (World H) Option)

namespace Effect

/-- Look at what is shared. -/
def look (f : Shared H → α) : Effect H α := return f (← get).shared

/-- Change the world. -/
def change (f : World H → World H) : Effect H Unit := modify f

/-- Emit an event. -/
def emit (emit : Emitter H) (event : String) (args : List BoundInput) : Effect H Nat :=
  ExceptT.lift (StateT.mk (emit event args))

/-- Carry out a reaction. -/
def react (emit : Emitter H) (r : Reaction H) : Effect H Unit :=
  ExceptT.mk (StateT.mk (r.run emit))

/-- Run an effect. -/
def run (e : Effect H α) (w : World H) : Option (Except RunError α × World H) :=
  StateT.run (ExceptT.run e) w

end Effect

open Effect

/-- The effect of a call of a built-in function. -/
def Builtin.effect (emitter : Emitter H) (b : Builtin) (c : Call) : Effect H (Work H) := do
  match b with
  | startAgent =>
    match c.scope with
    | none => change (·.note .nothingToStart)
    | some chain => change (·.subscribe startEvent (.own (.start ⟨b.name, chain⟩)))
    return .none
  | endAgent =>
    let _ ← emit emitter stopEvent []
    return .none
  | broadcast =>
    let inputs ← ofExcept (c.need b "broadcast" 1)
    match ← look (·.lookup? (variableOf? inputs "channel")) with
    | none => change (·.note .broadcastUnset)
    | some channel =>
      let count ← emit emitter channel inputs
      change (·.note (.broadcast channel count))
    return .none
  | onMessage =>
    let inputs ← ofExcept (c.need b "onMessage" 1)
    match ← look (·.lookup? (variableOf? inputs "channel")) with
    | none => change (·.note .listenUnset)
    | some channel =>
      match c.scope with
      | none => pure ()
      | some chain =>
        change (·.note (.listening channel))
        change (·.subscribe channel (.own (.start ⟨b.name, chain⟩)))
    return .none
  | setVariableTo =>
    let inputs ← ofExcept (c.need b "setVariableTo" 2)
    match variableOf? inputs "variable" with
    | none => throw (.invalidInputs b.name .noTarget)
    | some target =>
      match ← look (·.lookup? (variableOf? inputs "data")) with
      | none => change (·.note (.nothingToCopy target))
      | some text => change (·.setVariable target text)
    return .none
  | logVariable =>
    let inputs ← ofExcept (c.need b "logVariable" 1)
    let key := variableOf? inputs "var"
    match ← look (·.lookup? key) with
    | none => change (·.note (.unset key))
    | some text => change (·.note (.value (key.getD "") text))
    return .none
  | whileLoop =>
    let inputs ← ofExcept (c.need b "while" 3)
    match c.body? "while" with
    | none => return .none
    | some body => return .loop ⟨some inputs, body⟩
  | forever =>
    match c.body? "forever" with
    | none => return .none
    | some body => return .loop ⟨none, body⟩
  | ifElse =>
    let first ← ofExcept (c.need b "if" 3)
    let second ← ofExcept (c.need b "elif" 3)
    return .arms ((c.arm? "if" first).toList ++ (c.arm? "elif" second).toList)
  | ifOnly =>
    let inputs ← ofExcept (c.need b "if" 3)
    return .arms (c.arm? "if" inputs).toList

/-- A function of a library. -/
inductive Function (H : Type) where
  | builtin (b : Builtin)
  | host (respond : Call → Task H)
  /-- A function behind a guard: a guard that fails keeps the call from it. -/
  | guarded (guard : Call → Reaction H) (inner : Function H)

/-- The effect of a call of a function. -/
def Function.effect (emitter : Emitter H) : Function H → Call → Effect H (Work H)
  | .builtin b, c => b.effect emitter c
  | .host respond, c => return .task (respond c)
  | .guarded guard inner, c => do
    react emitter (guard c)
    inner.effect emitter c

/-- Functions by name. -/
abbrev Library (H : Type) := Table (Function H)

/-- The built-in functions. -/
def Library.standard : Library H :=
  Table.ofPairs (Builtin.all.map fun b => (b.name, .builtin b))

/-- Put a guard in front of every function. -/
def Library.guard (l : Library H) (guard : Call → Reaction H) : Library H :=
  l.map fun _ f => .guarded guard f

/-- The effect of a call. A call of a function that the library has is counted. -/
def Call.effect (library : Library H) (emitter : Emitter H) (c : Call) : Effect H (Work H) := do
  match library[c.target]? with
  | none => throw (.unknownFunction c.target)
  | some f =>
    change World.countCall
    f.effect emitter c

end SnapBlocks
