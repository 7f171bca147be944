import SnapBlocks.Store

/-! What goes wrong while a program runs, and what a run tells about itself. -/

namespace SnapBlocks

/-- What is wrong with the inputs of a call. -/
inductive InputFault where
  /-- No segment with this name has inputs. -/
  | absent (segment : String)
  | count (segment : String) (actual expected : Nat)
  /-- No variable is bound to the input that names what to write. -/
  | noTarget
  deriving DecidableEq, Repr

/-- The text of a fault. -/
def InputFault.message : InputFault → String
  | absent segment => "no inputs for segment '" ++ segment ++ "'"
  | count segment actual expected =>
    "segment '" ++ segment ++ "' has " ++ toString actual ++ " inputs, expected " ++
      toString expected
  | noTarget => "no variable bound to write"

/-- Why a call fails. -/
inductive RunError where
  | unknownFunction (name : String)
  | invalidInputs (function : String) (fault : InputFault)
  | store (e : StoreError)
  /-- A failure of the host, in its own words. -/
  | custom (text : String)

/-- The text of an error. -/
def RunError.message : RunError → String
  | unknownFunction name => "no standard library function named '" ++ name ++ "'"
  | invalidInputs function fault => function ++ ": invalid inputs: " ++ fault.message
  | store e => e.message
  | custom text => text

/-- What a run tells about itself. -/
inductive Notice where
  | entryFailed (e : RunError)
  | bodyFailed (label : String) (e : RunError)
  | subscriberFailed (event : String) (e : RunError)
  | storeDiscarded (e : StoreError)
  | value (key text : String)
  /-- A variable that is to be shown has no value, or none is bound. -/
  | unset (key : Option String)
  | broadcastUnset
  | broadcast (channel : String) (listeners : Nat)
  | listenUnset
  | listening (channel : String)
  /-- The block that starts a program has nothing to start. -/
  | nothingToStart
  | nothingToCopy (target : String)
  | loopStopped

/-- The text of a notice. -/
def Notice.text : Notice → String
  | entryFailed e => "[RUNTIME] Entry chain failed: " ++ e.message
  | bodyFailed label e => "[RUNTIME] Body of '" ++ label ++ "' failed: " ++ e.message
  | subscriberFailed event e =>
    "[RUNTIME] Subscriber of '" ++ event ++ "' failed: " ++ e.message
  | storeDiscarded e => "[RUNTIME] Discarding malformed variable store: " ++ e.message
  | value key text => "[STD] " ++ key ++ " = " ++ text
  | unset key => "[STD] " ++ key.getD "<unbound>" ++ " is not set"
  | broadcastUnset => "[STD] broadcast: channel variable not set"
  | broadcast channel listeners =>
    "[STD] broadcast: '" ++ channel ++ "' reached " ++ toString listeners ++ " listeners"
  | listenUnset => "[STD] onMessage: channel variable not set"
  | listening channel => "[STD] onMessage: listening on '" ++ channel ++ "'"
  | nothingToStart => "[STD] startAgent: no body to execute"
  | nothingToCopy target => "[STD] setVariableTo: no value to copy into '" ++ target ++ "'"
  | loopStopped => "[STD] forever: stopping"

end SnapBlocks
