import SnapBlocks.Json.Decoder

/-! Settings of the editor's graph and of running programs. Every setting has a default, so a
text may give any part of them. -/

namespace SnapBlocks

/-- Settings of a graph. -/
structure GraphConfig where
  /-- How far apart a notch and a divot may be on each axis and still snap together. -/
  snapRadius : Float := 40
  /-- How many blocks a walk along a chain may visit. -/
  maxChainHops : Nat := 100
  deriving DecidableEq, Inhabited

/-- Settings of running programs. -/
structure RunConfig where
  /-- Milliseconds that a loop pauses before each check; with none it only gives way. -/
  loopIntervalMs : Nat := 1
  deriving DecidableEq, Inhabited

/-- All settings. -/
structure Config where
  graph : GraphConfig := {}
  run : RunConfig := {}
  deriving DecidableEq, Inhabited

open Json

/-- Settings of a graph, as they are written. -/
def GraphConfig.fields : Fields (Option Float × Option Nat) GraphConfig :=
  ((Fields.defaulted "snapRadius" Decoder.float ({} : GraphConfig).snapRadius).and
    (Fields.defaulted "maxChainHops" Decoder.nat ({} : GraphConfig).maxChainHops)).map
      fun (radius, hops) => ⟨radius, hops⟩

/-- Settings of running programs, as they are written. -/
def RunConfig.fields : Fields (Option Nat) RunConfig :=
  (Fields.defaulted "loopIntervalMs" Decoder.nat ({} : RunConfig).loopIntervalMs).map
    fun ms => ⟨ms⟩

/-- All settings, as they are written. -/
def Config.fields : Fields (Option GraphConfig × Option RunConfig) Config :=
  ((Fields.defaulted "graph" GraphConfig.fields.decoder {}).and
    (Fields.defaulted "runtime" RunConfig.fields.decoder {})).map
      fun (graph, run) => ⟨graph, run⟩

/-- Settings from a text. -/
def Config.parse (text : String) : Except Problem Config :=
  decode Config.fields.decoder text

/-- Settings as a value. -/
def Config.toJson (c : Config) : Json :=
  .obj [
    ("graph", .obj [("snapRadius", .ofFloat c.graph.snapRadius),
      ("maxChainHops", .int c.graph.maxChainHops)]),
    ("runtime", .obj [("loopIntervalMs", .int c.run.loopIntervalMs)])]

end SnapBlocks
