import SnapBlocks.Definition.Basic

/-! The ten blocks that every editor starts with. The id of a segment is the name of its block
and its own name with a point between, and the id of an input is that of its segment, a point,
and its internal name. -/

namespace SnapBlocks.Catalog

/-- The colors of the blocks, by what they are for. -/
inductive Family where
  | flow
  | loop
  | storage
  | message
  | start
  | finish

/-- The color of a family. -/
def Family.color : Family → String
  | .flow => "#FFFFAA"
  | .loop => "#8be0ff"
  | .storage => "#8bffb9"
  | .message => "#ffc396"
  | .start => "#CBFF8B"
  | .finish => "#FF8B8B"

/-- An input by the parts of it that are not derived. -/
structure InputSpec where
  internalName : String
  name : String
  inputType : InputType := .operand
  mode : InputMode := .read

/-- The inputs of a condition: two operands and the operator between them. -/
def condition : List InputSpec :=
  [{ internalName := "varA", name := "Variable A" },
   { internalName := "eval", name := "Eval", inputType := .operator },
   { internalName := "varB", name := "Variable B" }]

/-- A segment of a block, with derived ids. -/
def segment (block name : String) (kind : SegmentKind) (text : Option String)
    (notch divot : Bool) (inputs : List InputSpec) : Segment :=
  let id := block ++ "." ++ name
  { id := id
    name := name
    kind := kind
    text := text
    notch := notch
    divot := divot
    inputs := inputs.map fun i =>
      { id := id ++ "." ++ i.internalName
        internalName := i.internalName
        name := i.name
        inputType := i.inputType
        mode := i.mode } }

/-- A block of one segment of the same name. -/
def single (name : String) (family : Family) (text : String) (notch divot : Bool)
    (inputs : List InputSpec) : Definition :=
  { name := name
    segments := [segment name name .header (some text) notch divot inputs]
    style := { color := family.color } }

/-- Make a block an entry of programs. The continuation of an entry is its body. -/
def entry (d : Definition) : Definition :=
  { d with isEntry := true, style := { d.style with forceScope := true } }

/-- Runs its body when the program starts. -/
def startAgent : Definition :=
  entry (single "startAgent" .start "Agent Initiated" true false [])

/-- Stops the program. -/
def endAgent : Definition :=
  single "endAgent" .finish "Agent Terminated" false true []

/-- Sends a message on a channel. -/
def broadcast : Definition :=
  single "broadcast" .message "Broadcast" true true
    [{ internalName := "channel", name := "Message" }]

/-- Runs its body on each message of a channel. -/
def onMessage : Definition :=
  entry (single "onMessage" .message "On Message" true false
    [{ internalName := "channel", name := "Message" }])

/-- Copies one variable to another. -/
def setVariableTo : Definition :=
  single "setVariableTo" .storage "Set Variable" true true
    [{ internalName := "data", name := "Data" },
     { internalName := "variable", name := "Variable", mode := .write }]

/-- Logs a variable. -/
def logVariable : Definition :=
  single "logVariable" .storage "Log Variable" true true
    [{ internalName := "var", name := "Variable" }]

/-- Repeats its body as long as a condition holds. -/
def whileLoop : Definition :=
  { name := "while"
    segments :=
      [segment "while" "while" .header (some "While") true true condition,
       segment "while" "while-footer" .footer none true false []]
    style := { color := Family.loop.color } }

/-- Repeats its body until the program stops. -/
def forever : Definition :=
  { name := "forever"
    segments :=
      [segment "forever" "forever" .header (some "Forever") true true [],
       segment "forever" "forever-footer" .footer none false false []]
    style := { color := Family.loop.color } }

/-- Two conditions with a body each. -/
def ifElse : Definition :=
  { name := "ifElse"
    segments :=
      [segment "ifElse" "if" .header (some "If") true true condition,
       segment "ifElse" "elif" .divider (some "Else If") true false condition,
       segment "ifElse" "if-footer" .footer none true false []]
    style := { color := Family.flow.color } }

/-- A condition with a body. -/
def ifOnly : Definition :=
  { name := "if"
    segments :=
      [segment "if" "if" .header (some "If") true true condition,
       segment "if" "if-footer" .footer none true false []]
    style := { color := Family.flow.color } }

/-- The blocks that every editor starts with. -/
def standardBlocks : List Definition :=
  [startAgent, endAgent, broadcast, onMessage, setVariableTo, logVariable, whileLoop, forever,
   ifElse, ifOnly]

/-- The catalog that every editor starts with. -/
def standard : Catalog := ofList standardBlocks

end SnapBlocks.Catalog
