import SnapBlocks.Definition.Codec
import SnapBlocks.Json.Printer
import SnapBlocks.Program.Basic

/-! Programs as JSON. A call without branches or scope does not show them. -/

namespace SnapBlocks

open Json

/-- An input as a value. -/
def BoundInput.toJson (i : BoundInput) : Json :=
  .obj [
    ("id", .str i.id),
    ("name", .str i.name),
    ("internalName", .str i.internalName),
    ("inputType", .str i.inputType.name),
    ("mode", .str i.mode.name),
    ("key", .ofText? i.key),
    ("segmentName", .str i.segmentName)]

/-- The fields of an input. -/
def BoundInput.fields :=
  ((Fields.required "id" Decoder.text).and <|
    (Fields.required "name" Decoder.text).and <|
    (Fields.required "internalName" Decoder.text).and <|
    (Fields.required "inputType" (Decoder.oneOf InputType.names)).and <|
    (Fields.required "mode" (Decoder.oneOf InputMode.names)).and <|
    (Fields.optional "key" Decoder.text).and
    (Fields.required "segmentName" Decoder.text)).map
      fun (id, name, internalName, inputType, mode, key, segmentName) =>
        (⟨id, name, internalName, inputType, mode, key, segmentName⟩ : BoundInput)

/-- The inputs of a call as a value. -/
def Call.inputsJson (inputs : List (String × List BoundInput)) : Json :=
  .obj (inputs.map fun p => (p.1, .ofList BoundInput.toJson p.2))

/-- An object with one member, the calls of a chain. -/
def Chain.wrap (calls : List Json) : Json := .obj [("calls", .arr calls)]

mutual
/-- A call as a value. -/
def Call.toJson : Call → Json
  | .mk target block inputs branches scope =>
    .obj ([("target", .str target), ("block", .str block), ("inputs", Call.inputsJson inputs)] ++
      (if branches.isEmpty then [] else [("branches", .obj (Branch.toMembers branches))]) ++
      Scope.toMembers scope)

/-- Calls as values. -/
def Chain.toItems : List Call → List Json
  | [] => []
  | c :: rest => c.toJson :: Chain.toItems rest

/-- Branches as members. -/
def Branch.toMembers : List (String × BranchOf Call) → List (String × Json)
  | [] => []
  | (id, ⟨segmentName, body⟩) :: rest =>
    (id, .obj [("segmentName", .str segmentName), ("body", Chain.wrap (Chain.toItems body))]) ::
      Branch.toMembers rest

/-- A scope as a member, if there is one. -/
def Scope.toMembers : Option (List Call) → List (String × Json)
  | none => []
  | some calls => [("scope", Chain.wrap (Chain.toItems calls))]
end

/-- A chain as a value. -/
def Chain.toJson (chain : Chain) : Json := Chain.wrap (Chain.toItems chain)

/-- A program as a value. -/
def Program.toJson (p : Program) : Json :=
  .obj [("entries", .ofList Chain.toJson p.entries)]

/-- The text of a program. -/
def Program.toText (p : Program) : String := p.toJson.toPretty

/-- The fields of a branch. -/
def Branch.fields (chain : Decoder Chain) : Fields (Option String × Option Chain) Branch :=
  ((Fields.required "segmentName" Decoder.text).and (Fields.required "body" chain)).map
    fun (segmentName, body) => ⟨segmentName, body⟩

/-- The fields of a call, given how the chains in it are decoded. -/
def Call.fields (chain : Decoder Chain) :=
  ((Fields.required "target" Decoder.text).and <|
    (Fields.required "block" Decoder.text).and <|
    (Fields.required "inputs"
      (Decoder.table (Decoder.list BoundInput.fields.decoder))).and <|
    (Fields.defaulted "branches" (Decoder.table (Branch.fields chain).decoder) ∅).and
    (Fields.omittable "scope" chain)).map
      fun (target, block, inputs, branches, scope) =>
        Call.mk target block inputs.toList branches.toList scope

/-- Decode a chain whose chains nest less than `nesting` deep. -/
def Chain.decoderTo : (nesting : Nat) → Decoder Chain
  | 0 => fun _ _ => .error .malformed
  | nesting + 1 =>
    (Fields.required "calls"
      (Decoder.list (Call.fields (Chain.decoderTo nesting)).decoder)).decoder

/-- Decode a chain. Each chain in a chain takes more than one level, so the number of levels
bounds how deep chains nest. -/
def Chain.decoder : Decoder Chain := Chain.decoderTo (levels + 1)

/-- Decode a program. -/
def Program.decoder : Decoder Program :=
  ((Fields.required "entries" (Decoder.list Chain.decoder)).map fun entries =>
    (⟨entries⟩ : Program)).decoder

/-- A program from its text. -/
def Program.ofText (text : String) : Except Problem Program :=
  decode Program.decoder text

end SnapBlocks
