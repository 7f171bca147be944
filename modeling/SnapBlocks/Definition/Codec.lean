import SnapBlocks.Definition.Basic
import SnapBlocks.Json.Decoder

/-! Block definitions as JSON. -/

namespace SnapBlocks

open Json

/-- The names of the kinds of segments. -/
def SegmentKind.names : List (String × SegmentKind) :=
  [("Header", .header), ("Divider", .divider), ("Footer", .footer)]

/-- The name of a kind of segments. -/
def SegmentKind.name : SegmentKind → String
  | .header => "Header"
  | .divider => "Divider"
  | .footer => "Footer"

/-- The names of the types of inputs. -/
def InputType.names : List (String × InputType) :=
  [("Variable", .operand), ("EvalOperator", .operator)]

/-- The name of a type of inputs. -/
def InputType.name : InputType → String
  | .operand => "Variable"
  | .operator => "EvalOperator"

/-- The names of the modes of inputs. -/
def InputMode.names : List (String × InputMode) :=
  [("Read", .read), ("Write", .write)]

/-- The name of a mode of inputs. -/
def InputMode.name : InputMode → String
  | .read => "Read"
  | .write => "Write"

/-- An input as a value. -/
def InputDeclaration.toJson (i : InputDeclaration) : Json :=
  .obj [
    ("id", .str i.id),
    ("internalName", .str i.internalName),
    ("name", .str i.name),
    ("inputType", .str i.inputType.name),
    ("mode", .str i.mode.name)]

/-- The fields of an input. -/
def InputDeclaration.fields :=
  ((Fields.required "id" Decoder.text).and <|
    (Fields.required "internalName" Decoder.text).and <|
    (Fields.required "name" Decoder.text).and <|
    (Fields.required "inputType" (Decoder.oneOf InputType.names)).and
    (Fields.required "mode" (Decoder.oneOf InputMode.names))).map
      fun (id, internalName, name, inputType, mode) =>
        (⟨id, internalName, name, inputType, mode⟩ : InputDeclaration)

/-- A segment as a value; its text only when it has one. -/
def Segment.toJson (s : Segment) : Json :=
  .obj ([
    ("id", .str s.id),
    ("name", .str s.name),
    ("kind", .str s.kind.name)] ++
    member? "text" .str s.text ++ [
    ("notch", .bool s.notch),
    ("divot", .bool s.divot),
    ("inputs", .ofList InputDeclaration.toJson s.inputs)])

/-- The fields of a segment. -/
def Segment.fields :=
  ((Fields.required "id" Decoder.text).and <|
    (Fields.required "name" Decoder.text).and <|
    (Fields.required "kind" (Decoder.oneOf SegmentKind.names)).and <|
    (Fields.omittable "text" Decoder.text).and <|
    (Fields.defaulted "notch" Decoder.flag false).and <|
    (Fields.defaulted "divot" Decoder.flag false).and
    (Fields.defaulted "inputs" (Decoder.list InputDeclaration.fields.decoder) [])).map
      fun (id, name, kind, text, notch, divot, inputs) =>
        (⟨id, name, kind, text, notch, divot, inputs⟩ : Segment)

/-- A style as a value. -/
def BlockStyle.toJson (s : BlockStyle) : Json :=
  .obj [("color", .str s.color), ("forceScope", .bool s.forceScope)]

/-- The fields of a style. -/
def BlockStyle.fields :=
  ((Fields.required "color" Decoder.text).and
    (Fields.defaulted "forceScope" Decoder.flag false)).map
      fun (color, forceScope) => (⟨color, forceScope⟩ : BlockStyle)

/-- A definition as a value. -/
def Definition.toJson (d : Definition) : Json :=
  .obj [
    ("name", .str d.name),
    ("isEntry", .bool d.isEntry),
    ("segments", .ofList Segment.toJson d.segments),
    ("configuration", d.style.toJson)]

/-- The fields of a definition. -/
def Definition.fields :=
  ((Fields.required "name" Decoder.text).and <|
    (Fields.defaulted "isEntry" Decoder.flag false).and <|
    (Fields.required "segments" (Decoder.list Segment.fields.decoder)).and
    (Fields.required "configuration" BlockStyle.fields.decoder)).map
      fun (name, isEntry, segments, style) =>
        (⟨name, isEntry, segments, style⟩ : Definition)

/-- Decode a definition. -/
def Definition.decoder : Decoder Definition := Definition.fields.decoder

/-- A definition from a text. -/
def Definition.parse (text : String) : Except Problem Definition :=
  decode Definition.decoder text

end SnapBlocks
