import SnapBlocks.Definition.Codec
import SnapBlocks.Graph.Block
import SnapBlocks.Json.Printer

/-! Saved graphs. A document holds every block with its definition and inputs, and every link by
the id of its notch. -/

namespace SnapBlocks

open Json

/-- An input as it is saved. -/
structure SavedInput where
  id : String
  key : Option String
  displayText : Option String
  occupied : Bool
  constant : Bool
  deriving DecidableEq, Inhabited

/-- The inputs of a segment as they are saved. -/
structure SavedSegment where
  id : String
  inputs : List SavedInput
  deriving DecidableEq, Inhabited

/-- A block as it is saved. -/
structure SavedBlock where
  id : BlockId
  name : String
  /-- Where its origin is. -/
  position : Point
  /-- Its offset from the notch that it hangs from; absent for a root. -/
  offset : Option Point
  segments : List SavedSegment
  definition : Definition
  primaryNotchId : Option SnapId
  primaryDivotId : Option SnapId
  deriving DecidableEq, Inhabited

/-- A link as it is saved. -/
structure SavedLink where
  notchBlockId : BlockId
  divotBlockId : BlockId
  notchId : SnapId
  divotId : SnapId
  notchSegmentId : String
  divotSegmentId : String
  isPrimary : Bool
  deriving DecidableEq, Inhabited

/-- A saved graph: its blocks by id, and its links by the id of the notch. -/
structure Document where
  blocks : Table SavedBlock := ∅
  notches : Table SavedLink := ∅
  deriving DecidableEq, Inhabited

/-- An input as a value. -/
def SavedInput.toJson (i : SavedInput) : Json :=
  .obj [
    ("id", .str i.id),
    ("key", .ofText? i.key),
    ("displayText", .ofText? i.displayText),
    ("occupied", .bool i.occupied),
    ("constant", .bool i.constant)]

/-- A segment as a value. -/
def SavedSegment.toJson (s : SavedSegment) : Json :=
  .obj [("id", .str s.id), ("inputs", .ofList SavedInput.toJson s.inputs)]

/-- A block as a value; its offset only when it has one. -/
def SavedBlock.toJson (b : SavedBlock) : Json :=
  .obj ([
    ("id", .str b.id),
    ("name", .str b.name),
    ("position", b.position.toJson)] ++
    member? "offset" Point.toJson b.offset ++ [
    ("segments", .ofList SavedSegment.toJson b.segments),
    ("definition", b.definition.toJson),
    ("primaryNotchId", .ofText? b.primaryNotchId),
    ("primaryDivotId", .ofText? b.primaryDivotId)])

/-- A link as a value. -/
def SavedLink.toJson (l : SavedLink) : Json :=
  .obj [
    ("notchBlockId", .str l.notchBlockId),
    ("divotBlockId", .str l.divotBlockId),
    ("notchId", .str l.notchId),
    ("divotId", .str l.divotId),
    ("notchSegmentId", .str l.notchSegmentId),
    ("divotSegmentId", .str l.divotSegmentId),
    ("isPrimary", .bool l.isPrimary)]

/-- A document as a value. -/
def Document.toJson (d : Document) : Json :=
  .obj [
    ("blocks", .ofTable SavedBlock.toJson d.blocks),
    ("notches", .ofTable SavedLink.toJson d.notches)]

/-- The text of a document. -/
def Document.toText (d : Document) : String := d.toJson.toPretty

/-- The fields of an input. -/
def SavedInput.fields :=
  ((Fields.required "id" Decoder.text).and <|
    (Fields.optional "key" Decoder.text).and <|
    (Fields.optional "displayText" Decoder.text).and <|
    (Fields.required "occupied" Decoder.flag).and
    (Fields.required "constant" Decoder.flag)).map
      fun (id, key, displayText, occupied, constant) =>
        (⟨id, key, displayText, occupied, constant⟩ : SavedInput)

/-- The fields of a segment. -/
def SavedSegment.fields :=
  ((Fields.required "id" Decoder.text).and
    (Fields.defaulted "inputs" (Decoder.list SavedInput.fields.decoder) [])).map
      fun (id, inputs) => (⟨id, inputs⟩ : SavedSegment)

/-- The fields of a block. -/
def SavedBlock.fields :=
  ((Fields.required "id" Decoder.text).and <|
    (Fields.required "name" Decoder.text).and <|
    (Fields.required "position" Point.decoder).and <|
    (Fields.omittable "offset" Point.decoder).and <|
    (Fields.required "segments" (Decoder.list SavedSegment.fields.decoder)).and <|
    (Fields.required "definition" Definition.decoder).and <|
    (Fields.optional "primaryNotchId" Decoder.text).and
    (Fields.optional "primaryDivotId" Decoder.text)).map
      fun (id, name, position, offset, segments, definition, notch, divot) =>
        (⟨id, name, position, offset, segments, definition, notch, divot⟩ : SavedBlock)

/-- The fields of a link. -/
def SavedLink.fields :=
  ((Fields.required "notchBlockId" Decoder.text).and <|
    (Fields.required "divotBlockId" Decoder.text).and <|
    (Fields.required "notchId" Decoder.text).and <|
    (Fields.required "divotId" Decoder.text).and <|
    (Fields.required "notchSegmentId" Decoder.text).and <|
    (Fields.required "divotSegmentId" Decoder.text).and
    (Fields.required "isPrimary" Decoder.flag)).map
      fun (notchBlock, divotBlock, notch, divot, notchSegment, divotSegment, isPrimary) =>
        (⟨notchBlock, divotBlock, notch, divot, notchSegment, divotSegment, isPrimary⟩ :
          SavedLink)

/-- Decode a document. -/
def Document.decoder : Decoder Document :=
  (((Fields.required "blocks" (Decoder.table SavedBlock.fields.decoder)).and
    (Fields.required "notches" (Decoder.table SavedLink.fields.decoder))).map
      fun (blocks, notches) => (⟨blocks, notches⟩ : Document)).decoder

/-- A document from its text. -/
def Document.ofText (text : String) : Except Problem Document :=
  decode Document.decoder text

/-- Whether two optional points are at one place. -/
def sameOffset : Option Point → Option Point → Bool
  | none, none => true
  | some p, some q => p == q
  | _, _ => false

/-- Whether two saved blocks agree, coordinates by value. -/
def SavedBlock.agrees (a b : SavedBlock) : Bool :=
  a.position == b.position && sameOffset a.offset b.offset &&
    decide ({ a with position := b.position, offset := b.offset } = b)

/-- Whether two documents agree, coordinates by value. -/
def Document.agrees (a b : Document) : Bool :=
  decide (a.notches = b.notches) && a.blocks.size == b.blocks.size &&
    a.blocks.toList.all fun p => (b.blocks[p.1]?.map p.2.agrees).getD false

end SnapBlocks
