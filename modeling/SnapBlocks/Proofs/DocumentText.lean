import SnapBlocks.Document.Basic
import SnapBlocks.Proofs.Numbers
import SnapBlocks.Proofs.ProgramText

/-! The text of a document gives the document back, if all its coordinates are finite. A document
nests to a fixed depth, which is less than a text may have. -/

namespace SnapBlocks

open Json Decoder

variable {n : Nat} {p : Point} {b : SavedBlock} {d : Document}

/-! ## Definitions -/

theorem SegmentKind.valueOf?_name (k : SegmentKind) : valueOf? names k.name = some k := by
  cases k <;> decide

theorem InputDeclaration.restores (i : InputDeclaration) :
    InputDeclaration.fields.decoder.Restores n i.toJson i := by
  have hfields : InputDeclaration.fields.Restores n _ i := .map <|
    .cons (restores_text i.id) (by simp) <|
    .cons (restores_text i.internalName) (by simp) <|
    .cons (restores_text i.name) (by simp) <|
    .cons (restores_oneOf i.inputType.valueOf?_name) (by simp) <|
    .field (restores_oneOf i.mode.valueOf?_name)
  exact hfields.decoder.mono (Nat.le_succ n)

theorem InputDeclaration.depth_toJson (i : InputDeclaration) : i.toJson.depth = 1 := by
  simp [InputDeclaration.toJson, depth, membersDepth]

theorem Segment.restores (s : Segment) : Segment.fields.decoder.Restores n s.toJson s := by
  have hinputs : (list InputDeclaration.fields.decoder).Restores n
      (.ofList InputDeclaration.toJson s.inputs) s.inputs :=
    (restores_list fun i _ => i.restores).mono (Nat.le_succ n)
  have htext : (Fields.omittable "text" Decoder.text).Restores n
      (member? "text" .str s.text) s.text := .member? fun t _ => restores_ofText? (some t)
  have hfields : Segment.fields.Restores n _ s := .map <|
    .cons (restores_text s.id) (by simp [mem_keys_member?]) <|
    .cons (restores_text s.name) (by simp [mem_keys_member?]) <|
    .cons (restores_oneOf s.kind.valueOf?_name) (by simp [mem_keys_member?]) <|
    .front htext (by simp) <|
    .cons (restores_flag s.notch) (by simp) <|
    .cons (restores_flag s.divot) (by simp) <|
    .field hinputs
  exact hfields.decoder.mono (Nat.le_succ n)

theorem Segment.depth_toJson_le (s : Segment) : s.toJson.depth ≤ 3 := by
  have hinputs : (ofList InputDeclaration.toJson s.inputs).depth ≤ 2 :=
    depth_ofList_le.mpr fun i _ => i.depth_toJson.le
  refine depth_obj_le.mpr ?_
  cases s.text <;> simp [member?, depth, hinputs]

theorem BlockStyle.restores (s : BlockStyle) :
    BlockStyle.fields.decoder.Restores n s.toJson s := by
  have hfields : BlockStyle.fields.Restores n _ s := .map <|
    .cons (restores_text s.color) (by simp) <|
    .field (restores_flag s.forceScope)
  exact hfields.decoder.mono (Nat.le_succ n)

theorem Definition.restores (d : Definition) : Definition.decoder.Restores n d.toJson d := by
  have hsegments : (list Segment.fields.decoder).Restores n
      (.ofList Segment.toJson d.segments) d.segments :=
    (restores_list fun s _ => s.restores).mono (Nat.le_succ n)
  have hfields : Definition.fields.Restores n _ d := .map <|
    .cons (restores_text d.name) (by simp) <|
    .cons (restores_flag d.isEntry) (by simp) <|
    .cons hsegments (by simp) <|
    .field d.style.restores
  exact hfields.decoder.mono (Nat.le_succ n)

theorem Definition.depth_toJson_le (d : Definition) : d.toJson.depth ≤ 5 := by
  have hsegments : (ofList Segment.toJson d.segments).depth ≤ 4 :=
    depth_ofList_le.mpr fun s _ => s.depth_toJson_le
  refine depth_obj_le.mpr ?_
  simp [hsegments, depth, BlockStyle.toJson, membersDepth]

/-! ## Documents -/

/-- Both coordinates of a point are finite. -/
structure Point.Finite (p : Point) : Prop where
  x : p.x.isFinite
  y : p.y.isFinite

instance (p : Point) : Decidable p.Finite :=
  decidable_of_iff (p.x.isFinite ∧ p.y.isFinite) ⟨fun ⟨hx, hy⟩ => ⟨hx, hy⟩, fun h => ⟨h.x, h.y⟩⟩

theorem Point.restores (hp : p.Finite) : Point.decoder.Restores n p.toJson p := by
  have hfields : Point.fields.Restores n _ p := .map <|
    .cons (restores_float hp.x) (by simp) <|
    .field (restores_float hp.y)
  exact hfields.decoder.mono (Nat.le_succ n)

theorem Point.depth_toJson (p : Point) : p.toJson.depth = 1 := by
  have hfloat (x : Float) : (ofFloat x).depth = 0 := by
    unfold ofFloat
    split <;> rfl
  simp [Point.toJson, depth, membersDepth, hfloat]

theorem SavedInput.restores (i : SavedInput) :
    SavedInput.fields.decoder.Restores n i.toJson i := by
  have hfields : SavedInput.fields.Restores n _ i := .map <|
    .cons (restores_text i.id) (by simp) <|
    .cons (restores_ofText? i.key) (by simp) <|
    .cons (restores_ofText? i.displayText) (by simp) <|
    .cons (restores_flag i.occupied) (by simp) <|
    .field (restores_flag i.constant)
  exact hfields.decoder.mono (Nat.le_succ n)

theorem SavedInput.depth_toJson (i : SavedInput) : i.toJson.depth = 1 := by
  simp [SavedInput.toJson, depth, membersDepth, depth_ofText?]

theorem SavedSegment.restores (s : SavedSegment) :
    SavedSegment.fields.decoder.Restores n s.toJson s := by
  have hinputs : (list SavedInput.fields.decoder).Restores n
      (.ofList SavedInput.toJson s.inputs) s.inputs :=
    (restores_list fun i _ => i.restores).mono (Nat.le_succ n)
  have hfields : SavedSegment.fields.Restores n _ s := .map <|
    .cons (restores_text s.id) (by simp) <|
    .field hinputs
  exact hfields.decoder.mono (Nat.le_succ n)

theorem SavedSegment.depth_toJson_le (s : SavedSegment) : s.toJson.depth ≤ 3 := by
  have hinputs : (ofList SavedInput.toJson s.inputs).depth ≤ 2 :=
    depth_ofList_le.mpr fun i _ => i.depth_toJson.le
  refine depth_obj_le.mpr ?_
  simp [depth_str, hinputs]

/-- All coordinates of a saved block are finite. -/
structure SavedBlock.Finite (b : SavedBlock) : Prop where
  position : b.position.Finite
  offset : ∀ p ∈ b.offset, p.Finite

instance (b : SavedBlock) : Decidable b.Finite :=
  decidable_of_iff (b.position.Finite ∧ ∀ p ∈ b.offset, p.Finite)
    ⟨fun ⟨hp, ho⟩ => ⟨hp, ho⟩, fun h => ⟨h.position, h.offset⟩⟩

theorem SavedBlock.restores (hb : b.Finite) : SavedBlock.fields.decoder.Restores n b.toJson b := by
  have hoffset : (Fields.omittable "offset" Point.decoder).Restores n
      (member? "offset" Point.toJson b.offset) b.offset :=
    .member? fun p hp => (Point.restores (hb.offset p hp)).some
  have hsegments : (list SavedSegment.fields.decoder).Restores n
      (.ofList SavedSegment.toJson b.segments) b.segments :=
    (restores_list fun s _ => s.restores).mono (Nat.le_succ n)
  have hfields : SavedBlock.fields.Restores n _ b := .map <|
    .cons (restores_text b.id) (by simp [mem_keys_member?]) <|
    .cons (restores_text b.name) (by simp [mem_keys_member?]) <|
    .cons (Point.restores hb.position) (by simp [mem_keys_member?]) <|
    .front hoffset (by simp) <|
    .cons hsegments (by simp) <|
    .cons b.definition.restores (by simp) <|
    .cons (restores_ofText? b.primaryNotchId) (by simp) <|
    .field (restores_ofText? b.primaryDivotId)
  exact hfields.decoder.mono (Nat.le_succ n)

theorem SavedBlock.depth_toJson_le (b : SavedBlock) : b.toJson.depth ≤ 6 := by
  have hsegments : (ofList SavedSegment.toJson b.segments).depth ≤ 5 :=
    depth_ofList_le.mpr fun s _ => s.depth_toJson_le.trans (by decide)
  have hdefinition := b.definition.depth_toJson_le
  refine depth_obj_le.mpr ?_
  cases b.offset <;>
    simp [member?, depth_str, depth_ofText?, Point.depth_toJson, hsegments, hdefinition]

theorem SavedLink.restores (l : SavedLink) : SavedLink.fields.decoder.Restores n l.toJson l := by
  have hfields : SavedLink.fields.Restores n _ l := .map <|
    .cons (restores_text l.notchBlockId) (by simp) <|
    .cons (restores_text l.divotBlockId) (by simp) <|
    .cons (restores_text l.notchId) (by simp) <|
    .cons (restores_text l.divotId) (by simp) <|
    .cons (restores_text l.notchSegmentId) (by simp) <|
    .cons (restores_text l.divotSegmentId) (by simp) <|
    .field (restores_flag l.isPrimary)
  exact hfields.decoder.mono (Nat.le_succ n)

theorem SavedLink.depth_toJson (l : SavedLink) : l.toJson.depth = 1 := by
  simp [SavedLink.toJson, depth, membersDepth]

/-- All coordinates of a document are finite. -/
def Document.Finite (d : Document) : Prop := ∀ p ∈ d.blocks.toList, p.2.Finite

instance (d : Document) : Decidable d.Finite :=
  inferInstanceAs (Decidable (∀ p ∈ d.blocks.toList, p.2.Finite))

theorem Document.restores (hd : d.Finite) : Document.decoder.Restores n d.toJson d := by
  have hblocks : (table SavedBlock.fields.decoder).Restores n
      (.ofTable SavedBlock.toJson d.blocks) d.blocks :=
    (restores_ofTable fun p hp => SavedBlock.restores (hd p hp)).mono (Nat.le_succ n)
  have hnotches : (table SavedLink.fields.decoder).Restores n
      (.ofTable SavedLink.toJson d.notches) d.notches :=
    (restores_ofTable fun p _ => p.2.restores).mono (Nat.le_succ n)
  have hdecoder : Document.decoder.Restores (n + 1) d.toJson d := Fields.Restores.decoder <|
    .map <| .cons hblocks (by simp) <| .field hnotches
  exact hdecoder.mono (Nat.le_succ n)

theorem Document.depth_toJson_le (d : Document) : d.toJson.depth ≤ 8 := by
  have hblocks : (ofTable SavedBlock.toJson d.blocks).depth ≤ 7 :=
    depth_ofTable_le.mpr fun p _ => p.2.depth_toJson_le
  have hnotches : (ofTable SavedLink.toJson d.notches).depth ≤ 7 :=
    depth_ofTable_le.mpr fun p _ => p.2.depth_toJson.le.trans (by decide)
  refine depth_obj_le.mpr ?_
  simp [hblocks, hnotches]

/-- **A document whose coordinates are finite comes back from its text.** -/
theorem Document.ofText_toText (hd : d.Finite) : Document.ofText d.toText = .ok d := by
  have htext : Document.ofText d.toText = within d.toJson.depth levels d :=
    (Document.restores hd).decode_toPretty
  rw [htext, within_of_le (d.depth_toJson_le.trans (by decide))]

end SnapBlocks
