import SnapBlocks.Project
import SnapBlocks.Proofs.DocumentText

/-! The text of a project gives the project back, with its variables, if the coordinates of all its
documents are finite; and it does not tell in which order the variables were set. -/

namespace SnapBlocks

open Json Decoder

variable {n : Nat} {s : Store} {page : Page} {p : Project}

/-! ## Stores -/

namespace Store

/-- A variable as data. -/
def pairJson (p : String × String) : Json := .arr [.str p.1, .str p.2]

/-- Set variables one after the other. -/
def setAll (s : Store) (l : List (String × String)) : Store :=
  l.foldl (fun s p => s.insert p.1 p.2) s

theorem setPairs_map (s : Store) (l : List (String × String)) :
    s.setPairs (l.map pairJson) = .ok (s.setAll l) := by
  induction l generalizing s with
  | nil => rfl
  | cons p rest ih => exact ih _

/-- A store is filled again from its data. -/
theorem ofJson_toJson (s : Store) : ofJson s.toJson = (s, none) := by
  have hpairs : ofJson? s.toJson = .ok (Table.ofPairs s.toList) := setPairs_map ∅ s.toList
  rw [ofJson, hpairs, Table.ofPairs_toList]

theorem restores (s : Store) : Restores n value s.toJson s.toJson := by
  have hpair (p : String × String) : Restores (n + 1) value (pairJson p) (pairJson p) :=
    restores_value_arr (List.forall_mem_cons.mpr ⟨restores_value_str p.1,
      List.forall_mem_singleton.mpr (restores_value_str p.2)⟩)
  have hpairs : Restores (n + 2) value s.toJson s.toJson :=
    restores_value_arr (List.forall_mem_map.mpr fun p _ => hpair p)
  exact hpairs.mono (Nat.le_add_right n 2)

/-- A variable has the value that it was set to last. -/
theorem getElem?_setAll (s : Store) (l : List (String × String)) (k : String) :
    (s.setAll l)[k]? = ((l.filter (·.1 = k)).getLast?.map (·.2)).or s[k]? := by
  induction l using List.reverseRecOn with
  | nil => rfl
  | append_singleton l p ih =>
    have hset : s.setAll (l ++ [p]) = (s.setAll l).insert p.1 p.2 := List.foldl_concat ..
    rw [hset, Table.getElem?_insert, List.filter_append]
    by_cases hk : p.1 = k
    · simp [hk]
    · simp [hk, ih]

/-- Only what each variable was set to last tells in a store. -/
theorem setAll_congr (s : Store) {l l' : List (String × String)}
    (h : ∀ k, (l.filter (·.1 = k)).getLast? = (l'.filter (·.1 = k)).getLast?) :
    s.setAll l = s.setAll l' :=
  Table.ext fun k => by rw [getElem?_setAll, getElem?_setAll, h]

theorem depth_toJson_le (s : Store) : s.toJson.depth ≤ 2 :=
  depth_ofList_le.mpr fun p _ => by simp [depth, itemsDepth]

end Store

/-! ## Projects -/

/-- All coordinates of a project are finite. -/
def Project.Finite (p : Project) : Prop := ∀ page ∈ p.pages, page.document.Finite

instance (p : Project) : Decidable p.Finite :=
  inferInstanceAs (Decidable (∀ page ∈ p.pages, page.document.Finite))

theorem Page.restores (h : page.document.Finite) :
    Page.fields.decoder.Restores n page.toJson page := by
  have hcode : (list text).Restores n (.ofList .str page.code) page.code :=
    (restores_list fun s _ => restores_text s).mono (Nat.le_succ n)
  have hfields : Page.fields.Restores n _ page := .map <|
    .cons (restores_text page.name) (by simp) <|
    .cons (Document.restores h) (by simp) <|
    .field hcode
  exact hfields.decoder.mono (Nat.le_succ n)

theorem Page.depth_toJson_le (page : Page) : page.toJson.depth ≤ 9 := by
  have hdocument := page.document.depth_toJson_le
  have hcode : (ofList .str page.code).depth ≤ 8 :=
    depth_ofList_le.mpr fun s _ => Nat.zero_le 7
  refine depth_obj_le.mpr ?_
  simp [depth_str, hdocument, hcode]

/-- A project with the data of its store. -/
def Project.raw (p : Project) : Project.Raw := ⟨p.id, p.currentPage, p.pages, p.store.toJson⟩

theorem Project.project_raw (p : Project) : p.raw.project = (p, none) := by
  have hstore : p.raw.project = (⟨p.id, p.currentPage, p.pages, (Store.ofJson p.store.toJson).1⟩,
      (Store.ofJson p.store.toJson).2) := rfl
  rw [hstore, p.store.ofJson_toJson]

/-- The members of a project. -/
def Project.members (p : Project) : List (String × Json) := [
  ("id", .str p.id),
  ("currentPage", .str p.currentPage),
  ("pages", .ofList Page.toJson p.pages),
  ("variableStore", p.store.toJson)]

theorem Project.restores (hp : p.Finite) : Project.fields.Restores n p.members p.raw := by
  have hpages : (list Page.fields.decoder).Restores n (.ofList Page.toJson p.pages) p.pages :=
    (restores_list fun page hpage => Page.restores (hp page hpage)).mono (Nat.le_succ n)
  exact .map <|
    .cons (restores_text p.id) (by simp) <|
    .cons (restores_text p.currentPage) (by simp) <|
    .cons hpages (by simp) <|
    .field p.store.restores

theorem Project.membersDepth_le (p : Project) : membersDepth p.members ≤ 10 := by
  have hpages : (ofList Page.toJson p.pages).depth ≤ 10 :=
    depth_ofList_le.mpr fun page _ => page.depth_toJson_le
  have hstore := p.store.depth_toJson_le.trans (by decide : 2 ≤ 10)
  refine Json.membersDepth_le.mpr ?_
  simp [members, depth_str, hpages, hstore]

/-- What was met of a project's store is the data of the store. -/
theorem Project.store_of_finish {raw : Project.Raw}
    {met : Option String × Option String × Option (List Page) × Option Json}
    (h : Project.fields.finish met = .ok raw) :
    met.2.2.2 = none ∨ met.2.2.2 = some raw.store := by
  obtain ⟨_ | _, _ | _, _ | _, _ | store⟩ := met <;> cases h
  · exact .inl rfl
  · exact .inr rfl

/-- **A project whose coordinates are finite comes back from its text with all its variables.** -/
theorem Project.ofText_toText (hp : p.Finite) : Project.ofText p.toText = (.ok p, none) := by
  obtain ⟨met, htakes, hfinish⟩ := Project.restores (n := levels) hp
  have hlegible : p.toJson.Legible := htakes.legible
  have hscan := (htakes.scan (Nat.sub_lt (by decide) Nat.one_pos)).1
    (p.membersDepth_le.trans (by decide))
  have hstore : (met.2.2.2.bind fun store => (Store.ofJson store).2) = none := by
    rcases Project.store_of_finish hfinish with h | h
    · rw [h]; rfl
    · rw [h]
      exact congrArg Prod.snd p.store.ofJson_toJson
  unfold Project.ofText Project.toText
  rw [hlegible.readNode_compact]
  change Project.ofNode (.obj (memberNodes p.members) none) none = _
  unfold Project.ofNode
  simp only [hscan, hfinish, hstore]
  change (closed none p.raw.project.1, none) = _
  rw [p.project_raw]
  rfl

/-- **Documents and projects with finite coordinates come back from their texts, and the text of a
project does not tell in which order its variables were set**, only what each was set to last. -/
theorem Project.texts_faithful :
    (∀ d : Document, d.Finite → Document.ofText d.toText = .ok d) ∧
      (∀ p : Project, p.Finite → Project.ofText p.toText = (.ok p, none)) ∧
      ∀ (p : Project) (l l' : List (String × String)),
        (∀ k, (l.filter (·.1 = k)).getLast? = (l'.filter (·.1 = k)).getLast?) →
          { p with store := p.store.setAll l }.toText =
            { p with store := p.store.setAll l' }.toText := by
  refine ⟨fun d hd => Document.ofText_toText hd, fun p hp => Project.ofText_toText hp, ?_⟩
  intro p l l' h
  rw [p.store.setAll_congr h]

/-- A block with the smallest double, a large one, minus zero and two that have no short form in
binary, and texts with a quote, a control character and a character of four bytes. -/
def SavedBlock.scattered : SavedBlock where
  id := "b\"1"
  name := "𝄞"
  position := ⟨5e-324, 1.7976931348623157e308⟩
  offset := some ⟨-0.0, 0.1⟩
  segments := [⟨"s", [⟨"i", none, some "\x01", true, false⟩]⟩]
  definition := { name := "", segments := [⟨"s", "", .header, some "text", true, true,
    [⟨"i", "in", "", .operand, .write⟩]⟩], style := ⟨"red", true⟩ }
  primaryNotchId := some "n"
  primaryDivotId := none

/-- A document with such a block, and a root that is moved a little. -/
def Document.scattered : Document where
  blocks := Table.ofPairs [("b", .scattered),
    ("a", { SavedBlock.scattered with position := ⟨-1e-7, 123456789.5⟩, offset := none })]
  notches := Table.ofPairs [("n", ⟨"b", "a", "n", "d", "s", "s", true⟩)]

/-- A project with such a document and no variables. -/
def Project.scattered : Project where
  id := "project"
  currentPage := "main"
  pages := [{ name := "main", document := .scattered, code := ["a();\n", ""] }, { name := "main" }]

theorem Project.texts_faithful_scattered :
    Document.ofText Document.scattered.toText = .ok .scattered ∧
      Project.ofText Project.scattered.toText = (.ok .scattered, none) ∧
      { Project.scattered with
        store := Store.setAll ∅ [("x", "1"), ("y", "2"), ("x", "3")] }.toText =
      { Project.scattered with store := Store.setAll ∅ [("x", "3"), ("y", "2")] }.toText := by
  have hdocument : Document.scattered.Finite := by decide +kernel
  have hproject : Project.scattered.Finite := by decide +kernel
  refine ⟨texts_faithful.1 _ hdocument, texts_faithful.2.1 _ hproject,
    texts_faithful.2.2 .scattered _ _ fun k => ?_⟩
  by_cases hx : "x" = k
  · subst hx
    decide
  · by_cases hy : "y" = k
    · subst hy
      decide
    · simp [hx, hy]

end SnapBlocks
