import SnapBlocks.Document.Basic
import SnapBlocks.Store

/-! Projects: pages with a document and compiled texts each, and the variables that they share. -/

namespace SnapBlocks

open Json

/-- A page of a project. -/
structure Page where
  name : String
  document : Document := {}
  /-- The texts of compiled programs. -/
  code : List String := []
  deriving DecidableEq, Inhabited

/-- A project. -/
structure Project where
  id : String
  /-- The name of the page that is open. -/
  currentPage : String
  pages : List Page
  store : Store := ∅
  deriving DecidableEq, Inhabited

namespace Project

/-- A project with one empty page. -/
def new (id page : String) : Project :=
  { id, currentPage := page, pages := [{ name := page }] }

/-- The first page with a name. -/
def page? (p : Project) (name : String) : Option Page := p.pages.find? (·.name = name)

/-- The page that is open. -/
def current? (p : Project) : Option Page := p.page? p.currentPage

/-- Change the first page with a name. -/
def changeFirst (name : String) (f : Page → Page) : List Page → List Page
  | [] => []
  | page :: rest => if page.name = name then f page :: rest else page :: changeFirst name f rest

/-- Change the first page with a name, if there is one. -/
def modifyPage (p : Project) (name : String) (f : Page → Page) : Project :=
  { p with pages := changeFirst name f p.pages }

/-- Put a page in place of the first one with its name, or behind all others. -/
def upsert (p : Project) (page : Page) : Project :=
  match p.page? page.name with
  | some _ => p.modifyPage page.name fun _ => page
  | none => { p with pages := p.pages ++ [page] }

end Project

/-- A page as a value. -/
def Page.toJson (p : Page) : Json :=
  .obj [("name", .str p.name), ("document", p.document.toJson), ("code", .ofList .str p.code)]

/-- A project as a value. -/
def Project.toJson (p : Project) : Json :=
  .obj [
    ("id", .str p.id),
    ("currentPage", .str p.currentPage),
    ("pages", .ofList Page.toJson p.pages),
    ("variableStore", p.store.toJson)]

/-- The text of a project. -/
def Project.toText (p : Project) : String := p.toJson.toCompact

/-- The fields of a page. -/
def Page.fields :=
  ((Fields.required "name" Decoder.text).and <|
    (Fields.required "document" Document.decoder).and
    (Fields.defaulted "code" (Decoder.list Decoder.text) [])).map
      fun (name, document, code) => (⟨name, document, code⟩ : Page)

/-- A project with the data of its store. -/
structure Project.Raw where
  id : String
  currentPage : String
  pages : List Page
  store : Json

/-- The fields of a project. Its store may be any data. -/
def Project.fields : Fields
    (Option String × Option String × Option (List Page) × Option Json) Project.Raw :=
  ((Fields.required "id" Decoder.text).and <|
    (Fields.required "currentPage" Decoder.text).and <|
    (Fields.required "pages" (Decoder.list Page.fields.decoder)).and
    (Fields.defaulted "variableStore" Decoder.value (.arr []))).map
      fun (id, currentPage, pages, store) => ⟨id, currentPage, pages, store⟩

/-- The project of decoded fields, and what is wrong with the data of its store. -/
def Project.Raw.project (r : Project.Raw) : Project × Option StoreError :=
  let (store, error) := Store.ofJson r.store
  (⟨r.id, r.currentPage, r.pages, store⟩, error)

/-- A project from the tree of a text, and what is wrong with the data of its store, if that was
read before any problem. -/
def Project.ofNode (node : Node) (tail : Option Problem) :
    Except Problem Project × Option StoreError :=
  match node with
  | .obj nodes inner =>
    let (met, problem) := Project.fields.scan (levels - 1) inner Project.fields.start nodes
    let error := met.2.2.2.bind fun store => (Store.ofJson store).2
    let result := match problem with
      | some p => .error p
      | none => do
        let raw ← Project.fields.finish met
        closed tail raw.project.1
    (result, error)
  | .arr nodes inner =>
    match Project.fields.inOrder (levels - 1) nodes inner with
    | .error p => (.error p, none)
    | .ok (raw, rest) =>
      let (project, error) := raw.project
      let result := do
        let project ← if rest.isEmpty then closed inner project else .error .malformed
        closed tail project
      (result, error)
  | node => (.error node.refusal, none)

/-- A project from its text. -/
def Project.ofText (text : String) : Except Problem Project × Option StoreError :=
  let (node, tail) := readNode text.toList
  Project.ofNode node tail

/-- Whether two pages agree, coordinates by value. -/
def Page.agrees (a b : Page) : Bool :=
  a.name = b.name && a.document.agrees b.document && a.code = b.code

/-- Whether two lists of pages agree. -/
def Page.allAgree : List Page → List Page → Bool
  | [], [] => true
  | a :: as, b :: bs => a.agrees b && Page.allAgree as bs
  | _, _ => false

/-- Whether two projects agree, coordinates by value. -/
def Project.agrees (a b : Project) : Bool :=
  a.id = b.id && a.currentPage = b.currentPage && Page.allAgree a.pages b.pages &&
    decide (a.store = b.store)

end SnapBlocks
