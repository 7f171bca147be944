import SnapBlocks.Json.Decoder
import SnapBlocks.Json.Printer

/-! The variable store of a program: texts keyed by text. -/

namespace SnapBlocks

/-- Variables by name. -/
abbrev Store := Table String

/-- What has to be a text in data that fills a store. -/
inductive StorePart where
  | key
  | value
  | store
  | pair
  deriving DecidableEq, Repr

/-- The name of a part. -/
def StorePart.name : StorePart → String
  | .key => "key"
  | .value => "value"
  | .store => "store"
  | .pair => "pair"

/-- Data does not fit a store: `part` is not what it has to be. -/
structure StoreError where
  part : StorePart
  got : Json

/-- The text of a store error. The offending value is shown with sorted members. -/
def StoreError.message (e : StoreError) : String :=
  "variable store " ++ e.part.name ++ " must be a string, got " ++ e.got.sorted.toCompact

namespace Store

open Json

/-- The text that a part has to be. -/
def text (part : StorePart) : Json → Except StoreError String
  | .str t => .ok t
  | value => .error ⟨part, value⟩

/-- Set a variable from data, whose name and value have to be texts: what comes of it, and the store
it leaves. -/
def writeJson (s : Store) (key value : Json) : Except StoreError Unit × Store :=
  match text .key key with
  | .error e => (.error e, s)
  | .ok k =>
    match text .value value with
    | .error e => (.error e, s)
    | .ok v => (.ok (), s.insert k v)

/-- A store in which a variable was set from data, if that succeeds. -/
def setJson (s : Store) (key value : Json) : Except StoreError Store :=
  match s.writeJson key value with
  | (.ok (), s) => .ok s
  | (.error e, _) => .error e

/-- Set variables from a list of pairs; the first that does not fit ends it. -/
def setPairs (s : Store) : List Json → Except StoreError Store
  | [] => .ok s
  | .arr [key, value] :: rest =>
    match s.setJson key value with
    | .ok s => setPairs s rest
    | .error e => .error e
  | pair :: _ => .error ⟨.pair, pair⟩

/-- A store from data: an array of pairs of texts, of which the last with a key counts. -/
def ofJson? : Json → Except StoreError Store
  | .arr pairs => setPairs ∅ pairs
  | value => .error ⟨.store, value⟩

/-- A store from data. Data that does not fit gives the empty store, and what is wrong with
it. -/
def ofJson (value : Json) : Store × Option StoreError :=
  match ofJson? value with
  | .ok s => (s, none)
  | .error e => (∅, some e)

/-- A store from a text. A text that is JSON gives a store in any case, and what is wrong with its
data. -/
def ofText (text : String) : Except Problem Store × Option StoreError :=
  let (node, tail) := readNode text.toList
  match Decoder.value levels node with
  | .error p => (.error p, none)
  | .ok value =>
    let (s, error) := ofJson value
    (closed tail s, error)

/-- All variables, by name. -/
def snapshot (s : Store) : List (String × String) := s.toList

/-- A store that holds exactly some pairs, of which the last with a key counts. -/
def restore (pairs : List (String × String)) : Store := Table.ofPairs pairs

/-- A store as data. -/
def toJson (s : Store) : Json :=
  .ofList (fun p => .arr [.str p.1, .str p.2]) s.snapshot

end Store

end SnapBlocks
