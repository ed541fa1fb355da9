import TileStream.Toml.Scalar
/-!
# Documents

`Toml.parse` reads a document: key-value lines, headers in single brackets and headers in double
brackets, each on a line of its own. Values nest in arrays and in braces, up to a fixed depth. A byte
order mark at the front is skipped.
-/

namespace TileStream.Toml

namespace Reader

/-- Items that are read by `item`, with commas between them. -/
def commaSeparated {α : Type} (item : Reader α) : Reader (List α) := do
  match ← option item with
  | none => return []
  | some first => do
    let others ← many do
      expect ","
      item
    return first :: others

/-- A key with its value, where values are read by `value`. -/
def keyValue (value : Reader Item) : Reader ((List String × String) × Item) := do
  let k ← key
  expect "="
  blanks
  return (k, ← value)

/-- The items of an array; line ends and a comma at the end are allowed. -/
def arrayItems (value : Reader Item) : Reader (List Item) := do
  expect "["
  let items ← commaSeparated do
    gap
    let item ← value
    gap
    return item
  discard <| option do
    guard (items.length ≠ 0)
    gap
    expect ","
  gap
  expect "]"
  return items

/-- The entries of a table in braces, on one line. -/
def braceEntries (value : Reader Item) : Reader Entries := do
  expect "\x7b"
  let pairs ← commaSeparated do
    let pair ← keyValue value
    blanks
    return pair
  blanks
  expect "\x7d"
  (pairs.foldlM (fun es ((path, k), item) => Entries.insert path k item .inBraces es) [] : Option _)

/-- A value with at most `depth` brackets or braces around its innermost part. -/
def value : Nat → Reader Item
  | 0 => scalar
  | depth + 1 =>
    (.array <$> arrayItems (value depth)) <|>
    (.table .inBraces <$> braceEntries (value depth)) <|>
    scalar

end Reader

/-- A document being read: its entries, and the path of the table that key-value lines extend. -/
structure Document where
  entries : Entries
  path : List String
  deriving Inhabited

namespace Document

open Reader

/-- An empty document, where key-value lines extend the root. -/
def empty : Document := ⟨[], []⟩

/-- Extend the current table. -/
def extend (d : Document) (k : List String × String) (item : Item) : Option Document := do
  let entries ← Entries.modifyPath false (Entries.insert k.1 k.2 item) d.path .header d.entries
  return { d with entries }

/-- A line with a key and its value. -/
def keyValueLine (d : Document) : Reader Document := do
  let (k, item) ← keyValue (value maxDepth)
  restOfLine
  (d.extend k item : Option _)

/-- A header in double brackets. -/
def elementHeader (d : Document) : Reader Document := do
  expect "[["
  let (path, k) ← key
  expect "]]"
  restOfLine
  let entries ← (Entries.openElement path k d.entries : Option _)
  return ⟨entries, path ++ [k]⟩

/-- A header in single brackets. -/
def tableHeader (d : Document) : Reader Document := do
  expect "["
  let (path, k) ← key
  expect "]"
  restOfLine
  let entries ← (Entries.openTable path k d.entries : Option _)
  return ⟨entries, path ++ [k]⟩

/-- One line of a document. -/
def line (d : Document) : Reader Document := do
  blanks
  match ← peek? with
  | some '[' => d.elementHeader <|> d.tableHeader
  | some '#' | some '\r' | some '\n' => do
    restOfLine
    return d
  | _ => d.keyValueLine

/-- At most `count` lines, up to the end of the text. -/
def lines : Nat → Document → Reader Document
  | 0, d => do
    blanks
    atEnd
    return d
  | count + 1, d => do
    match ← option (do blanks; atEnd) with
    | some () => return d
    | none => do
      let d ← d.line
      lines count d

end Document

/-- Read a document; `none` if the text is not one. -/
def parse (text : String) : Option Entries :=
  let chars := match text.toList with
    | '\ufeff' :: rest => rest
    | chars => chars
  match Document.lines chars.length .empty chars with
  | some (d, _) => some d.entries
  | none => none

end TileStream.Toml
