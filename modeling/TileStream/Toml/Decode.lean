import TileStream.Toml.Document
import TileStream.Word
/-!
# Records in documents

A record is given by the names of its fields, as a table, or by their positions, as an array. Fields that
the record does not have are ignored, and so are elements past the last field. A date counts as a record
without fields.
-/

namespace TileStream.Toml

/-- The contents of a file. -/
inductive Source where
  | missing
  /-- There is something that cannot be read as a file. -/
  | unreadable
  | bytes (content : ByteArray)
  deriving Inhabited

/-- The text of a file, if it can be read and is valid UTF-8. -/
def Source.text? : Source → Option String
  | .missing => none
  | .unreadable => none
  | .bytes content => String.fromUTF8? content

/-- The fields of a record. -/
inductive Fields where
  | named (entries : Entries)
  | positional (items : List Item)

namespace Fields

/-- The item of the field of a name at a position. -/
def get? (fs : Fields) (position : Nat) (name : String) : Option Item :=
  match fs with
  | .named entries => entries.lookup name
  | .positional items => items[position]?

/-- A field that has to be there. -/
def required {α : Type} (fs : Fields) (position : Nat) (name : String) (decode : Item → Option α) :
    Option α := do
  decode (← fs.get? position name)

/-- A field with a default. -/
def defaulted {α : Type} (fs : Fields) (position : Nat) (name : String) (decode : Item → Option α)
    (standard : α) : Option α :=
  match fs.get? position name with
  | none => some standard
  | some item => decode item

/-- A field that may be absent. -/
def optional {α : Type} (fs : Fields) (position : Nat) (name : String) (decode : Item → Option α) :
    Option (Option α) :=
  match fs.get? position name with
  | none => some none
  | some item => some <$> decode item

end Fields

namespace Item

/-- The fields of an item that can stand for a record. -/
def fields? : Item → Option Fields
  | .table _ entries => some (.named entries)
  | .array items => some (.positional items)
  | .tables elements => some (.positional elements)
  | .datetime => some (.named [])
  | _ => none

/-- A natural number below a limit. -/
def below? (limit : Nat) : Item → Option Nat
  | .integer z => do
    guard (0 ≤ z ∧ z < limit)
    return z.toNat
  | _ => none

/-- A size of 64 bits. -/
def size? : Item → Option Nat := below? wordLimit

/-- Nothing is inside a table or an array. -/
def isEmptyContainer : Item → Bool
  | .table _ entries => entries.isEmpty
  | .array items => items.isEmpty
  | .tables elements => elements.isEmpty
  | _ => false

/-- The name of a choice without contents: a string, or a table whose only key has an empty value. -/
def choice? : Item → Option String
  | .string text => some text
  | .table _ [(name, contents)] => do
    guard contents.isEmptyContainer
    return name
  | _ => none

end Item

end TileStream.Toml
