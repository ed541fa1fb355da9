/-!
# Items of a configuration document

A document is a table. Besides its entries a table remembers how it came to be, because that decides
whether it may be extended further on: a table written with a header or in braces is complete, one that
only stands on the way to another is not. The numbers of floats and the fields of dates are not kept.
-/

namespace TileStream.Toml

/-- How a table came to be. -/
inductive Origin where
  /-- Written with its own header, or the document itself. -/
  | header
  /-- On the way to a header. -/
  | passed
  /-- On the way to a dotted key. -/
  | dotted
  /-- Written in braces. -/
  | inBraces
  deriving DecidableEq, Repr, Inhabited

/-- An item of a document. -/
inductive Item where
  | string (text : String)
  | integer (value : Int)
  | float
  | boolean (value : Bool)
  | datetime
  | array (items : List Item)
  | table (origin : Origin) (entries : List (String × Item))
  /-- The tables that repeated double-bracket headers have written. -/
  | tables (elements : List Item)
  deriving Repr, Inhabited

/-- The entries of a table, in the order in which they were written. -/
abbrev Entries := List (String × Item)

namespace Entries

/-- Replace the item of a key that is present. -/
def replace (es : Entries) (key : String) (item : Item) : Entries :=
  es.map fun (k, i) => if k = key then (k, item) else (k, i)

/-- Change the table at the end of a path, whose tables are created where they are missing. `dotted` says
whether the path is that of a dotted key; such a path does not enter a table with a header of its own.
No path enters a value, and one through an array of tables enters the last of them. -/
def modifyPath (dotted : Bool) (f : Origin → Entries → Option Entries) :
    List String → Origin → Entries → Option Entries
  | [], origin, es => f origin es
  | key :: path, _, es =>
    match es.lookup key with
    | none => do
      let origin := if dotted then .dotted else .passed
      let inner ← modifyPath dotted f path origin []
      return es ++ [(key, .table origin inner)]
    | some (.table origin inner) => do
      guard (origin ≠ .inBraces ∧ (dotted → origin ≠ .header))
      let inner ← modifyPath dotted f path origin inner
      return es.replace key (.table origin inner)
    | some (.tables elements) => do
      let .table origin inner ← elements.getLast? | none
      let inner ← modifyPath dotted f path origin inner
      return es.replace key (.tables (elements.dropLast ++ [.table origin inner]))
    | some _ => none

/-- Add a key, given by its dotted path, to a table. A dotted key only extends tables that dotted keys
have made, and no key is set twice. -/
def insert (path : List String) (key : String) (item : Item) (origin : Origin) (es : Entries) :
    Option Entries :=
  modifyPath true (fun inside es => do
    guard (path = [] ∨ inside = .dotted)
    guard (es.lookup key = none)
    return es ++ [(key, item)]) path origin es

/-- Open the table of a header. It must be new or stand on the way to a header already. -/
def openTable (path : List String) (key : String) (es : Entries) : Option Entries :=
  modifyPath false (fun _ es =>
    match es.lookup key with
    | none => some (es ++ [(key, .table .header [])])
    | some (.table .passed inner) => some (es.replace key (.table .header inner))
    | some _ => none) path .header es

/-- Open a new table at the end of an array of tables. -/
def openElement (path : List String) (key : String) (es : Entries) : Option Entries :=
  modifyPath false (fun _ es =>
    match es.lookup key with
    | none => some (es ++ [(key, .tables [.table .header []])])
    | some (.tables elements) =>
      some (es.replace key (.tables (elements ++ [.table .header []])))
    | some _ => none) path .header es

end Entries

end TileStream.Toml
