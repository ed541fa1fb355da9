import TileStream.Layer.Geometry
import TileStream.Toml.Decode
/-!
# Geometries as text

A geometry is written as a TOML document with the tables `input`, `padding` and `block`. The stride
defaults to one, elements to eight bits, padding and workspace to nothing. What is read is validated.
-/

namespace TileStream

open Toml

/-- Read the extents of a tensor or a block. -/
def Extents.ofItem? (item : Item) : Option Extents := do
  let fs ← item.fields?
  let channels ← fs.required 0 "channels" Item.size?
  let height ← fs.required 1 "height" Item.size?
  let width ← fs.required 2 "width" Item.size?
  return ⟨channels, height, width⟩

/-- Read the padding of a layer. -/
def paddingOfItem? (item : Item) : Option (Sides Nat) := do
  let fs ← item.fields?
  let top ← fs.defaulted 0 "top" Item.size? 0
  let bottom ← fs.defaulted 1 "bottom" Item.size? 0
  let left ← fs.defaulted 2 "left" Item.size? 0
  let right ← fs.defaulted 3 "right" Item.size? 0
  return ⟨top, bottom, left, right⟩

namespace Geometry

/-- Read a geometry from its fields. -/
def ofFields? (fs : Fields) : Option Geometry := do
  let input ← fs.required 0 "input" Extents.ofItem?
  let kernel ← fs.required 1 "kernel" Item.size?
  let stride ← fs.defaulted 2 "stride" Item.size? 1
  let padding ← fs.defaulted 3 "padding" paddingOfItem? (.uniform 0)
  let block ← fs.required 4 "block" Extents.ofItem?
  let elementBits ← fs.defaulted 5 "element_bits" (Item.below? 0x100000000) 8
  let workspaceBytes ← fs.defaulted 6 "workspace_bytes" Item.size? 0
  return { input, kernel, stride, padding, block, elementBits, workspaceBytes }

/-- Why a text is not an accepted geometry. -/
inductive TextError where
  /-- The text is no document, or not one with the fields of a geometry. -/
  | malformed
  | rejected (cause : GeometryError)
  deriving DecidableEq, Repr

def TextError.message : TextError → String
  | .malformed => "invalid layer geometry"
  | .rejected cause => cause.message

/-- Read and validate a geometry. -/
def ofText (text : String) : ExceptT TextError Checked Geometry := do
  match (parse text).bind fun entries => ofFields? (.named entries) with
  | none => throw .malformed
  | some g => do
    g.validate.adapt .rejected
    return g

/-- Why a file does not give an accepted geometry. -/
inductive FileError where
  /-- The file cannot be read as text. -/
  | unreadable
  | text (cause : TextError)
  deriving DecidableEq, Repr

/-- The text of an error about the file at a path. -/
def FileError.message (path : String) : FileError → String
  | .unreadable => s!"failed to read {path}"
  | .text cause => s!"in {path}: {cause.message}"

/-- Read and validate the geometry in a file. -/
def ofSource (source : Source) : ExceptT FileError Checked Geometry := do
  match source.text? with
  | none => throw .unreadable
  | some text => (ofText text).adapt .text

end Geometry

end TileStream
