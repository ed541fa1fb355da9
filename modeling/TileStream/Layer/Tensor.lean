import TileStream.Layer.Geometry
import TileStream.Transfer.Descriptor
/-!
# Tensors and their windows

A tensor is stored row by row, the channels of a pixel side by side. A window is a box of rows, columns
and channels: the run of its transfer is the channel slice of one pixel, the middle dimension the pixels
of a row, the outer dimension the rows.
-/

namespace TileStream

open Unsigned

/-- The extent of a tile. -/
structure TileDims where
  rows : Nat
  cols : Nat
  channels : Nat
  deriving DecidableEq, Repr, Inhabited

/-- Bytes of a packed tile of one-byte elements. -/
def TileDims.bytes (d : TileDims) : Checked Nat := do
  mul (← mul d.rows d.cols) d.channels

/-- Where a tile lies and how it is moved. -/
structure Tile where
  /-- The strided endpoint. -/
  ext : Endpoint
  shape : Shape
  dims : TileDims
  deriving DecidableEq, Repr, Inhabited

/-- A tensor placed in a tier. -/
structure Tensor where
  extents : Extents
  elementBits : Nat
  base : Endpoint
  deriving DecidableEq, Repr, Inhabited

namespace Tensor

/-- Whole bytes that hold one element. -/
def elementBytes (t : Tensor) : Nat := TileStream.elementBytes t.elementBits

/-- Bytes from one pixel to the next. -/
def pixelStride (t : Tensor) : Checked Nat := mul t.extents.channels t.elementBytes

/-- Bytes from one row to the next. -/
def rowStride (t : Tensor) : Checked Nat := do
  mul t.extents.width (← t.pixelStride)

/-- Bytes of the whole tensor. -/
def bytes (t : Tensor) : Checked Nat := do
  mul (← t.extents.elements) t.elementBytes

/-- The offset of an element from the start of the tensor. -/
def offset (t : Tensor) (row col channel : Nat) : Checked Nat := do
  let down ← mul row (← t.rowStride)
  let across ← mul col (← t.pixelStride)
  let pixel ← add down across
  add pixel (← mul channel t.elementBytes)

/-- The box of a tensor, as a tile. Sizes keep their low 32 bits. -/
def window (t : Tensor) (rows cols channels : Span) : Checked Tile := do
  let offset ← t.offset rows.start cols.start channels.start
  let ext ← t.base.displace (signed offset)
  let runBytes ← mul channels.len t.elementBytes
  let pixelStride ← t.pixelStride
  let rowStride ← t.rowStride
  return {
    ext
    shape := ⟨low32 runBytes, ⟨low32 cols.len, signed pixelStride⟩,
      ⟨low32 rows.len, signed rowStride⟩⟩
    dims := ⟨rows.len, cols.len, channels.len⟩ }

end Tensor

end TileStream
