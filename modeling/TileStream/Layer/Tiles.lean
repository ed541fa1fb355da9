import TileStream.Layer.Tensor
import TileStream.Layer.WeightBlob
/-!
# The tiles of a layer

`Tiles` knows where the tensors and the weight blob of one invocation lie, and turns a tile coordinate
into the transfers that feed and drain the tile: the input window, the output box, and for its channel
block the weights, multipliers and biases.
-/

namespace TileStream

open Unsigned

/-- The placed tensors and weight blob of one layer invocation. -/
structure Tiles where
  geometry : Geometry
  input : Tensor
  output : Tensor
  weights : Endpoint
  blob : WeightBlob
  deriving DecidableEq, Repr, Inhabited

namespace Tiles

/-- The tiles of a layer with its tensors at `input` and `output` and its blob at `weights`. -/
def place (g : Geometry) (input output weights : Endpoint) : Checked Tiles := do
  let outputExtents ← g.output
  let blob ← g.blob
  return {
    geometry := g
    input := ⟨g.input, g.elementBits, input⟩
    output := ⟨outputExtents, g.elementBits, output⟩
    weights
    blob }

/-- The channels of a channel block; the last block gets the remainder. -/
def channelSpan (t : Tiles) (block : Nat) : Checked Span := do
  let start ← mul block t.geometry.block.channels
  return ⟨start, min t.geometry.block.channels (t.geometry.input.channels - start)⟩

/-- The output rows and columns of a tile. -/
def outputSpans (t : Tiles) (c : Coord) : Checked (Span × Span) := do
  let rows ← t.geometry.rows.outputSpan c.height t.geometry.block.height
  let cols ← t.geometry.cols.outputSpan c.width t.geometry.block.width
  return (rows, cols)

/-- The input rows and columns that feed the output tile at `c`. -/
def inputSpans (t : Tiles) (c : Coord) : Checked (Span × Span) := do
  let (outRows, outCols) ← t.outputSpans c
  let rows ← t.geometry.rows.inputSpan outRows (0 < c.height)
  let cols ← t.geometry.cols.inputSpan outCols (0 < c.width)
  return (rows, cols)

/-- The input window that feeds the output tile at `c`. -/
def inputTile (t : Tiles) (c : Coord) : Checked Tile := do
  let (rows, cols) ← t.inputSpans c
  t.input.window rows cols (← t.channelSpan c.inChannel)

/-- The output tile at `c`. -/
def outputTile (t : Tiles) (c : Coord) : Checked Tile := do
  let (rows, cols) ← t.outputSpans c
  t.output.window rows cols (← t.channelSpan c.outChannel)

/-- The weights of a channel block: one run of all taps for each channel. -/
def weightTile (t : Tiles) (block : Nat) : Checked Tile := do
  let channels ← t.channelSpan block
  let taps ← mul t.geometry.kernel t.geometry.kernel
  let offset ← add t.blob.weights (← mul channels.start taps)
  let ext ← t.weights.displace (signed offset)
  return {
    ext
    shape := ⟨low32 taps, ⟨1, 0⟩, ⟨low32 channels.len, signed taps⟩⟩
    dims := ⟨t.geometry.kernel, t.geometry.kernel, channels.len⟩ }

/-- The part of a 32-bit array of the blob, at offset `array`, that belongs to a channel block. -/
def wordTile (t : Tiles) (array block : Nat) : Checked Tile := do
  let channels ← t.channelSpan block
  let offset ← add array (← mul channels.start 4)
  let ext ← t.weights.displace (signed offset)
  let bytes ← mul channels.len 4
  return { ext, shape := .contiguous (low32 bytes), dims := ⟨1, 1, channels.len⟩ }

/-- The multipliers of a channel block. -/
def kappaTile (t : Tiles) (block : Nat) : Checked Tile := t.wordTile t.blob.kappa block

/-- The biases of a channel block. -/
def lambdaTile (t : Tiles) (block : Nat) : Checked Tile := t.wordTile t.blob.lambda block

end Tiles

end TileStream
