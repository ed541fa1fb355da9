import TileStream.Layer.Axis
import TileStream.Layer.Grid
/-!
# Layer geometry

A layer is a depthwise convolution over a tensor that is stored row by row, pixel by pixel, with the
channels of a pixel side by side. The generator of a layer chooses the output block along each axis;
grid, tile sizes and slot sizes follow from here. `Geometry.validate` says which geometries can be
tiled: nothing is zero, elements have eight bits, the kernel fits the padded input, no block exceeds
what it divides, and padding is met by boundary tiles only.
-/

namespace TileStream

open Unsigned

/-- Channels, height and width of a tensor or of a block of one. -/
structure Extents where
  channels : Nat
  height : Nat
  width : Nat
  deriving DecidableEq, Repr, Inhabited

/-- The number of elements. -/
def Extents.elements (e : Extents) : Checked Nat := do
  mul (← mul e.channels e.height) e.width

/-- Whole bytes that hold one element. -/
def elementBytes (bits : Nat) : Nat := (bits + 7) / 8

/-- The geometry of one depthwise layer. -/
structure Geometry where
  /-- The input tensor. -/
  input : Extents
  /-- The side of the square kernel. -/
  kernel : Nat
  stride : Nat
  padding : Sides Nat
  /-- The output block that one tile computes. -/
  block : Extents
  elementBits : Nat
  /-- Bytes of the scratchpad that the kernel keeps for itself. -/
  workspaceBytes : Nat
  deriving DecidableEq, Repr, Inhabited

/-- A size that has to be positive. -/
inductive SizeName where
  | inputChannels | inputHeight | inputWidth
  | kernel | stride
  | channelBlock | heightBlock | widthBlock
  deriving DecidableEq, Repr

def SizeName.text : SizeName → String
  | .inputChannels => "input channels"
  | .inputHeight => "input height"
  | .inputWidth => "input width"
  | .kernel => "kernel"
  | .stride => "stride"
  | .channelBlock => "channel block"
  | .heightBlock => "height block"
  | .widthBlock => "width block"

/-- An axis of the tensor. -/
inductive AxisName where
  | height | width | channel
  deriving DecidableEq, Repr

def AxisName.text : AxisName → String
  | .height => "height"
  | .width => "width"
  | .channel => "channel"

/-- Why a geometry cannot be tiled. -/
inductive GeometryError where
  | zero (size : SizeName)
  | unsupportedElementBits (bits : Nat)
  | kernelTooLarge (axis : AxisName) (kernel extent : Nat)
  | blockExceedsDimension (axis : AxisName) (block extent : Nat)
  /-- A tile away from the boundary would need padding positions. -/
  | paddingSpansTiles (axis : AxisName) (pad block stride : Nat)
  deriving DecidableEq, Repr

def GeometryError.message : GeometryError → String
  | .zero size => s!"{size.text} must be non-zero"
  | .unsupportedElementBits bits => s!"only 8-bit elements are supported, got {bits} bits"
  | .kernelTooLarge axis kernel extent =>
    s!"kernel {kernel} does not fit padded {axis.text} extent {extent}"
  | .blockExceedsDimension axis block extent =>
    s!"{axis.text} block {block} exceeds output extent {extent}"
  | .paddingSpansTiles axis pad block stride =>
    s!"{axis.text} padding {pad} cannot be confined to boundary tiles (block {block}, stride {stride})"

/-- A computation that may stop with a fault, reject the geometry or give a value. -/
abbrev Validated := ExceptT GeometryError Checked

namespace Geometry

/-- Whole bytes that hold one element. -/
def elementBytes (g : Geometry) : Nat := TileStream.elementBytes g.elementBits

/-- The convolution along the height axis. -/
def rows (g : Geometry) : Axis :=
  ⟨g.input.height, g.kernel, g.stride, g.padding.top, g.padding.bottom⟩

/-- The convolution along the width axis. -/
def cols (g : Geometry) : Axis :=
  ⟨g.input.width, g.kernel, g.stride, g.padding.left, g.padding.right⟩

/-- The output tensor. Channels pass through. -/
def output (g : Geometry) : Checked Extents := do
  let height ← g.rows.outputExtent
  let width ← g.cols.outputExtent
  return ⟨g.input.channels, height, width⟩

/-- The grid of tiles over the output tensor. -/
def grid (g : Geometry) : Checked Grid := do
  let out ← g.output
  let channels ← ceilDiv out.channels g.block.channels
  let height ← ceilDiv out.height g.block.height
  let width ← ceilDiv out.width g.block.width
  return ⟨channels, height, width⟩

/-- Bytes of the largest input tile. -/
def maxInputTileBytes (g : Geometry) : Checked Nat := do
  let rows ← g.rows.maxWindow g.block.height
  let cols ← g.cols.maxWindow g.block.width
  mul (← mul (← mul rows cols) g.block.channels) g.elementBytes

/-- Bytes of the largest output tile. -/
def maxOutputTileBytes (g : Geometry) : Checked Nat := do
  mul (← mul (← mul g.block.height g.block.width) g.block.channels) g.elementBytes

/-- Bytes of the largest weight tile: one byte for each channel and tap. -/
def maxWeightTileBytes (g : Geometry) : Checked Nat := do
  mul (← mul g.block.channels g.kernel) g.kernel

/-- Bytes of the multipliers and biases of one channel block, four for each. -/
def requantPairBytes (g : Geometry) : Checked Nat := do
  mul (← mul 2 g.block.channels) 4

/-- The sizes that have to be positive, in the order in which they are checked. -/
def sizes (g : Geometry) : List (SizeName × Nat) :=
  [(.inputChannels, g.input.channels), (.inputHeight, g.input.height),
   (.inputWidth, g.input.width), (.kernel, g.kernel), (.stride, g.stride),
   (.channelBlock, g.block.channels), (.heightBlock, g.block.height),
   (.widthBlock, g.block.width)]

end Geometry

/-- The check of one spatial axis: the kernel fits, the block fits the output, and when there are
several blocks the padding before the axis lies in the first and the padding after it in the last. -/
def Axis.validate (a : Axis) (name : AxisName) (block : Nat) : Validated Unit := do
  let extent ← a.padded
  if extent < a.kernel then
    throw (.kernelTooLarge name a.kernel extent)
  let out ← a.outputExtent
  if out < block then
    throw (.blockExceedsDimension name block out)
  if 1 < (← ceilDiv out block) then
    if (← mul block a.stride) < a.padBefore then
      throw (.paddingSpansTiles name a.padBefore block a.stride)
    if a.stride < a.padAfter then
      throw (.paddingSpansTiles name a.padAfter block a.stride)

/-- The check that a geometry can be tiled. -/
def Geometry.validate (g : Geometry) : Validated Unit := do
  if let some (size, _) := g.sizes.find? (·.2 == 0) then
    throw (.zero size)
  if g.elementBits ≠ 8 then
    throw (.unsupportedElementBits g.elementBits)
  g.rows.validate .height g.block.height
  g.cols.validate .width g.block.width
  if g.input.channels < g.block.channels then
    throw (.blockExceedsDimension .channel g.block.channels g.input.channels)

end TileStream
