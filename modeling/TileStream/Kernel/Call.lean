import TileStream.Layer.Params
import TileStream.Layer.Tensor
import TileStream.Memory.System
import TileStream.Team.Member
/-!
# Kernel calls

The tile loop never looks inside the kernel. Every unit of the team calls it with the same `Call`, and
the kernel divides the work between the units. A call names the scratchpad ranges that it reads and the
range that it writes.
-/

namespace TileStream

open Unsigned

/-- Scratchpad addresses and extents of one computation. -/
structure Call where
  /-- The packed input tile. -/
  input : Nat
  inputDims : TileDims
  /-- The weight tile: for each channel, the taps row by row. -/
  weights : Nat
  /-- Output channels of the tile. -/
  channels : Nat
  kernel : Nat
  stride : Nat
  /-- The sides of the tensor that the tile touches. -/
  boundary : Sides Bool
  /-- The padding of the layer, applied on flagged sides only. -/
  padding : Sides Nat
  workspace : Nat
  workspaceBytes : Nat
  /-- The 32-bit multipliers, one for each output channel. -/
  kappa : Nat
  /-- The 32-bit biases, one for each output channel. -/
  lambda : Nat
  requant : Requant
  /-- The packed output tile. -/
  output : Nat
  outputDims : TileDims
  deriving DecidableEq, Repr, Inhabited

/-- Address and length of the ranges that a call reads: input, weights, multipliers, biases. -/
def Call.readRanges (c : Call) : Checked (List (Nat × Nat)) := do
  let requantBytes ← mul c.channels 4
  let inputBytes ← c.inputDims.bytes
  let weightBytes ← mul (← mul c.channels c.kernel) c.kernel
  return [(c.input, inputBytes), (c.weights, weightBytes), (c.kappa, requantBytes),
    (c.lambda, requantBytes)]

/-- Address and length of the range that a call writes. -/
def Call.writeRange (c : Call) : Checked (Nat × Nat) := do
  return (c.output, ← c.outputDims.bytes)

/-- A kernel: what one unit does for a call. -/
abbrev Kernel := Member → Call → Stateful Memory Unit

end TileStream
