import TileStream.Kernel.Call
/-!
# The depthwise kernel

Each output value is the sum over the taps of input times weight, scaled by the multiplier of its
channel, shifted by its bias, divided by a power of two and clipped to a byte. Taps that fall outside the
input tile count as zero. On a flagged side the tile is preceded by the padding of the layer. Units
divide the output channels.
-/

namespace TileStream

open Unsigned

/-- The fixed-point step from an accumulator to an activation byte. -/
def requantize (acc : Int) (kappa lambda : Int32) (shift : Nat) : Checked UInt8 := do
  let scaled ← Signed.add (← Signed.mul acc kappa.toInt) lambda.toInt
  if 64 ≤ shift then
    throw .shiftOverflow
  return UInt8.ofNat (min 255 (max 0 (scaled >>> shift))).toNat

namespace Depthwise

/-- The operands of a call, read from the scratchpad. -/
structure Operands where
  input : Array UInt8
  weights : Array UInt8
  kappa : Array Int32
  lambda : Array Int32

/-- Read the operands of a call. -/
def readOperands (c : Call) (b : Bank) : Checked Operands := do
  let input ← b.read c.input (← c.inputDims.bytes)
  let weights ← b.read c.weights (← mul (← mul c.channels c.kernel) c.kernel)
  let kappa ← b.readInt32s c.kappa c.channels
  let lambda ← b.readInt32s c.lambda c.channels
  return ⟨input, weights, kappa.toArray, lambda.toArray⟩

/-- The element of a buffer, or the fault of indexing past its end. -/
def element {α : Type} (buffer : Array α) (i : Nat) : Checked α :=
  match buffer[i]? with
  | some a => .ok a
  | none => .error .outOfBounds

/-- Where tap `tap` of output position `out` falls along an axis whose first `shift` positions are
padding: an index below `extent`, or `none` outside the tile. -/
def position (stride extent : Nat) (shift : Int) (out tap : Nat) : Checked (Option Nat) := do
  let p ← Signed.sub (signed (← add (← mul out stride) tap)) shift
  return if 0 ≤ p ∧ p < signed extent then some p.toNat else none

/-- The padding before the first row. -/
def rowShift (c : Call) : Int := if c.boundary.top then signed c.padding.top else 0

/-- The padding before the first column. -/
def colShift (c : Call) : Int := if c.boundary.left then signed c.padding.left else 0

/-- The product of one tap of channel `channel`. -/
def product (c : Call) (o : Operands) (channel row col kh kw : Nat) : Checked Int := do
  let weight ← element o.weights ((channel * c.kernel + kh) * c.kernel + kw)
  let pixel := (row * c.inputDims.cols + col) * c.inputDims.channels + channel
  let value ← element o.input pixel
  Signed.mul value.toNat weight.toInt8.toInt

/-- The sum over the taps for output position `y`, `x` of a channel. -/
def accumulate (c : Call) (o : Operands) (y x channel : Nat) : Checked Int :=
  (List.range c.kernel).foldlM (fun acc kh => do
    match ← position c.stride c.inputDims.rows (rowShift c) y kh with
    | none => return acc
    | some row =>
      (List.range c.kernel).foldlM (fun acc kw => do
        match ← position c.stride c.inputDims.cols (colShift c) x kw with
        | none => return acc
        | some col => Signed.add acc (← product c o channel row col kh kw)) acc) 0

/-- The place of an output value in the packed output tile, with the value. -/
def result (c : Call) (o : Operands) (y x channel : Nat) : Checked (Nat × UInt8) := do
  let acc ← accumulate c o y x channel
  let pixel ← add (← mul y c.outputDims.cols) x
  let offset ← add (← mul pixel c.outputDims.channels) channel
  let kappa ← element o.kappa channel
  let lambda ← element o.lambda channel
  return (offset, ← requantize acc kappa lambda c.requant.outShift.toNat)

/-- The output positions of a share of the channels, in the order in which they are computed. -/
def positions (c : Call) (share : Share) : List (Nat × Nat × Nat) :=
  (List.range c.outputDims.rows).flatMap fun y =>
    (List.range c.outputDims.cols).flatMap fun x =>
      (List.range' share.start (share.stop - share.start)).map fun channel => (y, x, channel)

/-- Every result of a share of the channels. -/
def results (c : Call) (o : Operands) (share : Share) : Checked (List (Nat × UInt8)) :=
  (positions c share).mapM fun (y, x, channel) => result c o y x channel

/-- The bytes that one result takes while it waits to be written. -/
def resultBytes : Nat := 16

/-- The kernel: read the operands, compute the results of the unit's channels, then write them. -/
def kernel : Kernel := fun member c => do
  let share ← member.share c.channels
  if share.isEmpty then
    return
  let operands ← Memory.look .scratchpad (readOperands c)
  let count ← mul (← mul c.outputDims.rows c.outputDims.cols) (share.stop - share.start)
  checkBuffer (count * resultBytes)
  let values ← (results c operands share : Checked _)
  values.forM fun (offset, value) => do
    let addr ← add c.output offset
    Memory.onBank .scratchpad (Bank.writeByte addr value)

/-- The name of the kernel in logs. -/
def name : String := "depthwise_bn_relu"

end Depthwise

end TileStream
