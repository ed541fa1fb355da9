import TileStream.Layer.Geometry
/-!
# The weight blob

The weights of a layer, one signed byte for each channel and tap, are followed by padding to a multiple
of four, by one 32-bit multiplier for each channel and by one 32-bit bias for each channel.
-/

namespace TileStream

open Unsigned

/-- Byte offsets of the arrays inside a weight blob, and its size. -/
structure WeightBlob where
  weights : Nat
  kappa : Nat
  lambda : Nat
  total : Nat
  deriving DecidableEq, Repr, Inhabited

/-- The blob of a layer. -/
def Geometry.blob (g : Geometry) : Checked WeightBlob := do
  let weightBytes ← mul (← mul g.input.channels g.kernel) g.kernel
  let kappa ← roundUp4 weightBytes
  let lambda ← add kappa (← mul g.input.channels 4)
  let total ← add lambda (← mul g.input.channels 4)
  return ⟨0, kappa, lambda, total⟩

end TileStream
