import TileStream.Word
/-!
# One spatial axis of a convolution

An axis has an extent, a kernel size, a stride and padding on both ends. Output block `index` covers an
output span; the input window it needs is `[o * s - pad, (o + n - 1) * s - pad + k)` for output span
`[o, o + n)`, clamped to the axis. The first tile starts at input position 0 and leaves the padding to
the kernel; a later one starts `pad` positions before `o * s` and overlaps the tile before it.
-/

namespace TileStream

open Unsigned

/-- The half-open range `[start, start + len)`. -/
structure Span where
  start : Nat
  len : Nat
  deriving DecidableEq, Repr, Inhabited

/-- The first index past a span. -/
def Span.stop (s : Span) : Checked Nat := add s.start s.len

/-- The convolution along one spatial axis. -/
structure Axis where
  /-- The input extent. -/
  extent : Nat
  kernel : Nat
  stride : Nat
  padBefore : Nat
  padAfter : Nat
  deriving DecidableEq, Repr, Inhabited

namespace Axis

/-- The input extent with the padding on both ends. -/
def padded (a : Axis) : Checked Nat := do
  add (← add a.extent a.padBefore) a.padAfter

/-- The output extent. A kernel larger than the padded extent still has one position. -/
def outputExtent (a : Axis) : Checked Nat := do
  add (← div ((← a.padded) - a.kernel) a.stride) 1

/-- The output span of block `index`; the last block gets the remainder. -/
def outputSpan (a : Axis) (index block : Nat) : Checked Span := do
  let start ← mul index block
  return ⟨start, min block ((← a.outputExtent) - start)⟩

/-- The input span that feeds output span `out`. When the tile `follows` the boundary tile, which has
already used the padding, its window starts `padBefore` positions earlier. -/
def inputSpan (a : Axis) (out : Span) (follows : Bool) : Checked Span := do
  let start := (← mul out.start a.stride) - (if follows then a.padBefore else 0)
  let last := (← out.stop) - 1
  let reach ← add (← mul last a.stride) a.kernel
  let stop := min (reach - a.padBefore) a.extent
  return ⟨start, stop - start⟩

/-- The largest input window that an output block of `block` positions can need. -/
def maxWindow (a : Axis) (block : Nat) : Checked Nat := do
  return min (← add (← mul (block - 1) a.stride) a.kernel) a.extent

end Axis

end TileStream
