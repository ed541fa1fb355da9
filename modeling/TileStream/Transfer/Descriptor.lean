import TileStream.Memory.Tier
import TileStream.Transfer.Shape
/-!
# Transfer descriptors

A transfer joins a strided external endpoint with a packed local one. Gathering packs the strided runs
back to back, scattering spreads a packed buffer over them. `Descriptor.split` divides the outer blocks
of a transfer between the units of a team.
-/

namespace TileStream

open Unsigned

/-- Which way a transfer moves its bytes. -/
inductive Direction where
  /-- From the strided side to the packed side. -/
  | gather
  /-- From the packed side to the strided side. -/
  | scatter
  deriving DecidableEq, Repr, Inhabited

/-- What a transfer carries, for accounting. -/
inductive Payload where
  | input
  | weights
  /-- Multipliers or biases. -/
  | requant
  | output
  /-- Bulk copies between the slow and the mid tier. -/
  | staging
  deriving DecidableEq, Repr, Inhabited

/-- A transfer. -/
structure Descriptor where
  payload : Payload
  direction : Direction
  /-- The strided endpoint. -/
  ext : Endpoint
  /-- The packed endpoint. -/
  loc : Endpoint
  /-- The layout on the strided side. -/
  shape : Shape
  deriving DecidableEq, Repr, Inhabited

namespace Descriptor

/-- The bytes that a transfer moves. -/
def totalBytes (d : Descriptor) : Checked Nat := d.shape.totalBytes

/-- The endpoint that a transfer writes. -/
def destination (d : Descriptor) : Endpoint :=
  match d.direction with
  | .gather => d.loc
  | .scatter => d.ext

/-- The least range `[lo, hi)` of its destination tier that holds every byte a transfer writes. A range
that no run extends is empty. -/
def destinationSpan (d : Descriptor) : Checked (Nat × Nat) := do
  match d.direction with
  | .gather =>
    return (d.loc.addr, ← add d.loc.addr (← d.totalBytes))
  | .scatter =>
    let extend (range : Nat × Nat) (addr : Nat) : Checked (Nat × Nat) := do
      return (min range.1 addr, max range.2 (← add addr d.shape.runBytes))
    let (lo, hi) ← (RunCursor.start d.ext.addr d.shape).visit extend d.shape.runs (wordLimit - 1, 0)
    return if hi < lo then (d.ext.addr, d.ext.addr) else (lo, hi)

/-- The share of a transfer that unit `part` of `parts` issues. The outer blocks are divided in
contiguous chunks of `⌈blocks / parts⌉`; units past the last chunk get nothing. -/
def split (d : Descriptor) (part parts : Nat) : Checked (Option Descriptor) := do
  let blocks := d.shape.outer.steps
  let chunk := (blocks + max parts 1 - 1) / max parts 1
  let start ← mul part chunk
  if blocks ≤ start then
    return none
  let count := min chunk (blocks - start)
  let extDelta ← Signed.mul start d.shape.outer.stride
  let locDelta ← Signed.mul start (signed d.shape.blockBytes)
  let ext ← d.ext.displace extDelta
  let loc ← d.loc.displace locDelta
  return some { d with ext, loc, shape := d.shape.withBlocks count }

end Descriptor

end TileStream
