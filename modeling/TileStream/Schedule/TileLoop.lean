import TileStream.Layer.Grid
import TileStream.Schedule.Slots
/-!
# The tile loop

Iteration `i` computes tile `i`, writes it back and prefetches tile `i + 1`. `TileLoop.next` yields the
plan of one iteration with the loop after it. The loop of a grid yields one plan for each tile.
-/

namespace TileStream

/-- What one iteration does. -/
structure Iteration where
  index : Nat
  /-- The tile that is computed and written back. -/
  exec : Coord
  /-- The tile that is prefetched, `none` in the last iteration. -/
  load : Option Coord
  slots : SlotPlan
  /-- The prefetch includes the weights and the requant pair of another channel block. -/
  reloadsWeights : Bool
  /-- The sides of the tensor that the computed tile touches. -/
  boundary : Sides Bool
  deriving DecidableEq, Repr, Inhabited

/-- No tile is prefetched. -/
def Iteration.isFinal (i : Iteration) : Bool := i.load.isNone

/-- The state of the loop between iterations. -/
structure TileLoop where
  grid : Grid
  /-- The number of iterations in the whole loop. -/
  total : Nat
  slots : Slots
  /-- The tile that the next iteration computes. -/
  exec : Option Coord
  index : Nat
  /-- Input tiles prefetched so far. -/
  prefetches : Nat
  /-- Weight tiles prefetched so far; the prologue is not counted. -/
  weightReloads : Nat
  deriving DecidableEq, Repr, Inhabited

namespace TileLoop

/-- The loop over a grid, before its first iteration. -/
def start (grid : Grid) : Checked TileLoop := do
  let total ← grid.total
  let exec := if total = 0 then none else some .origin
  return { grid, total, slots := .start, exec, index := 0, prefetches := 0, weightReloads := 0 }

/-- The number of iterations still to come. -/
def remaining (l : TileLoop) : Nat := l.total - l.index

/-- The next iteration with the loop after it, `none` at the end. -/
def next (l : TileLoop) : Checked (Option (Iteration × TileLoop)) := do
  let some exec := l.exec | return none
  let load ← l.grid.next exec
  let reloadsWeights := load.any (·.changesChannelBlock exec)
  let boundary ← l.grid.boundary exec
  return some (
    { index := l.index, exec, load, slots := l.slots.plan, reloadsWeights, boundary },
    { l with
      slots := l.slots.advance reloadsWeights
      exec := load
      index := l.index + 1
      prefetches := if load.isSome then l.prefetches + 1 else l.prefetches
      weightReloads := if reloadsWeights then l.weightReloads + 1 else l.weightReloads })

end TileLoop

end TileStream
