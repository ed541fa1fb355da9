import TileStream.Word
/-!
# The tile grid

Tiles are visited in a fixed nested order: channel block outermost, then height block, then width
block. `Grid.next` advances a coordinate like an odometer, `Grid.indexOf` and `Grid.coordAt` are the
closed forms of the same order.
-/

namespace TileStream

open Unsigned

/-- One value for each side of a plane: padding amounts, or flags. -/
structure Sides (α : Type) where
  top : α
  bottom : α
  left : α
  right : α
  deriving DecidableEq, Repr, Inhabited

/-- The same value on every side. -/
def Sides.uniform {α : Type} (a : α) : Sides α := ⟨a, a, a, a⟩

/-- No side is flagged. -/
def Sides.isInterior (s : Sides Bool) : Bool := !(s.top || s.bottom || s.left || s.right)

/-- The coordinate of a tile, in blocks. An output channel block is paired with its input channel
block; both are kept because the pair selects the weights. -/
structure Coord where
  outChannel : Nat
  inChannel : Nat
  height : Nat
  width : Nat
  deriving DecidableEq, Repr, Inhabited

namespace Coord

/-- The first tile of every grid. -/
def origin : Coord := ⟨0, 0, 0, 0⟩

/-- The tile of channel block `channel` at block `height`, `width`. -/
def ofBlock (channel height width : Nat) : Coord := ⟨channel, channel, height, width⟩

/-- The output and input channel block, which select the weights. -/
def channelPair (c : Coord) : Nat × Nat := (c.outChannel, c.inChannel)

/-- Whether two tiles need different weights. -/
def changesChannelBlock (c d : Coord) : Bool := c.channelPair != d.channelPair

/-- A coordinate as it is shown to people. -/
def text (c : Coord) : String := s!"(c{c.outChannel}, h{c.height}, w{c.width})"

end Coord

/-- The number of blocks along each loop of the nest. -/
structure Grid where
  channels : Nat
  height : Nat
  width : Nat
  deriving DecidableEq, Repr, Inhabited

namespace Grid

/-- The number of tiles. -/
def total (g : Grid) : Checked Nat := do
  mul (← mul g.channels g.height) g.width

/-- The coordinate after `c` in loop order, `none` past the last tile. -/
def next (g : Grid) (c : Coord) : Checked (Option Coord) := do
  let width ← add c.width 1
  if width < g.width then
    return some { c with width }
  let height ← add c.height 1
  if height < g.height then
    return some { c with height, width := 0 }
  let outChannel ← add c.outChannel 1
  let inChannel ← add c.inChannel 1
  if outChannel < g.channels then
    return some ⟨outChannel, inChannel, 0, 0⟩
  return none

/-- The position of a coordinate in loop order. -/
def indexOf (g : Grid) (c : Coord) : Checked Nat := do
  add (← mul (← add (← mul c.outChannel g.height) c.height) g.width) c.width

/-- The coordinate at a position in loop order. -/
def coordAt (g : Grid) (index : Nat) : Checked Coord := do
  let width ← rem index g.width
  let height ← rem (← div index g.width) g.height
  let channel ← div index (← mul g.width g.height)
  return .ofBlock channel height width

/-- Whether `c` is the last tile. -/
def isLast (g : Grid) (c : Coord) : Checked Bool := do
  return (← g.next c).isNone

/-- Which sides of the plane the tile at `c` touches. -/
def boundary (g : Grid) (c : Coord) : Checked (Sides Bool) := do
  let below ← add c.height 1
  let beyond ← add c.width 1
  return ⟨c.height == 0, below == g.height, c.width == 0, beyond == g.width⟩

/-- The coordinate of the first tile, `none` in an empty grid. -/
def first? (g : Grid) : Checked (Option Coord) := do
  return if (← g.total) = 0 then none else some .origin

/-- At most `count` coordinates in loop order, from `c?` on. -/
def walkFrom (g : Grid) : Nat → Option Coord → Checked (List Coord)
  | 0, _ => .ok []
  | _ + 1, none => .ok []
  | count + 1, some c => do
    let next ← g.next c
    return c :: (← g.walkFrom count next)

/-- The first `count` coordinates in loop order, or all of them. -/
def walk (g : Grid) (count : Nat) : Checked (List Coord) := do
  g.walkFrom count (← g.first?)

end Grid

end TileStream
