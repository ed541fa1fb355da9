import TileStream.Layer.Scratch
/-!
# Slot parities

Of the two slots of a role one is read by the computation and the other may be filled by a prefetch.
Input and output slots change over with every tile, the weight and requant slots when the next tile
belongs to another channel block.
-/

namespace TileStream

/-- The slots of one role during one iteration. -/
structure RoleSlots where
  /-- The slot that a prefetch may fill. -/
  load : Parity
  /-- The slot that the computation uses. -/
  exec : Parity
  deriving DecidableEq, Repr, Inhabited

/-- Execute from one slot and load the other. -/
def RoleSlots.ofExec (exec : Parity) : RoleSlots := ⟨exec.flip, exec⟩

/-- The slots of every role during one iteration. -/
structure SlotPlan where
  input : RoleSlots
  /-- The weights and the requant pair share their parity. -/
  weights : RoleSlots
  /-- The slot that the computation writes and the write-back reads. -/
  output : Parity
  deriving DecidableEq, Repr, Inhabited

/-- The parities from which the next iteration executes. -/
structure Slots where
  input : Parity
  weights : Parity
  output : Parity
  deriving DecidableEq, Repr, Inhabited

namespace Slots

/-- Every role begins in slot A, where the prologue loads. -/
def start : Slots := ⟨.a, .a, .a⟩

/-- The slots of this iteration. -/
def plan (s : Slots) : SlotPlan := ⟨.ofExec s.input, .ofExec s.weights, s.output⟩

/-- The parities of the next iteration; the weights change over if its channel block is another. -/
def advance (s : Slots) (channelChanges : Bool) : Slots where
  input := s.input.flip
  weights := if channelChanges then s.weights.flip else s.weights
  output := s.output.flip

end Slots

end TileStream
