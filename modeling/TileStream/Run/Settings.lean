/-!
# Engine settings

How a layer is run: the size of the team, the capacity of the scratchpad, the depth of the transfer
queue, and when a unit waits for the write-back of an output tile.
-/

namespace TileStream

/-- When the write-back of an output tile is waited for. -/
inductive Writeback where
  /-- In the iteration that issued it. -/
  | blocking
  /-- Before the next write-back, or at the end of the layer. -/
  | deferred
  deriving DecidableEq, Repr, Inhabited

def Writeback.name : Writeback → String
  | .blocking => "blocking"
  | .deferred => "deferred"

/-- Resolved engine settings. -/
structure Settings where
  units : Nat
  localCapacity : Nat
  queueDepth : Nat
  writeback : Writeback
  deriving DecidableEq, Repr, Inhabited

/-- The settings that apply when nothing else is said. -/
def Settings.standard : Settings := ⟨8, 64 * 1024, 16, .blocking⟩

end TileStream
