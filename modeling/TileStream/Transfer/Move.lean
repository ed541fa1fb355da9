import TileStream.Memory.System
import TileStream.Transfer.Descriptor
/-!
# Moving the bytes of a transfer

`Descriptor.move` is what retiring a transfer does to memory. Gathering reads every run before it writes
the packed side, so overlapping sides do no harm; scattering reads the packed side first and then writes
the runs in order. Both account for the transfer on the regions that it touches.
-/

namespace TileStream

namespace Bank

/-- The runs of a shape, packed back to back. -/
def gather (b : Bank) (base : Nat) (shape : Shape) : Checked (Array UInt8) :=
  let readRun (packed : Array UInt8) (addr : Nat) : Checked (Array UInt8) := do
    return packed ++ (← b.readInto addr shape.runBytes)
  (RunCursor.start base shape).visit readRun shape.runs #[]

/-- Spread a packed buffer over the runs of a shape. -/
def scatter (base : Nat) (shape : Shape) (packed : Array UInt8) : Stateful Bank Unit := do
  let writeRun (first : Nat) (addr : Nat) : Stateful Bank Nat := do
    write addr (packed.extract first (first + shape.runBytes)).toList
    return first + shape.runBytes
  discard <| (RunCursor.start base shape).visit writeRun shape.runs 0

end Bank

/-- Move the bytes of a transfer and account for them. -/
def Descriptor.move (d : Descriptor) : Stateful Memory Unit := do
  let total ← d.totalBytes
  match d.direction with
  | .gather =>
    checkBuffer total
    let packed ← Memory.look d.ext.tier (·.gather d.ext.addr d.shape)
    Memory.onBank d.ext.tier (Bank.countRead d.ext.addr total)
    Memory.onBank d.loc.tier (Bank.write d.loc.addr packed.toList)
    Memory.update d.loc.tier (·.countWrite d.loc.addr total)
  | .scatter =>
    Memory.onBank d.loc.tier (Bank.countRead d.loc.addr total)
    let packed ← Memory.look d.loc.tier (·.read d.loc.addr total)
    Memory.onBank d.ext.tier (Bank.scatter d.ext.addr d.shape packed)
    Memory.update d.ext.tier (·.countWrite d.ext.addr total)

end TileStream
