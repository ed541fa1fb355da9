import TileStream.Run.Program
import TileStream.Team.Barrier
import TileStream.Transfer.Queue
/-!
# The cluster

What the units of a team share: memory, the transfer queue and the barrier. `Cluster.perform` is the
effect of one action of one unit.
-/

namespace TileStream

/-- The state that the units of a team share. -/
structure Cluster where
  device : Device
  barrier : Barrier
  /-- Buffers that a queued transfer still wrote when their computation began. -/
  hazards : Nat
  /-- The kernel calls begun so far, each with the unit that began it. -/
  calls : Array (Nat × Call)
  deriving Inhabited

namespace Cluster

/-- A cluster around a memory, with an idle engine. -/
def ofMemory (memory : Memory) : Cluster :=
  ⟨⟨memory, .ofDepth 1⟩, .ofTeam 1, 0, #[]⟩

/-- Run a computation on memory and queue. -/
def onDevice {α : Type} (x : Stateful Device α) : Stateful Cluster α := fun
  | ⟨device, barrier, hazards, calls⟩ =>
    match x device with
    | .ok a device => .ok a ⟨device, barrier, hazards, calls⟩
    | .error f device => .error f ⟨device, barrier, hazards, calls⟩

/-- Run a computation on memory. -/
def onMemory {α : Type} (x : Stateful Memory α) : Stateful Cluster α := onDevice (Device.onMemory x)

/-- The number of ranges into which a queued transfer still writes. -/
def countHazards (q : Queue) (ranges : List (Nat × Nat)) : Checked Nat :=
  ranges.foldlM (fun hazards (addr, len) => do
    return if ← q.writesInto .scratchpad addr len then hazards + 1 else hazards) 0

/-- The effect of one action. `issued` holds the queue numbers of the unit's own transfers in the order
in which it submitted them. -/
def perform (kernel : Kernel) (u : Member) (issued : Array Nat) :
    Action → Stateful Cluster (Array Nat)
  | .submit d => do
    return issued.push (← onDevice (Device.submit d))
  | .await number => do
    issued[number]?.forM fun id => onDevice (Device.wait id)
    return issued
  | .inspect call => do
    let reads ← (call.readRanges : Checked _)
    let write ← (call.writeRange : Checked _)
    let found ← (countHazards (← get).device.queue (reads ++ [write]) : Checked _)
    modify fun c => { c with hazards := c.hazards + found }
    return issued
  | .compute call => do
    modify fun c => { c with calls := c.calls.push (u.index, call) }
    onMemory (kernel u call)
    return issued
  | .stop fault => throw fault

end Cluster

end TileStream
