import TileStream.Run.Cluster
/-!
# Running a job

`Job.run` runs the program of every unit in lock step: between two barriers the units run their segments
one after the other. This is one of the interleavings that the barriers allow. It ends with the first fault
of a unit, and then it is how the run ends only for a team of one unit: in a larger team a unit that is
spared the fault goes on to its next barrier, waits there for the one that stopped, and the team does not
return. The report counts what the leader's loop did, what the queue moved and how often the team met.
-/

namespace TileStream

/-- A unit of a running team. -/
structure Worker where
  member : Member
  progress : Progress
  /-- The queue numbers of the transfers that the unit submitted. -/
  issued : Array Nat
  deriving Inhabited

/-- The outcome of one run. -/
structure Report where
  iterations : Nat
  /-- Input tiles prefetched by the loop. -/
  prefetches : Nat
  /-- Weight tiles loaded by the loop; the prologue is not counted. -/
  weightReloads : Nat
  /-- Output tiles written back. -/
  writeBacks : Nat
  /-- Tensors were copied between slow and mid memory. -/
  staged : Bool
  traffic : Traffic
  maxInFlight : Nat
  stalls : Nat
  /-- Barrier rounds. -/
  completions : Nat
  /-- Barrier arrivals. -/
  arrivals : Nat
  hazards : Nat
  deriving DecidableEq, Repr, Inhabited

/-- Run the next segment of a unit. -/
def Worker.runSegment (kernel : Kernel) (j : Job) (w : Worker) : Stateful Cluster Worker := do
  let (actions, progress) := w.progress.segment j w.member
  let issued ← actions.foldlM (Cluster.perform kernel w.member) w.issued
  return { w with progress, issued }

namespace Job

/-- Run the next segment of every unit, in unit order. -/
def runSegments (j : Job) (kernel : Kernel) (workers : List Worker) :
    Stateful Cluster (List Worker) :=
  workers.mapM (Worker.runSegment kernel j)

/-- Run the segments up to `barriers` barriers, and the segment after the last. -/
def lockStep (j : Job) (kernel : Kernel) : Nat → List Worker → Stateful Cluster (List Worker)
  | 0, workers => j.runSegments kernel workers
  | barriers + 1, workers => do
    let workers ← j.runSegments kernel workers
    modify fun c => { c with barrier := c.barrier.meet }
    lockStep j kernel barriers workers

/-- The report of a finished run. -/
def report (j : Job) (leader : Progress) (c : Cluster) : Report where
  iterations := leader.loop.index
  prefetches := leader.loop.prefetches
  weightReloads := leader.loop.weightReloads
  writeBacks := leader.writeBacks
  staged := j.params.slowIsExternal
  traffic := c.device.queue.traffic
  maxInFlight := c.device.queue.maxInFlight
  stalls := c.device.queue.stalls
  completions := c.barrier.completions
  arrivals := c.barrier.arrivals
  hazards := c.hazards

/-- Run the team of a job on a cluster whose scratchpad has been reserved. -/
def runTeam (j : Job) (kernel : Kernel) : Stateful Cluster Report := do
  modify fun c => { c with
    device := { c.device with queue := .ofDepth j.settings.queueDepth }
    barrier := .ofTeam j.settings.units
    hazards := 0 }
  let progress ← (j.begin : Checked _)
  let workers := (Member.team j.settings.units).map fun member => ⟨member, progress, #[]⟩
  let workers ← j.lockStep kernel (j.barriers progress.loop.total) workers
  Cluster.onDevice Device.drain
  let leader := (workers.head?.map Worker.progress).getD progress
  return j.report leader (← get)

/-- Run a job in lock step. It is refused when the scratchpad cannot hold the partition of the layer. A fault
is that of the first unit to stop. -/
def run (j : Job) (kernel : Kernel) : Stateful Cluster (Except RegionError Report) := do
  match ← Cluster.onMemory (Memory.onBank .scratchpad j.reserve) with
  | .error cause => return .error cause
  | .ok () => return .ok (← j.runTeam kernel)

end Job

end TileStream
