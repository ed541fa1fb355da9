import TileStream.Run.Job
/-!
# Unit programs

Every unit of the team runs the same program, cut into segments by the barriers of the team:

```text
[stage in |] prologue | fetch 0 | compute 0 | write back 0, fetch 1 | compute 1 | … | write back [| stage out]
```

A segment is a list of actions. Fetching submits the unit's own share of the next input tile, the leader
adds the weights when the channel block changes, and then the unit waits for what it submitted one
iteration earlier. A unit names its own transfers by the order in which it submitted them.
`Progress.segment` writes down the next segment of a unit and says where the unit stands after it.
-/

namespace TileStream

/-- One indivisible action of a unit. -/
inductive Action where
  /-- Queue a transfer. -/
  | submit (d : Descriptor)
  /-- Wait for the transfer that the unit submitted as its `number`-th, counted from zero. -/
  | await (number : Nat)
  /-- Count the buffers of a call into which a queued transfer still writes. -/
  | inspect (call : Call)
  /-- Run the kernel. -/
  | compute (call : Call)
  /-- Stop with a fault. -/
  | stop (fault : Fault)
  deriving Repr

/-- The segment that a unit runs next. -/
inductive Stage where
  | stageIn
  | prologue
  /-- Write back the tile of an iteration, if there was one, and fetch for the next. -/
  | fetch (done : Option Iteration)
  | compute (i : Iteration) (call : Call)
  | stageOut
  | finished
  deriving Repr, Inhabited

/-- Where a unit stands between two segments. -/
structure Progress where
  stage : Stage
  loop : TileLoop
  /-- The transfers that the unit has submitted. -/
  submitted : Nat
  /-- The loads of the last fetch, which the next one waits for. -/
  landing : List Nat
  /-- A write-back that has not been waited for. -/
  writeback : Option Nat
  writeBacks : Nat
  deriving Repr, Inhabited

/-- A segment while it is written down: the actions so far and the progress they lead to. -/
structure Draft where
  progress : Progress
  actions : Array Action
  deriving Repr, Inhabited

namespace Draft

/-- Add an action. -/
def act (a : Action) : Stateful Draft Unit :=
  modify fun d => { d with actions := d.actions.push a }

/-- Submit a transfer and yield its number. -/
def submit (t : Descriptor) : Stateful Draft Nat := do
  act (.submit t)
  modifyGet fun d =>
    (d.progress.submitted, { d with progress := { d.progress with
      submitted := d.progress.submitted + 1 } })

/-- Wait for a transfer of the unit. -/
def await (number : Nat) : Stateful Draft Unit := act (.await number)

/-- Submit a transfer and wait for it. -/
def submitAndAwait (t : Descriptor) : Stateful Draft Unit := do
  await (← submit t)

/-- Change the progress. -/
def note (f : Progress → Progress) : Stateful Draft Unit :=
  modify fun d => { d with progress := f d.progress }

/-- Go on with another stage after the next barrier. -/
def goto (stage : Stage) : Stateful Draft Unit := note ({ · with stage })

end Draft

namespace Job

open Draft

/-- The leader copies input and weights into mid memory. -/
def stageIn (j : Job) (u : Member) : Stateful Draft Unit := do
  if u.isLeader then
    let input ← submit (← j.stageInput)
    let weights ← submit j.stageWeights
    await input
    await weights
  goto .prologue

/-- The leader loads the first weights, every unit its share of the first input tile. -/
def prologue (j : Job) (u : Member) : Stateful Draft Unit := do
  if u.isLeader then
    let numbers ← (← j.weightTransfers 0 .a).mapM submit
    numbers.forM await
  let transfer ← j.inputTransfer .origin .a
  if let some share ← (transfer.split u.index u.size : Checked _) then
    submitAndAwait share
  goto (.fetch none)

/-- Write back a unit's share of the tile that was computed. -/
def writeBack (j : Job) (u : Member) (i : Iteration) : Stateful Draft Unit := do
  let transfer ← j.outputTransfer i.exec i.slots.output
  let share ← (transfer.split u.index u.size : Checked _)
  match j.settings.writeback with
  | .blocking => share.forM submitAndAwait
  | .deferred => do
    (← get).progress.writeback.forM await
    let writeback ← share.mapM submit
    note ({ · with writeback })
  note fun p => { p with writeBacks := p.writeBacks + 1 }

/-- Submit a unit's part of the prefetch of an iteration. -/
def prefetch (j : Job) (u : Member) (i : Iteration) (load : Coord) : Stateful Draft (List Nat) := do
  let transfer ← j.inputTransfer load i.slots.input.load
  let share ← (transfer.split u.index u.size : Checked _)
  let input ← share.toList.mapM submit
  if i.reloadsWeights && u.isLeader then
    let weights ← (← j.weightTransfers load.outChannel i.slots.weights.load).mapM submit
    return input ++ weights
  return input

/-- Begin an iteration: prefetch the next tile and wait until this one has landed. -/
def beginIteration (j : Job) (u : Member) (i : Iteration) : Stateful Draft Unit := do
  let landed := (← get).progress.landing
  let landing ← match i.load with
    | some load => j.prefetch u i load
    | none => pure []
  note ({ · with landing })
  landed.forM await
  let call ← j.call i
  goto (.compute i call)

/-- Write back what was computed; then begin the next iteration, or wait for the last write-back. -/
def fetch (j : Job) (u : Member) (done : Option Iteration) : Stateful Draft Unit := do
  done.forM (j.writeBack u)
  match ← ((← get).progress.loop.next : Checked _) with
  | some (i, loop) => do
    note ({ · with loop })
    j.beginIteration u i
  | none => do
    (← get).progress.writeback.forM await
    goto (if j.params.slowIsExternal then .stageOut else .finished)

/-- The leader looks for hazards, then every unit runs the kernel. -/
def compute (_ : Job) (u : Member) (i : Iteration) (call : Call) : Stateful Draft Unit := do
  if u.isLeader then
    act (.inspect call)
  act (.compute call)
  goto (.fetch (some i))

/-- The leader copies the output back to slow memory. -/
def stageOut (j : Job) (u : Member) : Stateful Draft Unit := do
  if u.isLeader then
    submitAndAwait (← j.stageOutput)
  goto .finished

/-- The segment of a stage. -/
def draft (j : Job) (u : Member) : Stage → Stateful Draft Unit
  | .stageIn => j.stageIn u
  | .prologue => j.prologue u
  | .fetch done => j.fetch u done
  | .compute i call => j.compute u i call
  | .stageOut => j.stageOut u
  | .finished => pure ()

/-- Where every unit begins. -/
def begin (j : Job) : Checked Progress := do
  let loop ← TileLoop.start (← j.geometry.grid)
  return {
    stage := if j.params.slowIsExternal then .stageIn else .prologue
    loop, submitted := 0, landing := [], writeback := none, writeBacks := 0 }

/-- The number of barriers in the program of a unit: one after the prologue, two in each iteration, and
two more around the run when the slow tier is external. -/
def barriers (j : Job) (iterations : Nat) : Nat :=
  1 + 2 * iterations + if j.params.slowIsExternal then 2 else 0

end Job

/-- The next segment of a unit and where the unit stands after it. A fault that is met while the segment
is written down becomes its last action. -/
def Progress.segment (p : Progress) (j : Job) (u : Member) : List Action × Progress :=
  match j.draft u p.stage ⟨p, #[]⟩ with
  | .ok () d => (d.actions.toList, d.progress)
  | .error f d => (d.actions.toList ++ [.stop f], d.progress)

end TileStream
