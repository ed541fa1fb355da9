import TileStream.Transfer.Move
/-!
# The transfer queue

Submitted transfers enter a queue of bounded depth and retire strictly in the order of submission. A
transfer moves its bytes when it retires, so a buffer that a queued transfer will fill still holds its
old bytes. A submission that meets a full queue retires the head first; waiting for a transfer retires
everything up to it. Transfers are numbered from zero, and the queue holds the numbers from `retired` on.
-/

namespace TileStream

open Unsigned

/-- Transfers retired and bytes moved. -/
structure Count where
  transfers : Nat
  bytes : Nat
  deriving DecidableEq, Repr, Inhabited

/-- One more transfer. -/
def Count.record (c : Count) (bytes : Nat) : Count := ⟨c.transfers + 1, c.bytes + bytes⟩

/-- Retired transfers by what they carried. -/
structure Traffic where
  input : Count
  weights : Count
  requant : Count
  output : Count
  staging : Count
  deriving DecidableEq, Repr, Inhabited

namespace Traffic

def zero : Traffic := ⟨⟨0, 0⟩, ⟨0, 0⟩, ⟨0, 0⟩, ⟨0, 0⟩, ⟨0, 0⟩⟩

/-- The counters of one payload. -/
def of (t : Traffic) : Payload → Count
  | .input => t.input
  | .weights => t.weights
  | .requant => t.requant
  | .output => t.output
  | .staging => t.staging

/-- One more transfer of a payload. -/
def record (t : Traffic) (payload : Payload) (bytes : Nat) : Traffic :=
  match payload with
  | .input => { t with input := t.input.record bytes }
  | .weights => { t with weights := t.weights.record bytes }
  | .requant => { t with requant := t.requant.record bytes }
  | .output => { t with output := t.output.record bytes }
  | .staging => { t with staging := t.staging.record bytes }

/-- The counters of all payloads together. -/
def total (t : Traffic) : Count where
  transfers := t.input.transfers + t.weights.transfers + t.requant.transfers +
    t.output.transfers + t.staging.transfers
  bytes := t.input.bytes + t.weights.bytes + t.requant.bytes + t.output.bytes + t.staging.bytes

theorem of_record (t : Traffic) (payload other : Payload) (bytes : Nat) :
    (t.record payload bytes).of other =
      if other = payload then (t.of other).record bytes else t.of other := by
  cases payload <;> cases other <;> rfl

end Traffic

/-- The queue of a transfer engine. -/
structure Queue where
  /-- Transfers that fit, at least one. -/
  depth : Nat
  /-- Every transfer with a smaller number has retired. -/
  retired : Nat
  /-- The transfers with numbers `retired`, `retired + 1` and so on. -/
  pending : List Descriptor
  traffic : Traffic
  /-- The most transfers queued at once. -/
  maxInFlight : Nat
  /-- Submissions that met a full queue. -/
  stalls : Nat
  deriving DecidableEq, Repr, Inhabited

namespace Queue

/-- An empty queue; a depth of zero acts as one. -/
def ofDepth (depth : Nat) : Queue := ⟨max depth 1, 0, [], .zero, 0, 0⟩

/-- The number that the next submission gets. -/
def nextId (q : Queue) : Nat := q.retired + q.pending.length

/-- The transfers queued now. -/
def inFlight (q : Queue) : Nat := q.pending.length

/-- A transfer has retired. -/
def isComplete (q : Queue) (id : Nat) : Bool := id < q.retired

/-- Some queued transfer writes into the range of `len` bytes at `addr` of a tier. For a scattering
transfer the range between its lowest and highest byte counts as written. -/
def writesInto (q : Queue) (tier : Tier) (addr len : Nat) : Checked Bool := do
  let stop ← add addr len
  q.pending.anyM fun d => do
    if d.destination.tier ≠ tier then
      return false
    let (lo, hi) ← d.destinationSpan
    return lo < stop && addr < hi

end Queue

/-- Memory together with the queue of the engine that moves its bytes. -/
structure Device where
  memory : Memory
  queue : Queue
  deriving Inhabited

namespace Device

/-- Run a computation on the memory. -/
def onMemory {α : Type} (x : Stateful Memory α) : Stateful Device α := fun
  | ⟨memory, queue⟩ =>
    match x memory with
    | .ok a memory => .ok a ⟨memory, queue⟩
    | .error f memory => .error f ⟨memory, queue⟩

/-- Retire the oldest transfer, if there is one. -/
def retireHead : Stateful Device Unit := fun
  | ⟨memory, queue⟩ =>
    match queue.pending with
    | [] => .ok () ⟨memory, queue⟩
    | d :: rest =>
      match d.move memory with
      | .error f memory => .error f ⟨memory, { queue with pending := rest }⟩
      | .ok () memory =>
        let bytes := d.shape.runBytes * d.shape.runs
        .ok () ⟨memory, { queue with
          retired := queue.retired + 1
          pending := rest
          traffic := queue.traffic.record d.payload bytes }⟩

/-- Retire the `count` oldest transfers. -/
def retire : Nat → Stateful Device Unit
  | 0 => pure ()
  | count + 1 => do
    retireHead
    retire count

/-- Queue a transfer and yield its number. A full queue makes room first. -/
def submit (d : Descriptor) : Stateful Device Nat := do
  let q := (← get).queue
  if q.depth ≤ q.inFlight then
    modify fun s => { s with queue := { s.queue with stalls := s.queue.stalls + 1 } }
    retire (q.inFlight + 1 - q.depth)
  let q := (← get).queue
  modify fun s => { s with queue := { s.queue with
    pending := s.queue.pending ++ [d]
    maxInFlight := max s.queue.maxInFlight (s.queue.inFlight + 1) } }
  return q.nextId

/-- Retire transfers up to number `id`, or all of them if it was never submitted. -/
def wait (id : Nat) : Stateful Device Unit := do
  let q := (← get).queue
  retire (min (id + 1 - q.retired) q.inFlight)

/-- Queue a transfer and wait for it. -/
def submitAndWait (d : Descriptor) : Stateful Device Unit := do
  wait (← submit d)

/-- Retire every queued transfer. -/
def drain : Stateful Device Unit := do
  retire (← get).queue.inFlight

end Device

end TileStream
