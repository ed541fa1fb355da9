import Mathlib.Logic.Relation
import TileStream.Proofs.Transfer.Retire
import TileStream.Run.LockStep

/-! # Interleavings of a team

Between two barriers any unit that has something left to do may perform its next
action. A unit with nothing left waits at the barrier, which opens when all units
wait there; then every unit writes down its next segment. -/
namespace TileStream

/-- A unit in the middle of a segment; its progress is where the segment leads. -/
structure Thread where
  worker : Worker
  todo : List Action

structure TeamState where
  cluster : Cluster
  threads : List Thread

namespace TeamState

def device (s : TeamState) : Device := s.cluster.device
def queue (s : TeamState) : Queue := s.cluster.device.queue
def image (s : TeamState) : Image := s.cluster.device.memory.image

end TeamState

/-- Write the next segment of a unit down. -/
def Worker.load (j : Job) (w : Worker) : Thread where
  worker := { w with progress := (w.progress.segment j w.member).2 }
  todo := (w.progress.segment j w.member).1

namespace Job

variable {j : Job} {kernel : Kernel}

/-- One step of a team. -/
inductive Step (j : Job) (kernel : Kernel) : TeamState → TeamState → Prop where
  /-- A unit performs its next action. -/
  | act {c c' : Cluster} {before after : List Thread} {t : Thread} {a : Action}
      {rest : List Action} {issued : Array Nat} (htodo : t.todo = a :: rest)
      (hact : Cluster.perform kernel t.worker.member t.worker.issued a c = .ok issued c') :
      Step j kernel ⟨c, before ++ t :: after⟩
        ⟨c', before ++ ⟨{ t.worker with issued }, rest⟩ :: after⟩
  /-- Every unit waits at the barrier, and some unit has more to do. -/
  | meet {c : Cluster} {threads : List Thread} (hwait : ∀ t ∈ threads, t.todo = [])
      (hmore : ∃ t ∈ threads, t.worker.progress.stage ≠ .finished) :
      Step j kernel ⟨c, threads⟩
        ⟨{ c with barrier := c.barrier.meet }, threads.map fun t => t.worker.load j⟩

/-- A team may come from one state to another. -/
def Reaches (j : Job) (kernel : Kernel) : TeamState → TeamState → Prop :=
  Relation.ReflTransGen (j.Step kernel)

def workers (j : Job) (p : Progress) : List Worker :=
  (Member.team j.settings.units).map fun member => ⟨member, p, #[]⟩

def reset (j : Job) (c : Cluster) : Cluster := { c with
  device := { c.device with queue := .ofDepth j.settings.queueDepth }
  barrier := .ofTeam j.settings.units
  hazards := 0 }

/-- The team of a job on a cluster, before its first action. -/
def teamStart (j : Job) (c : Cluster) : Checked TeamState := do
  let p ← j.begin
  return ⟨j.reset c, (j.workers p).map (Worker.load j)⟩

end Job

/-! ## The actions -/

namespace Cluster

variable {kernel : Kernel} {u : Member} {issued issued' : Array Nat} {c c' : Cluster}

theorem onDevice_eq_ok {α : Type} {x : Stateful Device α} {a : α} :
    onDevice x c = .ok a c' ↔ ∃ device, x c.device = .ok a device ∧ c' = { c with device } := by
  obtain ⟨device, barrier, hazards, calls⟩ := c
  simp only [onDevice]
  cases hx : x device with
  | ok b d =>
    constructor
    · intro h
      cases h
      exact ⟨d, rfl, rfl⟩
    · rintro ⟨_, h, rfl⟩
      cases h
      rfl
  | error f d =>
    constructor
    · intro h
      cases h
    · rintro ⟨_, h, -⟩
      cases h

theorem perform_submit {d : Descriptor} :
    perform kernel u issued (.submit d) c = .ok issued' c' ↔
      ∃ id device, Device.submit d c.device = .ok id device ∧ issued' = issued.push id ∧
        c' = { c with device } := by
  unfold perform
  rw [Stateful.bind_eq_ok]
  constructor
  · rintro ⟨id, _, hsubmit, h⟩
    obtain ⟨device, hdevice, rfl⟩ := onDevice_eq_ok.mp hsubmit
    cases h
    exact ⟨id, device, hdevice, rfl, rfl⟩
  · rintro ⟨id, device, hdevice, rfl, rfl⟩
    exact ⟨id, _, onDevice_eq_ok.mpr ⟨device, hdevice, rfl⟩, rfl⟩

/-- Waiting for a transfer that the unit has not submitted does nothing. -/
theorem perform_await {n : Nat} :
    perform kernel u issued (.await n) c = .ok issued' c' ↔ issued' = issued ∧
      match issued[n]? with
      | none => c' = c
      | some id => ∃ device, Device.wait id c.device = .ok () device ∧ c' = { c with device } := by
  unfold perform
  rw [Stateful.bind_eq_ok]
  cases issued[n]? with
  | none =>
    constructor
    · rintro ⟨_, _, hskip, h⟩
      cases hskip
      cases h
      exact ⟨rfl, rfl⟩
    · rintro ⟨rfl, rfl⟩
      exact ⟨_, _, rfl, rfl⟩
  | some id =>
    constructor
    · rintro ⟨_, _, hwait, h⟩
      obtain ⟨device, hdevice, rfl⟩ := onDevice_eq_ok.mp hwait
      cases h
      exact ⟨rfl, device, hdevice, rfl⟩
    · rintro ⟨rfl, device, hdevice, rfl⟩
      exact ⟨(), _, onDevice_eq_ok.mpr ⟨device, hdevice, rfl⟩, rfl⟩

theorem perform_inspect {call : Call} :
    perform kernel u issued (.inspect call) c = .ok issued' c' ↔
      ∃ reads write found, call.readRanges = .ok reads ∧ call.writeRange = .ok write ∧
        countHazards c.device.queue (reads ++ [write]) = .ok found ∧ issued' = issued ∧
        c' = { c with hazards := c.hazards + found } := by
  unfold perform
  rw [Stateful.lift_bind_eq_ok]
  constructor
  · rintro ⟨reads, hreads, h⟩
    obtain ⟨write, hwrite, h⟩ := Stateful.lift_bind_eq_ok.mp h
    rw [Stateful.bind_of_ok (Stateful.get_apply _), Stateful.lift_bind_eq_ok] at h
    obtain ⟨found, hfound, h⟩ := h
    cases h
    exact ⟨reads, write, found, hreads, hwrite, hfound, rfl, rfl⟩
  · rintro ⟨reads, write, found, hreads, hwrite, hfound, rfl, rfl⟩
    refine ⟨reads, hreads, Stateful.lift_bind_eq_ok.mpr ⟨write, hwrite, ?_⟩⟩
    rw [Stateful.bind_of_ok (Stateful.get_apply _), Stateful.lift_bind_eq_ok]
    exact ⟨found, hfound, rfl⟩

theorem perform_compute {call : Call} :
    perform kernel u issued (.compute call) c = .ok issued' c' ↔
      ∃ memory, kernel u call c.device.memory = .ok () memory ∧ issued' = issued ∧
        c' = { c with
          device := ⟨memory, c.device.queue⟩
          calls := c.calls.push (u.index, call) } := by
  unfold perform
  rw [Stateful.bind_eq_ok]
  constructor
  · rintro ⟨_, _, hcalls, h⟩
    cases hcalls
    obtain ⟨_, _, hrun, h⟩ := Stateful.bind_eq_ok.mp h
    obtain ⟨device, hdevice, rfl⟩ := onDevice_eq_ok.mp hrun
    obtain ⟨memory, hmemory, rfl⟩ := Device.onMemory_inv hdevice
    cases h
    exact ⟨memory, hmemory, rfl, rfl⟩
  · rintro ⟨memory, hmemory, rfl, rfl⟩
    exact ⟨(), _, rfl, Stateful.bind_eq_ok.mpr
      ⟨(), _, onDevice_eq_ok.mpr ⟨_, Device.onMemory_of_ok hmemory _, rfl⟩, rfl⟩⟩

/-- A computation ends as its kernel does. -/
theorem perform_compute_ends {call : Call} {fault : Fault → Prop} {post : Unit → Memory → Prop}
    (h : Stateful.Ends fault post (kernel u call c.device.memory)) :
    Stateful.Ends fault (fun issued' c' => issued' = issued ∧ ∃ memory, post () memory ∧
      c' = { c with
        device := ⟨memory, c.device.queue⟩
        calls := c.calls.push (u.index, call) }) (perform kernel u issued (.compute call) c) := by
  cases hrun : kernel u call c.device.memory with
  | ok a memory =>
    rw [hrun] at h
    exact .of_ok (perform_compute.mpr ⟨memory, hrun, rfl, rfl⟩) ⟨rfl, memory, h, rfl⟩
  | error f memory =>
    rw [hrun] at h
    have hstopped : onMemory (kernel u call) { c with calls := c.calls.push (u.index, call) } =
        .error f { c with
          device := ⟨memory, c.device.queue⟩
          calls := c.calls.push (u.index, call) } := by
      simp only [onMemory, onDevice, Device.onMemory, hrun]
    have hperform : perform kernel u issued (.compute call) c = .error f _ :=
      (Stateful.bind_of_ok (Stateful.modify_apply _ _)).trans (Stateful.bind_of_error hstopped)
    rw [hperform]
    exact h

end Cluster

end TileStream
