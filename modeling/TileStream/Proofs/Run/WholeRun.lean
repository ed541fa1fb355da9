import TileStream.Proofs.Layer.Reservation
import TileStream.Proofs.Run.LockSteps

/-! # A whole run

A run reserves the scratchpad first. When that is refused the run ends with the
refusal and has changed no byte (`run_refused`); else the team starts on the
bytes as they are, and goes to a finished state (`run_inv`). -/
namespace TileStream.Job

variable {j : Job} {kernel : Kernel} {c c' : Cluster}

/-- A run that reports has reserved the scratchpad and run its team. -/
theorem run_eq_ok {report : Report} : j.run kernel c = .ok (.ok report) c' ↔
    ∃ c₁, Cluster.onMemory (Memory.onBank .scratchpad j.reserve) c = .ok (.ok ()) c₁ ∧
      j.runTeam kernel c₁ = .ok report c' := by
  constructor
  · intro hrun
    obtain ⟨r, c₁, hreserve, hrest⟩ := Stateful.bind_eq_ok.mp hrun
    cases r with
    | error cause => cases hrest
    | ok =>
      obtain ⟨report', c₂, hteam, hreport⟩ := Stateful.bind_eq_ok.mp hrest
      cases hreport
      exact ⟨c₁, hreserve, hteam⟩
  · rintro ⟨c₁, hreserve, hteam⟩
    rw [run, Stateful.bind_of_ok hreserve]
    exact (Stateful.bind_of_ok hteam).trans rfl

/-- A run is refused when the scratchpad is. -/
theorem run_eq_refused {cause : RegionError} : j.run kernel c = .ok (.error cause) c' ↔
    Cluster.onMemory (Memory.onBank .scratchpad j.reserve) c = .ok (.error cause) c' := by
  constructor
  · intro hrun
    obtain ⟨r, c₁, hreserve, hrest⟩ := Stateful.bind_eq_ok.mp hrun
    cases r with
    | error cause =>
      cases hrest
      exact hreserve
    | ok =>
      obtain ⟨report, c₂, -, hreport⟩ := Stateful.bind_eq_ok.mp hrest
      cases hreport
  · intro hreserve
    rw [run, Stateful.bind_of_ok hreserve]
    rfl

theorem reserve_on_cluster {r : Except RegionError Unit} {b : Bank}
    (hreserve : j.reserve c.device.memory.scratchpad = .ok r b) :
    ∃ c', Cluster.onMemory (Memory.onBank .scratchpad j.reserve) c = .ok r c' := by
  have hbank : Memory.onBank .scratchpad j.reserve c.device.memory =
      .ok r (c.device.memory.withBank .scratchpad b) := by
    have hbank : j.reserve (c.device.memory.bank .scratchpad) = .ok r b := hreserve
    rw [Memory.onBank_apply, hbank]
  exact ⟨_, Cluster.onDevice_eq_ok.mpr ⟨_, Device.onMemory_of_ok hbank _, rfl⟩⟩

theorem reserved_inv {r : Except RegionError Unit}
    (h : Cluster.onMemory (Memory.onBank .scratchpad j.reserve) c = .ok r c') :
    ∃ b, j.reserve c.device.memory.scratchpad = .ok r b ∧
      c'.device.memory = c.device.memory.withBank .scratchpad b := by
  obtain ⟨device, hdevice, rfl⟩ := Cluster.onDevice_eq_ok.mp h
  obtain ⟨memory, hmemory, rfl⟩ := Device.onMemory_inv hdevice
  obtain ⟨b, hreserve, rfl⟩ := Memory.onBank_inv hmemory
  exact ⟨b, hreserve, rfl⟩

/-- The scratchpad of a run is reserved first; that leaves bytes and read counters alone. -/
theorem reserved_keeps {r : Except RegionError Unit}
    (h : Cluster.onMemory (Memory.onBank .scratchpad j.reserve) c = .ok r c') :
    c'.device.memory.image = c.device.memory.image ∧
      c'.device.memory.readCount = c.device.memory.readCount := by
  obtain ⟨b, hreserve, hmemory⟩ := reserved_inv h
  rw [hmemory, reserve_keeps hreserve]
  exact ⟨Memory.image_withBank_of_pages rfl, Memory.readCount_withBank_of_eq rfl⟩

theorem Accepted.reserved (h : j.Accepted)
    (hholds : c.device.memory.scratchpad.Holds (j.params.localBase.toNat + j.scratch.total)) :
    ∃ c', Cluster.onMemory (Memory.onBank .scratchpad j.reserve) c = .ok (.ok ()) c' ∧
      c'.device.memory.image = c.device.memory.image ∧
      c'.device.memory.readCount = c.device.memory.readCount := by
  obtain ⟨b, hreserve⟩ := h.reserve_exists hholds
  obtain ⟨c', hcluster⟩ := reserve_on_cluster hreserve
  exact ⟨c', hcluster, reserved_keeps hcluster⟩

/-- **A run is refused for the capacity of the scratchpad**, and has changed no byte then. -/
theorem Fit.run_refused (h : j.Fit) (kernel : Kernel)
    (hfull : ¬ c.device.memory.scratchpad.Holds (j.params.localBase.toNat + j.scratch.total)) :
    ∃ name stop capacity c', j.run kernel c =
        .ok (.error (.beyondCapacity c.device.memory.scratchpad.tier name stop capacity)) c' ∧
      capacity < stop ∧ c'.device.memory.image = c.device.memory.image := by
  obtain ⟨name, stop, capacity, b, hreserve, hpast⟩ := h.reserve_refused hfull
  obtain ⟨c', hcluster⟩ := reserve_on_cluster hreserve
  exact ⟨name, stop, capacity, c', run_eq_refused.mpr hcluster, hpast, (reserved_keeps hcluster).1⟩

/-- **A run that reports has taken the team through steps to a finished state**, from memory as it was. -/
theorem Accepted.run_inv (h : j.Accepted) {report : Report}
    (hrun : j.run kernel c = .ok (.ok report) c') :
    ∃ c₁ s, c₁.device.memory.image = c.device.memory.image ∧
      j.Reaches kernel (j.started c₁) s ∧ s.Finished ∧ s.cluster = c' ∧ report = s.report j := by
  obtain ⟨c₁, hreserve, hteam⟩ := run_eq_ok.mp hrun
  obtain ⟨s, hreach, hfinished, hcluster, hreport⟩ := h.runTeam_inv hteam
  exact ⟨c₁, s, (reserved_keeps hreserve).1, hreach, hfinished, hcluster, hreport⟩

theorem Accepted.run_not_refused (h : j.Accepted) {cause : RegionError}
    (hholds : c.device.memory.scratchpad.Holds (j.params.localBase.toNat + j.scratch.total)) :
    j.run kernel c ≠ .ok (.error cause) c' := by
  intro hrun
  obtain ⟨c₁, hreserve, -⟩ := h.reserved hholds
  cases (run_eq_refused.mp hrun).symm.trans hreserve

/-- **A run reports** when the scratchpad is large enough and the read counters have room, unless its
kernel stops it. -/
theorem Accepted.run_ends (h : j.Accepted) {fault : Fault → Prop} (hf : j.Settles kernel fault)
    (hholds : c.device.memory.scratchpad.Holds (j.params.localBase.toNat + j.scratch.total))
    (hroom : j.Room c.device.memory) :
    Stateful.Ends fault (fun r _ => ∃ report, r = .ok report) (j.run kernel c) := by
  obtain ⟨c₁, hreserve, -, hreads⟩ := h.reserved hholds
  rw [run, Stateful.bind_of_ok hreserve]
  exact (h.runTeam_ends hf (c := c₁) fun t => by rw [hreads]; exact hroom t).bind fun report _ _ =>
    ⟨report, rfl⟩

theorem Accepted.run_exists (h : j.Accepted) (hf : j.Finishes kernel)
    (hholds : c.device.memory.scratchpad.Holds (j.params.localBase.toNat + j.scratch.total))
    (hroom : j.Room c.device.memory) :
    ∃ report c', j.run kernel c = .ok (.ok report) c' := by
  obtain ⟨_, c', hrun, report, rfl⟩ := (h.run_ends hf hholds hroom).ok_of_never fun _ => id
  exact ⟨report, c', hrun⟩

end TileStream.Job

namespace TileStream

/-- A scratchpad of 4 KiB holds the partition of the small layer. -/
theorem smallMemory_holds : (Memory.empty 0x1000).scratchpad.Holds
    (smallJob.params.localBase.toNat + smallJob.scratch.total) := by
  intro capacity hcapacity
  cases hcapacity
  decide

theorem smallMemory_unread (t : Tier) : (Memory.empty 0x1000).readCount t < 0x8000000000000000 := by
  cases t <;> decide

end TileStream
