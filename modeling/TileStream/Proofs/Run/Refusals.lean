import TileStream.Proofs.Run.WholeRun

/-! # Runs that are refused

Acceptance checks the partition against the capacity that the settings name, a
run registers its parts in the scratchpad it is given. Both give one verdict:
the run is refused exactly when the partition ends past the capacity of that
scratchpad, and then nothing but the regions has changed
(`run_refused_iff_partition_past_capacity`). -/
namespace TileStream

/-- Two memories hold the same bytes on as many pages, and have counted the same traffic. -/
structure Memory.SameData (m m' : Memory) : Prop where
  bytes : ∀ t addr, m'.byteAt t addr = m.byteAt t addr
  pageCount : ∀ t, (m'.bank t).pageCount = (m.bank t).pageCount
  bytesWritten : ∀ t, (m'.bank t).bytesWritten = (m.bank t).bytesWritten
  bytesRead : ∀ t, (m'.bank t).bytesRead = (m.bank t).bytesRead

namespace Memory

variable {m : Memory} {t : Tier} {regions : List Region}

theorem bank_withRegions (m : Memory) (t : Tier) (regions : List Region) (u : Tier) :
    ∃ kept, (m.withBank t { m.bank t with regions }).bank u = { m.bank u with regions := kept } := by
  rw [bank_withBank]
  split
  · subst u
    exact ⟨regions, rfl⟩
  · exact ⟨_, rfl⟩

/-- Other regions in a bank leave the data of a memory as they are. -/
theorem sameData_withRegions : m.SameData (m.withBank t { m.bank t with regions }) where
  bytes u addr := by
    obtain ⟨kept, hbank⟩ := bank_withRegions m t regions u
    rw [byteAt, hbank]
    rfl
  pageCount u := by
    obtain ⟨kept, hbank⟩ := bank_withRegions m t regions u
    rw [hbank]
    rfl
  bytesWritten u := by
    obtain ⟨kept, hbank⟩ := bank_withRegions m t regions u
    rw [hbank]
  bytesRead u := by
    obtain ⟨kept, hbank⟩ := bank_withRegions m t regions u
    rw [hbank]

end Memory

namespace Job

variable {j : Job} {c c' : Cluster}

/-- A refused run has done no more than register some regions. -/
theorem refused_inv {kernel : Kernel} {cause : RegionError}
    (h : j.run kernel c = .ok (.error cause) c') :
    ∃ b, j.reserve c.device.memory.scratchpad = .ok (.error cause) b ∧
      c.device.memory.SameData c'.device.memory := by
  obtain ⟨b, hreserve, hmemory⟩ := reserved_inv (run_eq_refused.mp h)
  refine ⟨b, hreserve, ?_⟩
  rw [hmemory, reserve_keeps hreserve]
  exact Memory.sameData_withRegions (t := .scratchpad)

/-- The partition of an admitted job ends within a word. -/
theorem Admitted.end_lt (h : j.Admitted) (hword : j.settings.localCapacity < wordLimit) :
    j.params.localBase.toNat + j.scratch.total < wordLimit := Nat.lt_of_le_of_lt h.within hword

theorem Admitted.run_refused (h : j.Admitted) (hword : j.settings.localCapacity < wordLimit)
    (kernel : Kernel) {capacity : Nat} (hcapacity : c.device.memory.scratchpad.capacity = some capacity)
    (hfull : capacity < j.params.localBase.toNat + j.scratch.total) :
    ∃ name stop c', j.run kernel c =
        .ok (.error (.beyondCapacity c.device.memory.scratchpad.tier name stop capacity)) c' ∧
      capacity < stop := by
  obtain ⟨name, stop, b, hreserve, hpast⟩ :=
    reserve_of_full h.scratch (h.end_lt hword) hcapacity hfull
  obtain ⟨c', hcluster⟩ := reserve_on_cluster hreserve
  exact ⟨name, stop, c', run_eq_refused.mpr hcluster, hpast⟩

theorem Admitted.run_not_refused (h : j.Admitted) (hword : j.settings.localCapacity < wordLimit)
    {kernel : Kernel} {cause : RegionError} {capacity : Nat}
    (hcapacity : c.device.memory.scratchpad.capacity = some capacity)
    (hholds : j.params.localBase.toNat + j.scratch.total ≤ capacity) :
    j.run kernel c ≠ .ok (.error cause) c' := by
  intro hrun
  have hend := h.end_lt hword
  have htotal := h.scratch.total
  obtain ⟨b, hrefused, -⟩ := refused_inv hrun
  have hgranted := reserve_of_holds h.scratch (by omega) (b := c.device.memory.scratchpad)
    fun other hother => by
      cases hcapacity.symm.trans hother
      exact hholds
  cases hrefused.symm.trans hgranted

end Job

/-- **When a run is refused**, for every accepted job and on every cluster whose scratchpad has `capacity`
bytes, whatever its memory holds: exactly when the partition ends past this capacity. The cause is the
capacity and never an overlap, every byte, page and byte counter of each tier is as it was before, and no
run is refused when the scratchpad has the capacity that the settings name. -/
theorem run_refused_iff_partition_past_capacity {g : Geometry} {p : Params} {settings : Settings}
    {j : Job} (h : (Job.create g p settings).run = .ok (.ok j))
    (hword : settings.localCapacity < wordLimit) (kernel : Kernel) (c : Cluster) {capacity : Nat}
    (hcapacity : c.device.memory.scratchpad.capacity = some capacity) :
    ((∃ cause c', j.run kernel c = .ok (.error cause) c') ↔
      capacity < p.localBase.toNat + j.scratch.total) ∧
    (∀ cause c', j.run kernel c = .ok (.error cause) c' →
      (∃ name stop, cause = .beyondCapacity c.device.memory.scratchpad.tier name stop capacity ∧
        capacity < stop) ∧
      c.device.memory.SameData c'.device.memory) ∧
    (settings.localCapacity ≤ capacity → ∀ cause c', j.run kernel c ≠ .ok (.error cause) c') := by
  obtain ⟨hj, -, rfl, rfl⟩ := Job.admitted_of_create h
  refine ⟨⟨?_, ?_⟩, ?_, ?_⟩
  · rintro ⟨cause, c', hrun⟩
    by_contra hle
    exact hj.run_not_refused hword hcapacity (Nat.le_of_not_lt hle) hrun
  · intro hfull
    obtain ⟨name, stop, c', hrun, -⟩ := hj.run_refused hword kernel hcapacity hfull
    exact ⟨_, c', hrun⟩
  · intro cause c' hrun
    refine ⟨?_, (Job.refused_inv hrun).choose_spec.2⟩
    rcases Nat.lt_or_ge capacity (j.params.localBase.toNat + j.scratch.total) with hfull | hholds
    · obtain ⟨name, stop, c₁, hrefused, hpast⟩ := hj.run_refused hword kernel hcapacity hfull
      cases hrun.symm.trans hrefused
      exact ⟨name, stop, rfl, hpast⟩
    · exact absurd hrun (hj.run_not_refused hword hcapacity hholds)
  · intro hroom cause c'
    exact hj.run_not_refused hword hcapacity (Nat.le_trans hj.within hroom)

/-- The small layer is refused a scratchpad of 64 bytes, and none of 4 KiB. -/
theorem run_refused_iff_partition_past_capacity_small :
    (∃ cause c', smallJob.run Depthwise.kernel (.ofMemory (.empty 0x40)) = .ok (.error cause) c') ∧
    ∀ cause c', smallJob.run Depthwise.kernel (.ofMemory (.empty 0x1000)) ≠ .ok (.error cause) c' := by
  have haccepted : (Job.create smallLayer smallJob.params smallSettings).run = .ok (.ok smallJob) := rfl
  have hsmall := run_refused_iff_partition_past_capacity haccepted (by decide) Depthwise.kernel
    (.ofMemory (.empty 0x40)) rfl
  have hlarge := run_refused_iff_partition_past_capacity haccepted (by decide) Depthwise.kernel
    (.ofMemory (.empty 0x1000)) rfl
  exact ⟨hsmall.1.mpr (by decide), hlarge.2.2 (by decide)⟩

end TileStream
