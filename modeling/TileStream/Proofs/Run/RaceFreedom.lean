import TileStream.Proofs.Run.Invariant

/-! # Race freedom

Whatever order the units of a team act in: when a unit starts the kernel on a
tile, the slots hold the operands of this tile, and no transfer in the queue
writes what the kernel reads or touches what it writes. -/
namespace TileStream

open Unsigned

namespace Job

variable {j : Job} {x img : Image} {kernel : Kernel}

/-- What was loaded from one image was loaded from another that has the same sources. -/
theorem Accepted.loaded_of_sources (h : j.Accepted) {i : Nat} (hi : i < j.tileCount) {y : Image}
    (hloaded : j.Loaded x i img) (hsources : j.SourcesIn x y) : j.Loaded y i img := by
  refine ⟨fun p hp => ?_, fun w hw p hp => ?_⟩
  · rw [hsources _ (.inl (h.inputLoad_window hi hp).2)]
    exact hloaded.window p hp
  · rw [hsources _ (.inr ((h.weightLoads_moves (blockOf_lt hi) hw).2 p hp).1)]
    exact hloaded.weights w hw p hp

/-- A computation begins on the right operands, and the queue leaves its buffers alone. -/
structure StartsClean (j : Job) (i : Nat) (call : Call) (s : TeamState) : Prop where
  /-- The call is the one of tile `i`. -/
  call_eq : j.call (j.geometry.tileGrid.iterationAt i) = .ok call
  operands : j.Operands i call s.image s.image
  /-- No queued transfer writes into a buffer of the call, or reads what the call writes. -/
  clean : ∃ reads write, call.readRanges = .ok reads ∧ call.writeRange = .ok write ∧
    (∀ d ∈ s.queue.pending, (∀ r ∈ reads ++ [write], ¬ d.WritesInto r) ∧ ¬ d.ReadsFrom write) ∧
    Cluster.countHazards s.queue (reads ++ [write]) = .ok 0

theorem Separate.startsClean (hj : j.Separate) {img₀ : Image} {aim : Aim} {i since : Nat} {s : TeamState}
    (h : j.Correct img₀ aim (.compute i) since s) : j.StartsClean i (j.callAt i) s := by
  have hi : i < j.tileCount := h.accounted.valid
  have hsources : j.SourcesIn (j.fed img₀) s.image := by
    intro e he
    rw [← h.contents.computing.sources e he]
    exact (Image.applyAll_of_untouched _
      (h.accounted.untouched hj.toAccepted (hj.sources_untouched (Nat.le_of_lt hi) he))).symm
  refine ⟨hj.call_eq hi, hj.operands_of_loaded hi
    (hj.loaded_of_sources hi (hj.loaded_now h) hsources), ?_⟩
  refine ⟨_, _, hj.readRanges_eq hi, hj.writeRange_eq hi, fun d hd => ⟨fun r hr => ?_, ?_⟩,
    h.accounted.no_hazard hj.toAccepted⟩
  · exact h.accounted.not_writesInto hj.toAccepted hd hr
  · exact h.accounted.not_readsFrom hj.toAccepted hd

/-- Every value is good enough, if only the order of the accesses matters. -/
def anyAim (j : Job) : Aim := ⟨fun _ _ => True, fun _ _ => ⟨0, max j.settings.units 1⟩⟩

theorem serves_anyAim (hkernel : kernel.Confined) (x : Image) : j.Serves kernel x j.anyAim where
  confined := hkernel
  owned _ _ := Member.mem_team.mpr ⟨Nat.lt_of_lt_of_le Nat.zero_lt_one (Nat.le_max_right _ 1), rfl⟩
  yields _ _ _ _ _ _ _ _ _ _ _ := trivial
  spares _ _ _ _ _ _ _ _ _ _ _ _ := trivial

end Job

/-- **Race freedom.** Let a layer of bounded size be accepted from words, with a scratchpad of any capacity
and a weight blob of any length, and let its tensors lie apart in mid memory. The job is made for this layer,
with these words and settings, and in every state that its team reaches from any memory, under any order of
the units, no hazard has been counted; and whenever a unit is about to run the kernel, it does so for some
tile `i` on the operands of this tile, while the queue leaves the buffers of the call alone. -/
theorem team_is_race_free {g : Geometry} {words : List UInt32} {settings : Settings} {j : Job}
    {kernel : Kernel} (haccepted : (Job.ofWords g words settings).run = .ok (.ok j))
    (hbounded : j.Bounded) (hapart : j.TensorsApart) (hkernel : kernel.Confined) (c : Cluster) :
    j.Made g words settings ∧ ∃ start, j.teamStart c = .ok start ∧ ∀ s, j.Reaches kernel start s →
      s.cluster.hazards = 0 ∧
      ∀ t ∈ s.threads, ∀ call rest, t.todo = .compute call :: rest →
        ∃ i < j.tileCount, j.StartsClean i call s ∧
          t.worker.progress.stage = .fetch (some (j.geometry.tileGrid.iterationAt i)) := by
  obtain ⟨hjob, hmade⟩ := Job.accepted_of_ofWords haccepted hbounded
  have hj : j.Separate := { hjob, hapart with }
  have hserves := Job.serves_anyAim (j := j) hkernel (j.fed c.device.memory.image)
  obtain ⟨start, hstart, since, hbegin⟩ := hj.correct_start hserves.owned c
  refine ⟨hmade, start, hstart, fun s hreach => ?_⟩
  obtain ⟨ph, since, h⟩ := hj.correct_reaches hserves hreach ⟨_, _, hbegin⟩
  refine ⟨h.hazards, fun t ht call rest htodo => ?_⟩
  have hrunning := h.accounted.running t ht
  have hshaped := hrunning.shaped
  rw [htodo] at hshaped
  rcases hshaped.cons.2 with ⟨-, ⟨d, heq⟩ | ⟨n, heq⟩⟩ | ⟨i, rfl, ⟨heq, -⟩ | ⟨heq, -⟩⟩
  · cases heq
  · cases heq
  · cases heq
  · cases heq
    exact ⟨i, h.accounted.valid, hj.startsClean h, hrunning.stands.stage⟩

/-- The team of the small layer, with the depthwise kernel, in empty memory. -/
theorem team_is_race_free_small :
    smallJob.Made smallLayer smallWords smallSettings ∧
    ∃ start, smallJob.teamStart (.ofMemory (.empty 0x1000)) = .ok start ∧
      ∀ s, smallJob.Reaches Depthwise.kernel start s → s.cluster.hazards = 0 := by
  obtain ⟨hmade, start, hstart, hsafe⟩ := team_is_race_free smallJob_accepted
    smallJob_promised.toBounded smallJob_promised.toTensorsApart Depthwise.kernel_confined
    (.ofMemory (.empty 0x1000))
  exact ⟨hmade, start, hstart, fun s hreach => (hsafe s hreach).1⟩

end TileStream
