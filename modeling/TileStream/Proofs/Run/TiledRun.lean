import TileStream.Proofs.Run.Schedules
import TileStream.Proofs.Run.TileKernel
import TileStream.Proofs.Run.WholeRun

/-! # The tiled run computes the convolution

Every element of the output tensor belongs to a tile (`exists_tile`). A run with
the depthwise kernel finishes and leaves in each tile what the run aims at, so
in the end the output tensor is the convolution of what memory held before. -/
namespace TileStream

open Depthwise

namespace Job

variable {j : Job} {img img₀ : Image}

/-- The output tensor in `img` is the convolution of what `img₀` holds. -/
def HoldsConvolution (j : Job) (img₀ img : Image) : Prop :=
  ∀ y < j.geometry.rows.outs, ∀ x < j.geometry.cols.outs, ∀ c < j.geometry.input.channels,
    img (j.outputAt ((y * j.geometry.cols.outs + x) * j.geometry.input.channels + c)) =
      j.convolution img₀ y x c

/-- A run that has reached its aim has left the convolution. -/
theorem Sound.holdsConvolution_of_finished (h : j.Sound)
    (hdone : j.Finished (j.convolved img₀) img) : j.HoldsConvolution img₀ img := by
  intro y hy x hx c hc
  obtain ⟨k, hk, r, q, ch, hr, hq, hch, rfl, rfl, rfl⟩ := Geometry.exists_tile h.tiled hy hx hc
  obtain ⟨hp, -, htarget⟩ := h.outputStore_element hk hr hq hch
  have hgood := hdone k hk _ hp _ htarget
  exact hgood _ hy _ hx _ hc htarget

end Job

/-- **A tiled run computes the convolution of the layer.** A job that was accepted from words is made for
the layer, the words and the settings that were given. If its caller has kept the promises, it runs to the
end on every cluster, whatever memory holds, if the scratchpad has room for the partition and no read counter
is near its limit; the output tensor is then the convolution of what memory held before. So it is for every
other order in which the units of the team go on. -/
theorem tiled_run_eq_convolution {g : Geometry} {words : List UInt32} {settings : Settings} {j : Job}
    (haccepted : (Job.ofWords g words settings).run = .ok (.ok j))
    (hcapacity : settings.localCapacity ≤ 0x40000) (hpromised : j.Promised) (c : Cluster)
    (hholds : c.device.memory.scratchpad.Holds (j.params.localBase.toNat + j.scratch.total))
    (hroom : ∀ t, c.device.memory.readCount t < 0x8000000000000000) :
    j.Made g words settings ∧
    (∃ report c', j.run kernel c = .ok (.ok report) c' ∧
      j.HoldsConvolution c.device.memory.image c'.device.memory.image) ∧
    ∃ s, j.teamStart c = .ok s ∧
      j.Delivers kernel s (j.HoldsConvolution c.device.memory.image) := by
  obtain ⟨hj, hmade⟩ := Job.sound_of_ofWords haccepted hcapacity hpromised
  refine ⟨hmade, ?_, ?_⟩
  · obtain ⟨c₁, hreserve, himage, hreads⟩ := hj.reserved hholds
    obtain ⟨report, c', hrun, hdone⟩ := hj.runTeam_exists hj.serves_depthwise hj.finishes_depthwise
      fun t => by rw [hreads]; exact hj.room hroom t
    rw [himage] at hdone
    refine ⟨report, c', ?_, hj.holdsConvolution_of_finished hdone⟩
    rw [Job.run, Stateful.bind_of_ok hreserve]
    exact (Stateful.bind_of_ok hrun).trans rfl
  · obtain ⟨s, hstart, hdelivers⟩ := hj.delivers hj.serves_depthwise hj.finishes_depthwise
      (hj.room hroom)
    refine ⟨s, hstart, hdelivers.ends, fun s' hreach hstuck => ?_⟩
    obtain ⟨hfinished, hdone⟩ := hdelivers.result s' hreach hstuck
    exact ⟨hfinished, hj.holdsConvolution_of_finished hdone⟩

/-- The small layer on an empty memory. -/
theorem tiled_run_eq_convolution_small :
    smallJob.Made smallLayer smallWords smallSettings ∧
    (∃ report c', smallJob.run kernel (.ofMemory (.empty 0x1000)) = .ok (.ok report) c' ∧
      smallJob.HoldsConvolution (Memory.empty 0x1000).image c'.device.memory.image) ∧
    ∃ s, smallJob.teamStart (.ofMemory (.empty 0x1000)) = .ok s ∧
      smallJob.Delivers kernel s (smallJob.HoldsConvolution (Memory.empty 0x1000).image) := by
  refine tiled_run_eq_convolution smallJob_accepted (by decide) smallJob_promised
    (.ofMemory (.empty 0x1000)) ?_ ?_
  · intro capacity hcapacity
    cases hcapacity
    decide
  · intro t
    cases t <;> decide

end TileStream
