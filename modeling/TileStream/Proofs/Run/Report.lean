import TileStream.Proofs.Run.Bookkeeping
import TileStream.Proofs.Run.TileKernel
import TileStream.Proofs.Run.WholeRun

/-! # What a run reports

When a team has finished, its loop has been once through the tiles and its books
hold the cargo of the layer, all of it retired. So the report of a run is known
from the layer and the settings, up to the longest queue and the stalls
(`reports_of_finished`). -/
namespace TileStream

open Depthwise

namespace Job

variable {j : Job} {kernel : Kernel} {s : TeamState}

/-- The program computes the tensors and the tiles whose sizes a report adds up. -/
structure Measured (j : Job) : Prop where
  grid : j.geometry.grid = .ok j.geometry.tileGrid
  total : j.geometry.tileGrid.total = .ok j.tileCount
  inputBytes : j.tiles.input.bytes = .ok j.inputBytes
  outputBytes : j.tiles.output.bytes = .ok j.outputBytes
  inputLoad : ∀ k < j.tileCount,
    j.inputTransfer (j.geometry.tileGrid.tileAt k) (.of k) = .ok (j.inputLoad k) ∧
      (j.inputLoad k).totalBytes = .ok (j.inputLoad k).byteCount
  outputStore : ∀ k < j.tileCount,
    j.outputTransfer (j.geometry.tileGrid.tileAt k) (.of k) = .ok (j.outputStore k) ∧
      (j.outputStore k).totalBytes = .ok (j.outputStore k).byteCount

/-- What a run of the layer reports. -/
structure Reports (j : Job) (r : Report) : Prop where
  iterations : r.iterations = j.tileCount
  prefetches : r.prefetches = j.tileCount - 1
  weightReloads : r.weightReloads = j.geometry.tileGrid.channels - 1
  writeBacks : r.writeBacks = j.tileCount
  hazards : r.hazards = 0
  staged : r.staged = j.params.slowIsExternal
  /-- One transfer for each share of an input tile. -/
  input : r.traffic.input =
    ⟨((List.range j.tileCount).map fun k => (j.inputLoad k).shareCount j.settings.units).sum,
      ((List.range j.tileCount).map fun k => (j.inputLoad k).byteCount).sum⟩
  weights : r.traffic.weights = ⟨j.geometry.tileGrid.channels,
    j.geometry.input.channels * (j.geometry.kernel * j.geometry.kernel)⟩
  requant : r.traffic.requant =
    ⟨2 * j.geometry.tileGrid.channels, 8 * j.geometry.input.channels⟩
  /-- One transfer for each share of an output tile; no byte is written back twice. -/
  output : r.traffic.output =
    ⟨((List.range j.tileCount).map fun k => (j.outputStore k).shareCount j.settings.units).sum,
      j.outputBytes⟩
  /-- A bulk copy moves the low 32 bits of its size. -/
  staging : r.traffic.staging = if j.params.slowIsExternal then
    ⟨3, j.inputBytes + low32 j.blob.total + j.outputBytes⟩ else ⟨0, 0⟩
  maxInFlight : r.maxInFlight ≤ max j.settings.queueDepth 1
  completions : r.completions = 1 + 2 * j.tileCount + if j.params.slowIsExternal then 2 else 0
  arrivals : r.arrivals = max j.settings.units 1 * r.completions

theorem Accepted.measured (h : j.Accepted) : j.Measured where
  grid := Geometry.grid_eq h.tiled h.small
  total := Grid.total_eq (Geometry.tileGrid_regular h.tiled h.small)
  inputBytes := by
    rw [h.tiles_eq.2.1]
    exact h.inputTensor_bytes
  outputBytes := by
    rw [h.tiles_eq.2.2.1]
    exact h.outputTensor_bytes
  inputLoad k hk := ⟨h.inputTransfer_eq hk, (h.inputLoad_boxed hk).1.fits.totalBytes⟩
  outputStore k hk := ⟨h.outputTransfer_eq hk, (h.outputStore_boxed hk).1.fits.totalBytes⟩

/-- A finished team reports on a unit that has been through the whole loop. -/
theorem InPhase.report_eq {ph : Phase} (h : j.InPhase ph s) (hfinished : s.Finished) :
    ∃ p, j.Stands .finished p ∧ s.report j = j.report p s.cluster := by
  have hlast := h.last hfinished
  obtain ⟨t, ht, -⟩ := h.leader_exists
  obtain ⟨since, haccounted⟩ := h
  obtain ⟨c, threads⟩ := s
  cases threads with
  | nil => cases ht
  | cons first rest =>
    have hstands := (haccounted.running first List.mem_cons_self).stands
    rw [hlast] at hstands
    exact ⟨_, hstands, rfl⟩

/-- **A team that has finished has retired every transfer, and its report is that of the layer.** -/
theorem Accepted.reports_of_finished (hj : j.Accepted) {c : Cluster}
    (hreach : j.Reaches kernel (j.started c) s) (hfinished : s.Finished) :
    s.queue.pending = [] ∧ j.Reports (s.report j) := by
  obtain ⟨ph, hphase, hbooked⟩ := hj.booked_of_reaches hreach
  have hbalanced := hphase.balanced hbooked hfinished
  obtain ⟨p, hstands, hreport⟩ := hphase.report_eq hfinished
  refine ⟨hphase.pending_eq_nil hfinished, ?_⟩
  rw [hreport]
  exact {
    iterations := congrArg TileLoop.index hstands.loop
    prefetches := (congrArg TileLoop.prefetches hstands.loop).trans (Nat.min_eq_right (Nat.sub_le _ 1))
    weightReloads := (congrArg TileLoop.weightReloads hstands.loop).trans
      (Grid.weightsAt_size (Geometry.tileGrid_regular hj.tiled hj.small))
    writeBacks := hstands.written
    hazards := hbalanced.hazards
    staged := rfl
    input := (hbalanced.traffic .input).trans hj.count_input
    weights := (hbalanced.traffic .weights).trans hj.count_weights
    requant := (hbalanced.traffic .requant).trans hj.count_requant
    output := (hbalanced.traffic .output).trans hj.count_output
    staging := (hbalanced.traffic .staging).trans hj.count_staging
    maxInFlight := hbalanced.maxInFlight
    completions := congrArg Barrier.completions hbalanced.barrier
    arrivals := by
      show s.cluster.barrier.arrivals = _ * s.cluster.barrier.completions
      rw [hbalanced.barrier]
      rfl }

end Job

/-- **What a run reports.** Let a layer of bounded size be accepted, for a scratchpad of any capacity. When
the units of its team have finished, in whichever order they went on and whatever the kernel did, no
transfer is queued any more, draining the queue changes nothing, and the report counts the tiles, the
barriers and the traffic that the layer and the settings determine. So it is for the report of every run
that returns one. -/
theorem report_accounts_for_layer {g : Geometry} {words : List UInt32} {settings : Settings} {j : Job}
    (haccepted : (Job.ofWords g words settings).run = .ok (.ok j)) (hbounded : j.Bounded) :
    j.geometry = g ∧ j.settings = settings ∧ j.Measured ∧
    (j.blob.total < 0x100000000 → low32 j.blob.total = j.blob.total) ∧
    (∀ kernel c start s, j.teamStart c = .ok start → j.Reaches kernel start s → s.Finished →
      s.queue.pending = [] ∧ Cluster.onDevice Device.drain s.cluster = .ok () s.cluster ∧
        j.Reports (s.report j)) ∧
    ∀ kernel c report c', j.run kernel c = .ok (.ok report) c' →
      j.Reports report ∧ ∃ c₁ start s, j.teamStart c₁ = .ok start ∧ j.Reaches kernel start s ∧
        s.Finished ∧ s.cluster = c' ∧ s.report j = report := by
  obtain ⟨hj, hmade⟩ := Job.accepted_of_ofWords haccepted hbounded
  refine ⟨hmade.geometry, hmade.settings, hj.measured, low32_of_lt, ?_, ?_⟩
  · intro kernel c start s hstart hreach hfinished
    cases (hj.teamStart_eq c).symm.trans hstart
    obtain ⟨hempty, hreports⟩ := hj.reports_of_finished hreach hfinished
    exact ⟨hempty, Job.drain_of_empty hempty, hreports⟩
  · intro kernel c report c' hrun
    obtain ⟨c₁, -, hteam⟩ := Job.run_eq_ok.mp hrun
    obtain ⟨s, hreach, hfinished, hcluster, rfl⟩ := hj.runTeam_inv hteam
    exact ⟨(hj.reports_of_finished hreach hfinished).2, c₁, _, s, hj.teamStart_eq c₁, hreach,
      hfinished, hcluster, rfl⟩

/-- The small layer: eight tiles in two channel blocks, two units, tensors in external memory. -/
theorem report_accounts_for_layer_small :
    ∃ report c', smallJob.run kernel (.ofMemory (.empty 0x1000)) = .ok (.ok report) c' ∧
      report.iterations = 8 ∧ report.prefetches = 7 ∧ report.weightReloads = 1 ∧
      report.writeBacks = 8 ∧ report.hazards = 0 ∧ report.traffic.output.bytes = 18 ∧
      report.traffic.weights = ⟨2, 18⟩ ∧ report.traffic.requant = ⟨4, 16⟩ ∧
      report.traffic.staging = ⟨3, 18 + 36 + 18⟩ ∧ report.maxInFlight ≤ 2 ∧
      report.completions = 19 ∧ report.arrivals = 38 := by
  obtain ⟨hj, -⟩ := Job.sound_of_ofWords smallJob_accepted
    (show smallSettings.localCapacity ≤ 0x40000 by decide) smallJob_promised
  obtain ⟨report, c', hrun⟩ := hj.run_exists (c := .ofMemory (.empty 0x1000)) hj.finishes_depthwise
    smallMemory_holds (hj.room smallMemory_unread)
  obtain ⟨-, -, -, -, -, hruns⟩ := report_accounts_for_layer smallJob_accepted
    smallJob_promised.toBounded
  obtain ⟨hreports, -⟩ := hruns kernel (.ofMemory (.empty 0x1000)) report c' hrun
  have hcompletions : report.completions = 19 := hreports.completions.trans (by decide)
  refine ⟨report, c', hrun, hreports.iterations.trans (by decide), hreports.prefetches.trans (by decide),
    hreports.weightReloads.trans (by decide), hreports.writeBacks.trans (by decide), hreports.hazards,
    ?_, hreports.weights.trans (by decide), hreports.requant.trans (by decide),
    hreports.staging.trans (by decide), Nat.le_trans hreports.maxInFlight (by decide), hcompletions, ?_⟩
  · rw [hreports.output]
    decide
  · rw [hreports.arrivals, hcompletions]
    decide

end TileStream
