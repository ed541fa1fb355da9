import TileStream.Proofs.Run.Report
import TileStream.Proofs.Run.Serial

/-! # The policy for writing back does not show

A deferred write-back stays queued while the next tile is fetched and computed,
and another unit or a full queue may retire it. The serial run and the cargo of
a layer know nothing of this: `under` another policy, or with a queue of another
depth, both are the same, by definition. So two finished teams of a layer agree
on slow and mid memory and on what was moved (`Separate.agree_of_finished`), and
so do two runs (`Separate.agree_of_run`). -/
namespace TileStream

/-- Two images agree outside the scratchpad. -/
def Image.SameOutside (img img' : Image) : Prop := ∀ e : Endpoint, e.tier ≠ .scratchpad → img e = img' e

/-- Two clusters agree on slow and mid memory, and on the transfers and bytes of every kind. -/
structure Cluster.Agree (c c' : Cluster) : Prop where
  bytes : c.device.memory.image.SameOutside c'.device.memory.image
  traffic : c.device.queue.traffic = c'.device.queue.traffic

theorem Traffic.ext_of {t t' : Traffic} (h : ∀ p, t.of p = t'.of p) : t = t' := by
  obtain ⟨_, _, _, _, _⟩ := t
  obtain ⟨_, _, _, _, _⟩ := t'
  cases h .input
  cases h .weights
  cases h .requant
  cases h .output
  cases h .staging
  rfl

namespace Job

variable {j : Job} {kernel : Kernel} {c c' : Cluster} {s s' : TeamState} {depth : Nat}
  {policy : Writeback}

/-- A kernel keeps the contract of every call that a layer makes. -/
def Honours (j : Job) (kernel : Kernel) : Prop :=
  ∀ k < j.tileCount, ∀ call, j.call (j.geometry.tileGrid.iterationAt k) = .ok call →
    kernel.Keeps (Member.team j.settings.units) call

theorem Accepted.keeps (hj : j.Accepted) (hkernel : j.Honours kernel) :
    ∀ k < j.tileCount, kernel.Keeps (Member.team j.settings.units) (j.callAt k) :=
  fun k hk => hkernel k hk _ (hj.call_eq hk)

theorem Accepted.honours_depthwise (hj : j.Accepted) : j.Honours Depthwise.kernel := by
  intro k hk call hcall
  cases (hj.call_eq hk).symm.trans hcall
  exact Depthwise.kernel_keeps rfl (hj.writeRange_eq hk) j.settings.units

/-! ## The same layer under another policy -/

theorem Separate.under (h : j.Separate) (depth : Nat) (policy : Writeback) :
    (j.under depth policy).Separate :=
  ⟨⟨⟨h.units_lt, h.small, h.input_lt, h.output_lt⟩, h.tiled, h.scratch, h.tiles, h.blob_weights,
    h.blob_kappa, h.blob_lambda, h.blob_total, h.blob_low, h.low, h.within⟩, h.input_output,
    h.input_blob, h.output_blob⟩

theorem serialTile_under (j : Job) (depth : Nat) (policy : Writeback) (img₀ : Image) (i : Nat) :
    (j.under depth policy).serialTile kernel img₀ i = j.serialTile kernel img₀ i := by
  induction i with
  | zero => rfl
  | succ i ih => exact congrArg (fun img => j.computed kernel i (img.applyAll (j.wholes (.fetch i)))) ih

/-- **The serial run knows of no policy and of no queue.** -/
theorem serial_under (j : Job) (depth : Nat) (policy : Writeback) (img₀ : Image) (ph : Phase) :
    (j.under depth policy).serial kernel img₀ ph = j.serial kernel img₀ ph := by
  have htile : ∀ i, (j.under depth policy).serialTile kernel img₀ i = j.serialTile kernel img₀ i :=
    j.serialTile_under depth policy img₀
  have hdrained := congrArg (Image.applyAll · (j.wholes (.fetch j.tileCount))) (htile j.tileCount)
  cases ph with
  | stageIn | prologue => rfl
  | fetch i => exact htile i
  | compute i => exact congrArg (Image.applyAll · (j.wholes (.fetch i))) (htile i)
  | stageOut => exact hdrained
  | finished =>
    exact congrArg (fun img : Image => if j.params.slowIsExternal then
      img.applyAll (j.wholes .stageOut) else img) hdrained

theorem cargo_under (j : Job) (depth : Nat) (policy : Writeback) :
    (j.under depth policy).cargo = j.cargo := rfl

/-! ## What two runs have in common -/

/-- What a finished team leaves outside the scratchpad, and what it has moved. -/
theorem Separate.outcome (hj : j.Separate) (hkernel : j.Honours kernel)
    (hreach : j.Reaches kernel (j.started c) s) (hfinished : s.Finished) :
    (j.serial kernel c.device.memory.image .finished).SameOutside s.image ∧
      ∀ p, s.queue.traffic.of p = countOf (j.cargo p) := by
  obtain ⟨ph, hphase, hbooked⟩ := hj.booked_of_reaches hreach
  have halike := hj.serial_of_finished (hj.keeps hkernel) hreach hfinished
  exact ⟨fun e he => (halike e (.inl (offInput_of_tier he))).symm,
    (hphase.balanced hbooked hfinished).traffic⟩

/-- **Two teams of a layer agree when they have finished**, each in an order of its own. -/
theorem Separate.agree_of_finished (hj : j.Separate) (hkernel : j.Honours kernel)
    (himage : c.device.memory.image = c'.device.memory.image)
    (hreach : j.Reaches kernel (j.started c) s) (hfinished : s.Finished)
    (hreach' : (j.under depth policy).Reaches kernel ((j.under depth policy).started c') s')
    (hfinished' : s'.Finished) : s.cluster.Agree s'.cluster := by
  obtain ⟨hbytes, htraffic⟩ := hj.outcome hkernel hreach hfinished
  obtain ⟨hbytes', htraffic'⟩ := (hj.under depth policy).outcome hkernel hreach' hfinished'
  rw [serial_under, ← himage] at hbytes'
  rw [cargo_under] at htraffic'
  exact ⟨fun e he => (hbytes e he).symm.trans (hbytes' e he),
    Traffic.ext_of fun p => (htraffic p).trans (htraffic' p).symm⟩

/-- **Two runs of a layer agree**, and either both are refused or none is. -/
theorem Separate.agree_of_run (hj : j.Separate) (hkernel : j.Honours kernel) {d d' : Cluster}
    {r r' : Except RegionError Report} (hrun : j.run kernel c = .ok r d)
    (hrun' : (j.under depth policy).run kernel c = .ok r' d') :
    d.Agree d' ∧ r.map Report.traffic = r'.map Report.traffic := by
  cases r with
  | error cause =>
    have hrefused := run_eq_refused.mp hrun
    cases r' with
    | error cause' =>
      cases hrefused.symm.trans ((run_eq_refused (j := j.under depth policy)).mp hrun')
      exact ⟨⟨fun _ _ => rfl, rfl⟩, rfl⟩
    | ok report' =>
      obtain ⟨c₁, hreserved, -⟩ := run_eq_ok.mp hrun'
      cases hrefused.symm.trans hreserved
  | ok report =>
    obtain ⟨c₁, hreserved, hteam⟩ := run_eq_ok.mp hrun
    cases r' with
    | error cause' =>
      cases hreserved.symm.trans ((run_eq_refused (j := j.under depth policy)).mp hrun')
    | ok report' =>
      obtain ⟨c₂, hreserved', hteam'⟩ := run_eq_ok.mp hrun'
      cases hreserved.symm.trans hreserved'
      obtain ⟨s, hreach, hfinished, rfl, rfl⟩ := hj.runTeam_inv hteam
      obtain ⟨s', hreach', hfinished', rfl, rfl⟩ := (hj.under depth policy).runTeam_inv hteam'
      have hagree := hj.agree_of_finished hkernel rfl hreach hfinished hreach' hfinished'
      exact ⟨hagree, congrArg Except.ok hagree.traffic⟩

/-- A team with a kernel that finishes ends in every order, and leaves what the serial run leaves. -/
theorem Separate.delivers_serial (hj : j.Separate) (hkernel : j.Honours kernel)
    (hf : j.Finishes kernel) (hroom : j.Room c.device.memory) :
    j.Delivers kernel (j.started c)
      (j.serial kernel c.device.memory.image .finished).SameOutside :=
  hj.delivers_of_finished hf hroom fun _ hreach hfinished =>
    (hj.outcome hkernel hreach hfinished).1

end Job

/-- **Deferred and blocking write-back are equivalent.** Let a layer of bounded size be accepted under some
policy, with its tensors apart in mid memory. Under any other policy, with a queue of any other depth, it is
accepted too. Let a kernel keep the contract of the calls of the layer. When both teams have finished, each
in whichever order its units went on, they agree on slow and mid memory and on the transfers and bytes of
every kind; so do two runs, of which either both are refused or none is. If the kernel always finishes and
the read counters have room, both teams do finish in every order, and both runs report if the scratchpad
is large enough. -/
theorem writeback_policies_agree {g : Geometry} {p : Params} {units capacity depth : Nat}
    {policy : Writeback} {j : Job} {kernel : Kernel}
    (haccepted : (Job.create g p ⟨units, capacity, depth, policy⟩).run = .ok (.ok j))
    (hbounded : j.Bounded) (hapart : j.TensorsApart) (hkernel : j.Honours kernel)
    (depth' : Nat) (policy' : Writeback) (c : Cluster) :
    ∃ j', (Job.create g p ⟨units, capacity, depth', policy'⟩).run = .ok (.ok j') ∧
    ∃ start start', j.teamStart c = .ok start ∧ j'.teamStart c = .ok start' ∧
      (∀ s s', j.Reaches kernel start s → s.Finished → j'.Reaches kernel start' s' → s'.Finished →
        s.cluster.Agree s'.cluster) ∧
      (∀ r r' d d', j.run kernel c = .ok r d → j'.run kernel c = .ok r' d' →
        d.Agree d' ∧ r.map Report.traffic = r'.map Report.traffic) ∧
      (j.Finishes kernel → j.Room c.device.memory →
        (∃ final : Image, j.Delivers kernel start final.SameOutside ∧
          j'.Delivers kernel start' final.SameOutside) ∧
        (c.device.memory.scratchpad.Holds (j.params.localBase.toNat + j.scratch.total) →
          ∃ report report' d d', j.run kernel c = .ok (.ok report) d ∧
            j'.run kernel c = .ok (.ok report') d')) := by
  obtain ⟨haccepted', -⟩ := Job.accepted_of_create haccepted hbounded
  have hj : j.Separate := { haccepted', hapart with }
  have hj' := hj.under depth' policy'
  refine ⟨_, Job.create_under haccepted depth' policy', _, _, hj.teamStart_eq c,
    hj'.teamStart_eq c, ?_, ?_, ?_⟩
  · intro s s' hreach hfinished hreach' hfinished'
    exact hj.agree_of_finished hkernel rfl hreach hfinished hreach' hfinished'
  · intro r r' d d' hrun hrun'
    exact hj.agree_of_run hkernel hrun hrun'
  · intro hf hroom
    have hf' : (j.under depth' policy').Finishes kernel := hf
    have hdelivers := hj'.delivers_serial hkernel hf' hroom
    simp only [Job.serial_under] at hdelivers
    refine ⟨⟨_, hj.delivers_serial hkernel hf hroom, hdelivers⟩, fun hholds => ?_⟩
    obtain ⟨report, d, hrun⟩ := hj.run_exists hf hholds hroom
    obtain ⟨report', d', hrun'⟩ := hj'.run_exists hf' hholds hroom
    exact ⟨report, report', d, d', hrun, hrun'⟩

/-- The small layer with the depthwise kernel on an empty memory: blocking with a queue of one transfer, and
deferred with a queue of two. -/
theorem writeback_policies_agree_small :
    ∃ report report' d d',
      (smallJob.under 1 .blocking).run Depthwise.kernel (.ofMemory (.empty 0x1000)) =
        .ok (.ok report) d ∧
      (smallJob.under 2 .deferred).run Depthwise.kernel (.ofMemory (.empty 0x1000)) =
        .ok (.ok report') d' ∧
      d.Agree d' ∧ report.traffic = report'.traffic := by
  have haccepted : (Job.create smallLayer smallJob.params ⟨2, 0x1000, 1, .blocking⟩).run =
      .ok (.ok (smallJob.under 1 .blocking)) := rfl
  obtain ⟨hsound, -⟩ := Job.sound_of_ofWords smallJob_accepted
    (show smallSettings.localCapacity ≤ 0x40000 by decide) smallJob_promised
  have hj := hsound.toSeparate.under 1 .blocking
  obtain ⟨j', haccepted', start, start', -, -, -, hruns, hends⟩ := writeback_policies_agree haccepted
    hj.toBounded hj.toTensorsApart hj.honours_depthwise 2 .deferred (.ofMemory (.empty 0x1000))
  cases haccepted'.symm.trans (Job.create_under haccepted 2 .deferred)
  obtain ⟨-, hreports⟩ := hends hsound.finishes_depthwise (hsound.room smallMemory_unread)
  obtain ⟨report, report', d, d', hrun, hrun'⟩ := hreports smallMemory_holds
  obtain ⟨hagree, htraffic⟩ := hruns _ _ _ _ hrun hrun'
  exact ⟨report, report', d, d', hrun, hrun', hagree, Except.ok.inj htraffic⟩

end TileStream
