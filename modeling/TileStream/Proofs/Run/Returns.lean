import TileStream.Proofs.Run.Schedules
import TileStream.Proofs.Run.TileKernel
import TileStream.Proofs.Run.WholeRun

/-! # Which runs return

A block that is decoded from words has a shift below 32, but a layer is accepted
with any block. With a shift of 64 or more no team comes past the first tile: the
leader has channels of it to compute, and each result is to be shifted by more
than a word (`stalled_of_reaches`). A team of one unit stops there; in a larger one a
unit without channels of the tile waits for the leader at the barrier, and the team
neither stops nor ends. A smaller shift stops no run. -/
namespace TileStream

open Depthwise

namespace Job

variable {j : Job} {ph : Phase} {s : TeamState} {c c' : Cluster}

/-- The leader of a team. -/
def leader (j : Job) : Member := ⟨0, max j.settings.units 1⟩

theorem Fit.leader_share (h : j.Fit) {k : Nat} (hk : k < j.tileCount) :
    ∃ share, j.leader.share (j.callAt k).channels = .ok share ∧ share.start < share.stop := by
  obtain ⟨share, hshare, howner⟩ := h.channelShare_exists hk (leader_mem j.settings.units)
  have hfirst : Member.ownerOf j.settings.units (j.callAt k).channels 0 = j.leader := by
    simp [Member.ownerOf, leader]
  have hmine := (howner 0 (h.outputTile_pos hk).2.2).mpr hfirst
  exact ⟨share, hshare, by omega⟩

/-- A leader that has computed its part of a tile has shifted by less than a word. -/
theorem Fit.shift_lt_of_leader (h : j.Fit) {k : Nat} (hk : k < j.tileCount) {m m' : Memory}
    (hrun : kernel j.leader (j.callAt k) m = .ok () m') : j.params.outShift.toNat < 64 := by
  obtain ⟨share, hshare, hsome⟩ := h.leader_share hk
  obtain ⟨hrows, hcols, -⟩ := h.outputTile_pos hk
  exact shift_lt_of_kernel hshare hsome hrows hcols hrun

/-- A team that has not come past the first tile, which the leader has still to compute. -/
def Stalled (j : Job) : Phase → TeamState → Prop
  | .stageIn, _ | .prologue, _ => True
  | .fetch i, _ => i = 0
  | .compute i, s => i = 0 ∧ j.Owes i j.leader s.threads
  | .stageOut, _ | .finished, _ => False

theorem stalled_moves {s' : TeamState} (hmoves : ∀ i, ph ≠ .compute i) (h : j.Stalled ph s) :
    j.Stalled ph s' := by
  cases ph with
  | compute i => exact absurd rfl (hmoves i)
  | stageIn | prologue | fetch i | stageOut | finished => exact h

theorem Fit.stalled_act (hj : j.Fit) (hshift : 64 ≤ j.params.outShift.toNat) {since : Nat}
    {before after : List Thread} {w : Worker} {a : Action} {rest : List Action}
    {issued : Array Nat} (h : j.Accounted ph since c.device.queue (before ++ ⟨w, a :: rest⟩ :: after))
    (hact : j.Performed kernel ph w.member w.issued c a issued c')
    (hstalled : j.Stalled ph ⟨c, before ++ ⟨w, a :: rest⟩ :: after⟩) :
    j.Stalled ph ⟨c', before ++ ⟨{ w with issued }, rest⟩ :: after⟩ := by
  cases hact with
  | submit hmoves => exact stalled_moves hmoves hstalled
  | await hmoves => exact stalled_moves hmoves hstalled
  | @inspect i hph =>
    subst hph
    exact ⟨hstalled.1, hstalled.2.inspect⟩
  | @compute i memory hph hrun =>
    subst hph
    refine ⟨hstalled.1, hstalled.2.compute.resolve_left fun hleader => ?_⟩
    rw [← hleader] at hrun
    exact absurd (hj.shift_lt_of_leader h.valid hrun) (Nat.not_lt_of_le hshift)

theorem Fit.stalled_meet (hj : j.Fit) {since : Nat} {threads : List Thread}
    (h : j.Accounted ph since c.device.queue threads) (hdone : ∀ t ∈ threads, t.todo = [])
    (hbegins : ∀ t ∈ threads, j.Begins (j.nextPhase ph) (t.worker.load j))
    (hstalled : j.Stalled ph ⟨c, threads⟩) : j.Stalled (j.nextPhase ph)
      ⟨{ c with barrier := c.barrier.meet }, threads.map fun t => t.worker.load j⟩ := by
  cases ph with
  | stageIn => exact trivial
  | prologue => exact rfl
  | fetch i =>
    change i = 0 at hstalled
    subst hstalled
    have hnext := nextPhase_fetch hj.tileCount_pos
    rw [hnext] at hbegins ⊢
    obtain ⟨t, ht, hleader⟩ := InPhase.leader_exists (s := ⟨c, threads⟩) ⟨since, h⟩
    exact ⟨rfl, owes_of_begins (List.forall_mem_map.mpr hbegins)
      (List.mem_map.mpr ⟨_, List.mem_map_of_mem ht, hleader⟩)⟩
  | compute i => exact absurd hstalled.2 (not_owes_of_done hdone)
  | stageOut | finished => exact hstalled.elim

/-- **No team comes past the first tile** when the shift is that of a word or more. -/
theorem Fit.stalled_of_reaches (hj : j.Fit) (hshift : 64 ≤ j.params.outShift.toNat)
    (hreach : j.Reaches kernel (j.started c) s) : ∃ ph, j.InPhase ph s ∧ j.Stalled ph s := by
  have hinvariant : j.Invariant kernel j.Stalled :=
    ⟨fun h _ hact hstalled => hj.stalled_act hshift h hact hstalled,
      fun h hdone _ hbegins hstalled => hj.stalled_meet h hdone hbegins hstalled⟩
  refine hj.invariant_reaches hinvariant hreach (hj.inPhase_started c).1 ?_
  unfold firstPhase
  cases j.params.slowIsExternal <;> exact trivial

theorem Fit.not_finished_of_overshift (hj : j.Fit) (hshift : 64 ≤ j.params.outShift.toNat)
    (hreach : j.Reaches kernel (j.started c) s) : ¬ s.Finished := by
  intro hfinished
  obtain ⟨ph, hphase, hstalled⟩ := hj.stalled_of_reaches hshift hreach
  have hlast := hphase.last hfinished
  cases ph with
  | fetch i =>
    change i = 0 at hstalled
    subst hstalled
    rw [nextPhase_fetch hj.tileCount_pos] at hlast
    cases hlast
  | stageIn | prologue | compute i => cases hlast
  | stageOut | finished => exact hstalled

/-- **With a shift that is that of a word or more the lock step comes to a halt there.** -/
theorem Fit.run_overshift (hj : j.Fit) (hshift : 64 ≤ j.params.outShift.toNat)
    (hholds : c.device.memory.scratchpad.Holds (j.params.localBase.toNat + j.scratch.total))
    (hroom : ∀ t, c.device.memory.readCount t < 0x8000000000000000) :
    ∃ c', j.run kernel c = .error .shiftOverflow c' := by
  have hends := hj.run_ends hj.settles_depthwise hholds (hj.room hroom)
  cases hrun : j.run kernel c with
  | error f c' =>
    rw [hrun] at hends
    obtain ⟨-, rfl⟩ := hends
    exact ⟨c', rfl⟩
  | ok r c' =>
    rw [hrun] at hends
    obtain ⟨report, rfl⟩ := hends
    obtain ⟨c₁, s, -, hreach, hfinished, -⟩ := hj.run_inv hrun
    exact absurd hfinished (hj.not_finished_of_overshift hshift hreach)

end Job

/-- **What becomes of a run.** Let a layer of bounded size be accepted with any parameter block, with a
scratchpad of at most 256 KiB, and let no read counter be near its limit. The job is that of the layer, the
block and the settings. A memory whose scratchpad cannot hold the partition refuses the run for its capacity.
In any other the run returns a report, and every order of the units comes to its end, if the shift is below
64. If it is not, no order of the units ever comes to its end, and the run of a team of one unit stops with
an overflowing shift. -/
theorem run_returns_iff_shift_fits {g : Geometry} {p : Params} {settings : Settings} {j : Job}
    (haccepted : (Job.create g p settings).run = .ok (.ok j))
    (hcapacity : settings.localCapacity ≤ 0x40000) (hbounded : j.Bounded) (c : Cluster)
    (hroom : ∀ t, c.device.memory.readCount t < 0x8000000000000000) :
    (j.geometry = g ∧ j.params = p ∧ j.settings = settings) ∧
    (¬ c.device.memory.scratchpad.Holds (p.localBase.toNat + j.scratch.total) →
      ∃ name stop capacity c', capacity < stop ∧ j.run kernel c =
        .ok (.error (.beyondCapacity c.device.memory.scratchpad.tier name stop capacity)) c') ∧
    (c.device.memory.scratchpad.Holds (p.localBase.toNat + j.scratch.total) →
      (p.outShift.toNat < 64 → (∃ report c', j.run kernel c = .ok (.ok report) c') ∧
        ∃ start, j.teamStart c = .ok start ∧ j.Delivers kernel start fun _ => True) ∧
      (64 ≤ p.outShift.toNat →
        (∃ start, j.teamStart c = .ok start ∧ ∀ s, j.Reaches kernel start s → ¬ s.Finished) ∧
        (settings.units ≤ 1 → ∃ c', j.run kernel c = .error .shiftOverflow c'))) := by
  obtain ⟨hj, hgeometry, rfl, hsettings⟩ := Job.fit_of_create haccepted hcapacity hbounded
  refine ⟨⟨hgeometry, rfl, hsettings⟩, fun hfull => ?_, fun hholds =>
    ⟨fun hshift => ⟨?_, _, hj.teamStart_eq c, ?_⟩,
      fun hshift => ⟨⟨_, hj.teamStart_eq c, fun s hreach => ?_⟩, fun _ => ?_⟩⟩⟩
  · obtain ⟨name, stop, capacity, c', hrefused, hpast, -⟩ := hj.run_refused kernel hfull
    exact ⟨name, stop, capacity, c', hpast, hrefused⟩
  · obtain ⟨_, c', hrun, report, rfl⟩ :=
      (hj.run_ends (hj.finishes_depthwise hshift) hholds (hj.room hroom)).ok_of_never fun _ => id
    exact ⟨report, c', hrun⟩
  · have hf := hj.finishes_depthwise hshift
    have hstart := hj.underway_started c (hj.room hroom)
    refine ⟨hj.underway_acc hf hstart, fun s hreach hstuck => ⟨?_, trivial⟩⟩
    obtain ⟨ph, hunderway⟩ := hj.underway_reaches hf hreach hstart
    exact hj.underway_end hf hunderway hstuck
  · exact hj.not_finished_of_overshift hshift hreach
  · exact hj.run_overshift hshift hholds hroom

/-- The small layer on an empty memory returns. -/
theorem run_returns_small :
    ∃ report c', smallJob.run kernel (.ofMemory (.empty 0x1000)) = .ok (.ok report) c' := by
  obtain ⟨-, -, hreturns⟩ := run_returns_iff_shift_fits (g := smallLayer) (p := smallJob.params)
    (j := smallJob) rfl (show smallSettings.localCapacity ≤ 0x40000 by decide)
    smallJob_promised.toBounded (.ofMemory (.empty 0x1000)) smallMemory_unread
  obtain ⟨hfits, -⟩ := hreturns smallMemory_holds
  exact (hfits (by decide)).1

/-- The block of the small layer with a shift that no word takes. -/
def overshiftParams : Params := { smallJob.params with outShift := 64 }

/-- One unit with the queue and the scratchpad of the small layer. -/
def soleSettings : Settings := { smallSettings with units := 1 }

/-- The small layer is accepted with this block for a team of one unit, and its run stops. -/
theorem overshift_accepted_and_stops : ∃ j c',
    (Job.create smallLayer overshiftParams soleSettings).run = .ok (.ok j) ∧ j.Bounded ∧
      soleSettings.units = 1 ∧
      (Memory.empty 0x1000).scratchpad.Holds (j.params.localBase.toNat + j.scratch.total) ∧
      j.run kernel (.ofMemory (.empty 0x1000)) = .error .shiftOverflow c' := by
  have haccepted : (Job.create smallLayer overshiftParams soleSettings).run =
      .ok (.ok { smallJob with params := overshiftParams, settings := soleSettings }) := rfl
  have hbounded : Job.Bounded { smallJob with params := overshiftParams, settings := soleSettings } :=
    ⟨by decide, smallJob_promised.small, smallJob_promised.input_lt, smallJob_promised.output_lt⟩
  obtain ⟨hj, -⟩ := Job.fit_of_create haccepted
    (show soleSettings.localCapacity ≤ 0x40000 by decide) hbounded
  obtain ⟨c', hrun⟩ := hj.run_overshift (c := .ofMemory (.empty 0x1000)) (by decide)
    smallMemory_holds smallMemory_unread
  exact ⟨_, c', haccepted, hbounded, rfl, smallMemory_holds, hrun⟩

end TileStream
