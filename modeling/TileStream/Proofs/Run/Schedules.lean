import TileStream.Proofs.Run.Invariant
import TileStream.Proofs.Run.LockSteps

/-! # Every schedule of a team

In every interleaving of a team some unit can go on as long as not all have
finished, and the output tensor holds good values then (`delivers`). The
lock-step run is one of them (`runTeam_exists`). -/
namespace TileStream

/-- Whatever the order is in which the units go on from a state, they do not go on forever, and once none
can go on all have finished and left memory as it shall be. -/
structure Job.Delivers (j : Job) (kernel : Kernel) (s : TeamState) (good : Image → Prop) : Prop where
  ends : Acc (fun s' s => j.Step kernel s s') s
  result : ∀ s', j.Reaches kernel s s' → (∀ s'', ¬ j.Step kernel s' s'') → s'.Finished ∧ good s'.image

namespace Job

variable {j : Job} {kernel : Kernel} {img₀ : Image} {aim : Aim} {ph : Phase} {since : Nat}
  {s : TeamState} {c : Cluster}

/-- With a kernel that finishes, every order of the units comes to its end. -/
theorem Accepted.delivers_of_finished (hj : j.Accepted) (hf : j.Finishes kernel)
    (hroom : j.Room c.device.memory) {good : Image → Prop}
    (hgood : ∀ s, j.Reaches kernel (j.started c) s → s.Finished → good s.image) :
    j.Delivers kernel (j.started c) good := by
  have hstart := hj.underway_started c hroom
  refine ⟨hj.underway_acc hf hstart, fun s hreach hstuck => ?_⟩
  obtain ⟨ph, hunderway⟩ := hj.underway_reaches hf hreach hstart
  have hfinished := hj.underway_end hf hunderway hstuck
  exact ⟨hfinished, hgood s hreach hfinished⟩

/-- When a team has finished, memory is all that it will be. -/
theorem InPhase.settled_of_finished (h : j.InPhase ph s) (hfinished : s.Finished) :
    s.device.settled = s.image := by
  have hempty : s.device.queue.pending = [] := h.pending_eq_nil hfinished
  rw [Device.settled, hempty]
  rfl

/-- A finished team has left what it aimed at. -/
theorem Separate.finished_of_correct (hj : j.Separate) (h : j.Correct img₀ aim ph since s)
    (hfinished : s.Finished) : j.Finished aim s.image := by
  have hphase : j.InPhase ph s := ⟨since, h.accounted⟩
  have hready := hj.ready_of_done h fun t ht => (hfinished t ht).1
  rw [hphase.last hfinished, hphase.settled_of_finished hfinished] at hready
  exact hready

/-- What the team of a cluster reaches satisfies the invariant. -/
theorem Separate.correct_of_reaches (hj : j.Separate) (hk : j.Serves kernel (j.fed c.device.memory.image) aim)
    (hreach : j.Reaches kernel (j.started c) s) :
    ∃ ph since, j.Correct c.device.memory.image aim ph since s := by
  obtain ⟨s₀, hstart, since, hbegin⟩ := hj.correct_start hk.owned c
  rw [hj.teamStart_eq] at hstart
  cases hstart
  exact hj.correct_reaches hk hreach ⟨_, _, hbegin⟩

/-- **Every schedule delivers**: it ends, and the output tensor then holds good values. -/
theorem Separate.delivers (hj : j.Separate) (hk : j.Serves kernel (j.fed c.device.memory.image) aim)
    (hf : j.Finishes kernel) (hroom : j.Room c.device.memory) :
    ∃ s, j.teamStart c = .ok s ∧ j.Delivers kernel s (j.Finished aim) := by
  refine ⟨_, hj.teamStart_eq c, hj.delivers_of_finished hf hroom fun s hreach hfinished => ?_⟩
  obtain ⟨ph, since, hcorrect⟩ := hj.correct_of_reaches hk hreach
  exact hj.finished_of_correct hcorrect hfinished

/-- **A team runs to the end**, and the output tensor then holds good values. -/
theorem Separate.runTeam_exists (hj : j.Separate) (hk : j.Serves kernel (j.fed c.device.memory.image) aim)
    (hf : j.Finishes kernel) (hroom : j.Room c.device.memory) :
    ∃ report c', j.runTeam kernel c = .ok report c' ∧ j.Finished aim c'.device.memory.image := by
  obtain ⟨report, c', hrun, -⟩ := (hj.runTeam_ends hf hroom).ok_of_never fun _ => id
  obtain ⟨s, hreach, hfinished, rfl, -⟩ := hj.runTeam_inv hrun
  obtain ⟨ph, since, hcorrect⟩ := hj.correct_of_reaches hk hreach
  exact ⟨report, _, hrun, hj.finished_of_correct hcorrect hfinished⟩

end Job

end TileStream
