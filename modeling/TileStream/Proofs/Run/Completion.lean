import TileStream.Proofs.Run.Steps
import TileStream.Proofs.Run.Traffic

/-! # A run finishes

In any state that a team reaches, a unit can perform its next action, as long as
the read counters have room for what is queued and for what units have left to
submit (`act_ends`). A step goes on in a phase or passes a barrier
(`underway_step`), so every order of the units leads to an end, and a team that
cannot go on has finished. -/
namespace TileStream

namespace TeamState

/-- What transfers have read from a tier, and what those will read that are queued or left to submit. -/
def burden (s : TeamState) (t : Tier) : Nat :=
  s.device.readTotal t + (s.threads.map fun thread => readBytes t (submissions thread.todo)).sum

def Finished (s : TeamState) : Prop :=
  ∀ t ∈ s.threads, t.todo = [] ∧ t.worker.progress.stage = .finished

/-- The actions that are written down and not performed yet. -/
def actionsLeft (s : TeamState) : Nat := (s.threads.map fun t => t.todo.length).sum

end TeamState

namespace Job

variable {j : Job} {kernel : Kernel} {fault : Fault → Prop} {ph : Phase} {since : Nat}
  {s s' : TeamState}

/-- On every tile a kernel finishes, and is not counted as a reader, or it stops with an allowed fault. -/
def Settles (j : Job) (kernel : Kernel) (fault : Fault → Prop) : Prop :=
  ∀ k < j.tileCount, ∀ u ∈ Member.team j.settings.units, ∀ m,
    Stateful.Ends fault (fun _ m' => m'.readCount = m.readCount) (kernel u (j.callAt k) m)

/-- A kernel that finishes on every tile. -/
def Finishes (j : Job) (kernel : Kernel) : Prop := j.Settles kernel fun _ => False

/-! ## One action -/

section Act

variable {c : Cluster} {before after : List Thread} {w : Worker}

theorem burden_eq (c : Cluster) (before after : List Thread) (w : Worker) (todo : List Action)
    (t : Tier) : TeamState.burden ⟨c, before ++ ⟨w, todo⟩ :: after⟩ t =
      c.device.readTotal t + readBytes t (submissions todo) +
        ((before ++ after).map fun thread => readBytes t (submissions thread.todo)).sum := by
  simp only [TeamState.burden, TeamState.device, List.map_append, List.map_cons, List.sum_append,
    List.sum_cons]
  omega

/-- **The next action of a unit can be performed**, if its kernel finishes; then as much is left to read
as before. -/
theorem Accepted.act_ends (hj : j.Accepted) (hf : j.Settles kernel fault) {a : Action} {rest : List Action}
    (h : j.Accounted ph since c.device.queue (before ++ ⟨w, a :: rest⟩ :: after))
    (hroom : ∀ t, TeamState.burden ⟨c, before ++ ⟨w, a :: rest⟩ :: after⟩ t < wordLimit) :
    Stateful.Ends fault (fun issued c' => ∀ t,
      TeamState.burden ⟨c', before ++ ⟨{ w with issued }, rest⟩ :: after⟩ t =
        TeamState.burden ⟨c, before ++ ⟨w, a :: rest⟩ :: after⟩ t)
      (Cluster.perform kernel w.member w.issued a c) := by
  have hfits : ∀ e ∈ c.device.queue.pending, e.Fits := h.fits
  have hcount : ∀ t, c.device.memory.readCount t + readBytes t c.device.queue.pending < wordLimit := by
    intro t
    have := hroom t
    rw [burden_eq, Device.readTotal] at this
    omega
  rcases (h.running _ mem_middle).shaped.cons.2 with
    ⟨-, ⟨d, rfl⟩ | ⟨n, rfl⟩⟩ | ⟨i, rfl, ⟨rfl, -⟩ | ⟨rfl, rfl⟩⟩
  · obtain ⟨id, device, hsubmit⟩ := Device.submit_exists (d := d) h.depth hfits hcount
    obtain ⟨hsubmitted, -⟩ := Device.submit_inv h.depth
      (fun e he => (hfits e he).toAddressed) hsubmit
    refine .of_ok (Cluster.perform_submit.mpr ⟨id, device, hsubmit, rfl, rfl⟩) fun t => ?_
    have hread : device.readTotal t = c.device.readTotal t + readBytes t [d] :=
      hsubmitted.readTotal t
    have hmove : readBytes t (submissions (.submit d :: rest)) =
        readBytes t [d] + readBytes t (submissions rest) := readBytes_append t [d] _
    rw [burden_eq, burden_eq, hread, hmove]
    omega
  · cases hid : w.issued[n]? with
    | none =>
      refine .of_ok (Cluster.perform_await.mpr ⟨rfl, by rw [hid]⟩) fun t => ?_
      rw [burden_eq, burden_eq]
      rfl
    | some id =>
      obtain ⟨device, hwait⟩ := Device.wait_exists id hfits hcount
      have hretired := Device.wait_inv (fun e he => (hfits e he).toAddressed) hwait
      refine .of_ok (Cluster.perform_await.mpr ⟨rfl, by rw [hid]; exact ⟨device, hwait, rfl⟩⟩)
        fun t => ?_
      rw [burden_eq, burden_eq, hretired.readTotal]
      rfl
  · refine .of_ok (Cluster.perform_inspect.mpr ⟨_, _, _, hj.readRanges_eq h.valid,
      hj.writeRange_eq h.valid, h.no_hazard hj, rfl, rfl⟩) fun t => ?_
    rw [burden_eq, burden_eq]
    rfl
  · have hmember := h.member_mem (t := ⟨w, [.compute (j.callAt i)]⟩) mem_middle
    refine (Cluster.perform_compute_ends (hf i h.valid _ hmember c.device.memory)).mono
      (fun _ hfault => hfault) ?_
    rintro issued c' ⟨-, memory, hreads, rfl⟩ t
    rw [burden_eq, burden_eq]
    simp only [Device.readTotal, hreads]
    rfl

end Act

/-! ## The state of a phase -/

/-- The leader is in every team. -/
theorem leader_mem (units : Nat) : (⟨0, max units 1⟩ : Member) ∈ Member.team units :=
  Member.mem_team.mpr ⟨Nat.lt_of_lt_of_le Nat.zero_lt_one (Nat.le_max_right units 1), rfl⟩

theorem stageOf_eq_finished (h : j.stageOf ph = .finished) : ph = .finished := by
  cases ph with
  | finished => rfl
  | fetch i => cases i <;> cases h
  | stageIn | prologue | compute i | stageOut => cases h

namespace InPhase

theorem leader_exists (h : j.InPhase ph s) :
    ∃ t ∈ s.threads, t.worker.member = ⟨0, max j.settings.units 1⟩ := by
  obtain ⟨since, haccounted⟩ := h
  have hleader := leader_mem j.settings.units
  rw [← haccounted.members] at hleader
  exact List.mem_map.mp hleader

/-- A finished team is in the last phase. -/
theorem last (h : j.InPhase ph s) (hfinished : s.Finished) : j.nextPhase ph = .finished := by
  obtain ⟨t, ht, -⟩ := h.leader_exists
  obtain ⟨since, haccounted⟩ := h
  refine stageOf_eq_finished (j := j) ?_
  rw [← (haccounted.running t ht).stands.stage]
  exact (hfinished t ht).2

/-- A team that has nothing to do before its last barrier is finished. -/
theorem finished_of_done (h : j.InPhase ph s) (hdone : ∀ t ∈ s.threads, t.todo = [])
    (hlast : j.nextPhase ph = .finished) : s.Finished := by
  obtain ⟨since, haccounted⟩ := h
  refine fun t ht => ⟨hdone t ht, ?_⟩
  rw [(haccounted.running t ht).stands.stage, hlast]
  rfl

/-- **Every transfer has retired when a team is finished.** -/
theorem pending_eq_nil (h : j.InPhase ph s) (hfinished : s.Finished) : s.queue.pending = [] := by
  have hlast := h.last hfinished
  obtain ⟨since, haccounted⟩ := h
  have hwaiting := haccounted.waiting fun t ht => (hfinished t ht).1
  rw [hlast] at hwaiting
  rw [List.eq_nil_iff_forall_not_mem]
  intro d hd
  obtain ⟨id, hid⟩ := Queue.mem_pending_iff.mp hd
  obtain ⟨t, ht, n, hn⟩ := hwaiting.known id d hid
  rcases (hwaiting.issued t ht n id hn).2 with hlt | hcarry
  · exact absurd hid.1 (Nat.not_le_of_lt hlt)
  · cases hcarry

end InPhase

/-- What the units of a phase have to submit is what the team sends. -/
theorem burden_of_begins {c : Cluster} {threads : List Thread}
    (hmembers : threads.map (·.worker.member) = Member.team j.settings.units)
    (hbegins : ∀ t ∈ threads, j.Begins ph t) (tier : Tier) :
    TeamState.burden ⟨c, threads⟩ tier = c.device.readTotal tier + j.teamBytes tier ph := by
  have hsends : ∀ t ∈ threads, readBytes tier (submissions t.todo) =
      readBytes tier (j.sends t.worker.member ph) :=
    fun t ht => readBytes_perm (submissions_of_begins (hbegins t ht))
  simp only [TeamState.burden, TeamState.device, teamBytes, ← hmembers, List.map_map]
  exact congrArg (c.device.readTotal tier + List.sum ·) (List.map_congr_left hsends)

/-- A phase goes on, with room in the read counters for all that the run still reads. -/
structure Underway (j : Job) (ph : Phase) (s : TeamState) : Prop where
  phase : j.InPhase ph s
  room : ∀ t, s.burden t + j.reads t < wordLimit + readBytes t (j.before (j.nextPhase ph))

/-- A phase begins with room for what is read in it and after it. -/
theorem Accepted.underway_of_begins (hj : j.Accepted) {c : Cluster} {threads : List Thread}
    (h : j.InPhase ph ⟨c, threads⟩) (hbegins : ∀ t ∈ threads, j.Begins ph t)
    (hroom : ∀ t, c.device.readTotal t + j.reads t < wordLimit + readBytes t (j.before ph)) :
    j.Underway ph ⟨c, threads⟩ := by
  refine ⟨h, fun t => ?_⟩
  obtain ⟨since, haccounted⟩ := h
  have hmembers : threads.map (·.worker.member) = Member.team j.settings.units := haccounted.members
  have hburden := burden_of_begins (c := c) hmembers hbegins t
  have hnext := hj.readBytes_next t haccounted.valid haccounted.going
  have hstart := hroom t
  omega

theorem before_firstPhase (j : Job) : j.before j.firstPhase = [] := by
  unfold firstPhase
  cases hext : j.params.slowIsExternal <;>
    simp [before, staged, hext, loaded, supplied, written, inputs, weights, outputs]

/-- The read counters of a memory have room for what a run reads. -/
def Room (j : Job) (m : Memory) : Prop := ∀ t, m.readCount t + j.reads t < wordLimit

theorem Accepted.underway_started (hj : j.Accepted) (c : Cluster) (hroom : j.Room c.device.memory) :
    j.Underway j.firstPhase (j.started c) := by
  obtain ⟨hphase, hbegins⟩ := hj.inPhase_started c
  refine hj.underway_of_begins hphase hbegins fun t => ?_
  rw [before_firstPhase]
  exact hroom t

/-- Counters that are not near their limit have room for a run with a small scratchpad. -/
theorem Fit.room (hj : j.Fit) {m : Memory} (hlow : ∀ t, m.readCount t < 0x8000000000000000) :
    j.Room m := by
  intro t
  obtain ⟨⟨since, haccounted⟩, -⟩ := hj.inPhase_started (default : Cluster)
  have hreads := hj.reads_le t haccounted.valid
  have hahead := hj.ahead_lt j.firstPhase
  have hstart := hlow t
  have hnone : readBytes t (j.before j.firstPhase) = 0 := by
    rw [before_firstPhase]
    rfl
  unfold wordLimit
  omega

section Step

variable {c c' : Cluster} {before after : List Thread} {w : Worker} {a : Action}
  {rest : List Action} {issued : Array Nat}

theorem Accepted.underway_act (hj : j.Accepted) (hf : j.Settles kernel fault)
    (h : j.Underway ph ⟨c, before ++ ⟨w, a :: rest⟩ :: after⟩) :
    Stateful.Ends fault
      (fun issued c' => j.Underway ph ⟨c', before ++ ⟨{ w with issued }, rest⟩ :: after⟩)
      (Cluster.perform kernel w.member w.issued a c) := by
  obtain ⟨⟨since, haccounted⟩, hroom⟩ := h
  have hlow : ∀ t, TeamState.burden ⟨c, before ++ ⟨w, a :: rest⟩ :: after⟩ t < wordLimit := by
    intro t
    have hbefore := hj.readBytes_le_reads t (valid_next haccounted.valid)
    have hmine := hroom t
    omega
  have hends := hj.act_ends hf haccounted hlow
  cases hact : Cluster.perform kernel w.member w.issued a c with
  | error f c' =>
    rw [hact] at hends
    exact hends
  | ok issued c' =>
    rw [hact] at hends
    refine ⟨⟨since, hj.accounted_act haccounted (hj.performed haccounted hact)⟩, fun t => ?_⟩
    rw [hends t]
    exact hroom t

theorem Accepted.underway_meet (hj : j.Accepted) {threads : List Thread} (h : j.Underway ph ⟨c, threads⟩)
    (hdone : ∀ t ∈ threads, t.todo = []) (hnext : j.nextPhase ph ≠ .finished) :
    j.Underway (j.nextPhase ph)
      ⟨{ c with barrier := c.barrier.meet }, threads.map fun t => t.worker.load j⟩ := by
  obtain ⟨⟨since, haccounted⟩, hroom⟩ := h
  obtain ⟨hphase, hbegins⟩ := hj.accounted_meet haccounted hdone hnext
  exact hj.underway_of_begins hphase (List.forall_mem_map.mpr hbegins) fun t =>
    Nat.lt_of_le_of_lt (Nat.add_le_add_right (Nat.le_add_right _ _) _) (hroom t)

end Step

/-! ## The barriers ahead -/

theorem left_of_last (hph : j.Valid ph) (hgoing : ph ≠ .finished)
    (hlast : j.nextPhase ph = .finished) : j.left ph = 0 := by
  rcases left_next hph hgoing with ⟨hzero, -⟩ | ⟨-, hnext⟩
  · exact hzero
  · exact absurd hlast hnext

theorem left_of_next (hph : j.Valid ph) (hgoing : ph ≠ .finished)
    (hnext : j.nextPhase ph ≠ .finished) : j.left ph = j.left (j.nextPhase ph) + 1 := by
  rcases left_next hph hgoing with ⟨-, hlast⟩ | ⟨hleft, -⟩
  · exact absurd hlast hnext
  · exact hleft

theorem left_first (j : Job) : j.left j.firstPhase = j.barriers j.tileCount := by
  unfold firstPhase barriers
  cases hext : j.params.slowIsExternal <;> simp [left, hext] <;> omega

/-! ## Every order of the units -/

/-- **A step goes on in a phase or passes a barrier.** -/
theorem Accepted.underway_step (hj : j.Accepted) (hf : j.Settles kernel fault) (hstep : j.Step kernel s s')
    (h : j.Underway ph s) : (j.Underway ph s' ∧ s'.actionsLeft < s.actionsLeft) ∨
      (j.Underway (j.nextPhase ph) s' ∧ j.left ph = j.left (j.nextPhase ph) + 1) := by
  cases hstep with
  | @act c c' before after t a rest issued htodo hact =>
    obtain ⟨w, todo⟩ := t
    cases htodo
    have hends := hj.underway_act hf h
    rw [hact] at hends
    exact .inl ⟨hends, by simp [TeamState.actionsLeft]⟩
  | meet hdone hmore =>
    obtain ⟨since, haccounted⟩ := h.phase
    have hnext := haccounted.next_ne_finished hmore
    exact .inr ⟨hj.underway_meet h hdone hnext,
      left_of_next haccounted.valid haccounted.going hnext⟩

theorem Accepted.underway_acc (hj : j.Accepted) (hf : j.Settles kernel fault) (h : j.Underway ph s) :
    Acc (fun s' s => j.Step kernel s s') s := by
  -- barriers count first, then the actions before the next one
  induction hleft : j.left ph using Nat.strong_induction_on generalizing ph s with
  | _ n outer =>
    induction hactions : s.actionsLeft using Nat.strong_induction_on generalizing s with
    | _ m inner =>
      refine Acc.intro s fun s' hstep => ?_
      rcases hj.underway_step hf hstep h with ⟨hnext, hfewer⟩ | ⟨hnext, hbarrier⟩
      · exact inner _ (by omega) hnext rfl
      · exact outer _ (by omega) hnext rfl

theorem Accepted.underway_reaches (hj : j.Accepted) (hf : j.Settles kernel fault)
    (hreach : j.Reaches kernel s s') (h : j.Underway ph s) : ∃ ph', j.Underway ph' s' := by
  induction hreach with
  | refl => exact ⟨ph, h⟩
  | tail _ hstep ih =>
    obtain ⟨ph', h'⟩ := ih
    rcases hj.underway_step hf hstep h' with ⟨hnext, -⟩ | ⟨hnext, -⟩
    · exact ⟨_, hnext⟩
    · exact ⟨_, hnext⟩

/-- **A team that cannot go on has finished.** -/
theorem Accepted.underway_end (hj : j.Accepted) (hf : j.Finishes kernel) (h : j.Underway ph s)
    (hstuck : ∀ s', ¬ j.Step kernel s s') : s.Finished := by
  obtain ⟨c, threads⟩ := s
  have hdone : ∀ t ∈ threads, t.todo = [] := by
    intro t ht
    obtain ⟨w, todo⟩ := t
    cases todo with
    | nil => rfl
    | cons a rest =>
      obtain ⟨before, after, rfl⟩ := List.append_of_mem ht
      obtain ⟨issued, c', hact, -⟩ := (hj.underway_act hf h).ok_of_never fun _ => id
      exact absurd (Step.act rfl hact) (hstuck _)
  refine fun t ht => ⟨hdone t ht, Classical.byContradiction fun hstage => ?_⟩
  exact hstuck _ (Step.meet hdone ⟨t, ht, hstage⟩)

end Job

end TileStream
