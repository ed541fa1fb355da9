import TileStream.Proofs.Run.Hazards

/-! # What a step of a team does

`performed` lists the effects that an action can have in a phase: it queues a
transfer that the unit sends in this phase, it retires some transfers, it finds
no hazard, or it runs the kernel on the tile of the phase. A property that
each of these and every barrier keeps holds in every state that a team reaches
(`invariant_reaches`). -/
namespace TileStream.Job

variable {j : Job} {kernel : Kernel} {ph : Phase} {since : Nat}

/-! ## Actions -/

/-- What an action of a unit does in a phase to the cluster `c`, and to the numbers of the unit's own
transfers. -/
inductive Performed (j : Job) (kernel : Kernel) (ph : Phase) (u : Member) (issued : Array Nat)
    (c : Cluster) : Action → Array Nat → Cluster → Prop where
  /-- A transfer of the phase is queued. -/
  | submit {d : Descriptor} {device : Device} (hmoves : ∀ i, ph ≠ .compute i)
      (hsend : d ∈ j.sends u ph) (hsubmitted : Device.Submitted d c.device device) :
      Performed j kernel ph u issued c (.submit d) (issued.push c.device.queue.nextId)
        { c with device }
  /-- The transfers up to the one that is waited for retire. -/
  | await {n retired : Nat} {device : Device} (hmoves : ∀ i, ph ≠ .compute i)
      (hretired : Device.Retired retired c.device device)
      (hle : retired ≤ c.device.queue.pending.length)
      (hdone : ∀ id, issued[n]? = some id → id < c.device.queue.nextId →
        id < c.device.queue.retired + retired) :
      Performed j kernel ph u issued c (.await n) issued { c with device }
  /-- The leader finds no hazard. -/
  | inspect {i : Nat} (hph : ph = .compute i) :
      Performed j kernel ph u issued c (.inspect (j.callAt i)) issued c
  /-- The kernel runs on the tile of the phase. -/
  | compute {i : Nat} {memory : Memory} (hph : ph = .compute i)
      (hrun : kernel u (j.callAt i) c.device.memory = .ok () memory) :
      Performed j kernel ph u issued c (.compute (j.callAt i)) issued
        { c with
          device := ⟨memory, c.device.queue⟩
          calls := c.calls.push (u.index, j.callAt i) }

section Act

variable {c c' : Cluster} {before after : List Thread} {w : Worker} {a : Action} {rest : List Action}
  {issued : Array Nat}

/-- **Everything that an action can do.** -/
theorem Accepted.performed (hj : j.Accepted)
    (h : j.Accounted ph since c.device.queue (before ++ ⟨w, a :: rest⟩ :: after))
    (hact : Cluster.perform kernel w.member w.issued a c = .ok issued c') :
    j.Performed kernel ph w.member w.issued c a issued c' := by
  have haddressed : ∀ e ∈ c.device.queue.pending, e.Addressed := fun e he => (h.fits e he).toAddressed
  rcases (h.running _ mem_middle).shaped.cons.2 with
    ⟨hmoves, ⟨d, rfl⟩ | ⟨n, rfl⟩⟩ | ⟨i, rfl, ⟨rfl, -⟩ | ⟨rfl, -⟩⟩
  · obtain ⟨id, device, hsubmit, rfl, rfl⟩ := Cluster.perform_submit.mp hact
    obtain ⟨hsubmitted, rfl⟩ := Device.submit_inv h.depth haddressed hsubmit
    exact .submit hmoves h.sends_of_submit.2.2 hsubmitted
  · obtain ⟨rfl, hawait⟩ := Cluster.perform_await.mp hact
    cases hid : w.issued[n]? with
    | none =>
      rw [hid] at hawait
      cases hawait
      refine .await hmoves (Device.Retired.zero _) (Nat.zero_le _) fun id hsome => ?_
      rw [hid] at hsome
      cases hsome
    | some id =>
      rw [hid] at hawait
      obtain ⟨device, hwait, rfl⟩ := hawait
      refine .await hmoves (Device.wait_inv haddressed hwait) (Queue.before_le _ _)
        fun id' hsome hlt => ?_
      rw [hid] at hsome
      cases hsome
      unfold Queue.nextId at hlt
      unfold Queue.before Queue.inFlight
      omega
  · obtain ⟨reads, write, found, hreads, hwrite, hfound, rfl, rfl⟩ := Cluster.perform_inspect.mp hact
    rw [hj.readRanges_eq h.valid] at hreads
    rw [hj.writeRange_eq h.valid] at hwrite
    cases hreads
    cases hwrite
    have hnone : Cluster.countHazards c.device.queue _ = _ := h.no_hazard hj
    rw [hnone] at hfound
    cases hfound
    exact .inspect rfl
  · obtain ⟨memory, hrun, rfl, rfl⟩ := Cluster.perform_compute.mp hact
    exact .compute rfl hrun

theorem Accepted.accounted_act (hj : j.Accepted)
    (h : j.Accounted ph since c.device.queue (before ++ ⟨w, a :: rest⟩ :: after))
    (hact : j.Performed kernel ph w.member w.issued c a issued c') :
    j.Accounted ph since c'.device.queue (before ++ ⟨{ w with issued }, rest⟩ :: after) := by
  cases hact with
  | submit _ _ hsubmitted => exact h.submit hj hsubmitted
  | await _ hretired hle hdone =>
    show j.Accounted ph since (Device.queue _) _
    rw [hretired.queue]
    exact h.await hle hdone
  | inspect hph =>
    subst hph
    exact h.compute
  | compute hph =>
    subst hph
    exact h.compute

theorem Performed.hazards (h : j.Performed kernel ph w.member w.issued c a issued c') :
    c'.hazards = c.hazards := by
  cases h <;> rfl

end Act

/-! ## Units that have a tile to compute -/

/-- A unit has still to compute tile `i`. -/
def Owes (j : Job) (i : Nat) (u : Member) (threads : List Thread) : Prop :=
  ∃ t ∈ threads, t.worker.member = u ∧ .compute (j.callAt i) ∈ t.todo

section Owes

variable {i : Nat} {u : Member} {before after threads : List Thread} {w : Worker}
  {rest : List Action}

theorem owes_of_begins (hbegins : ∀ t ∈ threads, j.Begins (.compute i) t)
    (hu : u ∈ threads.map (·.worker.member)) : j.Owes i u threads := by
  obtain ⟨t, ht, hmember⟩ := List.mem_map.mp hu
  have htodo : t.todo = j.computeActions t.worker.member i := hbegins t ht
  refine ⟨t, ht, hmember, ?_⟩
  rw [htodo]
  exact List.mem_append_right _ (List.mem_singleton_self _)

theorem not_owes_of_done (hdone : ∀ t ∈ threads, t.todo = []) : ¬ j.Owes i u threads := by
  rintro ⟨t, ht, -, htodo⟩
  rw [hdone t ht] at htodo
  cases htodo

theorem Owes.inspect {call : Call}
    (h : j.Owes i u (before ++ ⟨w, .inspect call :: rest⟩ :: after)) :
    j.Owes i u (before ++ ⟨w, rest⟩ :: after) := by
  obtain ⟨t, ht, hmember, htodo⟩ := h
  rcases mem_replace ⟨w, rest⟩ _ ht with rfl | hother
  · refine ⟨_, mem_middle, hmember, ?_⟩
    rcases List.mem_cons.mp htodo with heq | hin
    · cases heq
    · exact hin
  · exact ⟨t, hother, hmember, htodo⟩

/-- The unit that computes may have been the one. -/
theorem Owes.compute {call : Call}
    (h : j.Owes i u (before ++ ⟨w, .compute call :: rest⟩ :: after)) :
    u = w.member ∨ j.Owes i u (before ++ ⟨w, rest⟩ :: after) := by
  obtain ⟨t, ht, hmember, htodo⟩ := h
  rcases mem_replace ⟨w, rest⟩ _ ht with rfl | hother
  · exact .inl hmember.symm
  · exact .inr ⟨t, hother, hmember, htodo⟩

end Owes

/-! ## Barriers -/

/-- A team is in the course of a phase. -/
def InPhase (j : Job) (ph : Phase) (s : TeamState) : Prop :=
  ∃ since, j.Accounted ph since s.queue s.threads

/-- A unit that is not finished has a phase before it. -/
theorem Accounted.next_ne_finished {q : Queue} {threads : List Thread}
    (h : j.Accounted ph since q threads)
    (hmore : ∃ t ∈ threads, t.worker.progress.stage ≠ .finished) : j.nextPhase ph ≠ .finished := by
  intro hfinished
  obtain ⟨t, ht, hstage⟩ := hmore
  refine hstage ?_
  rw [(h.running t ht).stands.stage, hfinished]
  rfl

theorem Accepted.accounted_meet (hj : j.Accepted) {c : Cluster} {threads : List Thread}
    (h : j.Accounted ph since c.device.queue threads) (hdone : ∀ t ∈ threads, t.todo = [])
    (hnext : j.nextPhase ph ≠ .finished) :
    j.InPhase (j.nextPhase ph)
        ⟨{ c with barrier := c.barrier.meet }, threads.map fun t => t.worker.load j⟩ ∧
      ∀ t ∈ threads, j.Begins (j.nextPhase ph) (t.worker.load j) :=
  hj.accounted_load (h.waiting hdone) hnext

/-! ## Runs -/

/-- What a state satisfies in a phase, and every step keeps. -/
structure Invariant (j : Job) (kernel : Kernel) (I : Phase → TeamState → Prop) : Prop where
  act : ∀ {ph : Phase} {since : Nat} {c c' : Cluster} {before after : List Thread} {w : Worker}
    {a : Action} {rest : List Action} {issued : Array Nat},
    j.Accounted ph since c.device.queue (before ++ ⟨w, a :: rest⟩ :: after) →
    Cluster.perform kernel w.member w.issued a c = .ok issued c' →
    j.Performed kernel ph w.member w.issued c a issued c' →
    I ph ⟨c, before ++ ⟨w, a :: rest⟩ :: after⟩ →
    I ph ⟨c', before ++ ⟨{ w with issued }, rest⟩ :: after⟩
  meet : ∀ {ph : Phase} {since : Nat} {c : Cluster} {threads : List Thread},
    j.Accounted ph since c.device.queue threads → (∀ t ∈ threads, t.todo = []) →
    j.nextPhase ph ≠ .finished → (∀ t ∈ threads, j.Begins (j.nextPhase ph) (t.worker.load j)) →
    I ph ⟨c, threads⟩ →
    I (j.nextPhase ph) ⟨{ c with barrier := c.barrier.meet }, threads.map fun t => t.worker.load j⟩

variable {I : Phase → TeamState → Prop} {s s' : TeamState}

theorem Accepted.invariant_step (hj : j.Accepted) (hI : j.Invariant kernel I) (hstep : j.Step kernel s s')
    (hphase : j.InPhase ph s) (h : I ph s) : ∃ ph', j.InPhase ph' s' ∧ I ph' s' := by
  obtain ⟨since, haccounted⟩ := hphase
  cases hstep with
  | @act c c' before after t a rest issued htodo hact =>
    obtain ⟨w, todo⟩ := t
    cases htodo
    have hperformed := hj.performed haccounted hact
    exact ⟨ph, ⟨since, hj.accounted_act haccounted hperformed⟩, hI.act haccounted hact hperformed h⟩
  | meet hdone hmore =>
    have hnext := haccounted.next_ne_finished hmore
    obtain ⟨hphase', hbegins⟩ := hj.accounted_meet haccounted hdone hnext
    exact ⟨_, hphase', hI.meet haccounted hdone hnext hbegins h⟩

/-- **What every step keeps holds in every state that is reached.** -/
theorem Accepted.invariant_reaches (hj : j.Accepted) (hI : j.Invariant kernel I)
    (hreach : j.Reaches kernel s s') (hphase : j.InPhase ph s) (h : I ph s) :
    ∃ ph', j.InPhase ph' s' ∧ I ph' s' := by
  induction hreach with
  | refl => exact ⟨ph, hphase, h⟩
  | tail _ hstep ih =>
    obtain ⟨ph', hphase', h'⟩ := ih
    exact hj.invariant_step hI hstep hphase' h'

/-! ## The start -/

def firstPhase (j : Job) : Phase := if j.params.slowIsExternal then .stageIn else .prologue

/-- Where every unit begins, in closed form. -/
def beginning (j : Job) : Progress where
  stage := j.stageOf j.firstPhase
  loop := j.geometry.tileGrid.loopAt 0
  submitted := 0
  landing := []
  writeback := none
  writeBacks := 0

/-- The team on a cluster before its first action, in closed form. -/
def started (j : Job) (c : Cluster) : TeamState :=
  ⟨j.reset c, (j.workers j.beginning).map (Worker.load j)⟩

theorem firstPhase_ne_finished (j : Job) : j.firstPhase ≠ .finished := by
  unfold firstPhase
  cases j.params.slowIsExternal <;> exact nofun

theorem begun_firstPhase (j : Job) : j.begun j.firstPhase = 0 := by
  unfold firstPhase
  cases j.params.slowIsExternal <;> rfl

theorem written_firstPhase (j : Job) : j.written j.firstPhase = 0 := by
  unfold firstPhase
  cases j.params.slowIsExternal <;> rfl

theorem Accepted.begin_eq (hj : j.Accepted) : j.begin = .ok j.beginning := by
  rw [begin, Geometry.grid_eq hj.tiled hj.small, Checked.ok_bind,
    TileLoop.start_eq (Geometry.tileGrid_regular hj.tiled hj.small), Checked.ok_bind]
  unfold beginning firstPhase
  cases j.params.slowIsExternal <;> rfl

theorem Accepted.teamStart_eq (hj : j.Accepted) (c : Cluster) : j.teamStart c = .ok (j.started c) := by
  rw [teamStart, hj.begin_eq, Checked.ok_bind]
  rfl

theorem waiting_start (j : Job) : j.Waiting j.firstPhase (.ofDepth j.settings.queueDepth)
    ((j.workers j.beginning).map fun w => ⟨w, []⟩) := by
  have hworker : ∀ t ∈ (j.workers j.beginning).map (fun w => (⟨w, []⟩ : Thread)),
      t.worker.progress = j.beginning ∧ t.worker.issued = #[] := by
    intro t ht
    obtain ⟨w, hw, rfl⟩ := List.mem_map.mp ht
    obtain ⟨u, -, rfl⟩ := List.mem_map.mp hw
    exact ⟨rfl, rfl⟩
  refine ⟨?_, ?_, Nat.lt_of_lt_of_le Nat.zero_lt_one (Nat.le_max_right _ 1), ?_, ?_, ?_, ?_, ?_, ?_⟩
  · unfold firstPhase
    cases hext : j.params.slowIsExternal with
    | true => exact hext
    | false => trivial
  · rw [workers, List.map_map, List.map_map]
    exact List.map_id _
  · exact fun d hd => by cases hd
  · intro t ht
    rw [(hworker t ht).1]
    refine ⟨rfl, ?_, fun _ => rfl, fun _ => ⟨rfl, rfl⟩, fun _ => rfl, j.written_firstPhase.symm⟩
    rw [j.begun_firstPhase]
    rfl
  · intro t ht
    rw [(hworker t ht).1, (hworker t ht).2]
    rfl
  · intro t ht n id hn
    rw [(hworker t ht).2] at hn
    simp at hn
  · rintro id d ⟨-, hget⟩
    cases hget
  · exact fun i _ d hd => by cases hd

theorem Accepted.inPhase_started (hj : j.Accepted) (c : Cluster) :
    j.InPhase j.firstPhase (j.started c) ∧ ∀ t ∈ (j.started c).threads, j.Begins j.firstPhase t := by
  obtain ⟨haccounted, hbegins⟩ := hj.accounted_load j.waiting_start j.firstPhase_ne_finished
  rw [List.map_map] at haccounted
  refine ⟨haccounted, fun t ht => ?_⟩
  obtain ⟨w, hw, rfl⟩ := List.mem_map.mp ht
  exact hbegins ⟨w, []⟩ (List.mem_map_of_mem hw)

end TileStream.Job
