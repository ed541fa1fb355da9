import TileStream.Proofs.Run.Completion

/-! # The lock-step run is an interleaving

What the lock-step run of a team does is a sequence of steps of the team, and it
leads to a finished state (`runTeam_inv`); so whatever holds in every state that
a team reaches holds after a run. With room in the read counters nothing but the
kernel can stop a run (`runTeam_ends`). -/
namespace TileStream

/-- A unit that waits at the barrier. -/
def Worker.idle (w : Worker) : Thread := ⟨w, []⟩

/-- The report of a team that is in a state. -/
def TeamState.report (j : Job) (s : TeamState) : Report :=
  j.report ((s.threads.head?.map (·.worker.progress)).getD j.beginning) s.cluster

namespace Job

variable {j : Job} {kernel : Kernel} {fault : Fault → Prop} {ph : Phase} {c c' : Cluster}
  {before after : List Thread} {w : Worker} {ws ws' : List Worker}

theorem idle_done {t : Thread} (ht : t ∈ ws.map Worker.idle) : t.todo = [] := by
  obtain ⟨w, -, rfl⟩ := List.mem_map.mp ht
  rfl

/-! ## Every run is an interleaving -/

theorem Accepted.segment_inv (hj : j.Accepted) {todo : List Action} {issued : Array Nat}
    (h : j.InPhase ph ⟨c, before ++ ⟨w, todo⟩ :: after⟩)
    (hrun : todo.foldlM (Cluster.perform kernel w.member) w.issued c = .ok issued c') :
    j.Reaches kernel ⟨c, before ++ ⟨w, todo⟩ :: after⟩
        ⟨c', before ++ Worker.idle { w with issued } :: after⟩ ∧
      j.InPhase ph ⟨c', before ++ Worker.idle { w with issued } :: after⟩ := by
  induction todo generalizing c w with
  | nil =>
    cases hrun
    exact ⟨.refl, h⟩
  | cons a rest ih =>
    rw [List.foldlM_cons] at hrun
    obtain ⟨issued₁, c₁, hact, hrest⟩ := Stateful.bind_eq_ok.mp hrun
    obtain ⟨since, haccounted⟩ := h
    have hnext := hj.accounted_act haccounted (hj.performed haccounted hact)
    obtain ⟨hreach, hphase⟩ := ih (w := { w with issued := issued₁ }) ⟨since, hnext⟩ hrest
    exact ⟨.head (.act rfl hact) hreach, hphase⟩

theorem Accepted.runSegments_inv (hj : j.Accepted) (before : List Thread)
    (h : j.InPhase ph ⟨c, before ++ ws.map (Worker.load j)⟩)
    (hrun : j.runSegments kernel ws c = .ok ws' c') :
    j.Reaches kernel ⟨c, before ++ ws.map (Worker.load j)⟩ ⟨c', before ++ ws'.map Worker.idle⟩ ∧
      j.InPhase ph ⟨c', before ++ ws'.map Worker.idle⟩ := by
  induction ws generalizing c before ws' with
  | nil =>
    cases hrun
    exact ⟨.refl, h⟩
  | cons w ws ih =>
    rw [runSegments, List.mapM_cons] at hrun
    obtain ⟨w', c₁, hsegment, hrun⟩ := Stateful.bind_eq_ok.mp hrun
    obtain ⟨ws₁, c₂, hrest, hrun⟩ := Stateful.bind_eq_ok.mp hrun
    cases hrun
    obtain ⟨issued, c₁', hactions, heq⟩ := Stateful.bind_eq_ok.mp hsegment
    cases heq
    obtain ⟨hreach, hphase⟩ := hj.segment_inv (w := (w.load j).worker) h hactions
    rw [List.append_cons] at hphase
    obtain ⟨hreach', hend⟩ := ih _ hphase hrest
    rw [← List.append_cons, ← List.append_cons] at hreach'
    rw [← List.append_cons] at hend
    exact ⟨hreach.trans hreach', hend⟩

theorem Accepted.lockStep_inv (hj : j.Accepted) (barriers : Nat)
    (h : j.InPhase ph ⟨c, ws.map (Worker.load j)⟩) (hleft : j.left ph = barriers)
    (hrun : j.lockStep kernel barriers ws c = .ok ws' c') :
    j.Reaches kernel ⟨c, ws.map (Worker.load j)⟩ ⟨c', ws'.map Worker.idle⟩ ∧
      ∃ ph', j.InPhase ph' ⟨c', ws'.map Worker.idle⟩ ∧ j.nextPhase ph' = .finished := by
  induction barriers generalizing ph c ws with
  | zero =>
    obtain ⟨hreach, hphase⟩ := hj.runSegments_inv [] h hrun
    refine ⟨hreach, ph, hphase, ?_⟩
    obtain ⟨since, haccounted⟩ := h
    rcases left_next haccounted.valid haccounted.going with ⟨-, hnext⟩ | ⟨hmore, -⟩
    · exact hnext
    · omega
  | succ barriers ih =>
    obtain ⟨ws₁, c₁, hsegments, hrun⟩ := Stateful.bind_eq_ok.mp hrun
    obtain ⟨hreach, hphase⟩ := hj.runSegments_inv [] h hsegments
    obtain ⟨t, ht, -⟩ := hphase.leader_exists
    obtain ⟨since, hphase⟩ := hphase
    have haccounted : j.Accounted ph since c₁.device.queue (ws₁.map Worker.idle) := hphase
    rcases left_next haccounted.valid haccounted.going with ⟨hzero, -⟩ | ⟨hmore, hnext⟩
    · omega
    · have hstage : t.worker.progress.stage ≠ .finished := by
        rw [(haccounted.running t ht).stands.stage]
        exact fun hfinished => hnext (stageOf_eq_finished hfinished)
      have hmeet : j.Step kernel ⟨c₁, ws₁.map Worker.idle⟩ _ :=
        .meet (fun t ht => idle_done ht) ⟨t, ht, hstage⟩
      obtain ⟨hloaded, -⟩ := hj.accounted_meet haccounted (fun t ht => idle_done ht) hnext
      rw [List.map_map] at hmeet hloaded
      obtain ⟨hreach', hend⟩ := ih hloaded (by omega) hrun
      exact ⟨(hreach.tail hmeet).trans hreach', hend⟩

theorem drain_of_empty {c : Cluster} (h : c.device.queue.pending = []) :
    Cluster.onDevice Device.drain c = .ok () c := by
  refine Cluster.onDevice_eq_ok.mpr ⟨c.device, ?_, rfl⟩
  rw [Device.drain_eq, h]
  rfl

/-- **A run that returns has taken the team through steps to a finished state**, which is the one that it
reports on: all transfers have retired there, and draining the queue changes nothing. -/
theorem Accepted.runTeam_inv (hj : j.Accepted) {report : Report}
    (hrun : j.runTeam kernel c = .ok report c') :
    ∃ s, j.Reaches kernel (j.started c) s ∧ s.Finished ∧ s.cluster = c' ∧ report = s.report j := by
  rw [runTeam, Stateful.bind_of_ok (Stateful.modify_apply _ _), hj.begin_eq,
    Stateful.bind_of_ok (Stateful.lift_ok _ _)] at hrun
  obtain ⟨ws, c₁, hsteps, hrun⟩ := Stateful.bind_eq_ok.mp hrun
  obtain ⟨hreach, ph, hphase, hlast⟩ :=
    hj.lockStep_inv _ (hj.inPhase_started c).1 j.left_first hsteps
  have hfinished := hphase.finished_of_done (fun t ht => idle_done ht) hlast
  rw [Stateful.bind_of_ok (drain_of_empty (hphase.pending_eq_nil hfinished)),
    Stateful.bind_of_ok (Stateful.get_apply _)] at hrun
  cases hrun
  refine ⟨_, hreach, hfinished, rfl, ?_⟩
  rw [TeamState.report, List.head?_map, Option.map_map]
  rfl

/-! ## Runs stop only with their kernel -/

theorem Accepted.finish_segment (hj : j.Accepted) (hf : j.Settles kernel fault) {todo : List Action}
    (h : j.Underway ph ⟨c, before ++ ⟨w, todo⟩ :: after⟩) :
    Stateful.Ends fault
      (fun issued c' => j.Underway ph ⟨c', before ++ Worker.idle { w with issued } :: after⟩)
      (todo.foldlM (Cluster.perform kernel w.member) w.issued c) := by
  induction todo generalizing c w with
  | nil => exact h
  | cons a rest ih =>
    rw [List.foldlM_cons]
    exact (hj.underway_act hf h).bind fun issued c' hunderway =>
      ih (w := { w with issued }) hunderway

/-- The units finish their segments one after the other. -/
theorem Accepted.finish_segments (hj : j.Accepted) (hf : j.Settles kernel fault) (before : List Thread)
    (h : j.Underway ph ⟨c, before ++ ws.map (Worker.load j)⟩) :
    Stateful.Ends fault (fun ws' c' => j.Underway ph ⟨c', before ++ ws'.map Worker.idle⟩)
      (j.runSegments kernel ws c) := by
  induction ws generalizing c before with
  | nil => exact h
  | cons w ws ih =>
    have hsegment : Stateful.Ends fault
        (fun w' c' => j.Underway ph ⟨c', before ++ w'.idle :: ws.map (Worker.load j)⟩)
        (Worker.runSegment kernel j w c) :=
      (hj.finish_segment hf (w := (w.load j).worker) h).bind fun _ _ hunderway => hunderway
    rw [runSegments, List.mapM_cons]
    refine hsegment.bind fun w' c₁ hunderway => ?_
    rw [List.append_cons] at hunderway
    refine (ih _ hunderway).bind fun ws' c' hend => ?_
    rw [← List.append_cons] at hend
    exact hend

/-- The lock-step run of a team finishes its last phase. -/
theorem Accepted.finish_lockStep (hj : j.Accepted) (hf : j.Settles kernel fault) (barriers : Nat)
    (h : j.Underway ph ⟨c, ws.map (Worker.load j)⟩) (hleft : j.left ph = barriers) :
    Stateful.Ends fault (fun _ _ => True) (j.lockStep kernel barriers ws c) := by
  induction barriers generalizing ph c ws with
  | zero => exact (hj.finish_segments hf [] h).mono (fun _ hfault => hfault) fun _ _ _ => trivial
  | succ barriers ih =>
    refine (hj.finish_segments hf [] h).bind fun ws₁ c₁ hunderway => ?_
    obtain ⟨since, haccounted⟩ := h.phase
    rcases left_next haccounted.valid haccounted.going with ⟨hzero, -⟩ | ⟨hmore, hnext⟩
    · omega
    · have hmet := hj.underway_meet hunderway (fun t ht => idle_done ht) hnext
      rw [List.nil_append, List.map_map] at hmet
      rw [Stateful.bind_of_ok (Stateful.modify_apply _ _)]
      exact ih hmet (by omega)

/-- **A team runs to the end**, unless its kernel stops it. -/
theorem Accepted.runTeam_ends (hj : j.Accepted) (hf : j.Settles kernel fault)
    (hroom : j.Room c.device.memory) :
    Stateful.Ends fault (fun _ _ => True) (j.runTeam kernel c) := by
  rw [runTeam, Stateful.bind_of_ok (Stateful.modify_apply _ _), hj.begin_eq,
    Stateful.bind_of_ok (Stateful.lift_ok _ _)]
  have hsteps := hj.finish_lockStep hf _ (hj.underway_started c hroom) j.left_first
  show Stateful.Ends fault _
    ((j.lockStep kernel (j.barriers j.tileCount) (j.workers j.beginning) >>= _) (j.reset c))
  cases hrun : j.lockStep kernel (j.barriers j.tileCount) (j.workers j.beginning) (j.reset c) with
  | error f c' =>
    rw [hrun] at hsteps
    rw [Stateful.bind_of_error hrun]
    exact hsteps
  | ok ws c' =>
    obtain ⟨-, ph, hphase, hlast⟩ := hj.lockStep_inv _ (hj.inPhase_started c).1 j.left_first hrun
    have hfinished := hphase.finished_of_done (fun t ht => idle_done ht) hlast
    rw [Stateful.bind_of_ok hrun,
      Stateful.bind_of_ok (drain_of_empty (hphase.pending_eq_nil hfinished)),
      Stateful.bind_of_ok (Stateful.get_apply _)]
    exact trivial

end Job

end TileStream
