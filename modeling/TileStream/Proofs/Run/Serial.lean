import TileStream.Proofs.Run.LiveBytes
import TileStream.Proofs.Run.Schedules

/-! # The run without a queue

`serial` is what memory would hold before each phase if every transfer moved its
bytes as soon as it is submitted, and if all units computed a tile from the same
bytes. It knows of no queue, no order of the units and no policy for writing
back. `Tracks` ties a team to it: on the bytes that matter, memory will be that
of the serial run once the queue has been retired. Every step keeps this when
the kernel keeps its contract, so a team that has finished has left what the
serial run leaves (`serial_of_finished`). -/
namespace TileStream.Job

variable {j : Job} {kernel : Kernel} {img₀ : Image} {ph : Phase} {since : Nat}

/-! ## The serial run -/

/-- The bytes after tile `i` has been computed: what some unit writes, or what was there before. -/
noncomputable def computed (j : Job) (kernel : Kernel) (i : Nat) (img : Image) : Image := fun e =>
  ((Member.team j.settings.units).findSome? fun u => kernel.written u (j.callAt i) img e).getD (img e)

/-- The bytes before the fetch of iteration `i`. -/
noncomputable def serialTile (j : Job) (kernel : Kernel) (img₀ : Image) : Nat → Image
  | 0 => (j.fed img₀).applyAll (j.wholes .prologue)
  | i + 1 => j.computed kernel i ((j.serialTile kernel img₀ i).applyAll (j.wholes (.fetch i)))

/-- The bytes before a phase of a run that began with `img₀`. -/
noncomputable def serial (j : Job) (kernel : Kernel) (img₀ : Image) : Phase → Image
  | .stageIn => img₀
  | .prologue => j.fed img₀
  | .fetch i => j.serialTile kernel img₀ i
  | .compute i => (j.serialTile kernel img₀ i).applyAll (j.wholes (.fetch i))
  | .stageOut => (j.serialTile kernel img₀ j.tileCount).applyAll (j.wholes (.fetch j.tileCount))
  | .finished =>
    let drained := (j.serialTile kernel img₀ j.tileCount).applyAll (j.wholes (.fetch j.tileCount))
    if j.params.slowIsExternal then drained.applyAll (j.wholes .stageOut) else drained

/-- The whole transfers of a phase lead from its bytes to those of the next one. -/
theorem serial_next (hph : j.Valid ph) (hgoing : ph ≠ .finished) (hmoves : ∀ i, ph ≠ .compute i) :
    j.serial kernel img₀ (j.nextPhase ph) = (j.serial kernel img₀ ph).applyAll (j.wholes ph) := by
  cases ph with
  | stageIn =>
    have hext : j.params.slowIsExternal = true := hph
    show j.fed img₀ = _
    rw [fed, if_pos hext]
    rfl
  | prologue => rfl
  | fetch i =>
    rcases Nat.lt_or_eq_of_le (show i ≤ j.tileCount from hph) with hi | rfl
    · rw [nextPhase_fetch hi]
      rfl
    · rw [nextPhase_last]
      cases hext : j.params.slowIsExternal with
      | true => rfl
      | false =>
        show (if j.params.slowIsExternal then _ else _) = _
        rw [if_neg (by rw [hext]; decide)]
        rfl
  | compute i => exact absurd rfl (hmoves i)
  | stageOut =>
    have hext : j.params.slowIsExternal = true := hph
    show (if j.params.slowIsExternal then _ else _) = _
    rw [if_pos hext]
    rfl
  | finished => exact absurd rfl hgoing

theorem serial_firstPhase (j : Job) (kernel : Kernel) (img₀ : Image) :
    j.serial kernel img₀ j.firstPhase = img₀ := by
  unfold firstPhase
  cases hext : j.params.slowIsExternal with
  | true => rfl
  | false =>
    show j.fed img₀ = img₀
    rw [fed, if_neg (by rw [hext]; decide)]

/-! ## What a team has in common with it -/

/-- The computation of tile `i` as far as it has come: a byte that no unit writes is that of the serial
run, and a byte that a unit writes has its value or is still to be computed. -/
structure Computes (j : Job) (kernel : Kernel) (x : Image) (i : Nat) (s : TeamState) : Prop where
  others : ∀ e, j.Live (.compute i) e →
    (∀ u ∈ Member.team j.settings.units, kernel.written u (j.callAt i) x e = none) →
    s.device.settled e = x e
  results : ∀ u ∈ Member.team j.settings.units, ∀ e v, kernel.written u (j.callAt i) x e = some v →
    s.device.settled e = v ∨ j.Owes i u s.threads

/-- What memory will hold, in the course of a phase. -/
def Tracks (j : Job) (kernel : Kernel) (img₀ : Image) : Phase → TeamState → Prop
  | .compute i, s => j.Computes kernel (j.serial kernel img₀ (.compute i)) i s
  | ph, s => j.Moving (fun start => j.Alike ph start (j.serial kernel img₀ ph)) ph s

theorem tracks_moves (hmoves : ∀ i, ph ≠ .compute i) {s : TeamState} :
    j.Tracks kernel img₀ ph s ↔
      j.Moving (fun start => j.Alike ph start (j.serial kernel img₀ ph)) ph s := by
  cases ph with
  | compute i => exact absurd rfl (hmoves i)
  | stageIn | prologue | fetch i | stageOut | finished => rfl

theorem tracks_of_begins {s : TeamState}
    (hmembers : s.threads.map (·.worker.member) = Member.team j.settings.units)
    (hbegins : ∀ t ∈ s.threads, j.Begins ph t)
    (hstart : j.Alike ph s.device.settled (j.serial kernel img₀ ph)) :
    j.Tracks kernel img₀ ph s := by
  rcases ph.compute_or_moves with ⟨i, rfl⟩ | hmoves
  · refine ⟨fun e he _ => hstart e he, fun u hu e v _ => .inr (owes_of_begins hbegins ?_)⟩
    rw [hmembers]
    exact hu
  · exact (tracks_moves hmoves).mpr (moving_of_begins hmoves hbegins hstart)

/-- A tile that every unit has computed is computed as in the serial run. -/
theorem Computes.alike {x : Image} {i : Nat} {s : TeamState} (h : j.Computes kernel x i s)
    (hdone : ∀ t ∈ s.threads, t.todo = []) :
    j.Alike (.fetch (i + 1)) s.device.settled (j.computed kernel i x) := by
  intro e he
  unfold computed
  cases hfound : (Member.team j.settings.units).findSome? fun u =>
      kernel.written u (j.callAt i) x e with
  | none => exact h.others e (live_compute_of_fetch he) (List.findSome?_eq_none_iff.mp hfound)
  | some v =>
    obtain ⟨u, hu, hwritten⟩ := List.exists_of_findSome?_eq_some hfound
    exact (h.results u hu e v hwritten).resolve_right (not_owes_of_done hdone)

theorem Separate.alike_of_done (hj : j.Separate) {s : TeamState}
    (haccounted : j.Accounted ph since s.queue s.threads) (h : j.Tracks kernel img₀ ph s)
    (hdone : ∀ t ∈ s.threads, t.todo = []) :
    j.Alike (j.nextPhase ph) s.device.settled (j.serial kernel img₀ (j.nextPhase ph)) := by
  rcases ph.compute_or_moves with ⟨i, rfl⟩ | hmoves
  · exact Computes.alike h hdone
  · obtain ⟨start, sent, hstart, hcover, hsettled⟩ :=
      ((tracks_moves hmoves).mp h).done hj.toAccepted haccounted hdone
    rw [hsettled, serial_next haccounted.valid haccounted.going hmoves]
    exact hj.alike_next haccounted.valid hmoves hcover (Covers.self _) hstart

section Compute

variable {c : Cluster} {before after : List Thread} {w : Worker} {rest : List Action} {x : Image}
  {i : Nat}

/-- The operands of a tile are those of the serial run: no unit writes them. -/
theorem Accepted.sameOperands (hj : j.Accepted) (hi : i < j.tileCount)
    (hkeeps : kernel.Keeps (Member.team j.settings.units) (j.callAt i)) {threads : List Thread}
    (haccounted : j.Accounted (.compute i) since c.device.queue threads)
    (h : j.Computes kernel x i ⟨c, threads⟩) :
    (j.callAt i).SameOperands c.device.memory.image x := by
  intro e he
  obtain ⟨hlive, hcall, hout⟩ := hj.live_of_mayRead hi he
  rw [← hj.settled_inCall haccounted hcall]
  refine h.others e hlive fun u hu => ?_
  cases hwritten : kernel.written u (j.callAt i) x e with
  | none => rfl
  | some v =>
    have hwrite := hkeeps.mayWrite_of_written hu hwritten
    exact absurd (hj.writes_inSlot hi (hj.writes_of_mayWrite hi hwrite)) hout

/-- **A unit that computes its part of a tile** leaves what it writes in the serial run, and everything
else as it is. -/
theorem Accepted.computes_compute (hj : j.Accepted)
    (hkeeps : kernel.Keeps (Member.team j.settings.units) (j.callAt i))
    {memory : Memory} {calls : Array (Nat × Call)}
    (haccounted : j.Accounted (.compute i) since c.device.queue
      (before ++ ⟨w, .compute (j.callAt i) :: rest⟩ :: after))
    (hrun : kernel w.member (j.callAt i) c.device.memory = .ok () memory)
    (h : j.Computes kernel x i ⟨c, before ++ ⟨w, .compute (j.callAt i) :: rest⟩ :: after⟩) :
    j.Computes kernel x i ⟨{ c with device := ⟨memory, c.device.queue⟩, calls },
      before ++ ⟨w, rest⟩ :: after⟩ := by
  have hi : i < j.tileCount := haccounted.valid
  have hmember : w.member ∈ Member.team j.settings.units :=
    haccounted.member_mem (t := ⟨w, _⟩) mem_middle
  have hsame : (j.callAt i).SameOperands c.device.memory.image x :=
    hj.sameOperands hi hkeeps haccounted h
  have hframe : ∀ e, ¬ (j.callAt i).Writes e → memory.image e = c.device.memory.image e :=
    fun e he => hkeeps.inside _ hmember _ _ hrun e fun hmay => he (hj.writes_of_mayWrite hi hmay)
  -- what memory will hold changes just where the unit writes
  have hsettled : ∀ e, memory.image.applyAll c.device.queue.pending e =
      (kernel.written w.member (j.callAt i) x e).getD (c.device.settled e) := by
    intro e
    by_cases hout : j.InSlot .output (.of i) e
    · have hquiet := haccounted.untouched hj (hj.call_untouched hi (.inr (.inl hout)))
      rw [Image.applyAll_of_untouched _ hquiet, hkeeps.effect hmember hsame hrun e,
        Device.settled, Image.applyAll_of_untouched _ hquiet]
    · rw [hj.settled_frame haccounted hframe hout]
      cases hwritten : kernel.written w.member (j.callAt i) x e with
      | none => rfl
      | some v =>
        have hwrite := hj.writes_of_mayWrite hi (hkeeps.mayWrite_of_written hmember hwritten)
        exact absurd (hj.writes_inSlot hi hwrite) hout
  refine ⟨fun e he hnone => ?_, fun u hu e v hwritten => ?_⟩
  · refine (hsettled e).trans ?_
    rw [hnone _ hmember]
    exact h.others e he hnone
  · by_cases hmine : u = w.member
    · refine .inl ((hsettled e).trans ?_)
      rw [← hmine, hwritten]
      rfl
    · refine (h.results u hu e v hwritten).imp (fun hvalue => (hsettled e).trans ?_)
        fun howes => howes.compute.resolve_left hmine
      rw [hkeeps.written_apart hu hmember hmine hwritten]
      exact hvalue

end Compute

/-! ## Every step -/

theorem Separate.tracks_invariant (hj : j.Separate) (img₀ : Image)
    (hkernel : ∀ i < j.tileCount, kernel.Keeps (Member.team j.settings.units) (j.callAt i)) :
    j.Invariant kernel (j.Tracks kernel img₀) where
  act {ph since c c' before after w a rest issued} haccounted _ hact h := by
    rcases ph.compute_or_moves with ⟨i, rfl⟩ | hmoves
    · cases hact with
      | submit hmoves | await hmoves => exact absurd rfl (hmoves i)
      | inspect hph =>
        cases hph
        exact ⟨h.others, fun u hu e v hwritten => (h.results u hu e v hwritten).imp_right Owes.inspect⟩
      | compute hph hrun =>
        cases hph
        exact hj.computes_compute (hkernel i haccounted.valid) haccounted hrun h
    · exact (tracks_moves hmoves).mpr
        (((tracks_moves hmoves).mp h).act hmoves haccounted hact)
  meet {ph since c threads} haccounted hdone _ hbegins h := by
    have hmembers := (haccounted.waiting hdone).members_load
    have halike := hj.alike_of_done haccounted h hdone
    exact tracks_of_begins hmembers (List.forall_mem_map.mpr hbegins) halike

/-- **Every order of the units leaves what the serial run leaves.** -/
theorem Separate.serial_of_finished (hj : j.Separate)
    (hkernel : ∀ i < j.tileCount, kernel.Keeps (Member.team j.settings.units) (j.callAt i))
    {c : Cluster} {s : TeamState} (hreach : j.Reaches kernel (j.started c) s)
    (hfinished : s.Finished) :
    j.Alike .finished s.image (j.serial kernel c.device.memory.image .finished) := by
  obtain ⟨hphase, hbegins⟩ := hj.inPhase_started c
  have hstart : j.Tracks kernel c.device.memory.image j.firstPhase (j.started c) := by
    obtain ⟨since, haccounted⟩ := hphase
    refine tracks_of_begins haccounted.members hbegins fun e _ => ?_
    rw [serial_firstPhase]
    rfl
  obtain ⟨ph, hend, htracks⟩ := hj.invariant_reaches
    (hj.tracks_invariant c.device.memory.image hkernel) hreach hphase hstart
  have hlast := hend.last hfinished
  have hsettled := hend.settled_of_finished hfinished
  obtain ⟨since, haccounted⟩ := hend
  have halike := hj.alike_of_done haccounted htracks fun t ht => (hfinished t ht).1
  rw [hlast, hsettled] at halike
  exact halike

end TileStream.Job
