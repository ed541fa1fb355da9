import TileStream.Proofs.Run.Steps

/-! # The invariant of every interleaving

`Correct` ties what the units have left to do, what is queued and what memory
will hold once the queue has been retired. It holds when a team starts and every
step keeps it (`correct_step`), so it holds in every state that a team reaches. -/
namespace TileStream

/-- The bytes once the queue has been retired. -/
def Device.settled (s : Device) : Image := s.memory.image.applyAll s.queue.pending

namespace Device

variable {s s' : Device} {d : Descriptor}

theorem Retired.settled {n : Nat} (h : Retired n s s') : s'.settled = s.settled := by
  have hsplit := s.memory.image.applyAll_append (s.queue.pending.take n) (s.queue.pending.drop n)
  rw [List.take_append_drop] at hsplit
  unfold Device.settled
  rw [h.image, h.queue, hsplit]
  rfl

theorem Submitted.settled (h : Submitted d s s') : s'.settled = d.apply s.settled := by
  have hsplit := s.memory.image.applyAll_append (s.queue.pending.take s.queue.overflow)
    (s.queue.pending.drop s.queue.overflow)
  rw [List.take_append_drop] at hsplit
  unfold Device.settled
  rw [h.image, h.queue, hsplit]
  exact Image.applyAll_append _ _ [d]

end Device

namespace Job

variable {j : Job} {kernel : Kernel} {img₀ x : Image} {aim : Aim}

/-- A kernel that reaches an aim: on the loaded slots of a tile it leaves good values in the bytes that
a unit owns, and spoils no good value of another. -/
structure Serves (j : Job) (kernel : Kernel) (x : Image) (aim : Aim) : Prop where
  confined : kernel.Confined
  owned : ∀ k p, aim.owner k p ∈ Member.team j.settings.units
  yields : ∀ k < j.tileCount, ∀ u ∈ Member.team j.settings.units, ∀ m m', j.Loaded x k m.image →
    kernel u (j.callAt k) m = .ok () m' → ∀ p < (j.outputStore k).byteCount, aim.owner k p = u →
      aim.good ((j.outputStore k).target p) (m'.image ((j.outputStore k).source p))
  spares : ∀ k < j.tileCount, ∀ u ∈ Member.team j.settings.units, ∀ m m', j.Loaded x k m.image →
    kernel u (j.callAt k) m = .ok () m' → ∀ p < (j.outputStore k).byteCount, aim.owner k p ≠ u →
      aim.good ((j.outputStore k).target p) (m.image ((j.outputStore k).source p)) →
      aim.good ((j.outputStore k).target p) (m'.image ((j.outputStore k).source p))

/-- A phase of transfers that began with the bytes `start`; the team has submitted `sent` of it. -/
structure Moved (j : Job) (ph : Phase) (s : TeamState) (start : Image) (sent : List Descriptor) :
    Prop where
  parts : ∀ d ∈ sent, ∃ u ∈ Member.team j.settings.units, d ∈ j.sends u ph
  rest : ∀ t ∈ s.threads, ∀ d ∈ j.sends t.worker.member ph, d ∈ submissions t.todo ∨ d ∈ sent
  settled : s.device.settled = start.applyAll sent

/-- A phase of transfers that began with bytes of which `R` holds. -/
def Moving (j : Job) (R : Image → Prop) (ph : Phase) (s : TeamState) : Prop :=
  ∃ start sent, R start ∧ j.Moved ph s start sent

/-- The computation of tile `i`: bytes that are not good yet are still to be computed. -/
structure Produced (j : Job) (x : Image) (aim : Aim) (i : Nat) (s : TeamState) : Prop where
  computing : j.Computing x aim i s.device.settled
  results : ∀ p < (j.outputStore i).byteCount,
    aim.good ((j.outputStore i).target p) (s.device.settled ((j.outputStore i).source p)) ∨
      j.Owes i (aim.owner i p) s.threads

/-- What memory will hold, in the course of a phase. -/
def Contents (j : Job) (img₀ : Image) (aim : Aim) : Phase → TeamState → Prop
  | .compute i, s => j.Produced (j.fed img₀) aim i s
  | ph, s => j.Moving (j.Ready img₀ aim ph) ph s

/-- The state of a team in a phase of a run that began with the bytes `img₀`. -/
structure Correct (j : Job) (img₀ : Image) (aim : Aim) (ph : Phase) (since : Nat) (s : TeamState) :
    Prop where
  accounted : j.Accounted ph since s.queue s.threads
  contents : j.Contents img₀ aim ph s
  hazards : s.cluster.hazards = 0

theorem contents_moves {ph : Phase} (hmoves : ∀ i, ph ≠ .compute i) {s : TeamState} :
    j.Contents img₀ aim ph s ↔ j.Moving (j.Ready img₀ aim ph) ph s := by
  cases ph with
  | compute i => exact absurd rfl (hmoves i)
  | stageIn | prologue | fetch i | stageOut | finished => rfl

/-! ## Phases of transfers -/

section Moving

variable {R : Image → Prop} {ph : Phase} {since : Nat}

/-- A phase begins with what memory will hold by then. -/
theorem moving_of_begins (hmoves : ∀ i, ph ≠ .compute i) {c : Cluster} {threads : List Thread}
    (hbegins : ∀ t ∈ threads, j.Begins ph t) (hstart : R c.device.settled) :
    j.Moving R ph ⟨c, threads⟩ :=
  ⟨c.device.settled, [], hstart, fun d hd => (by cases hd),
    fun t ht _ hd => .inl (((begins_moves hmoves).mp (hbegins t ht)).mem_iff.mpr hd), rfl⟩

theorem Moving.act {c c' : Cluster} {before after : List Thread} {w : Worker} {a : Action}
    {rest : List Action} {issued : Array Nat} (hmoves : ∀ i, ph ≠ .compute i)
    (haccounted : j.Accounted ph since c.device.queue (before ++ ⟨w, a :: rest⟩ :: after))
    (hact : j.Performed kernel ph w.member w.issued c a issued c')
    (h : j.Moving R ph ⟨c, before ++ ⟨w, a :: rest⟩ :: after⟩) :
    j.Moving R ph ⟨c', before ++ ⟨{ w with issued }, rest⟩ :: after⟩ := by
  obtain ⟨start, sent, hstart, hmoved⟩ := h
  have hmember := haccounted.member_mem (t := ⟨w, a :: rest⟩) mem_middle
  cases hact with
  | @submit d device _ hsend hsubmitted =>
    refine ⟨start, sent ++ [d], hstart, ?_, ?_, ?_⟩
    · intro e he
      rcases List.mem_append.mp he with hold | hnew
      · exact hmoved.parts e hold
      · rw [List.mem_singleton.mp hnew]
        exact ⟨w.member, hmember, hsend⟩
    · intro t ht e he
      rcases mem_replace _ _ ht with rfl | hold
      · rcases hmoved.rest _ mem_middle e he with htodo | hsent
        · rcases List.mem_cons.mp htodo with rfl | hin
          · exact .inr (List.mem_append_right _ (List.mem_singleton_self _))
          · exact .inl hin
        · exact .inr (List.mem_append_left _ hsent)
      · exact (hmoved.rest t hold e he).imp_right (List.mem_append_left _)
    · rw [Image.applyAll_append, ← hmoved.settled]
      exact hsubmitted.settled
  | @await n retired device _ hretired _ _ =>
    -- waiting changes nothing that was to come
    refine ⟨start, sent, hstart, hmoved.parts, ?_, ?_⟩
    · intro t ht e he
      rcases mem_replace _ _ ht with rfl | hold
      · exact hmoved.rest _ mem_middle e he
      · exact hmoved.rest t hold e he
    · rw [← hmoved.settled]
      exact hretired.settled
  | inspect hph => exact absurd hph (hmoves _)
  | compute hph _ => exact absurd hph (hmoves _)

/-- When all units wait at the barrier, the transfers of the phase have all been submitted. -/
theorem Moving.done (hj : j.Accepted) {s : TeamState}
    (haccounted : j.Accounted ph since s.queue s.threads) (h : j.Moving R ph s)
    (hdone : ∀ t ∈ s.threads, t.todo = []) :
    ∃ start sent, R start ∧ Covers sent (j.wholes ph) ∧ s.device.settled = start.applyAll sent := by
  obtain ⟨start, sent, hstart, hmoved⟩ := h
  refine ⟨start, sent, hstart, hj.sends_cover haccounted.valid fun d => ⟨hmoved.parts d, ?_⟩,
    hmoved.settled⟩
  rintro ⟨u, hu, hd⟩
  rw [← haccounted.members] at hu
  obtain ⟨t, ht, rfl⟩ := List.mem_map.mp hu
  rcases hmoved.rest t ht d hd with htodo | hsent
  · rw [hdone t ht] at htodo
    cases htodo
  · exact hsent

end Moving

/-! ## From phase to phase -/

/-- A team that waits before a phase with memory ready for it begins the phase. -/
theorem Separate.correct_load (hj : j.Separate)
    (howned : ∀ k p, aim.owner k p ∈ Member.team j.settings.units)
    {ph : Phase} {c : Cluster} {threads : List Thread} (h : j.Waiting ph c.device.queue threads)
    (hgoing : ph ≠ .finished) (hready : j.Ready img₀ aim ph c.device.settled)
    (hhazards : c.hazards = 0) :
    ∃ since, j.Correct img₀ aim ph since ⟨c, threads.map fun t => t.worker.load j⟩ := by
  obtain ⟨⟨since, haccounted⟩, hbegins⟩ := hj.accounted_load h hgoing
  refine ⟨since, haccounted, ?_, hhazards⟩
  have hbegins' := List.forall_mem_map.mpr hbegins
  rcases ph.compute_or_moves with ⟨i, rfl⟩ | hmoves
  · refine ⟨hready, fun p _ => .inr (owes_of_begins hbegins' ?_)⟩
    rw [h.members_load]
    exact howned i p
  · exact (contents_moves hmoves).mpr (moving_of_begins hmoves hbegins' hready)

/-- When all units wait at the barrier, memory is ready for the next phase. -/
theorem Separate.ready_of_done (hj : j.Separate) {ph : Phase} {since : Nat} {s : TeamState}
    (h : j.Correct img₀ aim ph since s) (hdone : ∀ t ∈ s.threads, t.todo = []) :
    j.Ready img₀ aim (j.nextPhase ph) s.device.settled := by
  have haccounted := h.accounted
  rcases ph.compute_or_moves with ⟨i, rfl⟩ | hmoves
  · obtain ⟨hcomputing, hresults⟩ := h.contents
    have hcomputed : j.Computed aim i s.device.settled := by
      intro p hp
      exact (hresults p hp).resolve_right (not_owes_of_done hdone)
    exact ⟨hcomputing.sources, hcomputing.next, fun k hk => hcomputing.stored k (by omega),
      fun k hk => by cases hk; exact hcomputed⟩
  · obtain ⟨start, sent, hready, hcover, hsettled⟩ :=
      ((contents_moves hmoves).mp h.contents).done hj.toAccepted haccounted hdone
    rw [hsettled]
    exact hj.ready_next haccounted.valid haccounted.going hmoves hcover hready

theorem Separate.correct_meet (hj : j.Separate)
    (howned : ∀ k p, aim.owner k p ∈ Member.team j.settings.units) {ph : Phase} {since : Nat}
    {c : Cluster} {threads : List Thread} (h : j.Correct img₀ aim ph since ⟨c, threads⟩)
    (hdone : ∀ t ∈ threads, t.todo = [])
    (hmore : ∃ t ∈ threads, t.worker.progress.stage ≠ .finished) :
    ∃ since', j.Correct img₀ aim (j.nextPhase ph) since'
      ⟨{ c with barrier := c.barrier.meet }, threads.map fun t => t.worker.load j⟩ := by
  have hready := hj.ready_of_done h hdone
  exact hj.correct_load howned (h.accounted.waiting hdone) (h.accounted.next_ne_finished hmore)
    hready h.hazards

/-! ## Actions -/

section Act

variable {ph : Phase} {since : Nat} {c c' : Cluster} {before after : List Thread} {w : Worker}
  {rest : List Action}

/-- The slots of the tile hold what they will hold: nothing in the queue concerns them. -/
theorem Accepted.settled_inCall (hj : j.Accepted) {i : Nat} {d : Device} {threads : List Thread}
    (h : j.Accounted (.compute i) since d.queue threads) {e : Endpoint} (he : j.InCall i e) :
    d.settled e = d.memory.image e :=
  Image.applyAll_of_untouched _ (h.untouched hj (hj.call_untouched h.valid he))

theorem Separate.loaded_now (hj : j.Separate) {i : Nat} {s : TeamState}
    (h : j.Correct img₀ aim (.compute i) since s) :
    j.Loaded (j.fed img₀) i s.image :=
  hj.loaded_kept h.accounted.valid h.contents.computing.loaded fun _ he _ =>
    (hj.settled_inCall h.accounted he).symm

/-- What is written into the output slot of the tile changes nothing else that is to come: no transfer in
the queue reads from there. -/
theorem Accepted.settled_frame (hj : j.Accepted) {i : Nat} {threads : List Thread} {memory : Memory}
    (h : j.Accounted (.compute i) since c.device.queue threads)
    (hframe : ∀ e, ¬ (j.callAt i).Writes e → memory.image e = c.device.memory.image e)
    {e : Endpoint} (he : ¬ j.InSlot .output (.of i) e) :
    memory.image.applyAll c.device.queue.pending e = c.device.settled e := by
  refine Image.applyAll_frame hframe (fun e' hwrite => ?_)
    fun hwrite => he (hj.writes_inSlot h.valid hwrite)
  exact h.unread hj (hj.output_unread h.valid (hj.writes_inSlot h.valid hwrite))

/-- What a tile is computed from lies outside its output slot. -/
theorem Accepted.computing_kept (hj : j.Accepted) {x img img' : Image} {i : Nat} (hi : i < j.tileCount)
    (h : j.Computing x aim i img)
    (hquiet : ∀ e, ¬ j.InSlot .output (.of i) e → img' e = img e) : j.Computing x aim i img' := by
  have hmid : ∀ e, e.tier = .mid → img' e = img e := by
    intro e htier
    refine hquiet e fun hslot => ?_
    rw [hslot.1] at htier
    cases htier
  refine ⟨?_, ?_, ?_, ?_⟩
  · intro e he
    refine Eq.trans (hmid e ?_) (h.sources e he)
    rcases he with hin | hin <;> exact hin.1
  · exact hj.loaded_kept hi h.loaded fun e _ he => hquiet e he
  · refine fun hnext => hj.loaded_kept hnext (h.next hnext) fun e he hne => ?_
    refine hquiet e fun hslot => ?_
    rcases he with hs | hs | hs | hs
    · exact hj.not_inSlot (by decide) hslot _ hs
    · exact hne hs
    · exact hj.not_inSlot (by decide) hslot _ hs
    · exact hj.not_inSlot (by decide) hslot _ hs
  · intro k hlt p hp
    rw [hmid _ (hj.outputStore_moves (Nat.lt_trans hlt hi) hp).2.1]
    exact h.stored k hlt p hp

theorem Separate.correct_compute (hj : j.Separate) (hk : j.Serves kernel (j.fed img₀) aim) {i : Nat}
    {memory : Memory} {calls : Array (Nat × Call)}
    (h : j.Correct img₀ aim (.compute i) since
      ⟨c, before ++ ⟨w, .compute (j.callAt i) :: rest⟩ :: after⟩)
    (hafter : j.Accounted (.compute i) since c.device.queue (before ++ ⟨w, rest⟩ :: after))
    (hrun : kernel w.member (j.callAt i) c.device.memory = .ok () memory) :
    j.Correct img₀ aim (.compute i) since ⟨{ c with device := ⟨memory, c.device.queue⟩, calls },
      before ++ ⟨w, rest⟩ :: after⟩ := by
  have haccounted := h.accounted
  have hi : i < j.tileCount := haccounted.valid
  have hmember : w.member ∈ Member.team j.settings.units :=
    haccounted.member_mem (t := ⟨w, _⟩) mem_middle
  have hloaded : j.Loaded (j.fed img₀) i c.device.memory.image := hj.loaded_now h
  obtain ⟨hcomputing, hresults⟩ := h.contents
  refine ⟨hafter, ⟨hj.computing_kept hi hcomputing fun e he =>
    hj.settled_frame haccounted (hk.confined.frame _ _ _ _ rfl hrun) he, fun p hp => ?_⟩, h.hazards⟩
  -- a byte of the tile is good already, or this unit owns it, or another one will compute it
  have hslot : j.InCall i ((j.outputStore i).source p) :=
    .inr (.inl (hj.outputStore_moves hi hp).1)
  have hbefore : c.device.settled ((j.outputStore i).source p) =
      c.device.memory.image ((j.outputStore i).source p) := hj.settled_inCall haccounted hslot
  have hsettled : memory.image.applyAll c.device.queue.pending ((j.outputStore i).source p) =
      memory.image ((j.outputStore i).source p) :=
    Image.applyAll_of_untouched _ (haccounted.untouched hj.toAccepted (hj.call_untouched hi hslot))
  show aim.good _ (memory.image.applyAll c.device.queue.pending _) ∨ _
  rw [hsettled]
  by_cases howner : aim.owner i p = w.member
  · exact .inl (hk.yields i hi _ hmember _ _ hloaded hrun p hp howner)
  · rcases hresults p hp with hgood | howes
    · refine .inl (hk.spares i hi _ hmember _ _ hloaded hrun p hp howner ?_)
      rw [← hbefore]
      exact hgood
    · exact .inr (howes.compute.resolve_left howner)

/-- **Any action of a unit keeps the invariant**, and the phase goes on. -/
theorem Separate.correct_act (hj : j.Separate) (hk : j.Serves kernel (j.fed img₀) aim) {a : Action}
    {issued : Array Nat} (h : j.Correct img₀ aim ph since ⟨c, before ++ ⟨w, a :: rest⟩ :: after⟩)
    (hact : Cluster.perform kernel w.member w.issued a c = .ok issued c') :
    j.Correct img₀ aim ph since ⟨c', before ++ ⟨{ w with issued }, rest⟩ :: after⟩ := by
  have hperformed := hj.toAccepted.performed h.accounted hact
  have haccounted := hj.toAccepted.accounted_act h.accounted hperformed
  rcases ph.compute_or_moves with ⟨i, rfl⟩ | hmoves
  · cases hperformed with
    | submit hmoves | await hmoves => exact absurd rfl (hmoves i)
    | inspect hph =>
      cases hph
      obtain ⟨hcomputing, hresults⟩ := h.contents
      exact ⟨haccounted, ⟨hcomputing, fun p hp => (hresults p hp).imp_right Owes.inspect⟩, h.hazards⟩
    | compute hph hrun =>
      cases hph
      exact hj.correct_compute hk h haccounted hrun
  · have hcontents := ((contents_moves hmoves).mp h.contents).act hmoves h.accounted hperformed
    exact ⟨haccounted, (contents_moves hmoves).mpr hcontents, hperformed.hazards.trans h.hazards⟩

end Act

/-! ## Every step -/

/-- **A step of a team keeps the invariant.** -/
theorem Separate.correct_step (hj : j.Separate) (hk : j.Serves kernel (j.fed img₀) aim) {s s' : TeamState}
    (hstep : j.Step kernel s s') (h : ∃ ph since, j.Correct img₀ aim ph since s) :
    ∃ ph since, j.Correct img₀ aim ph since s' := by
  obtain ⟨ph, since, h⟩ := h
  cases hstep with
  | meet hdone hmore => exact ⟨_, hj.correct_meet hk.owned h hdone hmore⟩
  | @act c c' before after t a rest issued htodo hact =>
    obtain ⟨w, todo⟩ := t
    cases htodo
    exact ⟨ph, since, hj.correct_act hk h hact⟩

theorem Separate.correct_reaches (hj : j.Separate) (hk : j.Serves kernel (j.fed img₀) aim)
    {s s' : TeamState} (hreach : j.Reaches kernel s s')
    (h : ∃ ph since, j.Correct img₀ aim ph since s) :
    ∃ ph since, j.Correct img₀ aim ph since s' := by
  induction hreach with
  | refl => exact h
  | tail _ hstep ih => exact hj.correct_step hk hstep ih

/-! ## The start -/

/-- Memory is ready for the first phase as it is. -/
theorem ready_start (j : Job) (img : Image) : j.Ready img aim j.firstPhase img := by
  unfold firstPhase
  cases hext : j.params.slowIsExternal with
  | true => exact rfl
  | false =>
    intro e _
    rw [fed, if_neg (by rw [hext]; decide)]

/-- A team starts, and the state in which it starts satisfies the invariant. -/
theorem Separate.correct_start (hj : j.Separate)
    (howned : ∀ k p, aim.owner k p ∈ Member.team j.settings.units) (c : Cluster) :
    ∃ s, j.teamStart c = .ok s ∧ ∃ since, j.Correct c.device.memory.image aim j.firstPhase since s := by
  refine ⟨_, hj.toAccepted.teamStart_eq c, ?_⟩
  obtain ⟨since, hcorrect⟩ := hj.correct_load howned (c := j.reset c) j.waiting_start
    j.firstPhase_ne_finished (j.ready_start _) rfl
  rw [List.map_map] at hcorrect
  exact ⟨since, hcorrect⟩

end Job

end TileStream
