import TileStream.Proofs.Kernel.Confined
import TileStream.Proofs.Run.Bookkeeping
import TileStream.Proofs.Run.WholeRun
import TileStream.Proofs.Transfer.RegionCounts

/-! # The regions during a run

An action of a unit changes the regions only by the transfers that retire in it,
as long as its kernel leaves them alone (`Cluster.charged_perform`). So at any
moment the regions are those of the start, charged with what has retired, and
this, the queue and what units have still to submit are together what the
manifests up to this phase list (`Charges`). When the team of a reserved scratchpad
has finished, its regions are the parts of the partition, charged with all transfers
of the layer in some order (`charged_of_reserved`). -/
namespace TileStream

/-- A kernel that leaves the regions of every tier as they are. -/
def Kernel.KeepsRegions (kernel : Kernel) : Prop := ∀ {u call m m'},
  kernel u call m = .ok () m' → ∀ t, (Memory.bank m' t).regions = (Memory.bank m t).regions

/-! ## The depthwise kernel -/

namespace Depthwise

theorem store_regions {output : Nat} {values : List (Nat × UInt8)} {m m' : Memory}
    (h : store output values m = .ok () m') (t : Tier) :
    (m'.bank t).regions = (m.bank t).regions := by
  induction values generalizing m with
  | nil =>
    cases h
    rfl
  | cons v values ih =>
    obtain ⟨-, mid, hwrite, hrest⟩ := store_cons.mp h
    exact (ih hrest).trans (Memory.onBank_keeps_regions Bank.write_regions hwrite t)

theorem kernel_keepsRegions : Kernel.KeepsRegions kernel := by
  intro u call m m' h t
  obtain ⟨share, -, ⟨-, rfl⟩ | ⟨-, operands, values, -, -, hstore⟩⟩ := kernel_inv h
  · rfl
  · exact store_regions hstore t

end Depthwise

/-! ## Actions -/

/-- **What an action does to the regions.** -/
theorem Cluster.charged_perform {kernel : Kernel} (hkernel : kernel.KeepsRegions) {u : Member}
    {issued issued' : Array Nat} {a : Action} {c c' : Cluster}
    (h : perform kernel u issued a c = .ok issued' c') :
    ∃ gone, Device.Charged gone (submissions [a]) c.device c'.device := by
  cases a with
  | submit d =>
    obtain ⟨id, device, hsubmit, -, rfl⟩ := perform_submit.mp h
    exact Device.charged_submit hsubmit
  | await n =>
    obtain ⟨-, hawait⟩ := perform_await.mp h
    cases hid : issued[n]? with
    | none =>
      rw [hid] at hawait
      cases hawait
      exact ⟨[], .refl _⟩
    | some id =>
      rw [hid] at hawait
      obtain ⟨device, hwait, rfl⟩ := hawait
      exact Device.charged_retire hwait
  | inspect call =>
    obtain ⟨_, _, _, -, -, -, -, rfl⟩ := perform_inspect.mp h
    exact ⟨[], .refl _⟩
  | compute call =>
    obtain ⟨memory, hrun, -, rfl⟩ := perform_compute.mp h
    exact ⟨[], .of_kept rfl rfl (hkernel hrun)⟩
  | stop fault => cases h

namespace Job

variable {j : Job} {kernel : Kernel} {ph : Phase} {s : TeamState} {m : Memory}

/-- The regions of a team that began on the memory `m`: they are charged with what has retired. -/
def Charges (j : Job) (m : Memory) (ph : Phase) (s : TeamState) : Prop :=
  ∃ gone, (gone ++ s.queue.pending ++ s.unsent).Perm (j.before (j.nextPhase ph)) ∧
    ∀ t, (s.device.memory.bank t).regions = gone.foldl (Descriptor.chargeAll t) (m.bank t).regions

section Act

variable {c c' : Cluster} {before after : List Thread} {w : Worker} {a : Action} {rest : List Action}
  {issued : Array Nat}

theorem charges_act (hkernel : kernel.KeepsRegions)
    (hact : Cluster.perform kernel w.member w.issued a c = .ok issued c')
    (h : j.Charges m ph ⟨c, before ++ ⟨w, a :: rest⟩ :: after⟩) :
    j.Charges m ph ⟨c', before ++ ⟨{ w with issued }, rest⟩ :: after⟩ := by
  obtain ⟨gone, hplan, hregions⟩ := h
  obtain ⟨more, hcharged⟩ := Cluster.charged_perform hkernel hact
  have hpending := hcharged.pending
  refine ⟨gone ++ more, .trans ?_ hplan, fun t => ?_⟩
  · have htodo : submissions (a :: rest) = submissions [a] ++ submissions rest :=
      submissions_append [a] rest
    -- a transfer that is submitted leaves the unit's list, one that retires leaves the queue
    rw [TeamState.unsent_middle, TeamState.unsent_middle, htodo, List.perm_iff_count]
    intro d
    have hcount := congrArg (List.count d) hpending
    simp only [TeamState.queue, List.count_append] at hcount ⊢
    omega
  · rw [List.foldl_append, ← hregions t]
    exact hcharged.regions t

end Act

/-- The charges when a phase begins. -/
theorem Accepted.charges_of_begins (hj : j.Accepted) (hph : j.Valid ph) (hgoing : ph ≠ .finished)
    {c : Cluster} {threads : List Thread}
    (hmembers : threads.map (·.worker.member) = Member.team j.settings.units)
    (hbegins : ∀ t ∈ threads, j.Begins ph t) {gone : List Descriptor}
    (hdone : (gone ++ c.device.queue.pending).Perm (j.before ph))
    (hregions : ∀ t, (c.device.memory.bank t).regions =
      gone.foldl (Descriptor.chargeAll t) (m.bank t).regions) : j.Charges m ph ⟨c, threads⟩ :=
  ⟨gone, (hdone.append (unsent_of_begins hmembers hbegins)).trans (hj.before_next hph hgoing).symm,
    hregions⟩

theorem Accepted.charges_invariant (hj : j.Accepted) (hkernel : kernel.KeepsRegions) (m : Memory) :
    j.Invariant kernel (j.Charges m) where
  act _ hact _ h := charges_act hkernel hact h
  meet {ph since c threads} haccounted hdone hnext hbegins h := by
    obtain ⟨gone, hplan, hregions⟩ := h
    rw [TeamState.unsent_of_done hdone, List.append_nil] at hplan
    have hmembers := (haccounted.waiting hdone).members_load
    exact hj.charges_of_begins (valid_next haccounted.valid) hnext hmembers
      (List.forall_mem_map.mpr hbegins) hplan hregions

theorem Accepted.charges_started (hj : j.Accepted) (c : Cluster) :
    j.Charges c.device.memory j.firstPhase (j.started c) := by
  obtain ⟨⟨since, haccounted⟩, hbegins⟩ := hj.inPhase_started c
  have hregions : ∀ t, (c.device.memory.bank t).regions =
      ([] : List Descriptor).foldl (Descriptor.chargeAll t) (c.device.memory.bank t).regions :=
    fun _ => rfl
  refine hj.charges_of_begins haccounted.valid haccounted.going haccounted.members hbegins ?_ hregions
  rw [before_firstPhase]
  exact .refl _

/-- **The regions after a run**: those of the start, charged with every transfer of the layer. The units
may have gone on in any order. -/
theorem Accepted.charged_of_finished (hj : j.Accepted) (hkernel : kernel.KeepsRegions) {c : Cluster}
    (hreach : j.Reaches kernel (j.started c) s) (hfinished : s.Finished) :
    ∃ gone : List Descriptor, gone.Perm (j.before .finished) ∧ ∀ t, (s.device.memory.bank t).regions =
      gone.foldl (Descriptor.chargeAll t) (c.device.memory.bank t).regions := by
  obtain ⟨ph, hphase, gone, hplan, hregions⟩ :=
    hj.invariant_reaches (hj.charges_invariant hkernel c.device.memory) hreach
      (hj.inPhase_started c).1 (hj.charges_started c)
  rw [hphase.pending_eq_nil hfinished, TeamState.unsent_of_done fun t ht => (hfinished t ht).1,
    List.append_nil, List.append_nil, hphase.last hfinished] at hplan
  exact ⟨gone, hplan, hregions⟩

/-- A team that has finished on a scratchpad reserved for it has charged the parts of the partition, and no
other regions, with every transfer of the layer. -/
theorem Accepted.charged_of_reserved (hj : j.Accepted) (hkernel : kernel.KeepsRegions)
    {c c₁ : Cluster}
    (hreserved : Cluster.onMemory (Memory.onBank .scratchpad j.reserve) c = .ok (.ok ()) c₁)
    (hreach : j.Reaches kernel (j.started c₁) s) (hfinished : s.Finished) :
    ∃ gone : List Descriptor, gone.Perm (j.before .finished) ∧
      (s.device.memory.bank .scratchpad).regions =
        gone.foldl (Descriptor.chargeAll .scratchpad) (j.scratch.regions.map j.region) := by
  obtain ⟨b, hreserve, hmemory⟩ := reserved_inv hreserved
  obtain ⟨gone, hplan, hregions⟩ := hj.charged_of_finished hkernel hreach hfinished
  refine ⟨gone, hplan, (hregions .scratchpad).trans ?_⟩
  rw [hmemory, Memory.bank_withBank, if_pos rfl, reserve_regions hreserve]

end Job

end TileStream
