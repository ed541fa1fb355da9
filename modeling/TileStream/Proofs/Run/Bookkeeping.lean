import TileStream.Proofs.Run.LockSteps

/-! # The books of a run

At every moment of a run the transfers that were submitted, and those that units
have still to submit in this phase, are what the manifests up to this phase list
(`Booked`); the barrier has counted every round, and the queue was never too long.
Each action and each barrier keeps the books, so at the end they hold the cargo
of the layer and nothing else. -/
namespace TileStream

/-! ## Barriers -/

namespace Barrier

/-- A barrier of `n` units after `rounds` rounds. -/
def after (n rounds : Nat) : Barrier := ⟨n, 0, rounds, n * rounds⟩

/-- The arrivals that are missing in a round complete it. -/
theorem arriveMany_missing (count : Nat) {b : Barrier}
    (hmissing : b.waiting + count + 1 = b.participants) : (arriveMany (count + 1) b).2 =
      ⟨b.participants, 0, b.completions + 1, b.arrivals + (count + 1)⟩ := by
  induction count generalizing b with
  | zero =>
    have hlast : b.participants ≤ b.waiting + 1 := by omega
    simp [arriveMany, arrive, hlast]
  | succ count ih =>
    have hmore : ¬ b.participants ≤ b.waiting + 1 := by omega
    have hstep : b.arrive = (false, { b with waiting := b.waiting + 1, arrivals := b.arrivals + 1 }) :=
      if_neg hmore
    have hrest := ih (b := { b with waiting := b.waiting + 1, arrivals := b.arrivals + 1 })
      (show b.waiting + 1 + count + 1 = b.participants by omega)
    rw [arriveMany, hstep]
    refine hrest.trans ?_
    simp only [mk.injEq, true_and]
    omega

theorem meet_after {n : Nat} (hn : 0 < n) (rounds : Nat) :
    (after n rounds).meet = after n (rounds + 1) := by
  obtain ⟨m, rfl⟩ : ∃ m, n = m + 1 := ⟨n - 1, by omega⟩
  have hmissing : (after (m + 1) rounds).waiting + m + 1 = (after (m + 1) rounds).participants := by
    simp only [after]
    omega
  refine (arriveMany_missing m hmissing).trans ?_
  simp only [after, Nat.mul_succ]

end Barrier

/-! ## The ledger of an engine -/

theorem follows_ofDepth (depth : Nat) (m : Memory) :
    Follows (max depth 1) (.start m.image) ⟨m, .ofDepth depth⟩ :=
  ⟨rfl, rfl, rfl, rfl, Nat.zero_le _, rfl, fun p => by cases p <;> rfl, rfl, rfl⟩

namespace Follows

variable {depth : Nat} {l : Ledger} {s s' : Device}

/-- A queue never holds more than its depth. -/
theorem longest_submit (h : Follows depth l s) (hdepth : 0 < depth) (hlongest : l.longest ≤ depth)
    (d : Descriptor) : (l.submit depth d).longest ≤ depth := by
  have hqueued : l.queued.length ≤ depth := by
    rw [Ledger.queued, ← h.pending]
    exact h.bounded
  unfold Ledger.submit
  split
  · rename_i hroom
    exact Nat.max_le.mpr ⟨hlongest, hroom⟩
  · refine Nat.max_le.mpr ⟨hlongest, ?_⟩
    simp only [Ledger.retireTo, Ledger.queued, List.length_drop] at hqueued ⊢
    omega

/-- Bytes that change beside the engine do not touch its books. -/
theorem rewrite (h : Follows depth l s) (m : Memory) :
    Follows depth { l with image := m.image } ⟨m, s.queue⟩ :=
  ⟨h.accepts, h.retired, h.pending, h.nextId, h.bounded, rfl, h.traffic, h.longest, h.stalls⟩

/-- An engine with an empty queue has counted every transfer. -/
theorem traffic_of_empty (h : Follows depth l s) (hempty : s.queue.pending = []) (p : Payload) :
    s.queue.traffic.of p = tally p l.submitted := by
  have hall : l.submitted.length ≤ l.retired := by
    rw [← List.drop_eq_nil_iff, ← h.pending]
    exact hempty
  rw [h.traffic, List.take_of_length_le hall]

end Follows

namespace TeamState

/-- What units have still to submit before the next barrier. -/
def unsent (s : TeamState) : List Descriptor := s.threads.flatMap fun t => submissions t.todo

theorem unsent_middle (c : Cluster) (before after : List Thread) (w : Worker) (todo : List Action) :
    unsent ⟨c, before ++ ⟨w, todo⟩ :: after⟩ =
      before.flatMap (fun t => submissions t.todo) ++
        (submissions todo ++ after.flatMap fun t => submissions t.todo) := by
  rw [unsent, List.flatMap_append, List.flatMap_cons]

theorem unsent_of_done {s : TeamState} (hdone : ∀ t ∈ s.threads, t.todo = []) : s.unsent = [] :=
  List.flatMap_eq_nil_iff.mpr fun t ht => by rw [hdone t ht]; rfl

end TeamState

namespace Job

variable {j : Job} {kernel : Kernel} {ph : Phase} {s : TeamState}

theorem unsent_of_begins {c : Cluster} {threads : List Thread}
    (hmembers : threads.map (·.worker.member) = Member.team j.settings.units)
    (hbegins : ∀ t ∈ threads, j.Begins ph t) :
    (TeamState.unsent ⟨c, threads⟩).Perm (j.manifest ph) := by
  refine (List.Perm.flatMap_left threads fun t ht => submissions_of_begins (hbegins t ht)).trans ?_
  have hsends := j.sends_perm_manifest ph
  rw [← hmembers, List.flatMap_map] at hsends
  exact hsends

/-- The books of a team in a phase. -/
structure Booked (j : Job) (ph : Phase) (s : TeamState) : Prop where
  /-- What is submitted in this phase and the ones before it, now or later. -/
  ledger : ∃ l, Follows (max j.settings.queueDepth 1) l s.device ∧
    l.longest ≤ max j.settings.queueDepth 1 ∧
    (l.submitted ++ s.unsent).Perm (j.before (j.nextPhase ph))
  barrier : ∃ rounds, rounds + j.left ph = j.barriers j.tileCount ∧
    s.cluster.barrier = .after (max j.settings.units 1) rounds
  hazards : s.cluster.hazards = 0

section Act

variable {c c' : Cluster} {before after : List Thread} {w : Worker} {a : Action} {rest : List Action}
  {issued : Array Nat} {since : Nat}

theorem booked_act (hact : j.Performed kernel ph w.member w.issued c a issued c')
    (h : j.Booked ph ⟨c, before ++ ⟨w, a :: rest⟩ :: after⟩) :
    j.Booked ph ⟨c', before ++ ⟨{ w with issued }, rest⟩ :: after⟩ := by
  obtain ⟨⟨l, hfollows, hlongest, hplan⟩, hbarrier, hhazards⟩ := h
  have hdepth : 0 < max j.settings.queueDepth 1 := by omega
  rw [TeamState.unsent_middle] at hplan
  cases hact with
  | @submit d device _ _ hsubmitted =>
    refine ⟨⟨_, hfollows.submit hdepth hsubmitted, hfollows.longest_submit hdepth hlongest d, ?_⟩,
      hbarrier, hhazards⟩
    rw [TeamState.unsent_middle, Ledger.submitted_submit, List.append_assoc]
    -- the transfer leaves the unit's list and is the last of the ledger
    have hmove := (@List.perm_middle _ d (before.flatMap fun t => submissions t.todo)
      (submissions rest ++ after.flatMap fun t => submissions t.todo)).symm
    exact (hmove.append_left l.submitted).trans hplan
  | @await n retired device _ hretired hle _ =>
    have hlength : c.device.queue.pending.length = _ := hfollows.length_pending
    exact ⟨⟨_, hfollows.retireTo (k := l.retired + retired) (by omega) hretired, hlongest,
      by rw [TeamState.unsent_middle]; exact hplan⟩, hbarrier, hhazards⟩
  | inspect _ =>
    exact ⟨⟨l, hfollows, hlongest, by rw [TeamState.unsent_middle]; exact hplan⟩, hbarrier,
      hhazards⟩
  | @compute i memory _ _ =>
    exact ⟨⟨_, hfollows.rewrite memory, hlongest, by rw [TeamState.unsent_middle]; exact hplan⟩,
      hbarrier, hhazards⟩

end Act

/-- The books when a phase begins. -/
theorem Accepted.booked_of_begins (hj : j.Accepted) (hph : j.Valid ph) (hgoing : ph ≠ .finished)
    {c : Cluster} {threads : List Thread}
    (hmembers : threads.map (·.worker.member) = Member.team j.settings.units)
    (hbegins : ∀ t ∈ threads, j.Begins ph t) {l : Ledger}
    (hfollows : Follows (max j.settings.queueDepth 1) l c.device)
    (hlongest : l.longest ≤ max j.settings.queueDepth 1) (hdone : l.submitted.Perm (j.before ph))
    {rounds : Nat} (hrounds : rounds + j.left ph = j.barriers j.tileCount)
    (hbarrier : c.barrier = .after (max j.settings.units 1) rounds) (hhazards : c.hazards = 0) :
    j.Booked ph ⟨c, threads⟩ where
  ledger := ⟨l, hfollows, hlongest, (hdone.append (unsent_of_begins hmembers hbegins)).trans
    (hj.before_next hph hgoing).symm⟩
  barrier := ⟨rounds, hrounds, hbarrier⟩
  hazards := hhazards

theorem Accepted.booked_invariant (hj : j.Accepted) (kernel : Kernel) :
    j.Invariant kernel j.Booked where
  act _ _ hact h := booked_act hact h
  meet {ph since c threads} haccounted hdone hnext hbegins h := by
    obtain ⟨⟨l, hfollows, hlongest, hplan⟩, ⟨rounds, hrounds, hbarrier⟩, hhazards⟩ := h
    rw [TeamState.unsent_of_done hdone, List.append_nil] at hplan
    have hleft := left_of_next haccounted.valid haccounted.going hnext
    have hmembers := (haccounted.waiting hdone).members_load
    have hmet : c.barrier.meet = .after (max j.settings.units 1) (rounds + 1) := by
      change c.barrier = _ at hbarrier
      rw [hbarrier]
      exact Barrier.meet_after (by omega) rounds
    exact hj.booked_of_begins (valid_next haccounted.valid) hnext hmembers
      (List.forall_mem_map.mpr hbegins) hfollows hlongest hplan (by omega) hmet hhazards

theorem Accepted.booked_started (hj : j.Accepted) (c : Cluster) :
    j.Booked j.firstPhase (j.started c) := by
  obtain ⟨⟨since, haccounted⟩, hbegins⟩ := hj.inPhase_started c
  have hrounds : 0 + j.left j.firstPhase = j.barriers j.tileCount := by
    rw [left_first, Nat.zero_add]
  refine hj.booked_of_begins haccounted.valid haccounted.going haccounted.members hbegins
    (follows_ofDepth j.settings.queueDepth c.device.memory) (Nat.zero_le _) ?_ hrounds rfl rfl
  rw [before_firstPhase]
  exact .refl _

/-- The books are kept in every order of the units. -/
theorem Accepted.booked_of_reaches (hj : j.Accepted) {c : Cluster}
    (hreach : j.Reaches kernel (j.started c) s) : ∃ ph, j.InPhase ph s ∧ j.Booked ph s :=
  hj.invariant_reaches (hj.booked_invariant kernel) hreach (hj.inPhase_started c).1
    (hj.booked_started c)

/-- The books of a team that has finished. -/
structure Balanced (j : Job) (s : TeamState) : Prop where
  traffic : ∀ p, s.queue.traffic.of p = countOf (j.cargo p)
  maxInFlight : s.queue.maxInFlight ≤ max j.settings.queueDepth 1
  barrier : s.cluster.barrier = .after (max j.settings.units 1) (j.barriers j.tileCount)
  hazards : s.cluster.hazards = 0

/-- **In the end the books hold the cargo of the layer**, and every round of the barrier. -/
theorem InPhase.balanced (h : j.InPhase ph s) (hbooked : j.Booked ph s) (hfinished : s.Finished) :
    j.Balanced s := by
  obtain ⟨⟨l, hfollows, hlongest, hplan⟩, ⟨rounds, hrounds, hbarrier⟩, hhazards⟩ := hbooked
  have hlast := h.last hfinished
  have hempty := h.pending_eq_nil hfinished
  rw [TeamState.unsent_of_done fun t ht => (hfinished t ht).1, List.append_nil, hlast] at hplan
  obtain ⟨since, haccounted⟩ := h
  rw [left_of_last haccounted.valid haccounted.going hlast, Nat.add_zero] at hrounds
  subst hrounds
  refine ⟨fun p => ?_, Nat.le_trans (Nat.le_of_eq hfollows.longest) hlongest, hbarrier, hhazards⟩
  rw [← tally_before, ← tally_perm hplan]
  exact hfollows.traffic_of_empty hempty p

end Job

end TileStream
