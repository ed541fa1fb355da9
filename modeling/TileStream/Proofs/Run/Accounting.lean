import TileStream.Proofs.Run.Interleaving
import TileStream.Proofs.Run.Segments

/-! # Which transfers can be in the queue

`Running` accounts for every transfer that a unit has submitted: it has retired,
or the unit still waits for it in this segment, or it was submitted in this phase
and is carried over. `Accounted` says so of a whole team and of its queue; each
action keeps it, and when all units wait at the barrier it begins anew. -/
namespace TileStream

namespace Queue

/-- A transfer is queued under a number. -/
def Holds (q : Queue) (id : Nat) (d : Descriptor) : Prop :=
  q.retired ≤ id ∧ q.pending[id - q.retired]? = some d

variable {q : Queue} {id : Nat} {d : Descriptor}

theorem mem_pending_iff : d ∈ q.pending ↔ ∃ id, q.Holds id d := by
  rw [List.mem_iff_getElem?]
  constructor
  · rintro ⟨n, hn⟩
    exact ⟨q.retired + n, Nat.le_add_right _ _, by rwa [Nat.add_sub_cancel_left]⟩
  · rintro ⟨id, -, hid⟩
    exact ⟨_, hid⟩

theorem Holds.lt_nextId (h : q.Holds id d) : id < q.nextId := by
  obtain ⟨hle, hget⟩ := h
  obtain ⟨hlt, -⟩ := List.getElem?_eq_some_iff.mp hget
  unfold nextId
  omega

theorem Holds.of_after {n : Nat} (h : (q.after n).Holds id d) : q.Holds id d := by
  obtain ⟨hle, hget⟩ := h
  simp only [after] at hle hget
  rw [List.getElem?_drop, show n + (id - (q.retired + n)) = id - q.retired by omega] at hget
  exact ⟨by omega, hget⟩

theorem Holds.of_push {e : Descriptor} (h : (q.push e).Holds id d) :
    q.Holds id d ∨ (id = q.nextId ∧ d = e) := by
  obtain ⟨hle, hget⟩ := h
  simp only [push] at hle hget
  rw [List.getElem?_append] at hget
  split at hget
  · exact .inl ⟨hle, hget⟩
  · rename_i hlt
    rw [List.getElem?_singleton] at hget
    split at hget
    · rename_i hzero
      rw [Option.some.injEq] at hget
      exact .inr ⟨by unfold nextId; omega, hget.symm⟩
    · cases hget

/-- A later queue: nothing that had retired is back, and no number is given twice. -/
structure Later (q q' : Queue) : Prop where
  retired : q.retired ≤ q'.retired
  nextId : q.nextId ≤ q'.nextId
  depth : q'.depth = q.depth

theorem later_refl (q : Queue) : q.Later q := ⟨Nat.le_refl _, Nat.le_refl _, rfl⟩

theorem later_after {n : Nat} (hn : n ≤ q.pending.length) : q.Later (q.after n) :=
  ⟨Nat.le_add_right _ _, Nat.le_of_eq (nextId_after hn).symm, rfl⟩

end Queue

namespace Device

variable {d : Descriptor} {s s' : Device}

theorem Submitted.nextId (h : Submitted d s s') (hdepth : 0 < s.queue.depth) :
    s'.queue.nextId = s.queue.nextId + 1 := by
  have hle := Queue.overflow_le hdepth
  have hafter := Queue.nextId_after (q := s.queue.meet) hle
  rw [h.queue]
  simp only [Queue.nextId, Queue.push, List.length_append, List.length_singleton] at *
  rw [← Nat.add_assoc, hafter]
  rfl

theorem Submitted.later (h : Submitted d s s') (hdepth : 0 < s.queue.depth) :
    s.queue.Later s'.queue := by
  refine ⟨?_, by rw [h.nextId hdepth]; exact Nat.le_succ _, by rw [h.queue]; rfl⟩
  rw [h.queue]
  exact Nat.le_add_right _ _

theorem Submitted.holds (h : Submitted d s s') (hdepth : 0 < s.queue.depth) {id : Nat}
    {e : Descriptor} (he : s'.queue.Holds id e) :
    s.queue.Holds id e ∨ (id = s.queue.nextId ∧ e = d) := by
  rw [h.queue] at he
  rcases he.of_push with hold | ⟨hid, rfl⟩
  · exact .inl hold.of_after
  · have hnext : (s.queue.meet.after s.queue.overflow).nextId = s.queue.meet.nextId :=
      Queue.nextId_after (Queue.overflow_le hdepth)
    exact .inr ⟨hid.trans hnext, rfl⟩

end Device

/-- The phase whose transfers may be in the queue: a computation is overlapped by the fetch before it. -/
def Phase.moving : Phase → Phase
  | .compute i => .fetch i
  | ph => ph

namespace Job

variable {j : Job}

/-- What can be left of the segment of a unit. -/
def Shaped (j : Job) (u : Member) : Phase → List Action → Prop
  | .compute i, as => as <:+ j.computeActions u i
  | _, as => Plain as

/-- A unit in a phase that began when the queue had given `since` numbers. -/
structure Running (j : Job) (ph : Phase) (since : Nat) (q : Queue) (t : Thread) : Prop where
  stands : j.Stands (j.nextPhase ph) t.worker.progress
  shaped : j.Shaped t.worker.member ph t.todo
  count : t.worker.issued.size + (submissions t.todo).length = t.worker.progress.submitted
  kept : Kept ((j.nextPhase ph).carry t.worker.progress) t.worker.issued.size t.todo
  sends : ∀ d ∈ submissions t.todo, d ∈ j.sends t.worker.member ph
  /-- What was submitted has retired, or is waited for, or was submitted in this phase. -/
  issued : ∀ n id, t.worker.issued[n]? = some id → id < q.nextId ∧
    (id < q.retired ∨ .await n ∈ t.todo ∨
      (since ≤ id ∧ n ∈ (j.nextPhase ph).carry t.worker.progress))

/-- A team in a phase that began when the queue had given `since` numbers. -/
structure Accounted (j : Job) (ph : Phase) (since : Nat) (q : Queue) (threads : List Thread) :
    Prop where
  valid : j.Valid ph
  going : ph ≠ .finished
  members : threads.map (·.worker.member) = Member.team j.settings.units
  depth : 0 < q.depth
  fits : ∀ d ∈ q.pending, d.Fits
  since_le : since ≤ q.nextId
  running : ∀ t ∈ threads, j.Running ph since q t
  known : ∀ id d, q.Holds id d → ∃ t ∈ threads, ∃ n : Nat, t.worker.issued[n]? = some id
  fresh : ∀ id d, q.Holds id d → since ≤ id →
    ∃ u ∈ Member.team j.settings.units, d ∈ j.sends u ph.moving

/-- A team that waits at the barrier before a phase. -/
structure Waiting (j : Job) (ph : Phase) (q : Queue) (threads : List Thread) : Prop where
  valid : j.Valid ph
  members : threads.map (·.worker.member) = Member.team j.settings.units
  depth : 0 < q.depth
  fits : ∀ d ∈ q.pending, d.Fits
  stands : ∀ t ∈ threads, j.Stands ph t.worker.progress
  count : ∀ t ∈ threads, t.worker.issued.size = t.worker.progress.submitted
  /-- What was submitted has retired, or is carried over. -/
  issued : ∀ t ∈ threads, ∀ n id, t.worker.issued[n]? = some id →
    id < q.nextId ∧ (id < q.retired ∨ n ∈ ph.carry t.worker.progress)
  known : ∀ id d, q.Holds id d → ∃ t ∈ threads, ∃ n : Nat, t.worker.issued[n]? = some id
  moving : ∀ i, ph = .compute i → ∀ d ∈ q.pending,
    ∃ u ∈ Member.team j.settings.units, d ∈ j.sends u (.fetch i)

theorem Shaped.cons {u : Member} {ph : Phase} {a : Action} {rest : List Action}
    (h : j.Shaped u ph (a :: rest)) : j.Shaped u ph rest ∧
      ((∀ i, ph ≠ .compute i) ∧ ((∃ d, a = .submit d) ∨ ∃ n, a = .await n) ∨
        ∃ i, ph = .compute i ∧ (a = .inspect (j.callAt i) ∧ u.isLeader ∨
          a = .compute (j.callAt i) ∧ rest = [])) := by
  have hplain : ∀ as : List Action, Plain (a :: as) →
      Plain as ∧ ((∃ d, a = .submit d) ∨ ∃ n, a = .await n) := fun as has =>
    ⟨fun b hb => has b (List.mem_cons_of_mem a hb), has a List.mem_cons_self⟩
  cases ph with
  | compute i =>
    have hrest : rest <:+ j.computeActions u i := (List.suffix_cons a rest).trans h
    refine ⟨hrest, .inr ⟨i, rfl, ?_⟩⟩
    change a :: rest <:+ (if u.isLeader then [.inspect (j.callAt i)] else []) ++ _ at h
    cases hlead : u.isLeader with
    | false =>
      rw [hlead] at h
      rcases List.suffix_cons_iff.mp h with heq | htail
      · exact .inr (by cases heq; exact ⟨rfl, rfl⟩)
      · exact absurd (List.suffix_nil.mp htail) (List.cons_ne_nil a rest)
    | true =>
      rw [hlead] at h
      rcases List.suffix_cons_iff.mp h with heq | htail
      · exact .inl (by cases heq; exact ⟨rfl, rfl⟩)
      · rcases List.suffix_cons_iff.mp htail with heq | htail
        · exact .inr (by cases heq; exact ⟨rfl, rfl⟩)
        · exact absurd (List.suffix_nil.mp htail) (List.cons_ne_nil a rest)
  | stageIn | prologue | fetch i | stageOut | finished =>
    obtain ⟨hrest, ha⟩ := hplain rest h
    exact ⟨hrest, .inl ⟨fun i hi => (by cases hi), ha⟩⟩

/-! ## One action -/

theorem Running.later {ph : Phase} {since : Nat} {q q' : Queue} {t : Thread}
    (h : j.Running ph since q t) (hq : q.Later q') : j.Running ph since q' t := by
  refine ⟨h.stands, h.shaped, h.count, h.kept, h.sends, fun n id hn => ?_⟩
  have hretired := hq.retired
  have hnext := hq.nextId
  obtain ⟨hlt, hwhere⟩ := h.issued n id hn
  exact ⟨by omega, hwhere.imp_left fun hid => by omega⟩

theorem Running.submit {ph : Phase} {since : Nat} {q q' : Queue} {w : Worker} {d : Descriptor}
    {rest : List Action} (h : j.Running ph since q ⟨w, .submit d :: rest⟩) (hq : q.Later q')
    (hnext : q'.nextId = q.nextId + 1) (hsince : since ≤ q.nextId) :
    j.Running ph since q' ⟨{ w with issued := w.issued.push q.nextId }, rest⟩ := by
  have hcount := h.count
  obtain ⟨hkeep, hkept⟩ := h.kept
  have hretired := hq.retired
  refine ⟨h.stands, h.shaped.cons.1, ?_, ?_, fun e he => h.sends e (List.mem_cons_of_mem d he), ?_⟩
  · change w.issued.size + ((submissions rest).length + 1) = w.progress.submitted at hcount
    show (w.issued.push q.nextId).size + (submissions rest).length = w.progress.submitted
    rw [Array.size_push]
    omega
  · show Kept _ (w.issued.push q.nextId).size rest
    rw [Array.size_push]
    exact hkept
  · intro n id hn
    change (w.issued.push q.nextId)[n]? = some id at hn
    rw [Array.getElem?_push] at hn
    split at hn
    · rename_i hsize
      rw [Option.some.injEq] at hn
      subst hn hsize
      exact ⟨by omega, .inr (hkeep.symm.imp_right fun hcarry => ⟨hsince, hcarry⟩)⟩
    · obtain ⟨hlt, hwhere⟩ := h.issued n id hn
      refine ⟨by omega, ?_⟩
      rcases hwhere with hid | hawait | hcarry
      · exact .inl (by omega)
      · rcases List.mem_cons.mp hawait with heq | hin
        · cases heq
        · exact .inr (.inl hin)
      · exact .inr (.inr hcarry)

theorem Running.await {ph : Phase} {since : Nat} {q q' : Queue} {w : Worker} {n : Nat}
    {rest : List Action} (h : j.Running ph since q ⟨w, .await n :: rest⟩) (hq : q.Later q')
    (hretired : ∀ id, w.issued[n]? = some id → id < q.nextId → id < q'.retired) :
    j.Running ph since q' ⟨w, rest⟩ := by
  have hlater := h.later hq
  refine ⟨hlater.stands, hlater.shaped.cons.1, hlater.count, hlater.kept, hlater.sends, ?_⟩
  intro m id hm
  obtain ⟨hlt, hwhere⟩ := hlater.issued m id hm
  refine ⟨hlt, ?_⟩
  rcases hwhere with hid | hawait | hcarry
  · exact .inl hid
  · rcases List.mem_cons.mp hawait with heq | hin
    · cases heq
      exact .inl (hretired id hm (h.issued n id hm).1)
    · exact .inr (.inl hin)
  · exact .inr (.inr hcarry)

theorem Running.compute {i : Nat} {since : Nat} {q : Queue} {w : Worker} {a : Action}
    {rest : List Action} (h : j.Running (.compute i) since q ⟨w, a :: rest⟩) :
    j.Running (.compute i) since q ⟨w, rest⟩ := by
  obtain ⟨hrest, hshape⟩ := h.shaped.cons
  have ha : (∃ call, a = .inspect call) ∨ ∃ call, a = .compute call := by
    rcases hshape with ⟨hmoves, -⟩ | ⟨i, -, ⟨rfl, -⟩ | ⟨rfl, -⟩⟩
    · exact absurd rfl (hmoves i)
    · exact .inl ⟨_, rfl⟩
    · exact .inr ⟨_, rfl⟩
  rcases ha with ⟨call, rfl⟩ | ⟨call, rfl⟩ <;>
    exact ⟨h.stands, hrest, h.count, h.kept, h.sends, fun n id hn => by
      obtain ⟨hlt, hwhere⟩ := h.issued n id hn
      refine ⟨hlt, hwhere.imp_right fun hwhere => hwhere.imp_left fun hawait => ?_⟩
      rcases List.mem_cons.mp hawait with heq | hin
      · cases heq
      · exact hin⟩

/-! ## The team -/

section Replace

variable {before after : List Thread} {t t' : Thread}

theorem mem_replace (t t' : Thread) {x : Thread} (h : x ∈ before ++ t' :: after) :
    x = t' ∨ x ∈ before ++ t :: after := by
  rcases List.mem_append.mp h with hin | hin
  · exact .inr (List.mem_append_left _ hin)
  · rcases List.mem_cons.mp hin with rfl | hin
    · exact .inl rfl
    · exact .inr (List.mem_append_right _ (List.mem_cons_of_mem _ hin))

theorem mem_middle : t ∈ before ++ t :: after :=
  List.mem_append_right _ List.mem_cons_self

theorem members_replace (h : t'.worker.member = t.worker.member) :
    (before ++ t' :: after).map (·.worker.member) =
      (before ++ t :: after).map (·.worker.member) := by
  simp only [List.map_append, List.map_cons, h]

end Replace

namespace Accounted

variable {ph : Phase} {since : Nat} {q q' : Queue} {before after : List Thread} {t t' : Thread}
  {threads : List Thread}

theorem member_mem (h : j.Accounted ph since q threads) (ht : t ∈ threads) :
    t.worker.member ∈ Member.team j.settings.units := by
  rw [← h.members]
  exact List.mem_map_of_mem ht

theorem replace (h : j.Accounted ph since q (before ++ t :: after)) (hq : q.Later q')
    (hmember : t'.worker.member = t.worker.member) (hrunning : j.Running ph since q' t')
    (hkeep : ∀ (n id : Nat), t.worker.issued[n]? = some id → t'.worker.issued[n]? = some id)
    (hholds : ∀ id d, q'.Holds id d → q.Holds id d ∨ d.Fits ∧
      (∃ n : Nat, t'.worker.issued[n]? = some id) ∧
      ∃ u ∈ Member.team j.settings.units, d ∈ j.sends u ph.moving) :
    j.Accounted ph since q' (before ++ t' :: after) where
  valid := h.valid
  going := h.going
  members := (members_replace hmember).trans h.members
  depth := by rw [hq.depth]; exact h.depth
  fits d hd := by
    obtain ⟨id, hid⟩ := Queue.mem_pending_iff.mp hd
    rcases hholds id d hid with hold | ⟨hfits, -⟩
    · exact h.fits d (Queue.mem_pending_iff.mpr ⟨id, hold⟩)
    · exact hfits
  since_le := Nat.le_trans h.since_le hq.nextId
  running x hx := by
    rcases mem_replace _ _ hx with rfl | hold
    · exact hrunning
    · exact (h.running x hold).later hq
  known id d hid := by
    rcases hholds id d hid with hold | ⟨-, hnew, -⟩
    · obtain ⟨x, hx, n, hn⟩ := h.known id d hold
      rcases List.mem_append.mp hx with hin | hin
      · exact ⟨x, List.mem_append_left _ hin, n, hn⟩
      · rcases List.mem_cons.mp hin with rfl | hin
        · exact ⟨t', mem_middle, n, hkeep n id hn⟩
        · exact ⟨x, List.mem_append_right _ (List.mem_cons_of_mem _ hin), n, hn⟩
    · exact ⟨t', mem_middle, hnew⟩
  fresh id d hid hsince := by
    rcases hholds id d hid with hold | ⟨-, -, hsent⟩
    · exact h.fresh id d hold hsince
    · exact hsent

/-- A transfer that a unit of the team is about to submit. -/
theorem sends_of_submit {w : Worker} {d : Descriptor} {rest : List Action}
    (h : j.Accounted ph since q (before ++ ⟨w, .submit d :: rest⟩ :: after)) :
    w.member ∈ Member.team j.settings.units ∧ ph.moving = ph ∧ d ∈ j.sends w.member ph := by
  have hrunning := h.running _ mem_middle
  refine ⟨h.member_mem (t := ⟨w, _⟩) mem_middle, ?_, hrunning.sends d List.mem_cons_self⟩
  rcases hrunning.shaped.cons.2 with ⟨hmoves, -⟩ | ⟨i, -, ⟨heq, -⟩ | ⟨heq, -⟩⟩
  · cases ph with
    | compute i => exact absurd rfl (hmoves i)
    | stageIn | prologue | fetch i | stageOut | finished => rfl
  · cases heq
  · cases heq

theorem submit (hj : j.Accepted) {w : Worker} {d : Descriptor} {rest : List Action} {s s' : Device}
    (h : j.Accounted ph since s.queue (before ++ ⟨w, .submit d :: rest⟩ :: after))
    (hs : Device.Submitted d s s') :
    j.Accounted ph since s'.queue
      (before ++ ⟨{ w with issued := w.issued.push s.queue.nextId }, rest⟩ :: after) := by
  obtain ⟨hmember, hmoving, hsend⟩ := h.sends_of_submit
  refine h.replace (hs.later h.depth) rfl ((h.running _ mem_middle).submit (hs.later h.depth)
    (hs.nextId h.depth) h.since_le) ?_ ?_
  · intro n id hn
    have hn' : w.issued[n]? = some id := hn
    obtain ⟨hlt, -⟩ := Array.getElem?_eq_some_iff.mp hn'
    show (w.issued.push s.queue.nextId)[n]? = some id
    rw [Array.getElem?_push, if_neg (Nat.ne_of_lt hlt)]
    exact hn'
  · intro id e he
    rcases hs.holds h.depth he with hold | ⟨rfl, rfl⟩
    · exact .inl hold
    · refine .inr ⟨hj.sends_fits h.valid (hj.member_lt hmember).1 hsend,
        ⟨w.issued.size, ?_⟩, w.member, hmember, ?_⟩
      · show (w.issued.push s.queue.nextId)[w.issued.size]? = _
        rw [Array.getElem?_push, if_pos rfl]
      · rw [hmoving]
        exact hsend

theorem await {w : Worker} {n : Nat} {rest : List Action} {retired : Nat}
    (h : j.Accounted ph since q (before ++ ⟨w, .await n :: rest⟩ :: after))
    (hretired : retired ≤ q.pending.length)
    (hdone : ∀ id, w.issued[n]? = some id → id < q.nextId → id < q.retired + retired) :
    j.Accounted ph since (q.after retired) (before ++ ⟨w, rest⟩ :: after) := by
  have hlater := Queue.later_after hretired
  refine h.replace hlater rfl ((h.running _ mem_middle).await hlater hdone) (fun _ _ hn => hn) ?_
  exact fun id d hid => .inl hid.of_after

theorem compute {i : Nat} {w : Worker} {a : Action} {rest : List Action}
    (h : j.Accounted (.compute i) since q (before ++ ⟨w, a :: rest⟩ :: after)) :
    j.Accounted (.compute i) since q (before ++ ⟨w, rest⟩ :: after) :=
  h.replace (Queue.later_refl q) rfl (h.running _ mem_middle).compute (fun _ _ hn => hn)
    fun _ _ hid => .inl hid

theorem waiting (h : j.Accounted ph since q threads) (hdone : ∀ t ∈ threads, t.todo = []) :
    j.Waiting (j.nextPhase ph) q threads where
  valid := valid_next h.valid
  members := h.members
  depth := h.depth
  fits := h.fits
  stands t ht := (h.running t ht).stands
  count t ht := by
    have hcount := (h.running t ht).count
    rw [hdone t ht] at hcount
    exact hcount
  issued t ht n id hn := by
    obtain ⟨hlt, hwhere⟩ := (h.running t ht).issued n id hn
    refine ⟨hlt, ?_⟩
    rcases hwhere with hid | hawait | ⟨-, hcarry⟩
    · exact .inl hid
    · rw [hdone t ht] at hawait
      cases hawait
    · exact .inr hcarry
  known := h.known
  moving i hi d hd := by
    obtain ⟨id, hid⟩ := Queue.mem_pending_iff.mp hd
    obtain ⟨t, ht, n, hn⟩ := h.known id d hid
    -- nothing of an earlier phase is left
    have hsince : since ≤ id := by
      rcases ((h.running t ht).issued n id hn).2 with hlt | hawait | ⟨hle, -⟩
      · exact absurd hid.1 (Nat.not_le_of_lt hlt)
      · rw [hdone t ht] at hawait
        cases hawait
      · exact hle
    have hfresh := h.fresh id d hid hsince
    cases ph with
    | fetch k =>
      simp only [nextPhase] at hi
      split at hi
      · cases hi
        exact hfresh
      · split at hi <;> cases hi
    | stageIn | prologue | compute k | stageOut | finished => cases hi

end Accounted

/-! ## The next phase -/

/-- A unit that has its whole segment before it. -/
def Begins (j : Job) : Phase → Thread → Prop
  | .compute i, t => t.todo = j.computeActions t.worker.member i
  | ph, t => (submissions t.todo).Perm (j.sends t.worker.member ph)

theorem begins_moves {ph : Phase} (hmoves : ∀ i, ph ≠ .compute i) {t : Thread} :
    j.Begins ph t ↔ (submissions t.todo).Perm (j.sends t.worker.member ph) := by
  cases ph with
  | compute i => exact absurd rfl (hmoves i)
  | stageIn | prologue | fetch i | stageOut | finished => rfl

theorem submissions_of_begins {ph : Phase} {t : Thread} (h : j.Begins ph t) :
    (submissions t.todo).Perm (j.sends t.worker.member ph) := by
  rcases ph.compute_or_moves with ⟨i, rfl⟩ | hmoves
  · have htodo : t.todo = j.computeActions t.worker.member i := h
    rw [htodo, submissions_computeActions, sends_compute]
  · exact (begins_moves hmoves).mp h

theorem shaped_of_plain {ph : Phase} (hmoves : ∀ i, ph ≠ .compute i) {u : Member}
    {as : List Action} (h : Plain as) : j.Shaped u ph as := by
  cases ph with
  | compute i => exact absurd rfl (hmoves i)
  | stageIn | prologue | fetch i | stageOut | finished => exact h

theorem kept_computeActions (u : Member) (i : Nat) (carry : List Nat) (n : Nat) :
    Kept carry n (j.computeActions u i) := by
  unfold computeActions
  cases u.isLeader <;> trivial

namespace Waiting

variable {ph : Phase} {q : Queue} {threads : List Thread}

theorem member_mem (h : j.Waiting ph q threads) {t : Thread} (ht : t ∈ threads) :
    t.worker.member ∈ Member.team j.settings.units := by
  rw [← h.members]
  exact List.mem_map_of_mem ht

theorem members_load (h : j.Waiting ph q threads) :
    (threads.map fun t => t.worker.load j).map (·.worker.member) =
      Member.team j.settings.units := by
  rw [List.map_map]
  exact h.members

theorem known_load (h : j.Waiting ph q threads) (id : Nat) (d : Descriptor) (hid : q.Holds id d) :
    ∃ t ∈ threads.map (fun t => t.worker.load j), ∃ n : Nat, t.worker.issued[n]? = some id := by
  obtain ⟨t, ht, n, hn⟩ := h.known id d hid
  exact ⟨t.worker.load j, List.mem_map_of_mem ht, n, hn⟩

/-- A computation carries over what the fetch before it did. -/
theorem running_compute {i : Nat} (h : j.Waiting (.compute i) q threads) {t : Thread}
    (ht : t ∈ threads) :
    j.Running (.compute i) 0 q (t.worker.load j) ∧ j.Begins (.compute i) (t.worker.load j) := by
  obtain ⟨hsegment, hstands⟩ := segment_compute (u := t.worker.member) (h.stands t ht)
  have hnone := j.submissions_computeActions t.worker.member i
  refine ⟨?_, congrArg Prod.fst hsegment⟩
  refine ⟨?_, ?_, ?_, ?_, ?_, ?_⟩ <;> simp only [Worker.load, hsegment]
  · exact hstands
  · exact List.suffix_rfl
  · rw [hnone]
    exact h.count t ht
  · exact kept_computeActions _ _ _ _
  · rw [hnone]
    exact fun d hd => (by cases hd)
  · intro n id hn
    obtain ⟨hlt, hwhere⟩ := h.issued t ht n id hn
    exact ⟨hlt, hwhere.imp_right fun hcarry => .inr ⟨Nat.zero_le _, hcarry⟩⟩

end Waiting

/-- Any other segment waits for what was carried over. -/
theorem Accepted.running_load (hj : j.Accepted) {ph : Phase} {q : Queue} {threads : List Thread}
    (h : j.Waiting ph q threads) (hmoves : ∀ i, ph ≠ .compute i) {t : Thread} (ht : t ∈ threads) :
    j.Running ph q.nextId q (t.worker.load j) ∧ j.Begins ph (t.worker.load j) := by
  obtain ⟨as, p', heq, hsegment⟩ :=
    hj.segment_of_stands (h.member_mem ht) h.valid hmoves (h.stands t ht)
  have hcount := h.count t ht
  refine ⟨?_, (begins_moves hmoves).mpr ?_⟩
  · refine ⟨?_, ?_, ?_, ?_, ?_, ?_⟩ <;> simp only [Worker.load, heq]
    · exact hsegment.stands
    · exact shaped_of_plain hmoves hsegment.plain
    · rw [hcount]
      exact hsegment.count.symm
    · rw [hcount]
      exact hsegment.kept
    · exact fun d hd => hsegment.sent.mem_iff.mp hd
    · intro n id hn
      obtain ⟨hlt, hwhere⟩ := h.issued t ht n id hn
      exact ⟨hlt, hwhere.imp_right fun hcarry => .inl (hsegment.awaited n hcarry)⟩
  · simp only [Worker.load, heq]
    exact hsegment.sent

/-- When a phase begins, the transfers of the phases before it are waited for. -/
theorem Accepted.accounted_load (hj : j.Accepted) {ph : Phase} {q : Queue} {threads : List Thread}
    (h : j.Waiting ph q threads) (hgoing : ph ≠ .finished) :
    (∃ since, j.Accounted ph since q (threads.map fun t => t.worker.load j)) ∧
      ∀ t ∈ threads, j.Begins ph (t.worker.load j) := by
  rcases ph.compute_or_moves with ⟨i, rfl⟩ | hmoves
  · refine ⟨⟨0, h.valid, hgoing, h.members_load, h.depth, h.fits, Nat.zero_le _, ?_, h.known_load,
      ?_⟩, fun t ht => (h.running_compute ht).2⟩
    · intro t' ht'
      obtain ⟨t, ht, rfl⟩ := List.mem_map.mp ht'
      exact (h.running_compute ht).1
    · exact fun id d hid _ => h.moving i rfl d (Queue.mem_pending_iff.mpr ⟨id, hid⟩)
  · refine ⟨⟨q.nextId, h.valid, hgoing, h.members_load, h.depth, h.fits, Nat.le_refl _, ?_,
      h.known_load, ?_⟩, fun t ht => (hj.running_load h hmoves ht).2⟩
    · intro t' ht'
      obtain ⟨t, ht, rfl⟩ := List.mem_map.mp ht'
      exact (hj.running_load h hmoves ht).1
    · intro id d hid hsince
      exact absurd hid.lt_nextId (Nat.not_lt_of_le hsince)

end Job

end TileStream
