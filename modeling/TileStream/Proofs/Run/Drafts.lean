import TileStream.Proofs.Run.Phases
import TileStream.Proofs.Run.Actions

/-! # What a unit writes down

A unit writes its next segment down action by action. For a sound job the result
of every stage is an explicit list of actions: no transfer is refused, and the
progress moves on by as many transfers as were submitted. -/
namespace TileStream

open Unsigned

/-! ## Writing a segment down -/

namespace Draft

variable (p : Progress) (as : List Action)

theorem act_eq (a : Action) : act a ⟨p, as.toArray⟩ = .ok () ⟨p, (as ++ [a]).toArray⟩ := by
  rw [act, Stateful.modify_apply]
  simp

theorem submit_eq (d : Descriptor) :
    submit d ⟨p, as.toArray⟩ = .ok p.submitted ⟨p.later 1, (as ++ [Action.submit d]).toArray⟩ := by
  rw [submit, Stateful.bind_of_ok (act_eq p as _)]
  rfl

theorem await_eq (n : Nat) :
    await n ⟨p, as.toArray⟩ = .ok () ⟨p, (as ++ [Action.await n]).toArray⟩ := act_eq p as _

theorem submitAndAwait_eq (d : Descriptor) :
    submitAndAwait d ⟨p, as.toArray⟩ =
      .ok () ⟨p.later 1, (as ++ bring p.submitted [d]).toArray⟩ := by
  rw [submitAndAwait, Stateful.bind_of_ok (submit_eq p as d), await_eq, List.append_assoc]
  rfl

theorem submits_eq (ds : List Descriptor) :
    ds.mapM submit ⟨p, as.toArray⟩ =
      .ok (List.range' p.submitted ds.length) ⟨p.later ds.length, (as ++ ds.map Action.submit).toArray⟩ := by
  induction ds generalizing p as with
  | nil => simp [Progress.later]
  | cons d ds ih =>
    rw [List.mapM_cons, Stateful.bind_of_ok (submit_eq p as d), Stateful.bind_of_ok (ih _ _),
      Stateful.pure_apply, List.length_cons, List.range'_succ]
    simp only [Progress.later, List.append_assoc, List.map_cons, List.singleton_append,
      show p.submitted + 1 + ds.length = p.submitted + (ds.length + 1) by omega]

theorem awaits_eq (ns : List Nat) :
    ns.forM await ⟨p, as.toArray⟩ = .ok () ⟨p, (as ++ ns.map Action.await).toArray⟩ := by
  induction ns generalizing as with
  | nil => simp
  | cons n ns ih =>
    show (await n >>= fun _ => ns.forM await) ⟨p, as.toArray⟩ = _
    rw [Stateful.bind_of_ok (await_eq p as n), ih, List.append_assoc]
    rfl

theorem submitAndAwait_option (share : Option Descriptor) :
    (share.forM submitAndAwait : Stateful Draft Unit) ⟨p, as.toArray⟩ = .ok ()
      ⟨p.later share.toList.length, (as ++ bring p.submitted share.toList).toArray⟩ := by
  cases share with
  | none =>
    show EStateM.Result.ok () _ = _
    simp [Progress.later, bring]
  | some d => exact submitAndAwait_eq p as d

theorem awaits_option (n : Option Nat) :
    (n.forM await : Stateful Draft Unit) ⟨p, as.toArray⟩ = .ok ()
      ⟨p, (as ++ n.toList.map Action.await).toArray⟩ := by
  cases n with
  | none =>
    show EStateM.Result.ok () _ = _
    simp
  | some n => exact await_eq p as n

theorem submits_option (d : Option Descriptor) :
    (d.mapM submit : Stateful Draft (Option Nat)) ⟨p, as.toArray⟩ =
      .ok (d.toList.head?.map fun _ => p.submitted)
        ⟨p.later d.toList.length, (as ++ d.toList.map Action.submit).toArray⟩ := by
  cases d with
  | none =>
    show EStateM.Result.ok none _ = _
    simp [Progress.later]
  | some d =>
    show (some <$> submit d : Stateful Draft (Option Nat)) _ = _
    rw [map_eq_pure_bind, Stateful.bind_of_ok (submit_eq p as d)]
    rfl

theorem note_eq (f : Progress → Progress) :
    note f ⟨p, as.toArray⟩ = .ok () ⟨f p, as.toArray⟩ := rfl

end Draft

/-- The segment of a unit is what its draft holds at the end. -/
theorem Progress.segment_of_draft {j : Job} {u : Member} {p p' : Progress} {as : List Action}
    (h : j.draft u p.stage ⟨p, #[]⟩ = .ok () ⟨p', as.toArray⟩) : p.segment j u = (as, p') := by
  rw [segment, h]

/-! ## Where a unit stands -/

namespace Job

variable {j : Job} {u : Member}

/-- The stage of a unit in a phase. -/
def stageOf (j : Job) : Phase → Stage
  | .stageIn => .stageIn
  | .prologue => .prologue
  | .fetch 0 => .fetch none
  | .fetch (i + 1) => .fetch (some (j.geometry.tileGrid.iterationAt i))
  | .compute i => .compute (j.geometry.tileGrid.iterationAt i) (j.callAt i)
  | .stageOut => .stageOut
  | .finished => .finished

/-- The iterations that the loop of a unit has begun before a phase. -/
def begun (j : Job) : Phase → Nat
  | .stageIn | .prologue => 0
  | .fetch i => i
  | .compute i => i + 1
  | .stageOut | .finished => j.tileCount

/-- The tiles that a unit has written back before a phase. -/
def written (j : Job) : Phase → Nat
  | .stageIn | .prologue => 0
  | .fetch i => i - 1
  | .compute i => i
  | .stageOut | .finished => j.tileCount

/-- A unit stands before a phase. -/
structure Stands (j : Job) (ph : Phase) (p : Progress) : Prop where
  stage : p.stage = j.stageOf ph
  loop : p.loop = j.geometry.tileGrid.loopAt (j.begun ph)
  /-- A unit that blocks carries no write-back over. -/
  blocking : j.settings.writeback = .blocking → p.writeback = none
  first : j.begun ph = 0 → p.writeback = none ∧ p.landing = []
  /-- Nothing is fetched in the last iteration. -/
  last : j.begun ph = j.tileCount → p.landing = []
  written : p.writeBacks = j.written ph

/-! ## What the stages write down -/

theorem Accepted.stageInput_eq (h : j.Accepted) : j.stageInput = .ok j.inputStage := by
  rw [stageInput, h.tiles_eq.2.1, h.inputTensor_bytes, Checked.ok_bind]
  rfl

theorem Accepted.stageOutput_eq (h : j.Accepted) : j.stageOutput = .ok j.outputStage := by
  rw [stageOutput, h.tiles_eq.2.2.1, h.outputTensor_bytes, Checked.ok_bind]
  rfl

theorem Accepted.member_lt (h : j.Accepted) (hu : u ∈ Member.team j.settings.units) :
    u.index < u.size ∧ u.size < wordLimit := by
  have hmem := Member.mem_team.mp hu
  have hunits := h.units_lt
  unfold wordLimit at *
  omega

theorem Accepted.split_eq (h : j.Accepted) (hu : u ∈ Member.team j.settings.units) (ph : Phase)
    (hph : j.Valid ph) {w : Descriptor} (hw : w ∈ j.divided ph) :
    w.split u.index u.size = .ok (w.share u.index u.size) := by
  obtain ⟨hindex, hsize⟩ := h.member_lt hu
  obtain ⟨_, _, _, _, _, hboxed, hlow⟩ := h.divided_boxed hph hw
  exact hboxed.split_eq hlow hsize hindex

theorem shares_singleton (u : Member) (d : Descriptor) :
    u.shares [d] = (d.share u.index u.size).toList := by
  simp [Member.shares]

theorem stageIn_eq (h : j.stageInput = .ok j.inputStage) (p : Progress) :
    j.stageIn u ⟨p, #[]⟩ = .ok ()
      ⟨{ p.later (u.leads (j.led .stageIn)).length with stage := .prologue },
        (bring p.submitted (u.leads (j.led .stageIn))).toArray⟩ := by
  unfold stageIn Member.leads
  cases u.isLeader with
  | false => rfl
  | true =>
    simp only [if_true]
    rw [h, Stateful.bind_of_ok (Stateful.lift_ok _ _),
      Stateful.bind_of_ok (Draft.submit_eq _ _ _), Stateful.bind_of_ok (Draft.submit_eq _ _ _),
      Stateful.bind_of_ok (Draft.await_eq _ _ _), Stateful.bind_of_ok (Draft.await_eq _ _ _)]
    rfl

theorem stageOut_eq (h : j.stageOutput = .ok j.outputStage) (p : Progress) :
    j.stageOut u ⟨p, #[]⟩ = .ok ()
      ⟨{ p.later (u.leads (j.led .stageOut)).length with stage := .finished },
        (bring p.submitted (u.leads (j.led .stageOut))).toArray⟩ := by
  unfold stageOut Member.leads
  cases u.isLeader with
  | false => rfl
  | true =>
    simp only [if_true]
    rw [h, Stateful.bind_of_ok (Stateful.lift_ok _ _),
      Stateful.bind_of_ok (Draft.submitAndAwait_eq _ _ _)]
    rfl

/-- The second half of the prologue: a unit loads its share of the first input tile. -/
def loadFirst (j : Job) (u : Member) : Stateful Draft Unit := do
  let transfer ← j.inputTransfer .origin .a
  if let some share ← (transfer.split u.index u.size : Checked _) then
    Draft.submitAndAwait share
  Draft.goto (.fetch none)

theorem Accepted.loadFirst_eq (h : j.Accepted) (hu : u ∈ Member.team j.settings.units) (p : Progress)
    (as : List Action) :
    let share := u.shares (j.divided .prologue)
    j.loadFirst u ⟨p, as.toArray⟩ = .ok ()
      ⟨{ p.later share.length with stage := .fetch none },
        (as ++ bring p.submitted share).toArray⟩ := by
  intro share
  have hshare : share = ((j.inputLoad 0).share u.index u.size).toList := shares_singleton _ _
  have htransfer : j.inputTransfer .origin .a = .ok (j.inputLoad 0) := by
    rw [← show j.geometry.tileGrid.tileAt 0 = .origin from Grid.tileAt_zero _]
    exact h.inputTransfer_eq h.tileCount_pos
  have hsplit := h.split_eq hu .prologue trivial (w := j.inputLoad 0) List.mem_cons_self
  unfold loadFirst
  rw [htransfer, Stateful.bind_of_ok (Stateful.lift_ok _ _), hsplit,
    Stateful.bind_of_ok (Stateful.lift_ok _ _), hshare]
  cases (j.inputLoad 0).share u.index u.size with
  | none =>
    show EStateM.Result.ok () _ = _
    simp [Progress.later, bring]
  | some d =>
    simp only []
    rw [Stateful.bind_of_ok (Draft.submitAndAwait_eq _ _ _)]
    rfl

theorem Accepted.prologue_eq (h : j.Accepted) (hu : u ∈ Member.team j.settings.units) (p : Progress) :
    let lead := u.leads (j.led .prologue)
    let share := u.shares (j.divided .prologue)
    j.prologue u ⟨p, #[]⟩ = .ok ()
      ⟨{ p.later (lead.length + share.length) with stage := .fetch none },
        (bring p.submitted lead ++ bring (p.submitted + lead.length) share).toArray⟩ := by
  intro lead share
  have hblock : j.blockOf 0 = 0 := Grid.blockAt_zero _
  have hweights : j.weightTransfers 0 .a = .ok (j.weightLoads 0) :=
    h.weightTransfers_eq (by
      have := blockOf_lt h.tileCount_pos
      rwa [hblock] at this)
  unfold prologue
  cases hlead : u.isLeader with
  | false =>
    have hnone : lead = [] := by simp [lead, Member.leads, hlead]
    rw [hnone]
    simp only [Bool.false_eq_true, if_false]
    exact (h.loadFirst_eq hu p []).trans (by simp [Progress.later, bring, share])
  | true =>
    have hsome : lead = j.weightLoads 0 := by simp [lead, Member.leads, hlead, led, hblock]
    rw [hsome]
    simp only [if_true]
    rw [hweights, Stateful.bind_of_ok (Stateful.lift_ok _ _),
      Stateful.bind_of_ok (Draft.submits_eq _ _ _), Stateful.bind_of_ok (Draft.awaits_eq _ _ _)]
    refine (h.loadFirst_eq hu _ _).trans ?_
    simp [Progress.later, bring, Nat.add_assoc, share]

/-! ## Fetching -/

/-- The actions with which a unit writes back before iteration `i`. -/
def storeActions (j : Job) (u : Member) (i : Nat) (p : Progress) : List Action :=
  match j.settings.writeback with
  | .blocking => bring p.submitted (u.shares (j.stores i))
  | .deferred => p.writeback.toList.map .await ++ (u.shares (j.stores i)).map .submit

/-- The progress after writing back before iteration `i`. -/
def stored (j : Job) (u : Member) (i : Nat) (p : Progress) : Progress :=
  { p.later (u.shares (j.stores i)).length with
    writeback := match j.settings.writeback with
      | .blocking => p.writeback
      | .deferred => (u.shares (j.stores i)).head?.map fun _ => p.submitted }

/-- What a unit submits to prefetch in iteration `i`. -/
def fetched (j : Job) (u : Member) (i : Nat) : List Descriptor :=
  u.shares (j.inputLoads i) ++ u.leads (j.weightReloads i)

theorem fetched_eq_nil {i : Nat} (h : ¬ i + 1 < j.tileCount) : j.fetched u i = [] := by
  have hstill : ¬ j.geometry.tileGrid.changesAt i = true := fun hchange =>
    h (changesAt_lt hchange).1
  rw [fetched, inputLoads, if_neg h, weightReloads, if_neg hstill]
  simp [Member.shares, Member.leads]

theorem Accepted.writeBack_eq (h : j.Accepted) (hu : u ∈ Member.team j.settings.units) {i : Nat}
    (hi : i < j.tileCount) (p : Progress) :
    j.writeBack u (j.geometry.tileGrid.iterationAt i) ⟨p, #[]⟩ = .ok ()
      ⟨{ j.stored u (i + 1) p with writeBacks := p.writeBacks + 1 },
        (j.storeActions u (i + 1) p).toArray⟩ := by
  have htransfer : j.outputTransfer (j.geometry.tileGrid.tileAt i) (.of i) =
      .ok (j.outputStore i) := h.outputTransfer_eq hi
  have hsplit := h.split_eq hu (.fetch (i + 1)) hi (w := j.outputStore i)
    List.mem_cons_self
  have hshare : u.shares (j.stores (i + 1)) = ((j.outputStore i).share u.index u.size).toList :=
    shares_singleton _ _
  unfold writeBack
  simp only [Grid.iterationAt]
  rw [htransfer, Stateful.bind_of_ok (Stateful.lift_ok _ _), hsplit,
    Stateful.bind_of_ok (Stateful.lift_ok _ _)]
  unfold stored storeActions
  rw [hshare]
  cases j.settings.writeback with
  | blocking =>
    simp only []
    rw [Stateful.bind_of_ok (Draft.submitAndAwait_option p [] _)]
    rfl
  | deferred =>
    simp only []
    rw [Stateful.bind_of_ok (Stateful.get_apply _)]
    simp only []
    rw [Stateful.bind_of_ok (Draft.awaits_option p [] p.writeback),
      Stateful.bind_of_ok (Draft.submits_option _ _ _), Stateful.bind_of_ok (Draft.note_eq _ _ _)]
    rfl

theorem Accepted.prefetch_eq (h : j.Accepted) (hu : u ∈ Member.team j.settings.units) {i : Nat}
    (hi : i + 1 < j.tileCount) (p : Progress) (as : List Action) :
    j.prefetch u (j.geometry.tileGrid.iterationAt i) (j.geometry.tileGrid.tileAt (i + 1))
        ⟨p, as.toArray⟩ =
      .ok (List.range' p.submitted (j.fetched u i).length)
        ⟨p.later (j.fetched u i).length, (as ++ (j.fetched u i).map Action.submit).toArray⟩ := by
  have hparity : (Parity.of i).flip = .of (i + 1) := (Parity.of_succ i).symm
  have htransfer : j.inputTransfer (j.geometry.tileGrid.tileAt (i + 1)) (.of (i + 1)) =
      .ok (j.inputLoad (i + 1)) := h.inputTransfer_eq hi
  have hloads : j.inputLoads i = [j.inputLoad (i + 1)] := if_pos hi
  have hsplit := h.split_eq hu (.fetch i) (Nat.le_of_lt (Nat.lt_of_succ_lt hi))
    (w := j.inputLoad (i + 1)) (List.mem_append_right _ (by rw [hloads]; exact List.mem_cons_self))
  unfold prefetch fetched
  simp only [Grid.iterationAt, RoleSlots.ofExec, hparity]
  rw [htransfer, Stateful.bind_of_ok (Stateful.lift_ok _ _), hsplit,
    Stateful.bind_of_ok (Stateful.lift_ok _ _), Stateful.bind_of_ok (Draft.submits_eq _ _ _),
    hloads, shares_singleton]
  unfold weightReloads Member.leads
  by_cases hchange : j.geometry.tileGrid.changesAt i = true
  · have hblock : j.blockOf (i + 1) = j.blockOf i + 1 := by
      have hstep := Grid.blockAt_succ (Geometry.tileGrid_regular h.tiled h.small) i
      exact hstep.resolve_left (changesAt_lt hchange).2
    have hweightParity : (Parity.of (j.geometry.tileGrid.blockAt i)).flip =
        .of (j.blockOf (i + 1)) := by
      rw [hblock, Parity.of_succ]
      rfl
    have hweights : j.weightTransfers (j.geometry.tileGrid.tileAt (i + 1)).outChannel
        (.of (j.blockOf (i + 1))) = .ok (j.weightLoads (j.blockOf (i + 1))) :=
      h.weightTransfers_eq (blockOf_lt hi)
    rw [if_pos hchange, hchange, hweightParity]
    cases u.isLeader with
    | true =>
      simp only [Bool.and_self, if_true]
      rw [hweights, Stateful.bind_of_ok (Stateful.lift_ok _ _),
        Stateful.bind_of_ok (Draft.submits_eq _ _ _), Stateful.pure_apply]
      simp [Progress.later, Nat.add_assoc]
    | false => simp [Progress.later]
  · rw [if_neg hchange]
    simp [hchange, Progress.later]

theorem Accepted.beginIteration_eq (h : j.Accepted) (hu : u ∈ Member.team j.settings.units) {i : Nat}
    (hi : i < j.tileCount) (p : Progress) (as : List Action) :
    j.beginIteration u (j.geometry.tileGrid.iterationAt i) ⟨p, as.toArray⟩ = .ok ()
      ⟨{ p.later (j.fetched u i).length with
          landing := List.range' p.submitted (j.fetched u i).length
          stage := .compute (j.geometry.tileGrid.iterationAt i) (j.callAt i) },
        (as ++ (j.fetched u i).map Action.submit ++ p.landing.map Action.await).toArray⟩ := by
  -- what follows the prefetch, from any draft on
  have htail : ∀ (q : Progress) (bs : List Action) (landing : List Nat),
      (do
        Draft.note ({ · with landing })
        p.landing.forM Draft.await
        let call ← (j.call (j.geometry.tileGrid.iterationAt i) : Checked _)
        Draft.goto (.compute (j.geometry.tileGrid.iterationAt i) call) : Stateful Draft Unit)
        ⟨q, bs.toArray⟩ = .ok ()
      ⟨{ q with
          landing
          stage := .compute (j.geometry.tileGrid.iterationAt i) (j.callAt i) },
        (bs ++ p.landing.map Action.await).toArray⟩ := by
    intro q bs landing
    rw [Stateful.bind_of_ok (Draft.note_eq _ _ _), Stateful.bind_of_ok (Draft.awaits_eq _ _ _),
      h.call_eq hi, Stateful.bind_of_ok (Stateful.lift_ok _ _)]
    rfl
  unfold beginIteration
  rw [Stateful.bind_of_ok (Stateful.get_apply _)]
  by_cases hnext : i + 1 < j.tileCount
  · have hload : (j.geometry.tileGrid.iterationAt i).load =
        some (j.geometry.tileGrid.tileAt (i + 1)) := if_pos hnext
    rw [hload]
    simp only []
    rw [Stateful.bind_of_ok (h.prefetch_eq hu hnext p as)]
    exact htail _ _ _
  · have hload : (j.geometry.tileGrid.iterationAt i).load = none := if_neg hnext
    rw [hload, fetched_eq_nil hnext]
    simp only []
    rw [Stateful.bind_of_ok (Stateful.pure_apply _ _)]
    refine (htail _ _ _).trans ?_
    simp [Progress.later]

/-- The write-back that a unit does before iteration `i`, if any. -/
theorem Accepted.stores_eq (h : j.Accepted) (hu : u ∈ Member.team j.settings.units) {i : Nat}
    (hi : i ≤ j.tileCount) {p : Progress} (hp : j.Stands (.fetch i) p) :
    ∃ done, p.stage = .fetch done ∧
      (done.forM (j.writeBack u) : Stateful Draft Unit) ⟨p, #[]⟩ = .ok ()
        ⟨{ j.stored u i p with writeBacks := i }, (j.storeActions u i p).toArray⟩ := by
  have hwritten : p.writeBacks = i - 1 := hp.written
  cases i with
  | zero =>
    obtain ⟨hwriteback, -⟩ := hp.first rfl
    refine ⟨none, hp.stage, ?_⟩
    have hactions : j.storeActions u 0 p = [] := by
      unfold storeActions
      rw [hwriteback]
      cases j.settings.writeback <;> rfl
    have hstored : { j.stored u 0 p with writeBacks := 0 } = p := by
      obtain ⟨stage, loop, submitted, landing, writeback, writeBacks⟩ := p
      cases hwriteback
      cases hwritten
      unfold stored
      cases j.settings.writeback <;> rfl
    rw [hactions, hstored]
    rfl
  | succ i =>
    have hmore := h.writeBack_eq hu hi p
    rw [hwritten, Nat.add_sub_cancel] at hmore
    exact ⟨some (j.geometry.tileGrid.iterationAt i), hp.stage, hmore⟩

theorem Accepted.fetch_eq (h : j.Accepted) (hu : u ∈ Member.team j.settings.units) {i : Nat}
    (hi : i < j.tileCount) {p : Progress} (hp : j.Stands (.fetch i) p) :
    p.segment j u =
      (j.storeActions u i p ++ (j.fetched u i).map Action.submit ++ p.landing.map Action.await,
        { (j.stored u i p).later (j.fetched u i).length with
          writeBacks := i
          loop := j.geometry.tileGrid.loopAt (i + 1)
          landing := List.range' (j.stored u i p).submitted (j.fetched u i).length
          stage := .compute (j.geometry.tileGrid.iterationAt i) (j.callAt i) }) := by
  obtain ⟨done, hstage, hstores⟩ := h.stores_eq hu (Nat.le_of_lt hi) hp
  have hloop : p.loop.next =
      .ok (some (j.geometry.tileGrid.iterationAt i, j.geometry.tileGrid.loopAt (i + 1))) := by
    rw [hp.loop]
    exact TileLoop.next_loopAt (Geometry.tileGrid_regular h.tiled h.small) hi
  refine Progress.segment_of_draft ?_
  rw [hstage]
  show j.fetch u done ⟨p, #[]⟩ = _
  unfold fetch
  rw [Stateful.bind_of_ok hstores, Stateful.bind_of_ok (Stateful.get_apply _)]
  simp only [stored, Progress.later, hloop]
  rw [Stateful.bind_of_ok (Stateful.lift_ok _ _)]
  simp only []
  rw [Stateful.bind_of_ok (Draft.note_eq _ _ _)]
  exact h.beginIteration_eq hu hi _ _

theorem Accepted.fetch_last_eq (h : j.Accepted) (hu : u ∈ Member.team j.settings.units)
    {p : Progress} (hp : j.Stands (.fetch j.tileCount) p) :
    p.segment j u =
      (j.storeActions u j.tileCount p ++
          (j.stored u j.tileCount p).writeback.toList.map Action.await,
        { j.stored u j.tileCount p with
          writeBacks := j.tileCount
          stage := if j.params.slowIsExternal then .stageOut else .finished }) := by
  obtain ⟨done, hstage, hstores⟩ := h.stores_eq hu (Nat.le_refl _) hp
  have hloop : p.loop.next = .ok none := by
    rw [hp.loop]
    exact TileLoop.next_loopAt_size _
  refine Progress.segment_of_draft ?_
  rw [hstage]
  show j.fetch u done ⟨p, #[]⟩ = _
  unfold fetch
  rw [Stateful.bind_of_ok hstores, Stateful.bind_of_ok (Stateful.get_apply _)]
  simp only [stored, Progress.later, hloop]
  rw [Stateful.bind_of_ok (Stateful.lift_ok _ _)]
  simp only []
  rw [Stateful.bind_of_ok (Stateful.get_apply _), Stateful.bind_of_ok (Draft.awaits_option _ _ _)]
  rfl

end Job

end TileStream
