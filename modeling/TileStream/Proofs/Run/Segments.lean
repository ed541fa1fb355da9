import TileStream.Proofs.Run.Drafts

/-! # The segments of the unit programs

`Segment` says what matters about the segment of a unit in a phase: it submits
what the unit sends in that phase and nothing else, it waits for every transfer
that was carried over from the phase before, and every transfer that it submits
it waits for or carries over itself. `segment_of_stands` shows it of the segment
that a unit writes down where it stands. -/
namespace TileStream

/-- The transfers that a unit has not waited for between two phases. -/
def Phase.carry (ph : Phase) (p : Progress) : List Nat :=
  match ph with
  | .fetch _ | .compute _ => p.landing ++ p.writeback.toList
  | _ => []

namespace Job

variable {j : Job} {u : Member}

def nextPhase (j : Job) : Phase → Phase
  | .stageIn => .prologue
  | .prologue => .fetch 0
  | .fetch i =>
    if i < j.tileCount then .compute i
    else if j.params.slowIsExternal then .stageOut else .finished
  | .compute i => .fetch (i + 1)
  | .stageOut | .finished => .finished

theorem nextPhase_fetch {i : Nat} (hi : i < j.tileCount) : j.nextPhase (.fetch i) = .compute i :=
  if_pos hi

theorem nextPhase_last (j : Job) : j.nextPhase (.fetch j.tileCount) =
    if j.params.slowIsExternal then .stageOut else .finished := if_neg (Nat.lt_irrefl _)

theorem valid_next {ph : Phase} (h : j.Valid ph) : j.Valid (j.nextPhase ph) := by
  cases ph with
  | fetch i =>
    simp only [nextPhase]
    split
    · assumption
    · split
      · assumption
      · trivial
  | compute i => exact h
  | prologue => exact Nat.zero_le _
  | stageIn | stageOut | finished => trivial

/-- The barriers that are still ahead in a phase; `staged` counts the one before the last bulk copy. -/
def left (j : Job) (ph : Phase) : Nat :=
  let staged := if j.params.slowIsExternal then 1 else 0
  match ph with
  | .stageIn => 2 * j.tileCount + 2 + staged
  | .prologue => 2 * j.tileCount + 1 + staged
  | .fetch i => 2 * (j.tileCount - i) + staged
  | .compute i => 2 * (j.tileCount - i) - 1 + staged
  | .stageOut | .finished => 0

/-- After the last barrier a run is finished, and every barrier leads to the next phase. -/
theorem left_next {ph : Phase} (hph : j.Valid ph) (hgoing : ph ≠ .finished) :
    (j.left ph = 0 ∧ j.nextPhase ph = .finished) ∨
      (j.left ph = j.left (j.nextPhase ph) + 1 ∧ j.nextPhase ph ≠ .finished) := by
  cases ph with
  | stageIn => exact .inr ⟨by simp only [left, nextPhase]; omega, by simp [nextPhase]⟩
  | prologue => exact .inr ⟨by simp only [left, nextPhase]; omega, by simp [nextPhase]⟩
  | fetch i =>
    rcases Nat.lt_or_eq_of_le (show i ≤ j.tileCount from hph) with hi | rfl
    · rw [nextPhase_fetch hi]
      exact .inr ⟨by simp only [left]; omega, by simp⟩
    · rw [nextPhase_last]
      simp only [left]
      cases j.params.slowIsExternal with
      | true => exact .inr ⟨by simp, by simp⟩
      | false => exact .inl ⟨by simp, rfl⟩
  | compute i =>
    have hi : i < j.tileCount := hph
    exact .inr ⟨by simp only [left, nextPhase]; omega, by simp [nextPhase]⟩
  | stageOut => exact .inl ⟨rfl, rfl⟩
  | finished => exact absurd rfl hgoing

/-- What holds in the end, and holds before every phase after which it holds, holds in all of them. -/
theorem Valid.backward {P : Phase → Prop} (hend : P .finished)
    (hback : ∀ ph, j.Valid ph → ph ≠ .finished → P (j.nextPhase ph) → P ph) {ph : Phase}
    (hph : j.Valid ph) : P ph := by
  induction hleft : j.left ph generalizing ph with
  | zero =>
    by_cases hgoing : ph = .finished
    · rw [hgoing]
      exact hend
    · rcases left_next hph hgoing with ⟨-, hlast⟩ | ⟨hmore, -⟩
      · exact hback ph hph hgoing (by rw [hlast]; exact hend)
      · omega
  | succ n ih =>
    have hgoing : ph ≠ .finished := by
      rintro rfl
      exact absurd hleft (Nat.succ_ne_zero n).symm
    rcases left_next hph hgoing with ⟨hzero, -⟩ | ⟨hmore, -⟩
    · omega
    · exact hback ph hph hgoing (ih (valid_next hph) (by omega))

/-- What matters about the segment of a unit in a phase. -/
structure Segment (j : Job) (u : Member) (ph : Phase) (p : Progress) (as : List Action)
    (p' : Progress) : Prop where
  stands : j.Stands (j.nextPhase ph) p'
  sent : (submissions as).Perm (j.sends u ph)
  count : p'.submitted = p.submitted + (submissions as).length
  kept : Kept ((j.nextPhase ph).carry p') p.submitted as
  awaited : ∀ n ∈ ph.carry p, .await n ∈ as
  plain : Plain as

/-! ## The segment of a phase -/

theorem submissions_storeActions (u : Member) (i : Nat) (p : Progress) :
    submissions (j.storeActions u i p) = u.shares (j.stores i) := by
  unfold storeActions
  cases j.settings.writeback with
  | blocking => exact submissions_bring _ _
  | deferred =>
    rw [submissions_append, submissions_awaits, submissions_submits]
    rfl

theorem plain_storeActions (u : Member) (i : Nat) (p : Progress) :
    Plain (j.storeActions u i p) := by
  unfold storeActions
  cases j.settings.writeback with
  | blocking => exact plain_bring _ _
  | deferred => exact plain_append (plain_awaits _) (plain_submits _)

theorem length_shares_stores (u : Member) (i : Nat) : (u.shares (j.stores i)).length ≤ 1 := by
  cases i with
  | zero => exact Nat.zero_le 1
  | succ i =>
    rw [stores, shares_singleton]
    cases (j.outputStore i).share u.index u.size <;> simp

/-- A transfer that writes back is waited for, or it is the write-back that is carried over. -/
theorem kept_storeActions {carry : List Nat} {rest : List Action} {i : Nat} {p : Progress}
    (hcarry : ∀ n, (j.stored u i p).writeback = some n → n ∈ carry ∨ .await n ∈ rest)
    (hrest : Kept carry (p.submitted + (u.shares (j.stores i)).length) rest) :
    Kept carry p.submitted (j.storeActions u i p ++ rest) := by
  have hlength := length_shares_stores (j := j) u i
  unfold stored at hcarry
  unfold storeActions
  cases hpolicy : j.settings.writeback with
  | blocking => exact kept_bring _ hrest
  | deferred =>
    simp only [hpolicy] at hcarry
    rw [List.append_assoc]
    refine kept_awaits _ (kept_submits _ (fun m hm hlt => ?_) hrest)
    refine hcarry m ?_
    cases hshares : u.shares (j.stores i) with
    | nil => rw [hshares] at hlt; simp at hlt; omega
    | cons d ds =>
      rw [hshares] at hlength hlt
      rw [List.length_cons] at hlength hlt
      rw [List.head?_cons, Option.map_some, Option.some.injEq]
      omega

theorem awaited_storeActions {i : Nat} {p : Progress}
    (hblocking : j.settings.writeback = .blocking → p.writeback = none) :
    ∀ n ∈ p.writeback.toList, .await n ∈ j.storeActions u i p := by
  intro n hn
  unfold storeActions
  cases hpolicy : j.settings.writeback with
  | blocking =>
    rw [hblocking hpolicy] at hn
    cases hn
  | deferred => exact List.mem_append_left _ (List.mem_map_of_mem hn)

theorem stored_blocking {i : Nat} {p : Progress}
    (hblocking : j.settings.writeback = .blocking → p.writeback = none) :
    j.settings.writeback = .blocking → (j.stored u i p).writeback = none := by
  intro hpolicy
  simp only [stored, hpolicy]
  exact hblocking hpolicy

/-- What a unit sends when it fetches: its part of the tile before, and of the next one. -/
theorem sends_fetch (u : Member) (i : Nat) :
    j.sends u (.fetch i) = u.shares (j.stores i) ++ j.fetched u i := by
  simp only [sends, divided, led, fetched, Member.shares, List.flatMap_append, List.append_assoc]

theorem Accepted.segment_fetch (h : j.Accepted) (hu : u ∈ Member.team j.settings.units) {i : Nat}
    (hi : i < j.tileCount) {p : Progress} (hp : j.Stands (.fetch i) p) :
    ∃ as p', p.segment j u = (as, p') ∧ j.Segment u (.fetch i) p as p' := by
  refine ⟨_, _, h.fetch_eq hu hi hp, ?_⟩
  have hnext := nextPhase_fetch hi
  have hsubmissions : submissions (j.storeActions u i p ++ (j.fetched u i).map Action.submit ++
      p.landing.map Action.await) = j.sends u (.fetch i) := by
    rw [submissions_append, submissions_append, submissions_storeActions, submissions_submits,
      submissions_awaits, List.append_nil, sends_fetch]
  refine ⟨?_, by rw [hsubmissions], ?_, ?_, ?_, ?_⟩
  · rw [hnext]
    refine ⟨rfl, rfl, stored_blocking hp.blocking, ?_, ?_, rfl⟩
    · intro hzero
      simp [begun] at hzero
    · intro hlast
      have hend : ¬ i + 1 < j.tileCount := by
        change i + 1 = j.tileCount at hlast
        omega
      rw [fetched_eq_nil hend]
      rfl
  · rw [hsubmissions, sends_fetch, List.length_append]
    exact Nat.add_assoc _ _ _
  · rw [hnext, List.append_assoc]
    refine kept_storeActions (fun n hn => .inl ?_) ?_
    · refine List.mem_append_right _ ?_
      rw [Option.mem_toList]
      exact hn
    · refine kept_submits _ (fun m hm hlt => .inl ?_) ?_
      · refine List.mem_append_left _ ?_
        rw [List.mem_range'_1]
        exact ⟨hm, hlt⟩
      · exact kept_only_awaits _ _ _
  · intro n hn
    rcases List.mem_append.mp hn with hland | hwrite
    · exact List.mem_append_right _ (List.mem_map_of_mem hland)
    · exact List.mem_append_left _
        (List.mem_append_left _ (awaited_storeActions hp.blocking n hwrite))
  · exact plain_append (plain_append (plain_storeActions u i p) (plain_submits _)) (plain_awaits _)

theorem Accepted.segment_fetch_last (h : j.Accepted) (hu : u ∈ Member.team j.settings.units)
    {p : Progress} (hp : j.Stands (.fetch j.tileCount) p) :
    ∃ as p', p.segment j u = (as, p') ∧ j.Segment u (.fetch j.tileCount) p as p' := by
  refine ⟨_, _, h.fetch_last_eq hu hp, ?_⟩
  have hnext := j.nextPhase_last
  have hnone : j.fetched u j.tileCount = [] := fetched_eq_nil (by omega)
  have hbegun : j.begun (if j.params.slowIsExternal then .stageOut else .finished) =
      j.tileCount := by cases j.params.slowIsExternal <;> rfl
  have hsubmissions : submissions (j.storeActions u j.tileCount p ++
      (j.stored u j.tileCount p).writeback.toList.map Action.await) =
      j.sends u (.fetch j.tileCount) := by
    rw [submissions_append, submissions_storeActions, submissions_awaits, sends_fetch, hnone]
  have hlanding := hp.last rfl
  have hpos := h.tileCount_pos
  refine ⟨?_, by rw [hsubmissions], ?_, ?_, ?_, ?_⟩
  · rw [hnext]
    refine ⟨?_, ?_, stored_blocking hp.blocking, ?_, fun _ => hlanding, ?_⟩
    · cases j.params.slowIsExternal <;> rfl
    · rw [hbegun]
      exact hp.loop
    · intro hzero
      omega
    · cases j.params.slowIsExternal <;> rfl
  · rw [hsubmissions, sends_fetch, hnone, List.append_nil]
    rfl
  · refine kept_storeActions (fun n hn => .inr ?_) ?_
    · refine List.mem_map_of_mem ?_
      rw [Option.mem_toList]
      exact hn
    · exact kept_only_awaits _ _ _
  · intro n hn
    rcases List.mem_append.mp hn with hland | hwrite
    · rw [hlanding] at hland
      cases hland
    · exact List.mem_append_left _ (awaited_storeActions hp.blocking n hwrite)
  · exact plain_append (plain_storeActions u _ p) (plain_awaits _)

/-- Submitting and waiting leaves nothing to carry over. -/
theorem segment_of_bring {ph : Phase} {p p' : Progress} {as : List Action}
    (hstands : j.Stands (j.nextPhase ph) p')
    (hsent : (submissions as).Perm (j.sends u ph))
    (hcount : p'.submitted = p.submitted + (submissions as).length)
    (hkept : ∀ carry, Kept carry p.submitted as) (hcarry : ph.carry p = []) (hplain : Plain as) :
    j.Segment u ph p as p' :=
  ⟨hstands, hsent, hcount, hkept _, fun n hn => (by rw [hcarry] at hn; cases hn), hplain⟩

/-- A unit brings what it sends as the leader, and that is all that it sends. -/
theorem segment_of_leads {ph : Phase} {p p' : Progress}
    (hstands : j.Stands (j.nextPhase ph) p') (hsends : j.sends u ph = u.leads (j.led ph))
    (hcount : p'.submitted = p.submitted + (u.leads (j.led ph)).length) (hcarry : ph.carry p = []) :
    j.Segment u ph p (bring p.submitted (u.leads (j.led ph))) p' := by
  refine segment_of_bring hstands ?_ ?_ ?_ hcarry (plain_bring _ _)
  · rw [submissions_bring, hsends]
  · rw [submissions_bring]
    exact hcount
  · exact fun carry => kept_only_bring carry _ _

theorem Accepted.segment_stageIn (h : j.Accepted) {p : Progress} (hp : j.Stands .stageIn p) :
    ∃ as p', p.segment j u = (as, p') ∧ j.Segment u .stageIn p as p' := by
  have heq : p.segment j u = _ := Progress.segment_of_draft (by
    rw [hp.stage]
    exact stageIn_eq (u := u) h.stageInput_eq p)
  refine ⟨_, _, heq, segment_of_leads ?_ rfl rfl rfl⟩
  exact ⟨rfl, hp.loop, hp.blocking, hp.first, hp.last, hp.written⟩

theorem Accepted.segment_prologue (h : j.Accepted) (hu : u ∈ Member.team j.settings.units)
    {p : Progress} (hp : j.Stands .prologue p) :
    ∃ as p', p.segment j u = (as, p') ∧ j.Segment u .prologue p as p' := by
  have heq : p.segment j u = _ := Progress.segment_of_draft (by
    rw [hp.stage]
    exact h.prologue_eq hu p)
  refine ⟨_, _, heq, segment_of_bring ?_ ?_ ?_ ?_ rfl
    (plain_append (plain_bring _ _) (plain_bring _ _))⟩
  · exact ⟨rfl, hp.loop, hp.blocking, hp.first, hp.last, hp.written⟩
  · rw [submissions_append, submissions_bring, submissions_bring]
    exact List.perm_append_comm
  · rw [submissions_append, submissions_bring, submissions_bring, List.length_append]
    rfl
  · exact fun carry => kept_bring _ (kept_only_bring carry _ _)

theorem Accepted.segment_stageOut (h : j.Accepted) {p : Progress} (hp : j.Stands .stageOut p) :
    ∃ as p', p.segment j u = (as, p') ∧ j.Segment u .stageOut p as p' := by
  have heq : p.segment j u = _ := Progress.segment_of_draft (by
    rw [hp.stage]
    exact stageOut_eq (u := u) h.stageOutput_eq p)
  refine ⟨_, _, heq, segment_of_leads ?_ rfl rfl rfl⟩
  exact ⟨rfl, hp.loop, hp.blocking, hp.first, hp.last, hp.written⟩

def computeActions (j : Job) (u : Member) (i : Nat) : List Action :=
  (if u.isLeader then [.inspect (j.callAt i)] else []) ++ [.compute (j.callAt i)]

theorem submissions_computeActions (u : Member) (i : Nat) :
    submissions (j.computeActions u i) = [] := by
  unfold computeActions
  cases u.isLeader <;> rfl

theorem sends_compute (u : Member) (i : Nat) : j.sends u (.compute i) = [] := by
  simp [sends, divided, led, Member.shares, Member.leads]

theorem segment_compute {i : Nat} {p : Progress} (hp : j.Stands (.compute i) p) :
    p.segment j u = (j.computeActions u i, { p with stage := j.stageOf (.fetch (i + 1)) }) ∧
      j.Stands (.fetch (i + 1)) { p with stage := j.stageOf (.fetch (i + 1)) } := by
  refine ⟨Progress.segment_of_draft ?_, ⟨rfl, hp.loop, hp.blocking, hp.first, hp.last, hp.written⟩⟩
  rw [hp.stage]
  unfold computeActions
  cases hlead : u.isLeader <;> simp [draft, stageOf, compute, hlead] <;> rfl

/-- **A unit writes down the segment of the phase in which it stands.** -/
theorem Accepted.segment_of_stands (h : j.Accepted) (hu : u ∈ Member.team j.settings.units) {ph : Phase}
    (hph : j.Valid ph) (hmoves : ∀ i, ph ≠ .compute i) {p : Progress} (hp : j.Stands ph p) :
    ∃ as p', p.segment j u = (as, p') ∧ j.Segment u ph p as p' := by
  cases ph with
  | stageIn => exact h.segment_stageIn hp
  | prologue => exact h.segment_prologue hu hp
  | fetch i =>
    rcases Nat.lt_or_eq_of_le (show i ≤ j.tileCount from hph) with hi | rfl
    · exact h.segment_fetch hu hi hp
    · exact h.segment_fetch_last hu hp
  | compute i => exact absurd rfl (hmoves i)
  | stageOut => exact h.segment_stageOut hp
  | finished =>
    have heq : p.segment j u = ([], p) := Progress.segment_of_draft (by rw [hp.stage]; rfl)
    exact ⟨[], p, heq, segment_of_bring hp
      (by simp [sends, divided, led, Member.shares, Member.leads, submissions]) rfl
      (fun _ => trivial) rfl (fun a ha => by cases ha)⟩

end Job

end TileStream
