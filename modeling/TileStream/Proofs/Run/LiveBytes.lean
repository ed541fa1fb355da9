import TileStream.Proofs.Kernel.Contract
import TileStream.Proofs.Run.Hazards

/-! # The bytes that matter

An input slot may be longer than the window that it holds, and a window that
lies in the padding is empty, yet its transfer moves a stray row to the slot,
perhaps while its source is being written. No call reads these bytes. All others
are `Live`, and the transfers of a phase bring each of them from a place that is
live before (`origin_of_live`), so their order does not matter (`alike_next`). -/
namespace TileStream.Job

variable {j : Job} {ph : Phase} {e : Endpoint} {a b : Image}

/-- An endpoint outside the input slots. -/
def OffInput (j : Job) (e : Endpoint) : Prop := ∀ p, ¬ j.InSlot .input p e

/-- When a phase begins, an input slot holds the window of tile `k`. -/
def Resident (j : Job) : Phase → Nat → Prop
  | .fetch i, k => k = i ∧ k < j.tileCount
  | .compute i, k => (k = i ∨ k = i + 1) ∧ k < j.tileCount
  | .stageIn, _ | .prologue, _ | .stageOut, _ | .finished, _ => False

/-- A byte of the window of a tile, in the input slot of the tile. -/
def InWindow (j : Job) (k : Nat) (e : Endpoint) : Prop :=
  ∃ p < j.windowBytes k, (j.inputLoad k).target p = e

/-- A byte that matters when a phase begins. -/
def Live (j : Job) (ph : Phase) (e : Endpoint) : Prop :=
  j.OffInput e ∨ ∃ k, j.Resident ph k ∧ j.InWindow k e

/-- Two images agree on the bytes that matter. -/
def Alike (j : Job) (ph : Phase) (a b : Image) : Prop := ∀ e, j.Live ph e → a e = b e

theorem offInput_of_tier (h : e.tier ≠ .scratchpad) : j.OffInput e := fun _ hs => h hs.1

theorem offInput_of_inMid {addr len : Nat} (h : InMid addr len e) : j.OffInput e :=
  offInput_of_tier (by rw [h.1]; decide)

theorem Accepted.offInput_of_inSlot (h : j.Accepted) {role : Role} {p : Parity}
    (hs : j.InSlot role p e) (hne : role ≠ .input) : j.OffInput e :=
  fun _ hq => hne (h.slot_apart hs hq).1

/-! ## What the transfers of a phase bring -/

/-- What a phase leaves outside the input slots was outside of them before. -/
theorem Separate.origin_of_offInput (h : j.Separate) (hph : j.Valid ph) (he : j.OffInput e) :
    ∃ source, Origin (j.wholes ph) e source ∧ j.OffInput source := by
  by_cases hquiet : Untouched (j.wholes ph) e
  · exact ⟨e, .kept hquiet, he⟩
  obtain ⟨w, hw, p, hp, rfl⟩ := exists_of_not_untouched hquiet
  cases ph with
  | stageIn =>
    have hslow : (w.source p).tier = .slow := by
      simp only [wholes, divided, led, List.nil_append, List.mem_cons, List.not_mem_nil,
        or_false] at hw
      rcases hw with rfl | rfl <;> rfl
    exact ⟨_, h.stage_origin hw hp, offInput_of_tier (by rw [hslow]; decide)⟩
  | prologue =>
    rcases mem_wholes_prologue hw with rfl | hin
    · exact absurd (h.inputLoad_moves h.tileCount_pos hp).2 (he _)
    · have hblob := ((h.weightLoads_moves (blockOf_lt h.tileCount_pos) hin).2 p hp).1
      exact ⟨_, h.prologue_weights_origin hin hp, offInput_of_inMid hblob⟩
  | fetch i =>
    rcases mem_wholes_fetch hw with ⟨k, rfl, rfl⟩ | ⟨hnext, rfl⟩ | ⟨hchange, hin⟩
    · have hdrain := (h.outputStore_moves hph hp).1
      exact ⟨_, h.store_origin hph hp, h.offInput_of_inSlot hdrain (by decide)⟩
    · exact absurd (h.inputLoad_moves hnext hp).2 (he _)
    · have hblob := ((h.weightLoads_moves (blockOf_lt (changesAt_lt hchange).1) hin).2 p hp).1
      exact ⟨_, h.fetch_weights_origin hchange hin hp, offInput_of_inMid hblob⟩
  | stageOut =>
    cases List.mem_singleton.mp hw
    exact ⟨_, h.outputStage_origin hp, offInput_of_tier (fun htier => by cases htier)⟩
  | compute i | finished => cases hw

/-- **What matters after a phase of transfers comes from what matters before it.** -/
theorem Separate.origin_of_live (h : j.Separate) (hph : j.Valid ph) (hmoves : ∀ i, ph ≠ .compute i)
    (he : j.Live (j.nextPhase ph) e) :
    ∃ source, Origin (j.wholes ph) e source ∧ j.Live ph source := by
  rcases he with hoff | ⟨k, hresident, p, hp, rfl⟩
  · obtain ⟨source, horigin, hsource⟩ := h.origin_of_offInput hph hoff
    exact ⟨source, horigin, .inl hsource⟩
  have hwindow : k < j.tileCount → j.OffInput ((j.inputLoad k).source p) := fun hk =>
    offInput_of_inMid (h.inputLoad_window hk hp).2
  cases ph with
  | prologue =>
    obtain ⟨rfl, hk⟩ := hresident
    exact ⟨_, h.prologue_window_origin hp, .inl (hwindow hk)⟩
  | fetch i =>
    rcases Nat.lt_or_eq_of_le (show i ≤ j.tileCount from hph) with hi | rfl
    · rw [nextPhase_fetch hi] at hresident
      obtain ⟨rfl | rfl, hk⟩ := hresident
      · -- the tile that is computed next stays where it is
        have hslot := (h.inputLoad_moves hi (h.inputLoad_window hi hp).1).2
        exact ⟨_, .kept (h.call_untouched hi (.inl hslot)), .inr ⟨k, ⟨rfl, hi⟩, p, hp, rfl⟩⟩
      · exact ⟨_, h.fetch_window_origin hk hp, .inl (hwindow hk)⟩
    · rw [nextPhase_last] at hresident
      cases hext : j.params.slowIsExternal <;> (rw [hext] at hresident; cases hresident)
  | compute i => exact absurd rfl (hmoves i)
  | stageIn | stageOut | finished => cases hresident

/-- Images that agree on what matters still do after a phase of transfers, whatever the order is in which
its parts retire. -/
theorem Separate.alike_next (h : j.Separate) (hph : j.Valid ph) (hmoves : ∀ i, ph ≠ .compute i)
    {ds ds' : List Descriptor} (hcover : Covers ds (j.wholes ph)) (hcover' : Covers ds' (j.wholes ph))
    (halike : j.Alike ph a b) : j.Alike (j.nextPhase ph) (a.applyAll ds) (b.applyAll ds') := by
  intro e he
  obtain ⟨source, horigin, hsource⟩ := h.origin_of_live hph hmoves he
  rw [hcover.origin horigin, hcover'.origin horigin]
  exact halike source hsource

/-! ## What a call reads and writes -/

theorem live_compute_of_fetch {i : Nat} (h : j.Live (.fetch (i + 1)) e) : j.Live (.compute i) e :=
  h.imp_right fun ⟨k, ⟨hk, hlt⟩, hwindow⟩ => ⟨k, ⟨.inr hk, hlt⟩, hwindow⟩

/-- **What the call of a tile reads matters**, and it is not what the call writes. -/
theorem Accepted.live_of_mayRead (h : j.Accepted) {i : Nat} (hi : i < j.tileCount)
    (he : (j.callAt i).MayRead e) :
    j.Live (.compute i) e ∧ j.InCall i e ∧ ¬ j.InSlot .output (.of i) e := by
  obtain ⟨ranges, hranges, r, hr, htier, hlo, hhi⟩ := he
  rw [h.readRanges_eq hi] at hranges
  cases hranges
  obtain ⟨tier, addr⟩ := e
  cases htier
  obtain ⟨n, rfl⟩ : ∃ n, addr = r.1 + n := ⟨addr - r.1, (Nat.add_sub_of_le hlo).symm⟩
  have hn : n < r.2 := Nat.lt_of_add_lt_add_left hhi
  have hcall := h.range_inCall hi (List.mem_append_left _ hr) (n := n) (by omega)
  rcases h.readRange_cases hi hr with rfl | hslots
  · have hwindow : n < j.windowBytes i := by
      rw [windowBytes_eq]
      exact hn
    have hslot := (h.inputLoad_moves hi (h.inputLoad_window hi hwindow).1).2
    exact ⟨.inr ⟨i, ⟨.inl rfl, hi⟩, n, hwindow, rfl⟩, hcall, h.not_inSlot (by decide) hslot _⟩
  · rcases hslots n (by omega) with hslot | hslot
    · exact ⟨.inl (h.offInput_of_inSlot hslot (by decide)), hcall,
        h.not_inSlot (by decide) hslot _⟩
    · exact ⟨.inl (h.offInput_of_inSlot hslot (by decide)), hcall,
        h.not_inSlot (by decide) hslot _⟩

theorem Accepted.writes_of_mayWrite (h : j.Accepted) {i : Nat} (hi : i < j.tileCount)
    (he : (j.callAt i).MayWrite e) : (j.callAt i).Writes e := by
  obtain ⟨r, hr, hin⟩ := he
  rw [h.writeRange_eq hi] at hr
  cases hr
  exact hin

end TileStream.Job
