import TileStream.Proofs.Layer.Slots

/-! # The phases of a run and what they transfer

Barriers cut a run in phases. In every phase the team moves some whole
transfers: `wholes` lists them, `sends` says which parts of them a unit submits,
and `sends_cover` that the team together leaves no byte out. -/
namespace TileStream

/-- The stretch between two barriers. -/
inductive Phase where
  | stageIn
  | prologue
  /-- Write back tile `i - 1` and fetch tile `i + 1`. -/
  | fetch (i : Nat)
  | compute (i : Nat)
  | stageOut
  | finished
  deriving DecidableEq

/-- A phase is a computation, or the team only moves data. -/
theorem Phase.compute_or_moves (ph : Phase) :
    (∃ i, ph = .compute i) ∨ ∀ i, ph ≠ .compute i := by
  by_cases h : ∃ i, ph = .compute i
  · exact .inl h
  · exact .inr fun i hi => h ⟨i, hi⟩

namespace Job

variable {j : Job}

def tileCount (j : Job) : Nat := j.geometry.tileGrid.size

/-- The bulk copy of the input tensor. -/
def inputStage (j : Job) : Descriptor :=
  staging .gather j.params.slowInput j.params.midInput j.inputBytes

def outputStage (j : Job) : Descriptor :=
  staging .scatter j.params.slowOutput j.params.midOutput j.outputBytes

/-- The tile that is written back before iteration `i`. -/
def stores (j : Job) : Nat → List Descriptor
  | 0 => []
  | i + 1 => [j.outputStore i]

/-- The tile that is fetched in iteration `i`. -/
def inputLoads (j : Job) (i : Nat) : List Descriptor :=
  if i + 1 < j.tileCount then [j.inputLoad (i + 1)] else []

/-- The weights that are fetched in iteration `i`. -/
def weightReloads (j : Job) (i : Nat) : List Descriptor :=
  if j.geometry.tileGrid.changesAt i then j.weightLoads (j.blockOf (i + 1)) else []

/-- The transfers that units divide between them. -/
def divided (j : Job) : Phase → List Descriptor
  | .prologue => [j.inputLoad 0]
  | .fetch i => j.stores i ++ j.inputLoads i
  | _ => []

/-- The transfers that the leader issues alone. -/
def led (j : Job) : Phase → List Descriptor
  | .stageIn => [j.inputStage, j.stageWeights]
  | .prologue => j.weightLoads (j.blockOf 0)
  | .fetch i => j.weightReloads i
  | .stageOut => [j.outputStage]
  | _ => []

/-- The whole transfers of a phase. -/
def wholes (j : Job) (ph : Phase) : List Descriptor := j.divided ph ++ j.led ph

end Job

/-- A unit's share of some transfers. -/
def Member.shares (u : Member) (ds : List Descriptor) : List Descriptor :=
  ds.flatMap fun d => (d.share u.index u.size).toList

/-- Transfers that only the leader issues. -/
def Member.leads (u : Member) (ds : List Descriptor) : List Descriptor :=
  if u.isLeader then ds else []

namespace Job

variable {j : Job}

/-- What a unit submits in a phase. -/
def sends (j : Job) (u : Member) (ph : Phase) : List Descriptor :=
  u.shares (j.divided ph) ++ u.leads (j.led ph)

/-- The phases that are part of the run of a job. -/
def Valid (j : Job) : Phase → Prop
  | .stageIn | .stageOut => j.params.slowIsExternal = true
  | .fetch i => i ≤ j.tileCount
  | .compute i => i < j.tileCount
  | .prologue | .finished => True

theorem Accepted.tileCount_pos (h : j.Accepted) : 0 < j.tileCount :=
  Grid.size_pos (Geometry.tileGrid_regular h.tiled h.small)

theorem changesAt_lt {i : Nat} (h : j.geometry.tileGrid.changesAt i = true) :
    i + 1 < j.tileCount ∧ j.blockOf (i + 1) ≠ j.blockOf i := by
  simpa [Grid.changesAt, tileCount, blockOf] using h

/-- A bulk copy moves the low 32 bits of its size. -/
theorem byteCount_staging (direction : Direction) (slow mid : UInt32) (bytes : Nat) :
    (staging direction slow mid bytes).byteCount = low32 bytes := by
  show (Shape.box (low32 bytes) 1 0 1 0).byteCount = _
  rw [Shape.box_byteCount, Nat.max_self, Nat.mul_one]

/-- A bulk copy into mid memory reads and writes consecutive bytes. -/
theorem staging_gather (slow mid : UInt32) {bytes p : Nat} (hp : p < low32 bytes) :
    (staging .gather slow mid bytes).source p = ⟨.slow, slow.toNat + p⟩ ∧
      (staging .gather slow mid bytes).target p = ⟨.mid, mid.toNat + p⟩ := by
  have hslow := slow.toNat_lt
  refine ⟨?_, rfl⟩
  show (⟨.slow, (Shape.box (low32 bytes) 1 0 1 0).byteAddress slow.toNat p⟩ : Endpoint) = _
  rw [Shape.box_byteAddress (by omega), Nat.mod_eq_of_lt hp]
  simp only [Nat.mul_zero, Nat.add_zero]

/-- So does a bulk copy out of mid memory. -/
theorem staging_scatter (slow mid : UInt32) {bytes p : Nat} (hp : p < low32 bytes) :
    (staging .scatter slow mid bytes).source p = ⟨.mid, mid.toNat + p⟩ ∧
      (staging .scatter slow mid bytes).target p = ⟨.slow, slow.toNat + p⟩ :=
  ⟨rfl, (staging_gather slow mid hp).1⟩

theorem staging_fits (direction : Direction) (slow mid : UInt32) (bytes : Nat) :
    (staging direction slow mid bytes).Fits := by
  have hslow := slow.toNat_lt
  have hmid := mid.toNat_lt
  have hbytes := byteCount_staging direction slow mid bytes
  have hlow : low32 bytes < 0x100000000 := Nat.mod_lt _ (by decide)
  refine ⟨⟨Shape.box_addressed ?_, .inr ?_⟩, ?_⟩
  · show slow.toNat + 1 * 0 + 1 * 0 + low32 bytes < _
    omega
  · show mid.toNat + _ < wordLimit
    unfold wordLimit
    omega
  · unfold maxBuffer
    omega

theorem staging_boxed (direction : Direction) (slow mid : UInt32) {bytes : Nat}
    (hpos : 0 < bytes) (hlt : bytes < 0x100000000) :
    (staging direction slow mid bytes).Boxed bytes 1 0 1 0 ∧
      (staging direction slow mid bytes).byteCount = bytes := by
  have hslow := slow.toNat_lt
  have hmid := mid.toNat_lt
  have hbytes := byteCount_staging direction slow mid bytes
  rw [low32_of_lt hlt] at hbytes
  refine ⟨⟨?_, hpos, ?_, ?_⟩, hbytes⟩
  · rw [staging, low32_of_lt hlt]
    rfl
  · show slow.toNat + 1 * 0 + max 1 1 * 0 + bytes < _
    omega
  · rw [hbytes]
    show mid.toNat + bytes < _
    omega

theorem Accepted.bytes_pos (h : j.Accepted) :
    0 < j.inputBytes ∧ 0 < j.outputBytes ∧ 0 < j.blob.total := by
  have hchannels := Nat.lt_of_lt_of_le h.tiled.block_pos h.tiled.block_le
  have := h.blob_total
  have := h.blob_lambda
  refine ⟨Nat.mul_pos (Nat.mul_pos hchannels h.tiled.rows.extent_pos) h.tiled.cols.extent_pos,
    Nat.mul_pos (Nat.mul_pos hchannels j.geometry.rows.outs_pos) j.geometry.cols.outs_pos, ?_⟩
  omega

theorem Accepted.staging_bytes (h : j.Accepted) : j.inputStage.byteCount = j.inputBytes ∧
    j.outputStage.byteCount = j.outputBytes ∧ j.stageWeights.byteCount = low32 j.blob.total :=
  ⟨(byteCount_staging _ _ _ _).trans (low32_of_lt h.input_lt),
    (byteCount_staging _ _ _ _).trans (low32_of_lt h.output_lt), byteCount_staging _ _ _ _⟩

/-- Every transfer that is divided is a box with few blocks. -/
theorem Accepted.divided_boxed (h : j.Accepted) {ph : Phase} (hph : j.Valid ph) {w : Descriptor}
    (hw : w ∈ j.divided ph) :
    ∃ run m ms o os, w.Boxed run m ms o os ∧ o < 0x1000000 := by
  have hinput : ∀ k < j.tileCount, ∃ run m ms o os,
      (j.inputLoad k).Boxed run m ms o os ∧ o < 0x1000000 := by
    intro k hk
    have hlow := (Axis.low_of_tiled h.tiled.rows h.small.rows
      (Geometry.rowBlock_lt h.tiled h.small k)).2.2
    exact ⟨_, _, _, _, _, (h.inputLoad_boxed hk).1, Nat.lt_trans hlow (by decide)⟩
  cases ph with
  | prologue =>
    cases List.mem_singleton.mp hw
    exact hinput 0 h.tileCount_pos
  | fetch i =>
    rcases List.mem_append.mp hw with hstore | hload
    · cases i with
      | zero => cases hstore
      | succ i =>
        cases List.mem_singleton.mp hstore
        have hi : i < j.tileCount := hph
        have hlow := (Axis.low_of_tiled h.tiled.rows h.small.rows
          (Geometry.rowBlock_lt h.tiled h.small i)).1.2
        exact ⟨_, _, _, _, _, (h.outputStore_boxed hi).1, Nat.lt_trans hlow (by decide)⟩
    · unfold inputLoads at hload
      split at hload
      · rename_i hi
        cases List.mem_singleton.mp hload
        exact hinput (i + 1) hi
      · cases hload
  | stageIn | compute i | stageOut | finished => cases hw

/-- What the leader issues outside the first bulk copy is a box. -/
theorem Accepted.led_box (h : j.Accepted) {ph : Phase} (hph : ph ≠ .stageIn) {w : Descriptor}
    (hw : w ∈ j.led ph) : w.IsBox := by
  cases ph with
  | stageIn => exact absurd rfl hph
  | prologue => exact h.weightLoads_box (blockOf_lt h.tileCount_pos) hw
  | fetch i =>
    change w ∈ j.weightReloads i at hw
    unfold weightReloads at hw
    split at hw
    · rename_i hchange
      exact h.weightLoads_box (blockOf_lt (changesAt_lt hchange).1) hw
    · cases hw
  | stageOut =>
    cases List.mem_singleton.mp hw
    exact ⟨_, _, _, _, _, (staging_boxed _ _ _ h.bytes_pos.2.1 h.output_lt).1⟩
  | compute i | finished => cases hw

theorem Accepted.led_fits (h : j.Accepted) {ph : Phase} {w : Descriptor} (hw : w ∈ j.led ph) : w.Fits := by
  by_cases hph : ph = .stageIn
  · subst hph
    simp only [led, List.mem_cons, List.not_mem_nil, or_false] at hw
    rcases hw with rfl | rfl
    · exact staging_fits _ _ _ _
    · exact staging_fits _ _ _ _
  · exact (h.led_box hph hw).fits

/-- What a unit submits is its share of a transfer, or the leader's own. -/
theorem Accepted.sends_cases (h : j.Accepted) {ph : Phase} (hph : j.Valid ph) {u : Member}
    (hu : u.index < u.size) {d : Descriptor} (hd : d ∈ j.sends u ph) :
    (d.IsBox ∧ ∃ w ∈ j.divided ph, ∃ first, d.Part w first) ∨ d ∈ j.led ph := by
  rcases List.mem_append.mp hd with hshare | hlead
  · obtain ⟨w, hw, hd⟩ := List.mem_flatMap.mp hshare
    obtain ⟨run, m, ms, o, os, hboxed, -⟩ := h.divided_boxed hph hw
    obtain ⟨hbox, -, hpart⟩ := hboxed.share_part hu (Option.mem_toList.mp hd)
    exact .inl ⟨⟨_, _, _, _, _, hbox⟩, w, hw, _, hpart⟩
  · unfold Member.leads at hlead
    split at hlead
    · exact .inr hlead
    · cases hlead

theorem Accepted.sends_fits (h : j.Accepted) {ph : Phase} (hph : j.Valid ph) {u : Member}
    (hu : u.index < u.size) {d : Descriptor} (hd : d ∈ j.sends u ph) : d.Fits := by
  rcases h.sends_cases hph hu hd with ⟨hbox, -⟩ | hled
  · exact hbox.fits
  · exact h.led_fits hled

theorem Accepted.sends_box (h : j.Accepted) {ph : Phase} (hph : j.Valid ph) (hstage : ph ≠ .stageIn)
    {u : Member} (hu : u.index < u.size) {d : Descriptor} (hd : d ∈ j.sends u ph) : d.IsBox := by
  rcases h.sends_cases hph hu hd with ⟨hbox, -⟩ | hled
  · exact hbox
  · exact h.led_box hstage hled

/-- What a unit submits is part of a whole transfer. -/
theorem Accepted.sends_part (h : j.Accepted) {ph : Phase} (hph : j.Valid ph) {u : Member}
    (hu : u.index < u.size) {d : Descriptor} (hd : d ∈ j.sends u ph) :
    ∃ w ∈ j.wholes ph, ∃ first, d.Part w first := by
  rcases h.sends_cases hph hu hd with ⟨-, w, hw, hpart⟩ | hled
  · exact ⟨w, List.mem_append_left _ hw, hpart⟩
  · exact ⟨d, List.mem_append_right _ hled, 0, d.part_self⟩

/-- The team together moves every byte of the whole transfers of a phase. -/
theorem Accepted.sends_cover (h : j.Accepted) {ph : Phase} (hph : j.Valid ph) {units : Nat}
    {ds : List Descriptor} (hds : ∀ d, d ∈ ds ↔ ∃ u ∈ Member.team units, d ∈ j.sends u ph) :
    Covers ds (j.wholes ph) := by
  constructor
  · intro d hd
    obtain ⟨u, hu, hsend⟩ := (hds d).mp hd
    have hmem := Member.mem_team.mp hu
    exact h.sends_part hph (by omega) hsend
  · intro w hw p hp
    rcases List.mem_append.mp hw with hdivided | hled
    · obtain ⟨run, m, ms, o, os, hboxed, -⟩ := h.divided_boxed hph hdivided
      obtain ⟨part, hpart, d, first, q, hshare, hof, hq, hsplit⟩ :=
        hboxed.exists_share (show 0 < max units 1 by omega) hp
      refine ⟨d, (hds d).mpr ⟨⟨part, max units 1⟩, Member.mem_team.mpr ⟨hpart, rfl⟩, ?_⟩, first, q,
        hof, hq, hsplit⟩
      exact List.mem_append_left _ (List.mem_flatMap.mpr ⟨w, hdivided, Option.mem_toList.mpr hshare⟩)
    · refine ⟨w, (hds w).mpr ⟨⟨0, max units 1⟩, Member.mem_team.mpr
        ⟨Nat.lt_of_lt_of_le Nat.zero_lt_one (Nat.le_max_right units 1), rfl⟩, ?_⟩, 0, p,
        w.part_self, hp, by omega⟩
      exact List.mem_append_right _ hled

end Job

end TileStream
