import TileStream.Proofs.Run.Manifest

/-! # How much a run reads

The shares of a transfer together are as long as the transfer, so in a phase a
team reads no more than the whole transfers hold (`teamBytes_le`). `reads` is what
a whole run reads; with a small scratchpad `ahead` bounds what is still to be read
before a phase, which in the beginning is far below the limit of a read counter. -/
namespace TileStream

theorem readBytes_le (t : Tier) (ds : List Descriptor) :
    readBytes t ds ≤ bytesOf ds := by
  induction ds with
  | nil => exact Nat.le_refl 0
  | cons d ds ih =>
    rw [readBytes, bytesOf_cons]
    split <;> omega

theorem readBytes_flatMap {α : Type} (t : Tier) (l : List α) (f : α → List Descriptor) :
    readBytes t (l.flatMap f) = (l.map fun a => readBytes t (f a)).sum := by
  induction l with
  | nil => rfl
  | cons a l ih => rw [List.flatMap_cons, readBytes_append, ih, List.map_cons, List.sum_cons]

namespace Job

variable {j : Job}

def teamBytes (j : Job) (t : Tier) (ph : Phase) : Nat :=
  ((Member.team j.settings.units).map fun u => readBytes t (j.sends u ph)).sum

theorem teamBytes_eq (j : Job) (t : Tier) (ph : Phase) :
    j.teamBytes t ph = readBytes t (j.manifest ph) := by
  rw [teamBytes, ← readBytes_flatMap]
  exact readBytes_perm (j.sends_perm_manifest ph)

theorem Accepted.teamBytes_le (h : j.Accepted) (t : Tier) {ph : Phase} (hph : j.Valid ph) :
    j.teamBytes t ph ≤ bytesOf (j.wholes ph) := by
  rw [teamBytes_eq, ← h.bytesOf_manifest hph]
  exact readBytes_le t _

/-- What a run reads from a tier. -/
def reads (j : Job) (t : Tier) : Nat := readBytes t (j.before .finished)

theorem Accepted.readBytes_next (h : j.Accepted) (t : Tier) {ph : Phase} (hph : j.Valid ph)
    (hgoing : ph ≠ .finished) : readBytes t (j.before (j.nextPhase ph)) =
      readBytes t (j.before ph) + j.teamBytes t ph := by
  rw [readBytes_perm (h.before_next hph hgoing), readBytes_append, teamBytes_eq]

theorem Accepted.readBytes_le_reads (h : j.Accepted) (t : Tier) {ph : Phase} (hph : j.Valid ph) :
    readBytes t (j.before ph) ≤ j.reads t := by
  refine hph.backward (P := fun ph => readBytes t (j.before ph) ≤ j.reads t) (Nat.le_refl _) ?_
  intro ph hph hgoing hle
  rw [h.readBytes_next t hph hgoing] at hle
  omega

/-- What a tile needs: its slots are short, and so are the arrays of a channel block. -/
theorem Fit.tile_bytes (h : j.Fit) {k : Nat} (hk : k < j.tileCount) :
    (j.inputLoad k).byteCount ≤ 0x40000 ∧ (j.outputStore k).byteCount ≤ 0x40000 ∧
      bytesOf (j.weightLoads (j.blockOf k)) ≤ 0xc0000 := by
  have hblock := blockOf_lt hk
  obtain ⟨-, hle, -⟩ := h.chanLen_facts hblock
  have hsmall := h.small.block
  have hinput := h.padAt_lt .input (.of k)
  have houtput := h.padAt_lt .output (.of k)
  have hweights := h.padAt_lt .weights (.of k)
  have hin : (j.inputLoad k).byteCount ≤ (j.scratch.slots .input).slotSize :=
    (h.inputLoad_boxed hk).2
  have hout : (j.outputStore k).byteCount ≤ (j.scratch.slots .output).slotSize :=
    (h.outputStore_boxed hk).2
  have htap : (j.tapLoad (j.blockOf k)).byteCount ≤ (j.scratch.slots .weights).slotSize :=
    (h.tapLoad_boxed hblock).2.2
  refine ⟨by omega, by omega, ?_⟩
  simp only [weightLoads, bytesOf_cons, wordLoad_bytes]
  show _ + (_ + (_ + 0)) ≤ _
  omega

theorem Fit.prologue_bytes (h : j.Fit) : bytesOf (j.wholes .prologue) ≤ 0x200000 := by
  obtain ⟨hinput, -, hweights⟩ := h.tile_bytes h.tileCount_pos
  show bytesOf (j.inputLoad 0 :: j.weightLoads (j.blockOf 0)) ≤ _
  rw [bytesOf_cons]
  omega

theorem Fit.fetch_bytes (h : j.Fit) {i : Nat} (hi : i ≤ j.tileCount) :
    bytesOf (j.wholes (.fetch i)) ≤ 0x200000 := by
  have hstores : bytesOf (j.stores i) ≤ 0x40000 := by
    cases i with
    | zero => exact Nat.zero_le _
    | succ k => exact (h.tile_bytes hi).2.1
  have hloads : bytesOf (j.inputLoads i) ≤ 0x40000 := by
    unfold inputLoads
    split
    · rename_i hnext
      exact (h.tile_bytes hnext).1
    · exact Nat.zero_le _
  have hreloads : bytesOf (j.weightReloads i) ≤ 0xc0000 := by
    unfold weightReloads
    split
    · rename_i hchange
      exact (h.tile_bytes (changesAt_lt hchange).1).2.2
    · exact Nat.zero_le _
  show bytesOf ((j.stores i ++ j.inputLoads i) ++ j.weightReloads i) ≤ _
  rw [bytesOf_append, bytesOf_append]
  omega

/-- A bound of what a run still reads from each tier before a phase. -/
def ahead (j : Job) : Phase → Nat
  | .stageIn => 0x200000 * (j.tileCount + 2) + 0x300000000
  | .prologue => 0x200000 * (j.tileCount + 2) + 0x100000000
  | .fetch i => 0x200000 * (j.tileCount + 1 - i) + 0x100000000
  | .compute i => 0x200000 * (j.tileCount - i) + 0x100000000
  | .stageOut => 0x100000000
  | .finished => 0

/-- A phase reads no more than what the bound loses. -/
theorem Fit.ahead_next (h : j.Fit) (t : Tier) {ph : Phase} (hph : j.Valid ph) :
    j.teamBytes t ph + j.ahead (j.nextPhase ph) ≤ j.ahead ph := by
  have hbytes := h.teamBytes_le t hph
  obtain ⟨hinput, houtput, hweights⟩ := h.staging_bytes
  cases ph with
  | stageIn =>
    change _ ≤ j.inputStage.byteCount + (j.stageWeights.byteCount + 0) at hbytes
    rw [hinput, hweights] at hbytes
    have := h.input_lt
    have hlow : low32 j.blob.total < 0x100000000 := Nat.mod_lt _ (by decide)
    simp only [nextPhase, ahead]
    omega
  | prologue =>
    have := h.prologue_bytes
    simp only [nextPhase, ahead]
    omega
  | fetch i =>
    have := h.fetch_bytes hph
    have hi : i ≤ j.tileCount := hph
    rcases Nat.lt_or_eq_of_le hi with hlt | rfl
    · rw [nextPhase_fetch hlt]
      simp only [ahead]
      omega
    · have hlast : j.ahead (j.nextPhase (.fetch j.tileCount)) ≤ 0x100000000 := by
        rw [nextPhase_last]
        cases j.params.slowIsExternal
        · exact Nat.zero_le _
        · exact Nat.le_refl _
      simp only [ahead] at hlast ⊢
      omega
  | compute i =>
    have hi : i < j.tileCount := hph
    have hnone : bytesOf (j.wholes (.compute i)) = 0 := rfl
    simp only [nextPhase, ahead]
    omega
  | stageOut =>
    change _ ≤ j.outputStage.byteCount + 0 at hbytes
    rw [houtput] at hbytes
    have := h.output_lt
    simp only [nextPhase, ahead]
    omega
  | finished =>
    have hnone : bytesOf (j.wholes .finished) = 0 := rfl
    simp only [nextPhase, ahead]
    omega

theorem Fit.reads_le (h : j.Fit) (t : Tier) {ph : Phase} (hph : j.Valid ph) :
    j.reads t ≤ readBytes t (j.before ph) + j.ahead ph := by
  refine hph.backward (P := fun ph => j.reads t ≤ readBytes t (j.before ph) + j.ahead ph)
    (Nat.le_refl _) ?_
  intro ph hph hgoing hle
  rw [h.readBytes_next t hph hgoing] at hle
  have hahead := h.ahead_next t hph
  omega

theorem Accepted.tileCount_le (h : j.Accepted) : j.tileCount ≤ j.outputBytes :=
  Nat.mul_le_mul (Nat.mul_le_mul (blocks_le h.tiled.block_pos) (blocks_le h.tiled.rows.block_pos))
    (blocks_le h.tiled.cols.block_pos)

/-- No run reads more than `2 ^ 62` bytes. -/
theorem Accepted.ahead_lt (h : j.Accepted) (ph : Phase) : j.ahead ph < 0x4000000000000000 := by
  have := h.tileCount_le
  have := h.output_lt
  cases ph <;> simp only [ahead] <;> omega

end Job

end TileStream
