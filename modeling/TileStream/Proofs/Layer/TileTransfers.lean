import TileStream.Proofs.Layer.TileWindows
import TileStream.Proofs.Schedule.Iterations

/-! # The transfers of a sound job in closed form

For tile `k` of the grid: `inputLoad` brings its window, `outputStore` writes it
back, `weightLoads` brings the weights and requant arrays of a channel block,
and `callAt` is its kernel call. The `_eq` lemmas say that the job computes
exactly these, without a fault. -/
namespace TileStream

open Unsigned

theorem Scratch.Partitions.slot_le_start {s : Scratch} {g : Geometry} (h : s.Partitions g) (role : Role)
    (p : Parity) : s.slot role p + (s.slots role).slotSize ≤ s.workspace.start := by
  have := h.workspace_start
  have := h.requant_base
  have := h.weights_base
  have := h.output_base
  simp only [SlotPair.stop] at *
  cases role <;> cases p <;>
    simp only [Scratch.slot, Scratch.slots, SlotPair.slot, Parity.index] <;> omega

theorem Scratch.Partitions.weights_below_requant {s : Scratch} {g : Geometry} (h : s.Partitions g)
    (p q : Parity) : s.slot .weights p + s.weights.slotSize ≤ s.slot .requant q := by
  have hbase := h.requant_base
  simp only [SlotPair.stop] at hbase
  cases p <;> cases q <;>
    simp only [Scratch.slot, Scratch.slots, SlotPair.slot, Parity.index] <;> omega

/-! ## Transfers -/

namespace Job

variable {j : Job}

def inputTensor (j : Job) : Tensor := ⟨j.geometry.input, 8, ⟨.mid, j.params.midInput.toNat⟩⟩

def outputTensor (j : Job) : Tensor :=
  ⟨j.geometry.outExtents, 8, ⟨.mid, j.params.midOutput.toNat⟩⟩

/-- The scratchpad endpoint at an offset. -/
def padAt (j : Job) (offset : Nat) : Endpoint := ⟨.scratchpad, j.params.localBase.toNat + offset⟩

def blockOf (j : Job) (k : Nat) : Nat := j.geometry.tileGrid.blockAt k

def inputTile (j : Job) (k : Nat) : Tile :=
  j.inputTensor.boxOf (j.geometry.inRows k) (j.geometry.inCols k) (j.geometry.chans (j.blockOf k))

def outputTile (j : Job) (k : Nat) : Tile :=
  j.outputTensor.boxOf (j.geometry.outRows k) (j.geometry.outCols k)
    (j.geometry.chans (j.blockOf k))

/-- The transfer that brings the window of tile `k` into its slot. -/
def inputLoad (j : Job) (k : Nat) : Descriptor :=
  ⟨.input, .gather, (j.inputTile k).ext, j.padAt (j.scratch.slot .input (.of k)),
    (j.inputTile k).shape⟩

def outputStore (j : Job) (k : Nat) : Descriptor :=
  ⟨.output, .scatter, (j.outputTile k).ext, j.padAt (j.scratch.slot .output (.of k)),
    (j.outputTile k).shape⟩

/-- The endpoint at an offset of the weight blob in mid memory. -/
def blobAt (j : Job) (offset : Nat) : Endpoint := ⟨.mid, j.params.midWeights.toNat + offset⟩

def taps (j : Job) : Nat := j.geometry.kernel * j.geometry.kernel

/-- The transfer that brings the weights of channel block `b`. -/
def tapLoad (j : Job) (b : Nat) : Descriptor :=
  ⟨.weights, .gather, j.blobAt (j.blob.weights + (j.geometry.chans b).start * j.taps),
    j.padAt (j.scratch.slot .weights (.of b)), .box j.taps 1 0 (j.geometry.chans b).len j.taps⟩

/-- The transfer that brings a part of a requant array to an offset of the scratchpad. -/
def wordLoad (j : Job) (array offset b : Nat) : Descriptor :=
  ⟨.requant, .gather, j.blobAt (array + (j.geometry.chans b).start * 4), j.padAt offset,
    .box ((j.geometry.chans b).len * 4) 1 0 1 0⟩

/-- The transfers that bring weights, multipliers and biases of channel block `b`. -/
def weightLoads (j : Job) (b : Nat) : List Descriptor :=
  [j.tapLoad b, j.wordLoad j.blob.kappa (j.scratch.kappaOffset (.of b)) b,
    j.wordLoad j.blob.lambda (j.scratch.lambdaOffset (.of b)) b]

def callAt (j : Job) (k : Nat) : Call where
  input := (j.padAt (j.scratch.slot .input (.of k))).addr
  inputDims := (j.inputTile k).dims
  weights := (j.padAt (j.scratch.slot .weights (.of (j.blockOf k)))).addr
  channels := (j.geometry.chans (j.blockOf k)).len
  kernel := j.geometry.kernel
  stride := j.geometry.stride
  boundary := j.geometry.tileGrid.boundaryAt k
  padding := j.geometry.padding
  workspace := (j.padAt j.scratch.workspace.start).addr
  workspaceBytes := j.scratch.workspace.len
  kappa := (j.padAt (j.scratch.kappaOffset (.of (j.blockOf k)))).addr
  lambda := (j.padAt (j.scratch.lambdaOffset (.of (j.blockOf k)))).addr
  requant := j.params.requant
  output := (j.padAt (j.scratch.slot .output (.of k))).addr
  outputDims := (j.outputTile k).dims

theorem Accepted.inputTensor_narrow (h : j.Accepted) : j.inputTensor.Narrow := by
  have := h.small.cols.extent
  have hwidth : j.geometry.input.width < 0x40000 := by
    change j.geometry.input.width < _ at this
    omega
  exact ⟨⟨rfl, h.small.channels, hwidth⟩, j.params.midInput.toNat_lt⟩

theorem Accepted.outputTensor_narrow (h : j.Accepted) : j.outputTensor.Narrow :=
  ⟨⟨rfl, h.small.channels, h.small.cols.outs_lt⟩, j.params.midOutput.toNat_lt⟩

theorem Accepted.inputTensor_bytes (h : j.Accepted) : j.inputTensor.bytes = .ok j.inputBytes :=
  h.inputTensor_narrow.bytes_eq h.tiled.cols.extent_pos (Nat.lt_trans h.input_lt (by decide))

theorem Accepted.outputTensor_bytes (h : j.Accepted) : j.outputTensor.bytes = .ok j.outputBytes :=
  h.outputTensor_narrow.bytes_eq j.geometry.cols.outs_pos (Nat.lt_trans h.output_lt (by decide))

theorem blockOf_lt {k : Nat} (hk : k < j.geometry.tileGrid.size) :
    j.blockOf k < j.geometry.tileGrid.channels := Grid.blockAt_lt hk

theorem Accepted.tiles_eq (h : j.Accepted) :
    j.tiles.geometry = j.geometry ∧ j.tiles.input = j.inputTensor ∧
      j.tiles.output = j.outputTensor ∧ j.tiles.blob = j.blob ∧
      j.tiles.weights = ⟨.mid, j.params.midWeights.toNat⟩ := by
  rw [h.tiles]
  exact ⟨rfl, rfl, rfl, rfl, rfl⟩

theorem Accepted.inputTile_eq (h : j.Accepted) {k : Nat} (hk : k < j.geometry.tileGrid.size) :
    j.tiles.inputTile (j.geometry.tileGrid.tileAt k) = .ok (j.inputTile k) := by
  obtain ⟨hgeometry, hinput, -⟩ := h.tiles_eq
  have hwindow := Tiles.inputTile_eq_window (t := j.tiles) (k := k)
  rw [hgeometry] at hwindow
  rw [hwindow h.tiled h.small hk, hinput]
  exact h.inputTensor_narrow.window_eq
    (Axis.low_of_tiled h.tiled.rows h.small.rows (Geometry.rowBlock_lt h.tiled h.small k)).2
    (Axis.low_of_tiled h.tiled.cols h.small.cols (Geometry.colBlock_lt h.tiled h.small k)).2
    (Geometry.chans_low h.tiled h.small (blockOf_lt hk))

theorem Accepted.outputTile_eq (h : j.Accepted) {k : Nat} (hk : k < j.geometry.tileGrid.size) :
    j.tiles.outputTile (j.geometry.tileGrid.tileAt k) = .ok (j.outputTile k) := by
  obtain ⟨hgeometry, -, houtput, -⟩ := h.tiles_eq
  have hwindow := Tiles.outputTile_eq_window (t := j.tiles) (k := k)
  rw [hgeometry] at hwindow
  rw [hwindow h.tiled h.small hk, houtput]
  exact h.outputTensor_narrow.window_eq
    (Axis.low_of_tiled h.tiled.rows h.small.rows (Geometry.rowBlock_lt h.tiled h.small k)).1
    (Axis.low_of_tiled h.tiled.cols h.small.cols (Geometry.colBlock_lt h.tiled h.small k)).1
    (Geometry.chans_low h.tiled h.small (blockOf_lt hk))

/-! ## The scratchpad -/

theorem Accepted.slot_le_start (h : j.Accepted) (role : Role) (p : Parity) :
    j.scratch.slot role p + (j.scratch.slots role).slotSize ≤ j.scratch.workspace.start :=
  h.scratch.slot_le_start role p

theorem Accepted.slot_le (h : j.Accepted) (role : Role) (p : Parity) :
    j.scratch.slot role p + (j.scratch.slots role).slotSize ≤ j.scratch.total := by
  have := h.slot_le_start role p
  have := h.scratch.total
  omega

/-- What lies before the workspace has an address. -/
theorem Accepted.pad_eq (h : j.Accepted) {offset : Nat} (hle : offset ≤ j.scratch.workspace.start) :
    j.pad offset = .ok (j.padAt offset) := by
  have := h.low
  rw [pad, add_of_lt (by omega)]
  rfl

theorem Accepted.pad_slot (h : j.Accepted) (role : Role) (p : Parity) :
    j.pad (j.scratch.slot role p) = .ok (j.padAt (j.scratch.slot role p)) :=
  h.pad_eq (Nat.le_trans (Nat.le_add_right _ _) (h.slot_le_start role p))

theorem Accepted.pad_kappa (h : j.Accepted) (p : Parity) :
    j.pad (j.scratch.kappaOffset p) = .ok (j.padAt (j.scratch.kappaOffset p)) :=
  h.pad_slot .requant p

theorem Accepted.pad_lambda (h : j.Accepted) (p : Parity) :
    j.pad (j.scratch.lambdaOffset p) = .ok (j.padAt (j.scratch.lambdaOffset p)) := by
  have hslot := h.slot_le_start .requant p
  have hsize : 8 * j.geometry.block.channels ≤ (j.scratch.slots .requant).slotSize :=
    h.scratch.requant_size
  have hbias := h.scratch.bias
  refine h.pad_eq ?_
  show j.scratch.slot .requant p + _ ≤ _
  omega

theorem Accepted.pad_workspace (h : j.Accepted) :
    j.pad j.scratch.workspace.start = .ok (j.padAt j.scratch.workspace.start) :=
  h.pad_eq (Nat.le_refl _)

/-! ## What the job computes -/

theorem Accepted.inputTransfer_eq (h : j.Accepted) {k : Nat} (hk : k < j.geometry.tileGrid.size) :
    j.inputTransfer (j.geometry.tileGrid.tileAt k) (.of k) = .ok (j.inputLoad k) := by
  rw [inputTransfer, h.inputTile_eq hk, Checked.ok_bind, h.pad_slot, Checked.ok_bind]
  rfl

theorem Accepted.outputTransfer_eq (h : j.Accepted) {k : Nat} (hk : k < j.geometry.tileGrid.size) :
    j.outputTransfer (j.geometry.tileGrid.tileAt k) (.of k) = .ok (j.outputStore k) := by
  rw [outputTransfer, h.outputTile_eq hk, Checked.ok_bind, h.pad_slot, Checked.ok_bind]
  rfl

theorem Accepted.call_eq (h : j.Accepted) {k : Nat} (hk : k < j.geometry.tileGrid.size) :
    j.call (j.geometry.tileGrid.iterationAt k) = .ok (j.callAt k) := by
  unfold call
  simp only [Grid.iterationAt, RoleSlots.ofExec]
  rw [h.inputTile_eq hk, Checked.ok_bind, h.outputTile_eq hk, Checked.ok_bind, h.pad_slot,
    Checked.ok_bind, h.pad_slot, Checked.ok_bind, h.pad_workspace, Checked.ok_bind, h.pad_kappa,
    Checked.ok_bind, h.pad_lambda, Checked.ok_bind, h.pad_slot, Checked.ok_bind]
  rfl

theorem Accepted.taps_le (h : j.Accepted) :
    j.geometry.input.channels * j.taps + 8 * j.geometry.input.channels ≤ j.blob.total := by
  have := h.blob_kappa
  have := h.blob_lambda
  have := h.blob_total
  rw [taps, ← Nat.mul_assoc]
  omega

theorem Accepted.weightTile_eq (h : j.Accepted) {b : Nat} (hb : b < j.geometry.tileGrid.channels) :
    j.tiles.weightTile b = .ok ⟨(j.tapLoad b).ext, (j.tapLoad b).shape,
      ⟨j.geometry.kernel, j.geometry.kernel, (j.geometry.chans b).len⟩⟩ := by
  have htotal := h.taps_le
  have hblob := h.blob_low
  have hzero := h.blob_weights
  have hbase := j.params.midWeights.toNat_lt
  have hlen : (j.geometry.chans b).start + (j.geometry.chans b).len ≤ j.geometry.input.channels :=
    Geometry.chanStop_le h.tiled hb
  have hstart : (j.geometry.chans b).start * j.taps ≤ j.geometry.input.channels * j.taps :=
    Nat.mul_le_mul_right _ (Nat.le_trans (Nat.le_add_right _ _) hlen)
  have htile := Tiles.weightTile_eq_bind (t := ⟨j.geometry, j.inputTensor, j.outputTensor,
    ⟨.mid, j.params.midWeights.toNat⟩, j.blob⟩) h.tiled h.small hzero hb
  rw [h.tiles]
  refine htile.trans ?_
  rw [Endpoint.displace_of_lt (by
    show j.params.midWeights.toNat + (j.blob.weights + (j.geometry.chans b).start * j.taps) < _
    omega), Checked.ok_bind]
  rfl

theorem Accepted.wordTile_eq (h : j.Accepted) {b : Nat} (hb : b < j.geometry.tileGrid.channels)
    {array : Nat} (harray : array + 4 * j.geometry.input.channels ≤ j.blob.total) (offset : Nat) :
    j.tiles.wordTile array b = .ok ⟨(j.wordLoad array offset b).ext,
      (j.wordLoad array offset b).shape, ⟨1, 1, (j.geometry.chans b).len⟩⟩ := by
  have hblob := h.blob_low
  have hbase := j.params.midWeights.toNat_lt
  have hlen : (j.geometry.chans b).start + (j.geometry.chans b).len ≤ j.geometry.input.channels :=
    Geometry.chanStop_le h.tiled hb
  have htile := Tiles.wordTile_eq_bind (t := ⟨j.geometry, j.inputTensor, j.outputTensor,
    ⟨.mid, j.params.midWeights.toNat⟩, j.blob⟩) h.tiled h.small
    (show array < 0x4000000000000000 by omega) hb
  rw [h.tiles]
  refine htile.trans ?_
  rw [Endpoint.displace_of_lt (by
    show j.params.midWeights.toNat + (array + (j.geometry.chans b).start * 4) < _
    omega), Checked.ok_bind]
  rfl

theorem Accepted.weightTransfers_eq (h : j.Accepted) {b : Nat}
    (hb : b < j.geometry.tileGrid.channels) :
    j.weightTransfers b (.of b) = .ok (j.weightLoads b) := by
  obtain ⟨-, -, -, hblobs, -⟩ := h.tiles_eq
  have hkappa := h.blob_lambda
  have hlambda := h.blob_total
  rw [weightTransfers, h.weightTile_eq hb, Checked.ok_bind, Tiles.kappaTile, hblobs,
    h.wordTile_eq hb (by omega) (j.scratch.kappaOffset (.of b)), Checked.ok_bind, Tiles.lambdaTile,
    hblobs, h.wordTile_eq hb (by omega) (j.scratch.lambdaOffset (.of b)), Checked.ok_bind,
    h.pad_slot, Checked.ok_bind, h.pad_kappa, Checked.ok_bind, h.pad_lambda, Checked.ok_bind]
  rfl

end Job

end TileStream
