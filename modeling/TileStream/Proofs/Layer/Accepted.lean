import TileStream.Proofs.Grid.Odometer
import TileStream.Proofs.Layer.Construction
import TileStream.Proofs.Layer.ParamCodec

/-! # What an accepted layer is known to satisfy

`Job.Accepted` collects what later proofs use of a job whose sizes are bounded:
both axes can be tiled, and the partition of the scratchpad has room for the
largest tile of every role and fits the capacity. `accepted_of_create` derives it
from acceptance. `Job.Fit` adds that the scratchpad is no larger than 256 KiB, and
`Job.Sound` what only the caller can promise, that the tensors in mid memory lie
apart, and that the weight blob is short (`sound_of_ofWords`). `Job.Separate` asks for
the first of the two only, and `Job.Made` ties a job to the layer, the words and the
settings that it was made from. -/
namespace TileStream

open Unsigned

namespace Geometry

/-- Every size of the layer is below `2 ^ 16`. -/
structure Small (g : Geometry) : Prop where
  rows : g.rows.Small g.block.height
  cols : g.cols.Small g.block.width
  channels : g.input.channels < 0x10000
  block : g.block.channels < 0x10000

/-- What validation leaves of a geometry. -/
structure Tiled (g : Geometry) : Prop where
  rows : g.rows.Tiled g.block.height
  cols : g.cols.Tiled g.block.width
  block_pos : 0 < g.block.channels
  block_le : g.block.channels ≤ g.input.channels
  bits : g.elementBits = 8

def outExtents (g : Geometry) : Extents := ⟨g.input.channels, g.rows.outs, g.cols.outs⟩

/-- The grid of tiles over the output tensor. -/
def tileGrid (g : Geometry) : Grid :=
  ⟨blocks g.input.channels g.block.channels, blocks g.rows.outs g.block.height,
    blocks g.cols.outs g.block.width⟩

/-- The channels of channel block `b`; the last block gets the remainder. -/
def chanLen (g : Geometry) (b : Nat) : Nat :=
  min g.block.channels (g.input.channels - b * g.block.channels)

variable {g : Geometry}

theorem validate_inv (h : g.validate.run = .ok (.ok ())) : g.Tiled := by
  unfold validate at h
  cases hfind : g.sizes.find? (·.2 == 0) with
  | some size =>
    rw [hfind] at h
    obtain ⟨_, hthrow, _⟩ := Refusal.bind_eq_ok.mp h
    exact absurd hthrow Refusal.throw_ne_ok
  | none =>
    rw [hfind] at h
    obtain ⟨-, hh, hw, hk, hstr, hbc, hbh, hbw⟩ := positive_iff.mp (positive_of_find_none hfind)
    obtain ⟨hbits, h⟩ := Refusal.check_eq_ok.mp h
    obtain ⟨_, hrows, h⟩ := Refusal.bind_eq_ok.mp h
    obtain ⟨_, hcols, h⟩ := Refusal.bind_eq_ok.mp h
    refine ⟨Axis.validate_inv hh hk hstr hbh hrows,
      Axis.validate_inv hw hk hstr hbw hcols, hbc, ?_, by simpa using hbits⟩
    rcases Nat.lt_or_ge g.input.channels g.block.channels with hlarge | hle
    · rw [if_pos hlarge] at h
      exact absurd h Refusal.throw_ne_ok
    · exact hle

/-- The padded tensor of a layer of small sizes is not large. -/
theorem Small.volume_le (h : g.Small) : g.volume ≤ 0x9000000000000 :=
  Nat.mul_le_mul (Nat.le_of_lt h.channels)
    (Nat.mul_le_mul (Nat.le_of_lt h.rows.reach_lt) (Nat.le_of_lt h.cols.reach_lt))

theorem Small.handy (h : g.Small) (hworkspace : g.workspaceBytes < 0x10000) : g.Handy :=
  ⟨Nat.lt_of_le_of_lt h.volume_le (by decide), Nat.lt_trans hworkspace (by decide)⟩

theorem output_eq (h : g.Tiled) (hs : g.Small) : g.output = .ok g.outExtents := by
  unfold output
  rw [Axis.outputExtent_of_word hs.rows.word h.rows.kernel_pos h.rows.kernel_le h.rows.stride_pos,
    Checked.ok_bind, Axis.outputExtent_of_word hs.cols.word h.cols.kernel_pos h.cols.kernel_le
    h.cols.stride_pos, Checked.ok_bind]
  rfl

theorem output_inv {out : Extents} (h : g.output = .ok out) : out = g.outExtents := by
  obtain ⟨height, hheight, h⟩ := Checked.bind_eq_ok.mp h
  obtain ⟨width, hwidth, h⟩ := Checked.bind_eq_ok.mp h
  rw [← Checked.pure_eq_ok.mp h, Axis.outputExtent_inv hheight, Axis.outputExtent_inv hwidth]
  rfl

theorem Checks.grid_eq (hg : g.Checks) : g.grid = .ok g.tileGrid := by
  have hout : g.output = .ok g.outExtents := by
    obtain ⟨out, hout⟩ := hg.output_exists
    rw [hout, output_inv hout]
  rw [grid, hout, Checked.ok_bind, ceilDiv_of_pos hg.block_pos, Checked.ok_bind,
    ceilDiv_of_pos hg.rows.block_pos, Checked.ok_bind, ceilDiv_of_pos hg.cols.block_pos]
  rfl

theorem grid_eq (h : g.Tiled) (hs : g.Small) : g.grid = .ok g.tileGrid := by
  unfold grid
  rw [output_eq h hs, Checked.ok_bind, ceilDiv_of_pos h.block_pos, Checked.ok_bind,
    ceilDiv_of_pos h.rows.block_pos, Checked.ok_bind, ceilDiv_of_pos h.cols.block_pos,
    Checked.ok_bind]
  rfl

theorem tileGrid_regular (h : g.Tiled) (hs : g.Small) : g.tileGrid.Regular := by
  have hchannels := h.block_pos
  have hble := h.block_le
  have hsmall := hs.channels
  have hc := blocks_le (n := g.input.channels) h.block_pos
  have hr := blocks_le (n := g.rows.outs) h.rows.block_pos
  have hw := blocks_le (n := g.cols.outs) h.cols.block_pos
  have hrows := hs.rows.outs_lt
  have hcols := hs.cols.outs_lt
  refine ⟨blocks_pos h.block_pos (by omega), blocks_pos h.rows.block_pos g.rows.outs_pos,
    blocks_pos h.cols.block_pos g.cols.outs_pos, ?_⟩
  have hplane := Nat.mul_le_mul (show _ ≤ 0x10000 by exact Nat.le_trans hc (by omega))
    (show blocks g.rows.outs g.block.height ≤ 0x40000 by omega)
  have hall := Nat.mul_le_mul hplane (show blocks g.cols.outs g.block.width ≤ 0x40000 by omega)
  exact Nat.lt_of_le_of_lt hall (by decide)

theorem chanLen_pos (h : g.Tiled) {b : Nat} (hb : b < g.tileGrid.channels) : 0 < g.chanLen b := by
  have := (lt_blocks_iff h.block_pos).mp hb
  have := h.block_pos
  unfold chanLen
  omega

theorem chanLen_le (g : Geometry) (b : Nat) : g.chanLen b ≤ g.block.channels := Nat.min_le_left _ _

theorem chanStop_le (h : g.Tiled) {b : Nat} (hb : b < g.tileGrid.channels) :
    b * g.block.channels + g.chanLen b ≤ g.input.channels := by
  have := (lt_blocks_iff h.block_pos).mp hb
  unfold chanLen
  omega

theorem chanLen_cover (h : g.Tiled) {c : Nat} (hc : c < g.input.channels) :
    c / g.block.channels < g.tileGrid.channels ∧
      c % g.block.channels < g.chanLen (c / g.block.channels) := by
  have hsplit := Nat.div_add_mod c g.block.channels
  have hmod := Nat.mod_lt c h.block_pos
  rw [Nat.mul_comm] at hsplit
  constructor
  · refine (lt_blocks_iff h.block_pos).mpr ?_
    omega
  · unfold chanLen
    omega

end Geometry

/-! ## The partition -/

/-- A partition has room for the largest tile of every role, one part after the other. -/
structure Scratch.Partitions (s : Scratch) (g : Geometry) : Prop where
  input_base : s.input.base = 0
  output_base : s.output.base = s.input.stop
  weights_base : s.weights.base = s.output.stop
  requant_base : s.requant.base = s.weights.stop
  workspace_start : s.workspace.start = s.requant.stop
  total : s.total = s.workspace.start + s.workspace.len
  input_size : g.rows.window g.block.height * g.cols.window g.block.width * g.block.channels ≤
    s.input.slotSize
  output_size : g.block.height * g.block.width * g.block.channels ≤ s.output.slotSize
  weights_size : g.block.channels * g.kernel * g.kernel ≤ s.weights.slotSize
  requant_size : 8 * g.block.channels ≤ s.requant.slotSize
  bias : s.biasOffset = 4 * g.block.channels

theorem SlotPair.place_inv {base bytes : Nat} {p : SlotPair} (h : SlotPair.place base bytes = .ok p) :
    p.base = base ∧ bytes ≤ p.slotSize ∧ p.slotSize % 4 = 0 := by
  obtain ⟨size, hsize, h⟩ := Checked.bind_eq_ok.mp h
  obtain ⟨_, _, h⟩ := Checked.bind_eq_ok.mp h
  obtain ⟨_, _, h⟩ := Checked.bind_eq_ok.mp h
  cases h
  have := eq_of_roundUp4 hsize
  exact ⟨rfl, by show bytes ≤ size; omega, by show size % 4 = 0; omega⟩

theorem Geometry.maxInputTileBytes_inv {g : Geometry} (hone : g.elementBytes = 1) {bytes : Nat}
    (h : g.maxInputTileBytes = .ok bytes) :
    bytes = g.rows.window g.block.height * g.cols.window g.block.width * g.block.channels := by
  obtain ⟨rows, hrows, h⟩ := Checked.bind_eq_ok.mp h
  obtain ⟨cols, hcols, h⟩ := Checked.bind_eq_ok.mp h
  obtain ⟨_, hplane, h⟩ := Checked.bind_eq_ok.mp h
  obtain ⟨_, hall, h⟩ := Checked.bind_eq_ok.mp h
  rw [mul_eq_ok_iff] at hplane hall h
  rw [← h.2, ← hall.2, ← hplane.2, hone, Nat.mul_one, Axis.maxWindow_inv hrows,
    Axis.maxWindow_inv hcols]

theorem Geometry.maxOutputTileBytes_inv {g : Geometry} (hone : g.elementBytes = 1) {bytes : Nat}
    (h : g.maxOutputTileBytes = .ok bytes) :
    bytes = g.block.height * g.block.width * g.block.channels := by
  obtain ⟨_, hplane, h⟩ := Checked.bind_eq_ok.mp h
  obtain ⟨_, hall, h⟩ := Checked.bind_eq_ok.mp h
  rw [mul_eq_ok_iff] at hplane hall h
  rw [← h.2, ← hall.2, ← hplane.2, hone, Nat.mul_one]

theorem Geometry.maxWeightTileBytes_inv {g : Geometry} {bytes : Nat}
    (h : g.maxWeightTileBytes = .ok bytes) : bytes = g.block.channels * g.kernel * g.kernel := by
  obtain ⟨_, hrow, h⟩ := Checked.bind_eq_ok.mp h
  rw [mul_eq_ok_iff] at hrow h
  rw [← h.2, ← hrow.2]

theorem Geometry.requantPairBytes_inv {g : Geometry} {bytes : Nat}
    (h : g.requantPairBytes = .ok bytes) : bytes = 8 * g.block.channels := by
  obtain ⟨_, htwo, h⟩ := Checked.bind_eq_ok.mp h
  rw [mul_eq_ok_iff] at htwo h
  omega

namespace Scratch

/-- The parts of a partition, each planned where the part before it ends. -/
structure Planned (s : Scratch) (g : Geometry) : Prop where
  input : ∃ bytes, g.maxInputTileBytes = .ok bytes ∧ SlotPair.place 0 bytes = .ok s.input
  output : ∃ bytes, g.maxOutputTileBytes = .ok bytes ∧
    SlotPair.place s.input.stop bytes = .ok s.output
  weights : ∃ bytes, g.maxWeightTileBytes = .ok bytes ∧
    SlotPair.place s.output.stop bytes = .ok s.weights
  requant : ∃ bytes, g.requantPairBytes = .ok bytes ∧
    SlotPair.place s.weights.stop bytes = .ok s.requant
  workspace_start : s.workspace.start = s.requant.stop
  workspace_len : roundUp4 g.workspaceBytes = .ok s.workspace.len
  total : s.workspace.stop = .ok s.total
  bias : mul g.block.channels 4 = .ok s.biasOffset

variable {g : Geometry} {s : Scratch}

theorem planned_of_plan (h : plan g = .ok s) : s.Planned g := by
  obtain ⟨inputBytes, hinputBytes, h⟩ := Checked.bind_eq_ok.mp h
  obtain ⟨input, hinput, h⟩ := Checked.bind_eq_ok.mp h
  obtain ⟨outputBytes, houtputBytes, h⟩ := Checked.bind_eq_ok.mp h
  obtain ⟨output, houtput, h⟩ := Checked.bind_eq_ok.mp h
  obtain ⟨weightBytes, hweightBytes, h⟩ := Checked.bind_eq_ok.mp h
  obtain ⟨weights, hweights, h⟩ := Checked.bind_eq_ok.mp h
  obtain ⟨requantBytes, hrequantBytes, h⟩ := Checked.bind_eq_ok.mp h
  obtain ⟨requant, hrequant, h⟩ := Checked.bind_eq_ok.mp h
  obtain ⟨workspace, hworkspace, h⟩ := Checked.bind_eq_ok.mp h
  obtain ⟨total, htotal, h⟩ := Checked.bind_eq_ok.mp h
  obtain ⟨bias, hbias, h⟩ := Checked.bind_eq_ok.mp h
  cases h
  exact {
    input := ⟨inputBytes, hinputBytes, hinput⟩
    output := ⟨outputBytes, houtputBytes, houtput⟩
    weights := ⟨weightBytes, hweightBytes, hweights⟩
    requant := ⟨requantBytes, hrequantBytes, hrequant⟩
    workspace_start := rfl
    workspace_len := hworkspace
    total := htotal
    bias := hbias }

theorem plan_inv (hbits : g.elementBits = 8) (h : plan g = .ok s) : s.Partitions g := by
  have hone : g.elementBytes = 1 := by simp [Geometry.elementBytes, elementBytes, hbits]
  have hplanned := planned_of_plan h
  obtain ⟨inputBytes, hinputBytes, hinput⟩ := hplanned.input
  obtain ⟨outputBytes, houtputBytes, houtput⟩ := hplanned.output
  obtain ⟨weightBytes, hweightBytes, hweights⟩ := hplanned.weights
  obtain ⟨requantBytes, hrequantBytes, hrequant⟩ := hplanned.requant
  obtain ⟨hibase, hisize, -⟩ := SlotPair.place_inv hinput
  obtain ⟨hobase, hosize, -⟩ := SlotPair.place_inv houtput
  obtain ⟨hwbase, hwsize, -⟩ := SlotPair.place_inv hweights
  obtain ⟨hrbase, hrsize, -⟩ := SlotPair.place_inv hrequant
  have hbias := (mul_eq_ok_iff.mp hplanned.bias).2
  exact {
    input_base := hibase
    output_base := hobase
    weights_base := hwbase
    requant_base := hrbase
    workspace_start := hplanned.workspace_start
    total := (add_eq_ok_iff.mp hplanned.total).2.symm
    input_size := Geometry.maxInputTileBytes_inv hone hinputBytes ▸ hisize
    output_size := Geometry.maxOutputTileBytes_inv hone houtputBytes ▸ hosize
    weights_size := Geometry.maxWeightTileBytes_inv hweightBytes ▸ hwsize
    requant_size := Geometry.requantPairBytes_inv hrequantBytes ▸ hrsize
    bias := by omega }

/-- Every part has a whole number of 32-bit words. -/
theorem plan_aligned (h : plan g = .ok s) :
    (∀ role, (s.slots role).slotSize % 4 = 0) ∧ s.workspace.len % 4 = 0 := by
  have hplanned := planned_of_plan h
  have hworkspace := eq_of_roundUp4 hplanned.workspace_len
  refine ⟨fun role => ?_, by omega⟩
  cases role with
  | input => obtain ⟨_, -, hplace⟩ := hplanned.input; exact (SlotPair.place_inv hplace).2.2
  | weights => obtain ⟨_, -, hplace⟩ := hplanned.weights; exact (SlotPair.place_inv hplace).2.2
  | output => obtain ⟨_, -, hplace⟩ := hplanned.output; exact (SlotPair.place_inv hplace).2.2
  | requant => obtain ⟨_, -, hplace⟩ := hplanned.requant; exact (SlotPair.place_inv hplace).2.2

end Scratch

/-! ## Jobs -/

/-- Two ranges of addresses do not meet. -/
def Apart (addr len addr' len' : Nat) : Prop := addr + len ≤ addr' ∨ addr' + len' ≤ addr

instance (addr len addr' len' : Nat) : Decidable (Apart addr len addr' len') :=
  inferInstanceAs (Decidable (_ ∨ _))

namespace Job

def inputBytes (j : Job) : Nat :=
  j.geometry.input.channels * j.geometry.input.height * j.geometry.input.width

def outputBytes (j : Job) : Nat :=
  j.geometry.input.channels * j.geometry.rows.outs * j.geometry.cols.outs

/-- The number of units is a machine word, no size is large, and both tensors are shorter than `2 ^ 32`
bytes. -/
structure Bounded (j : Job) : Prop where
  units_lt : j.settings.units < wordLimit
  small : j.geometry.Small
  input_lt : j.inputBytes < 0x100000000
  output_lt : j.outputBytes < 0x100000000

/-- The tensors and the weight blob do not overlap in mid memory. -/
structure TensorsApart (j : Job) : Prop where
  input_output : Apart j.params.midInput.toNat j.inputBytes j.params.midOutput.toNat j.outputBytes
  input_blob : Apart j.params.midInput.toNat j.inputBytes j.params.midWeights.toNat j.blob.total
  output_blob : Apart j.params.midOutput.toNat j.outputBytes j.params.midWeights.toNat j.blob.total

/-- What the caller of a job promises: its size is bounded, the weight blob is shorter than `2 ^ 32` bytes
like the tensors, and in mid memory they do not overlap. -/
structure Promised (j : Job) : Prop extends Bounded j, TensorsApart j where
  blob_lt : j.blob.total < 0x100000000

/-- What is known of an accepted job of bounded size, wherever its tensors lie and however large its
scratchpad is. -/
structure Accepted (j : Job) : Prop extends Bounded j where
  tiled : j.geometry.Tiled
  scratch : j.scratch.Partitions j.geometry
  tiles : j.tiles = ⟨j.geometry, ⟨j.geometry.input, 8, ⟨.mid, j.params.midInput.toNat⟩⟩,
    ⟨j.geometry.outExtents, 8, ⟨.mid, j.params.midOutput.toNat⟩⟩,
    ⟨.mid, j.params.midWeights.toNat⟩, j.blob⟩
  blob_weights : j.blob.weights = 0
  blob_kappa : j.geometry.input.channels * j.geometry.kernel * j.geometry.kernel ≤ j.blob.kappa
  blob_lambda : j.blob.lambda = j.blob.kappa + 4 * j.geometry.input.channels
  blob_total : j.blob.total = j.blob.lambda + 4 * j.geometry.input.channels
  blob_low : j.blob.total < 0x100000000000000
  /-- The slots lie low in the address space. -/
  low : j.params.localBase.toNat + j.scratch.workspace.start ≤ 0x200000000000000
  within : j.params.localBase.toNat + j.scratch.total ≤ j.settings.localCapacity

/-- An accepted job of bounded size whose tensors lie apart. -/
structure Separate (j : Job) : Prop extends Accepted j, TensorsApart j

/-- An accepted job of bounded size whose scratchpad has at most 256 KiB. -/
structure Fit (j : Job) : Prop extends Accepted j where
  capacity : j.params.localBase.toNat + j.scratch.total ≤ 0x40000

/-- What is known of an accepted job whose caller keeps the promises. -/
structure Sound (j : Job) : Prop extends Separate j, Fit j where
  blob_lt : j.blob.total < 0x100000000
  shift : j.params.outShift.toNat < 32

theorem blob_inv {g : Geometry} {b : WeightBlob} (h : g.blob = .ok b) :
    b.weights = 0 ∧ g.input.channels * g.kernel * g.kernel ≤ b.kappa ∧
      b.lambda = b.kappa + 4 * g.input.channels ∧ b.total = b.lambda + 4 * g.input.channels := by
  obtain ⟨_, hrow, h⟩ := Checked.bind_eq_ok.mp h
  obtain ⟨_, hbytes, h⟩ := Checked.bind_eq_ok.mp h
  obtain ⟨kappa, hkappa, h⟩ := Checked.bind_eq_ok.mp h
  obtain ⟨_, hwords, h⟩ := Checked.bind_eq_ok.mp h
  obtain ⟨lambda, hlambda, h⟩ := Checked.bind_eq_ok.mp h
  obtain ⟨_, hwords', h⟩ := Checked.bind_eq_ok.mp h
  obtain ⟨total, htotal, h⟩ := Checked.bind_eq_ok.mp h
  cases h
  have hround := eq_of_roundUp4 hkappa
  rw [mul_eq_ok_iff] at hrow hbytes hwords hwords'
  rw [add_eq_ok_iff] at hlambda htotal
  obtain ⟨-, rfl⟩ := hrow
  obtain ⟨-, rfl⟩ := hbytes
  refine ⟨rfl, ?_, ?_, ?_⟩
  · show _ ≤ kappa
    omega
  · show lambda = kappa + _
    omega
  · show total = lambda + _
    omega

/-- The partition of a sound job has room for two input slots at least. -/
theorem total_pos {s : Scratch} {g : Geometry} (h : s.Partitions g) (hg : g.Tiled) :
    0 < s.total := by
  have hrows := Axis.window_pos hg.rows
  have hcols := Axis.window_pos hg.cols
  have hbytes := Nat.mul_pos (Nat.mul_pos hrows hcols) hg.block_pos
  have := h.input_size
  have := h.total
  have := h.workspace_start
  have := h.requant_base
  have := h.weights_base
  have := h.output_base
  simp only [SlotPair.stop] at *
  omega

theorem shift_of_ofWords {words : List UInt32} {p : Params} (h : Params.ofWords words = .ok p) :
    p.outShift.toNat < 32 :=
  UInt32.lt_iff_toNat_lt.mp (Params.ofWords_inv h).2.1

/-- What acceptance leaves of a job, whatever its sizes. -/
structure Admitted (j : Job) : Prop where
  checks : j.geometry.Checks
  tiled : j.geometry.Tiled
  planned : Scratch.plan j.geometry = .ok j.scratch
  tiles : Tiles.place j.geometry ⟨.mid, j.params.midInput.toNat⟩ ⟨.mid, j.params.midOutput.toNat⟩
    ⟨.mid, j.params.midWeights.toNat⟩ = .ok j.tiles
  blob : j.geometry.blob = .ok j.blob
  aligned : j.params.localBase.toNat % 4 = 0
  within : j.params.localBase.toNat + j.scratch.total ≤ j.settings.localCapacity

theorem Admitted.tiles_eq {j : Job} (h : j.Admitted) :
    j.tiles = ⟨j.geometry, ⟨j.geometry.input, 8, ⟨.mid, j.params.midInput.toNat⟩⟩,
      ⟨j.geometry.outExtents, 8, ⟨.mid, j.params.midOutput.toNat⟩⟩,
      ⟨.mid, j.params.midWeights.toNat⟩, j.blob⟩ := by
  obtain ⟨out, hout, hplace⟩ := Checked.bind_eq_ok.mp h.tiles
  rw [h.blob, Checked.ok_bind] at hplace
  rw [← Checked.pure_eq_ok.mp hplace, Geometry.output_inv hout, h.tiled.bits]

theorem Admitted.scratch {j : Job} (h : j.Admitted) : j.scratch.Partitions j.geometry :=
  Scratch.plan_inv h.tiled.bits h.planned

theorem admitted_of_create {g : Geometry} {p : Params} {settings : Settings} {j : Job}
    (h : (create g p settings).run = .ok (.ok j)) :
    j.Admitted ∧ j.geometry = g ∧ j.params = p ∧ j.settings = settings := by
  obtain ⟨_, hvalid, h⟩ := Refusal.bind_eq_ok.mp h
  obtain ⟨scratch, hscratch, h⟩ := Refusal.bind_eq_ok.mp h
  obtain ⟨_, hfits, h⟩ := Refusal.bind_eq_ok.mp h
  obtain ⟨tiles, htiles, h⟩ := Refusal.bind_eq_ok.mp h
  obtain ⟨blob, hblob, h⟩ := Refusal.bind_eq_ok.mp h
  cases h
  rw [Refusal.adapt_eq_ok] at hvalid hfits
  rw [Refusal.lift_eq_ok] at hscratch htiles hblob
  have hchecks := Geometry.checks_of_validate hvalid
  have htiled := Geometry.validate_inv hvalid
  have hpos := total_pos (Scratch.plan_inv htiled.bits hscratch) htiled
  unfold Scratch.validateAt at hfits
  obtain ⟨haligned, hfits⟩ := Refusal.check_eq_ok.mp hfits
  replace haligned := Decidable.not_not.mp haligned
  have hwithin : p.localBase.toNat + scratch.total ≤ settings.localCapacity := by
    rcases Nat.lt_or_ge (settings.localCapacity - p.localBase.toNat) scratch.total with hlt | hge
    · rw [if_pos hlt] at hfits
      obtain ⟨_, _, hthrow⟩ := Refusal.bind_eq_ok.mp hfits
      exact absurd hthrow Refusal.throw_ne_ok
    · omega
  exact ⟨⟨hchecks, htiled, hscratch, htiles, hblob, haligned, hwithin⟩, rfl, rfl, rfl⟩

/-- What acceptance leaves of a job of bounded size. -/
theorem Admitted.accepted {j : Job} (h : j.Admitted) (hj : j.Bounded) : j.Accepted := by
  -- which faults could have stopped it does not matter here
  have hany : Geometry.Overflows fun _ => True := ⟨trivial, trivial⟩
  have hvolume := hj.small.volume_le
  obtain ⟨hstart, -⟩ := (h.checks.plan_ends (.inr hany)).of_eq_ok h.planned
  have hblob := (h.checks.blob_ends (.inr hany)).of_eq_ok h.blob
  have hbase := j.params.localBase.toNat_lt
  obtain ⟨hweights, hkappa, hlambda, htotal⟩ := blob_inv h.blob
  exact {
    toBounded := hj
    tiled := h.tiled
    scratch := h.scratch
    tiles := h.tiles_eq
    blob_weights := hweights
    blob_kappa := hkappa
    blob_lambda := hlambda
    blob_total := htotal
    blob_low := by omega
    low := by omega
    within := h.within }

theorem accepted_of_create {g : Geometry} {p : Params} {settings : Settings} {j : Job}
    (h : (create g p settings).run = .ok (.ok j)) (hj : j.Bounded) :
    j.Accepted ∧ j.geometry = g ∧ j.params = p ∧ j.settings = settings := by
  obtain ⟨hadmitted, hsame⟩ := admitted_of_create h
  exact ⟨hadmitted.accepted hj, hsame⟩

/-- The same layer with another queue, under another policy for writing back. -/
def under (j : Job) (depth : Nat) (policy : Writeback) : Job :=
  { j with settings := { j.settings with queueDepth := depth, writeback := policy } }

/-- Acceptance depends neither on the queue nor on the policy. -/
theorem create_under {g : Geometry} {p : Params} {settings : Settings} {j : Job}
    (h : (create g p settings).run = .ok (.ok j)) (depth : Nat) (policy : Writeback) :
    (create g p { settings with queueDepth := depth, writeback := policy }).run =
      .ok (.ok (j.under depth policy)) := by
  obtain ⟨_, hvalid, h⟩ := Refusal.bind_eq_ok.mp h
  obtain ⟨scratch, hscratch, h⟩ := Refusal.bind_eq_ok.mp h
  obtain ⟨_, hfits, h⟩ := Refusal.bind_eq_ok.mp h
  obtain ⟨tiles, htiles, h⟩ := Refusal.bind_eq_ok.mp h
  obtain ⟨blob, hblob, h⟩ := Refusal.bind_eq_ok.mp h
  cases h
  exact Refusal.bind_eq_ok.mpr ⟨_, hvalid, Refusal.bind_eq_ok.mpr ⟨scratch, hscratch,
    Refusal.bind_eq_ok.mpr ⟨_, hfits, Refusal.bind_eq_ok.mpr ⟨tiles, htiles,
      Refusal.bind_eq_ok.mpr ⟨blob, hblob, rfl⟩⟩⟩⟩⟩

/-- A job of bounded size that was accepted for a scratchpad of at most 256 KiB is fit to run. -/
theorem fit_of_create {g : Geometry} {p : Params} {settings : Settings} {j : Job}
    (h : (create g p settings).run = .ok (.ok j)) (hcapacity : settings.localCapacity ≤ 0x40000)
    (hj : j.Bounded) : j.Fit ∧ j.geometry = g ∧ j.params = p ∧ j.settings = settings := by
  obtain ⟨haccepted, hgeometry, hparams, rfl⟩ := accepted_of_create h hj
  exact ⟨⟨haccepted, Nat.le_trans haccepted.within hcapacity⟩, hgeometry, hparams, rfl⟩

/-- Words are accepted if the block that they spell is. -/
theorem create_of_ofWords {g : Geometry} {words : List UInt32} {settings : Settings} {j : Job}
    (h : (ofWords g words settings).run = .ok (.ok j)) :
    ∃ p, Params.ofWords words = .ok p ∧ (create g p settings).run = .ok (.ok j) := by
  unfold ofWords at h
  cases hwords : Params.ofWords words with
  | error cause =>
    rw [hwords] at h
    exact absurd h Refusal.throw_ne_ok
  | ok p =>
    rw [hwords] at h
    exact ⟨p, rfl, h⟩

/-- A job is made for the given layer, words and settings, with each number of its block in its place among
the words. -/
structure Made (j : Job) (g : Geometry) (words : List UInt32) (settings : Settings) : Prop where
  geometry : j.geometry = g
  params : Params.ofWords words = .ok j.params
  spelt : j.params.SpeltBy words
  settings : j.settings = settings

theorem made_of_ofWords {g : Geometry} {words : List UInt32} {settings : Settings} {j : Job}
    (h : (ofWords g words settings).run = .ok (.ok j)) : j.Admitted ∧ j.Made g words settings := by
  obtain ⟨p, hwords, hcreate⟩ := create_of_ofWords h
  obtain ⟨hadmitted, hgeometry, rfl, hsettings⟩ := admitted_of_create hcreate
  exact ⟨hadmitted, hgeometry, hwords, Params.speltBy_of_ofWords hwords, hsettings⟩

theorem accepted_of_ofWords {g : Geometry} {words : List UInt32} {settings : Settings} {j : Job}
    (h : (ofWords g words settings).run = .ok (.ok j)) (hj : j.Bounded) :
    j.Accepted ∧ j.Made g words settings := by
  obtain ⟨hadmitted, hmade⟩ := made_of_ofWords h
  exact ⟨hadmitted.accepted hj, hmade⟩

theorem fit_of_ofWords {g : Geometry} {words : List UInt32} {settings : Settings} {j : Job}
    (h : (ofWords g words settings).run = .ok (.ok j)) (hcapacity : settings.localCapacity ≤ 0x40000)
    (hj : j.Bounded) : j.Fit ∧ j.Made g words settings := by
  obtain ⟨haccepted, hmade⟩ := accepted_of_ofWords h hj
  have hwithin := haccepted.within
  rw [hmade.settings] at hwithin
  exact ⟨⟨haccepted, Nat.le_trans hwithin hcapacity⟩, hmade⟩

/-- A job that was accepted, as its caller promised, is sound. -/
theorem sound_of_ofWords {g : Geometry} {words : List UInt32} {settings : Settings} {j : Job}
    (h : (ofWords g words settings).run = .ok (.ok j))
    (hcapacity : settings.localCapacity ≤ 0x40000) (hj : j.Promised) :
    j.Sound ∧ j.Made g words settings := by
  obtain ⟨hfit, hmade⟩ := fit_of_ofWords h hcapacity hj.toBounded
  exact ⟨{ hfit, hj with shift := shift_of_ofWords hmade.params }, hmade⟩

end Job

/-! ## A small layer -/

/-- A layer of two channel blocks and four tiles in each. -/
def smallLayer : Geometry where
  input := ⟨2, 3, 3⟩
  kernel := 3
  stride := 1
  padding := .uniform 1
  block := ⟨1, 2, 2⟩
  elementBits := 8
  workspaceBytes := 0

/-- Its parameter block: tensors in external memory, the scratchpad at address 16. -/
def smallWords : List UInt32 := [0, 0x100, 0x200, 0x1000, 0, 0x1100, 0x1200, 16, 1, 0, 0, 0, 3]

/-- Two units with a queue of two transfers. -/
def smallSettings : Settings := ⟨2, 0x1000, 2, .deferred⟩

def smallJob : Job :=
  match (Job.ofWords smallLayer smallWords smallSettings).run with
  | .ok (.ok j) => j
  | _ => default

theorem smallJob_accepted :
    (Job.ofWords smallLayer smallWords smallSettings).run = .ok (.ok smallJob) := rfl

theorem smallJob_promised : smallJob.Promised where
  units_lt := by decide
  small := ⟨⟨by decide, by decide, by decide, by decide, by decide, by decide⟩,
    ⟨by decide, by decide, by decide, by decide, by decide, by decide⟩, by decide, by decide⟩
  input_lt := by decide
  output_lt := by decide
  blob_lt := by decide
  input_output := by decide
  input_blob := by decide
  output_blob := by decide

end TileStream
