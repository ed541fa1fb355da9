import TileStream.Proofs.Kernel.Depthwise
import TileStream.Proofs.Layer.TileTransfers

/-! # The calls of layers of any size

The kernel call of a tile is made from the window of the tile, its output box and
its slots. `Job.call_ends` says what it is for every accepted layer and every tile,
however large the tensors are: the dimensions are those of the spans, the buffers
are the slots, and only an address that is longer than a word can be missing. The
partition bounds the buffers, and with them the numbers of the kernel
(`Calls.sized`, `Calls.placed`). -/
namespace TileStream

open Unsigned Checked TileStream.Geometry

variable {fault : Fault → Prop}

/-! ## Windows -/

namespace Tensor

variable {t : Tensor} {rows cols chans : Span} {size : Nat}

theorem pixelStride_ends (hbits : t.elementBits = 8)
    (h : t.extents.channels < wordLimit ∨ fault .mulOverflow) :
    Ends fault (· = t.extents.channels) t.pixelStride := by
  have hends := mul_ends (a := t.extents.channels) (b := 1) (h.imp_left fun hlt => by omega)
  rwa [Nat.mul_one, ← elementBytes_of_bits hbits] at hends

theorem rowStride_ends (hbits : t.elementBits = 8)
    (hchannels : t.extents.channels < wordLimit ∨ fault .mulOverflow)
    (h : t.extents.width * t.extents.channels < wordLimit ∨ fault .mulOverflow) :
    Ends fault (· = t.extents.width * t.extents.channels) t.rowStride :=
  (pixelStride_ends hbits hchannels).bind_eq (mul_ends h)

/-- A window of a tensor whose offsets are at most `size` in every direction. -/
theorem window_ends (hbits : t.elementBits = 8) (hbase : t.base.addr < 0x100000000)
    (hplane : t.extents.width * t.extents.channels ≤ size)
    (hdown : rows.start * (t.extents.width * t.extents.channels) ≤ size)
    (hacross : cols.start * t.extents.channels ≤ size)
    (hchans : chans.start + chans.len ≤ t.extents.channels) (hchannels : t.extents.channels ≤ size)
    (h : size < 0x400000000000000 ∨ Overflows fault) :
    Ends fault (fun tile => tile.dims = ⟨rows.len, cols.len, chans.len⟩) (t.window rows cols chans) := by
  have hadd := h.imp_right (·.1)
  have hmul := h.imp_right (·.2)
  have hone := elementBytes_of_bits hbits
  have hword : ∀ {n : Nat}, n ≤ 4 * size → n < wordLimit ∨ fault .mulOverflow := fun hn =>
    hmul.imp_left fun hlt => by unfold wordLimit; omega
  have hpixelStride : Ends fault _ t.pixelStride := pixelStride_ends hbits (hword (by omega))
  have hrowStride : Ends fault _ t.rowStride :=
    rowStride_ends hbits (hword (by omega)) (hword (by omega))
  have hoffset : Ends fault (· ≤ 3 * size) (t.offset rows.start cols.start chans.start) := by
    refine hrowStride.bind_eq ((mul_ends (hword (by omega))).bind_eq ?_)
    refine hpixelStride.bind_eq ((mul_ends (hword (by omega))).bind_eq ?_)
    refine (add_ends (hadd.imp_left fun hlt => by unfold wordLimit; omega)).bind_eq ?_
    rw [hone]
    refine (mul_ends (hword (by omega))).bind_eq ?_
    exact (add_ends (hadd.imp_left fun hlt => by unfold wordLimit; omega)).of_eq (by omega)
  refine hoffset.bind fun offset hoff => ?_
  have hext : Ends fault (fun _ => True) (t.base.displace (signed offset)) := by
    refine (Signed.add_ends (hadd.imp_left fun hlt => ?_)).bind fun _ _ => trivial
    rw [signed_of_lt (by omega), signed_of_lt (by omega)]
    exact ⟨by omega, by omega⟩
  refine hext.bind fun ext _ => ?_
  rw [hone]
  refine (mul_ends (hword (by omega))).bind_eq ?_
  exact hpixelStride.bind_eq (hrowStride.bind_eq rfl)

end Tensor

namespace Geometry

variable {g : Geometry}

/-- The products in the offset of a box within the padded tensor. -/
theorem Checks.offsets_le (hg : g.Checks) {y x w : Nat} (hy : y ≤ g.rows.reach)
    (hx : x ≤ g.cols.reach) (hw : w ≤ g.cols.reach) :
    w * g.input.channels ≤ g.volume ∧ y * (w * g.input.channels) ≤ g.volume ∧
      x * g.input.channels ≤ g.volume := by
  have hone : 1 ≤ g.rows.reach := hg.reach_pos.1
  have hplane := box_le hone hw (Nat.le_refl _)
  have hdown := box_le hy hw (Nat.le_refl _)
  have hacross := box_le hone hx (Nat.le_refl _)
  rw [Nat.one_mul] at hplane hacross
  rw [Nat.mul_assoc] at hdown
  exact ⟨hplane, hdown, hacross⟩

end Geometry

/-- A block of an axis and its window begin within the padded extent. -/
theorem Axis.starts_le {a : Axis} {block i : Nat} (h : a.Tiled block) (hi : i < blocks a.outs block) :
    i * block ≤ a.reach ∧ a.inStart block i ≤ a.reach := by
  have hstop := outStop_le h hi
  have hlen := outLen_pos h hi
  have houts := outs_le h.kernel_pos h.kernel_le
  have hreach := last_reach h.kernel_le (show i * block < a.outs by omega)
  refine ⟨by omega, ?_⟩
  unfold inStart
  omega

/-! ## Tiles -/

namespace Job

variable {j : Job}

theorem Admitted.channels_lt (h : j.Admitted) : j.geometry.input.channels < wordLimit := by
  obtain ⟨row, hrow, -⟩ := Checked.bind_eq_ok.mp h.blob
  have hword := (mul_eq_ok_iff.mp hrow).1
  have hle := Nat.le_mul_of_pos_right j.geometry.input.channels h.tiled.rows.kernel_pos
  exact Nat.lt_of_le_of_lt hle hword

section Tiles

variable {c : Coord} {b : Nat}

/-- The input window of a tile of the grid. -/
theorem Admitted.inputTile_ends (h : j.Admitted) (hfault : j.geometry.Handy ∨ Overflows fault)
    (hb : c.inChannel < j.geometry.tileGrid.channels) (hr : c.height < j.geometry.tileGrid.height)
    (hq : c.width < j.geometry.tileGrid.width) :
    Ends fault (fun tile => tile.dims = ⟨j.geometry.rows.inLen j.geometry.block.height c.height,
      j.geometry.cols.inLen j.geometry.block.width c.width, j.geometry.chanLen c.inChannel⟩)
      (j.tiles.inputTile c) := by
  have hgeometry : j.tiles.geometry = j.geometry := by rw [h.tiles_eq]
  have hspans := Tiles.inputSpans_of_lt (t := j.tiles) (c := c) (hgeometry ▸ h.tiled)
    (hgeometry ▸ h.checks) (hgeometry ▸ hr) (hgeometry ▸ hq)
  have hchans := Tiles.channelSpan_of_lt (t := j.tiles) (hgeometry ▸ h.tiled)
    (hgeometry ▸ h.channels_lt) (hgeometry ▸ hb)
  have hwidth : j.geometry.input.width ≤ j.geometry.cols.reach :=
    Nat.le_trans (Nat.le_add_right _ _) (Nat.le_add_right _ _)
  obtain ⟨hplane, hdown, hacross⟩ := h.checks.offsets_le
    (Axis.starts_le h.tiled.rows hr).2 (Axis.starts_le h.tiled.cols hq).2 hwidth
  rw [Tiles.inputTile, hspans, Checked.ok_bind]
  simp only [hchans, Checked.ok_bind]
  rw [h.tiles_eq]
  exact Tensor.window_ends rfl j.params.midInput.toNat_lt hplane hdown hacross
    (Geometry.chanStop_le h.tiled hb) h.checks.channels_le (hfault.imp_left (·.volume))

/-- The output box of a tile of the grid. -/
theorem Admitted.outputTile_ends (h : j.Admitted) (hfault : j.geometry.Handy ∨ Overflows fault)
    (hb : c.outChannel < j.geometry.tileGrid.channels) (hr : c.height < j.geometry.tileGrid.height)
    (hq : c.width < j.geometry.tileGrid.width) :
    Ends fault (fun tile => tile.dims = ⟨j.geometry.rows.outLen j.geometry.block.height c.height,
      j.geometry.cols.outLen j.geometry.block.width c.width, j.geometry.chanLen c.outChannel⟩)
      (j.tiles.outputTile c) := by
  have hgeometry : j.tiles.geometry = j.geometry := by rw [h.tiles_eq]
  have hspans := Tiles.outputSpans_of_lt (t := j.tiles) (c := c) (hgeometry ▸ h.tiled)
    (hgeometry ▸ h.checks) (hgeometry ▸ hr) (hgeometry ▸ hq)
  have hchans := Tiles.channelSpan_of_lt (t := j.tiles) (hgeometry ▸ h.tiled)
    (hgeometry ▸ h.channels_lt) (hgeometry ▸ hb)
  have hwidth := Axis.outs_le h.tiled.cols.kernel_pos h.tiled.cols.kernel_le
  obtain ⟨hplane, hdown, hacross⟩ := h.checks.offsets_le
    (Axis.starts_le h.tiled.rows hr).1 (Axis.starts_le h.tiled.cols hq).1 hwidth
  rw [Tiles.outputTile, hspans, Checked.ok_bind]
  simp only [hchans, Checked.ok_bind]
  rw [h.tiles_eq]
  exact Tensor.window_ends rfl j.params.midOutput.toNat_lt hplane hdown hacross
    (Geometry.chanStop_le h.tiled hb) h.checks.channels_le (hfault.imp_left (·.volume))

end Tiles

/-! ## Calls -/

/-- The call that an iteration makes: the dimensions of its tile, and its slots as buffers. -/
structure Calls (j : Job) (i : Iteration) (call : Call) : Prop where
  inputDims : call.inputDims = ⟨j.geometry.rows.inLen j.geometry.block.height i.exec.height,
    j.geometry.cols.inLen j.geometry.block.width i.exec.width, j.geometry.chanLen i.exec.inChannel⟩
  outputDims : call.outputDims = ⟨j.geometry.rows.outLen j.geometry.block.height i.exec.height,
    j.geometry.cols.outLen j.geometry.block.width i.exec.width, j.geometry.chanLen i.exec.outChannel⟩
  channels : call.channels = j.geometry.chanLen i.exec.outChannel
  kernel : call.kernel = j.geometry.kernel
  stride : call.stride = j.geometry.stride
  padding : call.padding = j.geometry.padding
  requant : call.requant = j.params.requant
  input : call.input = j.params.localBase.toNat + j.scratch.slot .input i.slots.input.exec
  weights : call.weights = j.params.localBase.toNat + j.scratch.slot .weights i.slots.weights.exec
  kappa : call.kappa = j.params.localBase.toNat + j.scratch.kappaOffset i.slots.weights.exec
  lambda : call.lambda = j.params.localBase.toNat + j.scratch.lambdaOffset i.slots.weights.exec
  output : call.output = j.params.localBase.toNat + j.scratch.slot .output i.slots.output

theorem pad_of_lt {offset : Nat} (h : j.params.localBase.toNat + offset < wordLimit) :
    j.pad offset = .ok ⟨.scratchpad, j.params.localBase.toNat + offset⟩ := by
  rw [pad, add_of_lt h]
  rfl

/-- **Every tile of an accepted layer has its call**, unless an address is longer than a word. -/
theorem Admitted.call_ends (h : j.Admitted) (hfault : j.geometry.Handy ∨ Overflows fault)
    (hroom : j.params.localBase.toNat + j.scratch.total < wordLimit) {i : Iteration}
    (hi : i.exec ∈ j.geometry.tileGrid.tiles) : Ends fault (j.Calls i) (j.call i) := by
  obtain ⟨hb, hpair, hr, hq⟩ := Grid.lt_of_mem_tiles hi
  have hin := h.inputTile_ends hfault (hpair ▸ hb) hr hq
  have hout := h.outputTile_ends hfault hb hr hq
  have htotal := h.scratch.total
  have hslot : ∀ role p, j.params.localBase.toNat + j.scratch.slot role p < wordLimit := fun role p => by
    have := h.scratch.slot_le_start role p
    omega
  have hkappa : j.params.localBase.toNat + j.scratch.kappaOffset i.slots.weights.exec < wordLimit :=
    hslot .requant _
  have hlambda : j.params.localBase.toNat + j.scratch.lambdaOffset i.slots.weights.exec <
      wordLimit := by
    have hslots : j.scratch.slot .requant i.slots.weights.exec + j.scratch.requant.slotSize ≤ _ :=
      h.scratch.slot_le_start .requant i.slots.weights.exec
    have hpair := h.scratch.requant_size
    have hbias := h.scratch.bias
    show _ + (j.scratch.slot .requant i.slots.weights.exec + j.scratch.biasOffset) < _
    omega
  refine hin.bind fun input hinput => hout.bind fun output houtput => ?_
  rw [pad_of_lt (hslot .input _), Checked.ok_bind, pad_of_lt (hslot .weights _), Checked.ok_bind,
    pad_of_lt (by omega), Checked.ok_bind, pad_of_lt hkappa, Checked.ok_bind, pad_of_lt hlambda,
    Checked.ok_bind, pad_of_lt (hslot .output _), Checked.ok_bind]
  exact ⟨hinput, houtput, congrArg TileDims.channels houtput, rfl, rfl, rfl, rfl, rfl, rfl, rfl, rfl, rfl⟩

/-! ## Buffers -/

variable {i : Iteration} {call : Call}

/-- The tiles and the weights of a call fit its slots. -/
structure Calls.Filled (j : Job) (call : Call) : Prop where
  inputRows : call.inputDims.rows ≤ j.scratch.input.slotSize
  inputCols : call.inputDims.cols ≤ j.scratch.input.slotSize
  inputPlane : call.inputDims.rows * call.inputDims.cols ≤ j.scratch.input.slotSize
  input : call.inputDims.size ≤ j.scratch.input.slotSize
  outputPlane : call.outputDims.rows * call.outputDims.cols ≤ j.scratch.output.slotSize
  output : call.outputDims.size ≤ j.scratch.output.slotSize
  weights : call.channels * call.kernel * call.kernel ≤ j.scratch.weights.slotSize
  requant : 8 * call.channels ≤ j.scratch.requant.slotSize

theorem Calls.filled (hcall : j.Calls i call) (h : j.Admitted)
    (hi : i.exec ∈ j.geometry.tileGrid.tiles) : Calls.Filled j call := by
  obtain ⟨-, -, hr, hq⟩ := Grid.lt_of_mem_tiles hi
  have hscratch := h.scratch
  have hrows := Axis.inLen_le_window h.tiled.rows hr
  have hcols := Axis.inLen_le_window h.tiled.cols hq
  have hin := Nat.mul_le_mul hrows hcols
  -- the largest window has a position on either axis
  have hplane := Nat.le_trans (Nat.le_mul_of_pos_right _ h.tiled.block_pos) hscratch.input_size
  have hout := Nat.mul_le_mul (j.geometry.rows.outLen_le j.geometry.block.height i.exec.height)
    (j.geometry.cols.outLen_le j.geometry.block.width i.exec.width)
  have hchans := j.geometry.chanLen_le i.exec.outChannel
  have hrequant := hscratch.requant_size
  constructor
  · rw [hcall.inputDims]
    exact Nat.le_trans hrows (Nat.le_trans
      (Nat.le_mul_of_pos_right _ (Axis.window_pos h.tiled.cols)) hplane)
  · rw [hcall.inputDims]
    exact Nat.le_trans hcols (Nat.le_trans
      (Nat.le_mul_of_pos_left _ (Axis.window_pos h.tiled.rows)) hplane)
  · rw [hcall.inputDims]
    exact Nat.le_trans hin hplane
  · rw [hcall.inputDims]
    exact Nat.le_trans (Nat.mul_le_mul hin (j.geometry.chanLen_le i.exec.inChannel))
      hscratch.input_size
  · rw [hcall.outputDims]
    exact Nat.le_trans hout (Nat.le_trans (Nat.le_mul_of_pos_right _ h.tiled.block_pos)
      hscratch.output_size)
  · rw [hcall.outputDims]
    exact Nat.le_trans (Nat.mul_le_mul hout hchans) hscratch.output_size
  · rw [hcall.channels, hcall.kernel]
    exact Nat.le_trans (Nat.mul_le_mul_right _ (Nat.mul_le_mul_right _ hchans)) hscratch.weights_size
  · rw [hcall.channels]
    omega

/-- Every slot ends within the partition. -/
theorem Admitted.slot_stop_le (h : j.Admitted)
    (hcapacity : j.params.localBase.toNat + j.scratch.total ≤ 0x40000) (role : Role) (p : Parity) :
    j.params.localBase.toNat + j.scratch.slot role p + (j.scratch.slots role).slotSize ≤ 0x40000 := by
  have hslot := h.scratch.slot_le_start role p
  have htotal := h.scratch.total
  omega

/-- The partition has two slots of weights. -/
theorem Admitted.weights_le (h : j.Admitted) : 2 * j.scratch.weights.slotSize ≤ j.scratch.total := by
  have htotal := h.scratch.total
  have hstart := h.scratch.workspace_start
  have hrequant := h.scratch.requant_base
  simp only [SlotPair.stop] at hstart hrequant
  omega

theorem Calls.sized (hcall : j.Calls i call) (h : j.Admitted)
    (hcapacity : j.params.localBase.toNat + j.scratch.total ≤ 0x40000)
    (hi : i.exec ∈ j.geometry.tileGrid.tiles) : Depthwise.Sized call := by
  have hfilled := hcall.filled h hi
  have hinput : _ + j.scratch.input.slotSize ≤ 0x40000 := h.slot_stop_le hcapacity .input .a
  have houtput : _ + j.scratch.output.slotSize ≤ 0x40000 := h.slot_stop_le hcapacity .output .a
  have hweights := h.weights_le
  have hrequant : _ + j.scratch.requant.slotSize ≤ 0x40000 := h.slot_stop_le hcapacity .requant .a
  have hinputPlane := hfilled.inputPlane
  have hinputSize := hfilled.input
  have houtputPlane := hfilled.outputPlane
  have houtputSize := hfilled.output
  have htaps := hfilled.weights
  have hchannels := hfilled.requant
  have hrow : call.channels * call.kernel ≤ call.channels * call.kernel * call.kernel :=
    Nat.le_mul_of_pos_right _ (by rw [hcall.kernel]; exact h.tiled.rows.kernel_pos)
  exact {
    inputChannels := by rw [hcall.inputDims, hcall.channels, (Grid.lt_of_mem_tiles hi).2.1]
    outputChannels := by rw [hcall.outputDims, hcall.channels]
    inputPlane := by omega
    outputPlane := by omega
    input := by omega
    output := by omega
    channels := by omega
    weightRow := by omega
    weights := by omega }

theorem Calls.placed (hcall : j.Calls i call) (h : j.Admitted)
    (hcapacity : j.params.localBase.toNat + j.scratch.total ≤ 0x40000)
    (hi : i.exec ∈ j.geometry.tileGrid.tiles) : Depthwise.Placed call := by
  have hfilled := hcall.filled h hi
  have hinputSize := hfilled.input
  have houtputSize := hfilled.output
  have htaps := hfilled.weights
  have hpair := hfilled.requant
  have hin : _ + j.scratch.input.slotSize ≤ 0x40000 :=
    h.slot_stop_le hcapacity .input i.slots.input.exec
  have hout : _ + j.scratch.output.slotSize ≤ 0x40000 :=
    h.slot_stop_le hcapacity .output i.slots.output
  have hwgt : _ + j.scratch.weights.slotSize ≤ 0x40000 :=
    h.slot_stop_le hcapacity .weights i.slots.weights.exec
  have hreq : _ + j.scratch.requant.slotSize ≤ 0x40000 :=
    h.slot_stop_le hcapacity .requant i.slots.weights.exec
  have hkappa : call.kappa =
      j.params.localBase.toNat + j.scratch.slot .requant i.slots.weights.exec := hcall.kappa
  have hlambda : call.lambda = j.params.localBase.toNat +
      (j.scratch.slot .requant i.slots.weights.exec + j.scratch.biasOffset) := hcall.lambda
  have hbias := h.scratch.bias
  have hblock := h.scratch.requant_size
  rw [← hcall.input] at hin
  rw [← hcall.output] at hout
  rw [← hcall.weights] at hwgt
  refine ⟨.inr ?_, .inr ?_, .inr ?_, .inr ?_, .inr ?_⟩ <;>
    · unfold wordLimit
      omega

end Job

end TileStream
