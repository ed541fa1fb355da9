import TileStream.Proofs.Grid.Sums
import TileStream.Proofs.Layer.Accepted
import TileStream.Proofs.Transfer.Box

/-! # The windows of a tile in closed form

Tile `k` of the grid has the output rows and columns `outRows k` and `outCols k`,
the input rows and columns `inRows k` and `inCols k` and the channels of its
block. For a geometry that can be tiled these are the spans that the layer
computes (`Tiles.inputSpans_eq`), and a window of a tensor is a box
(`Tensor.Packed.window_eq_bind`), wherever the tensor lies. -/
namespace TileStream

open Unsigned

/-- The number of elements. -/
def Extents.size (e : Extents) : Nat := e.channels * e.height * e.width

namespace Tensor

def place (t : Tensor) (y x c : Nat) : Nat :=
  (y * t.extents.width + x) * t.extents.channels + c

/-- A box of the tensor, as a tile. -/
def boxOf (t : Tensor) (rows cols chans : Span) : Tile where
  ext := ⟨t.base.tier, t.base.addr + t.place rows.start cols.start chans.start⟩
  shape := .box chans.len cols.len t.extents.channels rows.len
    (t.extents.width * t.extents.channels)
  dims := ⟨rows.len, cols.len, chans.len⟩

/-- A tensor of bytes whose rows are short. -/
structure Packed (t : Tensor) : Prop where
  bits : t.elementBits = 8
  channels : t.extents.channels < 0x10000
  width : t.extents.width < 0x40000

/-- A packed tensor that begins low in the address space. -/
structure Narrow (t : Tensor) : Prop extends Packed t where
  base : t.base.addr < 0x100000000

end Tensor

/-- A span that lies far below the end of the address space. -/
def Span.Low (s : Span) : Prop := s.start < 0x100000 ∧ s.len < 0x100000

namespace Tensor

variable {t : Tensor} {rows cols chans : Span}

theorem elementBytes_of_bits (h : t.elementBits = 8) : t.elementBytes = 1 := by
  simp [elementBytes, TileStream.elementBytes, h]

theorem Packed.elementBytes_eq (h : t.Packed) : t.elementBytes = 1 := elementBytes_of_bits h.bits

/-- Every product in the offset of a low position is small. -/
theorem Packed.bounds (h : t.Packed) {y x : Nat} (hy : y < 0x100000) (hx : x < 0x100000) :
    t.extents.width * t.extents.channels < 0x400000000 ∧
      y * (t.extents.width * t.extents.channels) < 0x40000000000000 ∧
      x * t.extents.channels < 0x1000000000 := by
  have hwide := Nat.mul_le_mul (Nat.le_of_lt_succ h.width) (Nat.le_of_lt_succ h.channels)
  have hdown := Nat.mul_le_mul (Nat.le_of_lt_succ hy) hwide
  have hacross := Nat.mul_le_mul (Nat.le_of_lt_succ hx) (Nat.le_of_lt_succ h.channels)
  omega

theorem place_eq (t : Tensor) (y x c : Nat) :
    t.place y x c =
      y * (t.extents.width * t.extents.channels) + x * t.extents.channels + c := by
  rw [place, Nat.add_mul, Nat.mul_assoc]

theorem Packed.pixelStride_eq (h : t.Packed) : t.pixelStride = .ok t.extents.channels := by
  have := h.channels
  rw [pixelStride, h.elementBytes_eq, mul_one_of_lt (by omega)]

theorem Packed.rowStride_eq (h : t.Packed) :
    t.rowStride = .ok (t.extents.width * t.extents.channels) := by
  obtain ⟨hrow, -, -⟩ := h.bounds (y := 0) (x := 0) (by decide) (by decide)
  rw [rowStride, h.pixelStride_eq, Checked.ok_bind, mul_of_lt (by omega)]

theorem Packed.offset_eq (h : t.Packed) {y x c : Nat} (hy : y < 0x100000) (hx : x < 0x100000)
    (hc : c < 0x100000) : t.offset y x c = .ok (t.place y x c) := by
  obtain ⟨-, hdown, hacross⟩ := h.bounds hy hx
  rw [offset, h.rowStride_eq, Checked.ok_bind, mul_of_lt (by omega), Checked.ok_bind,
    h.pixelStride_eq, Checked.ok_bind, mul_of_lt (by omega), Checked.ok_bind,
    add_of_lt (by omega), Checked.ok_bind, h.elementBytes_eq, mul_one_of_lt (by omega),
    Checked.ok_bind, add_of_lt (by omega), place_eq]

/-- A low box lies where its first element does, if that has an address. -/
theorem Packed.window_eq_bind (h : t.Packed) (hrows : rows.Low) (hcols : cols.Low)
    (hchans : chans.Low) : t.window rows cols chans = do
      let ext ← t.base.displace (t.place rows.start cols.start chans.start : Nat)
      return { t.boxOf rows cols chans with ext } := by
  obtain ⟨hrs, hrl⟩ := hrows
  obtain ⟨hcs, hcl⟩ := hcols
  obtain ⟨hks, hkl⟩ := hchans
  obtain ⟨hrow, hdown, hacross⟩ := h.bounds hrs hcs
  have hplace := t.place_eq rows.start cols.start chans.start
  have hchannels := h.channels
  rw [window, h.offset_eq hrs hcs hks, Checked.ok_bind, signed_of_lt (by omega)]
  cases t.base.displace ((t.place rows.start cols.start chans.start : Nat) : Int) with
  | error e => rfl
  | ok ext =>
    rw [Checked.ok_bind, Checked.ok_bind, h.elementBytes_eq, mul_one_of_lt (by omega),
      Checked.ok_bind, h.pixelStride_eq, Checked.ok_bind, h.rowStride_eq, Checked.ok_bind,
      low32_of_lt (by omega), low32_of_lt (by omega), low32_of_lt (by omega),
      signed_of_lt (by omega), signed_of_lt (by omega)]
    rfl

theorem Narrow.window_eq (h : t.Narrow) (hrows : rows.Low) (hcols : cols.Low)
    (hchans : chans.Low) : t.window rows cols chans = .ok (t.boxOf rows cols chans) := by
  obtain ⟨hrow, hdown, hacross⟩ := h.bounds hrows.1 hcols.1
  have hbase := h.base
  have hplace := t.place_eq rows.start cols.start chans.start
  have hks := hchans.1
  rw [h.window_eq_bind hrows hcols hchans, Endpoint.displace_of_lt (by omega), Checked.ok_bind]
  rfl

/-- A tensor of bytes is as long as it has elements. -/
theorem bytes_of_bits (h : t.elementBits = 8) (hwidth : 0 < t.extents.width)
    (hlt : t.extents.size < 0x10000000000000000) : t.bytes = .ok t.extents.size := by
  unfold Extents.size at *
  have hplane := Nat.le_mul_of_pos_right (t.extents.channels * t.extents.height) hwidth
  have helements : t.extents.elements =
      .ok (t.extents.channels * t.extents.height * t.extents.width) := by
    rw [Extents.elements, mul_of_lt (by omega), Checked.ok_bind, mul_of_lt (by omega)]
  rw [bytes, helements, Checked.ok_bind, elementBytes_of_bits h, mul_one_of_lt (by omega)]

theorem Packed.bytes_eq (h : t.Packed) (hwidth : 0 < t.extents.width)
    (hlt : t.extents.size < 0x10000000000000000) : t.bytes = .ok t.extents.size :=
  bytes_of_bits h.bits hwidth hlt

end Tensor

/-! ## Tiles -/

namespace Geometry

variable {g : Geometry}

/-- The height block of tile `k`. -/
def rowBlock (g : Geometry) (k : Nat) : Nat := k / g.tileGrid.width % g.tileGrid.height

def colBlock (g : Geometry) (k : Nat) : Nat := k % g.tileGrid.width

/-- The input rows of tile `k`. -/
def inRows (g : Geometry) (k : Nat) : Span :=
  ⟨g.rows.inStart g.block.height (g.rowBlock k), g.rows.inLen g.block.height (g.rowBlock k)⟩

def inCols (g : Geometry) (k : Nat) : Span :=
  ⟨g.cols.inStart g.block.width (g.colBlock k), g.cols.inLen g.block.width (g.colBlock k)⟩

/-- The output rows of tile `k`. -/
def outRows (g : Geometry) (k : Nat) : Span :=
  ⟨g.rowBlock k * g.block.height, g.rows.outLen g.block.height (g.rowBlock k)⟩

def outCols (g : Geometry) (k : Nat) : Span :=
  ⟨g.colBlock k * g.block.width, g.cols.outLen g.block.width (g.colBlock k)⟩

/-- The channels of channel block `b`. -/
def chans (g : Geometry) (b : Nat) : Span := ⟨b * g.block.channels, g.chanLen b⟩

theorem rowBlock_lt (h : g.Tiled) (hs : g.Small) (k : Nat) :
    g.rowBlock k < blocks g.rows.outs g.block.height :=
  Nat.mod_lt _ (tileGrid_regular h hs).height_pos

theorem colBlock_lt (h : g.Tiled) (hs : g.Small) (k : Nat) :
    g.colBlock k < blocks g.cols.outs g.block.width :=
  Nat.mod_lt _ (tileGrid_regular h hs).width_pos

/-- Every element of the output tensor lies in a tile. -/
theorem exists_tile (h : g.Tiled) {y x c : Nat} (hy : y < g.rows.outs) (hx : x < g.cols.outs)
    (hc : c < g.input.channels) : ∃ k < g.tileGrid.size, ∃ r q ch,
      r < (g.outRows k).len ∧ q < (g.outCols k).len ∧
      ch < (g.chans (g.tileGrid.blockAt k)).len ∧ y = (g.outRows k).start + r ∧
      x = (g.outCols k).start + q ∧ c = (g.chans (g.tileGrid.blockAt k)).start + ch := by
  obtain ⟨hrow, hr⟩ := Axis.outLen_cover h.rows hy
  obtain ⟨hcol, hq⟩ := Axis.outLen_cover h.cols hx
  obtain ⟨hblock, hch⟩ := chanLen_cover h hc
  obtain ⟨hblockAt, hrowBlock, hcolBlock⟩ :
    g.tileGrid.blockAt (((c / g.block.channels) * g.tileGrid.height + y / g.block.height) *
      g.tileGrid.width + x / g.block.width) = c / g.block.channels ∧
    g.rowBlock (((c / g.block.channels) * g.tileGrid.height + y / g.block.height) *
      g.tileGrid.width + x / g.block.width) = y / g.block.height ∧
    g.colBlock (((c / g.block.channels) * g.tileGrid.height + y / g.block.height) *
      g.tileGrid.width + x / g.block.width) = x / g.block.width := index_digits hrow hcol
  refine ⟨_, index_lt hblock hrow hcol, y % g.block.height, x % g.block.width,
    c % g.block.channels, ?_⟩
  simp only [outRows, outCols, hrowBlock, hcolBlock, hblockAt]
  exact ⟨hr, hq, hch, (Nat.div_add_mod' y _).symm, (Nat.div_add_mod' x _).symm,
    (Nat.div_add_mod' c _).symm⟩

/-- The output tiles are as large as the output tensor. -/
theorem sum_outputTiles (h : g.Tiled) (hs : g.Small) :
    ((List.range g.tileGrid.size).map fun k => (g.chans (g.tileGrid.blockAt k)).len *
      ((g.outRows k).len * (g.outCols k).len)).sum = g.outExtents.size := by
  have hsum := Grid.sum_tiles (tileGrid_regular h hs) g.chanLen (g.rows.outLen g.block.height)
    (g.cols.outLen g.block.width)
  refine hsum.trans ?_
  rw [Extents.size, Nat.mul_assoc]
  exact congr (congrArg _ (sum_blocks _ h.block_pos))
    (congr (congrArg _ (sum_blocks _ h.rows.block_pos)) (sum_blocks _ h.cols.block_pos))

end Geometry

/-- The positions of a block and its window are low. -/
theorem Axis.low_of_tiled {a : Axis} {block i : Nat} (h : a.Tiled block) (hs : a.Small block)
    (hi : i < blocks a.outs block) :
    Span.Low ⟨i * block, a.outLen block i⟩ ∧ Span.Low ⟨a.inStart block i, a.inLen block i⟩ := by
  obtain ⟨hstart, hstop⟩ := Axis.start_lt h hs hi
  have hlen := Axis.outLen_pos h hi
  have houts := hs.outs_lt
  have hlast := Axis.last_reach h.kernel_le (show i * block < a.outs by omega)
  have hreach := hs.reach_lt
  have hinLen := Axis.inLen_le_window h hi
  have hextent := hs.extent
  have hwindow : a.window block ≤ a.extent := Nat.min_le_right _ _
  refine ⟨⟨?_, ?_⟩, ⟨?_, ?_⟩⟩
  · show i * block < _
    omega
  · show a.outLen block i < _
    omega
  · show a.inStart block i < _
    unfold Axis.inStart
    omega
  · show a.inLen block i < _
    omega

theorem Geometry.chans_low {g : Geometry} (h : g.Tiled) (hs : g.Small) {b : Nat}
    (hb : b < g.tileGrid.channels) : (g.chans b).Low := by
  have := Geometry.chanStop_le h hb
  have := hs.channels
  refine ⟨?_, ?_⟩
  · show b * g.block.channels < _
    omega
  · show g.chanLen b < _
    omega

/-! ## The spans of a tile -/

theorem Geometry.Tiled.checks {g : Geometry} (h : g.Tiled) (hs : g.Small) : g.Checks where
  rows := ⟨hs.rows.word, h.rows.kernel_pos, h.rows.stride_pos, h.rows.block_pos, h.rows.kernel_le,
    h.rows.block_le⟩
  cols := ⟨hs.cols.word, h.cols.kernel_pos, h.cols.stride_pos, h.cols.block_pos, h.cols.kernel_le,
    h.cols.block_le⟩
  block_pos := h.block_pos
  block_le := h.block_le
  bits := h.bits

/-- The weight blob of a small layer has a size. -/
theorem Geometry.blob_exists {g : Geometry} (hs : g.Small) : ∃ blob, g.blob = .ok blob := by
  have hchannels := hs.channels
  have hkernel : g.kernel < 0x10000 := hs.rows.kernel
  have hrow : g.input.channels * g.kernel < 0x400000000 :=
    Axis.mul_small (Nat.lt_trans hchannels (by decide)) hkernel
  have htaps := Nat.mul_le_mul (Nat.le_of_lt hrow) (Nat.le_of_lt hkernel)
  rw [blob, mul_of_lt (by omega), Checked.ok_bind, mul_of_lt (by omega), Checked.ok_bind,
    roundUp4_of_lt (by unfold wordLimit; omega), Checked.ok_bind, mul_of_lt (by omega),
    Checked.ok_bind, add_of_lt (by omega), Checked.ok_bind, Checked.ok_bind, add_of_lt (by omega)]
  exact ⟨_, rfl⟩

namespace Tiles

variable {t : Tiles} {k : Nat}

/-- The tiles of a geometry can be placed anywhere. -/
theorem place_eq {g : Geometry} (h : g.Tiled) (hs : g.Small) (input output weights : Endpoint) :
    ∃ blob, g.blob = .ok blob ∧
    place g input output weights = .ok ⟨g, ⟨g.input, 8, input⟩, ⟨g.outExtents, 8, output⟩,
      weights, blob⟩ := by
  obtain ⟨blob, hblob⟩ := Geometry.blob_exists hs
  refine ⟨blob, hblob, ?_⟩
  rw [place, Geometry.output_eq h hs, Checked.ok_bind, hblob, Checked.ok_bind, h.bits]
  rfl

theorem channelSpan_of_lt (h : t.geometry.Tiled) (hword : t.geometry.input.channels < wordLimit)
    {b : Nat} (hb : b < t.geometry.tileGrid.channels) : t.channelSpan b = .ok (t.geometry.chans b) := by
  have hstart := (lt_blocks_iff h.block_pos).mp hb
  rw [channelSpan, mul_of_lt (Nat.lt_trans hstart hword)]
  rfl

theorem channelSpan_eq (h : t.geometry.Tiled) (hs : t.geometry.Small) {b : Nat}
    (hb : b < t.geometry.tileGrid.channels) : t.channelSpan b = .ok (t.geometry.chans b) :=
  channelSpan_of_lt h (Nat.lt_trans hs.channels (by decide)) hb

/-- The output spans of a coordinate of the grid, whatever the sizes. -/
theorem outputSpans_of_lt (h : t.geometry.Tiled) (hg : t.geometry.Checks) {c : Coord}
    (hr : c.height < t.geometry.tileGrid.height) (hq : c.width < t.geometry.tileGrid.width) :
    t.outputSpans c = .ok (⟨c.height * t.geometry.block.height,
        t.geometry.rows.outLen t.geometry.block.height c.height⟩,
      ⟨c.width * t.geometry.block.width, t.geometry.cols.outLen t.geometry.block.width c.width⟩) := by
  rw [outputSpans, Axis.outputSpan_eq h.rows hg.rows.word hr, Checked.ok_bind,
    Axis.outputSpan_eq h.cols hg.cols.word hq, Checked.ok_bind]
  rfl

theorem inputSpans_of_lt (h : t.geometry.Tiled) (hg : t.geometry.Checks) {c : Coord}
    (hr : c.height < t.geometry.tileGrid.height) (hq : c.width < t.geometry.tileGrid.width) :
    t.inputSpans c = .ok (⟨t.geometry.rows.inStart t.geometry.block.height c.height,
        t.geometry.rows.inLen t.geometry.block.height c.height⟩,
      ⟨t.geometry.cols.inStart t.geometry.block.width c.width,
        t.geometry.cols.inLen t.geometry.block.width c.width⟩) := by
  have hrows := Axis.inputSpan_eq h.rows hg.rows.word hr
  have hcols := Axis.inputSpan_eq h.cols hg.cols.word hq
  rw [inputSpans, outputSpans_of_lt h hg hr hq, Checked.ok_bind]
  show (t.geometry.rows.inputSpan ⟨c.height * t.geometry.block.height, _⟩ (decide (0 < c.height)) >>=
    fun rows => t.geometry.cols.inputSpan ⟨c.width * t.geometry.block.width, _⟩
      (decide (0 < c.width)) >>= fun cols => pure (rows, cols)) = _
  rw [hrows, Checked.ok_bind, hcols, Checked.ok_bind]
  rfl

theorem outputSpans_eq (h : t.geometry.Tiled) (hs : t.geometry.Small) (k : Nat) :
    t.outputSpans (t.geometry.tileGrid.tileAt k) =
      .ok (t.geometry.outRows k, t.geometry.outCols k) :=
  outputSpans_of_lt h (h.checks hs) (c := t.geometry.tileGrid.tileAt k)
    (Geometry.rowBlock_lt h hs k) (Geometry.colBlock_lt h hs k)

theorem inputSpans_eq (h : t.geometry.Tiled) (hs : t.geometry.Small) (k : Nat) :
    t.inputSpans (t.geometry.tileGrid.tileAt k) =
      .ok (t.geometry.inRows k, t.geometry.inCols k) :=
  inputSpans_of_lt h (h.checks hs) (c := t.geometry.tileGrid.tileAt k)
    (Geometry.rowBlock_lt h hs k) (Geometry.colBlock_lt h hs k)

theorem inputTile_eq_window (h : t.geometry.Tiled) (hs : t.geometry.Small)
    (hk : k < t.geometry.tileGrid.size) : t.inputTile (t.geometry.tileGrid.tileAt k) =
      t.input.window (t.geometry.inRows k) (t.geometry.inCols k)
        (t.geometry.chans (t.geometry.tileGrid.blockAt k)) := by
  have hspan : t.channelSpan (t.geometry.tileGrid.tileAt k).inChannel =
      .ok (t.geometry.chans (t.geometry.tileGrid.blockAt k)) :=
    channelSpan_eq h hs (Grid.blockAt_lt hk)
  rw [inputTile, inputSpans_eq h hs, Checked.ok_bind, hspan]
  rfl

theorem outputTile_eq_window (h : t.geometry.Tiled) (hs : t.geometry.Small)
    (hk : k < t.geometry.tileGrid.size) : t.outputTile (t.geometry.tileGrid.tileAt k) =
      t.output.window (t.geometry.outRows k) (t.geometry.outCols k)
        (t.geometry.chans (t.geometry.tileGrid.blockAt k)) := by
  have hspan : t.channelSpan (t.geometry.tileGrid.tileAt k).outChannel =
      .ok (t.geometry.chans (t.geometry.tileGrid.blockAt k)) :=
    channelSpan_eq h hs (Grid.blockAt_lt hk)
  rw [outputTile, outputSpans_eq h hs, Checked.ok_bind, hspan]
  rfl

/-- The weights of a channel block lie where the first of them does, if that has an address. -/
theorem weightTile_eq_bind (h : t.geometry.Tiled) (hs : t.geometry.Small)
    (hzero : t.blob.weights = 0) {b : Nat} (hb : b < t.geometry.tileGrid.channels) :
    t.weightTile b = do
      let ext ← t.weights.displace
        (t.blob.weights + (t.geometry.chans b).start * (t.geometry.kernel * t.geometry.kernel) : Nat)
      return ⟨ext, .box (t.geometry.kernel * t.geometry.kernel) 1 0 (t.geometry.chans b).len
        (t.geometry.kernel * t.geometry.kernel),
        ⟨t.geometry.kernel, t.geometry.kernel, (t.geometry.chans b).len⟩⟩ := by
  have hkernel : t.geometry.kernel ≤ 0xffff := Nat.le_of_lt_succ hs.rows.kernel
  have htaps := Nat.mul_le_mul hkernel hkernel
  obtain ⟨hstart, hlen⟩ := Geometry.chans_low h hs hb
  have hoffset := Nat.mul_le_mul (Nat.le_of_lt hstart) htaps
  rw [weightTile, channelSpan_eq h hs hb, Checked.ok_bind, mul_of_lt (by omega), Checked.ok_bind,
    mul_of_lt (by omega), Checked.ok_bind, hzero, add_of_lt (by omega), Checked.ok_bind,
    signed_of_lt (by omega), low32_of_lt (by omega), low32_of_lt (by omega),
    signed_of_lt (by omega)]
  rfl

/-- The part of a 32-bit array that belongs to a channel block lies where its first word does. -/
theorem wordTile_eq_bind (h : t.geometry.Tiled) (hs : t.geometry.Small) {array : Nat}
    (harray : array < 0x4000000000000000) {b : Nat} (hb : b < t.geometry.tileGrid.channels) :
    t.wordTile array b = do
      let ext ← t.weights.displace (array + (t.geometry.chans b).start * 4 : Nat)
      return ⟨ext, .box ((t.geometry.chans b).len * 4) 1 0 1 0,
        ⟨1, 1, (t.geometry.chans b).len⟩⟩ := by
  obtain ⟨hstart, hlen⟩ := Geometry.chans_low h hs hb
  rw [wordTile, channelSpan_eq h hs hb, Checked.ok_bind, mul_of_lt (by omega), Checked.ok_bind,
    add_of_lt (by omega), Checked.ok_bind, signed_of_lt (by omega), mul_of_lt (by omega)]
  simp only [Checked.ok_bind, low32_of_lt (show (t.geometry.chans b).len * 4 < 0x100000000 by omega)]
  rfl

end Tiles

end TileStream
