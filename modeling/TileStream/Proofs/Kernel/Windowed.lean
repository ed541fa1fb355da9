import TileStream.Proofs.Kernel.Depthwise
import TileStream.Proofs.Layer.TileTransfers

/-! # The kernel on a window computes the layer

`Geometry.value` is the layer without tiles, as a formula over the integers: an
output element is the sum of the products over its taps, where the input is zero
outside the tensor, scaled, shifted, divided by a power of two and clipped.
`Geometry.StepFits` says that words of 64 bits hold the numbers on the way. A tap
that the kernel looks up in the window of a tile falls inside the window exactly
when it falls on the tensor (`Axis.finds_position`), so fed with the window and the
weights of a tile the kernel computes the values of the layer
(`valueIn_eq_ok_iff`), for every tile of every layer that can be tiled. -/
namespace TileStream

open Unsigned Depthwise Finset

/-! ## The layer without tiles -/

/-- The tensors of a layer by index: the input by row, column and channel, the weights by channel and
tap, and what the fixed-point step needs for each channel. -/
structure LayerData where
  input : Nat → Nat → Nat → UInt8
  weights : Nat → Nat → Nat → UInt8
  kappa : Nat → Int32
  lambda : Nat → Int32
  shift : Nat

namespace Geometry

/-- An element of the input tensor, zero outside of it. -/
def inputValue (g : Geometry) (d : LayerData) (row col : Int) (c : Nat) : Int :=
  if (0 ≤ row ∧ row < g.input.height) ∧ 0 ≤ col ∧ col < g.input.width then
    ((d.input row.toNat col.toNat c).toNat : Int)
  else 0

/-- The sum over the taps of an output element. -/
def tapSum (g : Geometry) (d : LayerData) (y x c : Nat) : Int :=
  ∑ kh ∈ range g.kernel, ∑ kw ∈ range g.kernel,
    g.inputValue d (((y * g.stride + kh : Nat) : Int) - g.padding.top)
      (((x * g.stride + kw : Nat) : Int) - g.padding.left) c * (d.weights c kh kw).toInt8.toInt

/-- The output element at a position: the sum over its taps times the multiplier of the channel plus its
bias, divided by a power of two and clipped to a byte. -/
def value (g : Geometry) (d : LayerData) (y x c : Nat) : UInt8 :=
  clip ((g.tapSum d y x c * (d.kappa c).toInt + (d.lambda c).toInt) >>> d.shift)

/-- Words of 64 bits hold the numbers from which an output element is computed, and the shift is less than
their width. -/
structure StepFits (g : Geometry) (d : LayerData) (y x c : Nat) : Prop where
  product : Signed.InRange (g.tapSum d y x c * (d.kappa c).toInt)
  sum : Signed.InRange (g.tapSum d y x c * (d.kappa c).toInt + (d.lambda c).toInt)
  shift : d.shift < 64

end Geometry

/-! ## Taps -/

namespace Axis

variable {a : Axis} {block i y t n : Nat}

theorem landing_eq_some_iff {stride extent pad out tap n : Nat} :
    landing stride extent pad out tap = some n ↔
      pad + n = out * stride + tap ∧ n < extent := by
  unfold landing
  split
  · rename_i hinside
    rw [Option.some.injEq]
    omega
  · rename_i houtside
    constructor
    · intro h
      cases h
    · rintro ⟨hsum, hlt⟩
      exact absurd ⟨by omega, by omega⟩ houtside

/-- The window begins no later than the first tap of its block. -/
theorem inStart_le_tap (a : Axis) (block i y t : Nat) :
    a.inStart block i ≤ (i * block + y) * a.stride + t - a.padBefore := by
  unfold inStart
  rw [Nat.add_mul]
  by_cases hzero : i = 0
  · rw [if_pos hzero, hzero, Nat.zero_mul, Nat.zero_mul]
    exact Nat.zero_le _
  · rw [if_neg hzero]
    omega

/-- A tap that falls inside the window falls on the axis, at the same place. -/
theorem landing_some (h : a.Tiled block) (hi : i < blocks a.outs block) (hy : y < a.outLen block i)
    (ht : t < a.kernel) (hland : landing a.stride (a.inLen block i)
      (if i = 0 then a.padBefore else 0) y t = some n) :
    (((i * block + y) * a.stride + t : Nat) : Int) - a.padBefore = (a.inStart block i + n : Nat) ∧
      a.inStart block i + n < a.extent := by
  obtain ⟨hsum, hlt⟩ := landing_eq_some_iff.mp hland
  refine (tap_inside h hi hy ht n).mp ⟨?_, hlt⟩
  by_cases hzero : i = 0
  · rw [if_pos hzero] at hsum ⊢
    omega
  · rw [if_neg hzero] at hsum ⊢
    omega

/-- A tap that falls outside the window falls outside the axis. -/
theorem landing_none (h : a.Tiled block) (hi : i < blocks a.outs block) (hy : y < a.outLen block i)
    (ht : t < a.kernel) (hland : landing a.stride (a.inLen block i)
      (if i = 0 then a.padBefore else 0) y t = none) :
    ¬ (0 ≤ (((i * block + y) * a.stride + t : Nat) : Int) - a.padBefore ∧
      (((i * block + y) * a.stride + t : Nat) : Int) - a.padBefore < a.extent) := by
  rintro ⟨hlo, hhi⟩
  have hstart := inStart_le_tap a block i y t
  obtain ⟨hsum, hlt⟩ := (tap_inside h hi hy ht
    ((i * block + y) * a.stride + t - a.padBefore - a.inStart block i)).mpr ⟨by omega, by omega⟩
  have hsome : landing a.stride (a.inLen block i) (if i = 0 then a.padBefore else 0) y t =
      some ((i * block + y) * a.stride + t - a.padBefore - a.inStart block i) := by
    refine landing_eq_some_iff.mpr ⟨?_, hlt⟩
    by_cases hzero : i = 0
    · rw [if_pos hzero] at hsum ⊢
      omega
    · rw [if_neg hzero] at hsum ⊢
      omega
  rw [hland] at hsome
  cases hsome

/-- Along an axis a kernel that looks for its taps in a window misses nothing: the window has every position
of the axis that a tap falls on, and a tap is found at its place in the window or not at all if it falls
outside the axis. -/
structure Finds (a : Axis) (out window : Span) (look : Nat → Nat → Checked (Option Nat)) : Prop where
  needed : ∀ y < out.len, ∀ t < a.kernel, ∀ n < a.extent,
    a.padBefore + n = (out.start + y) * a.stride + t →
      window.start ≤ n ∧ n < window.start + window.len
  found : ∀ y < out.len, ∀ t < a.kernel, ∃ place, look y t = .ok place ∧
    ∀ n, place = some n ↔ a.padBefore + (window.start + n) = (out.start + y) * a.stride + t ∧
      window.start + n < a.extent

/-- The kernel finds its taps, whichever block of the axis the window belongs to. -/
theorem finds_position (h : a.Tiled block) (hs : a.Small block) (hi : i < blocks a.outs block) :
    a.Finds ⟨i * block, a.outLen block i⟩ ⟨a.inStart block i, a.inLen block i⟩
      (position a.stride (a.inLen block i) ((if i = 0 then a.padBefore else 0 : Nat) : Int)) := by
  obtain ⟨⟨-, hout⟩, -, hin⟩ := low_of_tiled h hs hi
  have hpad : (if i = 0 then a.padBefore else 0) < 0x10000 := by
    have := hs.before
    split <;> omega
  refine ⟨fun y hy t ht n hn htap => ?_, fun y hy t ht => ?_⟩
  · have hstart := inStart_le_tap a block i y t
    change a.padBefore + n = (i * block + y) * a.stride + t at htap
    obtain ⟨-, hlt⟩ := (tap_inside h hi hy ht (n - a.inStart block i)).mpr ⟨by omega, by omega⟩
    show a.inStart block i ≤ n ∧ n < a.inStart block i + a.inLen block i
    omega
  · have hlen : y < 0x100000 := Nat.lt_trans hy hout
    refine ⟨_, position_eq hs.stride hin hpad hlen (Nat.lt_trans ht hs.kernel), fun n => ?_⟩
    refine landing_eq_some_iff.trans ((Iff.trans ?_ (tap_inside h hi hy ht n)).trans ?_)
    · by_cases hzero : i = 0
      · rw [if_pos hzero, if_pos hzero]
        omega
      · rw [if_neg hzero, if_neg hzero]
        omega
    · show _ ↔ a.padBefore + (a.inStart block i + n) = (i * block + y) * a.stride + t ∧
        a.inStart block i + n < a.extent
      omega

end Axis

/-! ## Calls -/

/-- A call computes tile `k` of a layer. -/
structure Call.Serves (call : Call) (g : Geometry) (k : Nat) : Prop where
  inputDims : call.inputDims =
    ⟨(g.inRows k).len, (g.inCols k).len, (g.chans (g.tileGrid.blockAt k)).len⟩
  outputDims : call.outputDims =
    ⟨(g.outRows k).len, (g.outCols k).len, (g.chans (g.tileGrid.blockAt k)).len⟩
  channels : call.channels = (g.chans (g.tileGrid.blockAt k)).len
  kernel : call.kernel = g.kernel
  stride : call.stride = g.stride
  boundary : call.boundary = g.tileGrid.boundaryAt k
  padding : call.padding = g.padding

/-- The scratchpad holds a window of the input tensor, packed row by row, where a call looks for it, and
the weights, multipliers and biases of its channels. -/
structure Call.Feeds (call : Call) (rows cols chans : Span) (d : LayerData) (img : Image) : Prop where
  window : ∀ r < rows.len, ∀ q < cols.len, ∀ ch < chans.len,
    img ⟨.scratchpad, call.input + ((r * cols.len + q) * chans.len + ch)⟩ =
      d.input (rows.start + r) (cols.start + q) (chans.start + ch)
  weights : ∀ ch < chans.len, ∀ kh < call.kernel, ∀ kw < call.kernel,
    img ⟨.scratchpad, call.weights + ((ch * call.kernel + kh) * call.kernel + kw)⟩ =
      d.weights (chans.start + ch) kh kw
  kappa : ∀ ch < chans.len, int32At img (call.kappa + 4 * ch) = d.kappa (chans.start + ch)
  lambda : ∀ ch < chans.len, int32At img (call.lambda + 4 * ch) = d.lambda (chans.start + ch)
  shift : call.requant.outShift.toNat = d.shift

namespace Call.Serves

variable {g : Geometry} {call : Call} {k : Nat} {d : LayerData} {img : Image}

theorem bounded (hcall : call.Serves g k) (h : g.Tiled) (hs : g.Small) : Bounded call := by
  have hrows := Axis.low_of_tiled h.rows hs.rows (Geometry.rowBlock_lt h hs k)
  have hcols := Axis.low_of_tiled h.cols hs.cols (Geometry.colBlock_lt h hs k)
  have hchans := Geometry.chanLen_le g (g.tileGrid.blockAt k)
  have hsmall := hs.block
  obtain ⟨hin, hout, hchannels, hkernel, hstride, -, hpadding⟩ := hcall
  exact {
    rows := hin ▸ hrows.2.2
    cols := hin ▸ hcols.2.2
    channels := by
      rw [hchannels]
      show g.chanLen _ < _
      omega
    inputChannels := by rw [hin, hchannels]
    outputChannels := by rw [hout, hchannels]
    outRows := hout ▸ hrows.1.2
    outCols := hout ▸ hcols.1.2
    stride := hstride ▸ hs.rows.stride
    kernel := hkernel ▸ hs.rows.kernel
    top := hpadding ▸ hs.rows.before
    left := hpadding ▸ hs.cols.before }

theorem rowPad_eq (hcall : call.Serves g k) :
    rowPad call = if g.rowBlock k = 0 then g.padding.top else 0 := by
  rw [rowPad, hcall.boundary, hcall.padding]
  show (if (g.rowBlock k == 0) = true then _ else 0) = _
  simp only [beq_iff_eq]

theorem colPad_eq (hcall : call.Serves g k) :
    colPad call = if g.colBlock k = 0 then g.padding.left else 0 := by
  rw [colPad, hcall.boundary, hcall.padding]
  show (if (g.colBlock k == 0) = true then _ else 0) = _
  simp only [beq_iff_eq]

/-- A tap of the kernel in tile `k` is a tap of the convolution. -/
theorem tapValue_eq (hcall : call.Serves g k) (h : g.Tiled) (hs : g.Small)
    (hfeeds : call.Feeds (g.inRows k) (g.inCols k) (g.chans (g.tileGrid.blockAt k)) d img)
    {r q ch kh kw : Nat} (hr : r < (g.outRows k).len) (hq : q < (g.outCols k).len)
    (hch : ch < (g.chans (g.tileGrid.blockAt k)).len) (hkh : kh < g.kernel) (hkw : kw < g.kernel) :
    tapValue call (fun n => img ⟨.scratchpad, call.input + n⟩)
        (fun n => img ⟨.scratchpad, call.weights + n⟩) r q ch kh kw =
      g.inputValue d (((((g.outRows k).start + r) * g.stride + kh : Nat) : Int) - g.padding.top)
        (((((g.outCols k).start + q) * g.stride + kw : Nat) : Int) - g.padding.left)
        ((g.chans (g.tileGrid.blockAt k)).start + ch) *
      (d.weights ((g.chans (g.tileGrid.blockAt k)).start + ch) kh kw).toInt8.toInt := by
  have hrowBlock := Geometry.rowBlock_lt h hs k
  have hcolBlock := Geometry.colBlock_lt h hs k
  unfold tapValue
  rw [hcall.rowPad_eq, hcall.colPad_eq, hcall.inputDims, hcall.stride]
  cases hrow : landing g.stride (g.inRows k).len
      (if g.rowBlock k = 0 then g.padding.top else 0) r kh with
  | none =>
    have houtside := Axis.landing_none h.rows hrowBlock hr hkh hrow
    refine (mul_eq_zero_of_left ?_ _).symm
    exact if_neg fun hin => houtside hin.1
  | some row =>
    obtain ⟨hrowAt, hrowIn⟩ := Axis.landing_some h.rows hrowBlock hr hkh hrow
    cases hcol : landing g.stride (g.inCols k).len
        (if g.colBlock k = 0 then g.padding.left else 0) q kw with
    | none =>
      have houtside := Axis.landing_none h.cols hcolBlock hq hkw hcol
      refine (mul_eq_zero_of_left ?_ _).symm
      exact if_neg fun hin => houtside hin.2
    | some col =>
      obtain ⟨hcolAt, hcolIn⟩ := Axis.landing_some h.cols hcolBlock hq hkw hcol
      have hwindow := hfeeds.window row (landing_lt hrow) col (landing_lt hcol) ch hch
      have hweight := hfeeds.weights ch hch kh (by rw [hcall.kernel]; exact hkh) kw
        (by rw [hcall.kernel]; exact hkw)
      have hvalue : g.inputValue d ((g.inRows k).start + row : Nat) ((g.inCols k).start + col : Nat)
          ((g.chans (g.tileGrid.blockAt k)).start + ch) =
          ((d.input ((g.inRows k).start + row) ((g.inCols k).start + col)
            ((g.chans (g.tileGrid.blockAt k)).start + ch)).toNat : Int) := by
        have hrowIn' : (g.inRows k).start + row < g.input.height := hrowIn
        have hcolIn' : (g.inCols k).start + col < g.input.width := hcolIn
        rw [Geometry.inputValue, if_pos ⟨⟨by omega, by omega⟩, by omega, by omega⟩,
          Int.toNat_natCast, Int.toNat_natCast]
      refine congrArg₂ (fun value weight : Int => value * weight) ?_
        (congrArg (fun byte : UInt8 => byte.toInt8.toInt) hweight)
      refine (congrArg (fun byte : UInt8 => (byte.toNat : Int)) hwindow).trans (hvalue.symm.trans ?_)
      exact congrArg₂ (fun row col => g.inputValue d row col _) hrowAt.symm hcolAt.symm

theorem tapSum_eq (hcall : call.Serves g k) (h : g.Tiled) (hs : g.Small)
    (hfeeds : call.Feeds (g.inRows k) (g.inCols k) (g.chans (g.tileGrid.blockAt k)) d img)
    {r q ch : Nat} (hr : r < (g.outRows k).len) (hq : q < (g.outCols k).len)
    (hch : ch < (g.chans (g.tileGrid.blockAt k)).len) :
    tapSum call (fun n => img ⟨.scratchpad, call.input + n⟩)
      (fun n => img ⟨.scratchpad, call.weights + n⟩) r q ch = g.tapSum d ((g.outRows k).start + r)
        ((g.outCols k).start + q) ((g.chans (g.tileGrid.blockAt k)).start + ch) := by
  rw [tapSum, hcall.kernel]
  exact sum_congr rfl fun kh hkh => sum_congr rfl fun kw hkw =>
    hcall.tapValue_eq h hs hfeeds hr hq hch (mem_range.mp hkh) (mem_range.mp hkw)

/-- **The kernel computes the convolution** at every position of a tile that it is fed, as far as no number
is too long. -/
theorem outcomeIn_eq_value (hcall : call.Serves g k) (h : g.Tiled) (hs : g.Small)
    (hfeeds : call.Feeds (g.inRows k) (g.inCols k) (g.chans (g.tileGrid.blockAt k)) d img)
    {r q ch : Nat} (hr : r < (g.outRows k).len) (hq : q < (g.outCols k).len)
    (hch : ch < (g.chans (g.tileGrid.blockAt k)).len) :
    outcomeIn call img r q ch = g.value d ((g.outRows k).start + r) ((g.outCols k).start + q)
      ((g.chans (g.tileGrid.blockAt k)).start + ch) := by
  rw [outcomeIn, outcome, hcall.tapSum_eq h hs hfeeds hr hq hch, hfeeds.kappa ch hch,
    hfeeds.lambda ch hch, hfeeds.shift]
  rfl

/-- It has a value for a position exactly if no number is too long there. -/
theorem valueIn_eq_ok_iff (hcall : call.Serves g k) (h : g.Tiled) (hs : g.Small)
    (hfeeds : call.Feeds (g.inRows k) (g.inCols k) (g.chans (g.tileGrid.blockAt k)) d img)
    {r q ch : Nat} (hr : r < (g.outRows k).len) (hq : q < (g.outCols k).len)
    (hch : ch < (g.chans (g.tileGrid.blockAt k)).len) {b : UInt8} :
    valueIn call img r q ch = .ok b ↔
      g.StepFits d ((g.outRows k).start + r) ((g.outCols k).start + q)
        ((g.chans (g.tileGrid.blockAt k)).start + ch) ∧
      g.value d ((g.outRows k).start + r) ((g.outCols k).start + q)
        ((g.chans (g.tileGrid.blockAt k)).start + ch) = b := by
  rw [valueIn, Depthwise.value, hcall.tapSum_eq h hs hfeeds hr hq hch, hfeeds.kappa ch hch,
    hfeeds.lambda ch hch, hfeeds.shift, requantize_eq_ok_iff]
  refine and_congr_left' ⟨?_, ?_⟩
  · rintro ⟨hproduct, hsum, hshift⟩
    exact ⟨hproduct, hsum, hshift⟩
  · rintro ⟨hproduct, hsum, hshift⟩
    exact ⟨hproduct, hsum, hshift⟩

end Call.Serves

/-! ## The tiles of a layer -/

/-- What a layer computes for a tile: its spans, its transfers and the sides that it touches. -/
structure TilePlan where
  rows : Span
  cols : Span
  outRows : Span
  outCols : Span
  chans : Span
  input : Tile
  output : Tile
  boundary : Sides Bool

/-- The plan of the tile at a coordinate. -/
def Tiles.plan (t : Tiles) (grid : Grid) (c : Coord) : Checked TilePlan := do
  let (rows, cols) ← t.inputSpans c
  let (outRows, outCols) ← t.outputSpans c
  let chans ← t.channelSpan c.inChannel
  return ⟨rows, cols, outRows, outCols, chans, ← t.inputTile c, ← t.outputTile c, ← grid.boundary c⟩

/-- A call is made for a tile of a layer. -/
structure Call.Computes (call : Call) (g : Geometry) (p : TilePlan) : Prop where
  inputDims : call.inputDims = p.input.dims
  outputDims : call.outputDims = p.output.dims
  channels : call.channels = p.output.dims.channels
  kernel : call.kernel = g.kernel
  stride : call.stride = g.stride
  boundary : call.boundary = p.boundary
  padding : call.padding = g.padding

theorem Tensor.window_dims {t : Tensor} {rows cols chans : Span} {tile : Tile}
    (h : t.window rows cols chans = .ok tile) : tile.dims = ⟨rows.len, cols.len, chans.len⟩ := by
  obtain ⟨_, -, h⟩ := Checked.bind_eq_ok.mp h
  obtain ⟨_, -, h⟩ := Checked.bind_eq_ok.mp h
  obtain ⟨_, -, h⟩ := Checked.bind_eq_ok.mp h
  obtain ⟨_, -, h⟩ := Checked.bind_eq_ok.mp h
  obtain ⟨_, -, h⟩ := Checked.bind_eq_ok.mp h
  cases h
  rfl

/-- The plan of tile `k`, as far as it does not depend on where the tensors lie. -/
theorem Tiles.plan_inv {t : Tiles} (h : t.geometry.Tiled) (hs : t.geometry.Small) {k : Nat}
    (hk : k < t.geometry.tileGrid.size) {p : TilePlan}
    (hplan : t.plan t.geometry.tileGrid (t.geometry.tileGrid.tileAt k) = .ok p) :
    p.rows = t.geometry.inRows k ∧ p.cols = t.geometry.inCols k ∧
      p.outRows = t.geometry.outRows k ∧ p.outCols = t.geometry.outCols k ∧
      p.chans = t.geometry.chans (t.geometry.tileGrid.blockAt k) ∧
      p.input.dims = ⟨(t.geometry.inRows k).len, (t.geometry.inCols k).len,
        (t.geometry.chans (t.geometry.tileGrid.blockAt k)).len⟩ ∧
      p.output.dims = ⟨(t.geometry.outRows k).len, (t.geometry.outCols k).len,
        (t.geometry.chans (t.geometry.tileGrid.blockAt k)).len⟩ ∧
      p.boundary = t.geometry.tileGrid.boundaryAt k := by
  have hspan : t.channelSpan (t.geometry.tileGrid.tileAt k).inChannel =
      .ok (t.geometry.chans (t.geometry.tileGrid.blockAt k)) :=
    channelSpan_eq h hs (Grid.blockAt_lt hk)
  rw [plan, inputSpans_eq h hs, Checked.ok_bind] at hplan
  simp only at hplan
  rw [outputSpans_eq h hs, Checked.ok_bind] at hplan
  simp only at hplan
  rw [hspan, Checked.ok_bind, inputTile_eq_window h hs hk, outputTile_eq_window h hs hk,
    Grid.boundary_tileAt (Geometry.tileGrid_regular h hs)] at hplan
  obtain ⟨input, hinput, hplan⟩ := Checked.bind_eq_ok.mp hplan
  obtain ⟨output, houtput, hplan⟩ := Checked.bind_eq_ok.mp hplan
  cases hplan
  exact ⟨rfl, rfl, rfl, rfl, rfl, Tensor.window_dims hinput, Tensor.window_dims houtput, rfl⟩

/-- What a plan knows of its tile: a call made for it serves the tile. -/
theorem Call.Computes.serves {call : Call} {g : Geometry} {p : TilePlan} {k : Nat}
    (hcall : call.Computes g p)
    (hin : p.input.dims = ⟨(g.inRows k).len, (g.inCols k).len, (g.chans (g.tileGrid.blockAt k)).len⟩)
    (hout : p.output.dims =
      ⟨(g.outRows k).len, (g.outCols k).len, (g.chans (g.tileGrid.blockAt k)).len⟩)
    (hboundary : p.boundary = g.tileGrid.boundaryAt k) : call.Serves g k where
  inputDims := hcall.inputDims.trans hin
  outputDims := hcall.outputDims.trans hout
  channels := by rw [hcall.channels, hout]
  kernel := hcall.kernel
  stride := hcall.stride
  boundary := hcall.boundary.trans hboundary
  padding := hcall.padding

/-- What a unit does for the tile at `c`. It finds its taps in the window just where they fall on the
tensor; it ends exactly if no number is too long for any output element of its share; and it then leaves the
values of the layer there and changes nothing in the rest of the output tile. -/
structure Call.RunsLayer (call : Call) (g : Geometry) (c : Coord) (p : TilePlan) (d : LayerData)
    (m : Memory) (u : Member) (share : Share) : Prop where
  rows : g.rows.Finds p.outRows p.rows (position g.stride call.inputDims.rows (rowShift call))
  cols : g.cols.Finds p.outCols p.cols (position g.stride call.inputDims.cols (colShift call))
  ends : (∃ m', Depthwise.kernel u call m = .ok () m') ↔
    ∀ y < call.outputDims.rows, ∀ x < call.outputDims.cols, ∀ ch, share.start ≤ ch →
      ch < share.stop → g.StepFits d (c.height * g.block.height + y) (c.width * g.block.width + x)
        (c.outChannel * g.block.channels + ch)
  leaves : ∀ m', Depthwise.kernel u call m = .ok () m' → ∀ y < call.outputDims.rows,
    ∀ x < call.outputDims.cols, ∀ ch < call.channels,
      let e : Endpoint := ⟨.scratchpad,
        call.output + ((y * call.outputDims.cols + x) * call.outputDims.channels + ch)⟩
      (share.start ≤ ch ∧ ch < share.stop →
        m'.image e = g.value d (c.height * g.block.height + y) (c.width * g.block.width + x)
          (c.outChannel * g.block.channels + ch)) ∧
        (¬ (share.start ≤ ch ∧ ch < share.stop) → m'.image e = m.image e)

/-- **The kernel on a window computes the layer.** For every tile of a layer that passes validation, let the
scratchpad hold the window of the tile and the weights, multipliers and biases of its channels, and let a
unit run the kernel for the tile: it computes its share of the output elements of the layer. -/
theorem kernel_on_window_eq_layer {g : Geometry} (hsmall : g.Small)
    (hvalid : g.validate.run = .ok (.ok ())) {input output weights : Endpoint} {t : Tiles}
    (hplace : Tiles.place g input output weights = .ok t) {grid : Grid} (hgrid : g.grid = .ok grid)
    {c : Coord} (hc : c ∈ grid.tiles) {p : TilePlan} (hplan : t.plan grid c = .ok p) {call : Call}
    (hcall : call.Computes g p) (hplaced : Placed call) {d : LayerData} {m : Memory}
    (hfeeds : call.Feeds p.rows p.cols p.chans d m.image) {u : Member} {share : Share}
    (hshare : u.share call.channels = .ok share) : call.RunsLayer g c p d m u share := by
  have htiled := Geometry.validate_inv hvalid
  have hregular := Geometry.tileGrid_regular htiled hsmall
  cases hgrid.symm.trans (Geometry.grid_eq htiled hsmall)
  obtain ⟨blob, -, heq⟩ := Tiles.place_eq htiled hsmall input output weights
  cases hplace.symm.trans heq
  obtain ⟨k, hk, rfl⟩ := Grid.exists_tileAt hregular hc
  obtain ⟨hrows, hcols, houtRows, houtCols, hchans, hin, hout, hboundary⟩ :=
    Tiles.plan_inv (t := ⟨g, _, _, _, _⟩) htiled hsmall hk hplan
  have hserves : call.Serves g k := hcall.serves hin hout hboundary
  have hbounded := hserves.bounded htiled hsmall
  have hstop := Member.share_stop_le hshare
  have houtDims := hserves.outputDims
  have hchannels := hserves.channels
  rw [hrows, hcols, hchans] at hfeeds
  have hvalue : ∀ y < call.outputDims.rows, ∀ x < call.outputDims.cols, ∀ ch < call.channels, ∀ b,
      valueIn call m.image y x ch = .ok b ↔
        g.StepFits d ((g.outRows k).start + y) ((g.outCols k).start + x)
          ((g.chans (g.tileGrid.blockAt k)).start + ch) ∧
        g.value d ((g.outRows k).start + y) ((g.outCols k).start + x)
          ((g.chans (g.tileGrid.blockAt k)).start + ch) = b := fun y hy x hx ch hch b =>
    hserves.valueIn_eq_ok_iff htiled hsmall hfeeds (by rw [houtDims] at hy; exact hy)
      (by rw [houtDims] at hx; exact hx) (by rw [hchannels] at hch; exact hch)
  refine ⟨?_, ?_, ⟨?_, ?_⟩, ?_⟩
  · rw [hrows, houtRows, rowShift_eq (Nat.lt_trans (rowPad_lt hbounded) (by decide)),
      hserves.rowPad_eq, hserves.inputDims]
    exact Axis.finds_position htiled.rows hsmall.rows (Geometry.rowBlock_lt htiled hsmall k)
  · rw [hcols, houtCols, colShift_eq (Nat.lt_trans (colPad_lt hbounded) (by decide)),
      hserves.colPad_eq, hserves.inputDims]
    exact Axis.finds_position htiled.cols hsmall.cols (Geometry.colBlock_lt htiled hsmall k)
  · rintro ⟨m', hrun⟩ y hy x hx ch hlo hhi
    have hbyte := (kernel_at hbounded hshare hrun hy hx (by omega)).1 ⟨hlo, hhi⟩
    exact ((hvalue y hy x hx ch (by omega) _).mp hbyte).1
  · intro hall
    obtain ⟨_, m', hrun, -⟩ := (kernel_ends hbounded hplaced hshare m).ok_of_never (by
      rintro f ⟨y, x, ch, hmem, hstops⟩
      obtain ⟨hy, hx, hlo, hhi⟩ := mem_positions.mp hmem
      have hv := (hvalue y hy x hx ch (by omega) _).mpr ⟨hall y hy x hx ch hlo (by omega), rfl⟩
      cases hv.symm.trans hstops)
    exact ⟨m', hrun⟩
  · intro m' hrun y hy x hx ch hch e
    obtain ⟨hmine, hother⟩ := kernel_at hbounded hshare hrun hy hx hch
    exact ⟨fun hin => ((hvalue y hy x hx ch hch _).mp (hmine hin)).2.symm, hother⟩

/-- The parts of the tensors that a scratchpad feeds to a call; whatever it holds are some tensors. -/
def LayerData.fedBy (call : Call) (rows cols chans : Span) (img : Image) : LayerData where
  input y x c := img ⟨.scratchpad, call.input +
    (((y - rows.start) * cols.len + (x - cols.start)) * chans.len + (c - chans.start))⟩
  weights c kh kw := img ⟨.scratchpad, call.weights +
    (((c - chans.start) * call.kernel + kh) * call.kernel + kw)⟩
  kappa c := int32At img (call.kappa + 4 * (c - chans.start))
  lambda c := int32At img (call.lambda + 4 * (c - chans.start))
  shift := call.requant.outShift.toNat

theorem Call.feeds_fedBy (call : Call) (rows cols chans : Span) (img : Image) :
    call.Feeds rows cols chans (.fedBy call rows cols chans img) img := by
  constructor <;> intros <;> simp only [LayerData.fedBy, Nat.add_sub_cancel_left]

/-- The last tile of the first channel block of the small layer, on a scratchpad with a row of ones. -/
theorem kernel_on_window_eq_layer_small :
    let m : Memory := (Memory.empty 0x1000).withBank .scratchpad
      { ((Memory.empty 0x1000).bank .scratchpad) with
        pages := Pages.empty.write 16 (List.replicate 100 1) }
    ∃ p, smallJob.tiles.plan smallLayer.tileGrid (.ofBlock 0 1 1) = .ok p ∧
      (smallJob.callAt 3).Computes smallLayer p ∧
      (smallJob.callAt 3).RunsLayer smallLayer (.ofBlock 0 1 1) p
        (.fedBy (smallJob.callAt 3) p.rows p.cols p.chans m.image) m ⟨0, 1⟩ ⟨0, 1⟩ :=
  ⟨_, rfl, ⟨rfl, rfl, rfl, rfl, rfl, rfl, rfl⟩,
    kernel_on_window_eq_layer smallJob_promised.small rfl
      (show Tiles.place smallLayer ⟨.mid, 0x1000⟩ ⟨.mid, 0x1100⟩ ⟨.mid, 0x1200⟩ =
        .ok smallJob.tiles from rfl) rfl (by decide) rfl ⟨rfl, rfl, rfl, rfl, rfl, rfl, rfl⟩
      ⟨.inr (by decide), .inr (by decide), .inr (by decide), .inr (by decide), .inr (by decide)⟩
      (Call.feeds_fedBy _ _ _ _ _) rfl⟩

end TileStream
