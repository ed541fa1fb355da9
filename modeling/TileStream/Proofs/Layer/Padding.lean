import TileStream.Proofs.Layer.Accepted

/-! # Which tiles need padding

The input window of an output span, before it is clamped, begins at
`Axis.rawStart` and ends at `Axis.rawStop`; the positions of it that are not on
the axis are padding. `Axis.Checks.spans_iff` says exactly when a tile away from
the boundary needs some. The two inequalities that validation asks for rule this
out, so that the flags of a tile name every side on which it is padded
(`flags_cover_padding`). One of the two is stricter than it has to be, and some
layers are refused without the problem that the refusal names. -/
namespace TileStream

open Unsigned

namespace Axis

/-- The first position of the window of an output span, not clamped to the axis. -/
def rawStart (a : Axis) (out : Span) : Int := (out.start * a.stride : Nat) - (a.padBefore : Int)

/-- The first position past the window of an output span, not clamped to the axis. -/
def rawStop (a : Axis) (out : Span) : Int :=
  ((out.start + out.len - 1) * a.stride + a.kernel : Nat) - (a.padBefore : Int)

/-- Some output position of a span has a tap at position `p`, on the axis or not. -/
def Needs (a : Axis) (out : Span) (p : Int) : Prop :=
  ∃ y < out.len, ∃ t < a.kernel, p = ((out.start + y) * a.stride + t : Nat) - (a.padBefore : Int)

/-- A block after the first needs a position before the axis, or a block before the last one needs a
position past it. -/
def SpansTiles (a : Axis) (block : Nat) : Prop :=
  ∃ i < blocks a.outs block, ∃ out, a.outputSpan i block = .ok out ∧
    (0 < i ∧ (∃ p < 0, a.Needs out p) ∨
      i + 1 < blocks a.outs block ∧ ∃ p ≥ (a.extent : Int), a.Needs out p)

/-- Every side on which the window of an output span leaves the axis is flagged. -/
structure Flagged (a : Axis) (out : Span) (before after : Bool) : Prop where
  before : a.rawStart out < 0 → before = true
  after : (a.extent : Int) < a.rawStop out → after = true

/-- The output positions of the last block. -/
def lastLen (a : Axis) (block : Nat) : Nat := a.outLen block (blocks a.outs block - 1)

/-- The positions at the end of the padded axis that no window reaches. -/
def slack (a : Axis) : Nat := (a.reach - a.kernel) % a.stride

variable {a : Axis} {block i : Nat} {out : Span}

section Window

variable {p : Int}

theorem Needs.bounds (h : a.Needs out p) : a.rawStart out ≤ p ∧ p < a.rawStop out := by
  obtain ⟨y, hy, t, ht, rfl⟩ := h
  have hfirst := Nat.mul_le_mul_right a.stride (show out.start ≤ out.start + y by omega)
  have hlast := Nat.mul_le_mul_right a.stride (show out.start + y ≤ out.start + out.len - 1 by omega)
  unfold rawStart rawStop
  omega

/-- The window begins with a position that is needed. -/
theorem needs_rawStart (hkernel : 0 < a.kernel) (hlen : 0 < out.len) :
    a.Needs out (a.rawStart out) :=
  ⟨0, hlen, 0, hkernel, by simp [rawStart]⟩

/-- It ends with one. -/
theorem needs_rawStop (hkernel : 0 < a.kernel) (hlen : 0 < out.len) :
    a.Needs out (a.rawStop out - 1) := by
  refine ⟨out.len - 1, by omega, a.kernel - 1, by omega, ?_⟩
  have hlast : out.start + (out.len - 1) = out.start + out.len - 1 := by omega
  unfold rawStop
  rw [hlast]
  omega

theorem needs_before_iff (hkernel : 0 < a.kernel) (hlen : 0 < out.len) :
    (∃ p < 0, a.Needs out p) ↔ a.rawStart out < 0 :=
  ⟨fun ⟨_, hp, hneeds⟩ => Int.lt_of_le_of_lt hneeds.bounds.1 hp,
    fun h => ⟨_, h, needs_rawStart hkernel hlen⟩⟩

theorem needs_past_iff (hkernel : 0 < a.kernel) (hlen : 0 < out.len) :
    (∃ p ≥ (a.extent : Int), a.Needs out p) ↔ (a.extent : Int) < a.rawStop out :=
  ⟨fun ⟨_, hp, hneeds⟩ => Int.lt_of_le_of_lt hp hneeds.bounds.2,
    fun h => ⟨_, by omega, needs_rawStop hkernel hlen⟩⟩

end Window

/-! ## The tiles of an axis -/

theorem Checks.outputSpan_eq (h : a.Checks block) (hi : i < blocks a.outs block) :
    a.outputSpan i block = .ok ⟨i * block, a.outLen block i⟩ :=
  outputSpan_of_word h.word h.kernel_pos h.kernel_le h.stride_pos ((lt_blocks_iff h.block_pos).mp hi)

/-- The number of blocks is a word. -/
theorem Checks.blocks_lt (h : a.Checks block) : blocks a.outs block < wordLimit :=
  Nat.lt_of_le_of_lt (Nat.le_trans (blocks_le h.block_pos) (outs_le h.kernel_pos h.kernel_le)) h.word

/-- The last block ends where the output ends. -/
theorem Checks.lastLen_add (h : a.Checks block) :
    (blocks a.outs block - 1) * block + a.lastLen block = a.outs := by
  have hpos := blocks_pos h.block_pos a.outs_pos
  have hbegins := (lt_blocks_iff h.block_pos).mp (Nat.sub_lt hpos Nat.one_pos)
  have hends := le_blocks_mul (n := a.outs) h.block_pos
  have hsplit : blocks a.outs block * block = (blocks a.outs block - 1) * block + block := by
    rw [← Nat.succ_mul, Nat.succ_eq_add_one, Nat.sub_add_cancel hpos]
  unfold lastLen outLen
  omega

/-- A block that is not the last is full. -/
theorem Checks.outLen_eq (h : a.Checks block) (hi : i + 1 < blocks a.outs block) :
    a.outLen block i = block := by
  have hbegins := (lt_blocks_iff h.block_pos).mp hi
  rw [Nat.succ_mul] at hbegins
  unfold outLen
  omega

theorem Checks.outLen_pos (h : a.Checks block) (hi : i < blocks a.outs block) :
    0 < a.outLen block i :=
  outLen_pos_of_lt h.block_pos ((lt_blocks_iff h.block_pos).mp hi)

/-- The window of the last output position and the slack end the padded axis. -/
theorem Checks.reach_eq (h : a.Checks block) :
    (a.outs - 1) * a.stride + a.kernel + a.slack = a.reach := by
  have hsplit := Nat.div_add_mod (a.reach - a.kernel) a.stride
  have hfits := h.kernel_le
  have houts : a.outs - 1 = (a.reach - a.kernel) / a.stride := rfl
  rw [houts, slack, Nat.mul_comm]
  omega

/-- The block after the first begins before the axis if any later one does. -/
theorem rawStart_neg_iff (hmany : 1 < blocks a.outs block) :
    (∃ i < blocks a.outs block, 0 < i ∧ a.rawStart ⟨i * block, a.outLen block i⟩ < 0) ↔
      block * a.stride < a.padBefore := by
  simp only [rawStart]
  constructor
  · rintro ⟨i, -, hpos, hbefore⟩
    have hsecond := Nat.mul_le_mul_right a.stride (Nat.le_mul_of_pos_left block hpos)
    omega
  · intro hbefore
    refine ⟨1, hmany, Nat.one_pos, ?_⟩
    rw [Nat.one_mul]
    omega

/-- The block before the last ends past the axis if any earlier one does. What the last block moves on by
and the slack is what the padding may take. -/
theorem Checks.rawStop_past_iff (h : a.Checks block) (hmany : 1 < blocks a.outs block) :
    (∃ i, i + 1 < blocks a.outs block ∧
        (a.extent : Int) < a.rawStop ⟨i * block, a.outLen block i⟩) ↔
      a.lastLen block * a.stride + a.slack < a.padAfter := by
  have hlast := h.lastLen_add
  have hreach := h.reach_eq
  have hblock := h.block_pos
  -- the last position before the last block, and the last one of the output
  have hposition : 0 < (blocks a.outs block - 1) * block := Nat.mul_pos (by omega) hblock
  have hmoves : (a.outs - 1) * a.stride =
      ((blocks a.outs block - 1) * block - 1) * a.stride + a.lastLen block * a.stride := by
    rw [← Nat.add_mul]
    congr 1
    omega
  have hstop : ∀ {i}, i + 1 < blocks a.outs block → a.rawStop ⟨i * block, a.outLen block i⟩ =
      (((i + 1) * block - 1) * a.stride + a.kernel : Nat) - (a.padBefore : Int) := by
    intro i hi
    rw [rawStop, h.outLen_eq hi, Nat.succ_mul]
  unfold reach at hreach
  constructor
  · rintro ⟨i, hi, hpast⟩
    rw [hstop hi] at hpast
    have hblocks := Nat.mul_le_mul_right block (show i + 1 ≤ blocks a.outs block - 1 by omega)
    have hwindow := Nat.mul_le_mul_right a.stride (Nat.sub_le_sub_right hblocks 1)
    omega
  · intro hpast
    have hi : blocks a.outs block - 2 + 1 < blocks a.outs block := by omega
    have hnext : blocks a.outs block - 2 + 1 = blocks a.outs block - 1 := by omega
    refine ⟨blocks a.outs block - 2, hi, ?_⟩
    rw [hstop hi, hnext]
    omega

/-- A tile away from the boundary is padded if the window of its span leaves the axis on that side. -/
theorem Checks.spansTiles_iff_raw (h : a.Checks block) : a.SpansTiles block ↔
    (∃ i < blocks a.outs block, 0 < i ∧ a.rawStart ⟨i * block, a.outLen block i⟩ < 0) ∨
    ∃ i, i + 1 < blocks a.outs block ∧
      (a.extent : Int) < a.rawStop ⟨i * block, a.outLen block i⟩ := by
  constructor
  · rintro ⟨i, hi, out, hout, hneeds⟩
    rw [h.outputSpan_eq hi] at hout
    cases hout
    have hlen := h.outLen_pos hi
    rcases hneeds with ⟨hpos, hneeds⟩ | ⟨hnext, hneeds⟩
    · exact .inl ⟨i, hi, hpos, (needs_before_iff h.kernel_pos hlen).mp hneeds⟩
    · exact .inr ⟨i, hnext, (needs_past_iff h.kernel_pos hlen).mp hneeds⟩
  · rintro (⟨i, hi, hpos, hraw⟩ | ⟨i, hnext, hraw⟩)
    · exact ⟨i, hi, _, h.outputSpan_eq hi,
        .inl ⟨hpos, (needs_before_iff h.kernel_pos (h.outLen_pos hi)).mpr hraw⟩⟩
    · have hi := Nat.lt_of_succ_lt hnext
      exact ⟨i, hi, _, h.outputSpan_eq hi,
        .inr ⟨hnext, (needs_past_iff h.kernel_pos (h.outLen_pos hi)).mpr hraw⟩⟩

/-- **When padding reaches a tile away from the boundary.** -/
theorem Checks.spans_iff (h : a.Checks block) (hmany : 1 < blocks a.outs block) :
    a.SpansTiles block ↔ block * a.stride < a.padBefore ∨
      a.lastLen block * a.stride + a.slack < a.padAfter := by
  rw [h.spansTiles_iff_raw, rawStart_neg_iff hmany, h.rawStop_past_iff hmany]

/-- An axis that validation accepts has no such tile. -/
theorem Tiled.not_spansTiles (h : a.Tiled block) (hchecks : a.Checks block) :
    ¬ a.SpansTiles block := by
  intro hspans
  have hmany : 1 < blocks a.outs block := by
    obtain ⟨i, hi, -, -, ⟨hpos, -⟩ | ⟨hnext, -⟩⟩ := hspans <;> omega
  have hlen : 0 < a.lastLen block := hchecks.outLen_pos (by omega)
  have hone := Nat.le_mul_of_pos_left a.stride hlen
  have hbefore := h.before_le hmany
  have hafter := h.after_le hmany
  rw [hchecks.spans_iff hmany] at hspans
  omega

/-- If no tile away from the boundary is padded, the flags of a tile are enough. -/
theorem Checks.flagged (h : a.Checks block) (hnot : ¬ a.SpansTiles block)
    (hi : i < blocks a.outs block) :
    a.Flagged ⟨i * block, a.outLen block i⟩ (i == 0) (i + 1 == blocks a.outs block) := by
  rw [h.spansTiles_iff_raw, not_or] at hnot
  constructor
  · intro hraw
    have hzero : ¬ 0 < i := fun hpos => hnot.1 ⟨i, hi, hpos, hraw⟩
    simpa using hzero
  · intro hraw
    have hlast : ¬ i + 1 < blocks a.outs block := fun hnext => hnot.2 ⟨i, hnext, hraw⟩
    rw [beq_iff_eq]
    omega

end Axis

/-! ## Accepted layers -/

/-- **The flags of a tile name every side on which it is padded**, in every grid of an accepted layer. The
grid, the flags and both output spans are found. -/
theorem flags_cover_padding {g : Geometry} (h : g.validate.run = .ok (.ok ())) :
    ∃ grid, g.grid = .ok grid ∧ ∀ c : Coord, c.height < grid.height → c.width < grid.width →
      ∃ flags rows cols, grid.boundary c = .ok flags ∧
        g.rows.outputSpan c.height g.block.height = .ok rows ∧
        g.cols.outputSpan c.width g.block.width = .ok cols ∧
        g.rows.Flagged rows flags.top flags.bottom ∧
        g.cols.Flagged cols flags.left flags.right := by
  have hchecks := Geometry.checks_of_validate h
  have htiled := Geometry.validate_inv h
  refine ⟨_, hchecks.grid_eq, fun c hheight hwidth => ?_⟩
  have hdown := hchecks.rows.blocks_lt
  have hacross := hchecks.cols.blocks_lt
  have hboundary : g.tileGrid.boundary c = .ok ⟨c.height == 0, c.height + 1 == g.tileGrid.height,
      c.width == 0, c.width + 1 == g.tileGrid.width⟩ := by
    unfold Grid.boundary
    rw [add_of_lt (Nat.lt_of_le_of_lt hheight hdown), Checked.ok_bind,
      add_of_lt (Nat.lt_of_le_of_lt hwidth hacross)]
    rfl
  exact ⟨_, _, _, hboundary, hchecks.rows.outputSpan_eq hheight, hchecks.cols.outputSpan_eq hwidth,
    hchecks.rows.flagged (htiled.rows.not_spansTiles hchecks.rows) hheight,
    hchecks.cols.flagged (htiled.cols.not_spansTiles hchecks.cols) hwidth⟩

/-- A layer of four tiles in each channel block that is padded on every side. -/
theorem flags_cover_padding_small : smallLayer.validate.run = .ok (.ok ()) ∧
    smallLayer.rows.rawStart ⟨0, 2⟩ = -1 ∧ smallLayer.rows.Flagged ⟨0, 2⟩ true false := by
  have hvalid : smallLayer.validate.run = .ok (.ok ()) := rfl
  obtain ⟨grid, hgrid, hcover⟩ := flags_cover_padding hvalid
  cases hgrid
  obtain ⟨flags, rows, cols, hflags, hrows, -, hcovers, -⟩ :=
    hcover (.ofBlock 0 0 1) (by decide) (by decide)
  cases hflags
  cases hrows
  exact ⟨hvalid, rfl, hcovers⟩

/-! ## Refused layers -/

/-- The convolution along an axis that is cut in blocks, with the size of a block. -/
def Geometry.cutAxis (g : Geometry) : AxisName → Option (Axis × Nat)
  | .height => some (g.rows, g.block.height)
  | .width => some (g.cols, g.block.width)
  | .channel => none

/-- What a refusal for the padding of an axis says about its tiles. -/
theorem Axis.Refuses.padding {a : Axis} {name name' : AxisName} {block block' pad stride : Nat}
    (h : a.Refuses name block (.paddingSpansTiles name' pad block' stride)) :
    name' = name ∧ block' = block ∧ stride = a.stride ∧ 1 < blocks a.outs block ∧
      (pad = a.padBefore ∧ block * stride < pad ∧ a.SpansTiles block ∨
        pad = a.padAfter ∧ a.padBefore ≤ block * stride ∧ stride < pad ∧
          (a.SpansTiles block ↔ a.lastLen block * stride + a.slack < pad)) := by
  cases h with
  | before hchecks hmany hbefore =>
    have hspans := (hchecks.spans_iff hmany).mpr (.inl hbefore)
    exact ⟨rfl, rfl, rfl, hmany, .inl ⟨rfl, hbefore, hspans⟩⟩
  | after hchecks hmany hbefore hafter =>
    refine ⟨rfl, rfl, rfl, hmany, .inr ⟨rfl, hbefore, hafter, ?_⟩⟩
    rw [hchecks.spans_iff hmany, or_iff_right (Nat.not_lt_of_le hbefore)]

/-- **When a refused padding is the problem that the refusal names.** The padding before an axis is refused
only if it reaches a tile after the first. The padding after an axis is refused as soon as it is larger than
the stride. It reaches a tile before the last exactly if it is larger than what the last block moves on by
and the slack. -/
theorem refused_padding_spans_iff {g : Geometry} {name : AxisName} {pad block stride : Nat}
    (h : g.validate.run = .ok (.error (.paddingSpansTiles name pad block stride))) :
    ∃ a, g.cutAxis name = some (a, block) ∧ stride = a.stride ∧ 1 < blocks a.outs block ∧
      (pad = a.padBefore ∧ block * stride < pad ∧ a.SpansTiles block ∨
        pad = a.padAfter ∧ a.padBefore ≤ block * stride ∧ stride < pad ∧
          (a.SpansTiles block ↔ a.lastLen block * stride + a.slack < pad)) := by
  cases Geometry.refuses_of_validate h with
  | rows hrefuses =>
    obtain ⟨rfl, rfl, hrest⟩ := hrefuses.padding
    exact ⟨g.rows, rfl, hrest⟩
  | cols hrefuses =>
    obtain ⟨rfl, rfl, hrest⟩ := hrefuses.padding
    exact ⟨g.cols, rfl, hrest⟩

/-- A layer of one channel block with a kernel of five rows that keeps the size of its input. -/
def paddedByTwo (side : Nat) : Geometry where
  input := ⟨1, side, side⟩
  kernel := 5
  stride := 1
  padding := .uniform 2
  block := ⟨1, 2, side⟩
  elementBits := 8
  workspaceBytes := 0

/-- The last of three blocks has one row, and the padding reaches the block before it. -/
theorem refused_padding_spans_iff_odd :
    (paddedByTwo 5).validate.run = .ok (.error (.paddingSpansTiles .height 2 2 1)) ∧
    (paddedByTwo 5).rows.SpansTiles 2 := by
  have hrefused : (paddedByTwo 5).validate.run = .ok (.error (.paddingSpansTiles .height 2 2 1)) := rfl
  refine ⟨hrefused, ?_⟩
  obtain ⟨a, haxis, -, -, ⟨-, hlt, -⟩ | ⟨-, -, -, hspans⟩⟩ := refused_padding_spans_iff hrefused
  · exact absurd hlt (by decide)
  · cases haxis
    exact hspans.mpr (by decide)

/-- A layer of two full blocks is refused for the padding below it, which no tile above the last needs. -/
theorem refused_padding_confined :
    (paddedByTwo 4).validate.run = .ok (.error (.paddingSpansTiles .height 2 2 1)) ∧
    ¬ (paddedByTwo 4).rows.SpansTiles 2 := by
  have hchecks : (paddedByTwo 4).rows.Checks 2 := {
    word := by decide
    kernel_pos := by decide
    stride_pos := by decide
    block_pos := by decide
    kernel_le := by decide
    block_le := by decide }
  refine ⟨rfl, ?_⟩
  rw [hchecks.spans_iff (by decide)]
  decide

end TileStream
