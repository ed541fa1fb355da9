import TileStream.Layer.Geometry
import TileStream.Proofs.Checked
import TileStream.Proofs.Grid.Odometer

/-! # The blocks of an axis and their input windows

The output of a tiled axis is cut in blocks. `Axis.Tiled` is what validation
leaves of an axis; from it follow the closed forms of output spans and input
windows, the bound of every window by the largest one, and `tap_inside`: a tap
of an output position falls inside the window of its block exactly when it falls
on the axis. -/
namespace TileStream

open Unsigned

namespace Axis

/-- The extent with the padding on both ends. -/
def reach (a : Axis) : Nat := a.extent + a.padBefore + a.padAfter

def outs (a : Axis) : Nat := (a.extent + a.padBefore + a.padAfter - a.kernel) / a.stride + 1

/-- The output positions of block `i`; the last block gets the remainder. -/
def outLen (a : Axis) (block i : Nat) : Nat := min block (a.outs - i * block)

/-- Where the input window of block `i` begins. -/
def inStart (a : Axis) (block i : Nat) : Nat :=
  i * block * a.stride - if i = 0 then 0 else a.padBefore

def inStop (a : Axis) (block i : Nat) : Nat :=
  min ((i * block + a.outLen block i - 1) * a.stride + a.kernel - a.padBefore) a.extent

def inLen (a : Axis) (block i : Nat) : Nat := a.inStop block i - a.inStart block i

/-- The length of the largest input window. -/
def window (a : Axis) (block : Nat) : Nat := min ((block - 1) * a.stride + a.kernel) a.extent

/-- An axis that can be tiled in blocks of `block` output positions. -/
structure Tiled (a : Axis) (block : Nat) : Prop where
  extent_pos : 0 < a.extent
  kernel_pos : 0 < a.kernel
  stride_pos : 0 < a.stride
  block_pos : 0 < block
  kernel_le : a.kernel ≤ a.extent + a.padBefore + a.padAfter
  block_le : block ≤ a.outs
  before_le : 1 < blocks a.outs block → a.padBefore ≤ block * a.stride
  after_le : 1 < blocks a.outs block → a.padAfter ≤ a.stride

/-- Every size of an axis is below `2 ^ 16`. -/
structure Small (a : Axis) (block : Nat) : Prop where
  extent : a.extent < 0x10000
  kernel : a.kernel < 0x10000
  stride : a.stride < 0x10000
  before : a.padBefore < 0x10000
  after : a.padAfter < 0x10000
  block : block < 0x10000

variable {a : Axis} {block i : Nat}

theorem outs_pos (a : Axis) : 0 < a.outs := Nat.succ_pos _

theorem Small.outs_lt (h : a.Small block) : a.outs < 0x40000 := by
  have hdiv := Nat.div_le_self (a.extent + a.padBefore + a.padAfter - a.kernel) a.stride
  have := h.extent
  have := h.before
  have := h.after
  unfold outs
  omega

theorem Small.reach_lt (h : a.Small block) : a.reach < 0x30000 := by
  have := h.extent
  have := h.before
  have := h.after
  unfold reach
  omega

theorem Small.word (h : a.Small block) : a.reach < wordLimit :=
  Nat.lt_trans h.reach_lt (by decide)

theorem padded_of_word (h : a.reach < wordLimit) : a.padded = .ok a.reach := by
  unfold reach wordLimit at h
  unfold padded
  rw [add_of_lt (by omega), Checked.ok_bind, add_of_lt h]
  rfl

theorem outs_le (hkernel : 0 < a.kernel) (hfits : a.kernel ≤ a.reach) : a.outs ≤ a.reach := by
  have hdiv := Nat.div_le_self (a.reach - a.kernel) a.stride
  show (a.reach - a.kernel) / a.stride + 1 ≤ a.reach
  omega

theorem outputExtent_of_word (h : a.reach < wordLimit) (hkernel : 0 < a.kernel)
    (hfits : a.kernel ≤ a.reach) (hstride : 0 < a.stride) : a.outputExtent = .ok a.outs := by
  have houts := outs_le hkernel hfits
  have hdiv : div (a.reach - a.kernel) a.stride = .ok ((a.reach - a.kernel) / a.stride) :=
    div_eq_ok_iff.mpr ⟨by omega, rfl⟩
  rw [outputExtent, padded_of_word h, Checked.ok_bind, hdiv, Checked.ok_bind]
  exact add_of_lt (Nat.lt_of_le_of_lt houts h)

/-- An output position reads within the padded extent. -/
theorem last_reach (h : a.kernel ≤ a.reach) {n : Nat} (hn : n < a.outs) :
    n * a.stride + a.kernel ≤ a.reach := by
  have hle := Nat.mul_le_mul_right a.stride
    (show n ≤ (a.reach - a.kernel) / a.stride from Nat.le_of_lt_succ hn)
  have hdiv := Nat.div_mul_le_self (a.reach - a.kernel) a.stride
  omega

/-- The span of a block that begins within the output. -/
theorem outputSpan_of_word (h : a.reach < wordLimit) (hkernel : 0 < a.kernel)
    (hfits : a.kernel ≤ a.reach) (hstride : 0 < a.stride) (hi : i * block < a.outs) :
    a.outputSpan i block = .ok ⟨i * block, a.outLen block i⟩ := by
  have houts := outs_le hkernel hfits
  unfold outputSpan
  rw [mul_of_lt (Nat.lt_of_lt_of_le hi (Nat.le_of_lt (Nat.lt_of_le_of_lt houts h))), Checked.ok_bind,
    outputExtent_of_word h hkernel hfits hstride, Checked.ok_bind]
  rfl

/-! ## What the sums and products of an axis are when they return -/

theorem padded_inv {n : Nat} (h : a.padded = .ok n) : n = a.extent + a.padBefore + a.padAfter := by
  obtain ⟨before, hbefore, hafter⟩ := Checked.bind_eq_ok.mp h
  rw [add_eq_ok_iff] at hbefore hafter
  omega

theorem outputExtent_inv {n : Nat} (h : a.outputExtent = .ok n) : n = a.outs := by
  obtain ⟨padded, hpadded, h⟩ := Checked.bind_eq_ok.mp h
  obtain ⟨steps, hsteps, h⟩ := Checked.bind_eq_ok.mp h
  rw [padded_inv hpadded, div_eq_ok_iff] at hsteps
  rw [add_eq_ok_iff] at h
  rw [← h.2, ← hsteps.2]
  rfl

theorem maxWindow_inv {n : Nat} (h : a.maxWindow block = .ok n) : n = a.window block := by
  obtain ⟨last, hlast, h⟩ := Checked.bind_eq_ok.mp h
  obtain ⟨reach, hreach, h⟩ := Checked.bind_eq_ok.mp h
  rw [mul_eq_ok_iff] at hlast
  rw [add_eq_ok_iff] at hreach
  rw [← Checked.pure_eq_ok.mp h, ← hreach.2, ← hlast.2]
  rfl

theorem validate_inv {name : AxisName} (hextent : 0 < a.extent) (hkernel : 0 < a.kernel)
    (hstride : 0 < a.stride) (hblock : 0 < block)
    (hok : (a.validate name block).run = .ok (.ok ())) : a.Tiled block := by
  have hceil : ceilDiv a.outs block = .ok (blocks a.outs block) := ceilDiv_of_pos hblock
  unfold validate at hok
  obtain ⟨extent, hpadded, hok⟩ := Refusal.bind_eq_ok.mp hok
  rw [Refusal.lift_eq_ok] at hpadded
  obtain rfl := padded_inv hpadded
  obtain ⟨hfits, hok⟩ := Refusal.check_eq_ok.mp hok
  obtain ⟨out, hout, hok⟩ := Refusal.bind_eq_ok.mp hok
  rw [Refusal.lift_eq_ok] at hout
  obtain rfl := outputExtent_inv hout
  obtain ⟨hlarge, hok⟩ := Refusal.check_eq_ok.mp hok
  obtain ⟨count, hcount, hok⟩ := Refusal.bind_eq_ok.mp hok
  rw [Refusal.lift_eq_ok, hceil] at hcount
  cases hcount
  have hpads : 1 < blocks a.outs block →
      a.padBefore ≤ block * a.stride ∧ a.padAfter ≤ a.stride := by
    intro hmany
    rw [if_pos hmany] at hok
    obtain ⟨span, hspan, hok⟩ := Refusal.bind_eq_ok.mp hok
    rw [Refusal.lift_eq_ok, mul_eq_ok_iff] at hspan
    obtain ⟨hbefore, hok⟩ := Refusal.check_eq_ok.mp hok
    have hafter : ¬ a.stride < a.padAfter := by
      intro hlt
      rw [if_pos hlt] at hok
      exact Refusal.throw_ne_ok hok
    omega
  exact ⟨hextent, hkernel, hstride, hblock, by omega, by omega, fun hmany => (hpads hmany).1,
    fun hmany => (hpads hmany).2⟩

/-! ## Spans in closed form -/

/-- A block that begins within the output has an output position. -/
theorem outLen_pos_of_lt (hblock : 0 < block) (hi : i * block < a.outs) : 0 < a.outLen block i := by
  unfold outLen
  omega

theorem outLen_pos (h : a.Tiled block) (hi : i < blocks a.outs block) : 0 < a.outLen block i :=
  outLen_pos_of_lt h.block_pos ((lt_blocks_iff h.block_pos).mp hi)

theorem outLen_le (a : Axis) (block i : Nat) : a.outLen block i ≤ block := Nat.min_le_left _ _

theorem outStop_le (h : a.Tiled block) (hi : i < blocks a.outs block) :
    i * block + a.outLen block i ≤ a.outs := by
  have := (lt_blocks_iff h.block_pos).mp hi
  unfold outLen
  omega

theorem inStop_le (h : 0 < a.inLen block i) :
    a.inStart block i + a.inLen block i ≤ a.extent := by
  have : a.inStop block i ≤ a.extent := Nat.min_le_right _ _
  unfold inLen at *
  omega

/-- Every output position lies in one block. -/
theorem outLen_cover (h : a.Tiled block) {y : Nat} (hy : y < a.outs) :
    y / block < blocks a.outs block ∧ y % block < a.outLen block (y / block) := by
  have hsplit := Nat.div_add_mod y block
  have hmod := Nat.mod_lt y h.block_pos
  rw [Nat.mul_comm] at hsplit
  constructor
  · rw [lt_blocks_iff h.block_pos]
    omega
  · unfold outLen
    omega

theorem before_le_start (h : a.Tiled block) (hi : i < blocks a.outs block) (hpos : 0 < i) :
    a.padBefore ≤ i * block * a.stride := by
  refine Nat.le_trans (h.before_le (by omega)) (Nat.mul_le_mul_right _ ?_)
  exact Nat.le_mul_of_pos_left _ hpos

/-- The span of the last output position, counted from the start of its block. -/
theorem last_eq (h : a.Tiled block) (hi : i < blocks a.outs block) :
    (i * block + a.outLen block i - 1) * a.stride =
      i * block * a.stride + (a.outLen block i - 1) * a.stride := by
  have := outLen_pos h hi
  rw [Nat.add_sub_assoc this, Nat.add_mul]

theorem inLen_le_window (h : a.Tiled block) (hi : i < blocks a.outs block) :
    a.inLen block i ≤ a.window block := by
  have hlen := Nat.mul_le_mul_right a.stride (Nat.sub_le_sub_right (a.outLen_le block i) 1)
  unfold inLen inStop inStart window
  rw [last_eq h hi]
  by_cases hzero : i = 0
  · rw [if_pos hzero, hzero, Nat.zero_mul, Nat.zero_mul]
    rw [hzero] at hlen
    omega
  · have := before_le_start h hi (by omega)
    rw [if_neg hzero]
    omega

theorem window_pos (h : a.Tiled block) : 0 < a.window block := by
  have := h.kernel_pos
  have := h.extent_pos
  unfold window
  omega

/-- A tap of an output position falls inside the window of its block exactly when it falls on the
axis; the window has lost the padding before it if it is the first. -/
theorem tap_inside (h : a.Tiled block) (hi : i < blocks a.outs block) {y t : Nat}
    (hy : y < a.outLen block i) (ht : t < a.kernel) (q : Nat) :
    (((y * a.stride + t : Nat) : Int) - (if i = 0 then (a.padBefore : Int) else 0) = q ∧
        q < a.inLen block i) ↔
      ((((i * block + y) * a.stride + t : Nat) : Int) - a.padBefore =
          (a.inStart block i + q : Nat) ∧ a.inStart block i + q < a.extent) := by
  have hlast := Nat.mul_le_mul_right a.stride (show y ≤ a.outLen block i - 1 by omega)
  unfold inLen inStop inStart
  rw [last_eq h hi, Nat.add_mul]
  by_cases hzero : i = 0
  · rw [if_pos hzero, if_pos hzero, hzero, Nat.zero_mul, Nat.zero_mul]
    rw [hzero] at hlast
    omega
  · have := before_le_start h hi (by omega)
    rw [if_neg hzero, if_neg hzero]
    omega

/-! ## The functions of the axis -/

theorem mul_small {m n : Nat} (hm : m < 0x40000) (hn : n < 0x10000) :
    m * n < 0x400000000 := by
  have := Nat.mul_le_mul (Nat.le_of_lt_succ hm) (Nat.le_of_lt_succ hn)
  omega

theorem start_lt (h : a.Tiled block) (hs : a.Small block) (hi : i < blocks a.outs block) :
    i * block < 0x40000 ∧ i * block + a.outLen block i ≤ a.outs := by
  have := outStop_le h hi
  have := outLen_pos h hi
  have := hs.outs_lt
  omega

theorem outputSpan_eq (h : a.Tiled block) (hword : a.reach < wordLimit)
    (hi : i < blocks a.outs block) :
    a.outputSpan i block = .ok ⟨i * block, a.outLen block i⟩ :=
  outputSpan_of_word hword h.kernel_pos h.kernel_le h.stride_pos ((lt_blocks_iff h.block_pos).mp hi)

theorem inputSpan_eq (h : a.Tiled block) (hword : a.reach < wordLimit)
    (hi : i < blocks a.outs block) :
    a.inputSpan ⟨i * block, a.outLen block i⟩ (decide (0 < i)) =
      .ok ⟨a.inStart block i, a.inLen block i⟩ := by
  have houts := outs_le h.kernel_pos h.kernel_le
  have hstop := outStop_le h hi
  have hlen := outLen_pos h hi
  -- the first and the last output position read within the padded extent
  have hfirst := last_reach h.kernel_le (show i * block < a.outs by omega)
  have hlast := last_reach h.kernel_le (show i * block + a.outLen block i - 1 < a.outs by omega)
  have hpad : (if decide (0 < i) = true then a.padBefore else 0) =
      if i = 0 then 0 else a.padBefore := by
    rcases Nat.eq_zero_or_pos i with rfl | hpos
    · rfl
    · rw [if_pos (decide_eq_true hpos), if_neg (Nat.ne_of_gt hpos)]
  unfold wordLimit at hword
  simp only [inputSpan, Span.stop]
  rw [mul_of_lt (by omega), Checked.ok_bind, add_of_lt (by omega), Checked.ok_bind,
    mul_of_lt (by omega), Checked.ok_bind, add_of_lt (by omega), Checked.ok_bind, hpad]
  rfl

end Axis

end TileStream
