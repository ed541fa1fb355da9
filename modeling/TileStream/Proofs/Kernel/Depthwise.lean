import Mathlib.Algebra.Order.BigOperators.Group.Finset
import Mathlib.Algebra.Order.Ring.Abs
import Mathlib.Algebra.Order.Ring.Int
import TileStream.Proofs.Memory.Words
import TileStream.Proofs.Kernel.Confined

/-! # What the depthwise kernel computes

`Reads` says what the operands of a call are, as functions of their index. On
such operands the result of the kernel at a position is its `value`: the sum of
the taps, put through the fixed-point step. The kernel stops only where that step
does (`kernel_ends`), and else leaves the values of the unit's channels and no
others (`kernel_at`). As long as the weights of a channel are fewer than `2 ^ 17`
the step does not overflow; only a shift by the width of a word or more stops it
(`valueIn_eq`). -/
namespace TileStream.Depthwise

open Unsigned Checked Finset

/-- Clip a number to a byte. -/
def clip (z : Int) : UInt8 := UInt8.ofNat (min 255 (max 0 z)).toNat

/-- Where a tap falls along an axis after `pad` positions of padding, if it falls inside. -/
def landing (stride extent pad out tap : Nat) : Option Nat :=
  if pad ≤ out * stride + tap ∧ out * stride + tap - pad < extent then
    some (out * stride + tap - pad)
  else none

/-- The padding that a call has before its first row. -/
def rowPad (c : Call) : Nat := if c.boundary.top then c.padding.top else 0

/-- The padding that a call has before its first column. -/
def colPad (c : Call) : Nat := if c.boundary.left then c.padding.left else 0

/-- The operands of a call, by index. -/
structure Reads (c : Call) (o : Operands) (input weights : Nat → UInt8) (kappa lambda : Nat → Int32) :
    Prop where
  input : ∀ n < c.inputDims.size, o.input[n]? = some (input n)
  weights : ∀ n < c.channels * c.kernel * c.kernel, o.weights[n]? = some (weights n)
  kappa : ∀ n < c.channels, o.kappa[n]? = some (kappa n)
  lambda : ∀ n < c.channels, o.lambda[n]? = some (lambda n)

/-- The product of one tap, zero outside the input tile. -/
def tapValue (c : Call) (input weights : Nat → UInt8) (y x channel kh kw : Nat) : Int :=
  match landing c.stride c.inputDims.rows (rowPad c) y kh,
    landing c.stride c.inputDims.cols (colPad c) x kw with
  | some row, some col =>
    ((input ((row * c.inputDims.cols + col) * c.inputDims.channels + channel)).toNat : Int) *
      (weights ((channel * c.kernel + kh) * c.kernel + kw)).toInt8.toInt
  | _, _ => 0

def tapSum (c : Call) (input weights : Nat → UInt8) (y x channel : Nat) : Int :=
  ∑ kh ∈ range c.kernel, ∑ kw ∈ range c.kernel, tapValue c input weights y x channel kh kw

/-- The output value at a position of the tile. -/
def value (c : Call) (input weights : Nat → UInt8) (kappa lambda : Nat → Int32)
    (y x channel : Nat) : Checked UInt8 :=
  requantize (tapSum c input weights y x channel) (kappa channel) (lambda channel)
    c.requant.outShift.toNat

/-- The value as far as no number of it is too long. -/
def outcome (c : Call) (input weights : Nat → UInt8) (kappa lambda : Nat → Int32)
    (y x channel : Nat) : UInt8 :=
  clip ((tapSum c input weights y x channel * (kappa channel).toInt + (lambda channel).toInt) >>>
    c.requant.outShift.toNat)

/-- A call whose index and position arithmetic stays far below the limits of a word. -/
structure Bounded (c : Call) : Prop where
  rows : c.inputDims.rows < 0x100000
  cols : c.inputDims.cols < 0x100000
  channels : c.channels < 0x20000
  inputChannels : c.inputDims.channels = c.channels
  outputChannels : c.outputDims.channels = c.channels
  outRows : c.outputDims.rows < 0x100000
  outCols : c.outputDims.cols < 0x100000
  stride : c.stride < 0x10000
  kernel : c.kernel < 0x10000
  top : c.padding.top < 0x10000
  left : c.padding.left < 0x10000

/-- A bounded call with so few weights that no sum of products is long. -/
structure Moderate (c : Call) : Prop extends Bounded c where
  taps : c.channels * c.kernel * c.kernel ≤ 0x20000

/-- A call whose tiles and weights take up a small part of the address space. -/
structure Sized (c : Call) : Prop where
  inputChannels : c.inputDims.channels = c.channels
  outputChannels : c.outputDims.channels = c.channels
  inputPlane : c.inputDims.rows * c.inputDims.cols ≤ 0x10000000000
  outputPlane : c.outputDims.rows * c.outputDims.cols ≤ 0x10000000000
  input : c.inputDims.size ≤ 0x200000000000000
  output : c.outputDims.size ≤ 0x200000000000000
  channels : c.channels < 0x20000
  weightRow : c.channels * c.kernel ≤ 0x200000000
  weights : c.channels * c.kernel * c.kernel ≤ 0x2000000000000

theorem Bounded.planes_le {c : Call} (h : Bounded c) :
    c.inputDims.rows * c.inputDims.cols ≤ 0x10000000000 ∧
      c.outputDims.rows * c.outputDims.cols ≤ 0x10000000000 :=
  ⟨Nat.mul_le_mul (Nat.le_of_lt h.rows) (Nat.le_of_lt h.cols),
    Nat.mul_le_mul (Nat.le_of_lt h.outRows) (Nat.le_of_lt h.outCols)⟩

theorem Bounded.size_le {c : Call} (h : Bounded c) :
    c.inputDims.size ≤ 0x200000000000000 ∧ c.outputDims.size ≤ 0x200000000000000 := by
  obtain ⟨hin, hout⟩ := h.planes_le
  have hinAll := Nat.mul_le_mul hin (Nat.le_of_lt h.channels)
  have houtAll := Nat.mul_le_mul hout (Nat.le_of_lt h.channels)
  unfold TileDims.size
  rw [h.inputChannels, h.outputChannels]
  omega

theorem Bounded.taps_le {c : Call} (h : Bounded c) :
    c.channels * c.kernel ≤ 0x200000000 ∧ c.channels * c.kernel * c.kernel ≤ 0x2000000000000 := by
  have hrow := Nat.mul_le_mul (Nat.le_of_lt h.channels) (Nat.le_of_lt h.kernel)
  have hall := Nat.mul_le_mul hrow (Nat.le_of_lt h.kernel)
  omega

theorem Bounded.sized {c : Call} (h : Bounded c) : Sized c where
  inputChannels := h.inputChannels
  outputChannels := h.outputChannels
  inputPlane := h.planes_le.1
  outputPlane := h.planes_le.2
  input := h.size_le.1
  output := h.size_le.2
  channels := h.channels
  weightRow := h.taps_le.1
  weights := h.taps_le.2

/-! ## Taps -/

theorem element_eq {α : Type} {buffer : Array α} {n : Nat} {a : α} (h : buffer[n]? = some a) :
    element buffer n = .ok a := by
  rw [element, h]

/-- A tap falls where it should, even if the numbers are so large that they are read as negative ones; where
the difference of one large and one small number is no displacement, a fault has to be allowed. -/
theorem position_ends {fault : Fault → Prop} {stride extent pad out tap : Nat}
    (hextent : extent < 0x8000000000000000) (hpad : pad + extent ≤ wordLimit)
    (hword : out * stride + tap < wordLimit ∨ fault .mulOverflow ∧ fault .addOverflow)
    (h : out * stride + tap < 0x8000000000000000 ∧ pad < 0x8000000000000000 ∨ fault .subOverflow) :
    Ends fault (· = landing stride extent pad out tap) (position stride extent (signed pad) out tap) := by
  unfold position landing
  refine (mul_ends (hword.imp (fun hlt => by unfold wordLimit at *; omega) (·.1))).bind_eq ?_
  by_cases hlt : out * stride + tap < wordLimit
  · rw [add_of_lt hlt, Checked.ok_bind, signed_of_lt hextent]
    generalize out * stride + tap = p at hlt h ⊢
    have hrange : Signed.InRange (signed p - signed pad) ∨ fault .subOverflow := by
      refine h.imp_left fun ⟨hp, hpad⟩ => ?_
      rw [signed_of_lt hp, signed_of_lt hpad]
      exact ⟨by omega, by omega⟩
    refine (Signed.sub_ends hrange).bind fun z hz => ?_
    obtain ⟨hz, hlo, hhi⟩ := hz
    unfold wordLimit at hpad hlt
    show ite _ _ _ = ite _ _ _
    -- a difference across the middle of the words lies outside the extent on either reading
    unfold signed at hz
    by_cases hinside : pad ≤ p ∧ p - pad < extent
    · have hplace : z = ((p - pad : Nat) : Int) := by
        split at hz <;> split at hz <;> omega
      rw [if_pos hinside, hplace, if_pos ⟨by omega, by omega⟩, Int.toNat_natCast]
    · rw [if_neg hinside, if_neg]
      split at hz <;> split at hz <;> omega
  · rw [add, if_neg hlt]
    exact (hword.resolve_left hlt).2

theorem position_eq {stride extent pad out tap : Nat} (hstride : stride < 0x10000)
    (hextent : extent < 0x100000) (hpad : pad < 0x10000) (hout : out < 0x100000)
    (htap : tap < 0x10000) :
    position stride extent (pad : Int) out tap = .ok (landing stride extent pad out tap) := by
  have hmul := Nat.mul_le_mul (Nat.le_of_lt_succ hout) (Nat.le_of_lt_succ hstride)
  have hends : Ends (fun _ => False) (· = landing stride extent pad out tap)
      (position stride extent (signed pad) out tap) :=
    position_ends (by omega) (by unfold wordLimit; omega) (.inl (by unfold wordLimit; omega))
      (.inl ⟨by omega, by omega⟩)
  rw [signed_of_lt (by omega)] at hends
  obtain ⟨place, hplace, rfl⟩ := hends.ok_of_never fun _ => id
  exact hplace

theorem rowShift_eq_signed (c : Call) : rowShift c = signed (rowPad c) := by
  unfold rowShift rowPad
  split <;> rfl

theorem colShift_eq_signed (c : Call) : colShift c = signed (colPad c) := by
  unfold colShift colPad
  split <;> rfl

theorem rowShift_eq {c : Call} (h : rowPad c < 0x8000000000000000) : rowShift c = (rowPad c : Int) := by
  rw [rowShift_eq_signed, signed_of_lt h]

theorem colShift_eq {c : Call} (h : colPad c < 0x8000000000000000) : colShift c = (colPad c : Int) := by
  rw [colShift_eq_signed, signed_of_lt h]

theorem rowPad_le (c : Call) : rowPad c ≤ c.padding.top := by
  unfold rowPad
  split <;> omega

theorem colPad_le (c : Call) : colPad c ≤ c.padding.left := by
  unfold colPad
  split <;> omega

theorem rowPad_lt {c : Call} (h : Bounded c) : rowPad c < 0x10000 :=
  Nat.lt_of_le_of_lt (rowPad_le c) h.top

theorem colPad_lt {c : Call} (h : Bounded c) : colPad c < 0x10000 :=
  Nat.lt_of_le_of_lt (colPad_le c) h.left

theorem landing_lt {stride extent pad out tap n : Nat}
    (h : landing stride extent pad out tap = some n) : n < extent := by
  unfold landing at h
  split at h
  · cases h
    rename_i hinside
    exact hinside.2
  · cases h

theorem abs_sum_range_le {n most : Nat} {f : Nat → Int} (h : ∀ i < n, |f i| ≤ most) :
    |∑ i ∈ range n, f i| ≤ ((n * most : Nat) : Int) := by
  refine le_trans (abs_sum_le_sum_abs _ _) ?_
  refine le_trans (sum_le_card_nsmul (range n) (fun i => |f i|) (most : Int) fun i hi =>
    h i (mem_range.mp hi)) ?_
  rw [card_range, nsmul_eq_mul, Nat.cast_mul]

/-- A fold whose every step adds a number of at most `most`, as long as there is room for the next one. -/
theorem foldlM_ends_sum {fault : Fault → Prop} {n most : Nat} {step : Int → Nat → Checked Int}
    {f : Nat → Int} (hmost : ∀ i < n, |f i| ≤ most)
    (h : ∀ acc : Int, ∀ i < n, |acc| + most < 0x8000000000000000 ∨ fault .addOverflow →
      Ends fault (· = acc + f i) (step acc i)) (acc : Int)
    (hroom : |acc| + ((n * most : Nat) : Int) < 0x8000000000000000 ∨ fault .addOverflow) :
    Ends fault (· = acc + ∑ i ∈ range n, f i) ((List.range n).foldlM step acc) := by
  induction n with
  | zero =>
    rw [range_zero, sum_empty, Int.add_zero]
    exact rfl
  | succ n ih =>
    have hmost' : ∀ i < n, |f i| ≤ most := fun i hi => hmost i (Nat.lt_succ_of_lt hi)
    have hpartial := abs_add_le acc (∑ i ∈ range n, f i)
    have hsum := abs_sum_range_le hmost'
    rw [Nat.succ_mul] at hroom
    rw [List.range_succ, List.foldlM_append, sum_range_succ, ← Int.add_assoc]
    refine (ih hmost' (fun acc i hi => h acc i (Nat.lt_succ_of_lt hi))
      (hroom.imp_left fun hlt => by omega)).bind_eq ?_
    rw [List.foldlM_cons]
    exact (h _ n (Nat.lt_succ_self n) (hroom.imp_left fun hlt => by omega)).bind_eq rfl

section Results

variable {c : Call} {o : Operands} {input weights : Nat → UInt8} {kappa lambda : Nat → Int32}
  {y x channel : Nat}

/-- The product of a byte and a signed byte. -/
theorem abs_product_le (v w : UInt8) : |(v.toNat : Int) * w.toInt8.toInt| ≤ 32640 := by
  have hvalue := v.toNat_lt
  have hlo := w.toInt8.le_toInt
  have hhi := w.toInt8.toInt_lt
  have hweight : |w.toInt8.toInt| ≤ 128 := abs_le.mpr ⟨by omega, by omega⟩
  rw [abs_mul, Nat.abs_cast]
  have hprod := Int.mul_le_mul (show (v.toNat : Int) ≤ 255 by omega) hweight (abs_nonneg _) (by decide)
  omega

theorem abs_tapValue_le (kh kw : Nat) : |tapValue c input weights y x channel kh kw| ≤ 32640 := by
  unfold tapValue
  split
  · exact abs_product_le _ _
  · decide

theorem product_eq (hin : c.inputDims.channels = c.channels)
    (hreads : Reads c o input weights kappa lambda) (hchannel : channel < c.channels)
    {row col kh kw : Nat} (hrow : row < c.inputDims.rows) (hcol : col < c.inputDims.cols)
    (hkh : kh < c.kernel) (hkw : kw < c.kernel) :
    product c o channel row col kh kw =
      .ok (((input ((row * c.inputDims.cols + col) * c.inputDims.channels + channel)).toNat : Int) *
        (weights ((channel * c.kernel + kh) * c.kernel + kw)).toInt8.toInt) := by
  have hpixel : (row * c.inputDims.cols + col) * c.inputDims.channels + channel < c.inputDims.size :=
    index_lt hrow hcol (by rw [hin]; exact hchannel)
  have hproduct := abs_le.mp (abs_product_le
    (input ((row * c.inputDims.cols + col) * c.inputDims.channels + channel))
    (weights ((channel * c.kernel + kh) * c.kernel + kw)))
  rw [product, element_eq (hreads.weights _ (index_lt hchannel hkh hkw)), Checked.ok_bind]
  simp only [element_eq (hreads.input _ hpixel), Checked.ok_bind]
  exact if_pos ⟨by omega, by omega⟩

/-- Where the taps fall as they should, the kernel adds up their products, if a kernel of its size has
no sum that is too long. -/
theorem accumulate_ends {fault : Fault → Prop} (hin : c.inputDims.channels = c.channels)
    (hreads : Reads c o input weights kappa lambda) (hchannel : channel < c.channels)
    (hroom : c.kernel * (c.kernel * 32640) < 0x8000000000000000 ∨ fault .addOverflow)
    (hrow : ∀ kh < c.kernel, Ends fault (· = landing c.stride c.inputDims.rows (rowPad c) y kh)
      (position c.stride c.inputDims.rows (rowShift c) y kh))
    (hcol : ∀ kw < c.kernel, Ends fault (· = landing c.stride c.inputDims.cols (colPad c) x kw)
      (position c.stride c.inputDims.cols (colShift c) x kw)) :
    Ends fault (· = tapSum c input weights y x channel) (accumulate c o y x channel) := by
  have htap : ∀ kh, ∀ kw < c.kernel, |tapValue c input weights y x channel kh kw| ≤
      ((32640 : Nat) : Int) := fun kh kw _ => abs_tapValue_le kh kw
  have hrowSum : ∀ kh < c.kernel,
      |∑ kw ∈ range c.kernel, tapValue c input weights y x channel kh kw| ≤
        ((c.kernel * 32640 : Nat) : Int) := fun kh _ => abs_sum_range_le (htap kh)
  unfold accumulate tapSum
  rw [← Int.zero_add (∑ kh ∈ range c.kernel, _)]
  refine foldlM_ends_sum hrowSum (fun acc kh hkh hrowRoom => (hrow kh hkh).bind_eq ?_)
    0 (hroom.imp_left fun hlt => by rw [abs_zero]; omega)
  cases hrowAt : landing c.stride c.inputDims.rows (rowPad c) y kh with
  | none =>
    have hzero : ∀ kw, tapValue c input weights y x channel kh kw = 0 := fun kw => by
      rw [tapValue, hrowAt]
    simp only [hzero, sum_const_zero, Int.add_zero]
    exact rfl
  | some row =>
    refine foldlM_ends_sum (htap kh) (fun acc kw hkw htapRoom => (hcol kw hkw).bind_eq ?_)
      acc hrowRoom
    cases hcolAt : landing c.stride c.inputDims.cols (colPad c) x kw with
    | none =>
      rw [tapValue, hrowAt, hcolAt, Int.add_zero]
      exact rfl
    | some col =>
      have hproduct : product c o channel row col kh kw =
          .ok (tapValue c input weights y x channel kh kw) := by
        rw [product_eq hin hreads hchannel (landing_lt hrowAt) (landing_lt hcolAt) hkh hkw, tapValue,
          hrowAt, hcolAt]
      simp only [hproduct, Checked.ok_bind]
      refine (Signed.add_ends (htapRoom.imp_left fun hlt => ?_)).mono (fun _ => id) fun _ => And.left
      have hacc := abs_lt.mp (show |acc| < 0x8000000000000000 - 32640 by omega)
      have hadd := abs_le.mp (htap kh kw hkw)
      exact ⟨by omega, by omega⟩

theorem accumulate_eq (h : Bounded c) (hreads : Reads c o input weights kappa lambda)
    (hy : y < c.outputDims.rows) (hx : x < c.outputDims.cols) (hchannel : channel < c.channels) :
    accumulate c o y x channel = .ok (tapSum c input weights y x channel) := by
  have hrows := h.outRows
  have hcols := h.outCols
  have hkernel := h.kernel
  have hends : Ends (fun _ => False) (· = tapSum c input weights y x channel)
      (accumulate c o y x channel) := by
    have hroom := Nat.mul_le_mul (Nat.le_of_lt hkernel)
      (Nat.mul_le_mul_right 32640 (Nat.le_of_lt hkernel))
    refine accumulate_ends h.inputChannels hreads hchannel (.inl (by omega)) (fun kh hkh => ?_)
      fun kw hkw => ?_
    · rw [rowShift_eq (Nat.lt_trans (rowPad_lt h) (by decide))]
      exact .of_ok (position_eq h.stride h.rows (rowPad_lt h) (by omega) (by omega)) rfl
    · rw [colShift_eq (Nat.lt_trans (colPad_lt h) (by decide))]
      exact .of_ok (position_eq h.stride h.cols (colPad_lt h) (by omega) (by omega)) rfl
  obtain ⟨acc, hacc, rfl⟩ := hends.ok_of_never fun _ => id
  exact hacc

/-! ## Bounds -/

/-- The products of any taps of a channel. Every partial sum of the kernel is one of some first taps. -/
theorem abs_sum_taps_le {taps : Finset (Nat × Nat)} (htaps : taps ⊆ range c.kernel ×ˢ range c.kernel) :
    |∑ t ∈ taps, tapValue c input weights y x channel t.1 t.2| ≤
      ((c.kernel * c.kernel * 32640 : Nat) : Int) := by
  have hcard : taps.card ≤ c.kernel * c.kernel := by
    refine le_trans (card_le_card htaps) ?_
    rw [card_product, card_range]
  refine le_trans (abs_sum_le_sum_abs _ _) ?_
  refine le_trans (sum_le_card_nsmul _ _ 32640 fun t _ => abs_tapValue_le t.1 t.2) ?_
  rw [nsmul_eq_mul]
  exact_mod_cast Nat.mul_le_mul_right 32640 hcard

/-- The taps of one channel are no more than the weights of all channels. -/
theorem square_le_taps (hchannel : channel < c.channels) :
    c.kernel * c.kernel ≤ c.channels * c.kernel * c.kernel := by
  rw [Nat.mul_assoc]
  exact Nat.le_mul_of_pos_left _ (by omega)

theorem abs_tapSum_le (htaps : c.channels * c.kernel * c.kernel ≤ 0x20000)
    (hchannel : channel < c.channels) : |tapSum c input weights y x channel| ≤ 0x20000 * 32640 := by
  have hsquare := square_le_taps hchannel
  unfold tapSum
  rw [← sum_product' (range c.kernel) (range c.kernel) (tapValue c input weights y x channel)]
  exact le_trans (abs_sum_taps_le (subset_refl _)) (by omega)

/-- The largest sum of `2 ^ 17` products, scaled and shifted by words of 32 bits, is just short of `2 ^ 63`. -/
theorem scaled_inRange {acc : Int} (hacc : |acc| ≤ 0x20000 * 32640) (k l : Int32) :
    Signed.InRange (acc * k.toInt) ∧ Signed.InRange (acc * k.toInt + l.toInt) := by
  have hk : |k.toInt| ≤ 0x80000000 := abs_le.mpr ⟨k.le_toInt, Int.le_of_lt k.toInt_lt⟩
  have hl := l.le_toInt
  have hl' := l.toInt_lt
  have hprod : |acc * k.toInt| ≤ 0x20000 * 32640 * 0x80000000 := by
    rw [abs_mul]
    exact Int.mul_le_mul hacc hk (abs_nonneg _) (by decide)
  obtain ⟨hlo, hhi⟩ := abs_le.mp hprod
  exact ⟨⟨by omega, by omega⟩, by omega, by omega⟩

/-- **What the fixed-point step yields**, and when: no number is too long, and neither is the shift. -/
theorem requantize_eq_ok_iff {acc : Int} {k l : Int32} {shift : Nat} {value : UInt8} :
    requantize acc k l shift = .ok value ↔
      (Signed.InRange (acc * k.toInt) ∧ Signed.InRange (acc * k.toInt + l.toInt) ∧ shift < 64) ∧
        clip ((acc * k.toInt + l.toInt) >>> shift) = value := by
  constructor
  · intro h
    obtain ⟨product, hmul, h⟩ := bind_eq_ok.mp h
    obtain ⟨sum, hadd, h⟩ := bind_eq_ok.mp h
    obtain ⟨hproduct, rfl⟩ := Signed.mul_eq_ok_iff.mp hmul
    obtain ⟨hsum, rfl⟩ := Signed.add_eq_ok_iff.mp hadd
    by_cases hlarge : 64 ≤ shift
    · rw [if_pos hlarge] at h
      cases h
    · rw [if_neg hlarge] at h
      cases h
      exact ⟨⟨hproduct, hsum, Nat.lt_of_not_le hlarge⟩, rfl⟩
  · rintro ⟨⟨hproduct, hsum, hshift⟩, rfl⟩
    rw [requantize, Signed.mul_eq_ok_iff.mpr ⟨hproduct, rfl⟩, Checked.ok_bind,
      Signed.add_eq_ok_iff.mpr ⟨hsum, rfl⟩, Checked.ok_bind, if_neg (Nat.not_le_of_lt hshift)]
    rfl

theorem requantize_eq {acc : Int} (hacc : |acc| ≤ 0x20000 * 32640) (k l : Int32) (shift : Nat) :
    requantize acc k l shift = if 64 ≤ shift then .error .shiftOverflow
      else .ok (clip ((acc * k.toInt + l.toInt) >>> shift)) := by
  obtain ⟨hproduct, hsum⟩ := scaled_inRange hacc k l
  by_cases hshift : 64 ≤ shift
  · rw [requantize, Signed.mul_eq_ok_iff.mpr ⟨hproduct, rfl⟩, Checked.ok_bind,
      Signed.add_eq_ok_iff.mpr ⟨hsum, rfl⟩, Checked.ok_bind, if_pos hshift, if_pos hshift]
    rfl
  · rw [if_neg hshift]
    exact requantize_eq_ok_iff.mpr ⟨⟨hproduct, hsum, Nat.lt_of_not_le hshift⟩, rfl⟩

/-- Where the operands are known, a result needs no more than the sum over the taps. -/
theorem result_eq_bind (h : Sized c) (hreads : Reads c o input weights kappa lambda)
    (hy : y < c.outputDims.rows) (hx : x < c.outputDims.cols) (hchannel : channel < c.channels) :
    result c o y x channel = do
      let acc ← accumulate c o y x channel
      let v ← requantize acc (kappa channel) (lambda channel) c.requant.outShift.toNat
      return ((y * c.outputDims.cols + x) * c.outputDims.channels + channel, v) := by
  have hsize := h.output
  have hindex : (y * c.outputDims.cols + x) * c.outputDims.channels + channel <
      c.outputDims.size := index_lt hy hx (by rw [h.outputChannels]; exact hchannel)
  have hpixel : y * c.outputDims.cols + x ≤
      (y * c.outputDims.cols + x) * c.outputDims.channels :=
    Nat.le_mul_of_pos_right _ (by rw [h.outputChannels]; omega)
  rw [result]
  cases accumulate c o y x channel with
  | error f => rfl
  | ok acc =>
    rw [Checked.ok_bind, Checked.ok_bind, mul_of_lt (by omega), Checked.ok_bind,
      add_of_lt (by omega), Checked.ok_bind, mul_of_lt (by omega), Checked.ok_bind,
      add_of_lt (by omega), Checked.ok_bind, element_eq (hreads.kappa _ hchannel), Checked.ok_bind,
      element_eq (hreads.lambda _ hchannel)]
    rfl

/-- The result at a position of the tile is its value with its place. -/
theorem result_eq (h : Bounded c) (hreads : Reads c o input weights kappa lambda)
    (hy : y < c.outputDims.rows) (hx : x < c.outputDims.cols) (hchannel : channel < c.channels) :
    result c o y x channel = do
      let v ← value c input weights kappa lambda y x channel
      return ((y * c.outputDims.cols + x) * c.outputDims.channels + channel, v) := by
  rw [result_eq_bind h.sized hreads hy hx hchannel, accumulate_eq h hreads hy hx hchannel]
  rfl

theorem value_eq (h : Moderate c) (hchannel : channel < c.channels) :
    value c input weights kappa lambda y x channel =
      if 64 ≤ c.requant.outShift.toNat then .error .shiftOverflow
      else .ok (outcome c input weights kappa lambda y x channel) :=
  requantize_eq (abs_tapSum_le h.taps hchannel) _ _ _

end Results

/-! ## Operands in memory -/

/-- The signed word at an address of the scratchpad. -/
def int32At (img : Image) (addr : Nat) : Int32 :=
  (LittleEndian.word (img ⟨.scratchpad, addr⟩) (img ⟨.scratchpad, addr + 1⟩)
    (img ⟨.scratchpad, addr + 2⟩) (img ⟨.scratchpad, addr + 3⟩)).toInt32

/-- The buffers of a call lie in the address space. -/
structure Placed (c : Call) : Prop where
  input : AccessFits c.input c.inputDims.size
  weights : AccessFits c.weights (c.channels * c.kernel * c.kernel)
  kappa : AccessFits c.kappa (c.channels * 4)
  lambda : AccessFits c.lambda (c.channels * 4)
  output : AccessFits c.output c.outputDims.size

/-- What a kernel has read: the operands that the call names, in buffers that can exist. -/
theorem readOperands_inv {c : Call} {m : Memory} {o : Operands}
    (h : readOperands c (m.bank .scratchpad) = .ok o) :
    c.inputDims.size ≤ maxBuffer ∧ c.channels * 4 ≤ maxBuffer ∧
      Reads c o (fun n => m.image ⟨.scratchpad, c.input + n⟩)
        (fun n => m.image ⟨.scratchpad, c.weights + n⟩)
        (fun n => int32At m.image (c.kappa + 4 * n)) (fun n => int32At m.image (c.lambda + 4 * n)) := by
  obtain ⟨input, weights, kappa, lambda, -, -, -, hreadInput, hreadWeights, hreadKappa, hreadLambda,
    rfl⟩ := readOperands_eq_ok_iff.mp h
  obtain ⟨hsize, -, rfl⟩ := Bank.read_inv hreadInput
  obtain ⟨-, -, rfl⟩ := Bank.read_inv hreadWeights
  obtain ⟨hwords, rfl⟩ := Bank.readInt32s_inv hreadKappa
  obtain ⟨-, rfl⟩ := Bank.readInt32s_inv hreadLambda
  refine ⟨hsize, hwords, fun n hn => ?_, fun n hn => ?_, fun n hn => ?_, fun n hn => ?_⟩
  · rw [Array.getElem?_ofFn, dif_pos hn]
    rfl
  · rw [Array.getElem?_ofFn, dif_pos hn]
    rfl
  · rw [List.getElem?_toArray, List.getElem?_map, List.getElem?_range hn]
    rfl
  · rw [List.getElem?_toArray, List.getElem?_map, List.getElem?_range hn]
    rfl

theorem readOperands_exists {c : Call} (h : Sized c) (hp : Placed c) (m : Memory) :
    ∃ o, readOperands c (m.bank .scratchpad) = .ok o := by
  have hplane := h.weightRow
  have htaps := h.weights
  have hchannels := h.channels
  have hpixels := h.inputPlane
  have hsize := h.input
  have hread : ∀ {addr len : Nat}, AccessFits addr len → len ≤ 0x200000000000000 →
      ∃ bytes, (m.bank .scratchpad).read addr len = .ok bytes := by
    intro addr len hfits hlen
    rw [Bank.read_eq hfits, if_neg (by unfold maxBuffer; omega)]
    exact ⟨_, rfl⟩
  have hwords : ∀ {addr : Nat}, AccessFits addr (c.channels * 4) →
      ∃ words, (m.bank .scratchpad).readInt32s addr c.channels = .ok words :=
    fun hfits => ⟨_, Bank.readInt32s_eq hfits (by unfold maxBuffer; omega)⟩
  obtain ⟨input, hinput⟩ := hread hp.input hsize
  obtain ⟨weights, hweights⟩ := hread hp.weights (by omega)
  obtain ⟨kappa, hkappa⟩ := hwords hp.kappa
  obtain ⟨lambda, hlambda⟩ := hwords hp.lambda
  have hbytes : c.inputDims.bytes = .ok c.inputDims.size :=
    TileDims.bytes_eq_ok_iff.mpr ⟨by unfold wordLimit; omega, by unfold wordLimit; omega, rfl⟩
  exact ⟨_, readOperands_eq_ok_iff.mpr ⟨input, weights, kappa, lambda, hbytes, by unfold wordLimit; omega,
    by unfold wordLimit; omega, hinput, hweights, hkappa, hlambda, rfl⟩⟩

/-! ## The kernel -/

section Kernel

variable {c : Call} {u : Member} {share : Share} {m m' : Memory}

/-- The value at a position, on what the scratchpad holds. -/
def valueIn (c : Call) (img : Image) (y x channel : Nat) : Checked UInt8 :=
  value c (fun n => img ⟨.scratchpad, c.input + n⟩) (fun n => img ⟨.scratchpad, c.weights + n⟩)
    (fun n => int32At img (c.kappa + 4 * n)) (fun n => int32At img (c.lambda + 4 * n)) y x channel

/-- The value as far as no number of it is too long. -/
def outcomeIn (c : Call) (img : Image) (y x channel : Nat) : UInt8 :=
  outcome c (fun n => img ⟨.scratchpad, c.input + n⟩) (fun n => img ⟨.scratchpad, c.weights + n⟩)
    (fun n => int32At img (c.kappa + 4 * n)) (fun n => int32At img (c.lambda + 4 * n)) y x channel

theorem valueIn_eq (h : Moderate c) (img : Image) (y x : Nat) {channel : Nat}
    (hchannel : channel < c.channels) : valueIn c img y x channel =
      if 64 ≤ c.requant.outShift.toNat then .error .shiftOverflow
      else .ok (outcomeIn c img y x channel) :=
  value_eq h hchannel

/-- A result is the value at its position with its place in the packed tile. -/
theorem result_eq_valueIn (h : Bounded c) {o : Operands}
    (hread : readOperands c (m.bank .scratchpad) = .ok o) {y x channel : Nat}
    (hy : y < c.outputDims.rows) (hx : x < c.outputDims.cols) (hchannel : channel < c.channels) :
    result c o y x channel = do
      let v ← valueIn c m.image y x channel
      return ((y * c.outputDims.cols + x) * c.outputDims.channels + channel, v) := by
  obtain ⟨-, -, hreads⟩ := readOperands_inv hread
  exact result_eq h hreads hy hx hchannel

/-- A position of the share has a value that does not exist. -/
def Stops (c : Call) (share : Share) (img : Image) (f : Fault) : Prop :=
  ∃ y x channel, (y, x, channel) ∈ positions c share ∧ valueIn c img y x channel = .error f

/-- **The kernel ends** if every result of its share does, or it stops with a fault of one of them. -/
theorem kernel_ends_of_results {fault : Fault → Prop} (h : Sized c) (hp : Placed c)
    (hshare : u.share c.channels = .ok share) (m : Memory)
    (hresults : ∀ o, readOperands c (m.bank .scratchpad) = .ok o → ∀ y x channel,
      (y, x, channel) ∈ positions c share → Checked.Ends fault (fun _ => True) (result c o y x channel)) :
    Stateful.Ends fault (fun _ m' => m'.readCount = m.readCount) (kernel u c m) := by
  cases hempty : share.isEmpty with
  | true => exact .of_ok (kernel_of_empty hshare hempty m) rfl
  | false =>
    have hstop := Member.share_stop_le hshare
    obtain ⟨o, hread⟩ := readOperands_exists h hp m
    have hsize := h.output
    have hpixels := h.outputPlane
    have hcount : c.outputDims.rows * c.outputDims.cols * (share.stop - share.start) ≤
        c.outputDims.size :=
      Nat.mul_le_mul_left _ (by rw [h.outputChannels]; omega)
    have hall : Checked.Ends fault (fun _ => True) (Depthwise.results c o share) :=
      Checked.mapM_ends fun ⟨y, x, channel⟩ hmem => hresults o hread y x channel hmem
    rw [kernel_of_some hshare hempty, work_eq hread (by unfold wordLimit; omega)
      (by unfold maxBuffer resultBytes; omega)]
    cases hvalues : Depthwise.results c o share with
    | error f =>
      rw [hvalues] at hall
      exact hall
    | ok values =>
      have hroom : ∀ v ∈ values, c.output + v.1 + 1 < wordLimit := by
        intro v hv
        obtain ⟨y, x, channel, hmem, hresult⟩ := (mem_results hvalues).mp hv
        have hlt := offset_lt h.outputChannels hstop hmem
        rw [← result_offset hresult] at hlt
        rcases hp.output with hzero | hfits
        · omega
        · omega
      obtain ⟨m', hstore⟩ := store_exists hroom m
      rw [Stateful.bind_of_ok (Stateful.lift_ok _ _)]
      exact .of_ok hstore (readCount_store hstore)

/-- The kernel ends, or it stops where a value of its share does. -/
theorem kernel_ends (h : Bounded c) (hp : Placed c) (hshare : u.share c.channels = .ok share)
    (m : Memory) : Stateful.Ends (Stops c share m.image) (fun _ m' => m'.readCount = m.readCount)
      (kernel u c m) := by
  have hstop := Member.share_stop_le hshare
  refine kernel_ends_of_results h.sized hp hshare m fun o hread y x channel hmem => ?_
  obtain ⟨hy, hx, hlo, hhi⟩ := mem_positions.mp hmem
  rw [result_eq_valueIn h hread hy hx (by omega)]
  cases hvalue : valueIn c m.image y x channel with
  | ok v => exact trivial
  | error f => exact ⟨y, x, channel, hmem, hvalue⟩

/-- A unit that has a result to compute cannot shift by the width of a word or more. -/
theorem shift_lt_of_kernel (hshare : u.share c.channels = .ok share)
    (hsome : share.start < share.stop) (hrows : 0 < c.outputDims.rows)
    (hcols : 0 < c.outputDims.cols) (hrun : kernel u c m = .ok () m') :
    c.requant.outShift.toNat < 64 := by
  obtain ⟨share', hshare', hrun⟩ := kernel_inv hrun
  rw [hshare] at hshare'
  cases hshare'
  rcases hrun with ⟨hempty, -⟩ | ⟨-, operands, values, -, hvalues, -⟩
  · simp only [Share.isEmpty, decide_eq_true_eq] at hempty
    omega
  · have hmem : (0, 0, share.start) ∈ positions c share :=
      mem_positions.mpr ⟨hrows, hcols, Nat.le_refl _, by omega⟩
    obtain ⟨v, hresult⟩ := result_of_results hvalues hmem
    obtain ⟨acc, k, l, -, -, -, hvalue, -⟩ := result_inv hresult
    exact (requantize_eq_ok_iff.mp hvalue).1.2.2

/-- **What the kernel leaves in its output tile**: at the channels of the unit what is known of its results,
and what was there before at all others. -/
theorem kernel_at_of_results {R : Nat → Nat → Nat → UInt8 → Prop}
    (houtput : c.outputDims.channels = c.channels) (hshare : u.share c.channels = .ok share)
    (hrun : kernel u c m = .ok () m')
    (hresults : ∀ o, readOperands c (m.bank .scratchpad) = .ok o → ∀ y x channel,
      (y, x, channel) ∈ positions c share → ∀ v, result c o y x channel = .ok v → R y x channel v.2)
    {y x channel : Nat} (hy : y < c.outputDims.rows) (hx : x < c.outputDims.cols)
    (hchannel : channel < c.channels) :
    let e : Endpoint :=
      ⟨.scratchpad, c.output + ((y * c.outputDims.cols + x) * c.outputDims.channels + channel)⟩
    (share.start ≤ channel ∧ channel < share.stop → R y x channel (m'.image e)) ∧
      (¬ (share.start ≤ channel ∧ channel < share.stop) → m'.image e = m.image e) := by
  intro e
  obtain ⟨share', hshare', hrun⟩ := kernel_inv hrun
  rw [hshare] at hshare'
  cases hshare'
  have hstop := Member.share_stop_le hshare
  rcases hrun with ⟨hempty, rfl⟩ | ⟨-, o, values, hread, hvalues, hstore⟩
  · simp only [Share.isEmpty, decide_eq_true_eq] at hempty
    exact ⟨fun hmine => by omega, fun _ => rfl⟩
  · -- a result that is written here belongs to this very position
    have hhit : ∀ v ∈ values, (⟨.scratchpad, c.output + v.1⟩ : Endpoint) = e →
        (share.start ≤ channel ∧ channel < share.stop) ∧ R y x channel v.2 := by
      intro v hv heq
      obtain ⟨y', x', channel', hmem, hresult⟩ := (mem_results hvalues).mp hv
      obtain ⟨hy', hx', hlo, hhi⟩ := mem_positions.mp hmem
      have hknown := hresults o hread y' x' channel' hmem v hresult
      have hindex := Nat.add_left_cancel (congrArg Endpoint.addr heq)
      rw [result_offset hresult] at hindex
      obtain ⟨rfl, rfl, rfl⟩ := index_inj hx' (by rw [houtput]; omega) hx
        (by rw [houtput]; exact hchannel) hindex
      exact ⟨⟨hlo, by omega⟩, hknown⟩
    refine ⟨fun hmine => ?_, fun hother => ?_⟩
    · have hmem : (y, x, channel) ∈ positions c share :=
        mem_positions.mpr ⟨hy, hx, hmine.1, by omega⟩
      obtain ⟨v, hresult⟩ := result_of_results hvalues hmem
      refine store_settles (R := R y x channel) hstore
        (.inr ⟨v, (mem_results hvalues).mpr ⟨y, x, channel, hmem, hresult⟩, ?_⟩)
        fun v hv heq => (hhit v hv heq).2
      rw [result_offset hresult]
    · exact store_missed hstore fun v hv heq => hother (hhit v hv heq).1

/-- What is known of every result of a share is known of the bytes that the kernel leaves there. -/
theorem kernel_leaves_of_results {fault : Fault → Prop} {R : Nat → Nat → Nat → UInt8 → Prop}
    (h : Sized c) (hp : Placed c) (hshare : u.share c.channels = .ok share) (m : Memory)
    (hresults : ∀ o, readOperands c (m.bank .scratchpad) = .ok o → ∀ y x channel,
      (y, x, channel) ∈ positions c share →
        Checked.Ends fault (fun v => R y x channel v.2) (result c o y x channel)) :
    Stateful.Ends fault (fun _ m' => ∀ y < c.outputDims.rows, ∀ x < c.outputDims.cols, ∀ channel,
      share.start ≤ channel → channel < share.stop → R y x channel (m'.image ⟨.scratchpad,
        c.output + ((y * c.outputDims.cols + x) * c.outputDims.channels + channel)⟩)) (kernel u c m) := by
  have hstop := Member.share_stop_le hshare
  have hends := kernel_ends_of_results h hp hshare m fun o hread y x channel hmem =>
    (hresults o hread y x channel hmem).mono (fun _ => id) fun _ _ => trivial
  cases hrun : kernel u c m with
  | error f m' =>
    rw [hrun] at hends
    exact hends
  | ok _ m' =>
    intro y hy x hx channel hlo hhi
    exact (kernel_at_of_results h.outputChannels hshare hrun (fun o hread y x channel hmem v hv =>
      (hresults o hread y x channel hmem).of_eq_ok hv) hy hx (by omega)).1 ⟨hlo, hhi⟩

/-- The kernel leaves values at the channels of the unit. -/
theorem kernel_at (h : Bounded c) (hshare : u.share c.channels = .ok share)
    (hrun : kernel u c m = .ok () m') {y x channel : Nat} (hy : y < c.outputDims.rows)
    (hx : x < c.outputDims.cols) (hchannel : channel < c.channels) :
    let e : Endpoint :=
      ⟨.scratchpad, c.output + ((y * c.outputDims.cols + x) * c.outputDims.channels + channel)⟩
    (share.start ≤ channel ∧ channel < share.stop →
        valueIn c m.image y x channel = .ok (m'.image e)) ∧
      (¬ (share.start ≤ channel ∧ channel < share.stop) → m'.image e = m.image e) := by
  have hstop := Member.share_stop_le hshare
  refine kernel_at_of_results (R := fun y x channel b => valueIn c m.image y x channel = .ok b)
    h.outputChannels hshare hrun (fun o hread y x channel hmem v hresult => ?_) hy hx hchannel
  obtain ⟨hy, hx, hlo, hhi⟩ := mem_positions.mp hmem
  rw [result_eq_valueIn h hread hy hx (by omega)] at hresult
  obtain ⟨value, hvalue, hplace⟩ := Checked.bind_eq_ok.mp hresult
  cases hplace
  exact hvalue

end Kernel

end TileStream.Depthwise
