import TileStream.Proofs.Run.Calls

/-! # The fixed-point arithmetic is exact

A scratchpad of 256 KiB holds two slots of weights, so a channel has at most `2 ^ 17`
of them. A product of a byte and a signed byte is at most `32640` in size, so the
products of any taps sum to less than `2 ^ 32` and, scaled by a 32-bit multiplier and
shifted by a 32-bit bias, stay below `2 ^ 63`: by less than half a percent.
Hence the kernel loses nothing: whatever the scratchpad holds, a byte that it writes is
the exact value, rounded down and clipped (`fixed_point_is_exact`). -/
namespace TileStream

open Unsigned Checked TileStream.Geometry Depthwise Finset

/-! ## Positions -/

/-- Where a padded extent is no displacement, a difference of positions may overflow. -/
def Geometry.Overlong (g : Geometry) (f : Fault) : Prop :=
  f = .subOverflow ∧ (0x8000000000000000 ≤ g.rows.reach ∨ 0x8000000000000000 ≤ g.cols.reach)

/-- Along an axis of any size a tap falls where it should. -/
theorem Axis.tap_ends {fault : Fault → Prop} {a : Axis} {block i y t pad : Nat} (h : a.Tiled block)
    (hword : a.reach < wordLimit) (hi : i < blocks a.outs block) (hy : y < a.outLen block i)
    (ht : t < a.kernel) (hpad : pad ≤ a.padBefore) (hlen : a.inLen block i < 0x8000000000000000)
    (hfault : a.reach < 0x8000000000000000 ∨ fault .subOverflow) :
    Ends fault (· = landing a.stride (a.inLen block i) pad y t)
      (position a.stride (a.inLen block i) (signed pad) y t) := by
  have hreach := last_reach h.kernel_le
    (show y < a.outs from Nat.lt_of_lt_of_le hy (Nat.le_trans (a.outLen_le block i) h.block_le))
  have hwindow := inLen_le_window h hi
  have hextent : a.window block ≤ a.extent := Nat.min_le_right _ _
  -- what is subtracted from is at most the padded extent: only as a displacement can it be too long
  have hpadded : a.padBefore + a.extent ≤ a.reach := by
    unfold reach
    omega
  unfold wordLimit at hword
  exact position_ends hlen (by unfold wordLimit; omega) (.inl (by unfold wordLimit; omega))
    (hfault.imp_left fun hlt => ⟨by omega, by omega⟩)

/-! ## The step from sum to byte -/

namespace Depthwise

/-- A shifted and clipped number, read as an integer. -/
theorem toNat_clip_shift (z : Int) (n : Nat) :
    ((clip (z >>> n)).toNat : Int) = min 255 (max 0 (z.fdiv (2 ^ n))) := by
  have hfloor : z >>> n = z.fdiv (2 ^ n) := by
    rw [Int.shiftRight_eq_div_pow, Int.fdiv_eq_ediv_of_nonneg _ (pow_nonneg (by decide) n)]
    push_cast
    rfl
  rw [hfloor, clip]
  generalize z.fdiv (2 ^ n) = q
  rw [UInt8.toNat_ofNat_of_lt' (show (min 255 (max 0 q)).toNat < 256 by omega)]
  omega

variable {c : Call} {img : Image} {y x channel : Nat}

/-- The product of one tap, on what the scratchpad holds. -/
def tapIn (c : Call) (img : Image) (y x channel kh kw : Nat) : Int :=
  tapValue c (fun n => img ⟨.scratchpad, c.input + n⟩) (fun n => img ⟨.scratchpad, c.weights + n⟩)
    y x channel kh kw

/-- The sum over the taps, on what the scratchpad holds. -/
def sumIn (c : Call) (img : Image) (y x channel : Nat) : Int :=
  ∑ kh ∈ range c.kernel, ∑ kw ∈ range c.kernel, tapIn c img y x channel kh kw

/-- The multiplier of a channel, on what the scratchpad holds. -/
def kappaIn (c : Call) (img : Image) (channel : Nat) : Int32 := int32At img (c.kappa + 4 * channel)

def lambdaIn (c : Call) (img : Image) (channel : Nat) : Int32 := int32At img (c.lambda + 4 * channel)

/-- The exact value of an output byte: the sum over the taps, scaled and shifted, rounded down to a whole number
and clipped. -/
def exactIn (c : Call) (img : Image) (y x channel : Nat) : Int :=
  min 255 (max 0 (Int.fdiv (sumIn c img y x channel * (kappaIn c img channel).toInt +
    (lambdaIn c img channel).toInt) (2 ^ c.requant.outShift.toNat)))

/-- No number on the way to an output byte is longer than a signed word. -/
structure Contained (c : Call) (img : Image) (y x channel : Nat) : Prop where
  /-- Any taps may have been added, in any order. -/
  partials : ∀ taps ⊆ range c.kernel ×ˢ range c.kernel,
    Signed.InRange (∑ t ∈ taps, tapIn c img y x channel t.1 t.2)
  product : Signed.InRange (sumIn c img y x channel * (kappaIn c img channel).toInt)
  shifted : Signed.InRange (sumIn c img y x channel * (kappaIn c img channel).toInt +
    (lambdaIn c img channel).toInt)

/-- The products of at most `2 ^ 17` taps are contained, whatever the bytes and words are. -/
theorem contained (htaps : c.channels * c.kernel * c.kernel ≤ 0x20000) (hchannel : channel < c.channels)
    (img : Image) (y x : Nat) : Contained c img y x channel := by
  have hsquare := square_le_taps hchannel
  have hsum : |sumIn c img y x channel| ≤ 0x20000 * 32640 := abs_tapSum_le htaps hchannel
  obtain ⟨hproduct, hshifted⟩ :=
    scaled_inRange hsum (kappaIn c img channel) (lambdaIn c img channel)
  refine ⟨fun taps hsub => ?_, hproduct, hshifted⟩
  -- the bound is on the sum of the sizes, so leaving out taps cannot break it
  have hpartial : |∑ t ∈ taps, tapIn c img y x channel t.1 t.2| ≤ 0x20000 * 32640 :=
    le_trans (abs_sum_taps_le hsub) (by omega)
  obtain ⟨hlo, hhi⟩ := abs_le.mp hpartial
  exact ⟨by omega, by omega⟩

/-- What a unit does for a call, exactly: its numbers are contained, it adds up all taps of a position, and
it leaves the exact value at each position of its share, or it stops at a fault that `stops` allows. -/
structure Exact (c : Call) (stops : Fault → Prop) (m : Memory) : Prop where
  contained : ∀ y x, ∀ channel < c.channels, Contained c m.image y x channel
  reads : ∃ o, readOperands c (m.bank .scratchpad) = .ok o ∧ ∀ y < c.outputDims.rows,
    ∀ x < c.outputDims.cols, ∀ channel < c.channels,
      Ends stops (· = sumIn c m.image y x channel) (accumulate c o y x channel)
  leaves : ∀ u share, u.share c.channels = .ok share → Stateful.Ends stops (fun _ m' =>
    ∀ y < c.outputDims.rows, ∀ x < c.outputDims.cols, ∀ channel, share.start ≤ channel →
      channel < share.stop → ((m'.image ⟨.scratchpad, c.output +
        ((y * c.outputDims.cols + x) * c.outputDims.channels + channel)⟩).toNat : Int) =
          exactIn c m.image y x channel) (kernel u c m)

end Depthwise

namespace Job

variable {j : Job} {i : Iteration} {call : Call}

/-- The taps of a call fall where they should, and no sum of them is too long. -/
theorem Calls.accumulate_ends (hcall : j.Calls i call) (h : j.Admitted)
    (hcapacity : j.params.localBase.toNat + j.scratch.total ≤ 0x40000)
    (hi : i.exec ∈ j.geometry.tileGrid.tiles) {m : Memory} {o : Operands}
    (hread : readOperands call (m.bank .scratchpad) = .ok o) {y x channel : Nat}
    (hy : y < call.outputDims.rows) (hx : x < call.outputDims.cols) (hchannel : channel < call.channels) :
    Ends j.geometry.Overlong (· = sumIn call m.image y x channel) (accumulate call o y x channel) := by
  obtain ⟨-, -, hr, hq⟩ := Grid.lt_of_mem_tiles hi
  obtain ⟨-, -, hreads⟩ := readOperands_inv hread
  have hfilled := hcall.filled h hi
  have hinput : _ + j.scratch.input.slotSize ≤ 0x40000 := h.slot_stop_le hcapacity .input .a
  have hweights := h.weights_le
  have hsquare := square_le_taps hchannel
  have htaps := hfilled.weights
  have hinputRows := hfilled.inputRows
  have hinputCols := hfilled.inputCols
  rw [hcall.outputDims] at hy hx
  rw [hcall.inputDims] at hinputRows hinputCols
  refine Depthwise.accumulate_ends (hcall.sized h hcapacity hi).inputChannels hreads hchannel
    (.inl (by rw [← Nat.mul_assoc]; omega)) (fun kh hkh => ?_) fun kw hkw => ?_
  · rw [hcall.kernel] at hkh
    have hpad := rowPad_le call
    rw [hcall.padding] at hpad
    rw [rowShift_eq_signed, hcall.inputDims, hcall.stride]
    refine Axis.tap_ends h.tiled.rows h.checks.rows.word hr hy hkh hpad
      (Nat.lt_of_le_of_lt hinputRows (by omega)) ?_
    exact (Nat.lt_or_ge _ _).imp_right fun hlong => ⟨rfl, .inl hlong⟩
  · rw [hcall.kernel] at hkw
    have hpad := colPad_le call
    rw [hcall.padding] at hpad
    rw [colShift_eq_signed, hcall.inputDims, hcall.stride]
    refine Axis.tap_ends h.tiled.cols h.checks.cols.word hq hx hkw hpad
      (Nat.lt_of_le_of_lt hinputCols (by omega)) ?_
    exact (Nat.lt_or_ge _ _).imp_right fun hlong => ⟨rfl, .inr hlong⟩

/-- A channel of a call has at most `2 ^ 17` taps. -/
theorem Calls.taps_le (hcall : j.Calls i call) (h : j.Admitted)
    (hcapacity : j.params.localBase.toNat + j.scratch.total ≤ 0x40000)
    (hi : i.exec ∈ j.geometry.tileGrid.tiles) :
    call.channels * call.kernel * call.kernel ≤ 0x20000 := by
  have hweights := h.weights_le
  have hfilled := (hcall.filled h hi).weights
  omega

/-- A result of a call is the outcome at its position. -/
theorem Calls.result_ends (hcall : j.Calls i call) (h : j.Admitted)
    (hcapacity : j.params.localBase.toNat + j.scratch.total ≤ 0x40000)
    (hshift : j.params.outShift.toNat < 64) (hi : i.exec ∈ j.geometry.tileGrid.tiles) {m : Memory}
    {o : Operands} (hread : readOperands call (m.bank .scratchpad) = .ok o) {y x channel : Nat}
    (hy : y < call.outputDims.rows) (hx : x < call.outputDims.cols) (hchannel : channel < call.channels) :
    Ends j.geometry.Overlong (fun v => v.2 = outcomeIn call m.image y x channel)
      (result call o y x channel) := by
  obtain ⟨-, -, hreads⟩ := readOperands_inv hread
  have hsum : |sumIn call m.image y x channel| ≤ 0x20000 * 32640 :=
    abs_tapSum_le (hcall.taps_le h hcapacity hi) hchannel
  rw [result_eq_bind (hcall.sized h hcapacity hi) hreads hy hx hchannel]
  refine (hcall.accumulate_ends h hcapacity hi hread hy hx hchannel).bind_eq ?_
  rw [requantize_eq hsum, if_neg (Nat.not_le_of_lt (hcall.requant ▸ hshift))]
  exact rfl

/-- **The calls of an accepted layer are exact.** -/
theorem Calls.exact (hcall : j.Calls i call) (h : j.Admitted)
    (hcapacity : j.params.localBase.toNat + j.scratch.total ≤ 0x40000)
    (hshift : j.params.outShift.toNat < 64) (hi : i.exec ∈ j.geometry.tileGrid.tiles) (m : Memory) :
    Exact call j.geometry.Overlong m where
  contained y x _ hchannel := Depthwise.contained (hcall.taps_le h hcapacity hi) hchannel m.image y x
  reads := by
    obtain ⟨o, hread⟩ :=
      readOperands_exists (hcall.sized h hcapacity hi) (hcall.placed h hcapacity hi) m
    exact ⟨o, hread, fun y hy x hx channel hchannel =>
      hcall.accumulate_ends h hcapacity hi hread hy hx hchannel⟩
  leaves u share hshare := by
    have hstop := Member.share_stop_le hshare
    refine kernel_leaves_of_results
      (R := fun y x channel b => (b.toNat : Int) = exactIn call m.image y x channel)
      (hcall.sized h hcapacity hi) (hcall.placed h hcapacity hi) hshare m
      fun o hread y x channel hmem => ?_
    obtain ⟨hy, hx, hlo, hhi⟩ := mem_positions.mp hmem
    refine (hcall.result_ends h hcapacity hshift hi hread hy hx (by omega)).mono (fun _ => id) ?_
    rintro ⟨_, b⟩ rfl
    exact toNat_clip_shift _ _

end Job

/-- **The capacity makes the fixed-point arithmetic exact.** For every layer that is accepted from words for
a scratchpad of at most 256 KiB, however large its tensors are, the shift is less than 32 and two slots have
room for the weights of a block. Every tile has its call, unless a size of the layer is too large for a word.
Whatever the scratchpad then holds, no number of the kernel leaves its word, and each unit leaves exact
values; a padded extent of `2 ^ 63` or more can make it stop at a difference of positions, and nothing else
can. -/
theorem fixed_point_is_exact {g : Geometry} {words : List UInt32} {settings : Settings} {j : Job}
    (h : (Job.ofWords g words settings).run = .ok (.ok j)) (hcapacity : settings.localCapacity ≤ 0x40000)
    {grid : Grid} (hgrid : g.grid = .ok grid) {i : Iteration} (hi : i.exec ∈ grid.tiles) :
    j.params.outShift.toNat < 32 ∧
    2 * (g.block.channels * g.kernel * g.kernel) ≤ settings.localCapacity ∧
    Ends g.Overgrown (fun call => ∀ m, Exact call g.Overlong m) (j.call i) := by
  obtain ⟨hadmitted, rfl, hwords, -, rfl⟩ := Job.made_of_ofWords h
  have hshift := Job.shift_of_ofWords hwords
  cases hgrid.symm.trans hadmitted.checks.grid_eq
  have hwithin := hadmitted.within
  have hweights := hadmitted.weights_le
  have hblock := hadmitted.scratch.weights_size
  refine ⟨hshift, by omega, ?_⟩
  refine (hadmitted.call_ends j.geometry.handy_or_overflows (by unfold wordLimit; omega) hi).mono
    (fun _ => id) fun call hcall m => ?_
  exact hcall.exact hadmitted (by omega) (by omega) hi m

/-- The iteration that computes the last tile of the small layer. -/
def lastSmallTile : Iteration where
  index := 7
  exec := .ofBlock 1 1 1
  load := none
  slots := (Slots.mk .b .b .b).plan
  reloadsWeights := false
  boundary := ⟨false, true, false, true⟩

/-- The last tile of the small layer, on every scratchpad: nothing stops its kernel. -/
theorem fixed_point_is_exact_small :
    (Job.ofWords smallLayer smallWords smallSettings).run = .ok (.ok smallJob) ∧
    smallSettings.localCapacity ≤ 0x40000 ∧ lastSmallTile.exec ∈ smallLayer.tileGrid.tiles ∧
    (∀ f, ¬ smallLayer.Overlong f) ∧
    ∃ call, smallJob.call lastSmallTile = .ok call ∧ ∀ m, Exact call smallLayer.Overlong m := by
  have htile : lastSmallTile.exec ∈ smallLayer.tileGrid.tiles := by decide
  obtain ⟨-, -, hcalls⟩ := fixed_point_is_exact smallJob_accepted (by decide)
    (show smallLayer.grid = .ok smallLayer.tileGrid from rfl) htile
  have hhandy := smallJob_promised.small.handy (show smallLayer.workspaceBytes < _ by decide)
  exact ⟨smallJob_accepted, by decide, htile, fun f hf => absurd hf.2 (by decide),
    hcalls.ok_of_never fun _ hf => hf.1 hhandy⟩

end TileStream
