import TileStream.Proofs.Layer.AxisWindows
import TileStream.Run.Job

/-! # Accepting a layer

Validation refuses a geometry, accepts it, or stops at an axis whose padded
extent is longer than a word (`validate_fault_iff`). What comes after it are sums
and products of accepted sizes. `Geometry.Handy` bounds the volume of the padded
tensor; below this bound none of them overflows, and above it nothing but an
overflow can stop the acceptance of a layer (`create_ends`). -/
namespace TileStream

open Unsigned

/-! ## One axis -/

namespace Axis

variable {a : Axis} {block : Nat} {name : AxisName} {fault : Fault → Prop}

/-- What validation leaves of an axis of any size. -/
structure Checks (a : Axis) (block : Nat) : Prop where
  word : a.reach < wordLimit
  kernel_pos : 0 < a.kernel
  stride_pos : 0 < a.stride
  block_pos : 0 < block
  kernel_le : a.kernel ≤ a.reach
  block_le : block ≤ a.outs

/-- What validation has found wrong with an axis when it refuses it with an error. -/
inductive Refuses (a : Axis) (name : AxisName) (block : Nat) : GeometryError → Prop
  | kernel (h : a.reach < a.kernel) : Refuses a name block (.kernelTooLarge name a.kernel a.reach)
  | block (h : a.outs < block) : Refuses a name block (.blockExceedsDimension name block a.outs)
  | before (hchecks : a.Checks block) (hmany : 1 < blocks a.outs block)
      (h : block * a.stride < a.padBefore) :
      Refuses a name block (.paddingSpansTiles name a.padBefore block a.stride)
  | after (hchecks : a.Checks block) (hmany : 1 < blocks a.outs block)
      (hbefore : a.padBefore ≤ block * a.stride) (h : a.stride < a.padAfter) :
      Refuses a name block (.paddingSpansTiles name a.padAfter block a.stride)

/-- A padded extent that is longer than a word overflows in one of its two sums. -/
theorem padded_of_long (h : wordLimit ≤ a.reach) : a.padded = .error .addOverflow := by
  unfold reach at h
  unfold padded
  by_cases hfirst : a.extent + a.padBefore < wordLimit
  · rw [add_of_lt hfirst, Checked.ok_bind]
    exact if_neg (by omega)
  · rw [add, if_neg hfirst]
    rfl

/-- **How validation of an axis ends**: it stops only when the padded extent is longer than a word, and
each refusal names what is wrong. -/
theorem validate_ends (hkernel : 0 < a.kernel) (hstride : 0 < a.stride) (hblock : 0 < block)
    (h : a.reach < wordLimit ∨ fault .addOverflow) :
    Refusal.Ends fault (a.Refuses name block) (fun _ => a.Checks block) (a.validate name block) := by
  unfold validate
  rcases Nat.lt_or_ge a.reach wordLimit with hword | hlong
  · rw [padded_of_word hword]
    show Refusal.Ends fault _ _ (if a.reach < a.kernel then _ else _)
    split
    · rename_i hlarge
      exact Refuses.kernel hlarge
    rename_i hfits
    have hfits := Nat.le_of_not_lt hfits
    rw [outputExtent_of_word hword hkernel hfits hstride]
    show Refusal.Ends fault _ _ (if a.outs < block then _ else _)
    split
    · rename_i hlarge
      exact Refuses.block hlarge
    rename_i hle
    have hchecks : a.Checks block := ⟨hword, hkernel, hstride, hblock, hfits, Nat.le_of_not_lt hle⟩
    rw [ceilDiv_of_pos hblock]
    show Refusal.Ends fault _ _ (if 1 < blocks a.outs block then _ else _)
    split
    · rename_i hmany
      -- the second block begins within the output
      have hsecond : 1 * block < a.outs := (lt_blocks_iff hblock).mp hmany
      have hspan := last_reach hfits (show block < a.outs by omega)
      rw [mul_of_lt (show block * a.stride < wordLimit by omega)]
      show Refusal.Ends fault _ _ (if block * a.stride < a.padBefore then _ else _)
      split
      · rename_i hbefore
        exact Refuses.before hchecks hmany hbefore
      · rename_i hbefore
        show Refusal.Ends fault _ _ (if a.stride < a.padAfter then _ else _)
        split
        · rename_i hafter
          exact Refuses.after hchecks hmany (Nat.le_of_not_lt hbefore) hafter
        · exact hchecks
    · exact hchecks
  · rw [padded_of_long hlong]
    exact h.resolve_left (Nat.not_lt_of_le hlong)

theorem validate_fault_iff (hkernel : 0 < a.kernel) (hstride : 0 < a.stride) (hblock : 0 < block)
    {f : Fault} :
    (a.validate name block).run = .error f ↔ f = .addOverflow ∧ wordLimit ≤ a.reach := by
  constructor
  · intro h
    have hends : Refusal.Ends (fun f => f = .addOverflow ∧ wordLimit ≤ a.reach)
        (a.Refuses name block) (fun _ => a.Checks block) (a.validate name block) :=
      validate_ends hkernel hstride hblock ((Nat.lt_or_ge a.reach wordLimit).imp_right fun hlong =>
        ⟨rfl, hlong⟩)
    unfold Refusal.Ends at hends
    rw [h] at hends
    exact hends
  · rintro ⟨rfl, hlong⟩
    unfold validate
    rw [padded_of_long hlong]
    rfl

/-- The largest window of an accepted axis is found without overflow. -/
theorem maxWindow_of_checks (h : a.Checks block) :
    ∃ n ≤ a.reach, a.maxWindow block = .ok n := by
  have hpos := h.block_pos
  have hle := h.block_le
  have hword := h.word
  have hlast := last_reach h.kernel_le (show block - 1 < a.outs by omega)
  unfold wordLimit at hword
  refine ⟨min ((block - 1) * a.stride + a.kernel) a.extent, Nat.le_trans (Nat.min_le_left _ _) hlast,
    ?_⟩
  rw [maxWindow, mul_of_lt (by omega), Checked.ok_bind, add_of_lt (by omega)]
  rfl

end Axis

/-! ## The geometry -/

namespace Geometry

variable {g : Geometry} {fault : Fault → Prop}

/-- What validation leaves of a geometry of any size. -/
structure Checks (g : Geometry) : Prop where
  rows : g.rows.Checks g.block.height
  cols : g.cols.Checks g.block.width
  block_pos : 0 < g.block.channels
  block_le : g.block.channels ≤ g.input.channels
  bits : g.elementBits = 8

/-- What validation has found wrong with a geometry when it refuses it with an error. -/
inductive Refuses (g : Geometry) : GeometryError → Prop
  | zero {size : SizeName} (h : (size, 0) ∈ g.sizes) : Refuses g (.zero size)
  | bits (h : g.elementBits ≠ 8) : Refuses g (.unsupportedElementBits g.elementBits)
  | rows {e : GeometryError} (h : g.rows.Refuses .height g.block.height e) : Refuses g e
  | cols {e : GeometryError} (h : g.cols.Refuses .width g.block.width e) : Refuses g e
  | channels (h : g.input.channels < g.block.channels) :
      Refuses g (.blockExceedsDimension .channel g.block.channels g.input.channels)

/-- The number of elements of the padded input tensor. -/
def volume (g : Geometry) : Nat := g.input.channels * (g.rows.reach * g.cols.reach)

/-- A geometry whose sizes are far below the limits of a word. -/
structure Handy (g : Geometry) : Prop where
  volume : g.volume < 0x400000000000000
  workspace : g.workspaceBytes < 0x4000000000000000

/-- No size is zero. -/
def Positive (g : Geometry) : Prop := ∀ p ∈ g.sizes, 0 < p.2

theorem positive_iff : g.Positive ↔ 0 < g.input.channels ∧ 0 < g.input.height ∧
    0 < g.input.width ∧ 0 < g.kernel ∧ 0 < g.stride ∧ 0 < g.block.channels ∧ 0 < g.block.height ∧
    0 < g.block.width := by
  simp only [Positive, sizes, List.mem_cons, List.not_mem_nil, or_false, forall_eq_or_imp, forall_eq]

theorem positive_of_find_none (h : g.sizes.find? (·.2 == 0) = none) : g.Positive := by
  intro p hp
  have hne := List.find?_eq_none.mp h p hp
  simpa [Nat.pos_iff_ne_zero] using hne

theorem not_positive_of_find_some {size : SizeName × Nat}
    (h : g.sizes.find? (·.2 == 0) = some size) : ¬ g.Positive := by
  intro hpos
  have hzero := List.find?_some h
  have := hpos size (List.mem_of_find?_eq_some h)
  simp only [beq_iff_eq] at hzero
  omega

/-- A size that is found to be zero is one of the sizes of the geometry. -/
theorem zero_mem_of_find_some {size : SizeName × Nat} (h : g.sizes.find? (·.2 == 0) = some size) :
    (size.1, 0) ∈ g.sizes := by
  have hzero : size.2 = 0 := by simpa using List.find?_some h
  rw [← hzero]
  exact List.mem_of_find?_eq_some h

theorem validate_ends (h : (g.Positive → g.rows.reach < wordLimit ∧ g.cols.reach < wordLimit) ∨
    fault .addOverflow) :
    Refusal.Ends fault g.Refuses (fun _ => g.Checks) g.validate := by
  unfold validate
  cases hfind : g.sizes.find? (·.2 == 0) with
  | some size => exact Refuses.zero (zero_mem_of_find_some hfind)
  | none =>
    have hpositive := positive_of_find_none hfind
    obtain ⟨-, -, -, hkernel, hstride, hblock, hheight, hwidth⟩ := positive_iff.mp hpositive
    replace h := h.imp_left fun hwords => hwords hpositive
    show Refusal.Ends fault _ _ (if g.elementBits ≠ 8 then _ else _)
    split
    · rename_i hbits
      exact Refuses.bits hbits
    rename_i hbits
    have hrows : Refusal.Ends fault _ _ (g.rows.validate .height g.block.height) :=
      Axis.validate_ends hkernel hstride hheight (h.imp_left (·.1))
    have hcols : Refusal.Ends fault _ _ (g.cols.validate .width g.block.width) :=
      Axis.validate_ends hkernel hstride hwidth (h.imp_left (·.2))
    refine (hrows.mono_refused fun _ => Refuses.rows).bind fun _ hrows => ?_
    refine (hcols.mono_refused fun _ => Refuses.cols).bind fun _ hcols => ?_
    split
    · rename_i hlarge
      exact Refuses.channels hlarge
    · exact ⟨hrows, hcols, hblock, by omega, by simpa using hbits⟩

theorem checks_of_validate (h : g.validate.run = .ok (.ok ())) : g.Checks := by
  have hends : Refusal.Ends (fun _ => True) g.Refuses (fun _ => g.Checks) g.validate :=
    validate_ends (.inr trivial)
  exact hends.of_eq_ok h

/-- A geometry is refused for what is wrong with it. -/
theorem refuses_of_validate {e : GeometryError} (h : g.validate.run = .ok (.error e)) :
    g.Refuses e := by
  have hends : Refusal.Ends (fun _ => True) g.Refuses (fun _ => g.Checks) g.validate :=
    validate_ends (.inr trivial)
  exact hends.of_eq_refused h

/-- **Where validation stops**: at the first axis whose padded extent is longer than a word. -/
theorem validate_fault_iff {f : Fault} : g.validate.run = .error f ↔
    f = .addOverflow ∧ g.Positive ∧ g.elementBits = 8 ∧ (wordLimit ≤ g.rows.reach ∨
      (g.rows.validate .height g.block.height).run = .ok (.ok ()) ∧ wordLimit ≤ g.cols.reach) := by
  unfold validate
  cases hfind : g.sizes.find? (·.2 == 0) with
  | some size =>
    have hnot := not_positive_of_find_some hfind
    refine iff_of_false (fun h => ?_) fun h => hnot h.2.1
    cases h
  | none =>
    have hpositive := positive_of_find_none hfind
    obtain ⟨-, -, -, hkernel, hstride, -, hheight, hwidth⟩ := positive_iff.mp hpositive
    by_cases hbits : g.elementBits = 8
    · have hrest : ∀ u : Unit, ¬ (if g.input.channels < g.block.channels then
          throw (GeometryError.blockExceedsDimension .channel g.block.channels g.input.channels)
          else pure u : Validated Unit).run = .error f := by
        intro u
        split <;> exact nofun
      show (if g.elementBits ≠ 8 then _ else _ : Validated Unit).run = _ ↔ _
      rw [if_neg (not_not_intro hbits), Refusal.bind_eq_error,
        Axis.validate_fault_iff (a := g.rows) hkernel hstride hheight]
      constructor
      · rintro (⟨rfl, hrows⟩ | ⟨_, hrows, h⟩)
        · exact ⟨rfl, hpositive, hbits, .inl hrows⟩
        · rcases Refusal.bind_eq_error.mp h with hcols | ⟨u, -, hlast⟩
          · rw [Axis.validate_fault_iff (a := g.cols) hkernel hstride hwidth] at hcols
            exact ⟨hcols.1, hpositive, hbits, .inr ⟨hrows, hcols.2⟩⟩
          · exact absurd hlast (hrest u)
      · rintro ⟨rfl, -, -, hrows | ⟨hrows, hcols⟩⟩
        · exact .inl ⟨rfl, hrows⟩
        · refine .inr ⟨(), hrows, Refusal.bind_eq_error.mpr (.inl ?_)⟩
          exact (Axis.validate_fault_iff (a := g.cols) hkernel hstride hwidth).mpr ⟨rfl, hcols⟩
    · refine iff_of_false (fun h => ?_) fun h => hbits h.2.2.1
      change (if g.elementBits ≠ 8 then _ else _ : Validated Unit).run = _ at h
      rw [if_pos hbits] at h
      cases h

/-- A handy geometry has no padded extent that is longer than a word. -/
theorem Handy.words (h : g.Handy) (hpositive : g.Positive) :
    g.rows.reach < wordLimit ∧ g.cols.reach < wordLimit := by
  obtain ⟨hchannels, hheight, hwidth, -⟩ := positive_iff.mp hpositive
  have hvolume := h.volume
  have hplane : g.rows.reach * g.cols.reach ≤ g.volume := Nat.le_mul_of_pos_left _ hchannels
  have hrows : g.rows.reach ≤ g.rows.reach * g.cols.reach :=
    Nat.le_mul_of_pos_right _ (Nat.lt_of_lt_of_le hwidth (by
      show g.input.width ≤ g.input.width + _ + _
      omega))
  have hcols : g.cols.reach ≤ g.rows.reach * g.cols.reach :=
    Nat.le_mul_of_pos_left _ (Nat.lt_of_lt_of_le hheight (by
      show g.input.height ≤ g.input.height + _ + _
      omega))
  unfold wordLimit
  omega

/-! ## Sizes of tiles -/

/-- Overflows are allowed. -/
def Overflows (fault : Fault → Prop) : Prop := fault .addOverflow ∧ fault .mulOverflow

/-- No size of a handy geometry is longer than a word. -/
theorem fits_or_overflows (h : g.Handy ∨ Overflows fault) :
    22 * g.volume + g.workspaceBytes + 27 < wordLimit ∨ Overflows fault := by
  refine h.imp_left fun hhandy => ?_
  have hvolume := hhandy.volume
  have hworkspace := hhandy.workspace
  unfold wordLimit
  omega

theorem Checks.reach_pos (h : g.Checks) : 0 < g.rows.reach ∧ 0 < g.cols.reach :=
  ⟨Nat.lt_of_lt_of_le h.rows.kernel_pos h.rows.kernel_le,
    Nat.lt_of_lt_of_le h.cols.kernel_pos h.cols.kernel_le⟩

theorem Checks.channels_le (h : g.Checks) : g.input.channels ≤ g.volume := by
  obtain ⟨hrows, hcols⟩ := h.reach_pos
  exact Nat.le_mul_of_pos_right _ (Nat.mul_pos hrows hcols)

/-- A box within the padded tensor has no more elements than it. -/
theorem box_le {n m b : Nat} (hn : n ≤ g.rows.reach) (hm : m ≤ g.cols.reach)
    (hb : b ≤ g.input.channels) : n * m * b ≤ g.volume := by
  rw [Nat.mul_comm]
  exact Nat.mul_le_mul hb (Nat.mul_le_mul hn hm)

/-- The bytes of a box of elements. -/
theorem Checks.boxBytes_ends (hg : g.Checks) (h : g.Handy ∨ Overflows fault) {n m : Nat}
    (hn : n ≤ g.rows.reach) (hm : m ≤ g.cols.reach) :
    Checked.Ends fault (· ≤ g.volume) (do
      mul (← mul (← mul n m) g.block.channels) g.elementBytes) := by
  have hbox := box_le hn hm hg.block_le
  have hplane : n * m ≤ n * m * g.block.channels := Nat.le_mul_of_pos_right _ hg.block_pos
  have hone : g.elementBytes = 1 := by simp [elementBytes, TileStream.elementBytes, hg.bits]
  have hover := (fits_or_overflows h).imp_right (·.2)
  refine (mul_ends (hover.imp_left fun hlt => by omega)).bind_eq ?_
  refine (mul_ends (hover.imp_left fun hlt => by omega)).bind_eq ?_
  refine (mul_ends (hover.imp_left fun hlt => ?_)).of_eq ?_
  · rw [hone, Nat.mul_one]
    omega
  · rw [hone, Nat.mul_one]
    exact hbox

/-- The bytes of the taps of some channels. -/
theorem Checks.tapBytes_ends (hg : g.Checks) (h : g.Handy ∨ Overflows fault) {channels : Nat}
    (hchannels : channels ≤ g.input.channels) :
    Checked.Ends fault (· ≤ g.volume) (do mul (← mul channels g.kernel) g.kernel) := by
  have hbox : channels * g.kernel * g.kernel ≤ g.volume := by
    rw [Nat.mul_assoc]
    exact Nat.mul_le_mul hchannels (Nat.mul_le_mul hg.rows.kernel_le hg.cols.kernel_le)
  have hrow : channels * g.kernel ≤ channels * g.kernel * g.kernel :=
    Nat.le_mul_of_pos_right _ hg.rows.kernel_pos
  have hover := (fits_or_overflows h).imp_right (·.2)
  refine (mul_ends (hover.imp_left fun hlt => by omega)).bind_eq ?_
  exact (mul_ends (hover.imp_left fun hlt => by omega)).of_eq hbox

theorem Checks.maxInputTileBytes_ends (hg : g.Checks) (h : g.Handy ∨ Overflows fault) :
    Checked.Ends fault (· ≤ g.volume) g.maxInputTileBytes := by
  obtain ⟨n, hn, hrows⟩ := Axis.maxWindow_of_checks hg.rows
  obtain ⟨m, hm, hcols⟩ := Axis.maxWindow_of_checks hg.cols
  rw [maxInputTileBytes, hrows, Checked.ok_bind, hcols, Checked.ok_bind]
  exact hg.boxBytes_ends h hn hm

theorem Checks.maxOutputTileBytes_ends (hg : g.Checks) (h : g.Handy ∨ Overflows fault) :
    Checked.Ends fault (· ≤ g.volume) g.maxOutputTileBytes :=
  hg.boxBytes_ends h
    (Nat.le_trans hg.rows.block_le (Axis.outs_le hg.rows.kernel_pos hg.rows.kernel_le))
    (Nat.le_trans hg.cols.block_le (Axis.outs_le hg.cols.kernel_pos hg.cols.kernel_le))

theorem Checks.requantPairBytes_ends (hg : g.Checks) (h : g.Handy ∨ Overflows fault) :
    Checked.Ends fault (· ≤ 8 * g.volume) g.requantPairBytes := by
  have hblock := hg.block_le
  have hchannels := hg.channels_le
  have hover := (fits_or_overflows h).imp_right (·.2)
  refine (mul_ends (hover.imp_left fun hlt => by omega)).bind_eq ?_
  exact (mul_ends (hover.imp_left fun hlt => by omega)).of_eq (by omega)

theorem Checks.blob_ends (hg : g.Checks) (h : g.Handy ∨ Overflows fault) :
    Checked.Ends fault (fun b => b.total ≤ 9 * g.volume + 3) g.blob := by
  have hchannels := hg.channels_le
  have hadd := (fits_or_overflows h).imp_right (·.1)
  have hmul := (fits_or_overflows h).imp_right (·.2)
  rw [blob, ← bind_assoc]
  refine (hg.tapBytes_ends h (Nat.le_refl _)).bind fun bytes hbytes => ?_
  refine (roundUp4_ends (hadd.imp_left fun hlt => by omega)).bind_eq ?_
  refine (mul_ends (hmul.imp_left fun hlt => by omega)).bind_eq ?_
  refine (add_ends (hadd.imp_left fun hlt => by omega)).bind_eq ?_
  refine (mul_ends (hmul.imp_left fun hlt => by omega)).bind_eq ?_
  refine (add_ends (hadd.imp_left fun hlt => by omega)).bind_eq ?_
  show (bytes + 3) / 4 * 4 + g.input.channels * 4 + g.input.channels * 4 ≤ _
  omega

end Geometry

/-! ## The partition and the job -/

open TileStream.Geometry

variable {g : Geometry} {fault : Fault → Prop}

theorem SlotPair.place_ends {base bytes : Nat}
    (h : base + 2 * (bytes + 3) < wordLimit ∨ Overflows fault) :
    Checked.Ends fault (fun p => p.stop ≤ base + 2 * (bytes + 3)) (SlotPair.place base bytes) := by
  have hadd := h.imp_right (·.1)
  have hmul := h.imp_right (·.2)
  refine (roundUp4_ends (hadd.imp_left fun hlt => by omega)).bind_eq ?_
  refine (mul_ends (hmul.imp_left fun hlt => by omega)).bind_eq ?_
  refine (add_ends (hadd.imp_left fun hlt => by omega)).discard.bind fun _ _ => ?_
  show base + 2 * ((bytes + 3) / 4 * 4) ≤ _
  omega

theorem Geometry.Checks.plan_ends (hg : g.Checks) (h : g.Handy ∨ Overflows fault) :
    Checked.Ends fault (fun s => s.workspace.start ≤ 22 * g.volume + 24 ∧
      s.total ≤ s.workspace.start + g.workspaceBytes + 3) (Scratch.plan g) := by
  have hchannels := hg.channels_le
  have hblock := hg.block_le
  have hover := fits_or_overflows h
  have hadd := hover.imp_right (·.1)
  have hmul := hover.imp_right (·.2)
  refine (hg.maxInputTileBytes_ends h).bind fun inputBytes hinput => ?_
  refine (SlotPair.place_ends (hover.imp_left fun hlt => by omega)).bind fun input hin => ?_
  refine (hg.maxOutputTileBytes_ends h).bind fun outputBytes houtput => ?_
  refine (SlotPair.place_ends (hover.imp_left fun hlt => by omega)).bind fun output hout => ?_
  refine (hg.tapBytes_ends h hblock).bind fun weightBytes hweights => ?_
  refine (SlotPair.place_ends (hover.imp_left fun hlt => by omega)).bind fun weights hwgt => ?_
  refine (hg.requantPairBytes_ends h).bind fun requantBytes hrequant => ?_
  refine (SlotPair.place_ends (hover.imp_left fun hlt => by omega)).bind fun requant hreq => ?_
  refine (roundUp4_ends (hadd.imp_left fun hlt => by omega)).bind_eq ?_
  refine (add_ends (hadd.imp_left fun hlt => ?_)).bind_eq ?_
  · show requant.stop + (g.workspaceBytes + 3) / 4 * 4 < _
    omega
  refine (mul_ends (hmul.imp_left fun hlt => by omega)).bind fun _ _ => ?_
  refine ⟨show requant.stop ≤ _ by omega, ?_⟩
  show requant.stop + (g.workspaceBytes + 3) / 4 * 4 ≤ requant.stop + _ + _
  omega

theorem Scratch.validateAt_ends {s : Scratch} {base capacity : Nat}
    (h : s.total + base < wordLimit ∨ fault .addOverflow) :
    Refusal.Ends fault (fun _ => True) (fun _ => True) (s.validateAt base capacity) := by
  show Refusal.Ends fault _ _ (if base % 4 ≠ 0 then _ else _)
  split
  · exact trivial
  · show Refusal.Ends fault _ _ (if capacity - base < s.total then _ else _)
    split
    · exact (Refusal.ends_lift (add_ends h)).bind fun _ _ => trivial
    · exact trivial

theorem Geometry.Checks.output_exists (hg : g.Checks) : ∃ out, g.output = .ok out := by
  refine ⟨⟨g.input.channels, g.rows.outs, g.cols.outs⟩, ?_⟩
  rw [output, Axis.outputExtent_of_word hg.rows.word hg.rows.kernel_pos hg.rows.kernel_le
    hg.rows.stride_pos, Checked.ok_bind, Axis.outputExtent_of_word hg.cols.word hg.cols.kernel_pos
    hg.cols.kernel_le hg.cols.stride_pos]
  rfl

theorem Geometry.Checks.place_ends (hg : g.Checks) (h : g.Handy ∨ Overflows fault)
    (input output weights : Endpoint) :
    Checked.Ends fault (fun _ => True) (Tiles.place g input output weights) := by
  obtain ⟨out, hout⟩ := hg.output_exists
  rw [Tiles.place, hout, Checked.ok_bind]
  exact (hg.blob_ends h).bind fun _ _ => trivial

namespace Job

/-- An error of acceptance that is known before any memory is. -/
def Early : JobError → Prop
  | .memory _ => False
  | _ => True

/-- **Accepting a layer stops only where a size overflows**, which none of a handy geometry does. -/
theorem create_ends (g : Geometry) (p : Params) (settings : Settings)
    (h : g.Handy ∨ Overflows fault) :
    Refusal.Ends fault Early (fun _ => True) (create g p settings) := by
  refine (Refusal.ends_adapt (validate_ends (h.imp (fun hhandy => hhandy.words) (·.1)))
    fun _ _ => trivial).bind fun _ hg => ?_
  refine (Refusal.ends_lift (hg.plan_ends h)).bind fun scratch ⟨hstart, htotal⟩ => ?_
  have hend : scratch.total + p.localBase.toNat < wordLimit ∨ fault .addOverflow := by
    refine h.imp (fun hhandy => ?_) (·.1)
    have hvolume := hhandy.volume
    have hworkspace := hhandy.workspace
    have hbase := p.localBase.toNat_lt
    unfold wordLimit
    omega
  refine (Refusal.ends_adapt (Scratch.validateAt_ends hend) fun _ _ => trivial).bind fun _ _ => ?_
  refine (Refusal.ends_lift (hg.place_ends h _ _ _)).bind fun tiles _ => ?_
  exact (Refusal.ends_lift (hg.blob_ends h)).bind fun blob _ => trivial

theorem ofWords_ends (g : Geometry) (words : List UInt32) (settings : Settings)
    (h : g.Handy ∨ Overflows fault) :
    Refusal.Ends fault Early (fun _ => True) (ofWords g words settings) := by
  unfold ofWords
  cases Params.ofWords words with
  | error cause => exact trivial
  | ok p => exact create_ends g p settings h

end Job

/-! ## What becomes of a layer -/

/-- A size of the layer is too large for a word. -/
def Geometry.Overgrown (g : Geometry) (f : Fault) : Prop :=
  ¬ g.Handy ∧ (f = .addOverflow ∨ f = .mulOverflow)

theorem Geometry.handy_or_overflows (g : Geometry) : g.Handy ∨ Overflows g.Overgrown :=
  (Classical.em g.Handy).imp_right fun h => ⟨⟨h, .inl rfl⟩, ⟨h, .inr rfl⟩⟩

/-- **What becomes of a layer that is to be accepted**, for every geometry, block and settings. Validation
stops exactly at an axis whose padded extent is longer than a word. A job is accepted or refused for its
geometry, partition or block, or else the geometry is not handy and a sum or a product overflows. -/
theorem acceptance_stops_only_at_overflow (g : Geometry) (p : Params) (words : List UInt32)
    (settings : Settings) :
    (∀ f, g.validate.run = .error f ↔
      f = .addOverflow ∧ g.Positive ∧ g.elementBits = 8 ∧ (wordLimit ≤ g.rows.reach ∨
        (g.rows.validate .height g.block.height).run = .ok (.ok ()) ∧ wordLimit ≤ g.cols.reach)) ∧
    Refusal.Ends g.Overgrown Job.Early (fun _ => True) (Job.create g p settings) ∧
    Refusal.Ends g.Overgrown Job.Early (fun _ => True) (Job.ofWords g words settings) :=
  ⟨fun _ => Geometry.validate_fault_iff, Job.create_ends g p settings g.handy_or_overflows,
    Job.ofWords_ends g words settings g.handy_or_overflows⟩

/-- The height with the padding is longer than a word. -/
def wideLayer : Geometry :=
  { input := ⟨1, 0x7fffffffffffffff, 1⟩
    kernel := 1
    stride := 1
    padding := ⟨0x7fffffffffffffff, 0x7fffffffffffffff, 0, 0⟩
    block := ⟨1, 1, 1⟩
    elementBits := 8
    workspaceBytes := 0 }

/-- A layer of one tile of `2 ^ 66` bytes. -/
def vastLayer : Geometry :=
  { input := ⟨0x400000, 0x400000, 0x400000⟩
    kernel := 1
    stride := 1
    padding := .uniform 0
    block := ⟨0x400000, 0x400000, 0x400000⟩
    elementBits := 8
    workspaceBytes := 0 }

/-- The first of these layers stops its validation. The second is valid, and then the size of its tile
overflows. -/
theorem wide_and_vast_layers_overflow :
    wideLayer.validate.run = .error .addOverflow ∧
    (Job.ofWords wideLayer (List.replicate 13 0) .standard).run = .error .addOverflow ∧
    vastLayer.validate.run = .ok (.ok ()) ∧
    (Job.ofWords vastLayer (List.replicate 13 0) .standard).run = .error .mulOverflow :=
  ⟨rfl, rfl, rfl, rfl⟩

end TileStream
