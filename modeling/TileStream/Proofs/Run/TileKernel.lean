import Mathlib.Tactic.Ring
import TileStream.Proofs.Kernel.Windowed
import TileStream.Proofs.Run.Completion
import TileStream.Proofs.Run.Invariant

/-! # The convolution, and what the kernel computes of it

`Job.convolution` is the layer without tiles: what the output tensor shall hold,
read off the bytes that memory held before the run. On the operands of a tile
the depthwise kernel computes just these values (`outcome_eq_convolution`). -/
namespace TileStream

open Unsigned Depthwise Finset

/-! ## The layer without tiles -/

namespace Job

variable {j : Job} {img x : Image}

/-- Where byte `o` of the input tensor is before a run. -/
def inputAt (j : Job) (o : Nat) : Endpoint :=
  if j.params.slowIsExternal then ⟨.slow, j.params.slowInput.toNat + o⟩
  else ⟨.mid, j.params.midInput.toNat + o⟩

/-- Where byte `o` of the weight blob is before a run. -/
def blobByteAt (j : Job) (o : Nat) : Endpoint :=
  if j.params.slowIsExternal then ⟨.slow, j.params.slowWeights.toNat + o⟩
  else ⟨.mid, j.params.midWeights.toNat + o⟩

/-- An element of the input tensor, zero outside of it. -/
def inputValue (j : Job) (img : Image) (row col : Int) (c : Nat) : Int :=
  if (0 ≤ row ∧ row < j.geometry.input.height) ∧ 0 ≤ col ∧ col < j.geometry.input.width then
    ((img (j.inputAt ((row.toNat * j.geometry.input.width + col.toNat) *
      j.geometry.input.channels + c))).toNat : Int)
  else 0

def weightValue (j : Job) (img : Image) (c kh kw : Nat) : Int :=
  (img (j.blobByteAt ((c * j.geometry.kernel + kh) * j.geometry.kernel + kw))).toInt8.toInt

/-- A signed little-endian word of the weight blob. -/
def blobWord (j : Job) (img : Image) (o : Nat) : Int :=
  (LittleEndian.word (img (j.blobByteAt o)) (img (j.blobByteAt (o + 1)))
    (img (j.blobByteAt (o + 2))) (img (j.blobByteAt (o + 3)))).toInt32.toInt

/-- The value of the output tensor at a position: the products over the taps are added up, scaled with
the multiplier of the channel and shifted by its bias, divided by a power of two and clipped. -/
def convolution (j : Job) (img : Image) (y x c : Nat) : UInt8 :=
  clip (((∑ kh ∈ range j.geometry.kernel, ∑ kw ∈ range j.geometry.kernel,
      j.inputValue img (((y * j.geometry.stride + kh : Nat) : Int) - j.geometry.padding.top)
        (((x * j.geometry.stride + kw : Nat) : Int) - j.geometry.padding.left) c *
      j.weightValue img c kh kw) * j.blobWord img (j.blob.kappa + 4 * c) +
    j.blobWord img (j.blob.lambda + 4 * c)) >>> j.params.outShift.toNat)

/-! ## What has been staged -/

theorem Sound.fed_input (h : j.Sound) {o : Nat} (ho : o < j.inputBytes) :
    j.fed img ⟨.mid, j.params.midInput.toNat + o⟩ = img (j.inputAt o) := by
  unfold fed inputAt
  cases j.params.slowIsExternal with
  | false => rfl
  | true =>
    have hbytes := h.staging_bytes.1
    have hcopied : img.applyAll (j.led .stageIn) (j.inputStage.target o) =
        img (j.inputStage.source o) :=
      (Covers.self _).origin (h.stage_origin List.mem_cons_self (by rw [hbytes]; exact ho))
    rw [inputStage, (staging_gather _ _ (by rw [low32_of_lt h.input_lt]; exact ho)).1] at hcopied
    exact hcopied

theorem Sound.fed_blob (h : j.Sound) {o : Nat} (ho : o < j.blob.total) :
    j.fed img ⟨.mid, j.params.midWeights.toNat + o⟩ = img (j.blobByteAt o) := by
  unfold fed blobByteAt
  cases j.params.slowIsExternal with
  | false => rfl
  | true =>
    have hbytes := h.staging_bytes.2.2
    rw [low32_of_lt h.blob_lt] at hbytes
    have hcopied : img.applyAll (j.led .stageIn) (j.stageWeights.target o) =
        img (j.stageWeights.source o) :=
      (Covers.self _).origin (h.stage_origin
        (List.mem_cons_of_mem _ List.mem_cons_self) (by rw [hbytes]; exact ho))
    rw [stageWeights, (staging_gather _ _ (by rw [low32_of_lt h.blob_lt]; exact ho)).1] at hcopied
    exact hcopied

end Job

/-! ## What a tile is fed -/

namespace Job

variable {j : Job} {img img₀ : Image}

/-- A signed word of the weight blob. -/
def blobInt32 (j : Job) (img : Image) (o : Nat) : Int32 :=
  (LittleEndian.word (img (j.blobByteAt o)) (img (j.blobByteAt (o + 1)))
    (img (j.blobByteAt (o + 2))) (img (j.blobByteAt (o + 3)))).toInt32

/-- The tensors of the layer in memory before a run. -/
def dataIn (j : Job) (img : Image) : LayerData where
  input row col c := img (j.inputAt ((row * j.geometry.input.width + col) *
    j.geometry.input.channels + c))
  weights c kh kw := img (j.blobByteAt ((c * j.geometry.kernel + kh) * j.geometry.kernel + kw))
  kappa c := j.blobInt32 img (j.blob.kappa + 4 * c)
  lambda c := j.blobInt32 img (j.blob.lambda + 4 * c)
  shift := j.params.outShift.toNat

theorem convolution_eq (j : Job) (img : Image) (y x c : Nat) :
    j.convolution img y x c = j.geometry.value (j.dataIn img) y x c := rfl

theorem callAt_serves (j : Job) (k : Nat) : (j.callAt k).Serves j.geometry k :=
  ⟨rfl, rfl, rfl, rfl, rfl, rfl, rfl⟩

theorem Sound.int32_eq (h : j.Sound) {array addr start len ch : Nat}
    (hword : ∀ p < len * 4, img ⟨.scratchpad, addr + p⟩ =
      j.fed img₀ ⟨.mid, j.params.midWeights.toNat + (array + start * 4) + p⟩)
    (hch : ch < len) (htotal : array + (start + len) * 4 ≤ j.blob.total) :
    int32At img (addr + 4 * ch) = j.blobInt32 img₀ (array + 4 * (start + ch)) := by
  have hbyte : ∀ b < 4, img ⟨.scratchpad, addr + 4 * ch + b⟩ =
      img₀ (j.blobByteAt (array + 4 * (start + ch) + b)) := by
    intro b hb
    have hfed : j.fed img₀ ⟨.mid, j.params.midWeights.toNat + (array + 4 * (start + ch) + b)⟩ =
        img₀ (j.blobByteAt (array + 4 * (start + ch) + b)) := h.fed_blob (by omega)
    rw [Nat.add_assoc, hword (4 * ch + b) (by omega), ← hfed]
    congr 2
    omega
  have hzero := hbyte 0 (by decide)
  rw [Nat.add_zero, Nat.add_zero] at hzero
  rw [int32At, blobInt32, hzero, hbyte 1 (by decide), hbyte 2 (by decide), hbyte 3 (by decide)]

/-- The operands of a tile are its part of the tensors. -/
theorem Sound.feeds (h : j.Sound) {k : Nat} (hk : k < j.tileCount)
    (hops : j.Operands k (j.callAt k) img (j.fed img₀)) :
    (j.callAt k).Feeds (j.geometry.inRows k) (j.geometry.inCols k) (j.geometry.chans (j.blockOf k))
      (j.dataIn img₀) img := by
  obtain ⟨-, -, hstop⟩ := h.chanLen_facts (blockOf_lt hk)
  have hlambda := h.blob_lambda
  have htotal := h.blob_total
  refine ⟨fun r hr q hq ch hch => ?_, fun ch hch kh hkh kw hkw => ?_, fun ch hch => ?_,
    fun ch hch => ?_, rfl⟩
  · have hrow := Axis.inStop_le (Nat.zero_lt_of_lt hr)
    have hcol := Axis.inStop_le (Nat.zero_lt_of_lt hq)
    have hplace : j.inputTensor.place ((j.geometry.inRows k).start + r)
        ((j.geometry.inCols k).start + q) ((j.geometry.chans (j.blockOf k)).start + ch) <
        j.inputBytes :=
      Tensor.place_lt (Nat.lt_of_lt_of_le (Nat.add_lt_add_left hr _) hrow)
        (Nat.lt_of_lt_of_le (Nat.add_lt_add_left hq _) hcol)
        (Nat.lt_of_lt_of_le (Nat.add_lt_add_left hch _) hstop)
    exact (hops.window r hr q hq ch hch).trans (h.fed_input hplace)
  · have htap : (ch * j.geometry.kernel + kh) * j.geometry.kernel + kw <
        (j.callAt k).channels * j.taps := by
      rw [taps, ← Nat.mul_assoc]
      exact index_lt hch hkh hkw
    have hoffset : j.params.midWeights.toNat +
        (j.blob.weights + (j.geometry.chans (j.blockOf k)).start * j.taps) +
        ((ch * j.geometry.kernel + kh) * j.geometry.kernel + kw) = j.params.midWeights.toNat +
        ((((j.geometry.chans (j.blockOf k)).start + ch) * j.geometry.kernel + kh) *
          j.geometry.kernel + kw) := by
      rw [h.blob_weights, taps]
      ring
    have htaps := h.taps_le
    have hindex := index_lt (show (j.geometry.chans (j.blockOf k)).start + ch <
      j.geometry.input.channels by omega) hkh hkw
    change _ < j.geometry.input.channels * j.geometry.kernel * j.geometry.kernel at hindex
    rw [taps, ← Nat.mul_assoc] at htaps
    refine (hops.weights _ htap).trans ?_
    rw [hoffset]
    exact h.fed_blob (Nat.lt_of_lt_of_le hindex (by omega))
  · exact h.int32_eq hops.kappa hch (by
      show _ + (_ + (j.geometry.chans (j.blockOf k)).len) * 4 ≤ _
      omega)
  · exact h.int32_eq hops.lambda hch (by
      show _ + (_ + (j.geometry.chans (j.blockOf k)).len) * 4 ≤ _
      omega)

/-- **The kernel computes the convolution** at every position of a tile whose operands it is given. -/
theorem Sound.outcome_eq_convolution (h : j.Sound) {k : Nat} (hk : k < j.tileCount)
    (hops : j.Operands k (j.callAt k) img (j.fed img₀)) {r q ch : Nat}
    (hr : r < (j.geometry.outRows k).len) (hq : q < (j.geometry.outCols k).len)
    (hch : ch < (j.geometry.chans (j.blockOf k)).len) :
    outcomeIn (j.callAt k) img r q ch = j.convolution img₀ ((j.geometry.outRows k).start + r)
      ((j.geometry.outCols k).start + q) ((j.geometry.chans (j.blockOf k)).start + ch) := by
  have hvalue := (j.callAt_serves k).outcomeIn_eq_value h.tiled h.small (h.feeds hk hops) hr hq hch
  rw [hvalue, convolution_eq]
  rfl

end Job

namespace Job

variable {j : Job} {img img₀ : Image}

/-! ## The kernel on a tile -/

theorem Fit.moderate (h : j.Fit) {k : Nat} (hk : k < j.tileCount) : Moderate (j.callAt k) := by
  obtain ⟨-, hweights, -⟩ := h.call_sizes hk
  have hcapacity := h.capacity
  have htotal := h.scratch.total
  have hworkspace := h.scratch.workspace_start
  have hrequant := h.scratch.requant_base
  simp only [SlotPair.stop] at hworkspace hrequant
  -- weights have two slots
  exact ⟨(j.callAt_serves k).bounded h.tiled h.small, by omega⟩

theorem Fit.placed (h : j.Fit) {k : Nat} (hk : k < j.tileCount) : Placed (j.callAt k) := by
  obtain ⟨hinput, hweights, hwords, -, houtput, -⟩ := h.call_sizes hk
  have hrequant := h.scratch.requant_size
  have hbias := h.scratch.bias
  have hin : (j.callAt k).input + j.scratch.input.slotSize ≤ 0x40000 := h.padAt_lt .input _
  have hout : (j.callAt k).output + j.scratch.output.slotSize ≤ 0x40000 := h.padAt_lt .output _
  have hwgt : (j.callAt k).weights + j.scratch.weights.slotSize ≤ 0x40000 := h.padAt_lt .weights _
  have hkap : (j.callAt k).kappa + j.scratch.requant.slotSize ≤ 0x40000 := h.padAt_lt .requant _
  have hlam : (j.callAt k).lambda = (j.callAt k).kappa + j.scratch.biasOffset :=
    (Nat.add_assoc _ _ _).symm
  refine ⟨.inr ?_, .inr ?_, .inr ?_, .inr ?_, .inr ?_⟩ <;>
    · unfold wordLimit
      omega

/-- Every unit has a share of the channels of a tile. -/
theorem Fit.channelShare_exists (h : j.Fit) {k : Nat} (hk : k < j.tileCount) {u : Member}
    (hu : u ∈ Member.team j.settings.units) : ∃ share, u.share (j.callAt k).channels = .ok share ∧
      ∀ c < (j.callAt k).channels, (share.start ≤ c ∧ c < share.stop) ↔
        Member.ownerOf j.settings.units (j.callAt k).channels c = u := by
  obtain ⟨-, hle, -⟩ := h.chanLen_facts (blockOf_lt hk)
  have hsmall := h.small.block
  exact Member.share_exists hu h.units_lt
    (show (j.geometry.chans (j.blockOf k)).len < 0x8000000000000000 by omega)

/-- **The depthwise kernel finishes on every tile**, unless it is to shift by a word or more. -/
theorem Fit.settles_depthwise (h : j.Fit) :
    j.Settles kernel fun f => 64 ≤ j.params.outShift.toNat ∧ f = .shiftOverflow := by
  intro k hk u hu m
  obtain ⟨share, hshare, -⟩ := h.channelShare_exists hk hu
  have hmoderate := h.moderate hk
  refine (kernel_ends hmoderate.toBounded (h.placed hk) hshare m).mono ?_ fun _ _ hreads => hreads
  rintro f ⟨y, x, channel, hmem, hstops⟩
  obtain ⟨-, -, hlo, hhi⟩ := mem_positions.mp hmem
  have hstop := Member.share_stop_le hshare
  rw [valueIn_eq hmoderate _ _ _ (by omega)] at hstops
  split at hstops
  · rename_i hshift
    cases hstops
    exact ⟨hshift, rfl⟩
  · cases hstops

theorem Fit.finishes_depthwise (h : j.Fit) (hshift : j.params.outShift.toNat < 64) :
    j.Finishes kernel := fun k hk u hu m =>
  (h.settles_depthwise k hk u hu m).mono (fun _ hfault => Nat.not_le_of_lt hshift hfault.1)
    fun _ _ hreads => hreads

theorem Sound.finishes_depthwise (h : j.Sound) : j.Finishes kernel :=
  h.toFit.finishes_depthwise (Nat.lt_trans h.shift (by decide))

/-- A run shall leave the convolution of what memory held before. -/
def convolved (j : Job) (img₀ : Image) : Aim where
  good e v := ∀ y < j.geometry.rows.outs, ∀ x < j.geometry.cols.outs,
    ∀ c < j.geometry.input.channels,
      e = ⟨.mid, j.params.midOutput.toNat + j.outputTensor.place y x c⟩ → v = j.convolution img₀ y x c
  owner k p := Member.ownerOf j.settings.units (j.geometry.chans (j.blockOf k)).len
    (p % (j.geometry.chans (j.blockOf k)).len)

theorem good_of_eq {y x c : Nat} (hx : x < j.geometry.cols.outs) (hc : c < j.geometry.input.channels)
    {v : UInt8} (hv : v = j.convolution img₀ y x c) :
    (j.convolved img₀).good ⟨.mid, j.params.midOutput.toNat + j.outputTensor.place y x c⟩ v := by
  intro y' _ x' hx' c' hc' heq
  have hplace : j.outputTensor.place y x c = j.outputTensor.place y' x' c' :=
    Nat.add_left_cancel (congrArg Endpoint.addr heq)
  obtain ⟨rfl, rfl, rfl⟩ := index_inj hx hc hx' hc' hplace
  exact hv

/-- **What a unit leaves of a byte of the tile**: the convolution if it owns the byte. -/
theorem Sound.depthwise_byte (h : j.Sound) {k : Nat} (hk : k < j.tileCount) {u : Member}
    (hu : u ∈ Member.team j.settings.units) {m m' : Memory}
    (hloaded : j.Loaded (j.fed img₀) k m.image) (hrun : kernel u (j.callAt k) m = .ok () m') {p : Nat}
    (hp : p < (j.outputStore k).byteCount) :
    ((j.convolved img₀).owner k p = u →
      (j.convolved img₀).good ((j.outputStore k).target p) (m'.image ((j.outputStore k).source p))) ∧
    ((j.convolved img₀).owner k p ≠ u →
      m'.image ((j.outputStore k).source p) = m.image ((j.outputStore k).source p)) := by
  obtain ⟨r, q, hr, hq, hch, hsplit, htarget⟩ := h.output_position hk hp
  obtain ⟨-, -, hstop⟩ := h.chanLen_facts (blockOf_lt hk)
  obtain ⟨share, hshare, howner⟩ := h.channelShare_exists hk hu
  have hmoderate := h.toFit.moderate hk
  obtain ⟨hmineAt, hotherAt⟩ :=
    kernel_at hmoderate.toBounded hshare hrun hr hq hch
  have hsource : (j.outputStore k).source p = ⟨.scratchpad, (j.callAt k).output +
      ((r * (j.geometry.outCols k).len + q) * (j.geometry.chans (j.blockOf k)).len +
        p % (j.geometry.chans (j.blockOf k)).len)⟩ := by
    rw [← hsplit]
    rfl
  rw [hsource]
  refine ⟨fun hmine => ?_, fun hother => ?_⟩
  · have hvalue := h.outcome_eq_convolution hk (h.operands_of_loaded hk hloaded) hr hq hch
    have hcols := Axis.outStop_le h.tiled.cols (Geometry.colBlock_lt h.tiled h.small k)
    rw [htarget]
    have hbyte := hmineAt ((howner _ hch).mpr hmine)
    have hshift : ¬ 64 ≤ (j.callAt k).requant.outShift.toNat :=
      Nat.not_le_of_lt (Nat.lt_trans h.shift (by decide))
    rw [valueIn_eq hmoderate _ _ _ hch, if_neg hshift] at hbyte
    refine good_of_eq ?_ (by omega) ((Except.ok.inj hbyte).symm.trans hvalue)
    exact Nat.lt_of_lt_of_le (Nat.add_lt_add_left hq _) hcols
  · exact hotherAt fun hmine => hother ((howner _ hch).mp hmine)

/-- **The depthwise kernel brings a run to the convolution.** -/
theorem Sound.serves_depthwise (h : j.Sound) : j.Serves kernel (j.fed img₀) (j.convolved img₀) where
  confined := kernel_confined
  owned k p := by
    refine Member.ownerOf_mem _ ?_
    rcases Nat.eq_zero_or_pos (j.geometry.chans (j.blockOf k)).len with hzero | hpos
    · exact .inr hzero
    · exact .inl (Nat.mod_lt _ hpos)
  yields k hk u hu _ _ hloaded hrun _ hp := (h.depthwise_byte hk hu hloaded hrun hp).1
  spares k hk u hu _ _ hloaded hrun _ hp howner hgood := by
    rw [(h.depthwise_byte hk hu hloaded hrun hp).2 howner]
    exact hgood

end Job

end TileStream
