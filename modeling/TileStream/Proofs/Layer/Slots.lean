import TileStream.Proofs.Layer.TileTransfers
import TileStream.Proofs.Transfer.AnyOrder

/-! # The slots of the scratchpad and what is moved through them

Slots of different roles or parities have no byte in common (`slot_apart`), and
every transfer of a tile fits the slot it fills or drains. The tensors and the
blob in mid memory are ranges of their own. -/
namespace TileStream.Job

variable {j : Job}

/-- An endpoint lies in a slot. -/
def InSlot (j : Job) (role : Role) (p : Parity) (e : Endpoint) : Prop :=
  e.tier = .scratchpad ∧ (j.padAt (j.scratch.slot role p)).addr ≤ e.addr ∧
    e.addr < (j.padAt (j.scratch.slot role p)).addr + (j.scratch.slots role).slotSize

/-- An endpoint lies in a range of mid memory. -/
def InMid (addr len : Nat) (e : Endpoint) : Prop :=
  e.tier = .mid ∧ addr ≤ e.addr ∧ e.addr < addr + len

def InInput (j : Job) : Endpoint → Prop := InMid j.params.midInput.toNat j.inputBytes

def InOutput (j : Job) : Endpoint → Prop := InMid j.params.midOutput.toNat j.outputBytes

def InBlob (j : Job) : Endpoint → Prop := InMid j.params.midWeights.toNat j.blob.total

theorem Accepted.slot_apart (h : j.Accepted) {role role' : Role} {p p' : Parity} {e : Endpoint}
    (he : j.InSlot role p e) (he' : j.InSlot role' p' e) : role = role' ∧ p = p' := by
  have := h.scratch.requant_base
  have := h.scratch.weights_base
  have := h.scratch.output_base
  have := h.scratch.input_base
  obtain ⟨-, hlo, hhi⟩ := he
  obtain ⟨-, hlo', hhi'⟩ := he'
  simp only [SlotPair.stop] at *
  cases role <;> cases role' <;> cases p <;> cases p' <;>
    simp only [padAt, Scratch.slot, Scratch.slots, SlotPair.slot, Parity.index] at hlo hhi hlo' hhi' <;>
    first
    | exact ⟨rfl, rfl⟩
    | omega

theorem apart_inMid {addr len addr' len' : Nat} (h : Apart addr len addr' len') {e : Endpoint}
    (he : InMid addr len e) : ¬ InMid addr' len' e := by
  rintro ⟨-, hlo', hhi'⟩
  obtain ⟨-, hlo, hhi⟩ := he
  unfold Apart at h
  omega

end TileStream.Job

/-! ## Sizes -/

namespace TileStream

/-- A contiguous transfer into the scratchpad reads and writes consecutive bytes. -/
theorem Descriptor.Boxed.contiguous {d : Descriptor} {run m ms o os : Nat} (h : d.Boxed run m ms o os)
    (hdir : d.direction = .gather) {p : Nat} (hp : p < d.byteCount)
    (hflat : m = 1 ∧ ((o = 1 ∧ os = 0) ∨ os = run)) :
    d.source p = ⟨d.ext.tier, d.ext.addr + p⟩ ∧ d.target p = ⟨d.loc.tier, d.loc.addr + p⟩ := by
  obtain ⟨rfl, hflat⟩ := hflat
  have hbytes := h.byteCount_eq
  have hext := h.ext_lt
  have hsplit := Nat.div_add_mod p run
  simp only [Descriptor.source, Descriptor.target, hdir, h.shape]
  refine ⟨?_, trivial⟩
  rw [Shape.box_byteAddress (by omega)]
  simp only [Nat.max_self, Nat.mod_one, Nat.div_one, Nat.zero_mul, Nat.add_zero]
  congr 1
  rcases hflat with ⟨rfl, rfl⟩ | rfl
  · have hlt : p < run := by
      simp only [Nat.max_self, Nat.mul_one] at hbytes
      omega
    rw [Nat.mod_eq_of_lt hlt, Nat.mul_zero]
    omega
  · rw [Nat.mul_comm (p / os)]
    omega

theorem Tensor.Narrow.boxed {t : Tensor} (h : t.Narrow) {rows cols chans : Span}
    (hrows : rows.Low) (hcols : cols.Low) (hchans : chans.Low) (hpos : 0 < chans.len)
    {d : Descriptor} (hext : d.ext = (t.boxOf rows cols chans).ext)
    (hshape : d.shape = (t.boxOf rows cols chans).shape)
    (hloc : d.loc.addr + d.byteCount < 0x8000000000000000) :
    d.Boxed chans.len cols.len t.extents.channels rows.len
      (t.extents.width * t.extents.channels) := by
  obtain ⟨hrs, hrl⟩ := hrows
  obtain ⟨hcs, hcl⟩ := hcols
  obtain ⟨hks, hkl⟩ := hchans
  obtain ⟨-, hdown, hacross⟩ := h.bounds hrs hcs
  obtain ⟨-, hdown', hacross'⟩ := h.bounds (y := max rows.len 1) (x := cols.len) (by omega) hcl
  have hbase := h.base
  refine ⟨hshape, hpos, ?_, hloc⟩
  rw [hext]
  simp only [boxOf, t.place_eq]
  omega

namespace Job

variable {j : Job}

/-- The slot of a tile or a channel block lies low in the address space. -/
theorem Accepted.slot_low (h : j.Accepted) (role : Role) (p : Parity) :
    (j.padAt (j.scratch.slot role p)).addr + (j.scratch.slots role).slotSize ≤ 0x200000000000000 := by
  have := h.slot_le_start role p
  have := h.low
  show j.params.localBase.toNat + _ + _ ≤ _
  omega

/-- In a scratchpad of 256 KiB it lies within these. -/
theorem Fit.padAt_lt (h : j.Fit) (role : Role) (p : Parity) :
    (j.padAt (j.scratch.slot role p)).addr + (j.scratch.slots role).slotSize ≤ 0x40000 := by
  have := h.slot_le role p
  have := h.capacity
  show j.params.localBase.toNat + _ + _ ≤ _
  omega

theorem Accepted.inputLoad_boxed (h : j.Accepted) {k : Nat} (hk : k < j.geometry.tileGrid.size) :
    (j.inputLoad k).Boxed (j.geometry.chans (j.blockOf k)).len (j.geometry.inCols k).len
      j.geometry.input.channels (j.geometry.inRows k).len
      (j.geometry.input.width * j.geometry.input.channels) ∧
    (j.inputLoad k).byteCount ≤ j.scratch.input.slotSize := by
  have hrow := Geometry.rowBlock_lt h.tiled h.small k
  have hcol := Geometry.colBlock_lt h.tiled h.small k
  have hrows := Axis.inLen_le_window h.tiled.rows hrow
  have hcols := Axis.inLen_le_window h.tiled.cols hcol
  have hrpos := Axis.window_pos h.tiled.rows
  have hcpos := Axis.window_pos h.tiled.cols
  have hclen := j.geometry.chanLen_le (j.blockOf k)
  have hsize := h.scratch.input_size
  have hbytes : (j.inputLoad k).byteCount ≤ j.scratch.input.slotSize :=
    Nat.le_trans (Shape.box_byteCount_le hclen hcols hrows hcpos hrpos) hsize
  refine ⟨?_, hbytes⟩
  have hslot : (j.inputLoad k).loc.addr + j.scratch.input.slotSize ≤ 0x200000000000000 :=
    h.slot_low .input (.of k)
  exact h.inputTensor_narrow.boxed (Axis.low_of_tiled h.tiled.rows h.small.rows hrow).2
    (Axis.low_of_tiled h.tiled.cols h.small.cols hcol).2
    (Geometry.chans_low h.tiled h.small (blockOf_lt hk))
    (Geometry.chanLen_pos h.tiled (blockOf_lt hk)) rfl rfl (by omega)

theorem Accepted.outputStore_boxed (h : j.Accepted) {k : Nat} (hk : k < j.geometry.tileGrid.size) :
    (j.outputStore k).Boxed (j.geometry.chans (j.blockOf k)).len (j.geometry.outCols k).len
      j.geometry.input.channels (j.geometry.outRows k).len
      (j.geometry.cols.outs * j.geometry.input.channels) ∧
    (j.outputStore k).byteCount ≤ j.scratch.output.slotSize := by
  have hrow := Geometry.rowBlock_lt h.tiled h.small k
  have hcol := Geometry.colBlock_lt h.tiled h.small k
  have hrows := j.geometry.rows.outLen_le j.geometry.block.height (j.geometry.rowBlock k)
  have hcols := j.geometry.cols.outLen_le j.geometry.block.width (j.geometry.colBlock k)
  have hrpos := h.tiled.rows.block_pos
  have hcpos := h.tiled.cols.block_pos
  have hclen := j.geometry.chanLen_le (j.blockOf k)
  have hsize := h.scratch.output_size
  have hbytes : (j.outputStore k).byteCount ≤ j.scratch.output.slotSize :=
    Nat.le_trans (Shape.box_byteCount_le hclen hcols hrows hcpos hrpos) hsize
  refine ⟨?_, hbytes⟩
  have hslot : (j.outputStore k).loc.addr + j.scratch.output.slotSize ≤ 0x200000000000000 :=
    h.slot_low .output (.of k)
  exact h.outputTensor_narrow.boxed (Axis.low_of_tiled h.tiled.rows h.small.rows hrow).1
    (Axis.low_of_tiled h.tiled.cols h.small.cols hcol).1
    (Geometry.chans_low h.tiled h.small (blockOf_lt hk))
    (Geometry.chanLen_pos h.tiled (blockOf_lt hk)) rfl rfl (by omega)

theorem Accepted.chanLen_facts (h : j.Accepted) {b : Nat} (hb : b < j.geometry.tileGrid.channels) :
    0 < (j.geometry.chans b).len ∧ (j.geometry.chans b).len ≤ j.geometry.block.channels ∧
      (j.geometry.chans b).start + (j.geometry.chans b).len ≤ j.geometry.input.channels :=
  ⟨Geometry.chanLen_pos h.tiled hb, j.geometry.chanLen_le b, Geometry.chanStop_le h.tiled hb⟩

theorem Accepted.tapLoad_boxed (h : j.Accepted) {b : Nat} (hb : b < j.geometry.tileGrid.channels) :
    (j.tapLoad b).Boxed j.taps 1 0 (j.geometry.chans b).len j.taps ∧
      (j.tapLoad b).byteCount = (j.geometry.chans b).len * j.taps ∧
      (j.tapLoad b).byteCount ≤ j.scratch.weights.slotSize := by
  obtain ⟨hpos, hle, hstop⟩ := h.chanLen_facts hb
  have htaps := h.taps_le
  have hblob := h.blob_low
  have hweights := h.blob_weights
  have hbase := j.params.midWeights.toNat_lt
  have hslot : (j.tapLoad b).loc.addr + j.scratch.weights.slotSize ≤ 0x200000000000000 :=
    h.slot_low .weights (.of b)
  have hsize := h.scratch.weights_size
  have hbytes : (j.tapLoad b).byteCount = (j.geometry.chans b).len * j.taps := by
    show (Shape.box _ _ _ _ _).byteCount = _
    rw [Shape.box_byteCount, Nat.max_self, Nat.one_mul, Nat.max_eq_left (by omega), Nat.mul_comm]
  have hfit : (j.geometry.chans b).len * j.taps ≤ j.scratch.weights.slotSize := by
    refine Nat.le_trans (Nat.mul_le_mul_right _ hle) ?_
    rw [taps, ← Nat.mul_assoc]
    exact hsize
  have hkernel := h.tiled.rows.kernel_pos
  have hstart := Nat.mul_le_mul_right j.taps
    (show (j.geometry.chans b).start + max (j.geometry.chans b).len 1 ≤
        j.geometry.input.channels by
      rw [Nat.max_eq_left (by omega)]; exact hstop)
  rw [Nat.add_mul] at hstart
  have hone : j.taps ≤ j.geometry.input.channels * j.taps :=
    Nat.le_mul_of_pos_left _ (by omega)
  refine ⟨⟨rfl, Nat.mul_pos hkernel hkernel, ?_, by omega⟩, hbytes, by omega⟩
  show j.params.midWeights.toNat + (j.blob.weights + (j.geometry.chans b).start * j.taps) + 1 * 0 +
    max (j.geometry.chans b).len 1 * j.taps + j.taps < _
  omega

theorem wordLoad_bytes (j : Job) (array offset b : Nat) :
    (j.wordLoad array offset b).byteCount = (j.geometry.chans b).len * 4 := by
  show (Shape.box _ _ _ _ _).byteCount = _
  rw [Shape.box_byteCount, Nat.max_self, Nat.mul_one]

theorem Accepted.wordLoad_boxed (h : j.Accepted) {b : Nat} (hb : b < j.geometry.tileGrid.channels)
    {array offset : Nat} (harray : array ≤ j.blob.total) (hoffset : offset ≤ j.scratch.workspace.start) :
    (j.wordLoad array offset b).Boxed ((j.geometry.chans b).len * 4) 1 0 1 0 ∧
      (j.wordLoad array offset b).byteCount = (j.geometry.chans b).len * 4 := by
  obtain ⟨hpos, hle, hstop⟩ := h.chanLen_facts hb
  have hchannels := h.small.channels
  have hblob := h.blob_low
  have hlow := h.low
  have hbase := j.params.midWeights.toNat_lt
  have hbytes := j.wordLoad_bytes array offset b
  refine ⟨⟨rfl, by omega, ?_, ?_⟩, hbytes⟩
  · show j.params.midWeights.toNat + (array + (j.geometry.chans b).start * 4) + 1 * 0 +
      max 1 1 * 0 + _ < _
    omega
  · rw [hbytes]
    show j.params.localBase.toNat + offset + _ < _
    omega

end Job

/-! ## Elements of boxes -/

theorem packed_digits {n run rows p : Nat} (hp : p < run * (n * rows)) :
    p / run / n < rows ∧ p / run % n < n ∧ p % run < run ∧
      p = (p / run / n * n + p / run % n) * run + p % run := by
  have hrun : 0 < run := by
    rcases Nat.eq_zero_or_pos run with rfl | hpos
    · simp at hp
    · exact hpos
  have hrows : p / run < n * rows := Nat.div_lt_of_lt_mul hp
  have hn : 0 < n := by
    rcases Nat.eq_zero_or_pos n with rfl | hpos
    · simp at hrows
    · exact hpos
  refine ⟨Nat.div_lt_of_lt_mul hrows, Nat.mod_lt _ hn, Nat.mod_lt _ hrun, ?_⟩
  have houter := Nat.div_add_mod (p / run) n
  have hinner := Nat.div_add_mod p run
  rw [Nat.mul_comm] at houter hinner
  rw [houter, hinner]

theorem packed_lt {n run rows r q ch : Nat} (hr : r < rows) (hq : q < n) (hch : ch < run) :
    (r * n + q) * run + ch < run * (n * rows) := by
  rw [Nat.mul_comm run, Nat.mul_comm n rows]
  exact index_lt hr hq hch

namespace Tensor

variable {t : Tensor} {rows cols chans : Span}

theorem place_add (t : Tensor) (y x c r q ch : Nat) :
    t.place (y + r) (x + q) (c + ch) = t.place y x c + q * t.extents.channels +
      r * (t.extents.width * t.extents.channels) + ch := by
  rw [place_eq, place_eq, Nat.add_mul, Nat.add_mul]
  omega

theorem place_lt {y x c : Nat} (hy : y < t.extents.height) (hx : x < t.extents.width)
    (hc : c < t.extents.channels) :
    t.place y x c < t.extents.channels * t.extents.height * t.extents.width := by
  have hrow := Nat.mul_le_mul_right t.extents.width (show y + 1 ≤ _ from hy)
  have hpixel := Nat.mul_le_mul_right t.extents.channels
    (show y * t.extents.width + x + 1 ≤ t.extents.height * t.extents.width by
      rw [Nat.add_mul] at hrow; omega)
  rw [Nat.mul_assoc, Nat.mul_comm t.extents.channels, place]
  rw [Nat.add_mul _ 1] at hpixel
  omega

/-- Byte `(r * cols + q) * channels + ch` of a packed box is element `(r, q, ch)` of the box. -/
theorem Narrow.boxOf_byteAddress (h : t.Narrow) (hrows : rows.Low) (hcols : cols.Low)
    (hchans : chans.Low) {r q ch : Nat} (hq : q < cols.len) (hch : ch < chans.len) :
    (t.boxOf rows cols chans).shape.byteAddress (t.boxOf rows cols chans).ext.addr
        ((r * cols.len + q) * chans.len + ch) =
      t.base.addr + t.place (rows.start + r) (cols.start + q) (chans.start + ch) := by
  obtain ⟨-, hdown, hacross⟩ := h.bounds hrows.1 hcols.1
  have hbase := h.base
  have hstart := t.place_eq rows.start cols.start chans.start
  have hlow := hchans.1
  have hmax : max cols.len 1 = cols.len := by omega
  have hcol : q < max cols.len 1 := by omega
  have hlimit : t.base.addr + t.place rows.start cols.start chans.start < 0x8000000000000000 := by
    omega
  have haddress : (t.boxOf rows cols chans).shape.byteAddress (t.boxOf rows cols chans).ext.addr
      ((r * max cols.len 1 + q) * chans.len + ch) = _ := Shape.box_byteAddress_at hlimit hch hcol
  rw [hmax] at haddress
  rw [haddress, place_add]
  omega

/-- An element of a box inside a tensor: where it is packed, and where it lies in the tensor. -/
theorem Narrow.boxOf_element (h : t.Narrow) (hrows : rows.Low) (hcols : cols.Low)
    (hchans : chans.Low) (hdown : rows.start + rows.len ≤ t.extents.height)
    (hacross : cols.start + cols.len ≤ t.extents.width)
    (hdeep : chans.start + chans.len ≤ t.extents.channels) {r q ch : Nat} (hr : r < rows.len)
    (hq : q < cols.len) (hch : ch < chans.len) :
    let box := t.boxOf rows cols chans
    let p := (r * cols.len + q) * chans.len + ch
    let o := t.place (rows.start + r) (cols.start + q) (chans.start + ch)
    p < box.shape.byteCount ∧ box.shape.byteAddress box.ext.addr p = t.base.addr + o ∧
      o < t.extents.channels * t.extents.height * t.extents.width := by
  refine ⟨?_, h.boxOf_byteAddress hrows hcols hchans hq hch,
    place_lt (by omega) (by omega) (by omega)⟩
  rw [boxOf, Shape.box_byteCount, Nat.max_eq_left (by omega), Nat.max_eq_left (by omega)]
  exact packed_lt hr hq hch

end Tensor

namespace Job

variable {j : Job}

/-! ## Where the transfers read and write -/

theorem inSlot_of_lt {role : Role} {p : Parity} {n : Nat} (h : n < (j.scratch.slots role).slotSize) :
    j.InSlot role p ⟨.scratchpad, (j.padAt (j.scratch.slot role p)).addr + n⟩ :=
  ⟨rfl, Nat.le_add_right _ _, Nat.add_lt_add_left h _⟩

/-- The load of a tile reads mid memory and fills its input slot. -/
theorem Accepted.inputLoad_moves (h : j.Accepted) {k : Nat} (hk : k < j.geometry.tileGrid.size) {p : Nat}
    (hp : p < (j.inputLoad k).byteCount) :
    ((j.inputLoad k).source p).tier = .mid ∧ j.InSlot .input (.of k) ((j.inputLoad k).target p) := by
  obtain ⟨-, hfit⟩ := h.inputLoad_boxed hk
  exact ⟨rfl, inSlot_of_lt (Nat.lt_of_lt_of_le hp hfit)⟩

theorem Accepted.inputLoad_element (h : j.Accepted) {k : Nat} (hk : k < j.geometry.tileGrid.size)
    {r q ch : Nat} (hr : r < (j.geometry.inRows k).len) (hq : q < (j.geometry.inCols k).len)
    (hch : ch < (j.geometry.chans (j.blockOf k)).len) :
    let p := (r * (j.geometry.inCols k).len + q) * (j.geometry.chans (j.blockOf k)).len + ch
    p < (j.inputLoad k).byteCount ∧ j.InInput ((j.inputLoad k).source p) ∧
      (j.inputLoad k).source p = ⟨.mid, j.params.midInput.toNat + j.inputTensor.place
        ((j.geometry.inRows k).start + r) ((j.geometry.inCols k).start + q)
        ((j.geometry.chans (j.blockOf k)).start + ch)⟩ := by
  intro p
  have hrow := Geometry.rowBlock_lt h.tiled h.small k
  have hcol := Geometry.colBlock_lt h.tiled h.small k
  obtain ⟨hbytes, haddress, hplace⟩ := h.inputTensor_narrow.boxOf_element
    (Axis.low_of_tiled h.tiled.rows h.small.rows hrow).2
    (Axis.low_of_tiled h.tiled.cols h.small.cols hcol).2
    (Geometry.chans_low h.tiled h.small (blockOf_lt hk)) (Axis.inStop_le (Nat.zero_lt_of_lt hr))
    (Axis.inStop_le (Nat.zero_lt_of_lt hq)) (Geometry.chanStop_le h.tiled (blockOf_lt hk)) hr hq hch
  have hsource : (j.inputLoad k).source p = _ := congrArg (Endpoint.mk .mid) haddress
  refine ⟨hbytes, ?_, hsource⟩
  rw [hsource]
  exact ⟨rfl, Nat.le_add_right _ _, Nat.add_lt_add_left hplace _⟩

theorem Accepted.outputStore_element (h : j.Accepted) {k : Nat} (hk : k < j.geometry.tileGrid.size)
    {r q ch : Nat} (hr : r < (j.geometry.outRows k).len) (hq : q < (j.geometry.outCols k).len)
    (hch : ch < (j.geometry.chans (j.blockOf k)).len) :
    let p := (r * (j.geometry.outCols k).len + q) * (j.geometry.chans (j.blockOf k)).len + ch
    p < (j.outputStore k).byteCount ∧ j.InOutput ((j.outputStore k).target p) ∧
      (j.outputStore k).target p = ⟨.mid, j.params.midOutput.toNat + j.outputTensor.place
        ((j.geometry.outRows k).start + r) ((j.geometry.outCols k).start + q)
        ((j.geometry.chans (j.blockOf k)).start + ch)⟩ := by
  intro p
  have hrow := Geometry.rowBlock_lt h.tiled h.small k
  have hcol := Geometry.colBlock_lt h.tiled h.small k
  obtain ⟨hbytes, haddress, hplace⟩ := h.outputTensor_narrow.boxOf_element
    (Axis.low_of_tiled h.tiled.rows h.small.rows hrow).1
    (Axis.low_of_tiled h.tiled.cols h.small.cols hcol).1
    (Geometry.chans_low h.tiled h.small (blockOf_lt hk)) (Axis.outStop_le h.tiled.rows hrow)
    (Axis.outStop_le h.tiled.cols hcol) (Geometry.chanStop_le h.tiled (blockOf_lt hk)) hr hq hch
  have htarget : (j.outputStore k).target p = _ := congrArg (Endpoint.mk .mid) haddress
  refine ⟨hbytes, ?_, htarget⟩
  rw [htarget]
  exact ⟨rfl, Nat.le_add_right _ _, Nat.add_lt_add_left hplace _⟩

theorem Accepted.outputTile_pos (h : j.Accepted) {k : Nat} (hk : k < j.geometry.tileGrid.size) :
    0 < (j.geometry.outRows k).len ∧ 0 < (j.geometry.outCols k).len ∧
      0 < (j.geometry.chans (j.blockOf k)).len :=
  ⟨Axis.outLen_pos h.tiled.rows (Geometry.rowBlock_lt h.tiled h.small k),
    Axis.outLen_pos h.tiled.cols (Geometry.colBlock_lt h.tiled h.small k),
    Geometry.chanLen_pos h.tiled (blockOf_lt hk)⟩

theorem Accepted.outputStore_bytes (h : j.Accepted) {k : Nat} (hk : k < j.geometry.tileGrid.size) :
    (j.outputStore k).byteCount = (j.geometry.chans (j.blockOf k)).len *
      ((j.geometry.outCols k).len * (j.geometry.outRows k).len) := by
  obtain ⟨hrows, hcols, -⟩ := h.outputTile_pos hk
  obtain ⟨hboxed, -⟩ := h.outputStore_boxed hk
  rw [hboxed.byteCount_eq, Nat.max_eq_left (by omega), Nat.max_eq_left (by omega)]

/-- The write-back of a tile drains its output slot into the output tensor. -/
theorem Accepted.outputStore_moves (h : j.Accepted) {k : Nat} (hk : k < j.geometry.tileGrid.size)
    {p : Nat} (hp : p < (j.outputStore k).byteCount) :
    j.InSlot .output (.of k) ((j.outputStore k).source p) ∧
      j.InOutput ((j.outputStore k).target p) := by
  obtain ⟨-, hfit⟩ := h.outputStore_boxed hk
  refine ⟨inSlot_of_lt (Nat.lt_of_lt_of_le hp hfit), ?_⟩
  rw [h.outputStore_bytes hk] at hp
  obtain ⟨hr, hq, hch, hsplit⟩ := packed_digits hp
  rw [hsplit]
  exact (h.outputStore_element hk hr hq hch).2.1

/-- The element of the output tensor that is byte `p` of a tile. -/
theorem Accepted.output_position (h : j.Accepted) {k : Nat} (hk : k < j.geometry.tileGrid.size) {p : Nat}
    (hp : p < (j.outputStore k).byteCount) : ∃ r q,
      r < (j.geometry.outRows k).len ∧ q < (j.geometry.outCols k).len ∧
      p % (j.geometry.chans (j.blockOf k)).len < (j.geometry.chans (j.blockOf k)).len ∧
      p = (r * (j.geometry.outCols k).len + q) * (j.geometry.chans (j.blockOf k)).len +
        p % (j.geometry.chans (j.blockOf k)).len ∧
      (j.outputStore k).target p = ⟨.mid, j.params.midOutput.toNat + j.outputTensor.place
        ((j.geometry.outRows k).start + r) ((j.geometry.outCols k).start + q)
        ((j.geometry.chans (j.blockOf k)).start + p % (j.geometry.chans (j.blockOf k)).len)⟩ := by
  rw [h.outputStore_bytes hk] at hp
  obtain ⟨hr, hq, hch, hsplit⟩ := packed_digits hp
  refine ⟨_, _, hr, hq, hch, hsplit, ?_⟩
  have helement := (h.outputStore_element hk hr hq hch).2.2
  rw [← hsplit] at helement
  exact helement

/-- No two bytes of a tile are written back to the same place. -/
theorem Accepted.outputStore_target_inj (h : j.Accepted) {k : Nat}
    (hk : k < j.geometry.tileGrid.size) {p p' : Nat} (hp : p < (j.outputStore k).byteCount)
    (hp' : p' < (j.outputStore k).byteCount)
    (heq : (j.outputStore k).target p = (j.outputStore k).target p') : p = p' := by
  have hcols := Axis.outStop_le h.tiled.cols (Geometry.colBlock_lt h.tiled h.small k)
  obtain ⟨-, -, hchans⟩ := h.chanLen_facts (blockOf_lt hk)
  obtain ⟨r, q, -, hq, hch, hsplit, htarget⟩ := h.output_position hk hp
  obtain ⟨r', q', -, hq', hch', hsplit', htarget'⟩ := h.output_position hk hp'
  rw [htarget, htarget'] at heq
  have hplace : j.outputTensor.place _ _ _ = j.outputTensor.place _ _ _ :=
    Nat.add_left_cancel (congrArg Endpoint.addr heq)
  obtain ⟨hrow, hcol, hchan⟩ := index_inj (Nat.lt_of_lt_of_le (Nat.add_lt_add_left hq _) hcols)
    (Nat.lt_of_lt_of_le (Nat.add_lt_add_left hch _) hchans)
    (Nat.lt_of_lt_of_le (Nat.add_lt_add_left hq' _) hcols)
    (Nat.lt_of_lt_of_le (Nat.add_lt_add_left hch' _) hchans) hplace
  rw [hsplit, hsplit', Nat.add_left_cancel hrow, Nat.add_left_cancel hcol,
    Nat.add_left_cancel hchan]

theorem Accepted.weightLoads_box (h : j.Accepted) {b : Nat} (hb : b < j.geometry.tileGrid.channels)
    {w : Descriptor} (hw : w ∈ j.weightLoads b) : w.IsBox := by
  have hkappa := h.blob_lambda
  have hlambda := h.blob_total
  have hbias := h.scratch.bias
  have hsize : 8 * j.geometry.block.channels ≤ (j.scratch.slots .requant).slotSize :=
    h.scratch.requant_size
  have hslot := h.slot_le_start .requant (.of b)
  simp only [weightLoads, List.mem_cons, List.not_mem_nil, or_false] at hw
  rcases hw with rfl | rfl | rfl
  · exact ⟨_, _, _, _, _, (h.tapLoad_boxed hb).1⟩
  · refine ⟨_, _, _, _, _, (h.wordLoad_boxed hb (by omega) ?_).1⟩
    show j.scratch.slot .requant (.of b) ≤ _
    omega
  · refine ⟨_, _, _, _, _, (h.wordLoad_boxed hb (by omega) ?_).1⟩
    show j.scratch.slot .requant (.of b) + j.scratch.biasOffset ≤ _
    omega

/-- The taps of the channels of a block go to its weight slot. -/
theorem Accepted.tapLoad_moves (h : j.Accepted) {b : Nat} (hb : b < j.geometry.tileGrid.channels)
    {p : Nat} (hp : p < (j.tapLoad b).byteCount) :
    j.InBlob ((j.tapLoad b).source p) ∧ j.InSlot .weights (.of b) ((j.tapLoad b).target p) := by
  obtain ⟨-, -, hstop⟩ := h.chanLen_facts hb
  obtain ⟨hboxed, hbytes, hfit⟩ := h.tapLoad_boxed hb
  obtain ⟨hsource, htarget⟩ := hboxed.contiguous rfl hp ⟨rfl, .inr rfl⟩
  have hzero := h.blob_weights
  have htaps := h.taps_le
  have hstart := Nat.mul_le_mul_right j.taps hstop
  rw [Nat.add_mul] at hstart
  rw [hsource, htarget]
  refine ⟨⟨rfl, ?_, ?_⟩, rfl, ?_, ?_⟩ <;>
    simp only [tapLoad, blobAt, padAt, Scratch.slots] <;> omega

/-- Multipliers or biases go to the requantization slot of the block. -/
theorem Accepted.wordLoad_moves (h : j.Accepted) {b : Nat} (hb : b < j.geometry.tileGrid.channels)
    {array offset : Nat} (harray : array + 4 * j.geometry.input.channels ≤ j.blob.total)
    (hlo : j.scratch.slot .requant (.of b) ≤ offset)
    (hhi : offset + 4 * j.geometry.block.channels ≤
      j.scratch.slot .requant (.of b) + j.scratch.requant.slotSize)
    {p : Nat} (hp : p < (j.wordLoad array offset b).byteCount) :
    j.InBlob ((j.wordLoad array offset b).source p) ∧
      j.InSlot .requant (.of b) ((j.wordLoad array offset b).target p) := by
  obtain ⟨-, hle, hstop⟩ := h.chanLen_facts hb
  have hroom : j.scratch.slot .requant (.of b) + j.scratch.requant.slotSize ≤
      j.scratch.workspace.start := h.slot_le_start .requant (.of b)
  obtain ⟨hboxed, hbytes⟩ := h.wordLoad_boxed hb (show array ≤ j.blob.total by omega)
    (show offset ≤ j.scratch.workspace.start by omega)
  obtain ⟨hsource, htarget⟩ := hboxed.contiguous rfl hp ⟨rfl, .inl ⟨rfl, rfl⟩⟩
  rw [hbytes] at hp
  rw [hsource, htarget]
  refine ⟨⟨rfl, ?_, ?_⟩, rfl, ?_, ?_⟩ <;>
    simp only [wordLoad, blobAt, padAt, Scratch.slots] <;> omega

/-- The parts of a blob that the channels of a block take. -/
theorem Accepted.weightLoads_moves (h : j.Accepted) {b : Nat} (hb : b < j.geometry.tileGrid.channels)
    {w : Descriptor} (hw : w ∈ j.weightLoads b) :
    w.direction = .gather ∧ ∀ p < w.byteCount, j.InBlob (w.source p) ∧
      (j.InSlot .weights (.of b) (w.target p) ∨ j.InSlot .requant (.of b) (w.target p)) := by
  have hkappa := h.blob_kappa
  have hlambda := h.blob_lambda
  have htotal := h.blob_total
  have hbias := h.scratch.bias
  have hsize := h.scratch.requant_size
  simp only [weightLoads, List.mem_cons, List.not_mem_nil, or_false] at hw
  rcases hw with rfl | rfl | rfl
  · exact ⟨rfl, fun p hp => (h.tapLoad_moves hb hp).imp_right .inl⟩
  · refine ⟨rfl, fun p hp => (h.wordLoad_moves hb (by omega) (Nat.le_refl _) ?_ hp).imp_right .inr⟩
    show j.scratch.slot .requant (.of b) + _ ≤ _
    omega
  · refine ⟨rfl, fun p hp => (h.wordLoad_moves hb (by omega) ?_ ?_ hp).imp_right .inr⟩
    · show j.scratch.slot .requant (.of b) ≤ j.scratch.slot .requant (.of b) + _
      omega
    · show j.scratch.slot .requant (.of b) + j.scratch.biasOffset + _ ≤ _
      omega

end Job

end TileStream
