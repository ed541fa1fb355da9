import Mathlib.Data.List.Pairwise
import Mathlib.Tactic.Ring
import TileStream.Proofs.Layer.FlatTiles
import TileStream.Proofs.Memory.Words
import TileStream.Proofs.Transfer.AnyOrder

/-! # The weight blob, shared out to the channel blocks

The weights, multipliers and biases of the channel blocks are flat tiles of the
blob. Block after block they cover its three arrays, and nothing of the padding
between them. The three transfers of a block copy its parts of the arrays into
a slot, where every channel of the block finds what the blob stores for it. -/
namespace TileStream

open Unsigned Checked

namespace Shape

/-- A flat shape below the last address is addressed, unless it straddles the middle. -/
theorem Flat.addressed {s : Shape} {base : Nat} (h : s.Flat) (hend : base + s.byteCount < wordLimit)
    (hsize : s.byteCount ≤ 0x8000000000000000) (hmiddle : ¬ Straddles base s.byteCount .addOverflow) :
    s.Addressed base := by
  intro j hj
  have hle := Flat.run_le s hj
  obtain ⟨a, ha, rfl⟩ := (h.address_ends (Nat.le_of_lt hend) hsize hj).ok_of_never fun f hf =>
    hmiddle (hf.1 ▸ hf)
  exact ⟨_, ha, .inr (by omega)⟩

end Shape

namespace Tiles

/-- Tiles of a small layer that passes validation, with the weight blob in the address space. -/
structure Placed (t : Tiles) : Prop where
  tiled : t.geometry.Tiled
  small : t.geometry.Small
  blob : t.geometry.blob = .ok t.blob
  space : t.weights.addr + t.blob.total ≤ wordLimit

/-- The taps of a channel. -/
def taps (t : Tiles) : Nat := t.geometry.kernel * t.geometry.kernel

/-- The endpoint at an offset of the weight blob. -/
def blobAt (t : Tiles) (offset : Nat) : Endpoint := ⟨t.weights.tier, t.weights.addr + offset⟩

/-- The weights of channel block `b`. -/
def tapTile (t : Tiles) (b : Nat) : Tile where
  ext := t.blobAt (t.blob.weights + (t.geometry.chans b).start * t.taps)
  shape := .box t.taps 1 0 (t.geometry.chans b).len t.taps
  dims := ⟨t.geometry.kernel, t.geometry.kernel, (t.geometry.chans b).len⟩

/-- The part of channel block `b` of a 32-bit array at an offset of the blob. -/
def arrayTile (t : Tiles) (array b : Nat) : Tile where
  ext := t.blobAt (array + (t.geometry.chans b).start * 4)
  shape := .box ((t.geometry.chans b).len * 4) 1 0 1 0
  dims := ⟨1, 1, (t.geometry.chans b).len⟩

variable {t : Tiles} {b array : Nat}

namespace Placed

/-- The three arrays of the blob lie one after the other. -/
theorem arrays (h : t.Placed) : t.blob.weights = 0 ∧
    t.geometry.input.channels * t.taps ≤ t.blob.kappa ∧
      t.blob.kappa + t.geometry.input.channels * 4 = t.blob.lambda ∧
      t.blob.lambda + t.geometry.input.channels * 4 = t.blob.total := by
  obtain ⟨hweights, hkappa, hlambda, htotal⟩ := Job.blob_inv h.blob
  rw [Nat.mul_assoc] at hkappa
  exact ⟨hweights, hkappa, by omega, by omega⟩

theorem total_lt (h : t.Placed) : t.blob.total < 0x100000000000000 := by
  -- a fault is ruled out already
  have hany : Geometry.Overflows fun _ => True := ⟨trivial, trivial⟩
  have htotal := ((h.tiled.checks h.small).blob_ends (.inr hany)).of_eq_ok h.blob
  have hvolume := h.small.volume_le
  omega

theorem taps_pos (h : t.Placed) : 0 < t.taps :=
  Nat.mul_pos h.tiled.rows.kernel_pos h.tiled.rows.kernel_pos

theorem chans_facts (h : t.Placed) (hb : b < t.geometry.tileGrid.channels) :
    0 < (t.geometry.chans b).len ∧
      (t.geometry.chans b).start + (t.geometry.chans b).len ≤ t.geometry.input.channels :=
  ⟨Geometry.chanLen_pos h.tiled hb, Geometry.chanStop_le h.tiled hb⟩

/-- The items of a channel block lie inside those of all channels. -/
theorem chans_items (h : t.Placed) (hb : b < t.geometry.tileGrid.channels) (m : Nat) :
    (t.geometry.chans b).start * m + (t.geometry.chans b).len * m ≤
      t.geometry.input.channels * m := by
  rw [← Nat.add_mul]
  exact Nat.mul_le_mul_right m (h.chans_facts hb).2

theorem tapTile_flat (h : t.Placed) (hb : b < t.geometry.tileGrid.channels) :
    (t.tapTile b).shape.Flat ∧
      (t.tapTile b).shape.byteCount = (t.geometry.chans b).len * t.taps :=
  ⟨Shape.box_flat h.taps_pos (.inr rfl), Shape.flat_byteCount (h.chans_facts hb).1⟩

theorem arrayTile_flat (h : t.Placed) (array : Nat) (hb : b < t.geometry.tileGrid.channels) :
    (t.arrayTile array b).shape.Flat ∧
      (t.arrayTile array b).shape.byteCount = (t.geometry.chans b).len * 4 := by
  refine ⟨Shape.box_flat (Nat.mul_pos (h.chans_facts hb).1 (by decide)) (.inl rfl), ?_⟩
  exact (Shape.flat_byteCount Nat.one_pos).trans (Nat.one_mul _)

/-! ## The tiles that are computed -/

theorem weightTile_ends (h : t.Placed) (hb : b < t.geometry.tileGrid.channels) :
    Ends (Straddles t.weights.addr t.blob.total) (· = t.tapTile b) (t.weightTile b) := by
  obtain ⟨hzero, hkappa, hlambda, htotal⟩ := h.arrays
  have hlen := (h.chans_facts hb).1
  have hitems := h.chans_items hb t.taps
  have hpos := Nat.mul_pos hlen h.taps_pos
  rw [weightTile_eq_bind h.tiled h.small hzero hb]
  have hin : t.blob.weights + (t.geometry.chans b).start * t.taps < t.blob.total := by omega
  exact (Endpoint.displace_ends hin h.space).bind_eq rfl

theorem wordTile_ends (h : t.Placed) (hb : b < t.geometry.tileGrid.channels)
    (harray : array + t.geometry.input.channels * 4 ≤ t.blob.total) :
    Ends (Straddles t.weights.addr t.blob.total) (· = t.arrayTile array b) (t.wordTile array b) := by
  have hlow := h.total_lt
  have hlen := (h.chans_facts hb).1
  have hitems := h.chans_items hb 4
  rw [wordTile_eq_bind h.tiled h.small (by omega) hb]
  have hin : array + (t.geometry.chans b).start * 4 < t.blob.total := by omega
  exact (Endpoint.displace_ends hin h.space).bind_eq rfl

theorem kappaTile_ends (h : t.Placed) (hb : b < t.geometry.tileGrid.channels) :
    Ends (Straddles t.weights.addr t.blob.total) (· = t.arrayTile t.blob.kappa b) (t.kappaTile b) := by
  obtain ⟨-, -, hlambda, htotal⟩ := h.arrays
  exact h.wordTile_ends hb (by omega)

theorem lambdaTile_ends (h : t.Placed) (hb : b < t.geometry.tileGrid.channels) :
    Ends (Straddles t.weights.addr t.blob.total) (· = t.arrayTile t.blob.lambda b)
      (t.lambdaTile b) := by
  obtain ⟨-, -, -, htotal⟩ := h.arrays
  exact h.wordTile_ends hb (by omega)

/-! ## What the tiles of all blocks cover -/

/-- The tiles of the blocks, `m` bytes for each channel, cover an array of the blob. -/
theorem coverBlocks_ends (h : t.Placed) {tile : Nat → Checked Tile} {result : Nat → Tile} {m : Nat}
    (htile : ∀ b < t.geometry.tileGrid.channels,
      Ends (Straddles t.weights.addr t.blob.total) (· = result b) (tile b))
    (hflat : ∀ b < t.geometry.tileGrid.channels, (result b).shape.Flat ∧
      (result b).shape.byteCount = (t.geometry.chans b).len * m)
    (hext : ∀ b, (result b).ext = t.blobAt (array + (t.geometry.chans b).start * m))
    (harray : array + t.geometry.input.channels * m ≤ t.blob.total) :
    Ends (Straddles t.weights.addr t.blob.total)
      (· = t.weights.span array (t.geometry.input.channels * m))
      (coverBlocks tile t.geometry.tileGrid.channels) := by
  have hlow := h.total_lt
  rw [← Geometry.flatMap_chans h.tiled]
  refine TileStream.coverBlocks_ends fun b hb => (htile b hb).bind_eq ?_
  obtain ⟨hshape, hbytes⟩ := hflat b hb
  have hitems := h.chans_items hb m
  rw [← hbytes]
  exact hshape.covers_within_ends (hext b) (by omega) h.space (by omega)

theorem weights_covered (h : t.Placed) :
    Ends (Straddles t.weights.addr t.blob.total)
      (· = t.weights.span 0 (t.geometry.input.channels * t.taps))
      (coverBlocks t.weightTile t.geometry.tileGrid.channels) := by
  obtain ⟨hzero, hkappa, hlambda, htotal⟩ := h.arrays
  rw [← hzero]
  exact h.coverBlocks_ends (fun b hb => h.weightTile_ends hb) (fun b hb => h.tapTile_flat hb)
    (fun b => rfl) (by omega)

theorem kappa_covered (h : t.Placed) :
    Ends (Straddles t.weights.addr t.blob.total)
      (· = t.weights.span t.blob.kappa (t.geometry.input.channels * 4))
      (coverBlocks t.kappaTile t.geometry.tileGrid.channels) := by
  obtain ⟨-, -, hlambda, htotal⟩ := h.arrays
  exact h.coverBlocks_ends (fun b hb => h.kappaTile_ends hb) (fun b hb => h.arrayTile_flat _ hb)
    (fun b => rfl) (by omega)

theorem lambda_covered (h : t.Placed) :
    Ends (Straddles t.weights.addr t.blob.total)
      (· = t.weights.span t.blob.lambda (t.geometry.input.channels * 4))
      (coverBlocks t.lambdaTile t.geometry.tileGrid.channels) := by
  obtain ⟨-, -, -, htotal⟩ := h.arrays
  exact h.coverBlocks_ends (fun b hb => h.lambdaTile_ends hb) (fun b hb => h.arrayTile_flat _ hb)
    (fun b => rfl) (by omega)

end Placed

end Tiles

/-! ## Loading a slot -/

namespace Descriptor

/-- Two transfers fill disjoint ranges on the packed side. -/
def PackedApart (d d' : Descriptor) : Prop := Apart d.loc.addr d.byteCount d'.loc.addr d'.byteCount

instance : Std.Symm PackedApart := ⟨fun _ _ h => h.symm⟩

/-- A byte that gathering transfers to disjoint ranges fill comes from where its transfer reads it, if none
of them writes there. -/
theorem origin_of_packedApart {ds : List Descriptor} (hgather : ∀ d ∈ ds, d.direction = .gather)
    (hapart : ds.Pairwise PackedApart) {d : Descriptor} (hd : d ∈ ds) {p : Nat} (hp : p < d.byteCount)
    (hquiet : Untouched ds (d.source p)) : Origin ds (d.target p) (d.source p) := by
  refine .copied hquiet ⟨d, hd, p, hp, rfl⟩ fun d' hd' p' hp' htarget => ?_
  simp only [target, hgather d hd, hgather d' hd'] at htarget
  have haddr : d'.loc.addr + p' = d.loc.addr + p := congrArg Endpoint.addr htarget
  by_cases hsame : d' = d
  · rw [hsame, show p' = p by rw [hsame] at haddr; omega]
  · have hdisjoint : Apart _ _ _ _ := hapart.forall hd' hd hsame
    unfold Apart at hdisjoint
    omega

end Descriptor

namespace Job

variable {j : Job} {b first offset len p : Nat} {slot : Parity} {d : Descriptor}

/-- Bring the weights and the requant arrays of a channel block into a slot. -/
def loadBlock (j : Job) (b : Nat) (slot : Parity) : Stateful Memory Unit := do
  let transfers ← (j.weightTransfers b slot : Checked _)
  transfers.forM Descriptor.move

/-- The blob of a job is placed and its scratchpad planned for the same layer, and they do not overlap. -/
structure Supplied (j : Job) : Prop where
  placed : j.tiles.Placed
  planned : Scratch.plan j.tiles.geometry = .ok j.scratch
  apart : j.tiles.weights.tier = .scratchpad → Apart j.tiles.weights.addr j.tiles.blob.total
    j.params.localBase.toNat j.scratch.total

/-- What a slot holds after the load of a channel block: for every channel of the block, what the blob had
for it before. -/
structure HoldsBlock (j : Job) (b : Nat) (slot : Parity) (before after : Memory) : Prop where
  weight : ∀ c < (j.tiles.geometry.chans b).len, ∀ kh < j.tiles.geometry.kernel,
    ∀ kw < j.tiles.geometry.kernel,
      after.image (j.padAt (j.scratch.slot .weights slot +
        ((c * j.tiles.geometry.kernel + kh) * j.tiles.geometry.kernel + kw))) =
      before.image (j.tiles.blobAt (((b * j.tiles.geometry.block.channels + c) *
        j.tiles.geometry.kernel + kh) * j.tiles.geometry.kernel + kw))
  kappa : ∀ c < (j.tiles.geometry.chans b).len,
    (after.bank .scratchpad).int32At (j.padAt (j.scratch.kappaOffset slot + 4 * c)).addr =
      (before.bank j.tiles.weights.tier).int32At (j.tiles.blobAt (j.tiles.blob.kappa +
        4 * (b * j.tiles.geometry.block.channels + c))).addr
  lambda : ∀ c < (j.tiles.geometry.chans b).len,
    (after.bank .scratchpad).int32At (j.padAt (j.scratch.lambdaOffset slot + 4 * c)).addr =
      (before.bank j.tiles.weights.tier).int32At (j.tiles.blobAt (j.tiles.blob.lambda +
        4 * (b * j.tiles.geometry.block.channels + c))).addr

/-- A transfer that copies `len` bytes of the blob, from byte `first` on, to an offset of the scratchpad. -/
structure Copies (j : Job) (first offset len : Nat) (d : Descriptor) : Prop where
  direction : d.direction = .gather
  ext : d.ext = j.tiles.blobAt first
  loc : d.loc = j.padAt offset
  flat : d.shape.Flat
  bytes : d.byteCount = len
  within : first + len ≤ j.tiles.blob.total
  room : offset + len ≤ j.scratch.workspace.start

/-- The transfer that brings the weights of channel block `b` into a slot. -/
def tapMove (j : Job) (b : Nat) (slot : Parity) : Descriptor :=
  ⟨.weights, .gather, (j.tiles.tapTile b).ext, j.padAt (j.scratch.slot .weights slot),
    (j.tiles.tapTile b).shape⟩

/-- The transfer that brings its part of a 32-bit array to an offset of the scratchpad. -/
def arrayMove (j : Job) (array offset b : Nat) : Descriptor :=
  ⟨.requant, .gather, (j.tiles.arrayTile array b).ext, j.padAt offset,
    (j.tiles.arrayTile array b).shape⟩

/-- The transfers that bring channel block `b` into a slot. -/
def blockMoves (j : Job) (b : Nat) (slot : Parity) : List Descriptor :=
  [j.tapMove b slot, j.arrayMove j.tiles.blob.kappa (j.scratch.kappaOffset slot) b,
    j.arrayMove j.tiles.blob.lambda (j.scratch.lambdaOffset slot) b]

namespace Supplied

theorem partitions (h : j.Supplied) : j.scratch.Partitions j.tiles.geometry :=
  Scratch.plan_inv h.placed.tiled.bits h.planned

/-- The slots lie low in the address space. -/
theorem low (h : j.Supplied) :
    j.params.localBase.toNat + j.scratch.workspace.start ≤ 0x200000000000000 := by
  have hany : Geometry.Overflows fun _ => True := ⟨trivial, trivial⟩
  have hchecks := h.placed.tiled.checks h.placed.small
  obtain ⟨hstart, -⟩ := (hchecks.plan_ends (.inr hany)).of_eq_ok h.planned
  have hvolume := h.placed.small.volume_le
  have hbase := j.params.localBase.toNat_lt
  omega

theorem pad_eq (h : j.Supplied) (hle : offset ≤ j.scratch.workspace.start) :
    j.pad offset = .ok (j.padAt offset) := by
  have := h.low
  rw [pad, add_of_lt (by omega)]
  rfl

/-- Where the weights and the requant arrays of a block have room. -/
theorem slots_room (h : j.Supplied) (slot : Parity) :
    j.scratch.slot .weights slot + j.tiles.geometry.block.channels * j.tiles.taps ≤
        j.scratch.kappaOffset slot ∧
      j.scratch.kappaOffset slot + j.tiles.geometry.block.channels * 4 = j.scratch.lambdaOffset slot ∧
      j.scratch.lambdaOffset slot + j.tiles.geometry.block.channels * 4 ≤
        j.scratch.workspace.start := by
  have hweights := h.partitions.weights_size
  have hbelow := h.partitions.weights_below_requant slot slot
  have hrequant := h.partitions.requant_size
  have hlast := h.partitions.slot_le_start .requant slot
  have hbias := h.partitions.bias
  rw [Nat.mul_assoc] at hweights
  simp only [Scratch.slot, Scratch.slots, Scratch.kappaOffset, Scratch.lambdaOffset, Tiles.taps] at *
  exact ⟨by omega, by omega, by omega⟩

theorem weightTransfers_ends (h : j.Supplied) (hb : b < j.tiles.geometry.tileGrid.channels)
    (slot : Parity) : Ends (Straddles j.tiles.weights.addr j.tiles.blob.total)
      (· = j.blockMoves b slot) (j.weightTransfers b slot) := by
  obtain ⟨hweights, hkappa, hlambda⟩ := h.slots_room slot
  refine (h.placed.weightTile_ends hb).bind_eq ?_
  refine (h.placed.kappaTile_ends hb).bind_eq ?_
  refine (h.placed.lambdaTile_ends hb).bind_eq ?_
  rw [h.pad_eq (by omega), Checked.ok_bind, h.pad_eq (by omega), Checked.ok_bind,
    h.pad_eq (by omega)]
  exact rfl

theorem tapMove_copies (h : j.Supplied) (hb : b < j.tiles.geometry.tileGrid.channels) (slot : Parity) :
    j.Copies (j.tiles.blob.weights + (j.tiles.geometry.chans b).start * j.tiles.taps)
      (j.scratch.slot .weights slot) ((j.tiles.geometry.chans b).len * j.tiles.taps)
      (j.tapMove b slot) := by
  obtain ⟨hflat, hbytes⟩ := h.placed.tapTile_flat hb
  obtain ⟨hzero, hkappa, hlambda, htotal⟩ := h.placed.arrays
  have hitems := h.placed.chans_items hb j.tiles.taps
  have hlen := Nat.mul_le_mul_right j.tiles.taps (j.tiles.geometry.chanLen_le b)
  obtain ⟨hweights, hbias, hlast⟩ := h.slots_room slot
  refine ⟨rfl, rfl, rfl, hflat, hbytes, by omega, ?_⟩
  change (j.tiles.geometry.chans b).len * _ ≤ _ at hlen
  omega

theorem arrayMove_copies (h : j.Supplied) (hb : b < j.tiles.geometry.tileGrid.channels) {array : Nat}
    (harray : array + j.tiles.geometry.input.channels * 4 ≤ j.tiles.blob.total)
    (hroom : offset + j.tiles.geometry.block.channels * 4 ≤ j.scratch.workspace.start) :
    j.Copies (array + (j.tiles.geometry.chans b).start * 4) offset
      ((j.tiles.geometry.chans b).len * 4) (j.arrayMove array offset b) := by
  obtain ⟨hflat, hbytes⟩ := h.placed.arrayTile_flat array hb
  have hitems := h.placed.chans_items hb 4
  have hlen : (j.tiles.geometry.chans b).len ≤ j.tiles.geometry.block.channels :=
    j.tiles.geometry.chanLen_le b
  exact ⟨rfl, rfl, rfl, hflat, hbytes, by omega, by omega⟩

theorem kappaMove_copies (h : j.Supplied) (hb : b < j.tiles.geometry.tileGrid.channels)
    (slot : Parity) :
    j.Copies (j.tiles.blob.kappa + (j.tiles.geometry.chans b).start * 4) (j.scratch.kappaOffset slot)
      ((j.tiles.geometry.chans b).len * 4)
      (j.arrayMove j.tiles.blob.kappa (j.scratch.kappaOffset slot) b) := by
  obtain ⟨-, -, hlambda, htotal⟩ := h.placed.arrays
  obtain ⟨-, hbias, hlast⟩ := h.slots_room slot
  exact h.arrayMove_copies hb (by omega) (by omega)

theorem lambdaMove_copies (h : j.Supplied) (hb : b < j.tiles.geometry.tileGrid.channels)
    (slot : Parity) :
    j.Copies (j.tiles.blob.lambda + (j.tiles.geometry.chans b).start * 4)
      (j.scratch.lambdaOffset slot) ((j.tiles.geometry.chans b).len * 4)
      (j.arrayMove j.tiles.blob.lambda (j.scratch.lambdaOffset slot) b) := by
  obtain ⟨-, -, -, htotal⟩ := h.placed.arrays
  obtain ⟨-, -, hlast⟩ := h.slots_room slot
  exact h.arrayMove_copies hb (by omega) hlast

theorem blockMoves_copy (h : j.Supplied) (hb : b < j.tiles.geometry.tileGrid.channels)
    (slot : Parity) {d : Descriptor} (hd : d ∈ j.blockMoves b slot) :
    ∃ first offset len, j.Copies first offset len d := by
  simp only [blockMoves, List.mem_cons, List.not_mem_nil, or_false] at hd
  rcases hd with rfl | rfl | rfl
  · exact ⟨_, _, _, h.tapMove_copies hb slot⟩
  · exact ⟨_, _, _, h.kappaMove_copies hb slot⟩
  · exact ⟨_, _, _, h.lambdaMove_copies hb slot⟩

/-- The transfers of a block fill ranges that lie one after the other. -/
theorem blockMoves_apart (h : j.Supplied) (hb : b < j.tiles.geometry.tileGrid.channels)
    (slot : Parity) : (j.blockMoves b slot).Pairwise Descriptor.PackedApart := by
  obtain ⟨hweights, hbias, -⟩ := h.slots_room slot
  have htaps := (h.tapMove_copies hb slot).bytes
  have hkappa := (h.kappaMove_copies hb slot).bytes
  have hlen : (j.tiles.geometry.chans b).len ≤ j.tiles.geometry.block.channels :=
    j.tiles.geometry.chanLen_le b
  have hrows := Nat.mul_le_mul_right j.tiles.taps hlen
  simp only [blockMoves, List.pairwise_cons, List.mem_cons, List.not_mem_nil, or_false,
    forall_eq_or_imp, forall_eq, Descriptor.PackedApart, htaps, hkappa]
  simp only [Apart, tapMove, arrayMove, padAt]
  exact ⟨⟨.inl (by omega), .inl (by omega)⟩, .inl (by omega), fun _ hnone => absurd hnone id,
    .nil⟩

end Supplied

namespace Copies

/-- Byte `p` comes from byte `p` of the copied part of the blob. -/
theorem source (h : j.Copies first offset len d) (hplaced : j.tiles.Placed) (hp : p < len) :
    d.source p = j.tiles.blobAt (first + p) := by
  have hwithin := h.within
  have hspace := hplaced.space
  have hbytes : d.shape.byteCount = len := h.bytes
  have haddr : d.ext.addr = j.tiles.weights.addr + first := congrArg Endpoint.addr h.ext
  have htier : d.ext.tier = (j.tiles.blobAt first).tier := congrArg Endpoint.tier h.ext
  simp only [Descriptor.source, h.direction]
  rw [h.flat.byteAddress_eq (by omega) (by omega), haddr, htier, Nat.add_assoc]
  rfl

theorem target (h : j.Copies first offset len d) (p : Nat) :
    d.target p = j.padAt (offset + p) := by
  simp only [Descriptor.target, h.direction, h.loc, padAt, Nat.add_assoc]

theorem sourceTier (h : j.Copies first offset len d) : d.sourceTier = j.tiles.weights.tier := by
  rw [Descriptor.sourceTier, h.direction, h.ext]
  rfl

theorem packed (h : j.Copies first offset len d) (hj : j.Supplied) :
    AccessFits d.loc.addr d.byteCount := by
  have hroom := h.room
  have hlow := hj.low
  rw [h.bytes, h.loc]
  refine .inr ?_
  show j.params.localBase.toNat + offset + len < _
  unfold wordLimit
  omega

/-- No copied byte lies where a transfer of the blob writes. -/
theorem source_ne_target (h : j.Copies first offset len d) (hj : j.Supplied) (hp : p < len)
    {first' offset' len' p' : Nat} {d' : Descriptor} (h' : j.Copies first' offset' len' d')
    (hp' : p' < len') : d'.target p' ≠ d.source p := by
  rw [h'.target, h.source hj.placed hp]
  intro heq
  have hapart := hj.apart (congrArg Endpoint.tier heq).symm
  have haddr : j.params.localBase.toNat + (offset' + p') = j.tiles.weights.addr + (first + p) :=
    congrArg Endpoint.addr heq
  have hwithin := h.within
  have hroom := h'.room
  have htotal := hj.partitions.total
  unfold Apart at hapart
  omega

/-- A transfer of the blob fits, if the blob neither straddles the middle of the address space nor ends with
the last address. -/
theorem fits (h : j.Copies first offset len d) (hj : j.Supplied)
    (hmiddle : ¬ Straddles j.tiles.weights.addr j.tiles.blob.total .addOverflow)
    (hend : j.tiles.weights.addr + j.tiles.blob.total < wordLimit) : d.Fits := by
  have hwithin := h.within
  have hlow := hj.placed.total_lt
  have hbytes : d.shape.byteCount = len := h.bytes
  have haddr : d.ext.addr = j.tiles.weights.addr + first := congrArg Endpoint.addr h.ext
  refine ⟨⟨h.flat.addressed (by omega) (by omega) fun hstraddles => ?_, h.packed hj⟩, ?_⟩
  · obtain ⟨-, hbelow, habove⟩ := hstraddles
    exact hmiddle ⟨rfl, by omega, by omega⟩
  · rw [h.bytes]
    unfold maxBuffer
    omega

end Copies

namespace Supplied

/-- The transfers of a block that finish have copied the blob to the slot. -/
theorem copied (h : j.Supplied) {ds : List Descriptor}
    (hcopies : ∀ d ∈ ds, ∃ first offset len, j.Copies first offset len d)
    (hapart : ds.Pairwise Descriptor.PackedApart) {m m' : Memory}
    (hmoves : ds.forM Descriptor.move m = .ok () m') (hd : d ∈ ds)
    (hcopy : j.Copies first offset len d) (hp : p < len) :
    m'.image (j.padAt (offset + p)) = m.image (j.tiles.blobAt (first + p)) := by
  have himage : m'.image = m.image.applyAll ds := by
    refine Descriptor.moveAll_inv (fun d' hd' m₁ m₂ hmove => ?_) hmoves
    obtain ⟨_, _, _, hcopy'⟩ := hcopies d' hd'
    exact Descriptor.addressed_of_move hcopy'.direction (hcopy'.packed h) hmove
  have hgather : ∀ d' ∈ ds, d'.direction = .gather := by
    intro d' hd'
    obtain ⟨_, _, _, hcopy'⟩ := hcopies d' hd'
    exact hcopy'.direction
  have hquiet : Untouched ds (d.source p) := by
    intro d' hd' p' hp'
    obtain ⟨_, _, _, hcopy'⟩ := hcopies d' hd'
    exact hcopy.source_ne_target h hp hcopy' (by rwa [← hcopy'.bytes])
  have hbytes := hcopy.bytes
  rw [himage, ← hcopy.target, ← hcopy.source h.placed hp]
  exact (Covers.self ds).origin
    (Descriptor.origin_of_packedApart hgather hapart hd (by omega) hquiet)

/-- A part of a 32-bit array that has been copied holds the same words. -/
theorem copied_words {before after : Memory} {array c : Nat}
    (hcopied : ∀ p < (j.tiles.geometry.chans b).len * 4, after.image (j.padAt (offset + p)) =
      before.image (j.tiles.blobAt (array + (j.tiles.geometry.chans b).start * 4 + p)))
    (hc : c < (j.tiles.geometry.chans b).len) :
    (after.bank .scratchpad).int32At (j.padAt (offset + 4 * c)).addr =
      (before.bank j.tiles.weights.tier).int32At
        (j.tiles.blobAt (array + 4 * (b * j.tiles.geometry.block.channels + c))).addr := by
  refine Bank.int32At_congr fun i hi => ?_
  have hword := hcopied (4 * c + i) (by omega)
  have hplace : array + (j.tiles.geometry.chans b).start * 4 + (4 * c + i) =
      array + 4 * (b * j.tiles.geometry.block.channels + c) + i := by
    show array + b * j.tiles.geometry.block.channels * 4 + (4 * c + i) = _
    omega
  rw [hplace] at hword
  simpa only [Memory.image, Memory.byteAt, padAt, Tiles.blobAt, Nat.add_assoc] using hword

/-- Tap `kh`, `kw` of channel `c` of a block, among the taps of the block and among those of the layer. -/
theorem tap_place (h : j.Supplied) {c kh kw : Nat} (hc : c < (j.tiles.geometry.chans b).len)
    (hkh : kh < j.tiles.geometry.kernel) (hkw : kw < j.tiles.geometry.kernel) :
    (c * j.tiles.geometry.kernel + kh) * j.tiles.geometry.kernel + kw <
        (j.tiles.geometry.chans b).len * j.tiles.taps ∧
      j.tiles.blob.weights + (j.tiles.geometry.chans b).start * j.tiles.taps +
        ((c * j.tiles.geometry.kernel + kh) * j.tiles.geometry.kernel + kw) =
      ((b * j.tiles.geometry.block.channels + c) * j.tiles.geometry.kernel + kh) *
        j.tiles.geometry.kernel + kw := by
  obtain ⟨hzero, -⟩ := h.placed.arrays
  constructor
  · rw [Tiles.taps, ← Nat.mul_assoc]
    exact index_lt hc hkh hkw
  · show j.tiles.blob.weights + b * j.tiles.geometry.block.channels * j.tiles.taps + _ = _
    rw [hzero, Tiles.taps]
    ring

/-- **A finished load leaves the slot with what the blob stores for the channels of the block.** -/
theorem holdsBlock (h : j.Supplied) (hb : b < j.tiles.geometry.tileGrid.channels) {m m' : Memory}
    (hload : j.loadBlock b slot m = .ok () m') : j.HoldsBlock b slot m m' := by
  obtain ⟨ds, hds, hmoves⟩ := Stateful.lift_bind_eq_ok.mp hload
  obtain rfl : ds = j.blockMoves b slot := (h.weightTransfers_ends hb slot).of_eq_ok hds
  have hcopied {d : Descriptor} (hd : d ∈ j.blockMoves b slot) {first offset len : Nat}
      (hcopy : j.Copies first offset len d) : ∀ p < len,
        m'.image (j.padAt (offset + p)) = m.image (j.tiles.blobAt (first + p)) := fun p hp =>
    h.copied (fun d hd => h.blockMoves_copy hb slot hd) (h.blockMoves_apart hb slot) hmoves hd hcopy hp
  have htaps := hcopied (by simp [blockMoves]) (h.tapMove_copies hb slot)
  have hkappa := hcopied (by simp [blockMoves]) (h.kappaMove_copies hb slot)
  have hlambda := hcopied (by simp [blockMoves]) (h.lambdaMove_copies hb slot)
  refine ⟨fun c hc kh hkh kw hkw => ?_, fun c hc => copied_words hkappa hc,
    fun c hc => copied_words hlambda hc⟩
  obtain ⟨hlt, hplace⟩ := h.tap_place hc hkh hkw
  rw [htaps _ hlt, hplace]

theorem blockMoves_readBytes (h : j.Supplied) (hb : b < j.tiles.geometry.tileGrid.channels)
    (slot : Parity) :
    readBytes j.tiles.weights.tier (j.blockMoves b slot) ≤ j.tiles.blob.total := by
  obtain ⟨hzero, hkappa, hlambda, htotal⟩ := h.placed.arrays
  have htaps := h.tapMove_copies hb slot
  have hkappas := h.kappaMove_copies hb slot
  have hlambdas := h.lambdaMove_copies hb slot
  have hrows := h.placed.chans_items hb j.tiles.taps
  have hwords := h.placed.chans_items hb 4
  rw [readBytes_eq_sum fun d hd => ?_]
  · simp only [blockMoves, List.map_cons, List.map_nil, List.sum_cons, List.sum_nil, htaps.bytes,
      hkappas.bytes, hlambdas.bytes]
    omega
  · obtain ⟨_, _, _, hcopy⟩ := h.blockMoves_copy hb slot hd
    exact hcopy.sourceTier

/-- A load finishes if the blob neither straddles the middle of the address space nor ends with the last
address, and if the read counter of its tier has room for it. -/
theorem loadBlock_exists (h : j.Supplied) (hb : b < j.tiles.geometry.tileGrid.channels)
    (slot : Parity) (hmiddle : ¬ Straddles j.tiles.weights.addr j.tiles.blob.total .addOverflow)
    (hend : j.tiles.weights.addr + j.tiles.blob.total < wordLimit) {m : Memory}
    (hroom : m.readCount j.tiles.weights.tier + j.tiles.blob.total < wordLimit) :
    ∃ m', j.loadBlock b slot m = .ok () m' := by
  obtain ⟨ds, hds, rfl⟩ := (h.weightTransfers_ends hb slot).ok_of_never fun f hf =>
    hmiddle (hf.1 ▸ hf)
  have hbytes := h.blockMoves_readBytes hb slot
  have hfits : ∀ d ∈ j.blockMoves b slot, d.Fits := by
    intro d hd
    obtain ⟨_, _, _, hcopy⟩ := h.blockMoves_copy hb slot hd
    exact hcopy.fits h hmiddle hend
  obtain ⟨m', hmoves⟩ := Descriptor.moveAll_exists hfits (m := m) fun d hd => by
    obtain ⟨_, _, _, hcopy⟩ := h.blockMoves_copy hb slot hd
    rw [hcopy.sourceTier]
    omega
  exact ⟨m', Stateful.lift_bind_eq_ok.mpr ⟨_, hds, hmoves⟩⟩

end Supplied

end Job

/-- **The tiles of a weight blob partition it.** In a small layer that passes validation the three arrays of
the blob lie one after the other, and wherever the blob lies in the address space, the tiles of the
channel blocks cover each array, byte after byte, and nothing else; or an address is not computed,
because the blob straddles the middle of the address space. The transfers of a block into a slot, if
they finish, leave every channel of the block with what the blob stores for it; they do finish if the
blob neither straddles the middle nor ends with the last address, and its bytes fit the read counter. -/
theorem weight_tiles_partition_blob {g : Geometry} (hsmall : g.Small)
    (hworkspace : g.workspaceBytes < 0x10000) (hvalid : g.validate.run = .ok (.ok ()))
    (input output weights : Endpoint) :
    ∃ t grid scratch, Tiles.place g input output weights = .ok t ∧ g.grid = .ok grid ∧
      Scratch.plan g = .ok scratch ∧
      g.input.channels * (g.kernel * g.kernel) ≤ t.blob.kappa ∧
      t.blob.kappa + g.input.channels * 4 = t.blob.lambda ∧
      t.blob.lambda + g.input.channels * 4 = t.blob.total ∧
      (weights.addr + t.blob.total ≤ wordLimit →
        (Ends (Straddles weights.addr t.blob.total)
            (· = weights.span 0 (g.input.channels * (g.kernel * g.kernel)))
            (coverBlocks t.weightTile grid.channels) ∧
          Ends (Straddles weights.addr t.blob.total)
            (· = weights.span t.blob.kappa (g.input.channels * 4))
            (coverBlocks t.kappaTile grid.channels) ∧
          Ends (Straddles weights.addr t.blob.total)
            (· = weights.span t.blob.lambda (g.input.channels * 4))
            (coverBlocks t.lambdaTile grid.channels)) ∧
        ∀ j : Job, j.tiles = t → j.scratch = scratch →
          (weights.tier = .scratchpad →
            Apart weights.addr t.blob.total j.params.localBase.toNat scratch.total) →
          ∀ b < grid.channels, ∀ (slot : Parity) (m : Memory),
            (∀ m', j.loadBlock b slot m = .ok () m' → j.HoldsBlock b slot m m') ∧
            (¬ Straddles weights.addr t.blob.total .addOverflow →
              weights.addr + t.blob.total < wordLimit →
              m.readCount weights.tier + t.blob.total < wordLimit →
              ∃ m', j.loadBlock b slot m = .ok () m')) := by
  have htiled := Geometry.validate_inv hvalid
  obtain ⟨blob, hblob, hplace⟩ := Tiles.place_eq htiled hsmall input output weights
  have hplan : Ends (fun _ => False) _ (Scratch.plan g) :=
    (htiled.checks hsmall).plan_ends (.inl (hsmall.handy hworkspace))
  obtain ⟨scratch, hscratch, -⟩ := hplan.ok_of_never fun _ => id
  obtain ⟨-, hkappa, hlambda, htotal⟩ := Job.blob_inv hblob
  rw [Nat.mul_assoc] at hkappa
  refine ⟨_, _, scratch, hplace, Geometry.grid_eq htiled hsmall, hscratch, hkappa,
    show blob.kappa + _ = blob.lambda by omega, show blob.lambda + _ = blob.total by omega,
    fun hspace => ?_⟩
  have hplaced : Tiles.Placed ⟨g, ⟨g.input, 8, input⟩, ⟨g.outExtents, 8, output⟩, weights, blob⟩ :=
    ⟨htiled, hsmall, hblob, hspace⟩
  refine ⟨⟨hplaced.weights_covered, hplaced.kappa_covered, hplaced.lambda_covered⟩, ?_⟩
  rintro ⟨geometry, params, settings, _, _, jobBlob⟩ rfl rfl hapart b hb slot m
  have hsupplied : Job.Supplied ⟨geometry, params, settings, _, _, jobBlob⟩ :=
    ⟨hplaced, hscratch, hapart⟩
  exact ⟨fun m' hload => hsupplied.holdsBlock hb hload, fun hmiddle hend hroom =>
    hsupplied.loadBlock_exists hb slot hmiddle hend hroom⟩

/-- The small layer, with its blob of 36 bytes in the mid tier, and the load of its second block. -/
theorem weight_tiles_partition_blob_small :
    smallLayer.validate.run = .ok (.ok ()) ∧ ∃ m,
      coverBlocks smallJob.tiles.weightTile 2 = .ok (Endpoint.span ⟨.mid, 0x1200⟩ 0 18) ∧
      coverBlocks smallJob.tiles.kappaTile 2 = .ok (Endpoint.span ⟨.mid, 0x1200⟩ 20 8) ∧
      coverBlocks smallJob.tiles.lambdaTile 2 = .ok (Endpoint.span ⟨.mid, 0x1200⟩ 28 8) ∧
      smallJob.loadBlock 1 .b (Memory.empty 0x1000) = .ok () m ∧
      smallJob.HoldsBlock 1 .b (Memory.empty 0x1000) m := by
  obtain ⟨t, grid, scratch, hplace, hgrid, hplan, -, -, -, hspace⟩ :=
    weight_tiles_partition_blob smallJob_promised.small (by decide) rfl ⟨.mid, 0x1000⟩ ⟨.mid, 0x1100⟩
      ⟨.mid, 0x1200⟩
  obtain rfl : smallJob.tiles = t := Except.ok.inj hplace
  obtain rfl : ⟨2, 2, 2⟩ = grid := Except.ok.inj hgrid
  obtain rfl : smallJob.scratch = scratch := Except.ok.inj hplan
  obtain ⟨⟨hweights, hkappa, hlambda⟩, hload⟩ := hspace (by decide)
  have hmiddle : ∀ f, ¬ Straddles 0x1200 36 f := fun _ hf => absurd hf.2.2 (by decide)
  obtain ⟨_, hweights, rfl⟩ := hweights.ok_of_never hmiddle
  obtain ⟨_, hkappa, rfl⟩ := hkappa.ok_of_never hmiddle
  obtain ⟨_, hlambda, rfl⟩ := hlambda.ok_of_never hmiddle
  obtain ⟨hholds, hfinish⟩ := hload smallJob rfl rfl (fun htier => by cases htier) 1 (by decide) .b
    (Memory.empty 0x1000)
  obtain ⟨m, hm⟩ := hfinish (hmiddle _) (by decide) (by decide)
  exact ⟨rfl, m, hweights, hkappa, hlambda, hm, hholds m hm⟩

/-- A layer of two channels with one tap each, in blocks of one channel. -/
def twoTapLayer : Geometry where
  input := ⟨2, 1, 1⟩
  kernel := 1
  stride := 1
  padding := .uniform 0
  block := ⟨1, 1, 1⟩
  elementBits := 8
  workspaceBytes := 0

/-- Its blob can lie on both sides of the middle of the address space, where the second block has no
address, or go on past the end, where the weights of the second block are the first byte of memory. -/
theorem blob_leaves_address_space :
    twoTapLayer.validate.run = .ok (.ok ()) ∧ twoTapLayer.Small ∧
    twoTapLayer.grid = .ok ⟨2, 1, 1⟩ ∧
    (∃ t, Tiles.place twoTapLayer ⟨.mid, 0⟩ ⟨.mid, 0⟩ ⟨.mid, 0x7fffffffffffffff⟩ = .ok t ∧
      coverBlocks t.weightTile 2 = .error .addOverflow) ∧
    ∃ t, Tiles.place twoTapLayer ⟨.mid, 0⟩ ⟨.mid, 0⟩ ⟨.mid, 0xffffffffffffffff⟩ = .ok t ∧
      coverBlocks t.weightTile 2 = .ok [⟨.mid, 0xffffffffffffffff⟩, ⟨.mid, 0⟩] := by
  refine ⟨rfl, ⟨?_, ?_, by decide, by decide⟩, rfl, ⟨_, rfl, rfl⟩, _, rfl, rfl⟩
  · exact ⟨by decide, by decide, by decide, by decide, by decide, by decide⟩
  · exact ⟨by decide, by decide, by decide, by decide, by decide, by decide⟩

end TileStream
