import TileStream.Proofs.Layer.Reservation

/-! # Every tile fits its slot

The partition is planned from upper bounds: the largest window of each axis and
the block of channels. Here every tile of the grid is held against it: what is
moved for a tile, where an axis without positions counts as the one position it is
moved as, ends within the slot that it is moved to, and the slots lie apart
(`tiles_fit_their_slots`). The tensors may lie anywhere; an address is not
computed only if its tensor lies high in the address space. -/
namespace TileStream

open Checked

/-- Moved to offset `start`, the tile ends at `stop` or before it. -/
def Tile.Fits (start stop : Nat) (tile : Tile) : Prop :=
  ∃ bytes, tile.shape.totalBytes = .ok bytes ∧ start + bytes ≤ stop

theorem Tile.fits_of_le {start stop : Nat} {tile : Tile} (h : start + tile.shape.byteCount ≤ stop)
    (hword : stop < wordLimit) : tile.Fits start stop := by
  have hbytes : tile.shape.byteCount < wordLimit := by omega
  exact ⟨_, Shape.totalBytes_eq_ok_iff.mpr ⟨hbytes, rfl⟩, h⟩

/-- The sum that overflows for an endpoint in the upper three quarters of the address space. -/
def Endpoint.High (e : Endpoint) (f : Fault) : Prop :=
  f = .addOverflow ∧ 0x4000000000000000 ≤ e.addr

theorem Endpoint.displace_ends_high {e : Endpoint} {n : Nat} (hn : n < 0x4000000000000000) :
    Ends e.High (fun _ => True) (e.displace (n : Int)) := by
  rcases Nat.lt_or_ge e.addr 0x4000000000000000 with hlow | hhigh
  · rw [displace_of_lt (by omega)]
    exact trivial
  · unfold displace Signed.add
    split
    · exact trivial
    · exact ⟨rfl, hhigh⟩

/-- A tile that is known but for its address fits as soon as its shape does. -/
theorem Tile.ends_fits {e : Endpoint} {n start stop : Nat} {f : Endpoint → Tile}
    (hn : n < 0x4000000000000000) (h : ∀ ext, (f ext).Fits start stop) :
    Ends e.High (Tile.Fits start stop) (do
      let ext ← e.displace (n : Int)
      return f ext) :=
  (Endpoint.displace_ends_high hn).bind fun ext _ => h ext

/-- The first offset past a slot. -/
def Scratch.slotStop (s : Scratch) (role : Role) (p : Parity) : Nat :=
  s.slot role p + (s.slots role).slotSize

/-! ## The regions -/

namespace Scratch

variable {g : Geometry} {s : Scratch}

theorem Partitions.slotStop_lt (h : s.Partitions g) (hword : s.total < wordLimit) (role : Role)
    (p : Parity) : s.slotStop role p < wordLimit := by
  have hstart := h.slot_le_start role p
  have htotal := h.total
  unfold slotStop
  omega

/-- Every region begins and ends at a multiple of four within the partition, and no two meet. -/
structure Separated (s : Scratch) : Prop where
  count : s.regions.length = 9
  aligned : ∀ r ∈ s.regions, r.2.1 % 4 = 0 ∧ r.2.2 % 4 = 0
  within : ∀ r ∈ s.regions, r.2.1 + r.2.2 ≤ s.total
  apart : s.regions.Pairwise fun r q => Apart r.2.1 r.2.2 q.2.1 q.2.2

theorem parts_aligned (h : s.Partitions g)
    (hsizes : (∀ role, (s.slots role).slotSize % 4 = 0) ∧ s.workspace.len % 4 = 0) :
    ∀ p ∈ s.parts, p.1 % 4 = 0 ∧ p.2 % 4 = 0 := by
  obtain ⟨hslots, hworkspace⟩ := hsizes
  have hinput : s.input.slotSize % 4 = 0 := hslots .input
  have hweights : s.weights.slotSize % 4 = 0 := hslots .weights
  have houtput : s.output.slotSize % 4 = 0 := hslots .output
  have hrequant : s.requant.slotSize % 4 = 0 := hslots .requant
  have hinputBase := h.input_base
  have houtputBase := h.output_base
  have hweightsBase := h.weights_base
  have hrequantBase := h.requant_base
  have hstart := h.workspace_start
  simp only [SlotPair.stop] at *
  intro p hp
  simp only [parts, List.mem_cons, List.not_mem_nil, or_false] at hp
  rcases hp with rfl | rfl | rfl | rfl | rfl | rfl | rfl | rfl | rfl <;>
    simp only [Scratch.slot, Scratch.slots, SlotPair.slot, Parity.index] <;> omega

theorem separated_of_plan (hbits : g.elementBits = 8) (h : plan g = .ok s) : s.Separated := by
  have hparts := plan_inv hbits h
  have hapart := hparts.parts_apart
  rw [← regions_parts, List.pairwise_map] at hapart
  exact {
    count := rfl
    aligned := fun r hr => parts_aligned hparts (plan_aligned h) r.2 (Job.part_of_region hr)
    within := fun r hr => hparts.parts_le (Job.part_of_region hr)
    apart := hapart }

end Scratch

/-! ## The tiles -/

/-- A box of a tensor fits where a box fits that is as large in every direction. -/
theorem Tensor.Packed.window_fits {t : Tensor} (h : t.Packed) {rows cols chans : Span}
    (hrows : rows.Low) (hcols : cols.Low) (hchans : chans.Low) {R C K : Nat} (hR : rows.len ≤ R)
    (hC : cols.len ≤ C) (hK : chans.len ≤ K) (hpos : 0 < R ∧ 0 < C) {start stop : Nat}
    (hroom : start + R * C * K ≤ stop) (hword : stop < wordLimit) :
    Ends t.base.High (Tile.Fits start stop) (t.window rows cols chans) := by
  obtain ⟨-, hdown, hacross⟩ := h.bounds hrows.1 hcols.1
  have hplace := t.place_eq rows.start cols.start chans.start
  have hstart := hchans.1
  rw [h.window_eq_bind hrows hcols hchans]
  refine Tile.ends_fits (by omega) fun ext => Tile.fits_of_le ?_ hword
  -- an empty side is moved as one position, so the sides of the slot have to be positive
  exact Nat.le_trans (Nat.add_le_add_left (Shape.box_byteCount_le hK hC hR hpos.2 hpos.1) _) hroom

namespace Tiles

variable {t : Tiles} {s : Scratch} {k b : Nat}

theorem inputTile_fits (h : t.geometry.Tiled) (hs : t.geometry.Small) (hpart : s.Partitions t.geometry)
    (hpacked : t.input.Packed) (hword : s.total < wordLimit) (hk : k < t.geometry.tileGrid.size)
    (p : Parity) : Ends t.input.base.High (Tile.Fits (s.slot .input p) (s.slotStop .input p))
      (t.inputTile (t.geometry.tileGrid.tileAt k)) := by
  have hrow := Geometry.rowBlock_lt h hs k
  have hcol := Geometry.colBlock_lt h hs k
  rw [inputTile_eq_window h hs hk]
  exact hpacked.window_fits (Axis.low_of_tiled h.rows hs.rows hrow).2
    (Axis.low_of_tiled h.cols hs.cols hcol).2 (Geometry.chans_low h hs (Grid.blockAt_lt hk))
    (Axis.inLen_le_window h.rows hrow) (Axis.inLen_le_window h.cols hcol) (t.geometry.chanLen_le _)
    ⟨Axis.window_pos h.rows, Axis.window_pos h.cols⟩ (Nat.add_le_add_left hpart.input_size _)
    (hpart.slotStop_lt hword .input p)

theorem outputTile_fits (h : t.geometry.Tiled) (hs : t.geometry.Small)
    (hpart : s.Partitions t.geometry) (hpacked : t.output.Packed) (hword : s.total < wordLimit)
    (hk : k < t.geometry.tileGrid.size) (p : Parity) :
    Ends t.output.base.High (Tile.Fits (s.slot .output p) (s.slotStop .output p))
      (t.outputTile (t.geometry.tileGrid.tileAt k)) := by
  have hrow := Geometry.rowBlock_lt h hs k
  have hcol := Geometry.colBlock_lt h hs k
  rw [outputTile_eq_window h hs hk]
  exact hpacked.window_fits (Axis.low_of_tiled h.rows hs.rows hrow).1
    (Axis.low_of_tiled h.cols hs.cols hcol).1 (Geometry.chans_low h hs (Grid.blockAt_lt hk))
    (Axis.outLen_le _ _ _) (Axis.outLen_le _ _ _) (t.geometry.chanLen_le _)
    ⟨h.rows.block_pos, h.cols.block_pos⟩ (Nat.add_le_add_left hpart.output_size _)
    (hpart.slotStop_lt hword .output p)

theorem weightTile_fits (h : t.geometry.Tiled) (hs : t.geometry.Small)
    (hpart : s.Partitions t.geometry) (hzero : t.blob.weights = 0) (hword : s.total < wordLimit)
    (hb : b < t.geometry.tileGrid.channels) (p : Parity) :
    Ends t.weights.High (Tile.Fits (s.slot .weights p) (s.slotStop .weights p))
      (t.weightTile b) := by
  have hkernel : t.geometry.kernel ≤ 0xffff := Nat.le_of_lt_succ hs.rows.kernel
  have hoffset := Nat.mul_le_mul (Nat.le_of_lt (Geometry.chans_low h hs hb).1)
    (Nat.mul_le_mul hkernel hkernel)
  have hbytes : ∀ run, (Shape.box run 1 0 (t.geometry.chans b).len run).byteCount ≤
      t.geometry.block.channels * 1 * run := fun run =>
    Shape.box_byteCount_le (Nat.le_refl _) (Nat.le_refl _) (t.geometry.chanLen_le b) (by decide)
      h.block_pos
  rw [weightTile_eq_bind h hs hzero hb]
  refine Tile.ends_fits (by omega) fun ext => Tile.fits_of_le ?_ (hpart.slotStop_lt hword .weights p)
  refine Nat.add_le_add_left (Nat.le_trans (hbytes _) ?_) _
  rw [Nat.mul_one, ← Nat.mul_assoc]
  exact hpart.weights_size

/-- The part of a 32-bit array for one channel block is not longer than four bytes for each channel. -/
theorem wordTile_fits (h : t.geometry.Tiled) (hs : t.geometry.Small) {array : Nat}
    (harray : array < 0x200000000000000) (hb : b < t.geometry.tileGrid.channels) {start stop : Nat}
    (hroom : start + 4 * t.geometry.block.channels ≤ stop) (hword : stop < wordLimit) :
    Ends t.weights.High (Tile.Fits start stop) (t.wordTile array b) := by
  have hstart := (Geometry.chans_low h hs hb).1
  have hlen : (t.geometry.chans b).len ≤ t.geometry.block.channels := t.geometry.chanLen_le b
  rw [wordTile_eq_bind h hs (by omega) hb]
  refine Tile.ends_fits (by omega) fun ext => Tile.fits_of_le ?_ hword
  rw [Shape.box_byteCount, Nat.max_self, Nat.mul_one]
  omega

end Tiles

/-- **Every tile fits its slot, and no two slots meet.** For every geometry that validation accepts, with
its tensors and its blob anywhere in the address space: the regions of the partition lie apart, and for every
tile and both parities the transfers of its window, its output box and the weights of its channels end
within the slot that they are moved to or from, the multipliers before the biases and these within their
slot. -/
theorem tiles_fit_their_slots {g : Geometry} (hsmall : g.Small) (hworkspace : g.workspaceBytes < 0x10000)
    (hvalid : g.validate.run = .ok (.ok ())) (input output weights : Endpoint) :
    ∃ s t grid, Scratch.plan g = .ok s ∧ Tiles.place g input output weights = .ok t ∧
      g.grid = .ok grid ∧ s.Separated ∧ ∀ c ∈ grid.tiles, ∀ p,
        Ends input.High (Tile.Fits (s.slot .input p) (s.slotStop .input p)) (t.inputTile c) ∧
        Ends output.High (Tile.Fits (s.slot .output p) (s.slotStop .output p)) (t.outputTile c) ∧
        Ends weights.High (Tile.Fits (s.slot .weights p) (s.slotStop .weights p))
          (t.weightTile c.outChannel) ∧
        Ends weights.High (Tile.Fits (s.kappaOffset p) (s.lambdaOffset p))
          (t.kappaTile c.outChannel) ∧
        Ends weights.High (Tile.Fits (s.lambdaOffset p) (s.slotStop .requant p))
          (t.lambdaTile c.outChannel) := by
  have htiled := Geometry.validate_inv hvalid
  have hhandy := hsmall.handy hworkspace
  have hchecks := htiled.checks hsmall
  obtain ⟨s, hplan, hstart, hend⟩ := (hchecks.plan_ends (.inl hhandy)).ok_of_never fun _ => id
  obtain ⟨blob, hblob, hplace⟩ := Tiles.place_eq htiled hsmall input output weights
  have hpart := Scratch.plan_inv htiled.bits hplan
  have hword : s.total < wordLimit := by
    have hvolume := hhandy.volume
    unfold wordLimit
    omega
  have hlow : blob.total < 0x200000000000000 := by
    have hends : Ends (fun _ => False) _ g.blob := hchecks.blob_ends (.inl hhandy)
    have hblobEnd := hends.of_eq_ok hblob
    have hvolume := hsmall.volume_le
    omega
  obtain ⟨hzero, -, hlambda, htotal⟩ := Job.blob_inv hblob
  have hinput : (Tensor.mk g.input 8 input).Packed :=
    ⟨rfl, hsmall.channels, Nat.lt_trans hsmall.cols.extent (by decide)⟩
  have houtput : (Tensor.mk g.outExtents 8 output).Packed :=
    ⟨rfl, hsmall.channels, hsmall.cols.outs_lt⟩
  refine ⟨s, _, _, hplan, hplace, Geometry.grid_eq htiled hsmall,
    Scratch.separated_of_plan htiled.bits hplan, fun c hc p => ?_⟩
  obtain ⟨k, hk, rfl⟩ := Grid.exists_tileAt (Geometry.tileGrid_regular htiled hsmall) hc
  have hb : g.tileGrid.blockAt k < g.tileGrid.channels := Grid.blockAt_lt hk
  have hbias := hpart.bias
  have hpair := hpart.requant_size
  have hlambdaStop : s.lambdaOffset p + 4 * g.block.channels ≤ s.slotStop .requant p := by
    show s.slot .requant p + s.biasOffset + _ ≤ s.slot .requant p + s.requant.slotSize
    omega
  have hstop := hpart.slotStop_lt hword .requant p
  refine ⟨Tiles.inputTile_fits (t := ⟨g, _, _, _, _⟩) htiled hsmall hpart hinput hword hk p,
    Tiles.outputTile_fits (t := ⟨g, _, _, _, _⟩) htiled hsmall hpart houtput hword hk p,
    Tiles.weightTile_fits (t := ⟨g, _, _, _, _⟩) htiled hsmall hpart hzero hword hb p, ?_, ?_⟩
  · refine Tiles.wordTile_fits (t := ⟨g, _, _, _, _⟩) htiled hsmall (show blob.kappa < _ by omega) hb ?_
      (by omega)
    show s.slot .requant p + 4 * g.block.channels ≤ s.slot .requant p + s.biasOffset
    omega
  · exact Tiles.wordTile_fits (t := ⟨g, _, _, _, _⟩) htiled hsmall (show blob.lambda < _ by omega) hb
      hlambdaStop hstop

/-- The small layer with its tensors at low addresses: the transfers of its last tile. -/
theorem tiles_fit_their_slots_small : smallLayer.validate.run = .ok (.ok ()) ∧
    ∃ s t, Scratch.plan smallLayer = .ok s ∧
      Tiles.place smallLayer ⟨.mid, 0x100⟩ ⟨.mid, 0x200⟩ ⟨.mid, 0x1000⟩ = .ok t ∧ s.Separated ∧
      ∃ tile, t.inputTile (.ofBlock 1 1 1) = .ok tile ∧
        tile.Fits (s.slot .input .b) (s.slotStop .input .b) := by
  obtain ⟨s, t, grid, hplan, hplace, hgrid, hseparated, htiles⟩ := tiles_fit_their_slots
    smallJob_promised.small (by decide) rfl ⟨.mid, 0x100⟩ ⟨.mid, 0x200⟩ ⟨.mid, 0x1000⟩
  cases (show smallLayer.grid = .ok ⟨2, 2, 2⟩ from rfl).symm.trans hgrid
  obtain ⟨hinput, -⟩ := htiles (.ofBlock 1 1 1) (by decide) .b
  obtain ⟨tile, htile, hfits⟩ := hinput.ok_of_never fun _ hf => absurd hf.2 (by decide)
  exact ⟨rfl, s, t, hplan, hplace, hseparated, tile, htile, hfits⟩

end TileStream
