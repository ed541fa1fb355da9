import Mathlib.Data.List.Perm.Subperm
import TileStream.Proofs.Layer.WindowBounds
import TileStream.Proofs.Transfer.Shares

/-! # The write-backs of all tiles cover the output tensor once

The units of a team write back each tile in shares. Together the runs of all
shares of all tiles are as long as the output tensor, and every element of the
tensor is a byte of one of them; so every byte is the target of exactly one run
byte, and no byte outside the tensor is a target. -/
namespace TileStream

open Unsigned Checked

namespace Descriptor

variable {fault : Fault → Prop} {d : Descriptor}

/-- The bytes of the run that starts at an address. -/
def runSpan (d : Descriptor) (start : Nat) : List Endpoint :=
  (List.range d.shape.runBytes).map fun b => ⟨d.ext.tier, start + b⟩

/-- The bytes of all runs of a transfer, in the order in which they are moved. -/
def runTargets (d : Descriptor) : Checked (List Endpoint) := do
  return (← d.runStarts).flatMap d.runSpan

/-- The bytes of all runs in the share of a unit. -/
def shareTargets (d : Descriptor) (u : Member) : Checked (List Endpoint) := do
  match ← d.split u.index u.size with
  | none => return []
  | some share => share.runTargets

/-- The bytes of all runs in the shares of a team. -/
def teamTargets (d : Descriptor) (units : Nat) : Checked (List Endpoint) := do
  return (← (Member.team units).mapM d.shareTargets).flatten

/-- The bytes of all runs, where each can be addressed. -/
def targets (d : Descriptor) : List Endpoint := d.moved.flatMap fun pair => d.runSpan pair.1

theorem length_targets (d : Descriptor) : d.targets.length = d.byteCount := by
  have hspan : (d.moved.map fun pair => (d.runSpan pair.1).length) =
      List.replicate d.shape.runs d.shape.runBytes := by
    simp [moved, runSpan, Function.comp_def]
  rw [targets, List.length_flatMap, hspan, List.sum_replicate_nat, Nat.mul_comm]
  rfl

theorem mem_targets {j b : Nat} (hj : j < d.shape.runs) (hb : b < d.shape.runBytes) :
    ⟨d.ext.tier, d.shape.runAt d.ext.addr j + b⟩ ∈ d.targets :=
  List.mem_flatMap.mpr ⟨d.runPair j, List.mem_map_of_mem (List.mem_range.mpr hj),
    List.mem_map_of_mem (List.mem_range.mpr hb)⟩

theorem Reaches.runTargets_ends (h : d.Reaches fault) :
    Ends fault (· = d.targets) d.runTargets := by
  refine h.runStarts_ends.bind_eq ?_
  show List.flatMap _ _ = _
  rw [targets, moved, List.flatMap_map, List.flatMap_map]
  rfl

theorem Reaches.shareTargets_ends (h : d.Reaches fault) {u : Member} (hu : u.index < u.size)
    (hstart : u.index * blocks d.shape.outer.steps u.size < 0x10000000000000000) :
    Ends fault (· = ((d.ownRuns u.index u.size).map d.runPair).flatMap fun pair => d.runSpan pair.1)
      (d.shareTargets u) := by
  have hparts : 0 < u.size := by omega
  refine (h.split_ends hu hstart).bind fun share hshare => ?_
  obtain ⟨rfl, hin⟩ := hshare
  cases hchunk : d.chunkOf u.index u.size with
  | none =>
    rw [ownRuns_of_none hparts hchunk]
    exact rfl
  | some d' =>
    rw [hchunk] at hin
    have hmoved := moved_of_some hparts hchunk (hin rfl)
    obtain ⟨hpos, rfl⟩ := (chunkOf_eq_some_iff hparts).mp hchunk
    refine (h.chunk hpos (shareBlocks_le hpos) (hin rfl)).runTargets_ends.of_eq ?_
    rw [targets, hmoved]
    rfl

/-- The shares of a team have the runs of the whole transfer. -/
theorem Reaches.teamTargets_ends (h : d.Reaches fault) {units : Nat}
    (hstart : ∀ part < max units 1,
      part * blocks d.shape.outer.steps (max units 1) < 0x10000000000000000) :
    Ends fault (· = d.targets) (d.teamTargets units) := by
  have hparts : 0 < max units 1 := by omega
  have hall := mapM_ends_map fun u (hu : u ∈ Member.team units) => by
    obtain ⟨hindex, hsize⟩ := Member.mem_team.mp hu
    exact h.shareTargets_ends (u := u) (by omega) (by rw [hsize]; exact hstart _ hindex)
  refine hall.bind_eq ?_
  show List.flatten _ = _
  rw [← List.flatMap_def, Member.team, List.flatMap_map, targets, moved,
    ← d.flatMap_ownRuns hparts, List.map_flatMap, List.flatMap_assoc]

end Descriptor

/-! ## The write-back of a box -/

/-- A box that is not empty lies inside a tensor. -/
structure Tensor.Inside (t : Tensor) (rows cols chans : Span) : Prop where
  rows_pos : 0 < rows.len
  cols_pos : 0 < cols.len
  chans_pos : 0 < chans.len
  rows_le : rows.start + rows.len ≤ t.extents.height
  cols_le : cols.start + cols.len ≤ t.extents.width
  chans_le : chans.start + chans.len ≤ t.extents.channels

/-- The transfer that writes a box of a tensor back from a packed buffer. -/
def Tensor.store (t : Tensor) (rows cols chans : Span) (pad : Endpoint) : Descriptor :=
  ⟨.output, .scatter, (t.boxOf rows cols chans).ext, pad, (t.boxOf rows cols chans).shape⟩

theorem Shape.box_offset (run m ms o os j : Nat) : (Shape.box run m ms o os).offset j =
    ((j % max m 1 * ms + j / max m 1 * os : Nat) : Int) := by
  rw [offset, (box_steps run m ms o os).1]
  simp only [box]
  rw [Int.natCast_add, Int.natCast_mul, Int.natCast_mul]

namespace Tensor

variable {t : Tensor} {rows cols chans : Span}

namespace Inside

theorem runs_eq (h : t.Inside rows cols chans) (pad : Endpoint) :
    (t.store rows cols chans pad).shape.runs = cols.len * rows.len := by
  obtain ⟨hm, ho⟩ := Shape.box_steps chans.len cols.len t.extents.channels rows.len
    (t.extents.width * t.extents.channels)
  show Shape.runs (.box chans.len cols.len t.extents.channels rows.len _) = _
  rw [Shape.runs, hm, ho, Nat.max_eq_left h.cols_pos, Nat.max_eq_left h.rows_pos]

theorem byteCount_eq (h : t.Inside rows cols chans) (pad : Endpoint) :
    (t.store rows cols chans pad).byteCount = chans.len * (rows.len * cols.len) := by
  show chans.len * (t.store rows cols chans pad).shape.runs = _
  rw [h.runs_eq, Nat.mul_comm cols.len]

theorem offset_eq (h : t.Inside rows cols chans) (pad : Endpoint) (j : Nat) :
    (t.store rows cols chans pad).shape.offset j = ((j % cols.len * t.extents.channels +
      j / cols.len * (t.extents.width * t.extents.channels) : Nat) : Int) := by
  have hoffset := Shape.box_offset chans.len cols.len t.extents.channels rows.len
    (t.extents.width * t.extents.channels) j
  rwa [Nat.max_eq_left h.cols_pos] at hoffset

theorem start_lt (h : t.Inside rows cols chans) :
    t.place rows.start cols.start chans.start < t.extents.size :=
  place_lt (Nat.lt_of_lt_of_le (Nat.lt_add_of_pos_right h.rows_pos) h.rows_le)
    (Nat.lt_of_lt_of_le (Nat.lt_add_of_pos_right h.cols_pos) h.cols_le)
    (Nat.lt_of_lt_of_le (Nat.lt_add_of_pos_right h.chans_pos) h.chans_le)

/-- Every run of a box lies inside the tensor. -/
theorem run_le (h : t.Inside rows cols chans) {j : Nat} (hj : j < cols.len * rows.len) :
    t.place rows.start cols.start chans.start + (j % cols.len * t.extents.channels +
      j / cols.len * (t.extents.width * t.extents.channels)) + chans.len ≤ t.extents.size := by
  have hx := Nat.mod_lt j h.cols_pos
  have hy : j / cols.len < rows.len := Nat.div_lt_of_lt_mul hj
  have hrows := h.rows_le
  have hcols := h.cols_le
  have hchans := h.chans_le
  have hpos := h.chans_pos
  have hlast : t.place (rows.start + j / cols.len) (cols.start + j % cols.len)
      (chans.start + (chans.len - 1)) < t.extents.size := place_lt (by omega) (by omega) (by omega)
  rw [place_add] at hlast
  omega

theorem byteCount_le (h : t.Inside rows cols chans) (pad : Endpoint) :
    (t.store rows cols chans pad).byteCount ≤ t.extents.size := by
  have hplane := Nat.mul_le_mul (Nat.le_of_add_left_le h.rows_le) (Nat.le_of_add_left_le h.cols_le)
  rw [h.byteCount_eq, Extents.size, Nat.mul_assoc]
  exact Nat.mul_le_mul (Nat.le_of_add_left_le h.chans_le) hplane

/-- The write-back of a box can be addressed, or its tensor straddles the middle of the address space. -/
theorem reaches (h : t.Inside rows cols chans) {pad : Endpoint}
    (hspace : t.base.addr + t.extents.size ≤ wordLimit)
    (hsize : t.extents.size < 0x8000000000000000)
    (hpad : pad.addr + t.extents.size ≤ 0x8000000000000000) :
    (t.store rows cols chans pad).Reaches (Straddles t.base.addr t.extents.size) := by
  have hbytes := h.byteCount_le pad
  have hruns := h.runs_eq pad
  refine ⟨fun i hi j hj => ?_, fun j hj => ?_, fun j hj => ?_, by omega⟩
  · have := h.run_le (j := i) (by omega)
    have := h.run_le (j := j) (by omega)
    rw [h.offset_eq, h.offset_eq]
    exact ⟨by omega, by omega⟩
  · have hrun := h.run_le (j := j) (by omega)
    have hpos := h.chans_pos
    rw [h.offset_eq]
    have hstep : Signed.InRange (signed (t.base.addr + t.place rows.start cols.start chans.start) +
        ((j % cols.len * t.extents.channels +
          j / cols.len * (t.extents.width * t.extents.channels) : Nat) : Int)) ∨
        Straddles (t.base.addr + t.place rows.start cols.start chans.start)
          (t.extents.size - t.place rows.start cols.start chans.start) .addOverflow :=
      inRange_or_straddles (by omega) (by omega)
    exact hstep.imp_right fun hf => hf.mono (by omega)
  · have hrun : j * chans.len + chans.len ≤ (t.store rows cols chans pad).byteCount := by
      have := Nat.mul_le_mul_right chans.len (Nat.succ_le_of_lt hj)
      rw [Nat.succ_mul, Nat.mul_comm (Shape.runs _)] at this
      exact this
    have hpos := h.chans_pos
    show pad.addr + j * chans.len < _
    omega

/-- Every element of a box is a byte of its write-back. -/
theorem mem_targets (h : t.Inside rows cols chans) (pad : Endpoint)
    (hspace : t.base.addr + t.extents.size ≤ wordLimit) {r q ch : Nat} (hr : r < rows.len)
    (hq : q < cols.len) (hch : ch < chans.len) :
    ⟨t.base.tier, t.base.addr + t.place (rows.start + r) (cols.start + q) (chans.start + ch)⟩ ∈
      (t.store rows cols chans pad).targets := by
  have hdigits : (r * cols.len + q) / cols.len = r ∧ (r * cols.len + q) % cols.len = q := by
    rw [Nat.mul_comm, Nat.mul_add_div h.cols_pos, Nat.div_eq_of_lt hq, Nat.mul_add_mod,
      Nat.mod_eq_of_lt hq]
    exact ⟨rfl, rfl⟩
  have hj : r * cols.len + q < cols.len * rows.len := by
    have := Nat.mul_le_mul_right cols.len (Nat.succ_le_of_lt hr)
    rw [Nat.succ_mul, Nat.mul_comm rows.len] at this
    omega
  have hrun := h.run_le hj
  have hmem := Descriptor.mem_targets (d := t.store rows cols chans pad) (j := r * cols.len + q)
    (b := ch) (by rw [h.runs_eq]; exact hj) hch
  rw [Shape.runAt_eq, h.offset_eq] at hmem
  rw [hdigits.1, hdigits.2] at hmem hrun
  have haddr : unsigned (signed (t.store rows cols chans pad).ext.addr +
      ((q * t.extents.channels + r * (t.extents.width * t.extents.channels) : Nat) : Int)) =
        t.base.addr + t.place rows.start cols.start chans.start +
          (q * t.extents.channels + r * (t.extents.width * t.extents.channels)) :=
    unsigned_signed_add (show t.base.addr + t.place rows.start cols.start chans.start + _ < _ by
      have := h.chans_pos
      omega)
  have hplace : t.base.addr + t.place (rows.start + r) (cols.start + q) (chans.start + ch) =
      t.base.addr + t.place rows.start cols.start chans.start +
        (q * t.extents.channels + r * (t.extents.width * t.extents.channels)) + ch := by
    rw [place_add]
    omega
  rw [haddr] at hmem
  rw [hplace]
  exact hmem

end Inside

end Tensor

/-! ## All tiles -/

namespace Tiles

/-- The write-back of the tile at a coordinate from a packed buffer. -/
def writeBack (t : Tiles) (pad : Endpoint) (c : Coord) : Checked Descriptor := do
  let tile ← t.outputTile c
  return ⟨.output, .scatter, tile.ext, pad, tile.shape⟩

/-- The bytes that a team writes back to, tile by tile. -/
def storeTargets (t : Tiles) (grid : Grid) (pad : Coord → Endpoint) (units : Nat) :
    Checked (List Endpoint) := do
  return (← grid.tiles.mapM fun c => do (← t.writeBack (pad c) c).teamTargets units).flatten

end Tiles

namespace Geometry

variable {g : Geometry}

theorem inside_output (h : g.Tiled) (hs : g.Small) (output : Endpoint) {k : Nat}
    (hk : k < g.tileGrid.size) :
    Tensor.Inside ⟨g.outExtents, 8, output⟩ (g.outRows k) (g.outCols k)
      (g.chans (g.tileGrid.blockAt k)) where
  rows_pos := Axis.outLen_pos h.rows (rowBlock_lt h hs k)
  cols_pos := Axis.outLen_pos h.cols (colBlock_lt h hs k)
  chans_pos := chanLen_pos h (Grid.blockAt_lt hk)
  rows_le := Axis.outStop_le h.rows (rowBlock_lt h hs k)
  cols_le := Axis.outStop_le h.cols (colBlock_lt h hs k)
  chans_le := chanStop_le h (Grid.blockAt_lt hk)

/-- The write-back of tile `k`. -/
def store (g : Geometry) (output : Endpoint) (pad : Coord → Endpoint) (k : Nat) : Descriptor :=
  Tensor.store ⟨g.outExtents, 8, output⟩ (g.outRows k) (g.outCols k)
    (g.chans (g.tileGrid.blockAt k)) (pad (g.tileGrid.tileAt k))

theorem outExtents_size_lt (hs : g.Small) : g.outExtents.size < 0x20000000000000 := by
  have hchannels : g.outExtents.channels < 0x10000 := hs.channels
  have hplane := Nat.mul_le_mul (Nat.le_of_lt_succ hchannels) (Nat.le_of_lt_succ hs.rows.outs_lt)
  have hall := Nat.mul_le_mul hplane (Nat.le_of_lt_succ hs.cols.outs_lt)
  exact Nat.lt_of_le_of_lt hall (by decide)

/-- Where the bytes of the output tensor lie. -/
def outputEndpoints (g : Geometry) (output : Endpoint) : List Endpoint :=
  (List.range g.outExtents.size).map fun i => ⟨output.tier, output.addr + i⟩

theorem nodup_outputEndpoints (g : Geometry) (output : Endpoint) : (g.outputEndpoints output).Nodup := by
  refine List.Nodup.map (fun i j hij => ?_) List.nodup_range
  exact Nat.add_left_cancel (congrArg Endpoint.addr hij)

/-- The tiles have every byte of the tensor once: none is missing, and they are no more. -/
theorem targets_perm (h : g.Tiled) (hs : g.Small) (output : Endpoint) (pad : Coord → Endpoint)
    (hspace : output.addr + g.outExtents.size ≤ wordLimit) :
    ((List.range g.tileGrid.size).flatMap fun k => (g.store output pad k).targets).Perm
      (g.outputEndpoints output) := by
  have hlength : ((List.range g.tileGrid.size).flatMap fun k =>
      (g.store output pad k).targets).length = g.outExtents.size := by
    have hbytes : ∀ k ∈ List.range g.tileGrid.size, (g.store output pad k).targets.length =
        (g.chans (g.tileGrid.blockAt k)).len * ((g.outRows k).len * (g.outCols k).len) := by
      intro k hk
      rw [Descriptor.length_targets]
      exact (inside_output h hs output (List.mem_range.mp hk)).byteCount_eq _
    rw [List.length_flatMap, List.map_congr_left hbytes, sum_outputTiles h hs]
  have hcover : g.outputEndpoints output ⊆ (List.range g.tileGrid.size).flatMap fun k =>
      (g.store output pad k).targets := by
    intro e he
    obtain ⟨i, hi, rfl⟩ := List.mem_map.mp he
    have hin : i < g.outExtents.channels * (g.outExtents.width * g.outExtents.height) := by
      rw [Nat.mul_comm g.outExtents.width, ← Nat.mul_assoc]
      exact List.mem_range.mp hi
    obtain ⟨hy, hx, hc, hsplit⟩ := packed_digits hin
    obtain ⟨k, hk, r, q, ch, hr, hq, hch, hyk, hxk, hck⟩ := exists_tile h hy hx hc
    have hmem := (inside_output h hs output hk).mem_targets (pad (g.tileGrid.tileAt k)) hspace hr hq hch
    rw [← hyk, ← hxk, ← hck] at hmem
    refine List.mem_flatMap.mpr ⟨k, List.mem_range.mpr hk, ?_⟩
    rw [hsplit]
    exact hmem
  refine ((List.subperm_of_subset (g.nodup_outputEndpoints output) hcover).perm_of_length_le ?_).symm
  rw [hlength, outputEndpoints, List.length_map, List.length_range]

/-- The write-back of a tile is computed, or the tensor straddles the middle of the address space. -/
theorem writeBack_ends (h : g.Tiled) (hs : g.Small) {t : Tiles} {output : Endpoint}
    (ht : t.geometry = g) (hout : t.output = ⟨g.outExtents, 8, output⟩)
    (hspace : output.addr + g.outExtents.size ≤ wordLimit) (pad : Coord → Endpoint) {k : Nat}
    (hk : k < g.tileGrid.size) :
    Ends (Straddles output.addr g.outExtents.size) (· = g.store output pad k)
      (t.writeBack (pad (g.tileGrid.tileAt k)) (g.tileGrid.tileAt k)) := by
  subst ht
  have hpacked : (Tensor.mk t.geometry.outExtents 8 output).Packed :=
    ⟨rfl, hs.channels, hs.cols.outs_lt⟩
  have hinside := inside_output h hs output hk
  have hrows : (t.geometry.outRows k).Low := (Axis.low_of_tiled h.rows hs.rows (rowBlock_lt h hs k)).1
  have hcols : (t.geometry.outCols k).Low := (Axis.low_of_tiled h.cols hs.cols (colBlock_lt h hs k)).1
  rw [Tiles.writeBack, Tiles.outputTile_eq_window h hs hk, hout,
    hpacked.window_eq_bind hrows hcols (chans_low h hs (Grid.blockAt_lt hk)), bind_assoc]
  exact (Endpoint.displace_ends (e := output) hinside.start_lt hspace).bind_eq rfl

theorem storeTargets_ends (h : g.Tiled) (hs : g.Small) {t : Tiles} {output : Endpoint}
    (ht : t.geometry = g) (hout : t.output = ⟨g.outExtents, 8, output⟩)
    (hspace : output.addr + g.outExtents.size ≤ wordLimit) {pad : Coord → Endpoint}
    (hpad : ∀ c, (pad c).addr + g.outExtents.size ≤ 0x8000000000000000) {units : Nat}
    (hunits : units < wordLimit) :
    Ends (Straddles output.addr g.outExtents.size)
      (· = (List.range g.tileGrid.size).flatMap fun k => (g.store output pad k).targets)
      (t.storeTargets g.tileGrid pad units) := by
  have hsize := outExtents_size_lt hs
  have htile : ∀ k ∈ List.range g.tileGrid.size,
      Ends (Straddles output.addr g.outExtents.size) (· = (g.store output pad k).targets)
        (do (← t.writeBack (pad (g.tileGrid.tileAt k)) (g.tileGrid.tileAt k)).teamTargets units) := by
    intro k hk
    have hk := List.mem_range.mp hk
    have hinside := inside_output h hs output hk
    refine (writeBack_ends h hs ht hout hspace pad hk).bind_eq ?_
    have hreaches := hinside.reaches hspace (Nat.lt_trans hsize (by decide))
      (hpad (g.tileGrid.tileAt k))
    refine Descriptor.Reaches.teamTargets_ends hreaches ?_
    intro part hpart
    have hrows : (g.store output pad k).shape.outer.steps < 0x1000000 := by
      have hle := hinside.rows_le
      have houts := hs.rows.outs_lt
      have hpos := hinside.rows_pos
      show Dimension.steps ⟨(g.outRows k).len, _⟩ < _
      rw [Shape.steps_eq]
      change _ + _ ≤ g.rows.outs at hle
      show max (g.outRows k).len 1 < _
      omega
    exact mul_blocks_lt_wordLimit (Nat.le_of_lt (Nat.lt_trans hrows (by decide)))
      (by unfold wordLimit at *; omega) hpart
  rw [Tiles.storeTargets, Grid.tiles_eq_map (tileGrid_regular h hs), List.mapM_map]
  refine (mapM_ends_map htile).bind_eq ?_
  rfl

end Geometry

/-- **The output tiles partition the output tensor.** In a layer that passes validation, with its output
tensor anywhere in the address space, every output tile has a row, a column and a channel. The
write-backs of all tiles, each shared out to the units of a team of any size, target every byte of
the tensor once and nothing else; or an address is not computed, because the tensor straddles the middle of
the address space. -/
theorem output_tiles_partition_tensor {g : Geometry} (hsmall : g.Small)
    (hvalid : g.validate.run = .ok (.ok ())) (input output weights : Endpoint)
    (hspace : output.addr + g.outExtents.size ≤ wordLimit) (pad : Coord → Endpoint)
    (hpad : ∀ c, (pad c).addr + g.outExtents.size ≤ 0x8000000000000000) (units : Nat)
    (hunits : units < wordLimit) :
    ∃ t grid, Tiles.place g input output weights = .ok t ∧ t.output.bytes = .ok g.outExtents.size ∧
      g.grid = .ok grid ∧
      (∀ c ∈ grid.tiles, ∃ rows cols chans, t.outputSpans c = .ok (rows, cols) ∧
        t.channelSpan c.outChannel = .ok chans ∧ 0 < rows.len ∧ 0 < cols.len ∧ 0 < chans.len) ∧
      Ends (Straddles output.addr g.outExtents.size)
        (fun targets => targets.Perm ((List.range g.outExtents.size).map fun i =>
          ⟨output.tier, output.addr + i⟩))
        (t.storeTargets grid pad units) := by
  have htiled := Geometry.validate_inv hvalid
  obtain ⟨blob, -, hplace⟩ := Tiles.place_eq htiled hsmall input output weights
  have hregular := Geometry.tileGrid_regular htiled hsmall
  have hpacked : (Tensor.mk g.outExtents 8 output).Packed :=
    ⟨rfl, hsmall.channels, hsmall.cols.outs_lt⟩
  have hsize := Geometry.outExtents_size_lt hsmall
  refine ⟨_, _, hplace, hpacked.bytes_eq g.cols.outs_pos (Nat.lt_trans hsize (by decide)),
    Geometry.grid_eq htiled hsmall, fun c hc => ?_, ?_⟩
  · obtain ⟨k, hk, rfl⟩ := Grid.exists_tileAt hregular hc
    have hinside := Geometry.inside_output htiled hsmall output hk
    exact ⟨_, _, _, Tiles.outputSpans_eq (t := ⟨g, _, _, _, _⟩) htiled hsmall k,
      Tiles.channelSpan_eq (t := ⟨g, _, _, _, _⟩) htiled hsmall (Grid.blockAt_lt hk),
      hinside.rows_pos, hinside.cols_pos, hinside.chans_pos⟩
  · refine (Geometry.storeTargets_ends htiled hsmall rfl rfl hspace hpad hunits).of_eq ?_
    exact Geometry.targets_perm htiled hsmall output pad hspace

/-- The small layer and a team of three, with the output at the end of the address space. -/
theorem output_tiles_partition_tensor_small :
    smallLayer.validate.run = .ok (.ok ()) ∧ ∃ t grid targets,
      Tiles.place smallLayer ⟨.mid, 0⟩ ⟨.mid, 0xffffffffffffffee⟩ ⟨.mid, 0⟩ = .ok t ∧
      t.output.bytes = .ok 18 ∧ smallLayer.grid = .ok grid ∧
      (∀ c ∈ grid.tiles, ∃ rows cols chans, t.outputSpans c = .ok (rows, cols) ∧
        t.channelSpan c.outChannel = .ok chans ∧ 0 < rows.len ∧ 0 < cols.len ∧ 0 < chans.len) ∧
      t.storeTargets grid (fun _ => ⟨.scratchpad, 16⟩) 3 = .ok targets ∧
      targets.Perm ((List.range 18).map fun i => ⟨.mid, 0xffffffffffffffee + i⟩) := by
  obtain ⟨t, grid, hplace, hbytes, hgrid, htiles, htargets⟩ :=
    output_tiles_partition_tensor smallJob_promised.small rfl ⟨.mid, 0⟩ ⟨.mid, 0xffffffffffffffee⟩
      ⟨.mid, 0⟩ (by decide) (fun _ => ⟨.scratchpad, 16⟩) (fun _ => by decide) 3 (by decide)
  obtain ⟨targets, hok, hperm⟩ := htargets.ok_of_never fun _ hf => absurd hf.2.1 (by decide)
  exact ⟨rfl, t, grid, targets, hplace, hbytes, hgrid, htiles, hok, hperm⟩

/-- A layer of two output tiles of one byte. -/
def pairLayer : Geometry where
  input := ⟨1, 1, 2⟩
  kernel := 1
  stride := 1
  padding := .uniform 0
  block := ⟨1, 1, 1⟩
  elementBits := 8
  workspaceBytes := 0

/-- Its output can lie on both sides of the middle of the address space, where the second tile has no
address, or go on past the end, where the second tile is written to the first byte of memory. -/
theorem pair_leaves_address_space :
    pairLayer.validate.run = .ok (.ok ()) ∧ pairLayer.Small ∧
    pairLayer.grid = .ok ⟨1, 1, 2⟩ ∧
    (∃ t, Tiles.place pairLayer ⟨.mid, 0⟩ ⟨.mid, 0x7fffffffffffffff⟩ ⟨.mid, 0⟩ = .ok t ∧
      t.output.bytes = .ok 2 ∧
      t.storeTargets ⟨1, 1, 2⟩ (fun _ => ⟨.scratchpad, 0⟩) 1 = .error .addOverflow) ∧
    ∃ t, Tiles.place pairLayer ⟨.mid, 0⟩ ⟨.mid, 0xffffffffffffffff⟩ ⟨.mid, 0⟩ = .ok t ∧
      t.storeTargets ⟨1, 1, 2⟩ (fun _ => ⟨.scratchpad, 0⟩) 1 =
        .ok [⟨.mid, 0xffffffffffffffff⟩, ⟨.mid, 0⟩] := by
  refine ⟨rfl, ⟨?_, ?_, by decide, by decide⟩, rfl, ⟨_, rfl, rfl, rfl⟩, _, rfl, rfl⟩
  · exact ⟨by decide, by decide, by decide, by decide, by decide, by decide⟩
  · exact ⟨by decide, by decide, by decide, by decide, by decide, by decide⟩

end TileStream
