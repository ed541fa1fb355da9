import TileStream.Proofs.Layer.OutputPartition

/-! # Tiles of consecutive bytes

A shape is flat if each of its runs begins where the one before it ends. A flat
tile covers consecutive bytes, wherever it lies, and the flat tiles that an array
yields for the channel blocks, one block after the other, cover the array. -/
namespace TileStream

open Unsigned Checked

/-- `len` bytes of what lies at an endpoint, from byte `first` on. -/
def Endpoint.span (e : Endpoint) (first len : Nat) : List Endpoint :=
  (List.range' first len).map fun i => ⟨e.tier, e.addr + i⟩

/-- The bytes that a tile covers on the strided side, in the order in which they are moved. -/
def Tile.covers (tile : Tile) : Checked (List Endpoint) := do
  let starts ← (RunCursor.start tile.ext.addr tile.shape).take tile.shape.runs
  return starts.flatMap fun start => Endpoint.span ⟨tile.ext.tier, start⟩ 0 tile.shape.runBytes

/-- The bytes that the tiles of all channel blocks cover, one block after the other. -/
def coverBlocks (tile : Nat → Checked Tile) (blocks : Nat) : Checked (List Endpoint) := do
  return (← (List.range blocks).mapM fun b => do (← tile b).covers).flatten

namespace Endpoint

variable (e : Endpoint)

theorem span_advance (n first len : Nat) :
    span ⟨e.tier, e.addr + n⟩ first len = e.span (n + first) len := by
  rw [span, span, ← List.map_add_range', List.map_map]
  simp only [Function.comp_def, Nat.add_assoc]

/-- Rows of `chunk` items of `m` bytes, the last one with what is left, follow each other. -/
theorem flatMap_span_rows (first n chunk m k : Nat) :
    ((List.range k).flatMap fun i =>
      e.span (first + i * chunk * m) (min chunk (n - i * chunk) * m)) =
        e.span first (min (k * chunk) n * m) := by
  have hrow (i : Nat) : e.span (first + i * chunk * m) (min chunk (n - i * chunk) * m) =
      (List.range' (i * chunk * m) (min chunk (n - i * chunk) * m)).map
        fun j => ⟨e.tier, e.addr + (first + j)⟩ := by
    rw [span, ← List.map_add_range', List.map_map]
    rfl
  simp only [hrow]
  rw [← List.map_flatMap, Descriptor.flatMap_rows, span, List.range_eq_range',
    ← Nat.add_zero first, ← List.map_add_range', List.map_map]
  rfl

end Endpoint

namespace Shape

/-- Every run begins where the one before it ends. -/
structure Flat (s : Shape) : Prop where
  run_pos : 0 < s.runBytes
  offset : ∀ j < s.runs, s.offset j = ((j * s.runBytes : Nat) : Int)

/-- Runs that lie as far apart as they are long are flat, and so is a single run. -/
theorem box_flat {run o os : Nat} (hrun : 0 < run) (h : o = 1 ∨ os = run) :
    (box run 1 0 o os).Flat := by
  refine ⟨hrun, fun j hj => ?_⟩
  obtain ⟨hm, ho⟩ := box_steps run 1 0 o os
  rw [runs, hm, ho, Nat.max_self, Nat.one_mul] at hj
  rw [box_offset, Nat.max_self, Nat.mul_zero, Nat.div_one, Nat.zero_add]
  rcases h with rfl | rfl
  · have hzero : j = 0 := by omega
    rw [hzero, Nat.zero_mul, Nat.zero_mul]
  · rfl

theorem flat_byteCount {run o os : Nat} (ho : 0 < o) : (box run 1 0 o os).byteCount = o * run := by
  rw [box_byteCount, Nat.max_self, Nat.max_eq_left ho, Nat.one_mul, Nat.mul_comm]

namespace Flat

variable {s : Shape} {base j p : Nat}

theorem run_le (s : Shape) (hj : j < s.runs) : j * s.runBytes + s.runBytes ≤ s.byteCount := by
  rw [byteCount, Nat.mul_comm s.runBytes, ← Nat.succ_mul]
  exact Nat.mul_le_mul_right _ hj

theorem near (h : s.Flat) (hsize : s.byteCount ≤ 0x8000000000000000) : s.Near := by
  intro i hi j hj
  have hrun := h.run_pos
  have hle := run_le s hi
  have hle' := run_le s hj
  rw [h.offset i hi, h.offset j hj]
  exact ⟨by omega, by omega⟩

theorem runAt_eq (h : s.Flat) (hspace : base + s.byteCount ≤ wordLimit) (hj : j < s.runs) :
    s.runAt base j = base + j * s.runBytes := by
  have hrun := h.run_pos
  have hle := run_le s hj
  rw [Shape.runAt_eq, h.offset j hj]
  exact unsigned_signed_add (by omega)

/-- Byte `p` of a flat transfer is the byte `p` addresses after the base. -/
theorem byteAddress_eq (h : s.Flat) (hspace : base + s.byteCount ≤ wordLimit)
    (hp : p < s.byteCount) : s.byteAddress base p = base + p := by
  rw [byteAddress, h.runAt_eq hspace (Nat.div_lt_of_lt_mul hp), Nat.add_assoc, Nat.div_add_mod']

theorem address_ends (h : s.Flat) (hspace : base + s.byteCount ≤ wordLimit)
    (hsize : s.byteCount ≤ 0x8000000000000000) (hj : j < s.runs) :
    Ends (Straddles base s.byteCount) (· = base + j * s.runBytes)
      (s.address base (j % s.middle.steps) (j / s.middle.steps)) := by
  have hrun := h.run_pos
  have hle := run_le s hj
  rw [← h.runAt_eq hspace hj]
  refine (h.near hsize).address_ends hj ?_
  rw [h.offset j hj]
  exact inRange_or_straddles (by omega) hspace

variable {tile : Tile}

/-- A flat tile covers consecutive bytes, or it straddles the middle of the address space. -/
theorem covers_ends (h : tile.shape.Flat)
    (hspace : tile.ext.addr + tile.shape.byteCount ≤ wordLimit)
    (hsize : tile.shape.byteCount ≤ 0x8000000000000000) :
    Ends (Straddles tile.ext.addr tile.shape.byteCount)
      (· = tile.ext.span 0 tile.shape.byteCount) tile.covers := by
  have hstarts : Ends (Straddles tile.ext.addr tile.shape.byteCount)
      (· = (List.range tile.shape.runs).map fun j => tile.ext.addr + j * tile.shape.runBytes)
      ((RunCursor.start tile.ext.addr tile.shape).take tile.shape.runs) := by
    rw [RunCursor.start_eq, List.range_eq_range']
    exact RunCursor.take_map_ends (fun j hj => h.address_ends hspace hsize hj)
      (Nat.le_of_eq (Nat.zero_add _))
  refine hstarts.bind_eq ?_
  show List.flatMap _ _ = _
  -- a run is a row of one item
  have hrow : ∀ j ∈ List.range tile.shape.runs,
      Endpoint.span ⟨tile.ext.tier, tile.ext.addr + j * tile.shape.runBytes⟩ 0
        tile.shape.runBytes = tile.ext.span (0 + j * 1 * tile.shape.runBytes)
          (min 1 (tile.shape.runs - j * 1) * tile.shape.runBytes) := by
    intro j hj
    have hlt := List.mem_range.mp hj
    rw [Endpoint.span_advance, Nat.mul_one, Nat.min_eq_left (by omega), Nat.one_mul, Nat.zero_add,
      Nat.add_zero]
  rw [List.flatMap_map, List.flatMap_congr hrow, tile.ext.flatMap_span_rows, Nat.mul_one,
    Nat.min_self, Nat.mul_comm]
  rfl

/-- A flat tile inside what lies at an endpoint covers consecutive bytes of it, or that straddles the middle
of the address space. -/
theorem covers_within_ends {e : Endpoint} {n len : Nat} (h : tile.shape.Flat)
    (hext : tile.ext = ⟨e.tier, e.addr + n⟩) (hin : n + tile.shape.byteCount ≤ len)
    (hspace : e.addr + len ≤ wordLimit) (hsize : len ≤ 0x8000000000000000) :
    Ends (Straddles e.addr len) (· = e.span n tile.shape.byteCount) tile.covers := by
  have hpos : 0 < tile.shape.byteCount := Nat.mul_pos h.run_pos tile.shape.runs_pos
  have haddr : tile.ext.addr = e.addr + n := congrArg Endpoint.addr hext
  have htile := h.covers_ends (by omega) (by omega)
  refine htile.mono ?_ ?_
  · rintro f ⟨hf, hlow, hhigh⟩
    exact ⟨hf, by omega, by omega⟩
  · intro l hl
    rw [hl, hext, Endpoint.span_advance, Nat.add_zero]

end Flat

end Shape

theorem coverBlocks_ends {fault : Fault → Prop} {tile : Nat → Checked Tile}
    {spans : Nat → List Endpoint} {blocks : Nat}
    (h : ∀ b < blocks, Ends fault (· = spans b) (do (← tile b).covers)) :
    Ends fault (· = (List.range blocks).flatMap spans) (coverBlocks tile blocks) := by
  refine (mapM_ends_map fun b hb => h b (List.mem_range.mp hb)).bind_eq ?_
  rfl

/-- The items of the channel blocks, `m` bytes for each channel, follow each other. -/
theorem Geometry.flatMap_chans {g : Geometry} (h : g.Tiled) (e : Endpoint) (first m : Nat) :
    ((List.range g.tileGrid.channels).flatMap fun b =>
      e.span (first + (g.chans b).start * m) ((g.chans b).len * m)) =
        e.span first (g.input.channels * m) := by
  have hcover : g.input.channels ≤ g.tileGrid.channels * g.block.channels := le_blocks_mul h.block_pos
  have hrows := e.flatMap_span_rows first g.input.channels g.block.channels m g.tileGrid.channels
  rw [Nat.min_eq_right hcover] at hrows
  exact hrows

end TileStream
