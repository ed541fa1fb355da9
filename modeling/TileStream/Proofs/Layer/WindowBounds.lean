import TileStream.Proofs.Layer.Slots

/-! # Where the transfer of an input window reads

A window that is not empty lies inside its tensor: every run of its transfer
reads there, wherever the tensor lies, and the transfer moves the bytes of the
tile. A window can be empty, as when the stride leaves the padding after an axis
to an output block of its own. It then begins past the tensor or holds no row,
and since a size of zero counts as one its transfer still moves bytes. -/
namespace TileStream

open Unsigned Checked

/-- Signed address arithmetic stops between an address in the lower half of the address space and one in
the upper half. -/
def Straddles (addr len : Nat) (f : Fault) : Prop :=
  f = .addOverflow ∧ addr < 0x8000000000000000 ∧ 0x8000000000000000 < addr + len

section Address

variable {addr n len : Nat}

/-- Going on inside a range stays in the signed words, or the range straddles the middle of the address
space. -/
theorem inRange_or_straddles (hn : n < len) (hspace : addr + len ≤ wordLimit) :
    Signed.InRange (signed addr + n) ∨ Straddles addr len .addOverflow := by
  unfold wordLimit at hspace
  by_cases hlow : addr < 0x8000000000000000
  · rw [signed_of_lt hlow]
    by_cases hsum : addr + n < 0x8000000000000000
    · exact .inl ⟨by omega, by omega⟩
    · exact .inr ⟨rfl, hlow, by omega⟩
  · have hsigned : signed addr = (addr : Int) - 0x10000000000000000 := if_neg hlow
    rw [hsigned]
    exact .inl ⟨by omega, by omega⟩

/-- Going on inside a range stays in it, or it straddles the middle of the address space. -/
theorem advance_ends (hn : n < len) (hspace : addr + len ≤ wordLimit) {x : Checked Int}
    (hx : Signed.add (signed addr) (n : Int) = x) :
    Ends (Straddles addr len) (fun z => unsigned z = addr + n) x := by
  rw [← hx]
  refine (Signed.add_ends (inRange_or_straddles hn hspace)).mono (fun _ => id) fun z hz => ?_
  rw [hz.1]
  exact unsigned_signed_add (by omega)

theorem Endpoint.displace_ends {e : Endpoint} (hn : n < len) (hspace : e.addr + len ≤ wordLimit) :
    Ends (Straddles e.addr len) (· = ⟨e.tier, e.addr + n⟩) (e.displace (n : Int)) :=
  (advance_ends hn hspace rfl).bind fun _ hz => congrArg (Endpoint.mk e.tier) hz

theorem Shape.box_address_ends {run m ms o os i k : Nat} (hn : i * ms + k * os < len)
    (hspace : addr + len ≤ wordLimit) (hlen : len ≤ 0x8000000000000000) {x : Checked Nat}
    (hx : (Shape.box run m ms o os).address addr i k = x) :
    Ends (Straddles addr len) (· = addr + (i * ms + k * os)) x := by
  simp only [address, box] at hx
  rw [Signed.mul_of_lt (by omega), Checked.ok_bind, Signed.mul_of_lt (by omega), Checked.ok_bind,
    Signed.add_of_lt (by omega), Checked.ok_bind] at hx
  subst hx
  exact (advance_ends hn hspace rfl).bind fun _ hz => hz

/-- A range that straddles the middle of the address space is part of one that does. -/
theorem Straddles.mono {f : Fault} (h : Straddles (addr + n) (len - n) f) (hn : n ≤ len) :
    Straddles addr len f := by
  obtain ⟨hf, hlow, hhigh⟩ := h
  exact ⟨hf, by omega, by omega⟩

/-- The runs of a box whose every run ends inside a range begin inside it. -/
theorem Shape.box_take_ends {run m ms o os : Nat} (hrun : 0 < run)
    (hstep : ∀ x < max m 1, ∀ y < max o 1, x * ms + y * os + run ≤ len)
    (hspace : addr + len ≤ wordLimit) (hlen : len ≤ 0x8000000000000000) :
    Ends (Straddles addr len) (fun addrs => addrs.length = (Shape.box run m ms o os).runs ∧
        ∀ a ∈ addrs, addr ≤ a ∧ a + run ≤ addr + len)
      ((RunCursor.start addr (Shape.box run m ms o os)).take (Shape.box run m ms o os).runs) := by
  obtain ⟨hm, ho⟩ := Shape.box_steps run m ms o os
  have hin : ∀ n < (Shape.box run m ms o os).runs,
      n % max m 1 * ms + n / max m 1 * os + run ≤ len := by
    intro n hn
    rw [runs, hm, ho] at hn
    exact hstep _ (Nat.mod_lt n (by omega)) _ (Nat.div_lt_of_lt_mul hn)
  rw [RunCursor.start_eq]
  refine RunCursor.take_ends (fun n hn x hx => ?_) (Nat.le_of_eq (Nat.zero_add _))
  have hat := hin n hn
  rw [hm] at hx
  exact (Shape.box_address_ends (by omega) hspace hlen hx).of_eq ⟨by omega, by omega⟩

end Address

/-- The transfer of the input window at a coordinate, with the start of every run. -/
def Tiles.inputRuns (t : Tiles) (c : Coord) : Checked (Tile × List Nat) := do
  let tile ← t.inputTile c
  return (tile, ← (RunCursor.start tile.ext.addr tile.shape).take tile.shape.runs)

/-- The runs of a transfer lie in the `len` bytes from `addr` on. -/
def RunsWithin (addr len : Nat) (moved : Tile × List Nat) : Prop :=
  moved.2.length = moved.1.shape.runs ∧
    ∀ a ∈ moved.2, addr ≤ a ∧ a + moved.1.shape.runBytes ≤ addr + len

namespace Tensor

variable {t : Tensor} {rows cols chans : Span}

/-- The runs of a box inside a tensor lie inside the tensor, where a box with no row or no column is
moved as if it had one. -/
theorem Packed.runs_ends (h : t.Packed) (hrows : rows.Low) (hcols : cols.Low) (hchans : chans.Low)
    (hdown : rows.start + max rows.len 1 ≤ t.extents.height)
    (hacross : cols.start + max cols.len 1 ≤ t.extents.width)
    (hdeep : chans.start + chans.len ≤ t.extents.channels) (hch : 0 < chans.len)
    (hspace : t.base.addr + t.extents.size ≤ wordLimit)
    (hsize : t.extents.size ≤ 0x8000000000000000) :
    Ends (Straddles t.base.addr t.extents.size) (RunsWithin t.base.addr t.extents.size) (do
      let tile ← t.window rows cols chans
      return (tile, ← (RunCursor.start tile.ext.addr tile.shape).take tile.shape.runs)) := by
  -- the last element of the run of pixel `x` in row `y` is an element of the tensor
  have hrun : ∀ x < max cols.len 1, ∀ y < max rows.len 1, t.place rows.start cols.start chans.start +
      (x * t.extents.channels + y * (t.extents.width * t.extents.channels)) + chans.len ≤
        t.extents.size := by
    intro x hx y hy
    have hlast : t.place (rows.start + y) (cols.start + x) (chans.start + (chans.len - 1)) <
        t.extents.size := place_lt (by omega) (by omega) (by omega)
    rw [place_add] at hlast
    omega
  have hfirst := hrun 0 (by omega) 0 (by omega)
  rw [h.window_eq_bind hrows hcols hchans, bind_assoc]
  refine (Endpoint.displace_ends (by omega) hspace).bind_eq ?_
  generalize t.place rows.start cols.start chans.start = first at hrun hfirst ⊢
  have hbox : Ends (Straddles (t.base.addr + first) (t.extents.size - first)) _
      (RunCursor.take _ (.start _ (.box chans.len cols.len t.extents.channels rows.len
        (t.extents.width * t.extents.channels)))) :=
    Shape.box_take_ends hch (fun x hx y hy => by
      have := hrun x hx y hy
      omega) (by omega) (by omega)
  show Ends _ _ (RunCursor.take (Shape.box chans.len cols.len t.extents.channels rows.len
    (t.extents.width * t.extents.channels)).runs (RunCursor.start (t.base.addr + first) _) >>= _)
  refine Ends.bind (hbox.mono (fun f hf => hf.mono (by omega)) fun addrs haddrs => haddrs) ?_
  rintro addrs ⟨hlength, hwithin⟩
  refine ⟨hlength, fun a ha => ?_⟩
  obtain ⟨hlo, hhi⟩ := hwithin a ha
  refine ⟨by omega, ?_⟩
  show a + chans.len ≤ _
  omega

end Tensor

theorem Extents.size_lt (e : Extents) (hc : e.channels < 0x10000) (hh : e.height < 0x10000)
    (hw : e.width < 0x10000) : e.size < 0x1000000000000 := by
  have hplane := Nat.mul_le_mul (Nat.le_of_lt_succ hc) (Nat.le_of_lt_succ hh)
  have hall := Nat.mul_le_mul hplane (Nat.le_of_lt_succ hw)
  exact Nat.lt_of_le_of_lt hall (by decide)

/-- The transfer of a box moves the bytes of the packed tile exactly if the box is not flat. -/
theorem TileDims.moved_eq_held {rows cols chans : Span} (hrows : rows.Low) (hcols : cols.Low)
    (hchans : chans.Low) (hch : 0 < chans.len) (ms os : Nat) : ∃ moved held,
      (Shape.box chans.len cols.len ms rows.len os).totalBytes = .ok moved ∧
      (TileDims.mk rows.len cols.len chans.len).bytes = .ok held ∧ 0 < moved ∧
      (moved = held ↔ 0 < rows.len ∧ 0 < cols.len) := by
  have hplane := Nat.mul_le_mul (Nat.le_of_lt hrows.2) (Nat.le_of_lt hcols.2)
  have hheld := Nat.mul_le_mul hplane (Nat.le_of_lt hchans.2)
  have hsteps := Nat.mul_le_mul (show max cols.len 1 ≤ 0x100000 by have := hcols.2; omega)
    (show max rows.len 1 ≤ 0x100000 by have := hrows.2; omega)
  have hmoved := Nat.mul_le_mul (Nat.le_of_lt hchans.2) hsteps
  obtain ⟨hm, ho⟩ := Shape.box_steps chans.len cols.len ms rows.len os
  have htotal : (Shape.box chans.len cols.len ms rows.len os).totalBytes =
      .ok (chans.len * (max cols.len 1 * max rows.len 1)) := by
    rw [Shape.totalBytes, Shape.runs, hm, ho]
    exact mul_of_lt (by show chans.len * _ < _; omega)
  have hbytes : (TileDims.mk rows.len cols.len chans.len).bytes =
      .ok (rows.len * cols.len * chans.len) := by
    rw [bytes, mul_of_lt (by show rows.len * cols.len < _; omega), Checked.ok_bind]
    exact mul_of_lt (by show rows.len * cols.len * chans.len < _; omega)
  refine ⟨_, _, htotal, hbytes, Nat.mul_pos hch (Nat.mul_pos (by omega) (by omega)), ?_⟩
  rw [Nat.mul_comm chans.len, Nat.mul_left_inj (by omega), Nat.mul_comm]
  constructor
  · intro heq
    have hpos : 0 < rows.len * cols.len := by
      rw [← heq]
      exact Nat.mul_pos (by omega) (by omega)
    exact ⟨Nat.pos_of_mul_pos_right hpos, Nat.pos_of_mul_pos_left hpos⟩
  · rintro ⟨hr, hq⟩
    rw [Nat.max_eq_left hr, Nat.max_eq_left hq]

/-- **Where the transfer of an input tile reads.** In a layer that passes validation, with its input tensor
anywhere in the address space, every tile has a window, which is on the tensor if it is not empty. A
transfer whose window begins on the tensor is computed, or the tensor straddles the middle of the address
space, and every run lies inside the tensor. A transfer moves the bytes of its tile exactly if the window
is not empty. -/
theorem input_window_inside_tensor {g : Geometry} (hsmall : g.Small)
    (hvalid : g.validate.run = .ok (.ok ())) (input output weights : Endpoint)
    (hspace : input.addr + g.input.size ≤ wordLimit) :
    ∃ t grid, Tiles.place g input output weights = .ok t ∧ t.input.bytes = .ok g.input.size ∧
      g.grid = .ok grid ∧ ∀ c ∈ grid.tiles, ∃ rows cols, t.inputSpans c = .ok (rows, cols) ∧
        (0 < rows.len → rows.start + rows.len ≤ g.input.height) ∧
        (0 < cols.len → cols.start + cols.len ≤ g.input.width) ∧
        (rows.start < g.input.height → cols.start < g.input.width →
          Ends (Straddles input.addr g.input.size) (RunsWithin input.addr g.input.size)
            (t.inputRuns c)) ∧
        ∀ tile, t.inputTile c = .ok tile → ∃ moved held, tile.shape.totalBytes = .ok moved ∧
          tile.dims.bytes = .ok held ∧ 0 < moved ∧
          (moved = held ↔ 0 < rows.len ∧ 0 < cols.len) := by
  have htiled := Geometry.validate_inv hvalid
  obtain ⟨blob, -, hplace⟩ := Tiles.place_eq htiled hsmall input output weights
  have hregular := Geometry.tileGrid_regular htiled hsmall
  have hwidth : g.input.width < 0x10000 := hsmall.cols.extent
  have hpacked : (Tensor.mk g.input 8 input).Packed :=
    ⟨rfl, hsmall.channels, Nat.lt_trans hwidth (by decide)⟩
  have hsize := g.input.size_lt hsmall.channels hsmall.rows.extent hwidth
  refine ⟨_, _, hplace, hpacked.bytes_eq htiled.cols.extent_pos (Nat.lt_trans hsize (by decide)),
    Geometry.grid_eq htiled hsmall, fun c hc => ?_⟩
  obtain ⟨k, hk, rfl⟩ := Grid.exists_tileAt hregular hc
  have hrows := Axis.low_of_tiled htiled.rows hsmall.rows (Geometry.rowBlock_lt htiled hsmall k)
  have hcols := Axis.low_of_tiled htiled.cols hsmall.cols (Geometry.colBlock_lt htiled hsmall k)
  have hchans := Geometry.chans_low htiled hsmall (Grid.blockAt_lt hk)
  have hpos := Geometry.chanLen_pos htiled (Grid.blockAt_lt hk)
  have hdown : 0 < (g.inRows k).len → (g.inRows k).start + (g.inRows k).len ≤ g.input.height :=
    Axis.inStop_le
  have hacross : 0 < (g.inCols k).len → (g.inCols k).start + (g.inCols k).len ≤ g.input.width :=
    Axis.inStop_le
  have hwindow := Tiles.inputTile_eq_window
    (t := ⟨g, ⟨g.input, 8, input⟩, ⟨g.outExtents, 8, output⟩, weights, blob⟩) htiled hsmall hk
  refine ⟨_, _, Tiles.inputSpans_eq (t := ⟨g, _, _, _, _⟩) htiled hsmall k, hdown, hacross,
    fun hr hq => ?_, fun tile htile => ?_⟩
  · rw [Tiles.inputRuns, hwindow]
    change (g.inRows k).start < _ at hr
    change (g.inCols k).start < _ at hq
    exact hpacked.runs_ends hrows.2 hcols.2 hchans
      (by show (g.inRows k).start + max (g.inRows k).len 1 ≤ g.input.height; omega)
      (by show (g.inCols k).start + max (g.inCols k).len 1 ≤ g.input.width; omega)
      (Geometry.chanStop_le htiled (Grid.blockAt_lt hk)) hpos hspace
      (Nat.le_of_lt (Nat.lt_trans hsize (by decide)))
  · have hbox := (hpacked.window_eq_bind hrows.2 hcols.2 hchans).symm.trans (hwindow.symm.trans htile)
    obtain ⟨ext, -, htile⟩ := Checked.bind_eq_ok.mp hbox
    cases htile
    exact TileDims.moved_eq_held hrows.2 hcols.2 hchans hpos _ _

/-- The small layer, with its input at the end of the address space. -/
theorem input_window_inside_tensor_small :
    smallLayer.validate.run = .ok (.ok ()) ∧ ∃ t grid,
      Tiles.place smallLayer ⟨.mid, 0xffffffffffffffee⟩ ⟨.mid, 0⟩ ⟨.mid, 0⟩ = .ok t ∧
      t.input.bytes = .ok smallLayer.input.size ∧ smallLayer.grid = .ok grid ∧
      ∀ c ∈ grid.tiles, ∃ rows cols, t.inputSpans c = .ok (rows, cols) ∧
        (0 < rows.len → rows.start + rows.len ≤ 3) ∧ (0 < cols.len → cols.start + cols.len ≤ 3) ∧
        (rows.start < 3 → cols.start < 3 →
          Ends (Straddles 0xffffffffffffffee smallLayer.input.size)
            (RunsWithin 0xffffffffffffffee smallLayer.input.size) (t.inputRuns c)) ∧
        ∀ tile, t.inputTile c = .ok tile → ∃ moved held, tile.shape.totalBytes = .ok moved ∧
          tile.dims.bytes = .ok held ∧ 0 < moved ∧
          (moved = held ↔ 0 < rows.len ∧ 0 < cols.len) :=
  ⟨rfl, input_window_inside_tensor smallJob_promised.small rfl ⟨.mid, 0xffffffffffffffee⟩ ⟨.mid, 0⟩
    ⟨.mid, 0⟩ (by decide)⟩

/-- A layer whose only input row lies in its first tile: the padding below it has an output row of its
own. -/
def sparseLayer : Geometry where
  input := ⟨1, 1, 1⟩
  kernel := 1
  stride := 5
  padding := ⟨0, 5, 0, 0⟩
  block := ⟨1, 1, 1⟩
  elementBits := 8
  workspaceBytes := 0

/-- The window of its second tile is empty, but the transfer reads a byte, four bytes past the tensor. -/
theorem empty_window_leaves_tensor :
    sparseLayer.validate.run = .ok (.ok ()) ∧ sparseLayer.Small ∧
    sparseLayer.grid = .ok ⟨1, 2, 1⟩ ∧ Coord.ofBlock 0 1 0 ∈ (Grid.mk 1 2 1).tiles ∧
    ∃ t tile, Tiles.place sparseLayer ⟨.mid, 256⟩ ⟨.mid, 512⟩ ⟨.mid, 1024⟩ = .ok t ∧
      t.input.bytes = .ok 1 ∧ t.inputRuns (.ofBlock 0 1 0) = .ok (tile, [261]) ∧
      ¬ RunsWithin 256 1 (tile, [261]) ∧ tile.shape.totalBytes = .ok 1 ∧ tile.dims.bytes = .ok 0 := by
  refine ⟨rfl, ⟨?_, ?_, by decide, by decide⟩, rfl, by decide, _, _, rfl, rfl, rfl, ?_, rfl, rfl⟩
  · exact ⟨by decide, by decide, by decide, by decide, by decide, by decide⟩
  · exact ⟨by decide, by decide, by decide, by decide, by decide, by decide⟩
  · rintro ⟨-, hwithin⟩
    exact absurd (hwithin 261 (List.mem_singleton.mpr rfl)).2 (by decide)

end TileStream
