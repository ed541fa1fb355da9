import TileStream.Proofs.Checked
import TileStream.Proofs.Grid.Odometer

/-! # The odometer enumerates the grid

The three ways to go through a grid agree: stepping the odometer from the first
tile, reading a position as a coordinate, and reading a coordinate as a position.
All three are compared with `Grid.tiles`, the list the nested loops would visit. -/
namespace TileStream.Grid

open Unsigned

/-- The coordinates of the grid: each component is one of its blocks, and the
input channel block is that of the output. -/
structure Holds (g : Grid) (c : Coord) : Prop where
  outChannel_lt : c.outChannel < g.channels
  paired : c.inChannel = c.outChannel
  height_lt : c.height < g.height
  width_lt : c.width < g.width

/-- Where a coordinate stands in loop order. -/
def position (g : Grid) (c : Coord) : Nat := (c.outChannel * g.height + c.height) * g.width + c.width

variable {g : Grid} {c : Coord} {i n : Nat}

/-! ## The number of tiles -/

/-- A product that a word holds is the number of tiles, also when it is zero. -/
theorem size_of_total (h : g.total = .ok n) : n = g.size ∧ g.size < wordLimit := by
  obtain ⟨rows, hrows, hmul⟩ := Checked.bind_eq_ok.mp h
  obtain ⟨-, rfl⟩ := mul_eq_ok_iff.mp hrows
  obtain ⟨hlt, rfl⟩ := mul_eq_ok_iff.mp hmul
  exact ⟨rfl, hlt⟩

theorem size_eq_zero : g.size = 0 ↔ g.channels = 0 ∨ g.height = 0 ∨ g.width = 0 := by
  rw [size, Nat.mul_eq_zero, Nat.mul_eq_zero, or_assoc]

/-- A grid with tiles has none of its sizes zero. -/
theorem regular_of_size (hlt : g.size < wordLimit) (hpos : 0 < g.size) : g.Regular := by
  have hne : ¬ (g.channels = 0 ∨ g.height = 0 ∨ g.width = 0) := fun h =>
    Nat.ne_of_gt hpos (size_eq_zero.mpr h)
  push Not at hne
  obtain ⟨hc, hh, hw⟩ := hne
  exact ⟨Nat.pos_of_ne_zero hc, Nat.pos_of_ne_zero hh, Nat.pos_of_ne_zero hw, hlt⟩

/-! ## Positions and coordinates -/

theorem Holds.ofBlock_eq (hc : g.Holds c) : Coord.ofBlock c.outChannel c.height c.width = c := by
  obtain ⟨outChannel, inChannel, height, width⟩ := c
  obtain rfl : inChannel = outChannel := hc.paired
  rfl

theorem mem_tiles : c ∈ g.tiles ↔ g.Holds c := by
  constructor
  · intro hmem
    obtain ⟨hc, hpair, hh, hw⟩ := lt_of_mem_tiles hmem
    exact ⟨hc, hpair, hh, hw⟩
  · intro hc
    simp only [tiles, List.mem_flatMap, List.mem_map, List.mem_range]
    exact ⟨c.outChannel, hc.outChannel_lt, c.height, hc.height_lt, c.width, hc.width_lt,
      hc.ofBlock_eq⟩

theorem Holds.position_lt (hc : g.Holds c) : g.position c < g.size :=
  index_lt hc.outChannel_lt hc.height_lt hc.width_lt

theorem Holds.tileAt_position (hc : g.Holds c) : g.tileAt (g.position c) = c := by
  obtain ⟨hblock, hrow, hcol⟩ := index_digits (i := c.outChannel) hc.height_lt hc.width_lt
  rw [tileAt, blockAt, position, hblock, hrow, hcol, hc.ofBlock_eq]

theorem position_tileAt (i : Nat) : g.position (g.tileAt i) = i := by
  rw [position, tileAt, blockAt, Coord.ofBlock, Nat.div_add_mod', Nat.div_add_mod']

/-- The closed form of the coordinate at a position reads its digits. -/
theorem coordAt_eq (hg : g.Regular) (i : Nat) : g.coordAt i = .ok (g.tileAt i) := by
  have hplane : g.width * g.height < wordLimit := by
    have hle := Nat.mul_le_mul_right g.width (Nat.le_mul_of_pos_left g.height hg.channels_pos)
    have hlt := hg.size_lt
    rw [Nat.mul_comm]
    omega
  have hw : g.width ≠ 0 := Nat.ne_of_gt hg.width_pos
  have hh : g.height ≠ 0 := Nat.ne_of_gt hg.height_pos
  have hwh : g.width * g.height ≠ 0 := Nat.mul_ne_zero hw hh
  simp only [coordAt, rem, div, if_neg hw, if_neg hh, mul_of_lt hplane, if_neg hwh, tileAt, blockAt,
    Nat.div_div_eq_div_mul, bind, Except.bind, pure, Except.pure]

/-- The closed form of a position finishes at every coordinate of the grid: its
two intermediate sums count tiles of the grid too. -/
theorem indexOf_eq (hg : g.Regular) (hc : g.Holds c) : g.indexOf c = .ok (g.position c) := by
  have hposition := Nat.lt_trans hc.position_lt hg.size_lt
  have hrow : c.outChannel * g.height + c.height < wordLimit := by
    have hle := Nat.le_mul_of_pos_right (c.outChannel * g.height + c.height) hg.width_pos
    unfold position at hposition
    omega
  have hblock : c.outChannel * g.height < wordLimit := by omega
  have hscaled : (c.outChannel * g.height + c.height) * g.width < wordLimit := by
    unfold position at hposition
    omega
  simp only [indexOf, mul_of_lt hblock, add_of_lt hrow, mul_of_lt hscaled, bind, Except.bind]
  exact add_of_lt hposition

/-! ## The walk -/

/-- One step of the odometer goes down the list of the tiles by one. -/
theorem next_getElem? (hg : g.Regular) (hget : g.tiles[i]? = some c) :
    g.next c = .ok g.tiles[i + 1]? := by
  have hi : i < g.size := by
    rw [← length_tiles]
    exact (List.getElem?_eq_some_iff.mp hget).1
  rw [getElem?_tiles hg hi] at hget
  obtain rfl := Option.some.inj hget
  rw [next_tileAt hg hi]
  by_cases hlast : i + 1 < g.size
  · rw [if_pos hlast, getElem?_tiles hg hlast]
  · rw [if_neg hlast, List.getElem?_eq_none (by rw [length_tiles]; omega)]

/-- By induction on the steps that are left: a walk from a position takes what
the list holds from there on. -/
theorem walkFrom_eq (hg : g.Regular) (count i : Nat) :
    g.walkFrom count g.tiles[i]? = .ok ((g.tiles.drop i).take count) := by
  induction count generalizing i with
  | zero => rfl
  | succ count ih =>
    cases hget : g.tiles[i]? with
    | none =>
      rw [List.drop_eq_nil_iff.mpr (List.getElem?_eq_none_iff.mp hget)]
      rfl
    | some c =>
      obtain ⟨hi, rfl⟩ := List.getElem?_eq_some_iff.mp hget
      rw [walkFrom, next_getElem? hg hget, Checked.ok_bind, ih, List.drop_eq_getElem_cons hi,
        List.take_succ_cons]
      rfl

theorem first?_eq (h : g.total = .ok n) : g.first? = .ok g.tiles[0]? := by
  obtain ⟨rfl, hlt⟩ := size_of_total h
  rw [first?, h, Checked.ok_bind]
  by_cases hzero : g.size = 0
  · rw [if_pos hzero, List.getElem?_eq_none (by rw [length_tiles]; omega)]
    rfl
  · have hpos := Nat.pos_of_ne_zero hzero
    rw [if_neg hzero, getElem?_tiles (regular_of_size hlt hpos) hpos, tileAt_zero]
    rfl

/-- A walk of the odometer visits the tiles as the nested loops would. -/
theorem walk_eq (h : g.total = .ok n) (count : Nat) : g.walk count = .ok (g.tiles.take count) := by
  rw [walk, first?_eq h, Checked.ok_bind]
  obtain ⟨rfl, hlt⟩ := size_of_total h
  by_cases hzero : g.size = 0
  · have hnil : g.tiles = [] := List.length_eq_zero_iff.mp (by rw [length_tiles, hzero])
    rw [hnil]
    cases count <;> rfl
  · exact walkFrom_eq (regular_of_size hlt (Nat.pos_of_ne_zero hzero)) count 0

/-- Positions go up along the list of the tiles. -/
theorem pairwise_position (hg : g.Regular) :
    g.tiles.Pairwise fun c d => g.position c < g.position d := by
  rw [tiles_eq_map hg, List.pairwise_map]
  simp only [position_tileAt]
  exact List.pairwise_lt_range

/-- **The odometer enumerates the grid.** Where the number of tiles is a word,
the iterator yields as many coordinates as that number says, in the order of the
nested loops, and none exactly when a size is zero. The coordinate it yields at
position `i` lies in the grid with its channel block paired with itself; it is
the one that `coordAt` computes for `i`, `indexOf` computes `i` from it, the
odometer steps from it to the coordinate at `i + 1`, and it counts as the last one
exactly when there is none. Every coordinate of the grid has such a position, and
`indexOf` goes strictly up along the iteration. -/
theorem odometer_enumerates_grid (htotal : g.total = .ok n) :
    g.tiles.length = n ∧ (n = 0 ↔ g.channels = 0 ∨ g.height = 0 ∨ g.width = 0) ∧
    (∀ count, g.walk count = .ok (g.tiles.take count)) ∧
    (∀ i c, g.tiles[i]? = some c → g.Holds c ∧ g.coordAt i = .ok c ∧ g.indexOf c = .ok i ∧
      g.next c = .ok g.tiles[i + 1]? ∧ g.isLast c = .ok (decide (i + 1 = n))) ∧
    (∀ c, g.Holds c → ∃ i < n, g.indexOf c = .ok i ∧ g.coordAt i = .ok c) ∧
    g.tiles.Pairwise fun c d => ∃ i j, g.indexOf c = .ok i ∧ g.indexOf d = .ok j ∧ i < j := by
  obtain ⟨rfl, hlt⟩ := size_of_total htotal
  have hregular {c : Coord} (hc : g.Holds c) : g.Regular :=
    regular_of_size hlt (Nat.zero_lt_of_lt hc.position_lt)
  refine ⟨length_tiles g, size_eq_zero, walk_eq htotal, ?_, ?_, ?_⟩
  · intro i c hget
    have hc : g.Holds c := mem_tiles.mp (List.mem_of_getElem? hget)
    have hg := hregular hc
    have hi : i < g.size := by
      rw [← length_tiles]
      exact (List.getElem?_eq_some_iff.mp hget).1
    have htile : g.tileAt i = c := Option.some.inj ((getElem?_tiles hg hi).symm.trans hget)
    have hnext := next_getElem? hg hget
    refine ⟨hc, by rw [coordAt_eq hg, htile], ?_, hnext, ?_⟩
    · rw [indexOf_eq hg hc, ← htile, position_tileAt]
    · rw [isLast, hnext, Checked.ok_bind]
      refine congrArg Except.ok ?_
      rw [Bool.eq_iff_iff, Option.isNone_iff_eq_none, List.getElem?_eq_none_iff, length_tiles,
        decide_eq_true_iff]
      omega
  · intro c hc
    have hg := hregular hc
    exact ⟨g.position c, hc.position_lt, indexOf_eq hg hc, by rw [coordAt_eq hg, hc.tileAt_position]⟩
  · rcases Nat.eq_zero_or_pos g.size with hzero | hpos
    · rw [List.length_eq_zero_iff.mp ((length_tiles g).trans hzero)]
      exact List.Pairwise.nil
    · have hg := regular_of_size hlt hpos
      refine (pairwise_position hg).imp_of_mem ?_
      intro c d hc hd hlt
      exact ⟨_, _, indexOf_eq hg (mem_tiles.mp hc), indexOf_eq hg (mem_tiles.mp hd), hlt⟩

/-- Two channel blocks of two rows and one column: the odometer carries from the
height digit into the channel digit after the second tile. -/
theorem odometer_enumerates_grid_carry :
    (Grid.mk 2 2 1).total = .ok 4 ∧ (Grid.mk 2 2 1).coordAt 2 = .ok (.ofBlock 1 0 0) ∧
    (Grid.mk 2 2 1).next (.ofBlock 0 1 0) = .ok (some (.ofBlock 1 0 0)) ∧
    (Grid.mk 2 2 1).walk 9 =
      .ok [.ofBlock 0 0 0, .ofBlock 0 1 0, .ofBlock 1 0 0, .ofBlock 1 1 0] := by
  have htotal : (Grid.mk 2 2 1).total = .ok 4 := by decide
  obtain ⟨-, -, hwalk, hat, -, -⟩ := odometer_enumerates_grid htotal
  obtain ⟨-, hcoord, -, -, -⟩ := hat 2 (.ofBlock 1 0 0) (by decide)
  obtain ⟨-, -, -, hnext, -⟩ := hat 1 (.ofBlock 0 1 0) (by decide)
  exact ⟨htotal, hcoord, hnext, hwalk 9⟩

end TileStream.Grid
