import TileStream.Layer.Grid

/-! # The odometer and the order of the tiles

`Grid.tiles` lists the tiles in loop order, as three nested loops would visit
them. `tileAt` reads a position as three digits, and `next_tileAt` says that one
step of the odometer goes from a position to the one after it: the width digit
carries into the height digit and that one into the channel digit. The sizes of
a grid count blocks: `blocks n b` blocks of `b` cover `n`. -/
namespace TileStream

/-- How many blocks of `b` cover `n`. -/
def blocks (n b : Nat) : Nat := (n + b - 1) / b

theorem index_lt {a b n i j k : Nat} (hi : i < a) (hj : j < b) (hk : k < n) :
    (i * b + j) * n + k < a * b * n := by
  have hrow := Nat.mul_le_mul_right b (show i + 1 ≤ a from hi)
  have hpixel := Nat.mul_le_mul_right n (show i * b + j + 1 ≤ a * b by
    rw [Nat.add_mul] at hrow; omega)
  rw [Nat.add_mul _ 1] at hpixel
  omega

theorem index_inj {b n i j k i' j' k' : Nat} (hj : j < b) (hk : k < n) (hj' : j' < b) (hk' : k' < n)
    (h : (i * b + j) * n + k = (i' * b + j') * n + k') : i = i' ∧ j = j' ∧ k = k' := by
  have hdigits : ∀ {m q q' r r' : Nat}, r < m → r' < m → q * m + r = q' * m + r' →
      q = q' ∧ r = r' := by
    intro m q q' r r' hr hr' heq
    have hmod := congrArg (· % m) heq
    simp only [Nat.mul_add_mod', Nat.mod_eq_of_lt hr, Nat.mod_eq_of_lt hr'] at hmod
    subst hmod
    exact ⟨Nat.eq_of_mul_eq_mul_right (Nat.zero_lt_of_lt hr) (Nat.add_right_cancel heq), rfl⟩
  obtain ⟨hpixel, rfl⟩ := hdigits hk hk' h
  obtain ⟨rfl, rfl⟩ := hdigits hj hj' hpixel
  exact ⟨rfl, rfl, rfl⟩

/-- The digits of an index. -/
theorem index_digits {b n i j k : Nat} (hj : j < b) (hk : k < n) :
    ((i * b + j) * n + k) / n / b = i ∧ ((i * b + j) * n + k) / n % b = j ∧
      ((i * b + j) * n + k) % n = k := by
  have hdiv : ((i * b + j) * n + k) / n = i * b + j := by
    rw [Nat.mul_comm, Nat.mul_add_div (Nat.zero_lt_of_lt hk), Nat.div_eq_of_lt hk, Nat.add_zero]
  rw [hdiv]
  refine ⟨?_, ?_, ?_⟩
  · rw [Nat.mul_comm, Nat.mul_add_div (Nat.zero_lt_of_lt hj), Nat.div_eq_of_lt hj, Nat.add_zero]
  · rw [Nat.mul_add_mod', Nat.mod_eq_of_lt hj]
  · rw [Nat.mul_add_mod', Nat.mod_eq_of_lt hk]

theorem lt_blocks_iff {n b i : Nat} (hb : 0 < b) : i < blocks n b ↔ i * b < n := by
  unfold blocks
  rw [← Nat.succ_le_iff, Nat.le_div_iff_mul_le hb, Nat.succ_mul]
  omega

theorem blocks_pos {n b : Nat} (hb : 0 < b) (hn : 0 < n) : 0 < blocks n b := by
  rw [lt_blocks_iff hb, Nat.zero_mul]
  exact hn

theorem le_blocks_mul {n b : Nat} (hb : 0 < b) : n ≤ blocks n b * b :=
  Nat.le_of_not_lt fun hlt => Nat.lt_irrefl _ ((lt_blocks_iff hb).mpr hlt)

theorem blocks_le {n b : Nat} (hb : 0 < b) : blocks n b ≤ n := by
  rcases Nat.lt_or_ge n (blocks n b) with hlt | hle
  · rw [lt_blocks_iff hb] at hlt
    have := Nat.le_mul_of_pos_right n hb
    omega
  · exact hle

/-- The parts before one of `b` parts hold less than one item for each part more than there are. -/
theorem mul_blocks_lt {n b i : Nat} (hi : i < b) : i * blocks n b < n + b := by
  have hle := Nat.mul_le_mul_right (blocks n b) (Nat.le_of_lt hi)
  have hall : blocks n b * b ≤ n + b - 1 := Nat.div_mul_le_self _ _
  rw [Nat.mul_comm] at hall
  omega

/-- Where a part begins is a word, however many parts there are. -/
theorem mul_blocks_lt_wordLimit {n b i : Nat} (hn : n ≤ 0x8000000000000000) (hb : b < wordLimit)
    (hi : i < b) : i * blocks n b < wordLimit := by
  unfold wordLimit at *
  by_cases hmany : b ≤ n
  · have hlt := mul_blocks_lt (n := n) hi
    omega
  · have hone : blocks n b ≤ 1 := by
      unfold blocks
      rw [Nat.div_le_iff_le_mul_add_pred (by omega)]
      omega
    have hle := Nat.mul_le_mul_left i hone
    omega

end TileStream

namespace TileStream.Grid

open Unsigned

/-- No size is zero, and the number of tiles is a machine word. -/
structure Regular (g : Grid) : Prop where
  channels_pos : 0 < g.channels
  height_pos : 0 < g.height
  width_pos : 0 < g.width
  size_lt : g.channels * g.height * g.width < wordLimit

def size (g : Grid) : Nat := g.channels * g.height * g.width

/-- Every tile in loop order: channel block outermost, then height, then width. -/
def tiles (g : Grid) : List Coord :=
  (List.range g.channels).flatMap fun c =>
    (List.range g.height).flatMap fun h => (List.range g.width).map fun w => .ofBlock c h w

/-- The channel block of the tile at position `i`. -/
def blockAt (g : Grid) (i : Nat) : Nat := i / g.width / g.height

/-- The tile at position `i`. -/
def tileAt (g : Grid) (i : Nat) : Coord :=
  .ofBlock (g.blockAt i) (i / g.width % g.height) (i % g.width)

/-! ## Positions and digits -/

/-- Counting one further either leaves the quotient alone or carries. -/
theorem succ_div_mod {n : Nat} (hn : 0 < n) (i : Nat) :
    (i % n + 1 < n ∧ (i + 1) / n = i / n ∧ (i + 1) % n = i % n + 1) ∨
      (i % n + 1 = n ∧ (i + 1) / n = i / n + 1 ∧ (i + 1) % n = 0) := by
  have hlt := Nat.mod_lt i hn
  have hsplit := Nat.div_add_mod i n
  by_cases hcarry : i % n + 1 < n
  · left
    have hsum : i + 1 = n * (i / n) + (i % n + 1) := by omega
    refine ⟨hcarry, ?_, ?_⟩
    · rw [hsum, Nat.mul_add_div hn, Nat.div_eq_of_lt hcarry, Nat.add_zero]
    · rw [hsum, Nat.mul_add_mod, Nat.mod_eq_of_lt hcarry]
  · right
    have hfull : i % n + 1 = n := by omega
    have hsum : i + 1 = n * (i / n + 1) := by rw [Nat.mul_add, Nat.mul_one]; omega
    refine ⟨hfull, ?_, ?_⟩
    · rw [hsum, Nat.mul_div_cancel_left _ hn]
    · rw [hsum, Nat.mul_mod_right]

theorem size_pos {g : Grid} (hg : g.Regular) : 0 < g.size :=
  Nat.mul_pos (Nat.mul_pos hg.channels_pos hg.height_pos) hg.width_pos

theorem rows_lt {g : Grid} {i : Nat} (hi : i < g.size) : i / g.width < g.channels * g.height :=
  Nat.div_lt_of_lt_mul (by rw [Nat.mul_comm]; exact hi)

theorem blockAt_lt {g : Grid} {i : Nat} (hi : i < g.size) : g.blockAt i < g.channels :=
  Nat.div_lt_of_lt_mul (by rw [Nat.mul_comm]; exact rows_lt hi)

theorem size_le_limits {g : Grid} (hg : g.Regular) :
    g.channels < wordLimit ∧ g.height < wordLimit ∧ g.width < wordLimit ∧
      g.channels * g.height < wordLimit := by
  have hsize := hg.size_lt
  have hrows := Nat.le_mul_of_pos_right (g.channels * g.height) hg.width_pos
  have hc := Nat.le_mul_of_pos_right g.channels hg.height_pos
  have hh := Nat.le_mul_of_pos_left g.height hg.channels_pos
  have hw := Nat.le_mul_of_pos_left g.width (Nat.mul_pos hg.channels_pos hg.height_pos)
  omega

theorem total_eq {g : Grid} (hg : g.Regular) : g.total = .ok g.size := by
  have hrows : mul g.channels g.height = .ok (g.channels * g.height) :=
    mul_eq_ok_iff.mpr ⟨(size_le_limits hg).2.2.2, rfl⟩
  unfold total
  rw [hrows]
  exact mul_eq_ok_iff.mpr ⟨hg.size_lt, rfl⟩

theorem blockAt_zero (g : Grid) : g.blockAt 0 = 0 := by simp [blockAt]

theorem tileAt_zero (g : Grid) : g.tileAt 0 = .origin := by
  simp [tileAt, blockAt, Coord.ofBlock, Coord.origin]

theorem blockAt_last {g : Grid} (hg : g.Regular) : g.blockAt (g.size - 1) = g.channels - 1 := by
  have hlast : g.size - 1 < g.size := Nat.sub_lt (size_pos hg) Nat.one_pos
  have hlow : g.channels - 1 ≤ g.blockAt (g.size - 1) := by
    unfold blockAt
    rw [Nat.le_div_iff_mul_le hg.height_pos, Nat.le_div_iff_mul_le hg.width_pos]
    have hsplit : g.size = (g.channels - 1) * g.height * g.width + g.height * g.width := by
      have hc : g.channels = g.channels - 1 + 1 := by have := hg.channels_pos; omega
      rw [size, hc, Nat.add_mul, Nat.add_mul, Nat.one_mul, Nat.add_sub_cancel]
    have := Nat.mul_pos hg.height_pos hg.width_pos
    omega
  have := blockAt_lt hlast
  omega

/-- From one position to the next the channel block stays or goes up by one. -/
theorem blockAt_succ {g : Grid} (hg : g.Regular) (i : Nat) :
    g.blockAt (i + 1) = g.blockAt i ∨ g.blockAt (i + 1) = g.blockAt i + 1 := by
  unfold blockAt
  rcases succ_div_mod hg.width_pos i with ⟨_, hq, _⟩ | ⟨_, hq, _⟩
  · rw [hq]; exact Or.inl rfl
  · rw [hq]
    rcases succ_div_mod hg.height_pos (i / g.width) with ⟨_, hc, _⟩ | ⟨_, hc, _⟩
    · exact Or.inl hc
    · exact Or.inr hc

/-! ## One step -/

/-- One step of the odometer goes to the tile at the next position, and past the
last position there is none. -/
theorem next_tileAt {g : Grid} (hg : g.Regular) {i : Nat} (hi : i < g.size) :
    g.next (g.tileAt i) = .ok (if i + 1 < g.size then some (g.tileAt (i + 1)) else none) := by
  obtain ⟨hc, hh, hw, _⟩ := size_le_limits hg
  have hwlt := Nat.mod_lt i hg.width_pos
  have hhlt := Nat.mod_lt (i / g.width) hg.height_pos
  have hblock := blockAt_lt hi
  have haddw : add (i % g.width) 1 = .ok (i % g.width + 1) :=
    add_eq_ok_iff.mpr ⟨by omega, rfl⟩
  have haddh : add (i / g.width % g.height) 1 = .ok (i / g.width % g.height + 1) :=
    add_eq_ok_iff.mpr ⟨by omega, rfl⟩
  have haddc : add (g.blockAt i) 1 = .ok (g.blockAt i + 1) :=
    add_eq_ok_iff.mpr ⟨by omega, rfl⟩
  simp only [next, tileAt, Coord.ofBlock, haddw, haddh, haddc, bind, Except.bind, pure, Except.pure]
  rcases succ_div_mod hg.width_pos i with ⟨hlt, hq, hr⟩ | ⟨hfull, hq, hr⟩
  · -- the width digit goes up; the position stays inside its row
    have hin : i + 1 < g.size := by
      have hrow := rows_lt hi
      rw [← hq] at hrow
      exact (Nat.div_lt_iff_lt_mul hg.width_pos).mp hrow
    rw [if_pos hlt, if_pos hin]
    simp only [blockAt, hq, hr]
  · rw [if_neg (by omega)]
    rcases succ_div_mod hg.height_pos (i / g.width) with ⟨hlt, hc', hr'⟩ | ⟨hfull', hc', hr'⟩
    · -- the width digit carries into the height digit
      have hin : i + 1 < g.size := by
        have hb : (i / g.width + 1) / g.height < g.channels := by rw [hc']; exact hblock
        have hrow := (Nat.div_lt_iff_lt_mul hg.height_pos).mp hb
        rw [← hq] at hrow
        exact (Nat.div_lt_iff_lt_mul hg.width_pos).mp hrow
      rw [if_pos hlt, if_pos hin]
      simp only [blockAt, hq, hr, hc', hr']
    · -- both carry; there is a next tile exactly when another channel block is left
      rw [if_neg (by omega)]
      have hiff : g.blockAt i + 1 < g.channels ↔ i + 1 < g.size := by
        have hb : (i + 1) / g.width / g.height = g.blockAt i + 1 := by rw [hq, hc', blockAt]
        rw [← hb, Nat.div_lt_iff_lt_mul hg.height_pos, Nat.div_lt_iff_lt_mul hg.width_pos, size]
      by_cases hin : i + 1 < g.size
      · rw [if_pos (hiff.mpr hin), if_pos hin]
        simp only [blockAt, hq, hr, hc', hr']
      · rw [if_neg (fun h => hin (hiff.mp h)), if_neg hin]

/-! ## The list of the tiles -/

theorem length_flatMap_range {α : Type} (f : Nat → List α) {n : Nat}
    (hf : ∀ q, (f q).length = n) (m : Nat) : ((List.range m).flatMap f).length = m * n := by
  induction m with
  | zero => simp
  | succ m ih => rw [List.range_succ, List.flatMap_append, List.length_append, ih,
      List.flatMap_singleton, hf, Nat.add_mul, Nat.one_mul]

theorem length_tiles (g : Grid) : g.tiles.length = g.size := by
  have hplane (c : Nat) : ((List.range g.height).flatMap fun h =>
      (List.range g.width).map fun w => Coord.ofBlock c h w).length = g.height * g.width :=
    length_flatMap_range _ (fun _ => by simp) _
  rw [tiles, length_flatMap_range _ hplane, size, Nat.mul_assoc]

/-- Position `q * n + r` of `m` lists of `n` elements is position `r` of list `q`. -/
theorem getElem?_flatMap_range {α : Type} (f : Nat → List α) {n : Nat} (hn : 0 < n)
    (hf : ∀ q, (f q).length = n) (m i : Nat) (hi : i < m * n) :
    ((List.range m).flatMap f)[i]? = (f (i / n))[i % n]? := by
  induction m with
  | zero => omega
  | succ m ih =>
    have hlen := length_flatMap_range f hf m
    rw [List.range_succ, List.flatMap_append, List.flatMap_singleton]
    by_cases hlt : i < m * n
    · rw [List.getElem?_append_left (by rw [hlen]; exact hlt), ih hlt]
    · have hdiv : i / n = m := by
        rw [Nat.div_eq_iff hn]
        rw [Nat.add_mul] at hi
        omega
      have hmod : i - m * n = i % n := by
        have := Nat.div_add_mod i n
        rw [hdiv, Nat.mul_comm] at this
        omega
      rw [List.getElem?_append_right (by rw [hlen]; omega), hlen, hdiv, hmod]

theorem getElem?_tiles {g : Grid} (hg : g.Regular) {i : Nat} (hi : i < g.size) :
    g.tiles[i]? = some (g.tileAt i) := by
  have hplane : 0 < g.height * g.width := Nat.mul_pos hg.height_pos hg.width_pos
  have hin : i % (g.height * g.width) < g.height * g.width := Nat.mod_lt i hplane
  have hrow : i % (g.height * g.width) / g.width = i / g.width % g.height := by
    rw [Nat.mul_comm, Nat.mod_mul_right_div_self]
  have hcol : i % (g.height * g.width) % g.width = i % g.width :=
    Nat.mod_mul_left_mod i g.height g.width
  have hblock : i / (g.height * g.width) = g.blockAt i := by
    rw [blockAt, Nat.div_div_eq_div_mul, Nat.mul_comm g.width]
  rw [tiles, getElem?_flatMap_range _ hplane
      (fun _ => length_flatMap_range _ (fun _ => by simp) _) _ _ (by rw [← Nat.mul_assoc]; exact hi),
    getElem?_flatMap_range _ hg.width_pos (by simp) _ _ hin,
    List.getElem?_map, List.getElem?_range (Nat.mod_lt _ hg.width_pos), Option.map_some,
    hrow, hcol, hblock, tileAt]

theorem tiles_eq_map {g : Grid} (hg : g.Regular) : g.tiles = (List.range g.size).map g.tileAt := by
  refine List.ext_getElem? fun i => ?_
  by_cases hi : i < g.size
  · rw [getElem?_tiles hg hi, List.getElem?_map, List.getElem?_range hi, Option.map_some]
  · rw [List.getElem?_eq_none (by rw [length_tiles]; omega), List.getElem?_eq_none (by simp; omega)]

/-- Every coordinate of the grid has a position. -/
theorem exists_tileAt {g : Grid} (hg : g.Regular) {c : Coord} (hc : c ∈ g.tiles) :
    ∃ k < g.size, c = g.tileAt k := by
  obtain ⟨k, hk⟩ := List.getElem?_of_mem hc
  have hlt : k < g.size := by
    rw [← length_tiles]
    exact (List.getElem?_eq_some_iff.mp hk).1
  rw [getElem?_tiles hg hlt] at hk
  exact ⟨k, hlt, (Option.some.inj hk).symm⟩

/-- The tiles of the grid pair every channel block with itself. -/
theorem lt_of_mem_tiles {g : Grid} {c : Coord} (h : c ∈ g.tiles) : c.outChannel < g.channels ∧
    c.inChannel = c.outChannel ∧ c.height < g.height ∧ c.width < g.width := by
  simp only [tiles, List.mem_flatMap, List.mem_map, List.mem_range] at h
  obtain ⟨b, hb, y, hy, x, hx, rfl⟩ := h
  exact ⟨hb, rfl, hy, hx⟩

end TileStream.Grid
