import TileStream.Proofs.Grid.Odometer
import TileStream.Schedule.TileLoop

/-! # The tile loop in closed form

After `i` iterations the loop over a regular grid is in the state `loopAt g i`,
and its next iteration is `iterationAt g i`: the parities of the input and
output slots are the parity of `i`, that of the weight slots is the parity of
the channel block. -/
namespace TileStream

/-- The slot that is used at an even or odd count. -/
def Parity.of (n : Nat) : Parity := if n % 2 = 0 then .a else .b

namespace Parity

theorem of_succ (n : Nat) : Parity.of (n + 1) = (Parity.of n).flip := by
  unfold Parity.of
  rcases Nat.mod_two_eq_zero_or_one n with h | h
  · have hnext : (n + 1) % 2 = 1 := by omega
    simp [h, hnext, flip]
  · have hnext : (n + 1) % 2 = 0 := by omega
    simp [h, hnext, flip]

theorem of_succ_ne (n : Nat) : Parity.of (n + 1) ≠ Parity.of n := by
  rw [of_succ]; exact flip_ne _

theorem ne_flip (p : Parity) : p ≠ p.flip := fun h => flip_ne p h.symm

end Parity

namespace Grid

def boundaryAt (g : Grid) (i : Nat) : Sides Bool :=
  ⟨i / g.width % g.height == 0, i / g.width % g.height + 1 == g.height,
    i % g.width == 0, i % g.width + 1 == g.width⟩

def tileAfter (g : Grid) (i : Nat) : Option Coord :=
  if i + 1 < g.size then some (g.tileAt (i + 1)) else none

/-- The tile at position `i + 1` needs other weights than the one at `i`. -/
def changesAt (g : Grid) (i : Nat) : Bool :=
  i + 1 < g.size && g.blockAt (i + 1) != g.blockAt i

/-- Iteration `i` of the loop over a grid. -/
def iterationAt (g : Grid) (i : Nat) : Iteration where
  index := i
  exec := g.tileAt i
  load := g.tileAfter i
  slots := ⟨.ofExec (.of i), .ofExec (.of (g.blockAt i)), .of i⟩
  reloadsWeights := g.changesAt i
  boundary := g.boundaryAt i

/-- The channel block whose weights are in use after `i` iterations. -/
def weightsAt (g : Grid) (i : Nat) : Nat := min (g.blockAt i) (g.channels - 1)

def loopAt (g : Grid) (i : Nat) : TileLoop where
  grid := g
  total := g.size
  slots := ⟨.of i, .of (g.weightsAt i), .of i⟩
  exec := if i < g.size then some (g.tileAt i) else none
  index := i
  prefetches := min i (g.size - 1)
  weightReloads := g.weightsAt i

theorem boundary_tileAt {g : Grid} (hg : g.Regular) (i : Nat) :
    g.boundary (g.tileAt i) = .ok (g.boundaryAt i) := by
  obtain ⟨_, hh, hw, _⟩ := size_le_limits hg
  have hwlt := Nat.mod_lt i hg.width_pos
  have hhlt := Nat.mod_lt (i / g.width) hg.height_pos
  have haddw : Unsigned.add (i % g.width) 1 = .ok (i % g.width + 1) :=
    Unsigned.add_eq_ok_iff.mpr ⟨by omega, rfl⟩
  have haddh : Unsigned.add (i / g.width % g.height) 1 = .ok (i / g.width % g.height + 1) :=
    Unsigned.add_eq_ok_iff.mpr ⟨by omega, rfl⟩
  simp only [boundary, tileAt, Coord.ofBlock, haddw, haddh, bind, Except.bind, pure, Except.pure,
    boundaryAt]

theorem weightsAt_of_lt {g : Grid} {i : Nat} (hi : i < g.size) : g.weightsAt i = g.blockAt i := by
  have := blockAt_lt hi
  unfold weightsAt
  omega

theorem weightsAt_size {g : Grid} (hg : g.Regular) : g.weightsAt g.size = g.channels - 1 := by
  have hend : g.blockAt g.size = g.channels := by
    rw [blockAt, size, Nat.mul_div_cancel _ hg.width_pos, Nat.mul_div_cancel _ hg.height_pos]
  unfold weightsAt
  omega

/-- The weights in use go over to the next channel block when the tile after
this one belongs to another. -/
theorem weightsAt_succ {g : Grid} (hg : g.Regular) {i : Nat} (hi : i < g.size) :
    g.weightsAt (i + 1) = if g.changesAt i then g.blockAt i + 1 else g.blockAt i := by
  by_cases hnext : i + 1 < g.size
  · rw [weightsAt_of_lt hnext]
    rcases blockAt_succ hg i with h | h <;> simp [changesAt, hnext, h]
  · have hsize : i + 1 = g.size := by omega
    have hlast : i = g.size - 1 := by omega
    simp only [changesAt, hnext, decide_false, Bool.false_and]
    rw [hsize, weightsAt_size hg, hlast, blockAt_last hg]
    rfl

theorem changesChannelBlock_tileAt (g : Grid) (i : Nat) :
    (g.tileAt (i + 1)).changesChannelBlock (g.tileAt i) = (g.blockAt (i + 1) != g.blockAt i) := by
  rw [Bool.eq_iff_iff]
  simp [Coord.changesChannelBlock, Coord.channelPair, tileAt, Coord.ofBlock]

theorem reloads_tileAfter (g : Grid) (i : Nat) :
    (g.tileAfter i).any (·.changesChannelBlock (g.tileAt i)) = g.changesAt i := by
  unfold tileAfter changesAt
  by_cases h : i + 1 < g.size
  · simp [h, changesChannelBlock_tileAt]
  · simp [h]

end Grid

namespace TileLoop

open Grid

theorem start_eq {g : Grid} (hg : g.Regular) : TileLoop.start g = .ok (g.loopAt 0) := by
  have hpos := size_pos hg
  simp only [TileLoop.start, total_eq hg, bind, Except.bind, pure, Except.pure, loopAt,
    if_neg (Nat.ne_of_gt hpos), if_pos hpos, tileAt_zero, weightsAt, blockAt_zero, Nat.zero_min]
  rfl

/-- One iteration goes from the state after `i` iterations to the one after `i + 1`. -/
theorem next_loopAt {g : Grid} (hg : g.Regular) {i : Nat} (hi : i < g.size) :
    (g.loopAt i).next = .ok (some (g.iterationAt i, g.loopAt (i + 1))) := by
  have hload : g.next (g.tileAt i) = .ok (g.tileAfter i) := next_tileAt hg hi
  have hweights : (if g.changesAt i then Parity.of (g.blockAt i + 1) else Parity.of (g.blockAt i))
      = Parity.of (g.weightsAt (i + 1)) := by
    rw [weightsAt_succ hg hi]
    split <;> rfl
  have hprefetches : (if (g.tileAfter i).isSome then min i (g.size - 1) + 1 else min i (g.size - 1))
      = min (i + 1) (g.size - 1) := by
    by_cases h : i + 1 < g.size <;> simp [tileAfter, h] <;> omega
  have hreloads : (if g.changesAt i then g.blockAt i + 1 else g.blockAt i) = g.weightsAt (i + 1) :=
    (weightsAt_succ hg hi).symm
  simp only [TileLoop.next, loopAt, if_pos hi, hload, boundary_tileAt hg, reloads_tileAfter, bind,
    Except.bind, pure, Except.pure, Slots.plan, Slots.advance, weightsAt_of_lt hi, hprefetches,
    ← Parity.of_succ, hweights, hreloads]
  rfl

theorem next_loopAt_size (g : Grid) : (g.loopAt g.size).next = .ok none := by
  simp only [TileLoop.next, loopAt, if_neg (Nat.lt_irrefl g.size)]
  rfl

end TileLoop

end TileStream
