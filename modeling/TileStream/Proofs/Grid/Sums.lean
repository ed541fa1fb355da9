import Mathlib.Algebra.BigOperators.Ring.List
import Mathlib.Algebra.Ring.Nat
import TileStream.Proofs.Grid.Odometer

/-! # Sums over chunks and over tiles

A length is the sum of the chunks that it is cut into (`sum_chunks`). Over the
tiles of a grid a product of one factor for each axis sums to the product of the
sums over the axes (`Grid.sum_tiles`). -/
namespace TileStream

/-- The first `n` chunks together end where the last of them does. -/
theorem sum_chunks (total chunk n : Nat) :
    ((List.range n).map fun i => min chunk (total - i * chunk)).sum = min (n * chunk) total := by
  induction n with
  | zero => simp
  | succ n ih =>
    rw [List.range_succ, List.map_append, List.sum_append, ih, List.map_singleton,
      List.sum_singleton, Nat.succ_mul]
    omega

/-- The blocks that cover a length have it together. -/
theorem sum_blocks (total : Nat) {block : Nat} (h : 0 < block) :
    ((List.range (blocks total block)).map fun i => min block (total - i * block)).sum = total := by
  rw [sum_chunks, Nat.min_eq_right (le_blocks_mul h)]

theorem sum_range_mul (f : Nat → Nat) (m n : Nat) : ((List.range (m * n)).map f).sum =
    ((List.range m).map fun i => ((List.range n).map fun k => f (i * n + k)).sum).sum := by
  induction m with
  | zero => simp
  | succ m ih =>
    rw [Nat.succ_mul, List.range_add, List.map_append, List.sum_append, ih, List.map_map,
      List.range_succ, List.map_append, List.sum_append, List.map_singleton, List.sum_singleton]
    rfl

/-- A sum over two digits of a product of one factor for each. -/
theorem sum_digits (f g : Nat → Nat) (m : Nat) {n : Nat} (hn : 0 < n) :
    ((List.range (m * n)).map fun k => f (k / n) * g (k % n)).sum =
      ((List.range m).map f).sum * ((List.range n).map g).sum := by
  rw [sum_range_mul, ← List.sum_map_mul_right]
  refine congrArg List.sum (List.map_congr_left fun i _ => ?_)
  rw [← List.sum_map_mul_left]
  refine congrArg List.sum (List.map_congr_left fun k hk => ?_)
  have hlt := List.mem_range.mp hk
  rw [Nat.add_comm, Nat.add_mul_div_right _ _ hn, Nat.div_eq_of_lt hlt, Nat.zero_add,
    Nat.add_mul_mod_self_right, Nat.mod_eq_of_lt hlt]

namespace Grid

/-- **A sum over all tiles** of a product of one factor for each axis. -/
theorem sum_tiles {g : Grid} (hg : g.Regular) (channel row col : Nat → Nat) :
    ((List.range g.size).map fun k =>
      channel (g.blockAt k) * (row (k / g.width % g.height) * col (k % g.width))).sum =
      ((List.range g.channels).map channel).sum *
        (((List.range g.height).map row).sum * ((List.range g.width).map col).sum) := by
  have hplane := sum_digits (fun n => channel (n / g.height) * row (n % g.height)) col
    (g.channels * g.height) hg.width_pos
  rw [sum_digits channel row g.channels hg.height_pos] at hplane
  have hassoc : ∀ k ∈ List.range g.size,
      channel (g.blockAt k) * (row (k / g.width % g.height) * col (k % g.width)) =
        channel (k / g.width / g.height) * row (k / g.width % g.height) * col (k % g.width) :=
    fun k _ => (Nat.mul_assoc _ _ _).symm
  rw [List.map_congr_left hassoc, ← Nat.mul_assoc]
  exact hplane

end Grid

end TileStream
