import Mathlib.Data.List.Nodup
import TileStream.Proofs.Checked
import TileStream.Proofs.Grid.Odometer
import TileStream.Team.Member

/-! # Dividing items among the units of a team

The shares of a team are consecutive. Every item is in the share of one unit,
its owner (`share_exists`), and the share of a lone unit has all of them. -/
namespace TileStream.Member

open Unsigned

/-- The unit that owns item `c` of `n`. -/
def ownerOf (units n c : Nat) : Member := ⟨c / blocks n (max units 1), max units 1⟩

theorem ownerOf_mem (units : Nat) {n c : Nat} (hc : c < n ∨ n = 0) :
    ownerOf units n c ∈ team units := by
  have hunits : 0 < max units 1 := Nat.lt_of_lt_of_le Nat.zero_lt_one (Nat.le_max_right units 1)
  refine mem_team.mpr ⟨?_, rfl⟩
  show c / blocks n (max units 1) < max units 1
  rcases hc with hc | rfl
  · rw [Nat.div_lt_iff_lt_mul (blocks_pos hunits (Nat.zero_lt_of_lt hc)), Nat.mul_comm]
    exact Nat.lt_of_lt_of_le hc (le_blocks_mul hunits)
  · rw [Nat.le_zero.mp (blocks_le (n := 0) hunits), Nat.div_zero]
    exact hunits

theorem nodup_team (units : Nat) : (team units).Nodup :=
  List.Nodup.map (fun _ _ h => congrArg index h) List.nodup_range

theorem share_inv {u : Member} {n : Nat} {share : Share} (h : u.share n = .ok share) :
    ∃ chunk, ceilDiv n (max u.size 1) = .ok chunk ∧ share.start = min (u.index * chunk) n ∧
      share.stop = min (share.start + chunk) n := by
  obtain ⟨chunk, hchunk, h⟩ := Checked.bind_eq_ok.mp h
  obtain ⟨first, hfirst, h⟩ := Checked.bind_eq_ok.mp h
  obtain ⟨last, hlast, h⟩ := Checked.bind_eq_ok.mp h
  cases h
  obtain ⟨-, rfl⟩ := mul_eq_ok_iff.mp hfirst
  obtain ⟨-, rfl⟩ := add_eq_ok_iff.mp hlast
  exact ⟨chunk, hchunk, rfl, rfl⟩

theorem share_stop_le {u : Member} {n : Nat} {share : Share} (h : u.share n = .ok share) :
    share.stop ≤ n := by
  obtain ⟨_, -, -, hstop⟩ := share_inv h
  omega

/-- The share of a unit ends before that of a later one begins. -/
theorem share_stop_le_start {u v : Member} {n : Nat} {s t : Share} (hsize : u.size = v.size)
    (hlt : u.index < v.index) (hs : u.share n = .ok s) (ht : v.share n = .ok t) :
    s.stop ≤ t.start := by
  obtain ⟨chunk, hchunk, hstart, hstop⟩ := share_inv hs
  obtain ⟨chunk', hchunk', hstart', -⟩ := share_inv ht
  rw [hsize, hchunk'] at hchunk
  cases hchunk
  have hstep := Nat.mul_le_mul_right chunk hlt
  rw [Nat.succ_mul] at hstep
  omega

/-- Every unit of a team has its share, the items that it owns. -/
theorem share_exists {units n : Nat} {u : Member} (hu : u ∈ team units) (hunits : units < wordLimit)
    (hn : n < 0x8000000000000000) : ∃ share, u.share n = .ok share ∧
      ∀ c < n, (share.start ≤ c ∧ c < share.stop) ↔ ownerOf units n c = u := by
  obtain ⟨index, size⟩ := u
  obtain ⟨hindex, rfl⟩ := mem_team.mp hu
  have hpos : 0 < max units 1 := Nat.lt_of_lt_of_le Nat.zero_lt_one (Nat.le_max_right units 1)
  have hle := blocks_le (n := n) hpos
  have hlimit : max units 1 < wordLimit := by
    unfold wordLimit at *
    omega
  refine ⟨⟨min (index * blocks n (max units 1)) n,
    min (min (index * blocks n (max units 1)) n + blocks n (max units 1)) n⟩, ?_, fun c hc => ?_⟩
  · rw [share, Nat.max_eq_left (Nat.le_max_right units 1), ceilDiv_of_pos hpos, Checked.ok_bind]
    show mul index (blocks n (max units 1)) >>= _ = _
    rw [mul_of_lt (mul_blocks_lt_wordLimit (Nat.le_of_lt hn) hlimit hindex), Checked.ok_bind]
    show add (min _ n) (blocks n (max units 1)) >>= _ = _
    rw [add_of_lt (by omega)]
    rfl
  · have hiff : ownerOf units n c = ⟨index, max units 1⟩ ↔ c / blocks n (max units 1) = index := by
      simp [ownerOf]
    rw [hiff, Nat.div_eq_iff (blocks_pos hpos (Nat.zero_lt_of_lt hc))]
    have hchunk := blocks_pos hpos (Nat.zero_lt_of_lt hc)
    simp only
    omega

/-- A lone unit has everything to do. -/
theorem share_alone {n : Nat} {share : Share} (h : (⟨0, 1⟩ : Member).share n = .ok share) :
    share = ⟨0, n⟩ := by
  obtain ⟨chunk, hchunk, hstart, hstop⟩ := share_inv h
  obtain ⟨-, rfl⟩ := ceilDiv_eq_ok_iff.mp hchunk
  obtain ⟨start, stop⟩ := share
  simp only [Nat.zero_mul, Nat.zero_min] at hstart hstop
  rw [hstop, hstart]
  simp

end TileStream.Member
