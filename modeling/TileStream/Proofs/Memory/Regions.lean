import Mathlib.Tactic.Common
import TileStream.Memory.Region

/-! # Counting by first match

A list of registered regions counts an access on the first region that it
overlaps. Which one this is depends on the ranges of the regions only, and these
never change, so that a region can be followed through any number of accesses:
`Region.Stands` says where it stands, and `Stands.touchFirst` when it is counted
on. Registering more regions leaves it where it is. -/
namespace TileStream

/-- What a transfer does to one of its two sides. -/
inductive Access where
  | read
  | write
  deriving DecidableEq

namespace Region

/-- The transfers of one kind that a region has counted. -/
def counted (r : Region) : Access → Nat
  | .read => r.reads
  | .write => r.writes

/-- One more transfer of one kind. -/
def count (r : Region) : Access → Region
  | .read => r.countRead
  | .write => r.countWrite

def range (r : Region) : Nat × Nat := (r.base, r.size)

variable {r r' : Region} {rs before : List Region} {x y : Access} {addr len : Nat}

@[simp] theorem count_name (r : Region) (x : Access) : (r.count x).name = r.name := by cases x <;> rfl

@[simp] theorem count_range (r : Region) (x : Access) : (r.count x).range = r.range := by cases x <;> rfl

theorem counted_count (r : Region) (x y : Access) :
    (r.count x).counted y = r.counted y + if x = y then 1 else 0 := by
  cases x <;> cases y <;> rfl

theorem overlaps_of_range (h : r.range = r'.range) : r.overlaps addr len = r'.overlaps addr len := by
  obtain ⟨hbase, hsize⟩ := Prod.mk.inj h
  unfold overlaps stop
  rw [hbase, hsize]

theorem any_overlaps_of_range (h : rs.map range = before.map range) :
    rs.any (·.overlaps addr len) = before.any (·.overlaps addr len) := by
  induction rs generalizing before with
  | nil => rw [List.map_eq_nil_iff.mp h.symm]
  | cons r rs ih =>
    obtain ⟨r', rest, rfl, hrange, hrest⟩ := List.map_eq_cons_iff.mp h.symm
    simp only [List.any_cons, ih hrest.symm, overlaps_of_range hrange]

/-- A range of some bytes overlaps a region that is not empty exactly if one of them lies in it. -/
theorem overlaps_iff_contains (hr : r.base < r.stop) (hlen : 0 < len) :
    r.overlaps addr len ↔ ∃ p < len, r.contains (addr + p) := by
  have hstop : r.stop ≤ wordLimit - 1 := Nat.min_le_right _ _
  simp only [overlaps, contains, Bool.and_eq_true, decide_eq_true_eq]
  unfold Unsigned.addSat wordLimit at *
  constructor
  · rintro ⟨hbelow, habove⟩
    -- the first address of the region, if the range begins before it
    exact ⟨r.base - addr, by omega, by omega, by omega⟩
  · rintro ⟨p, hp, hbase, hend⟩
    omega

theorem map_range_touchFirst (x : Access) (addr len : Nat) (rs : List Region) :
    (touchFirst (·.count x) addr len rs).map range = rs.map range := by
  induction rs with
  | nil => rfl
  | cons r rs ih =>
    unfold touchFirst
    split <;> simp [ih]

/-- A region is touched if none before it is. -/
theorem touchFirst_append (f : Region → Region) (front back : List Region) (r : Region) :
    touchFirst f addr len (front ++ r :: back) =
      if front.any (·.overlaps addr len) then touchFirst f addr len front ++ r :: back
      else if r.overlaps addr len then front ++ f r :: back
      else front ++ r :: touchFirst f addr len back := by
  induction front with
  | nil => simp [touchFirst]
  | cons r' front ih =>
    by_cases hfirst : r'.overlaps addr len = true
    · simp [touchFirst, hfirst]
    · simp only [List.cons_append, touchFirst, hfirst, ih, List.any_cons, Bool.false_or, if_false,
        Bool.false_eq_true]
      split
      · rfl
      · split <;> rfl

/-- Where a range overlaps one region at most, this is the one that counts. -/
theorem touchFirst_of_apart (f : Region → Region)
    (h : rs.Pairwise fun r r' => r.overlaps addr len → ¬ r'.overlaps addr len) :
    touchFirst f addr len rs = rs.map fun r => if r.overlaps addr len then f r else r := by
  induction rs with
  | nil => rfl
  | cons r rs ih =>
    obtain ⟨hfirst, hrest⟩ := List.pairwise_cons.mp h
    by_cases hoverlaps : r.overlaps addr len = true
    · have hothers : (rs.map fun r' => if r'.overlaps addr len then f r' else r') = rs.map id :=
        List.map_congr_left fun r' hr' => if_neg (hfirst r' hr' hoverlaps)
      rw [touchFirst, if_pos hoverlaps, List.map_cons, if_pos hoverlaps, hothers, List.map_id]
    · rw [touchFirst, if_neg hoverlaps, List.map_cons, if_neg hoverlaps, ih hrest]

/-- Region `r` stands in a list behind regions with the ranges of `before`. -/
def Stands (before : List Region) (r : Region) (rs : List Region) : Prop :=
  ∃ front back, rs = front ++ r :: back ∧ front.map range = before.map range

theorem Stands.getElem? (h : Stands before r rs) : rs[before.length]? = some r := by
  obtain ⟨front, back, rfl, hfront⟩ := h
  have hlength : front.length = before.length := by simpa using congrArg List.length hfront
  simp [← hlength]

theorem stands_append (before : List Region) (r : Region) : Stands before r (before ++ [r]) :=
  ⟨before, [], rfl, rfl⟩

theorem Stands.append (h : Stands before r rs) (more : List Region) : Stands before r (rs ++ more) := by
  obtain ⟨front, back, rfl, hfront⟩ := h
  exact ⟨front, back ++ more, by simp, hfront⟩

theorem Stands.touchFirst (h : Stands before r rs) (x : Access) (addr len : Nat) :
    Stands before
      (if r.overlaps addr len && !before.any (·.overlaps addr len) then r.count x else r)
      (touchFirst (·.count x) addr len rs) := by
  obtain ⟨front, back, rfl, hfront⟩ := h
  rw [touchFirst_append, any_overlaps_of_range hfront]
  by_cases hearlier : before.any (·.overlaps addr len) = true
  · simp only [hearlier, if_true, Bool.not_true, Bool.and_false, Bool.false_eq_true, if_false]
    exact ⟨_, back, rfl, (map_range_touchFirst x addr len front).trans hfront⟩
  · rw [if_neg hearlier]
    by_cases hoverlaps : r.overlaps addr len = true
    · simp only [hearlier, hoverlaps, Bool.not_false, Bool.and_self, if_true]
      exact ⟨front, back, rfl, hfront⟩
    · simp only [hoverlaps, Bool.false_and, Bool.false_eq_true, if_false]
      exact ⟨front, _, rfl, hfront⟩

end Region

end TileStream
