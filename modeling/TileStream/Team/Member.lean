import TileStream.Word
/-!
# Teams

A team of units runs one program; each unit knows its place and the size of the team. Unit 0 leads.
Work on `n` items is divided in contiguous shares of `⌈n / size⌉`; the last shares may be short or empty.
-/

namespace TileStream

open Unsigned

/-- A unit of a team. -/
structure Member where
  index : Nat
  /-- The number of units in the team. -/
  size : Nat
  deriving DecidableEq, Repr, Inhabited

/-- A half-open range of items. -/
structure Share where
  start : Nat
  stop : Nat
  deriving DecidableEq, Repr, Inhabited

/-- A share holds nothing. -/
def Share.isEmpty (s : Share) : Bool := s.stop ≤ s.start

namespace Member

/-- The leader issues the transfers that nobody else may repeat. -/
def isLeader (u : Member) : Bool := u.index == 0

/-- The contiguous share of `items` that a unit owns. -/
def share (u : Member) (items : Nat) : Checked Share := do
  let chunk ← ceilDiv items (max u.size 1)
  let start := min (← mul u.index chunk) items
  return ⟨start, min (← add start chunk) items⟩

/-- A unit as it is shown to people. -/
def text (u : Member) : String := s!"unit {u.index}/{u.size}"

/-- The units of a team; a team of none has one. -/
def team (units : Nat) : List Member :=
  (List.range (max units 1)).map fun index => ⟨index, max units 1⟩

theorem mem_team {units : Nat} {u : Member} :
    u ∈ team units ↔ u.index < max units 1 ∧ u.size = max units 1 := by
  obtain ⟨index, size⟩ := u
  simp only [team, List.mem_map, List.mem_range, Member.mk.injEq]
  constructor
  · rintro ⟨i, hi, rfl, rfl⟩
    exact ⟨hi, rfl⟩
  · rintro ⟨hi, rfl⟩
    exact ⟨index, hi, rfl, rfl⟩

/-- Run a body on every unit and collect the answers in unit order. When units fail, the fault of the
first of them is the fault of the team. -/
def runTeam {α : Type} (units : Nat) (body : Member → Checked α) : Checked (List α) :=
  (team units).mapM body

end Member

end TileStream
