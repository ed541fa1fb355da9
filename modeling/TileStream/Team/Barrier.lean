import TileStream.Word
/-!
# The team barrier

A barrier lets no unit pass until every participant has arrived. The arrival that completes a round is
its leader. The statistics count completed rounds and single arrivals; waiting times are whole
nanoseconds.
-/

namespace TileStream

/-- A reusable barrier and what it has counted. -/
structure Barrier where
  /-- Units that have to arrive, at least one. -/
  participants : Nat
  /-- Units that have arrived in the round that is not complete yet. -/
  waiting : Nat
  completions : Nat
  arrivals : Nat
  deriving DecidableEq, Repr, Inhabited

namespace Barrier

/-- A barrier for a team; a team of none acts as one unit. -/
def ofTeam (units : Nat) : Barrier := ⟨max units 1, 0, 0, 0⟩

/-- One arrival. The answer is whether it completes the round. -/
def arrive (b : Barrier) : Bool × Barrier :=
  if b.participants ≤ b.waiting + 1 then
    (true, { b with waiting := 0, completions := b.completions + 1, arrivals := b.arrivals + 1 })
  else
    (false, { b with waiting := b.waiting + 1, arrivals := b.arrivals + 1 })

/-- `count` arrivals; the answer is how many of them completed a round. -/
def arriveMany : Nat → Barrier → Nat × Barrier
  | 0, b => (0, b)
  | count + 1, b =>
    let (leads, b) := b.arrive
    let (leaders, b) := arriveMany count b
    ((if leads then 1 else 0) + leaders, b)

/-- Every participant arrives once. -/
def meet (b : Barrier) : Barrier := (arriveMany b.participants b).2

/-- The average wait of an arrival in nanoseconds. -/
def averageWait (arrivals totalWait : UInt64) : Float :=
  if arrivals = 0 then 0.0 else totalWait.toFloat / arrivals.toFloat

end Barrier

end TileStream
