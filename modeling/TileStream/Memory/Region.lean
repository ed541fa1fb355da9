import TileStream.Memory.Tier
import TileStream.Text.Hex
/-!
# Named regions of a tier

A region names an address range for accounting: it counts the transfers that touch it. An end past the
address space is held at the last address. Regions are found by first match in the order in which they
were registered, so `touchFirst` counts a transfer for one region at most.
-/

namespace TileStream

open Unsigned

/-- A named address range with its traffic counters. -/
structure Region where
  name : String
  base : Nat
  size : Nat
  /-- Transfers that read the region. -/
  reads : Nat
  /-- Transfers that wrote the region. -/
  writes : Nat
  deriving DecidableEq, Repr, Inhabited

/-- Why a region was not registered. -/
inductive RegionError where
  | overlap (tier : Tier) (name : String) (base : Nat) (existing : String)
  | beyondCapacity (tier : Tier) (name : String) (stop capacity : Nat)
  deriving DecidableEq, Repr

def RegionError.message : RegionError → String
  | .overlap tier name base existing =>
    s!"{tier.name} region '{name}' at 0x{Text.hexPadded 8 base} overlaps '{existing}'"
  | .beyondCapacity tier name stop capacity =>
    s!"{tier.name} region '{name}' ends at 0x{Text.hexPadded 8 stop}, past capacity 0x{Text.hexPadded 8 capacity}"

namespace Region

/-- A region that nothing has touched. -/
def fresh (name : String) (base size : Nat) : Region := ⟨name, base, size, 0, 0⟩

/-- The first address past a region. -/
def stop (r : Region) : Nat := addSat r.base r.size

/-- An address lies in a region. -/
def contains (r : Region) (addr : Nat) : Bool := r.base ≤ addr && addr < r.stop

/-- The range of `len` bytes at `addr` overlaps a region. An empty region or range overlaps what lies
around it. -/
def overlaps (r : Region) (addr len : Nat) : Bool := addr < r.stop && r.base < addSat addr len

/-- Apply `f` to the first region that the range of `len` bytes at `addr` overlaps. -/
def touchFirst (f : Region → Region) (addr len : Nat) : List Region → List Region
  | [] => []
  | r :: rest => if r.overlaps addr len then f r :: rest else r :: touchFirst f addr len rest

/-- One more transfer has read the region. -/
def countRead (r : Region) : Region := { r with reads := r.reads + 1 }

/-- One more transfer has written the region. -/
def countWrite (r : Region) : Region := { r with writes := r.writes + 1 }

end Region

end TileStream
