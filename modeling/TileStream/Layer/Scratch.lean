import TileStream.Layer.Geometry
import TileStream.Text.Hex
/-!
# The scratchpad partition

Every double-buffered role owns two adjacent slots of one size, each large enough for the largest tile
of the role; the workspace of the kernel follows. The roles lie in the order input, output, weights,
requant. All sizes are rounded up to a multiple of four, so every slot of an aligned scratchpad is
aligned. Offsets count from the base of the scratchpad.
-/

namespace TileStream

open Unsigned

/-- What a slot holds. -/
inductive Role where
  | input
  | weights
  | output
  /-- The multipliers and biases of one channel block. -/
  | requant
  deriving DecidableEq, Repr

/-- Every role, in the order in which regions are listed. -/
def Role.all : List Role := [.input, .weights, .output, .requant]

def Role.name : Role → String
  | .input => "input"
  | .weights => "weights"
  | .output => "output"
  | .requant => "requant"

/-- Which of the two slots of a role. -/
inductive Parity where
  | a
  | b
  deriving DecidableEq, Repr, Inhabited

namespace Parity

/-- The other slot. -/
def flip : Parity → Parity
  | .a => .b
  | .b => .a

def index : Parity → Nat
  | .a => 0
  | .b => 1

def name : Parity → String
  | .a => "a"
  | .b => "b"

@[simp] theorem flip_flip (p : Parity) : p.flip.flip = p := by cases p <;> rfl

theorem flip_ne (p : Parity) : p.flip ≠ p := by cases p <;> decide

end Parity

/-- Two adjacent slots of one role. -/
structure SlotPair where
  base : Nat
  slotSize : Nat
  deriving DecidableEq, Repr, Inhabited

/-- The offset of one slot. -/
def SlotPair.slot (p : SlotPair) (parity : Parity) : Nat := p.base + parity.index * p.slotSize

/-- The first offset past the pair. -/
def SlotPair.stop (p : SlotPair) : Nat := p.base + 2 * p.slotSize

/-- A pair of slots for tiles of up to `bytes` bytes that begins at `base`. -/
def SlotPair.place (base bytes : Nat) : Checked SlotPair := do
  let slotSize ← roundUp4 bytes
  discard <| add base (← mul 2 slotSize)
  return ⟨base, slotSize⟩

/-- The partition of the scratchpad for one layer. -/
structure Scratch where
  input : SlotPair
  output : SlotPair
  weights : SlotPair
  requant : SlotPair
  /-- Where the biases begin inside a requant slot. -/
  biasOffset : Nat
  workspace : Span
  total : Nat
  deriving DecidableEq, Repr, Inhabited

/-- Why a scratchpad is not accepted. -/
inductive LayoutError where
  | exceedsCapacity (required capacity : Nat)
  | misalignedBase (base : Nat)
  deriving DecidableEq, Repr

def LayoutError.message : LayoutError → String
  | .exceedsCapacity required capacity =>
    s!"scratchpad layout needs {required} bytes, local capacity is {capacity}"
  | .misalignedBase base => s!"scratchpad base 0x{Text.hex base} is not 4-byte aligned"

namespace Scratch

/-- The partition for the largest tile of every role. -/
def plan (g : Geometry) : Checked Scratch := do
  let input ← SlotPair.place 0 (← g.maxInputTileBytes)
  let output ← SlotPair.place input.stop (← g.maxOutputTileBytes)
  let weights ← SlotPair.place output.stop (← g.maxWeightTileBytes)
  let requant ← SlotPair.place weights.stop (← g.requantPairBytes)
  let workspace : Span := ⟨requant.stop, ← roundUp4 g.workspaceBytes⟩
  let total ← workspace.stop
  let biasOffset ← mul g.block.channels 4
  return { input, output, weights, requant, biasOffset, workspace, total }

/-- The slots of a role. -/
def slots (s : Scratch) : Role → SlotPair
  | .input => s.input
  | .weights => s.weights
  | .output => s.output
  | .requant => s.requant

/-- The offset of one slot of a role. -/
def slot (s : Scratch) (role : Role) (parity : Parity) : Nat := (s.slots role).slot parity

/-- The offset of the multipliers in one requant slot. -/
def kappaOffset (s : Scratch) (parity : Parity) : Nat := s.requant.slot parity

/-- The offset of the biases in one requant slot. -/
def lambdaOffset (s : Scratch) (parity : Parity) : Nat := s.requant.slot parity + s.biasOffset

/-- Name, offset and size of every part: both slots of each role, then the workspace. -/
def regions (s : Scratch) : List (String × Nat × Nat) :=
  (Role.all.flatMap fun role => [Parity.a, .b].map fun parity =>
    (role.name ++ "_" ++ parity.name, s.slot role parity, (s.slots role).slotSize)) ++
  [("workspace", s.workspace.start, s.workspace.len)]

/-- The partition fits in `capacity` bytes. -/
def validate (s : Scratch) (capacity : Nat) : Except LayoutError Unit :=
  if capacity < s.total then .error (.exceedsCapacity s.total capacity) else .ok ()

/-- The partition fits when it begins at `base` in a scratchpad of `capacity` bytes. -/
def validateAt (s : Scratch) (base capacity : Nat) : ExceptT LayoutError Checked Unit := do
  if base % 4 ≠ 0 then
    throw (.misalignedBase base)
  if capacity - base < s.total then
    throw (.exceedsCapacity (← add s.total base) capacity)

end Scratch

end TileStream
