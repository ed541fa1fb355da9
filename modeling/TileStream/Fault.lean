/-!
# Faults

The arithmetic of the device is checked: a result that its machine word cannot hold, a shift by the
whole width and a division by zero stop the computation. So do an index past the end of a buffer and
a buffer larger than any address. `Fault` names the cause, `Checked` is a computation that may stop,
and `Stateful σ` one that works on a state `σ` and keeps the state it had reached when it stopped.
-/

namespace TileStream

/-- Why a computation stopped. -/
inductive Fault where
  | addOverflow
  | subOverflow
  | mulOverflow
  | shiftOverflow
  | divideByZero
  | remainderByZero
  /-- A buffer was indexed at or past its end. -/
  | outOfBounds
  /-- A buffer of more than `2 ^ 63 - 1` bytes was asked for. -/
  | bufferTooLarge
  /-- The body that a unit of a team ran gave up. -/
  | unitFailed (index : Nat)
  deriving DecidableEq, Repr, Inhabited

/-- The text of a fault. The two faults about buffers have none. -/
def Fault.message? : Fault → Option String
  | .addOverflow => some "attempt to add with overflow"
  | .subOverflow => some "attempt to subtract with overflow"
  | .mulOverflow => some "attempt to multiply with overflow"
  | .shiftOverflow => some "attempt to shift right with overflow"
  | .divideByZero => some "attempt to divide by zero"
  | .remainderByZero => some "attempt to calculate the remainder with a divisor of zero"
  | .outOfBounds => none
  | .bufferTooLarge => none
  | .unitFailed index => some s!"unit {index} failed"

/-- A computation that yields a value or stops with a fault. -/
abbrev Checked := Except Fault

/-- A computation on a state. When it stops with a fault, what it had done to the state stays done. -/
abbrev Stateful (σ : Type) := EStateM Fault σ

namespace Stateful

/-- A computation that leaves the state alone. -/
@[inline] def ofChecked {σ α : Type} : Checked α → Stateful σ α
  | .ok a => fun s => .ok a s
  | .error f => fun s => .error f s

instance {σ : Type} : MonadLift Checked (Stateful σ) := ⟨ofChecked⟩

/-- The value of a run, without the state it ended in. -/
def value {σ α : Type} (x : Stateful σ α) (s : σ) : Checked α :=
  match x s with
  | .ok a _ => .ok a
  | .error f _ => .error f

/-- The state that a run ends in, finished or stopped. -/
def final {σ α : Type} (x : Stateful σ α) (s : σ) : σ :=
  match x s with
  | .ok _ s' => s'
  | .error _ s' => s'

theorem bind_apply {σ α β : Type} (x : Stateful σ α) (f : α → Stateful σ β) (s : σ) :
    (x >>= f) s = match x s with
      | .ok a s' => f a s'
      | .error e s' => .error e s' := by
  show EStateM.bind x f s = _
  unfold EStateM.bind
  cases x s <;> rfl

@[simp] theorem pure_apply {σ α : Type} (a : α) (s : σ) : (pure a : Stateful σ α) s = .ok a s := rfl

@[simp] theorem ofChecked_ok {σ α : Type} (a : α) (s : σ) :
    (ofChecked (.ok a) : Stateful σ α) s = .ok a s := rfl

@[simp] theorem ofChecked_error {σ α : Type} (e : Fault) (s : σ) :
    (ofChecked (.error e) : Stateful σ α) s = .error e s := rfl

end Stateful

end TileStream
