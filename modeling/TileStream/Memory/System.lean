import TileStream.Memory.Bank
/-!
# The memory of the cluster

One bank for each tier. Only the scratchpad has a capacity.
-/

namespace TileStream

/-- The three tiers. -/
structure Memory where
  slow : Bank
  mid : Bank
  scratchpad : Bank
  deriving Inhabited

namespace Memory

/-- Empty tiers with a scratchpad of `capacity` bytes. -/
def empty (capacity : Nat) : Memory where
  slow := .empty .slow none
  mid := .empty .mid none
  scratchpad := .empty .scratchpad (some capacity)

/-- The bank of a tier. -/
def bank (m : Memory) : Tier → Bank
  | .slow => m.slow
  | .mid => m.mid
  | .scratchpad => m.scratchpad

/-- Run a computation on the bank of a tier. -/
def onBank {α : Type} (t : Tier) (x : Stateful Bank α) : Stateful Memory α := fun m =>
  match t, m with
  | .slow, ⟨slow, mid, scratchpad⟩ =>
    match x slow with
    | .ok a slow => .ok a ⟨slow, mid, scratchpad⟩
    | .error f slow => .error f ⟨slow, mid, scratchpad⟩
  | .mid, ⟨slow, mid, scratchpad⟩ =>
    match x mid with
    | .ok a mid => .ok a ⟨slow, mid, scratchpad⟩
    | .error f mid => .error f ⟨slow, mid, scratchpad⟩
  | .scratchpad, ⟨slow, mid, scratchpad⟩ =>
    match x scratchpad with
    | .ok a scratchpad => .ok a ⟨slow, mid, scratchpad⟩
    | .error f scratchpad => .error f ⟨slow, mid, scratchpad⟩

/-- The memory with another bank in a tier. -/
def withBank (m : Memory) : Tier → Bank → Memory
  | .slow, b => { m with slow := b }
  | .mid, b => { m with mid := b }
  | .scratchpad, b => { m with scratchpad := b }

theorem bank_withBank (m : Memory) (t other : Tier) (b : Bank) :
    (m.withBank t b).bank other = if other = t then b else m.bank other := by
  cases t <;> cases other <;> rfl

theorem onBank_apply {α : Type} (t : Tier) (x : Stateful Bank α) (m : Memory) :
    onBank t x m = match x (m.bank t) with
      | .ok a b => .ok a (m.withBank t b)
      | .error f b => .error f (m.withBank t b) := by
  cases t <;> rfl

/-- Replace the bank of a tier. -/
def update (t : Tier) (f : Bank → Bank) : Stateful Memory Unit :=
  onBank t fun b => .ok () (f b)

/-- Read from a bank without changing it. -/
def look {α : Type} (t : Tier) (f : Bank → Checked α) : Stateful Memory α := fun m =>
  match f (m.bank t) with
  | .ok a => .ok a m
  | .error e => .error e m

/-- The byte at an address of a tier. -/
def byteAt (m : Memory) (t : Tier) (addr : Nat) : UInt8 := (m.bank t).byteAt addr

end Memory

end TileStream
