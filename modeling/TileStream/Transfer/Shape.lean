import TileStream.Word
/-!
# Transfer shapes and their run addresses

A transfer moves contiguous runs of bytes. On the strided side the runs lie in two further dimensions:
`middle.size` runs `middle.stride` bytes apart, and `outer.size` such blocks `outer.stride` bytes apart.
A size of zero counts as one. `RunCursor` yields the start addresses one at a time, the middle
dimension fastest; `runAddress` is the same sequence in closed form.
-/

namespace TileStream

open Unsigned

/-- One dimension around the runs of a transfer. -/
structure Dimension where
  size : Nat
  /-- Bytes from one step to the next. -/
  stride : Int
  deriving DecidableEq, Repr, Inhabited

/-- The number of steps: zero counts as one. -/
def Dimension.steps (d : Dimension) : Nat := if d.size = 0 then 1 else d.size

theorem Dimension.steps_pos (d : Dimension) : 0 < d.steps := by
  unfold Dimension.steps
  split <;> omega

/-- The shape of a transfer on its strided side. -/
structure Shape where
  /-- Contiguous bytes of one run. -/
  runBytes : Nat
  middle : Dimension
  outer : Dimension
  deriving DecidableEq, Repr, Inhabited

namespace Shape

/-- A single run. -/
def contiguous (bytes : Nat) : Shape := ⟨bytes, ⟨1, 0⟩, ⟨1, 0⟩⟩

/-- The number of runs. -/
def runs (s : Shape) : Nat := s.middle.steps * s.outer.steps

/-- The bytes of one outer block. -/
def blockBytes (s : Shape) : Nat := s.runBytes * s.middle.steps

/-- The bytes of the whole transfer. -/
def totalBytes (s : Shape) : Checked Nat := mul s.runBytes s.runs

/-- The same shape with `count` outer blocks. -/
def withBlocks (s : Shape) (count : Nat) : Shape :=
  { s with outer := { s.outer with size := count } }

/-- The address of step `m` of the middle and step `o` of the outer dimension. -/
def address (s : Shape) (base m o : Nat) : Checked Nat := do
  let middle ← Signed.mul m s.middle.stride
  let outer ← Signed.mul o s.outer.stride
  let offset ← Signed.add middle outer
  return unsigned (← Signed.add (signed base) offset)

/-- The address of run `j` in the order in which runs are moved, over the integers. -/
def runAddress (s : Shape) (base j : Nat) : Int :=
  base + (j % s.middle.steps : Nat) * s.middle.stride + (j / s.middle.steps : Nat) * s.outer.stride

theorem runs_pos (s : Shape) : 0 < s.runs := Nat.mul_pos s.middle.steps_pos s.outer.steps_pos

theorem totalBytes_eq_ok_iff {s : Shape} {total : Nat} :
    s.totalBytes = .ok total ↔ s.runBytes * s.runs < wordLimit ∧ s.runBytes * s.runs = total :=
  mul_eq_ok_iff

theorem runAddress_block (s : Shape) (base m o : Nat) (hm : m < s.middle.steps) :
    s.runAddress base (o * s.middle.steps + m) = base + m * s.middle.stride + o * s.outer.stride := by
  have hdiv : (o * s.middle.steps + m) / s.middle.steps = o := by
    rw [Nat.mul_comm, Nat.mul_add_div s.middle.steps_pos, Nat.div_eq_of_lt hm, Nat.add_zero]
  have hmod : (o * s.middle.steps + m) % s.middle.steps = m := by
    rw [Nat.mul_comm, Nat.mul_add_mod, Nat.mod_eq_of_lt hm]
  rw [runAddress, hdiv, hmod]

end Shape

/-- A position in the run addresses of a transfer. -/
structure RunCursor where
  base : Nat
  shape : Shape
  middle : Nat
  outer : Nat
  /-- Addresses produced so far. -/
  produced : Nat
  deriving DecidableEq, Repr, Inhabited

namespace RunCursor

/-- The cursor before the first run. -/
def start (base : Nat) (shape : Shape) : RunCursor := ⟨base, shape, 0, 0, 0⟩

/-- Every run has been produced. -/
def isFinished (c : RunCursor) : Bool := c.shape.runs ≤ c.produced

/-- The number of runs still to come. -/
def remaining (c : RunCursor) : Nat := c.shape.runs - c.produced

/-- The cursor one run further on. -/
def advance (c : RunCursor) : RunCursor :=
  if c.middle + 1 < c.shape.middle.steps then
    { c with middle := c.middle + 1, produced := c.produced + 1 }
  else
    { c with middle := 0, outer := c.outer + 1, produced := c.produced + 1 }

/-- The next run address with the cursor after it, `none` at the end. -/
def next (c : RunCursor) : Checked (Option (Nat × RunCursor)) := do
  if c.isFinished then
    return none
  let addr ← c.shape.address c.base c.middle c.outer
  return some (addr, c.advance)

/-- One call for an address: the answer, with the cursor that it leaves. At the end the answer is `none`
and the cursor stays. -/
def call (c : RunCursor) : Checked (Option Nat × RunCursor) := do
  match ← c.next with
  | none => return (none, c)
  | some (addr, c') => return (some addr, c')

/-- The answers to a number of calls in a row, with the cursor after them. -/
def calls : Nat → RunCursor → Checked (List (Option Nat) × RunCursor)
  | 0, c => return ([], c)
  | count + 1, c => do
    let (answer, c') ← c.call
    let (rest, last) ← calls count c'
    return (answer :: rest, last)

/-- A cursor of its own over all the runs, wherever this one has got to. -/
def iter (c : RunCursor) : RunCursor := start c.base c.shape

/-- Visit up to `count` further run addresses in order. -/
def visit {m : Type → Type} [Monad m] [MonadLiftT Checked m] {α : Type}
    (f : α → Nat → m α) : Nat → RunCursor → α → m α
  | 0, _, a => pure a
  | count + 1, c, a => do
    match ← (c.next : Checked _) with
    | none => pure a
    | some (addr, c') => visit f count c' (← f a addr)

/-- At most `count` further run addresses. -/
def take (count : Nat) (c : RunCursor) : Checked (List Nat) :=
  match count with
  | 0 => .ok []
  | count + 1 => do
    match ← c.next with
    | none => return []
    | some (addr, c') => return addr :: (← c'.take count)

end RunCursor

end TileStream
