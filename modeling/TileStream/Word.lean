import TileStream.Fault
/-!
# Checked machine arithmetic

Sizes, indices and addresses are natural numbers below `2 ^ 64`, displacements integers from `-2 ^ 63` up
to `2 ^ 63`. `Unsigned` and `Signed` hold the operations that stop when a result leaves its range;
the `_eq_ok_iff` lemmas say when they do not. `signed` and `unsigned` read the same 64 bits the other
way, and `low32` keeps the low half of a size.
-/

namespace TileStream

/-- The number of values of a 64-bit word: `2 ^ 64`. -/
abbrev wordLimit : Nat := 0x10000000000000000

namespace Unsigned

/-- The sum of two sizes. -/
@[inline] def add (a b : Nat) : Checked Nat :=
  if a + b < wordLimit then .ok (a + b) else .error .addOverflow

/-- The product of two sizes. -/
@[inline] def mul (a b : Nat) : Checked Nat :=
  if a * b < wordLimit then .ok (a * b) else .error .mulOverflow

/-- The quotient of two sizes, rounded down. -/
@[inline] def div (a b : Nat) : Checked Nat :=
  if b = 0 then .error .divideByZero else .ok (a / b)

/-- The remainder of a division of sizes. -/
@[inline] def rem (a b : Nat) : Checked Nat :=
  if b = 0 then .error .remainderByZero else .ok (a % b)

/-- The quotient of two sizes, rounded up. -/
@[inline] def ceilDiv (a b : Nat) : Checked Nat :=
  if b = 0 then .error .divideByZero else .ok ((a + b - 1) / b)

/-- The least multiple of four that is not below a size. -/
@[inline] def roundUp4 (a : Nat) : Checked Nat :=
  let r := a % 4
  if r = 0 then .ok a else add a (4 - r)

/-- The sum of two sizes, held at the largest word. -/
@[inline] def addSat (a b : Nat) : Nat := min (a + b) (wordLimit - 1)

theorem add_eq_ok_iff {a b c : Nat} : add a b = .ok c ↔ a + b < wordLimit ∧ a + b = c := by
  by_cases h : a + b < wordLimit <;> simp [add, h]

theorem mul_eq_ok_iff {a b c : Nat} : mul a b = .ok c ↔ a * b < wordLimit ∧ a * b = c := by
  by_cases h : a * b < wordLimit <;> simp [mul, h]

theorem div_eq_ok_iff {a b c : Nat} : div a b = .ok c ↔ b ≠ 0 ∧ a / b = c := by
  by_cases h : b = 0 <;> simp [div, h]

theorem ceilDiv_eq_ok_iff {a b c : Nat} :
    ceilDiv a b = .ok c ↔ b ≠ 0 ∧ (a + b - 1) / b = c := by
  by_cases h : b = 0 <;> simp [ceilDiv, h]

theorem roundUp4_of_lt {a : Nat} (h : (a + 3) / 4 * 4 < wordLimit) :
    roundUp4 a = .ok ((a + 3) / 4 * 4) := by
  have hsplit := Nat.div_add_mod a 4
  simp only [roundUp4]
  split
  · congr 1; omega
  · rw [add_eq_ok_iff]; omega

theorem eq_of_roundUp4 {a c : Nat} (h : roundUp4 a = .ok c) : c = (a + 3) / 4 * 4 := by
  have hsplit := Nat.div_add_mod a 4
  simp only [roundUp4] at h
  split at h
  · cases h; omega
  · rw [add_eq_ok_iff] at h; omega

end Unsigned

namespace Signed

/-- The integers of a signed 64-bit word. -/
def InRange (z : Int) : Prop := -0x8000000000000000 ≤ z ∧ z < 0x8000000000000000

instance (z : Int) : Decidable (InRange z) := inferInstanceAs (Decidable (_ ∧ _))

/-- The sum of two displacements. -/
def add (a b : Int) : Checked Int :=
  if InRange (a + b) then .ok (a + b) else .error .addOverflow

/-- The difference of two displacements. -/
def sub (a b : Int) : Checked Int :=
  if InRange (a - b) then .ok (a - b) else .error .subOverflow

/-- The product of two displacements. -/
def mul (a b : Int) : Checked Int :=
  if InRange (a * b) then .ok (a * b) else .error .mulOverflow

theorem add_eq_ok_iff {a b c : Int} : add a b = .ok c ↔ InRange (a + b) ∧ a + b = c := by
  by_cases h : InRange (a + b) <;> simp [add, h]

theorem sub_eq_ok_iff {a b c : Int} : sub a b = .ok c ↔ InRange (a - b) ∧ a - b = c := by
  by_cases h : InRange (a - b) <;> simp [sub, h]

theorem mul_eq_ok_iff {a b c : Int} : mul a b = .ok c ↔ InRange (a * b) ∧ a * b = c := by
  by_cases h : InRange (a * b) <;> simp [mul, h]

end Signed

/-- The bits of an unsigned word, read as a signed one. -/
@[inline] def signed (n : Nat) : Int :=
  if n < 0x8000000000000000 then (n : Int) else (n : Int) - 0x10000000000000000

/-- The bits of a signed word, read as an unsigned one. -/
@[inline] def unsigned (z : Int) : Nat :=
  if 0 ≤ z then z.toNat else (z + 0x10000000000000000).toNat

/-- The low 32 bits of a size. -/
@[inline] def low32 (n : Nat) : Nat := n % 0x100000000

theorem signed_unsigned {z : Int} (h : Signed.InRange z) : signed (unsigned z) = z := by
  unfold Signed.InRange at h
  unfold unsigned signed
  split <;> split <;> omega

theorem low32_of_lt {n : Nat} (h : n < 0x100000000) : low32 n = n := Nat.mod_eq_of_lt h

theorem signed_of_lt {n : Nat} (h : n < 0x8000000000000000) : signed n = n := if_pos h

end TileStream
