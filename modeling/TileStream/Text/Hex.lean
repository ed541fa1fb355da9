/-!
# Hexadecimal text

Numbers in base sixteen with lower-case digits, at least `width` of them, and bytes as two digits each.
-/

namespace TileStream.Text

/-- The digits of `n`, most significant first, zero as one digit. -/
def hex (n : Nat) : String := String.ofList (Nat.toDigits 16 n)

/-- The digits of `n` with zeros in front up to `width` digits. -/
def hexPadded (width n : Nat) : String :=
  let digits := Nat.toDigits 16 n
  String.ofList (List.replicate (width - digits.length) '0' ++ digits)

/-- A byte as two digits. -/
def hexByte (b : UInt8) : List Char :=
  [Nat.digitChar (b.toNat / 16), Nat.digitChar (b.toNat % 16)]

end TileStream.Text
