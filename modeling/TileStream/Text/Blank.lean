import TileStream.Word
/-!
# Blanks and counts

`isBlank` is the Unicode property White_Space, a fixed set of 25 characters; `trimBlanks` drops them from
both ends of a text. `count?` reads an unsigned 64-bit number: an optional plus sign and decimal digits,
nothing else.
-/

namespace TileStream.Text

/-- The character has the property White_Space. -/
def isBlank (c : Char) : Bool :=
  let n := c.toNat
  (0x09 ≤ n && n ≤ 0x0d) || n == 0x20 || n == 0x85 || n == 0xa0 || n == 0x1680 ||
    (0x2000 ≤ n && n ≤ 0x200a) || n == 0x2028 || n == 0x2029 || n == 0x202f || n == 0x205f ||
    n == 0x3000

/-- A text without the blanks at its ends. -/
def trimBlanks (s : String) : String :=
  String.ofList ((s.toList.dropWhile isBlank).reverse.dropWhile isBlank).reverse

/-- The number that decimal digits spell, if there are digits only. -/
def decimal? (ds : List Char) : Option Nat :=
  if ds.all fun c => '0' ≤ c && c ≤ '9' then
    some (ds.foldl (fun n c => n * 10 + (c.toNat - '0'.toNat)) 0)
  else
    none

/-- Read an unsigned 64-bit number. -/
def count? (s : String) : Option Nat := do
  let digits := match s.toList with
    | '+' :: rest => rest
    | all => all
  guard (digits ≠ [])
  let n ← decimal? digits
  guard (n < wordLimit)
  return n

end TileStream.Text
