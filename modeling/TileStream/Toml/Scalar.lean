import TileStream.Toml.Item
import TileStream.Toml.Quoted
import TileStream.Word
/-!
# Numbers, dates and other scalars

Integers have 64 bits and may be written in base 2, 8, 10 or 16; single underscores may stand between
digits. A float that rounds to positive infinity is refused. Dates and times are checked for their
ranges, including the length of the month.
-/

namespace TileStream.Toml

namespace Reader

/-- A decimal digit. -/
def isDigit (c : Char) : Bool := '0' ≤ c && c ≤ '9'

/-- The digits after a digit: each may follow one underscore. -/
def moreDigits (p : Char → Bool) : Reader (List Char) :=
  many (satisfy p <|> (do expect "_"; satisfy p))

/-- Digits with underscores between them. -/
def digits (p : Char → Bool) : Reader (List Char) := do
  let first ← satisfy p
  return first :: (← moreDigits p)

/-- The number that digits spell in a base. -/
def ofDigits (base : Nat) (ds : List Char) : Nat :=
  ds.foldl (fun n c => n * base + (hexValue? c).getD 0) 0

/-- A sign; `true` means negative. -/
def sign : Reader Bool := do
  match ← peek? with
  | some '+' => do expect "+"; return false
  | some '-' => do expect "-"; return true
  | _ => return false

/-- The digits of a decimal integer, which has no zero in front. -/
def decimalDigits : Reader (List Char) :=
  (do expect "0"; return ['0']) <|> digits isDigit

/-- Accept an integer of 64 bits. -/
def int64 (z : Int) : Reader Int := do
  guard (Signed.InRange z)
  return z

/-- The digits of an integer after the mark of its base. -/
def based (mark : String) (base : Nat) (p : Char → Bool) : Reader Int := do
  expect mark
  int64 (ofDigits base (← digits p))

/-- An integer. -/
def integer : Reader Int :=
  based "0x" 16 (fun c => (hexValue? c).isSome) <|>
  based "0o" 8 (fun c => '0' ≤ c && c ≤ '7') <|>
  based "0b" 2 (fun c => c == '0' || c == '1') <|> do
    let negative ← sign
    let magnitude := ofDigits 10 (← decimalDigits)
    int64 (if negative then -magnitude else magnitude)

/-- The decimal `mantissa * 10 ^ exponent`, where the mantissa has `length` digits, rounds to a number of
the binary64 format and not to infinity: it lies below the point half a unit past the largest number.
Exponents far from that limit are decided by size alone. -/
def isFinite (mantissa length : Nat) (exponent : Int) : Bool :=
  let limit := Nat.pow 2 1024 - Nat.pow 2 970
  if mantissa = 0 then true
  else if exponent + length < 300 then true
  else if 310 < exponent then false
  else if 0 ≤ exponent then mantissa * Nat.pow 10 exponent.toNat < limit
  else mantissa < limit * Nat.pow 10 (-exponent).toNat

/-- The exponent of a float. -/
def exponent : Reader Int := do
  expect "e" <|> expect "E"
  let negative ← sign
  let magnitude := ofDigits 10 (← digits isDigit)
  return if negative then -magnitude else magnitude

/-- The fraction of a float. -/
def fraction : Reader (List Char) := do
  expect "."
  digits isDigit

/-- A float. It has a fraction, an exponent or both, or is infinite or not a number. -/
def float : Reader Unit := do
  let negative ← sign
  (do
    let whole ← decimalDigits
    let part ← option fraction
    let scale ← option exponent
    guard (part.isSome ∨ scale.isSome)
    let all := whole ++ part.getD []
    guard (negative || isFinite (ofDigits 10 all) all.length
      (scale.getD 0 - (part.getD []).length))) <|>
  expect "inf" <|> expect "nan"

/-- A number of exactly `count` digits. -/
def fixedDigits (count : Nat) : Reader Nat := do
  let ds ← (List.replicate count ()).mapM fun _ => satisfy isDigit
  return ofDigits 10 ds

/-- A number of two digits up to `most`. -/
def twoDigits (most : Nat) : Reader Unit := do
  guard ((← fixedDigits 2) ≤ most)

/-- The days of a month. -/
def daysInMonth (year month : Nat) : Nat :=
  if month = 2 then
    if year % 4 = 0 ∧ (year % 100 ≠ 0 ∨ year % 400 = 0) then 29 else 28
  else if month ∈ [4, 6, 9, 11] then 30
  else 31

/-- A date. -/
def date : Reader Unit := do
  let year ← fixedDigits 4
  expect "-"
  let month ← fixedDigits 2
  guard (1 ≤ month ∧ month ≤ 12)
  expect "-"
  let day ← fixedDigits 2
  guard (1 ≤ day ∧ day ≤ daysInMonth year month)

/-- A time of day; its last minute may have a leap second. -/
def time : Reader Unit := do
  twoDigits 23
  expect ":"
  twoDigits 59
  expect ":"
  twoDigits 60
  discard <| option do
    expect "."
    discard <| satisfy isDigit
    discard <| takeWhile isDigit

/-- The offset of a time from universal time. -/
def timeOffset : Reader Unit :=
  expect "Z" <|> expect "z" <|> do
    expect "+" <|> expect "-"
    twoDigits 23
    expect ":"
    twoDigits 59

/-- A date, a time, or both with an optional offset. -/
def datetime : Reader Unit :=
  (do
    date
    discard <| option do
      expect "T" <|> expect "t" <|> expect " "
      time
      discard <| option timeOffset) <|>
  time

/-- A value that contains no other. -/
def scalar : Reader Item :=
  (.string <$> string) <|>
  (do expect "true"; return .boolean true) <|>
  (do expect "false"; return .boolean false) <|>
  (do datetime; return .datetime) <|>
  (do float; return .float) <|>
  (.integer <$> integer)

end Reader

end TileStream.Toml
