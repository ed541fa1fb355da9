import TileStream.Toml.Reader
/-!
# Strings and keys

Basic strings have escapes, literal strings have none. Three quotes open the multi-line form, which drops
a line end right after them; in the basic form a backslash at the end of a line joins it with the next
non-blank text. Up to two quotes may stand inside a multi-line string, also right before its end.
-/

namespace TileStream.Toml

namespace Reader

/-- A character of a single-line string that is delimited by `quote`. -/
def isTextChar (quote c : Char) : Bool := isCommentChar c && c != quote

/-- The value of a hexadecimal digit. -/
def hexValue? (c : Char) : Option Nat :=
  if '0' ≤ c ∧ c ≤ '9' then some (c.toNat - '0'.toNat)
  else if 'a' ≤ c ∧ c ≤ 'f' then some (c.toNat - 'a'.toNat + 10)
  else if 'A' ≤ c ∧ c ≤ 'F' then some (c.toNat - 'A'.toNat + 10)
  else none

/-- The character whose code is written with `count` hexadecimal digits. -/
def codePoint (count : Nat) : Reader Char := do
  let digits ← (List.replicate count ()).mapM fun _ => do
    (hexValue? (← next) : Option Nat)
  let code := digits.foldl (fun code digit => code * 16 + digit) 0
  guard code.isValidChar
  return Char.ofNat code

/-- The rest of an escape, after its backslash. -/
def escape : Reader Char := do
  match ← next with
  | 'b' => return '\x08'
  | 't' => return '\t'
  | 'n' => return '\n'
  | 'f' => return '\x0c'
  | 'r' => return '\r'
  | '"' => return '"'
  | '\\' => return '\\'
  | 'u' => codePoint 4
  | 'U' => codePoint 8
  | _ => failure

/-- A single-line basic string. -/
def basicString : Reader (List Char) := do
  expect "\""
  let chars ← many (satisfy (fun c => isTextChar '"' c && c != '\\') <|> (do expect "\\"; escape))
  expect "\""
  return chars

/-- A single-line literal string. -/
def literalString : Reader (List Char) := do
  expect "'"
  let chars ← takeWhile (isTextChar '\'')
  expect "'"
  return chars

/-- A line end inside a string. -/
def innerNewline : Reader (List Char) := do
  newline
  return ['\n']

/-- A backslash at the end of a line, with the line ends and blanks after it. -/
def joinedLines : Reader (List Char) := do
  expect "\\"
  blanks
  newline
  discard <| many ((discard <| satisfy isBlank) <|> newline)
  return []

/-- One or two quotes that do not end a multi-line string: another character follows them. -/
def innerQuotes (quote : Char) : Reader (List Char) := do
  let quotes ← takeWhile (· == quote)
  guard (0 < quotes.length ∧ quotes.length < 3)
  return quotes

/-- The closing quotes of a multi-line string; the first of four and the first two of five belong to
the text. -/
def closingQuotes (quote : Char) : Reader (List Char) := do
  let quotes ← takeWhile (· == quote)
  guard (3 ≤ quotes.length ∧ quotes.length ≤ 5)
  return quotes.drop 3

/-- A multi-line string after its opening quotes, whose other text is read by `piece`. -/
def multiLineRest (quote : Char) (piece : Reader (List Char)) : Reader (List Char) := do
  discard <| option newline
  let pieces ← many (piece <|> innerNewline <|> innerQuotes quote)
  return pieces.flatten ++ (← closingQuotes quote)

/-- A multi-line basic string. -/
def multiLineBasic : Reader (List Char) := do
  expect "\"\"\""
  multiLineRest '"' <|
    (List.singleton <$> satisfy (fun c => isTextChar '"' c && c != '\\')) <|> joinedLines <|>
      (do expect "\\"; List.singleton <$> escape)

/-- A multi-line literal string. -/
def multiLineLiteral : Reader (List Char) := do
  expect "'''"
  multiLineRest '\'' (List.singleton <$> satisfy (isTextChar '\''))

/-- A string value. Three quotes open the multi-line form, whatever follows. -/
def string : Reader String := do
  let opensWith (quotes : String) : Reader Bool := fun s =>
    some (quotes.toList.isPrefixOf s, s)
  let chars ←
    if ← opensWith "\"\"\"" then multiLineBasic
    else if ← opensWith "'''" then multiLineLiteral
    else basicString <|> literalString
  return String.ofList chars

/-- A character of a key without quotes. -/
def isBareKeyChar (c : Char) : Bool := c.isAlphanum || c == '_' || c == '-'

/-- One part of a key. -/
def simpleKey : Reader String := do
  let chars ← basicString <|> literalString <|> do
    let chars ← takeWhile isBareKeyChar
    guard (chars ≠ [])
    return chars
  return String.ofList chars

/-- The most parts that a dotted key may have, and the most brackets that may enclose a value. -/
def maxDepth : Nat := 79

/-- A key: parts joined by dots, with blanks around them. Yields the parts before the last, and it. -/
def key : Reader (List String × String) := do
  let part : Reader String := do
    blanks
    let part ← simpleKey
    blanks
    return part
  let first ← part
  let others ← many do
    expect "."
    part
  let parts := first :: others
  guard (parts.length ≤ maxDepth)
  return (parts.dropLast, parts.getLastD first)

end Reader

end TileStream.Toml
