/-!
# Readers

A reader consumes characters from the front of a text and yields a value, or fails. This module has the
readers for single characters, blanks, comments and line ends. Lines end with a line feed, alone or
after a carriage return; comments hold no control character but tabs.
-/

namespace TileStream.Toml

/-- Reads a value from the front of a text, or fails. -/
abbrev Reader := StateT (List Char) Option

namespace Reader

/-- The next character. -/
def next : Reader Char := fun
  | [] => none
  | c :: rest => some (c, rest)

/-- The next character without consuming it, `none` at the end. -/
def peek? : Reader (Option Char) := fun s => some (s.head?, s)

/-- The next character if it satisfies `p`. -/
def satisfy (p : Char → Bool) : Reader Char := do
  let c ← next
  guard (p c)
  return c

/-- Exactly the characters of `text`. -/
def expect (text : String) : Reader Unit :=
  text.toList.forM fun c => discard <| satisfy (· == c)

/-- The longest run of characters that satisfy `p`. -/
def takeWhile (p : Char → Bool) : Reader (List Char) := fun s =>
  some (s.takeWhile p, s.dropWhile p)

/-- The end of the text. -/
def atEnd : Reader Unit := fun
  | [] => some ((), [])
  | _ :: _ => none

/-- The value of a reader, or `none` with nothing consumed if it fails. -/
def option {α : Type} (r : Reader α) : Reader (Option α) :=
  (some <$> r) <|> pure none

/-- At most `count` repetitions of a reader, until it fails. -/
def repeatAtMost {α : Type} (r : Reader α) : Nat → Reader (List α)
  | 0 => pure []
  | count + 1 => do
    match ← option r with
    | none => return []
    | some a => return a :: (← repeatAtMost r count)

/-- Repetitions of a reader that consumes something, until it fails. -/
def many {α : Type} (r : Reader α) : Reader (List α) := fun s => repeatAtMost r s.length s

/-- A space or a tab. -/
def isBlank (c : Char) : Bool := c == ' ' || c == '\t'

/-- Spaces and tabs. -/
def blanks : Reader Unit := discard <| takeWhile isBlank

/-- A line end. -/
def newline : Reader Unit := expect "\n" <|> expect "\r\n"

/-- A character that may stand in a comment. -/
def isCommentChar (c : Char) : Bool := c == '\t' || (' ' ≤ c && c != '\x7f')

/-- A comment, up to the line end. -/
def comment : Reader Unit := do
  expect "#"
  discard <| takeWhile isCommentChar

/-- What may follow a complete line: blanks, a comment, and the line end or the end of the text. -/
def restOfLine : Reader Unit := do
  blanks
  discard <| option comment
  newline <|> atEnd

/-- Blanks, comments and line ends, as they may stand between the items of an array. -/
def gap : Reader Unit :=
  discard <| many ((discard <| satisfy isBlank) <|> newline <|> comment)

end Reader

end TileStream.Toml
