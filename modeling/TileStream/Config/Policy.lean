import TileStream.Run.Settings
import TileStream.Text.Blank
/-!
# Write-back policies as text

A policy may be named with blanks around it and in any case of the ASCII letters.
-/

namespace TileStream

/-- A text that names no policy. -/
structure UnknownPolicy where
  /-- The text, trimmed and in lower case. -/
  text : String
  deriving DecidableEq, Repr

def UnknownPolicy.message (e : UnknownPolicy) : String := s!"unknown write-back policy '{e.text}'"

/-- Read a write-back policy. -/
def Writeback.ofText (s : String) : Except UnknownPolicy Writeback :=
  let name := (Text.trimBlanks s).map Char.toLower
  if name = "blocking" ∨ name = "sync" then .ok .blocking
  else if name = "deferred" ∨ name = "async" then .ok .deferred
  else .error ⟨name⟩

end TileStream
