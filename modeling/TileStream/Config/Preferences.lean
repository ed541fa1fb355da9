import TileStream.Config.Policy
import TileStream.Toml.Decode
/-!
# Preferences

Engine settings come from a user file, a project file and environment variables; a later source goes
before an earlier one, setting by setting, and what none of them sets has a default. A file that cannot
be read, is no document or has a setting of the wrong type is ignored as a whole, a variable that cannot
be read by itself.
-/

namespace TileStream

open Toml

/-- Settings that may be left open. -/
structure Preferences where
  units : Option Nat
  localBytes : Option Nat
  queueDepth : Option Nat
  writeback : Option Writeback
  deriving DecidableEq, Repr, Inhabited

namespace Preferences

/-- Nothing is set. -/
def none : Preferences := ⟨.none, .none, .none, .none⟩

/-- The settings to run with. A team and a queue have at least one place. -/
def resolve (p : Preferences) : Settings where
  units := max (p.units.getD Settings.standard.units) 1
  localCapacity := p.localBytes.getD Settings.standard.localCapacity
  queueDepth := max (p.queueDepth.getD Settings.standard.queueDepth) 1
  writeback := p.writeback.getD Settings.standard.writeback

/-- What `q` sets goes before what `p` sets. -/
def merge (p q : Preferences) : Preferences where
  units := q.units <|> p.units
  localBytes := q.localBytes <|> p.localBytes
  queueDepth := q.queueDepth <|> p.queueDepth
  writeback := q.writeback <|> p.writeback

/-- Read a policy from a document, where it has to be spelled exactly. -/
def policyOfItem? (item : Item) : Option Writeback := do
  match ← item.choice? with
  | "blocking" => some .blocking
  | "deferred" => some .deferred
  | _ => .none

/-- Read the fields of a settings file. -/
def ofFields? (fs : Fields) : Option Preferences := do
  let units ← fs.optional 0 "units" Item.size?
  let localBytes ← fs.optional 1 "local_bytes" Item.size?
  let queueDepth ← fs.optional 2 "dma_queue_depth" Item.size?
  let writeback ← fs.optional 3 "writeback" policyOfItem?
  return { units, localBytes, queueDepth, writeback }

/-- Read a settings file. -/
def ofSource? (source : Source) : Option Preferences := do
  let text ← source.text?
  ofFields? (.named (← parse text))

/-- The settings that environment variables give. -/
def ofVariables (lookup : String → Option String) : Preferences where
  units := (lookup "CLUSTER_TILER_UNITS").bind Text.count?
  localBytes := (lookup "CLUSTER_TILER_LOCAL_BYTES").bind Text.count?
  queueDepth := (lookup "CLUSTER_TILER_DMA_QUEUE_DEPTH").bind Text.count?
  writeback := (lookup "CLUSTER_TILER_WRITEBACK").bind fun s => (Writeback.ofText s).toOption

/-- Collect the settings from every source. The file beside the manifest stands in for a project file
that gives nothing. -/
def load (user project manifest : Source) (lookup : String → Option String) : Preferences :=
  let file (s : Source) : Preferences := (ofSource? s).getD none
  let projectFile := (ofSource? project <|> ofSource? manifest).getD none
  ((none.merge (file user)).merge projectFile).merge (ofVariables lookup)

/-- A settings file to begin with. -/
def sample : String :=
"# cluster-tiler configuration
# Place this file at ~/.config/cluster-tiler/config.toml or ./cluster-tiler.toml

# Execution units in the SPMD team
units = 8

# Local scratchpad capacity in bytes
local_bytes = 65536

# Outstanding DMA transfers before a submitter stalls
# dma_queue_depth = 16

# Output write-back: \"blocking\" or \"deferred\"
# writeback = \"blocking\"
"

end Preferences

end TileStream
