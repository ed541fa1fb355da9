import TileStream.Word
/-!
# Memory tiers and endpoints

The cluster has three tiers: slow external memory for whole tensors, mid on-chip memory that feeds the
tiles, and the local scratchpad in which tiles are computed. An `Endpoint` is an address in a tier.
-/

namespace TileStream

/-- A memory tier. -/
inductive Tier where
  | slow
  | mid
  /-- The local scratchpad of the cluster. -/
  | scratchpad
  deriving DecidableEq, Repr, Inhabited

/-- The name of a tier in messages. -/
def Tier.name : Tier → String
  | .slow => "slow"
  | .mid => "mid"
  | .scratchpad => "local"

/-- The name of a tier in a summary of its state. -/
def Tier.title : Tier → String
  | .slow => "Slow"
  | .mid => "Mid"
  | .scratchpad => "Local"

/-- An address in a tier. -/
structure Endpoint where
  tier : Tier
  addr : Nat
  deriving DecidableEq, Repr, Inhabited

/-- The endpoint `delta` bytes further on. The address is taken as a signed word and must stay one. -/
def Endpoint.displace (e : Endpoint) (delta : Int) : Checked Endpoint := do
  return { e with addr := unsigned (← Signed.add (signed e.addr) delta) }

end TileStream
