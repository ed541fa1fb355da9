import TileStream.Kernel.Call
import TileStream.Layer.Scratch
import TileStream.Layer.Tiles
import TileStream.Run.Settings
import TileStream.Schedule.TileLoop
/-!
# Jobs

A job is a layer that has been accepted to run: its geometry can be tiled and its scratchpad partition
fits. It knows the transfers and the kernel call of every tile. A job is refused for its geometry, its
partition or its parameter block; a run is refused when memory cannot hold the partition.
-/

namespace TileStream

open Unsigned

/-- Why a layer is not run. -/
inductive JobError where
  | geometry (cause : GeometryError)
  | layout (cause : LayoutError)
  | params (cause : ParamsError)
  | memory (cause : RegionError)
  deriving DecidableEq, Repr

def JobError.message : JobError → String
  | .geometry cause => s!"invalid layer geometry: {cause.message}"
  | .layout cause => s!"scratchpad does not fit: {cause.message}"
  | .params cause => s!"invalid parameter block: {cause.message}"
  | .memory cause => s!"local memory rejected the scratchpad: {cause.message}"

/-- A layer that has been accepted to run. -/
structure Job where
  geometry : Geometry
  params : Params
  settings : Settings
  scratch : Scratch
  tiles : Tiles
  blob : WeightBlob
  deriving DecidableEq, Repr, Inhabited

namespace Job

/-- Accept a layer, or say why not. The tiles are fed from the mid tier. -/
def create (g : Geometry) (p : Params) (settings : Settings) : ExceptT JobError Checked Job := do
  g.validate.adapt .geometry
  let scratch ← Scratch.plan g
  (scratch.validateAt p.localBase.toNat settings.localCapacity).adapt .layout
  let tiles ← Tiles.place g ⟨.mid, p.midInput.toNat⟩ ⟨.mid, p.midOutput.toNat⟩
    ⟨.mid, p.midWeights.toNat⟩
  let blob ← g.blob
  return { geometry := g, params := p, settings, scratch, tiles, blob }

/-- Accept a layer whose parameter block is given as words. -/
def ofWords (g : Geometry) (words : List UInt32) (settings : Settings) :
    ExceptT JobError Checked Job := do
  match Params.ofWords words with
  | .error cause => throw (.params cause)
  | .ok p => create g p settings

/-- The endpoint at an offset of the scratchpad. -/
def pad (j : Job) (offset : Nat) : Checked Endpoint := do
  return ⟨.scratchpad, ← add j.params.localBase.toNat offset⟩

/-- The transfer that brings an input tile into a slot. -/
def inputTransfer (j : Job) (c : Coord) (slot : Parity) : Checked Descriptor := do
  let tile ← j.tiles.inputTile c
  let loc ← j.pad (j.scratch.slot .input slot)
  return ⟨.input, .gather, tile.ext, loc, tile.shape⟩

/-- The transfer that writes an output tile back from a slot. -/
def outputTransfer (j : Job) (c : Coord) (slot : Parity) : Checked Descriptor := do
  let tile ← j.tiles.outputTile c
  let loc ← j.pad (j.scratch.slot .output slot)
  return ⟨.output, .scatter, tile.ext, loc, tile.shape⟩

/-- The transfers that bring weights, multipliers and biases of a channel block into a slot. -/
def weightTransfers (j : Job) (block : Nat) (slot : Parity) : Checked (List Descriptor) := do
  let weights ← j.tiles.weightTile block
  let kappa ← j.tiles.kappaTile block
  let lambda ← j.tiles.lambdaTile block
  let weightsLoc ← j.pad (j.scratch.slot .weights slot)
  let kappaLoc ← j.pad (j.scratch.kappaOffset slot)
  let lambdaLoc ← j.pad (j.scratch.lambdaOffset slot)
  return [
    ⟨.weights, .gather, weights.ext, weightsLoc, weights.shape⟩,
    ⟨.requant, .gather, kappa.ext, kappaLoc, kappa.shape⟩,
    ⟨.requant, .gather, lambda.ext, lambdaLoc, lambda.shape⟩]

/-- The kernel call of one iteration. -/
def call (j : Job) (i : Iteration) : Checked Call := do
  let input ← j.tiles.inputTile i.exec
  let output ← j.tiles.outputTile i.exec
  let weights := i.slots.weights.exec
  let inputAt ← j.pad (j.scratch.slot .input i.slots.input.exec)
  let weightsAt ← j.pad (j.scratch.slot .weights weights)
  let workspaceAt ← j.pad j.scratch.workspace.start
  let kappaAt ← j.pad (j.scratch.kappaOffset weights)
  let lambdaAt ← j.pad (j.scratch.lambdaOffset weights)
  let outputAt ← j.pad (j.scratch.slot .output i.slots.output)
  return {
    input := inputAt.addr
    inputDims := input.dims
    weights := weightsAt.addr
    channels := output.dims.channels
    kernel := j.geometry.kernel
    stride := j.geometry.stride
    boundary := i.boundary
    padding := j.geometry.padding
    workspace := workspaceAt.addr
    workspaceBytes := j.scratch.workspace.len
    kappa := kappaAt.addr
    lambda := lambdaAt.addr
    requant := j.params.requant
    output := outputAt.addr
    outputDims := output.dims }

/-- A bulk copy of `bytes` bytes between slow and mid memory. Sizes keep their low 32 bits. -/
def staging (direction : Direction) (slow mid : UInt32) (bytes : Nat) : Descriptor :=
  ⟨.staging, direction, ⟨.slow, slow.toNat⟩, ⟨.mid, mid.toNat⟩, .contiguous (low32 bytes)⟩

/-- The bulk copy of the input tensor from slow to mid memory. -/
def stageInput (j : Job) : Checked Descriptor := do
  return staging .gather j.params.slowInput j.params.midInput (← j.tiles.input.bytes)

/-- The bulk copy of the weight blob from slow to mid memory. -/
def stageWeights (j : Job) : Descriptor :=
  staging .gather j.params.slowWeights j.params.midWeights j.blob.total

/-- The bulk copy of the output tensor from mid to slow memory. -/
def stageOutput (j : Job) : Checked Descriptor := do
  return staging .scatter j.params.slowOutput j.params.midOutput (← j.tiles.output.bytes)

/-- Register every part of the partition as a region of the scratchpad. Regions of an earlier run are
dropped first; when one part is refused the parts before it stay registered. -/
def reserve (j : Job) : Stateful Bank (Except RegionError Unit) := do
  modify Bank.clearRegions
  register j.scratch.regions
where
  register : List (String × Nat × Nat) → Stateful Bank (Except RegionError Unit)
    | [] => return .ok ()
    | (name, offset, size) :: rest => do
      let base ← add j.params.localBase.toNat offset
      match ← Bank.allocate name base size with
      | .error cause => return .error cause
      | .ok () => register rest

end Job

end TileStream
