import TileStream.Config.Policy
import TileStream.Config.Preferences
import TileStream.Fault
import TileStream.Kernel.Call
import TileStream.Kernel.Depthwise
import TileStream.Layer.Axis
import TileStream.Layer.Geometry
import TileStream.Layer.GeometryText
import TileStream.Layer.Grid
import TileStream.Layer.Params
import TileStream.Layer.Scratch
import TileStream.Layer.Tensor
import TileStream.Layer.Tiles
import TileStream.Layer.WeightBlob
import TileStream.LittleEndian
import TileStream.Memory.Bank
import TileStream.Memory.Pages
import TileStream.Memory.Region
import TileStream.Memory.System
import TileStream.Memory.Tier
import TileStream.Run.Cluster
import TileStream.Run.Job
import TileStream.Run.LockStep
import TileStream.Run.Program
import TileStream.Run.Settings
import TileStream.Schedule.Slots
import TileStream.Schedule.TileLoop
import TileStream.Team.Barrier
import TileStream.Team.Member
import TileStream.Text.Blank
import TileStream.Text.Hex
import TileStream.Toml.Decode
import TileStream.Toml.Document
import TileStream.Toml.Item
import TileStream.Toml.Quoted
import TileStream.Toml.Reader
import TileStream.Toml.Scalar
import TileStream.Transfer.Descriptor
import TileStream.Transfer.Move
import TileStream.Transfer.Queue
import TileStream.Transfer.Shape
import TileStream.Word
import TileStream.Proofs.Grid.Odometer
import TileStream.Proofs.Grid.Enumeration
import TileStream.Proofs.Grid.Sums
import TileStream.Proofs.Schedule.Iterations
import TileStream.Proofs.Schedule.SlotContents
import TileStream.Proofs.Memory.Image
import TileStream.Proofs.Memory.Words
import TileStream.Proofs.Memory.History
import TileStream.Proofs.Memory.Registry
import TileStream.Proofs.Transfer.Runs
import TileStream.Proofs.Transfer.Effect
import TileStream.Proofs.Transfer.Retire
import TileStream.Proofs.Transfer.InOrder
import TileStream.Proofs.Layer.AxisWindows
import TileStream.Proofs.Layer.Accepted
import TileStream.Proofs.Transfer.Box
import TileStream.Proofs.Layer.TileWindows
import TileStream.Proofs.Layer.TileTransfers
import TileStream.Proofs.Transfer.AnyOrder
import TileStream.Proofs.Transfer.Shares
import TileStream.Proofs.Transfer.RoundTrip
import TileStream.Proofs.Layer.Slots
import TileStream.Proofs.Layer.WindowBounds
import TileStream.Proofs.Layer.OutputPartition
import TileStream.Proofs.Layer.FlatTiles
import TileStream.Proofs.Layer.BlobPartition
import TileStream.Proofs.Run.Phases
import TileStream.Proofs.Run.Segments
import TileStream.Proofs.Run.Interleaving
import TileStream.Proofs.Run.Accounting
import TileStream.Proofs.Run.Contents
import TileStream.Proofs.Run.Hazards
import TileStream.Proofs.Run.Invariant
import TileStream.Proofs.Run.RaceFreedom
import TileStream.Proofs.Team.Division
import TileStream.Proofs.Kernel.Contract
import TileStream.Proofs.Run.LiveBytes
import TileStream.Proofs.Run.Serial
import TileStream.Proofs.Kernel.Depthwise
import TileStream.Proofs.Kernel.Windowed
import TileStream.Proofs.Run.TileKernel
import TileStream.Proofs.Run.Steps
import TileStream.Proofs.Run.Completion
import TileStream.Proofs.Run.LockSteps
import TileStream.Proofs.Run.WholeRun
import TileStream.Proofs.Layer.Construction
import TileStream.Proofs.Layer.Reservation
import TileStream.Proofs.Run.TiledRun
import TileStream.Proofs.Run.Containment
import TileStream.Proofs.Run.Returns
import TileStream.Proofs.Run.Schedules
import TileStream.Proofs.Run.Manifest
import TileStream.Proofs.Run.Bookkeeping
import TileStream.Proofs.Run.Report
import TileStream.Proofs.Run.WritebackPolicies
import TileStream.Proofs.Kernel.TeamIndependence
import TileStream.Proofs.Run.Refusals
import TileStream.Proofs.Layer.SlotFit
import TileStream.Proofs.Run.Staging
import TileStream.Proofs.Run.Calls
import TileStream.Proofs.Run.Exactness
import TileStream.Proofs.Transfer.Pending
import TileStream.Proofs.Layer.Padding
import TileStream.Proofs.Transfer.RegionCounts
import TileStream.Proofs.Run.ChargedRun
import TileStream.Proofs.Run.SlotTraffic
import TileStream.Proofs.Layer.ParamCodec
import TileStream.Proofs.Transfer.Cursor
