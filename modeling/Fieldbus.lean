import Fieldbus.Activity
import Fieldbus.Backoff
import Fieldbus.Binary.Binary64
import Fieldbus.Binary.Decimal
import Fieldbus.Binary.Format
import Fieldbus.Calendar
import Fieldbus.Channel.Basic
import Fieldbus.Channel.Defect
import Fieldbus.Channel.Limits
import Fieldbus.Channel.Point
import Fieldbus.Command.Board
import Fieldbus.Command.Executor
import Fieldbus.Command.Queue
import Fieldbus.Command.Status
import Fieldbus.Config.Check
import Fieldbus.Config.Entry
import Fieldbus.Config.Settings
import Fieldbus.Engine.Fault
import Fieldbus.Engine.Reload
import Fieldbus.Engine.Status
import Fieldbus.Fault
import Fieldbus.Frame.Crc
import Fieldbus.Frame.Rtu
import Fieldbus.Frame.Tcp
import Fieldbus.FunctionCode
import Fieldbus.Link.Channel
import Fieldbus.Link.Rtu
import Fieldbus.Link.Serial
import Fieldbus.Link.State
import Fieldbus.Link.Tcp
import Fieldbus.Link.Wire
import Fieldbus.Link.WriteRequest
import Fieldbus.Log.Disk
import Fieldbus.Log.Queue
import Fieldbus.Log.Record
import Fieldbus.Log.Retention
import Fieldbus.Log.SegmentName
import Fieldbus.Log.Walk
import Fieldbus.Log.Writer
import Fieldbus.Main
import Fieldbus.Pdu.Basic
import Fieldbus.Pdu.Request
import Fieldbus.Pdu.Response
import Fieldbus.Plan.Batch
import Fieldbus.Plan.Planner
import Fieldbus.Poll.Poller
import Fieldbus.Poll.State
import Fieldbus.Program.Arguments
import Fieldbus.Program.Messages
import Fieldbus.Register.ByteOrder
import Fieldbus.Register.DataType
import Fieldbus.Register.Transform
import Fieldbus.Proofs.Plan.Order
import Fieldbus.Rehearsal.Commands
import Fieldbus.Rehearsal.Engine
import Fieldbus.Rehearsal.Polling
import Fieldbus.Rehearsal.Script
import Fieldbus.Rehearsal.Service
import Fieldbus.Rehearsal.Station
import Fieldbus.Rehearsal.World
import Fieldbus.Store
import Fieldbus.Table
import Fieldbus.Text.Blank
import Fieldbus.Text.Hex
import Fieldbus.Time
import Fieldbus.Yaml.Character
import Fieldbus.Yaml.Error
import Fieldbus.Yaml.Node
import Fieldbus.Yaml.Scalar
import Fieldbus.Yaml.Token
import Fieldbus.Yaml.Value
import Fieldbus.Proofs.Config.Accepted
import Fieldbus.Proofs.Pdu.ReadResponse
import Fieldbus.Proofs.Plan.Acquisition
import Fieldbus.Proofs.Activity.Interleaving
import Fieldbus.Proofs.Poll.Publication
import Fieldbus.Proofs.Command.Acknowledgement
import Fieldbus.Proofs.Command.Freshness
import Fieldbus.Proofs.Command.Queueing
import Fieldbus.Proofs.Command.Signs
import Fieldbus.Proofs.Command.Handle
import Fieldbus.Proofs.Command.Lifecycle
import Fieldbus.Proofs.Link.Frames
import Fieldbus.Proofs.Link.Alignment
import Fieldbus.Proofs.Link.SerialReception
import Fieldbus.Proofs.Plan.Minimal
import Fieldbus.Proofs.Command.ReadBack
import Fieldbus.Proofs.Poll.Standing
import Fieldbus.Proofs.Engine.Ledger
import Fieldbus.Proofs.Engine.Reload
import Fieldbus.Proofs.Engine.Estate
import Fieldbus.Proofs.Engine.World
import Fieldbus.Proofs.Engine.Registry
import Fieldbus.Proofs.Engine.Stop
import Fieldbus.Proofs.Engine.Leftovers
import Fieldbus.Proofs.Pdu.Conformance
import Fieldbus.Proofs.Frame.Serial
import Fieldbus.Proofs.Frame.Checksum
import Fieldbus.Proofs.Frame.Corruption
import Fieldbus.Proofs.Poll.Account
import Fieldbus.Proofs.Plan.Permutation
import Fieldbus.Proofs.Config.Loading
import Fieldbus.Proofs.Engine.Startup
import Fieldbus.Proofs.Log.SegmentName
import Fieldbus.Proofs.Log.Files
import Fieldbus.Proofs.Log.Segments
import Fieldbus.Proofs.Log.Appending
import Fieldbus.Proofs.Log.NameParsing
import Fieldbus.Proofs.Log.Archives
import Fieldbus.Proofs.Log.Holding
import Fieldbus.Proofs.Log.Workplace
import Fieldbus.Proofs.Log.Deeds
import Fieldbus.Proofs.Log.Overlooking
import Fieldbus.Proofs.Log.Readable
import Fieldbus.Proofs.Poll.Recovery
import Fieldbus.Proofs.Link.Requests
import Fieldbus.Proofs.Activity.Visits
import Fieldbus.Proofs.Activity.Waiting
import Fieldbus.Proofs.Engine.Sharing
import Fieldbus.Proofs.Command.Confirmation
import Fieldbus.Proofs.Activity.Clock
import Fieldbus.Proofs.Poll.Stretching
import Fieldbus.Proofs.Poll.Cadence
import Fieldbus.Proofs.Command.Execution
import Fieldbus.Proofs.Link.SerialReads
import Fieldbus.Proofs.Store.History
import Fieldbus.Proofs.Poll.Recording
import Fieldbus.Proofs.Binary.Exact
import Fieldbus.Proofs.Link.Spacing
import Fieldbus.Proofs.Log.Regular
import Fieldbus.Proofs.Log.Sweeping
import Fieldbus.Proofs.Log.Retrying
import Fieldbus.Proofs.Log.Fragments
import Fieldbus.Proofs.Log.Lines
import Fieldbus.Proofs.Command.Pruning
import Fieldbus.Proofs.Command.Following
import Fieldbus.Proofs.Link.Captures
import Fieldbus.Proofs.Link.Counters
import Fieldbus.Proofs.Register.Integers
import Fieldbus.Proofs.Frame.Network
import Fieldbus.Proofs.Register.Orders
import Fieldbus.Proofs.Log.OwnNames
import Fieldbus.Proofs.Config.Ceiling
