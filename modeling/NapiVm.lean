import NapiVm.Lib.PMap
import NapiVm.Lib.Slots
import NapiVm.Lib.Run
import NapiVm.Lib.SparseArray
import NapiVm.Value.Basic
import NapiVm.Value.Shape
import NapiVm.Value.ShapeTree
import NapiVm.Value.Layouts
import NapiVm.Value.ObjectCell
import NapiVm.Value.ObjectIndex
import NapiVm.Value.ArrayIndex
import NapiVm.Value.ArrayCell
import NapiVm.Value.ArrayRefinement
import NapiVm.Value.ArrayLength
import NapiVm.Value.Shared
import NapiVm.Value.Collections
import NapiVm.Value.Capacity
import NapiVm.Lib.Ephemeron
import NapiVm.Heap.Basic
import NapiVm.Heap.Marker
import NapiVm.Heap.Marking
import NapiVm.Heap.Ephemerons
import NapiVm.Heap.Collect
import NapiVm.Lib.Action
import NapiVm.Bytecode.Opcode
import NapiVm.Bytecode.Function
import NapiVm.Bytecode.Verify
import NapiVm.Bytecode.Frame
import NapiVm.Bytecode.Exec
import NapiVm.Bytecode.Dispatch
import NapiVm.Bytecode.VerifySound
import NapiVm.Bytecode.VerifyRun
import NapiVm.Bytecode.ConstantKind
import NapiVm.Lib.Nondet
import NapiVm.Object.Descriptor
import NapiVm.Object.Storage
import NapiVm.Object.KeyView
import NapiVm.Object.Protected
import NapiVm.Proxy.Calls
import NapiVm.Proxy.Invariants
import NapiVm.Proxy.Answers
import NapiVm.Proxy.Runs
import NapiVm.Text.JsString
import NapiVm.Object.SlotNames
import NapiVm.Lib.Binary64
import NapiVm.Host.Convert
import NapiVm.Host.RoundTrip
import NapiVm.Rpc.Peer
import NapiVm.Rpc.Track
import NapiVm.Rpc.Settlement
import NapiVm.Rpc.Closing
import NapiVm.Rpc.Frame
import NapiVm.Rpc.Outbound
import NapiVm.Rpc.Traffic
import NapiVm.Rpc.Fence
import NapiVm.Rpc.Budget
import NapiVm.Plugin.EventHub
import NapiVm.Plugin.EventQueues
import NapiVm.Plugin.EventOrder
import NapiVm.Promise.Basic
import NapiVm.Promise.Settlement
import NapiVm.Promise.Runs
import NapiVm.Promise.Evolution
import NapiVm.Promise.Steady
import NapiVm.AsyncGen.Basic
import NapiVm.AsyncGen.Server
import NapiVm.AsyncGen.Runs
import NapiVm.Module.Graph
import NapiVm.Module.Basic
import NapiVm.Module.Once
import NapiVm.Module.Lively
import NapiVm.Module.Upkeep
import NapiVm.Module.Going
import NapiVm.Module.Progress
import NapiVm.Module.Quiescence
import NapiVm.Module.Resolve
import NapiVm.Plugin.Emission
import NapiVm.Rpc.RpcPeer
import NapiVm.Rpc.FrameDecoder
import NapiVm.Text.NumberText
import NapiVm.Text.JsonText
import NapiVm.Npm.Range
import NapiVm.Npm.Install
import NapiVm.Npm.Walk
import NapiVm.Npm.Lookup
import NapiVm.Npm.Replay
import NapiVm.Lib.Replace
import NapiVm.Lib.Scan
import NapiVm.Lib.Decimal
import NapiVm.Lib.Exact
import NapiVm.Plugin.Redaction
import NapiVm.Plugin.Host
import NapiVm.Plugin.Shutdown
import NapiVm.Plugin.Failure
import NapiVm.Plugin.Trusted
import NapiVm.Plugin.TrustedShutdown
import NapiVm.Plugin.TrustedLog
import NapiVm.Plugin.ErrorRedaction
import NapiVm.Plugin.Serve
import NapiVm.Plugin.ServeEvents
import NapiVm.Schema.Value
import NapiVm.Schema.Wire
import NapiVm.Schema.Check
import NapiVm.Schema.Scalars
import NapiVm.Schema.Contract
import NapiVm.Schema.Seats
import NapiVm.Schema.Union
import NapiVm.Schema.Guards
import NapiVm.Lib.SortedList
import NapiVm.Jobs.TimerQueue
import NapiVm.Jobs.Cancel
import NapiVm.Jobs.TimerIds
import NapiVm.Jobs.Turn
import NapiVm.Jobs.HardLimits
import NapiVm.Lib.Occurrence
import NapiVm.Lib.Tombstones
import NapiVm.Lib.WaitQueue
import NapiVm.Parser.Ast
import NapiVm.Parser.References
import NapiVm.Parser.Occurrences
import NapiVm.Json.Serialize
import NapiVm.Json.Reindent
import NapiVm.Json.Grammar
import NapiVm.Json.Parser
import NapiVm.Json.Accepts
import NapiVm.Json.RoundTrip
import NapiVm.Lib.Calendar
import NapiVm.Date.Civil
import NapiVm.Date.Text
import NapiVm.Date.RoundTrip
import NapiVm.Buffer.Codec
import NapiVm.Buffer.RoundTrip
import NapiVm.Lib.Cut
import NapiVm.Text.Scalars
import NapiVm.Buffer.Write
import NapiVm.Buffer.Characters
import NapiVm.Lib.Rounding
import NapiVm.Number.ParseRadix
import NapiVm.Number.ToString
import NapiVm.Number.BigNat
import NapiVm.Number.Format
import NapiVm.Number.Closest
import NapiVm.Number.DecimalText
import NapiVm.Number.Significant
import NapiVm.Number.FormatExact
import NapiVm.Lib.HashTable
import NapiVm.NodeApi.Handles
import NapiVm.NodeApi.HandleSlots
import NapiVm.NodeApi.Coherent
import NapiVm.NodeApi.HandleScopes
import NapiVm.NodeApi.Threadsafe
import NapiVm.Npm.Exact
import NapiVm.Object.Define
import NapiVm.Object.DefineUnchanged
import NapiVm.BigInt.Magnitude
import NapiVm.BigInt.Basic
import NapiVm.BigInt.Divide
import NapiVm.BigInt.Shift
import NapiVm.BigInt.Bitwise
import NapiVm.BigInt.ToF64
import NapiVm.BigInt.Codec
import NapiVm.BigInt.Cap
