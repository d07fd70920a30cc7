import NexusCore.Foundation.Machine
import NexusCore.Foundation.ByteOrder
import NexusCore.Foundation.LinearMemory
import NexusCore.Foundation.KeyedList
import NexusCore.Foundation.KeyedTable
import NexusCore.Foundation.NearestRank
import NexusCore.Foundation.Loop
import NexusCore.Foundation.BreadthFirst
import NexusCore.Foundation.Search
import NexusCore.Foundation.StructLayout
import NexusCore.Foundation.Overlay
import NexusCore.Foundation.Lines
import NexusCore.Foundation.Newest
import NexusCore.Foundation.Recency
import NexusCore.Foundation.CappedLog
import NexusCore.Foundation.Transition
import NexusCore.Foundation.History
import NexusCore.Foundation.Increment
import NexusCore.Foundation.Script
import NexusCore.Foundation.Rounding
import NexusCore.Foundation.Double
import NexusCore.Foundation.Utf8
import NexusCore.Foundation.Simulation
import NexusCore.Foundation.TornRead
import NexusCore.Foundation.BoundedTable
import NexusCore.Foundation.Smoothing
import NexusCore.Foundation.Climb
import NexusCore.Foundation.Rotation
import NexusCore.Foundation.Decimal
import NexusCore.Foundation.Http
import NexusCore.Foundation.Tokens
import NexusCore.Foundation.Json
import NexusCore.Foundation.JsonText
import NexusCore.Csr.Model
import NexusCore.Csr.Loops
import NexusCore.Csr.Representation
import NexusCore.Csr.Rebuild
import NexusCore.Csr.EdgeBag
import NexusCore.Csr.Runs
import NexusCore.Csr.Queries
import NexusCore.Csr.Benchmark
import NexusCore.Csr.Layout
import NexusCore.Csr.Damage
import NexusCore.Blob.Engine
import NexusCore.Blob.Codec
import NexusCore.Blob.Traversal
import NexusCore.Blob.Safety
import NexusCore.Blob.Termination
import NexusCore.Blob.Neighbourhood
import NexusCore.Blob.Limits
import NexusCore.Blob.Waste
import NexusCore.Blob.Generated
import NexusCore.Schema.Component
import NexusCore.Schema.ControlPlane
import NexusCore.Schema.Classifier
import NexusCore.Schema.PacketGrammar
import NexusCore.Schema.Convergence
import NexusCore.Schema.Traps
import NexusCore.Schema.LiveChange
import NexusCore.Schema.Descriptor
import NexusCore.Schema.RoundTrip
import NexusCore.Schema.Truncation
import NexusCore.Schema.History
import NexusCore.Schema.Tenants
import NexusCore.Schema.Delivery
import NexusCore.Probe.Model
import NexusCore.Probe.Pairing
import NexusCore.Probe.Buckets
import NexusCore.Probe.Loader
import NexusCore.Probe.Percentiles
import NexusCore.Probe.Output
import NexusCore.Probe.Dashboard
import NexusCore.Probe.Web
import NexusCore.Probe.Page
import NexusCore.Probe.Render
import NexusCore.Probe.Survival
import NexusCore.Probe.RawEvents
import NexusCore.Probe.Ledger
import NexusCore.Probe.Reports
import NexusCore.Probe.Wire
import NexusCore.Probe.Stream
import NexusCore.Probe.Screen
import NexusCore.Probe.Targets
import NexusCore.Bench.Model
import NexusCore.Bench.Exact
import NexusCore.Bench.Histogram
import NexusCore.Latency.RoundTrip
import NexusCore.Latency.Capacity
import NexusCore.Heat.HotEdge
import NexusCore.Heat.Interleaving
import NexusCore.Heat.Alerts
import NexusCore.Host.Agg
import NexusCore.Host.Slots
import NexusCore.Host.Percentile
import NexusCore.Host.Pipeline
import NexusCore.Host.Worker
import NexusCore.Guest.Model
import NexusCore.Guest.Shape
import NexusCore.LoadGen.Workers
import NexusCore.LoadGen.Fleet
import NexusCore.LoadGen.Requests
