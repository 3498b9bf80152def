import DistributedLog.Trace
import DistributedLog.BigEndian
import DistributedLog.Directory
import DistributedLog.Tiles
import DistributedLog.FileName
import DistributedLog.Wire
import DistributedLog.Record
import DistributedLog.Store
import DistributedLog.Index
import DistributedLog.Segment
import DistributedLog.Log
import DistributedLog.AppendOnly
import DistributedLog.Layout
import DistributedLog.Representation
import DistributedLog.Operations
import DistributedLog.Refinement
import DistributedLog.LogStore
import DistributedLog.Fsm
import DistributedLog.Replica
import DistributedLog.Reader
import DistributedLog.Sound
import DistributedLog.Uses
import DistributedLog.Snapshot
import DistributedLog.PointInTime
import DistributedLog.Capacity
import DistributedLog.Crash
import DistributedLog.Server
import DistributedLog.Consent
import DistributedLog.Pebble
import DistributedLog.Orphans
import DistributedLog.Calls
import DistributedLog.FailedAppend
import DistributedLog.Commands
import DistributedLog.Batch
import DistributedLog.Truncation
import DistributedLog.Rolling
import DistributedLog.Producers
import DistributedLog.Wrapping
import DistributedLog.Consumers
import DistributedLog.Membership
import DistributedLog.Decoding
import DistributedLog.StoreRuns
import DistributedLog.SegmentReads
import DistributedLog.Setup
import DistributedLog.NotFound
import DistributedLog.Limits
import DistributedLog.WholeFrames
import DistributedLog.Linearizable
import DistributedLog.Concurrent
import DistributedLog.Linearization
import DistributedLog.Agreement
import DistributedLog.Pipeline
import DistributedLog.Replicator
import DistributedLog.Network
import DistributedLog.Padding
import DistributedLog.Remains
import DistributedLog.Resumed
import DistributedLog.Restart
import DistributedLog.Unmapped
import DistributedLog.Discovery
import DistributedLog.Stores
import DistributedLog.Agent
import DistributedLog.StreamLayer
