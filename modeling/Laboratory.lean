import Laboratory.Algorithm.BitLinear
import Laboratory.Algorithm.Merge
import Laboratory.Algorithm.RoundRobin
import Laboratory.Algorithm.Words
import Laboratory.Concurrency.AtomicMax
import Laboratory.Concurrency.PermitQueue
import Laboratory.IndexFile.ByteCodec
import Laboratory.IndexFile.Command
import Laboratory.IndexFile.Equiv.Command
import Laboratory.IndexFile.Equiv.InputParser
import Laboratory.IndexFile.Equiv.Layouts
import Laboratory.IndexFile.Equiv.LeafChain
import Laboratory.IndexFile.Equiv.Levels
import Laboratory.IndexFile.Equiv.Lookup
import Laboratory.IndexFile.Equiv.MinFill
import Laboratory.IndexFile.Equiv.NodeInsert
import Laboratory.IndexFile.Equiv.NodeRoundTrip
import Laboratory.IndexFile.Equiv.NodeWrite
import Laboratory.IndexFile.Equiv.OtherKeys
import Laboratory.IndexFile.Equiv.Overflow
import Laboratory.IndexFile.Equiv.Ownership
import Laboratory.IndexFile.Equiv.Print
import Laboratory.IndexFile.Equiv.Reload
import Laboratory.IndexFile.Equiv.Reopen
import Laboratory.IndexFile.Equiv.RepeatedKeys
import Laboratory.IndexFile.Equiv.ReservedKey
import Laboratory.IndexFile.Equiv.WellFormed
import Laboratory.IndexFile.InputParser
import Laboratory.QueueLatency.CommandLine
import Laboratory.QueueLatency.DrainOnClose
import Laboratory.QueueLatency.Equiv.Capacity
import Laboratory.QueueLatency.Equiv.Channel
import Laboratory.QueueLatency.Equiv.CommandLine
import Laboratory.QueueLatency.Equiv.Depth
import Laboratory.QueueLatency.Equiv.DrainOnClose
import Laboratory.QueueLatency.Equiv.EventIds
import Laboratory.QueueLatency.Equiv.GlobalLockClose
import Laboratory.QueueLatency.Equiv.GlobalLockQueue
import Laboratory.QueueLatency.Equiv.GlobalLockWait
import Laboratory.QueueLatency.Equiv.Harness
import Laboratory.QueueLatency.Equiv.Ledger
import Laboratory.QueueLatency.Equiv.MakeQueue
import Laboratory.QueueLatency.Equiv.Matrix
import Laboratory.QueueLatency.Equiv.MpmcRingQueue
import Laboratory.QueueLatency.Equiv.Pipeline
import Laboratory.QueueLatency.Equiv.PipelineAdmission
import Laboratory.QueueLatency.Equiv.PipelineClock
import Laboratory.QueueLatency.Equiv.PipelineCounts
import Laboratory.QueueLatency.Equiv.PipelineDepth
import Laboratory.QueueLatency.Equiv.PipelineHistory
import Laboratory.QueueLatency.Equiv.PipelineOrder
import Laboratory.QueueLatency.Equiv.PipelineProgress
import Laboratory.QueueLatency.Equiv.Program
import Laboratory.QueueLatency.Equiv.QueueStats
import Laboratory.QueueLatency.Equiv.Refinement
import Laboratory.QueueLatency.Equiv.RingBounds
import Laboratory.QueueLatency.Equiv.SimulateWork
import Laboratory.QueueLatency.Equiv.SplitLockLinkedQueue
import Laboratory.QueueLatency.Equiv.SpscRingQueue
import Laboratory.QueueLatency.Equiv.Tally
import Laboratory.QueueLatency.Equiv.UpdateMaxDepth
import Laboratory.QueueLatency.Harness
import Laboratory.QueueLatency.Matrix
import Laboratory.QueueLatency.MpmcRingQueue
import Laboratory.QueueLatency.PipelineHistory
import Laboratory.QueueLatency.Program
import Laboratory.QueueLatency.SimulateWork
import Laboratory.QueueLatency.SplitLockLinkedQueue
import Laboratory.TxBatch.Equiv.QueueClaim
import Laboratory.TxBatch.Equiv.SeedOrders
import Laboratory.TxBatch.QueueClaim
import Laboratory.TxBatch.SeedOrders
