import XiRuntime.Memory
import XiRuntime.Fragment
import XiRuntime.Buffer
import XiRuntime.BufferContent
import XiRuntime.BufferWorld
import XiRuntime.BufferRefinement
import XiRuntime.BufferSteps
import XiRuntime.Http2Frame
import XiRuntime.Http2Grammar
import XiRuntime.Http2Termination
import XiRuntime.Http2Chunking
import XiRuntime.Http2Errors
import XiRuntime.Future
import XiRuntime.FutureOrder
import XiRuntime.Channel
import XiRuntime.ChannelWakeup
import XiRuntime.ChannelDelivery
import XiRuntime.RingBuffer
import XiRuntime.RingBufferFifo
import XiRuntime.Scheduler
import XiRuntime.SchedulerParking
import XiRuntime.IntrusiveSet
import XiRuntime.Runs
import XiRuntime.SleepQueue
import XiRuntime.SleepQueueRuns
import XiRuntime.CoreMessageBus
import XiRuntime.DataSink
import XiRuntime.BufferClone
import XiRuntime.Guard
import XiRuntime.GuardOwnership
import XiRuntime.GuardAppend
import XiRuntime.GuardRuns
import XiRuntime.Pipe
import XiRuntime.PipeRouting
import XiRuntime.PipeRemoval
import XiRuntime.Http2Codec
import XiRuntime.Netpoller
import XiRuntime.Http2Header
import XiRuntime.Http2Settings
import XiRuntime.PromiseOnce
import XiRuntime.SchedulerMask
import XiRuntime.Shard
import XiRuntime.ArenaAllocator
import XiRuntime.FragmentString
import XiRuntime.RingBufferPeek
import XiRuntime.BufferCoalesce
import XiRuntime.Signals
import XiRuntime.ChannelFifo
import XiRuntime.Latch
import XiRuntime.MessageBusAccounting
import XiRuntime.RingBufferThrow
import XiRuntime.RingBufferAccess
import XiRuntime.RingBufferReserve
import XiRuntime.Http2Padding
import XiRuntime.BufferReader
import XiRuntime.Http2Buffer
import XiRuntime.Http2Preface
import XiRuntime.SleepQueueShortcut
import XiRuntime.ExecutionBudget
import XiRuntime.ReaderScan
import XiRuntime.ReaderMark
import XiRuntime.FragmentStringOrder
import XiRuntime.ArenaCapacity
import XiRuntime.FragmentWindow
import XiRuntime.FragmentRanges
import XiRuntime.Worker
import XiRuntime.WorkerKeeps
import XiRuntime.WorkerOrder
import XiRuntime.PageRuns
import XiRuntime.MemoryAccounts
import XiRuntime.StreamTransport
import XiRuntime.Reactor
import XiRuntime.IsolatedWakeup
import XiRuntime.CrossCpuFreelist
