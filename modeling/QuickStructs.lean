import QuickStructs.Lib.Transition
import QuickStructs.Lib.Machine
import QuickStructs.Lib.Loop
import QuickStructs.Lib.Search
import QuickStructs.Structs.Orderbook
import QuickStructs.Proof.Fill
import QuickStructs.Proof.Sides
import QuickStructs.Proof.BookInv
import QuickStructs.Spec.PriceTime
import QuickStructs.Proof.PriceTime
import QuickStructs.Proof.Ledger
import QuickStructs.Proof.Invisible
import QuickStructs.Proof.IntRange
import QuickStructs.Lib.Ring
import QuickStructs.Structs.SPSCQueue
import QuickStructs.Proof.RingInv
import QuickStructs.Proof.Lifetime
import QuickStructs.Lib.Tally
import QuickStructs.Thread.ThreadPool
import QuickStructs.Proof.PoolInv
import QuickStructs.Proof.PoolBalance
import QuickStructs.Proof.PoolDrain
import QuickStructs.Thread.ThreadPoolLocks
import QuickStructs.Proof.PoolLocks
import QuickStructs.Proof.PoolLifetime
import QuickStructs.Proof.PoolStrand
import QuickStructs.Lib.Lock
import QuickStructs.Proof.MutexExcl
import QuickStructs.Handle.SharedPtr
import QuickStructs.Proof.RefCount
import QuickStructs.Proof.RefCalls
import QuickStructs.Handle.UniquePtr
import QuickStructs.Proof.Ownership
import QuickStructs.Lib.Storage
import QuickStructs.Structs.Vector
import QuickStructs.Proof.VectorRefine
import QuickStructs.Proof.VectorCopy
import QuickStructs.Proof.VectorHolds
import QuickStructs.Proof.VectorCapacity
import QuickStructs.Proof.VectorAlias
import QuickStructs.Structs.VectorThrow
import QuickStructs.Proof.VectorGuarantee
import QuickStructs.Proof.Balanced
import QuickStructs.Lib.Text
import QuickStructs.Utils.TomlParser
import QuickStructs.Proof.TomlRead
import QuickStructs.Proof.TomlPairs
import QuickStructs.Proof.TomlLookup
import QuickStructs.Structs.ThreadSafeQueue
import QuickStructs.Proof.Delivery
import QuickStructs.Lib.Descriptors
import QuickStructs.Io.SocketRAII
import QuickStructs.Proof.Sockets
import QuickStructs.Handle.LinkedPtr
import QuickStructs.Proof.Cascade
import QuickStructs.Proof.LinkedAssign
import QuickStructs.Lib.Bytes
import QuickStructs.Memory.Copy
import QuickStructs.Proof.Overlap
import QuickStructs.Spec.TomlLines
import QuickStructs.Proof.TomlEntries
import QuickStructs.Proof.TomlQuoted
import QuickStructs.Proof.TomlReload
import QuickStructs.Proof.TomlReject
import QuickStructs.Lib.Decimal
import QuickStructs.Io.Config
import QuickStructs.Proof.Port
import QuickStructs.Lib.Runs
import QuickStructs.Proof.Split
import QuickStructs.Structs.SPSCObservers
import QuickStructs.Proof.Observers
import QuickStructs.Handle.SharedPtrThrow
import QuickStructs.Proof.RefThrow
import QuickStructs.Structs.VectorBytes
import QuickStructs.Proof.Strings
import QuickStructs.Proof.VectorLeak
import QuickStructs.Proof.VectorRoom
import QuickStructs.Lib.Published
import QuickStructs.Structs.SPSCWeak
import QuickStructs.Proof.WeakRing
import QuickStructs.Utils.Logger
import QuickStructs.Proof.LogLines
import QuickStructs.Proof.LogOrder
import QuickStructs.Io.Tcp
import QuickStructs.Proof.Servers
import QuickStructs.Proof.Mirror
import QuickStructs.Proof.Depth
import QuickStructs.Proof.Rearrange
import QuickStructs.Lib.Progress
import QuickStructs.Proof.MutexProgress
import QuickStructs.Proof.PoolProgress
import QuickStructs.Structs.SPSCExample
import QuickStructs.Proof.Transfer
import QuickStructs.Proof.Recovery
import QuickStructs.Proof.Periodic
import QuickStructs.Proof.NoLeak
import QuickStructs.Lib.Before
import QuickStructs.Handle.SharedPtrWeak
import QuickStructs.Proof.RefRaces
import QuickStructs.Thread.SpinMutexWeak
import QuickStructs.Proof.MutexRaces
import QuickStructs.Proof.VectorCost
import QuickStructs.Spec.TomlSave
import QuickStructs.Proof.TomlSave
import QuickStructs.Proof.QueueProgress
