import MiniMemcached.Lists.Chain
import MiniMemcached.Lists.DoublyLinked
import MiniMemcached.Runs.Steps
import MiniMemcached.Runs.Path
import MiniMemcached.Runs.Locks
import MiniMemcached.Cache.Item
import MiniMemcached.Cache.HashTable
import MiniMemcached.Cache.Buckets
import MiniMemcached.Cache.TableMap
import MiniMemcached.Cache.Slab
import MiniMemcached.Cache.Arena
import MiniMemcached.Cache.Lru
import MiniMemcached.Cache.Store
import MiniMemcached.Cache.Footprint
import MiniMemcached.Cache.Queue
import MiniMemcached.Cache.Sound
import MiniMemcached.Cache.Operations
import MiniMemcached.Cache.Primitive
import MiniMemcached.Cache.Lookup
import MiniMemcached.Cache.Storing
import MiniMemcached.Cache.CommandPaths
import MiniMemcached.Service.Requests
import MiniMemcached.Service.UniqueKeys
import MiniMemcached.Service.Interleaving
import MiniMemcached.Service.References
import MiniMemcached.Service.Leaks
import MiniMemcached.Service.Eviction
import MiniMemcached.Service.Views
import MiniMemcached.Service.Outcomes
import MiniMemcached.Cache.SizeClasses
import MiniMemcached.Cache.Conservation
import MiniMemcached.Cache.LockOrder
import MiniMemcached.Cache.LruOrder
import MiniMemcached.Cache.Commands
import MiniMemcached.Protocol.Connection
import MiniMemcached.Threads.Handover
import MiniMemcached.Memory.Bytes
import MiniMemcached.Protocol.Handlers
import MiniMemcached.Protocol.Machine
import MiniMemcached.Protocol.Tool
import MiniMemcached.Protocol.Steps
import MiniMemcached.Protocol.Watchers
import MiniMemcached.Protocol.RoundTrip
import MiniMemcached.Protocol.Returning
import MiniMemcached.Runs.Halting
import MiniMemcached.Protocol.Numbers
import MiniMemcached.Protocol.Answers
import MiniMemcached.Protocol.Sending
import MiniMemcached.Protocol.Blocks
import MiniMemcached.Protocol.Shaking
import MiniMemcached.Protocol.Appending
import MiniMemcached.Cache.Copies
import MiniMemcached.Cache.TailScan
import MiniMemcached.Protocol.Server
import MiniMemcached.Protocol.Grammar
import MiniMemcached.Protocol.PartialWrites
import MiniMemcached.Protocol.Reading
import MiniMemcached.Protocol.Refusals
import MiniMemcached.Threads.Dispatch
import MiniMemcached.Cache.Accounting
import MiniMemcached.Protocol.LineEnds
import MiniMemcached.Service.Expiry
import MiniMemcached.Protocol.OneRead
import MiniMemcached.Cache.Rebinding
import MiniMemcached.Service.Freshness
import MiniMemcached.Protocol.Crashing
import MiniMemcached.Cache.Contention
import MiniMemcached.Protocol.Decoding
import MiniMemcached.Protocol.Header
import MiniMemcached.Service.Swapping
import MiniMemcached.Runs.Ownership
import MiniMemcached.Threads.Process
import MiniMemcached.Cache.Spending
import MiniMemcached.Runs.Counting
import MiniMemcached.Service.Exhaustion
import MiniMemcached.Protocol.Containment
import MiniMemcached.Lists.Pieces
import MiniMemcached.Protocol.Confusion
import MiniMemcached.Protocol.Cutting
import MiniMemcached.Protocol.Framing
