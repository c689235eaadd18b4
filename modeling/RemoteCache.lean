import RemoteCache.Lib.AddressSpace
import RemoteCache.Lib.Bits
import RemoteCache.Lib.Blob
import RemoteCache.Lib.BlockMap
import RemoteCache.Lib.Digits
import RemoteCache.Lib.Inclusion
import RemoteCache.Lib.Json
import RemoteCache.Lib.Loop
import RemoteCache.Lib.Mutex
import RemoteCache.Lib.OpenFiles
import RemoteCache.Lib.Search
import RemoteCache.Lib.Selection
import RemoteCache.Lib.Transition
import RemoteCache.Lib.Potential
import RemoteCache.Lib.Paths
import RemoteCache.Cache.BitmapReload
import RemoteCache.Cache.BlockStore
import RemoteCache.Cache.CallFrame
import RemoteCache.Cache.Contents
import RemoteCache.Cache.DirtyBits
import RemoteCache.Cache.DirtySessions
import RemoteCache.Cache.Eviction
import RemoteCache.Cache.EndOfFile
import RemoteCache.Cache.EvictionAccount
import RemoteCache.Cache.EvictionFrame
import RemoteCache.Cache.EvictionIndex
import RemoteCache.Cache.EvictionRace
import RemoteCache.Cache.EvictionTransparency
import RemoteCache.Cache.FailingCalls
import RemoteCache.Cache.FlatStore
import RemoteCache.Cache.Isolation
import RemoteCache.Cache.KeyWord
import RemoteCache.Cache.Locks
import RemoteCache.Cache.Machine
import RemoteCache.Cache.PoolSafety
import RemoteCache.Cache.PoolShutdown
import RemoteCache.Cache.PrefetchRace
import RemoteCache.Cache.ReadOrder
import RemoteCache.Cache.Reclaim
import RemoteCache.Cache.Restarts
import RemoteCache.Cache.SequentialRead
import RemoteCache.Cache.ShardDirectories
import RemoteCache.Cache.ThreadPool
import RemoteCache.Cache.Uninterrupted
import RemoteCache.Cache.WordLoops
import RemoteCache.Cache.WriteFailures
import RemoteCache.Cache.WriteFrame
import RemoteCache.Cache.WriteThrough
import RemoteCache.Fuse.Attributes
import RemoteCache.Fuse.Coherence
import RemoteCache.Fuse.Directories
import RemoteCache.Fuse.HttpMount
import RemoteCache.Fuse.Listing
import RemoteCache.Fuse.Mount
import RemoteCache.Fuse.Namespace
import RemoteCache.Fuse.Responses
import RemoteCache.Fuse.Truncation
import RemoteCache.Policy.LruDrain
import RemoteCache.Policy.LruHistory
import RemoteCache.Policy.LruInclusion
import RemoteCache.Policy.TimePolicy
import RemoteCache.Lib.Python
import RemoteCache.Lib.Tree
import RemoteCache.Server.CachedReads
import RemoteCache.Server.Download
import RemoteCache.Server.FileInfo
import RemoteCache.Server.HttpBackend
import RemoteCache.Server.Outside
import RemoteCache.Server.PatchUploads
import RemoteCache.Server.RangeForms
import RemoteCache.Server.Requests
import RemoteCache.Server.RunsOutside
import RemoteCache.Server.UploadRemove
import RemoteCache.Server.UrlPaths
