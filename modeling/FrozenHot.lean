import FrozenHot.Schemes.Heap
import FrozenHot.Schemes.DoublyLinked
import FrozenHot.Schemes.Run
import FrozenHot.Schemes.Policy
import FrozenHot.Schemes.Pool
import FrozenHot.Schemes.Front
import FrozenHot.Schemes.Lockstep
import FrozenHot.Schemes.FullPeriod
import FrozenHot.Schemes.Rounding
import FrozenHot.Cache.Machine
import FrozenHot.Cache.Client
import FrozenHot.Cache.ListNode
import FrozenHot.Cache.Rows
import FrozenHot.Cache.Plain
import FrozenHot.Cache.PlainSpec
import FrozenHot.Cache.PlainPolicy
import FrozenHot.Cache.Requests
import FrozenHot.Cache.Scalable
import FrozenHot.Cache.Threads
import FrozenHot.Cache.Store
import FrozenHot.Cache.Accounting
import FrozenHot.Cache.Bounded
import FrozenHot.Cache.Deletions
import FrozenHot.Cache.Accessors
import FrozenHot.Freeze.Shard
import FrozenHot.Freeze.Lists
import FrozenHot.Freeze.TwoLists
import FrozenHot.Freeze.Splice
import FrozenHot.Freeze.Rep
import FrozenHot.Freeze.RepUpdate
import FrozenHot.Freeze.RepFreeze
import FrozenHot.Freeze.RepRatio
import FrozenHot.Freeze.Calls
import FrozenHot.Freeze.Sound
import FrozenHot.Freeze.Modes
import FrozenHot.Freeze.Ends
import FrozenHot.Freeze.Reached
import FrozenHot.Freeze.Tombstones
import FrozenHot.Freeze.Wired
import FrozenHot.Freeze.Marked
import FrozenHot.Freeze.Profiled
import FrozenHot.Freeze.Marker
import FrozenHot.Freeze.Serving
import FrozenHot.Freeze.Lookups
import FrozenHot.Freeze.Deletes
import FrozenHot.Freeze.Transparent
import FrozenHot.Freeze.Thaw
import FrozenHot.Freeze.Remainder
import FrozenHot.Freeze.DropIn
import FrozenHot.Freeze.Partial
import FrozenHot.Freeze.Racing
import FrozenHot.Freeze.Crowd
import FrozenHot.Freeze.Tally
import FrozenHot.Freeze.Erase
import FrozenHot.Freeze.NoTrace
import FrozenHot.Freeze.Overfill
import FrozenHot.Freeze.Duplicates
import FrozenHot.Freeze.Cuts
import FrozenHot.Freeze.Renaming
import FrozenHot.Cache.RandomizedSet
import FrozenHot.Cache.Redis
import FrozenHot.Cache.RedisPool
import FrozenHot.Cache.RedisIdle
import FrozenHot.Cache.Sampling
import FrozenHot.Cache.LFU
import FrozenHot.Cache.LFURings
import FrozenHot.Cache.LFURep
import FrozenHot.Cache.LFUOrder
import FrozenHot.Cache.LFUHistory
import FrozenHot.Freeze.LFUShard
import FrozenHot.Freeze.LFUFreeze
import FrozenHot.Freeze.LFUModes
import FrozenHot.Freeze.LFUDropIn
import FrozenHot.Freeze.LFUThaw
import FrozenHot.Freeze.LFUTransparent
import FrozenHot.Trace.Loader
import FrozenHot.Trace.Text
import FrozenHot.Trace.TextRecords
import FrozenHot.Trace.Replay
import FrozenHot.Monitor.MySet
import FrozenHot.Freeze.LFUPlain
import FrozenHot.Freeze.LFUPromotion
import FrozenHot.Freeze.LFUCurve
import FrozenHot.Freeze.CurvePoints
import FrozenHot.Monitor.Controller
import FrozenHot.Monitor.Protocol
import FrozenHot.Monitor.Effects
import FrozenHot.Monitor.Progress
import FrozenHot.Monitor.System
import FrozenHot.Log.Pages
import FrozenHot.Log.Recovery
import FrozenHot.Log.PageBuffer
