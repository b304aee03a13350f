import LogMemcached.Lib.ByteMem
import LogMemcached.Lib.CText
import LogMemcached.Lib.Run
import LogMemcached.Lib.Tiling
import LogMemcached.Lib.Fallible
import LogMemcached.Lib.Journal
import LogMemcached.Item
import LogMemcached.Memlog
import LogMemcached.LogInv
import LogMemcached.LogSteps
import LogMemcached.Scan
import LogMemcached.Ring
import LogMemcached.Store
import LogMemcached.Items
import LogMemcached.Commands
import LogMemcached.Record
import LogMemcached.StoreInv
import LogMemcached.StoreSteps
import LogMemcached.View
import LogMemcached.Sound
import LogMemcached.Replay
import LogMemcached.RefCount
import LogMemcached.CommandSteps
import LogMemcached.StorageSteps
import LogMemcached.SoundSteps
import LogMemcached.Responses
import LogMemcached.Server
import LogMemcached.ServerInv
import LogMemcached.ServerSteps
import LogMemcached.ServerRuns
import LogMemcached.Sequence
import LogMemcached.Current
import LogMemcached.SequenceSteps
import LogMemcached.Determined
import LogMemcached.Invalidation
import LogMemcached.ClientFlags
import LogMemcached.Counters
import LogMemcached.RecordSize
import LogMemcached.Replica
import LogMemcached.ReplicaSteps
import LogMemcached.Lib.Chains
import LogMemcached.HashTable
import LogMemcached.Locks
import LogMemcached.Network
import LogMemcached.NetworkSteps
import LogMemcached.Framing
import LogMemcached.BinaryFraming
import LogMemcached.RecordBounds
import LogMemcached.Handoff
import LogMemcached.Expiry
import LogMemcached.ReplayOnce
import LogMemcached.SaslGate
import LogMemcached.Relink
import LogMemcached.Entries
import LogMemcached.EntrySteps
import LogMemcached.Progress
import LogMemcached.StorageSpec
import LogMemcached.StorageRuns
import LogMemcached.SequenceContents
import LogMemcached.Lifetimes
import LogMemcached.Rewrites
import LogMemcached.Cleaning
import LogMemcached.CleanerRuns
import LogMemcached.ItemSize
import LogMemcached.Tokens
import LogMemcached.ItemLocks
import LogMemcached.Messages
import LogMemcached.Transmit
import LogMemcached.Datagrams
import LogMemcached.Crawler
import LogMemcached.PrefixStats
import LogMemcached.BipBuffer
import LogMemcached.WorkerLog
import LogMemcached.Watchers
import LogMemcached.WatcherLines
import LogMemcached.Lib.Numeral
import LogMemcached.Numbers
import LogMemcached.Errno
import LogMemcached.MultiGet
import LogMemcached.MultiGetRuns
import LogMemcached.StatsText
import LogMemcached.PrefixDump
import LogMemcached.Handshake
import LogMemcached.CasIds
import LogMemcached.Flushing
import LogMemcached.Metadata
import LogMemcached.Assertions
import LogMemcached.Isolation
import LogMemcached.Pause
import LogMemcached.MetadataRuns
