import HashComp.Basic.Refinement
import HashComp.Basic.Separation
import HashComp.Concurrent.Contention
import HashComp.Concurrent.Refinement
import HashComp.Concurrent.Removal
import HashComp.Epoch.DrainList
import HashComp.Epoch.EpochThreads
import HashComp.Epoch.Reentrancy
import HashComp.Faster.Deletion
import HashComp.Interleaved.Writes
import HashComp.LockFree.Balance
import HashComp.LockFree.Inserts
import HashComp.LockFree.Reuse
import HashComp.LockFree.Termination
import HashComp.Phases.Barrier
import HashComp.Phases.CatchUp
import HashComp.Index.Model
import HashComp.Index.Tags
import HashComp.Index.Collection
import HashComp.Index.SplitRuns
import HashComp.Hlog.Addresses
import HashComp.Hlog.Epochs
import HashComp.Hlog.Flushed
import HashComp.Hlog.Ordering
import HashComp.Hlog.Pages
import HashComp.Hlog.Reservations
import HashComp.Disk.Chains
import HashComp.Disk.Invariant
import HashComp.Disk.Transition
import HashComp.Disk.PendingRmw
import HashComp.Reads.Accounts
import HashComp.Reads.Completion
import HashComp.Requests.Model
import HashComp.Requests.Stores
import HashComp.Requests.Presence
import HashComp.Requests.Deletes
import HashComp.Locks.Model
import HashComp.Locks.Balance
import HashComp.LevelHashing.Model
import HashComp.Library.Slots
import HashComp.LevelHashing.Contents
import HashComp.LevelHashing.Sequential
import HashComp.LevelHashing.Resize
import HashComp.LevelHashing.Calls
import HashComp.LevelHashing.Refinement
import HashComp.LevelHashing.Locking
import HashComp.LevelHashing.Coverage
import HashComp.LevelHashing.Expansion
import HashComp.LevelHashing.Deadlock
import HashComp.LevelHashing.Relocation
import HashComp.LevelHashing.Deletion
import HashComp.LevelHashing.Conservation
import HashComp.IndexFile.Model
import HashComp.IndexFile.Submission
import HashComp.IndexFile.RoundTrip
import HashComp.Allocator.Model
import HashComp.Allocator.Accounts
import HashComp.Allocator.Stale
import HashComp.Allocator.Reclamation
import HashComp.IndexBtree.Ascending
import HashComp.BzTree.Uniqueness
import HashComp.BzTree.Frozen
import HashComp.BzTree.Scans
import HashComp.HashIndex.KeyPacking
import HashComp.HashIndex.Contents
import HashComp.BzTree.KeyOrder
import HashComp.LevelHashing.Divisors
import HashComp.BzTree.Recheck
import HashComp.BzTree.SpaceRuns
import HashComp.BzTree.Merges
import HashComp.BzTree.SplitRouting
import HashComp.IndexBtree.SplitOrder
import HashComp.LockFree.Places
import HashComp.LockFree.NodeQueue
import HashComp.Records.Layout
import HashComp.Recovery.Versions
import HashComp.Recovery.Outcomes
import HashComp.Recovery.CleanPages
import HashComp.Recovery.HybridLog
import HashComp.Recovery.PageImages
import HashComp.Recovery.PageScan
import HashComp.Recovery.Lifetimes
import HashComp.Locks.CheckpointLock
import HashComp.LockFree.Fifo
import HashComp.Mhash.ThreadRegistry
import HashComp.Lss.Segments
import HashComp.Lss.Blocks
import HashComp.SegmentedFile.Routing
import HashComp.BzTree.MapResults
import HashComp.Hashes.WordKeys
