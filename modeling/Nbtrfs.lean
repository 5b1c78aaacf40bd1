import Nbtrfs.Config
import Nbtrfs.Disk.Address
import Nbtrfs.Library.Chains
import Nbtrfs.Library.CircularList
import Nbtrfs.Library.LittleEndian
import Nbtrfs.Library.FirstFit
import Nbtrfs.Cache.Lists
import Nbtrfs.Cache.PrimaryIndex
import Nbtrfs.Cache.Model
import Nbtrfs.Cache.Coherence
import Nbtrfs.Cache.Refinement
import Nbtrfs.Store.Block
import Nbtrfs.Store.Allocator
import Nbtrfs.Store.Format
import Nbtrfs.Store.AllocatorRun
import Nbtrfs.BTree.Model
import Nbtrfs.BTree.Tree
import Nbtrfs.BTree.Nodes
import Nbtrfs.BTree.Delete
import Nbtrfs.BTree.Bottom
import Nbtrfs.BTree.Over
import Nbtrfs.BTree.Frames
import Nbtrfs.BTree.NodeSteps
import Nbtrfs.BTree.Lost
import Nbtrfs.BTree.Split
import Nbtrfs.BTree.Target
import Nbtrfs.BTree.Paths
import Nbtrfs.BTree.Grow
import Nbtrfs.BTree.Insert
import Nbtrfs.BTree.FlatMap
import Nbtrfs.Inode.Model
import Nbtrfs.Inode.BlockMap
import Nbtrfs.Mkfs.Model
import Nbtrfs.Mkfs.Layout
import Nbtrfs.Library.Window
import Nbtrfs.Namespace.Path
import Nbtrfs.Namespace.Truncate
import Nbtrfs.Journal.Model
import Nbtrfs.Journal.Ring
import Nbtrfs.Journal.Exposure
import Nbtrfs.Namespace.TruncateFrame
import Nbtrfs.Library.Overlay
import Nbtrfs.Library.ShortVectors
import Nbtrfs.Directory.Model
import Nbtrfs.Directory.Readers
import Nbtrfs.Namespace.Operations
import Nbtrfs.Journal.Replay
import Nbtrfs.Fuse.Model
import Nbtrfs.Inode.Mapping
import Nbtrfs.Fuse.Content
import Nbtrfs.Fuse.Grown
import Nbtrfs.Fuse.Exhausted
import Nbtrfs.Fuse.Write
import Nbtrfs.Namespace.Lookup
import Nbtrfs.Fuse.ReadBack
import Nbtrfs.Fuse.Run
import Nbtrfs.Namespace.Attributes
import Nbtrfs.Journal.Absorb
import Nbtrfs.Journal.Transparent
import Nbtrfs.Mkfs.Counter
import Nbtrfs.Journal.Kept
import Nbtrfs.Journal.Unmount
import Nbtrfs.Journal.Nested
import Nbtrfs.Journal.Recovery
import Nbtrfs.Inode.Allocator
import Nbtrfs.Library.Recency
import Nbtrfs.Cache.Bookkeeping
import Nbtrfs.Cache.Eviction
import Nbtrfs.Cache.DirtyList
import Nbtrfs.Cache.Fsync
import Nbtrfs.Cache.Program
import Nbtrfs.Cache.Pins
import Nbtrfs.Fuse.Utimens
import Nbtrfs.Library.Hierarchy
import Nbtrfs.Namespace.Components
import Nbtrfs.Namespace.Scanners
import Nbtrfs.Namespace.Guard
import Nbtrfs.Namespace.GuardedMap
import Nbtrfs.Journal.Quiet
import Nbtrfs.Directory.Guarded
import Nbtrfs.Namespace.Forest
import Nbtrfs.Namespace.GuardedTree
import Nbtrfs.Directory.Frames
import Nbtrfs.Directory.Extended
import Nbtrfs.Namespace.ForestChange
import Nbtrfs.Namespace.ForestEntry
import Nbtrfs.Namespace.Resolve
import Nbtrfs.Namespace.Created
import Nbtrfs.Namespace.Atomic
import Nbtrfs.Namespace.Removal
import Nbtrfs.Namespace.Unlinked
import Nbtrfs.Namespace.Relinked
import Nbtrfs.Namespace.PathMap
import Nbtrfs.Namespace.Renamed
import Nbtrfs.Directory.Revealed
import Nbtrfs.Library.Descent
import Nbtrfs.BTree.Shape
import Nbtrfs.BTree.Image
import Nbtrfs.BTree.WriteBack
import Nbtrfs.BTree.Descents
import Nbtrfs.Cache.Marks
import Nbtrfs.Cache.Residency
import Nbtrfs.Cache.Unsaved
import Nbtrfs.Cache.Provenance
import Nbtrfs.Cache.Plain
import Nbtrfs.Cache.Killed
import Nbtrfs.Cache.Pinned
import Nbtrfs.BTree.Deep
import Nbtrfs.BTree.Room
import Nbtrfs.BTree.Taller
import Nbtrfs.BTree.Merge
import Nbtrfs.BTree.SplitChild
import Nbtrfs.BTree.Overflow
import Nbtrfs.Fuse.Destroy
import Nbtrfs.Fuse.Listing
import Nbtrfs.Fuse.Mounted
import Nbtrfs.Fuse.Served
import Nbtrfs.Namespace.Collisions
import Nbtrfs.Fuse.Lifetimes
import Nbtrfs.Fuse.Files
import Nbtrfs.Journal.Room
import Nbtrfs.Fuse.Logged
import Nbtrfs.Namespace.Formatted
