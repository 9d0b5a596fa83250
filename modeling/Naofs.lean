import Naofs.Buffer
import Naofs.Disk
import Naofs.MetaBlocks
import Naofs.FreeList
import Naofs.FreeChain
import Naofs.Lifo
import Naofs.INode
import Naofs.INodeAlloc
import Naofs.Mkfs
import Naofs.Table
import Naofs.Scan
import Naofs.Format
import Naofs.INodeRuns
import Naofs.Radix
import Naofs.Bmap
import Naofs.Coordinates
import Naofs.FileTree
import Naofs.Append
import Naofs.Contents
import Naofs.Write
import Naofs.Release
import Naofs.Links
import Naofs.Cache
import Naofs.CacheLists
import Naofs.Eviction
import Naofs.IGet
import Naofs.CacheRuns
import Naofs.Transparency
import Naofs.FileOps
import Naofs.Supply
import Naofs.Directory
import Naofs.Ownership
import Naofs.Isolation
import Naofs.Conservation
import Naofs.BmapRuns
import Naofs.Laws
import Naofs.Read
import Naofs.Shrink
import Naofs.Memory
import Naofs.Pending
import Naofs.Namei
import Naofs.Descriptors
import Naofs.Interleaving
import Naofs.Interface
import Naofs.Balance
import Naofs.Entries
import Naofs.Listing
import Naofs.Removal
import Naofs.Lookup
import Naofs.Emptying
import Naofs.Holding
import Naofs.Limit
import Naofs.Coherence
import Naofs.Resolve
import Naofs.Creation
import Naofs.Adding
import Naofs.Stock
import Naofs.Insertion
import Naofs.Visibility
import Naofs.Shortage
import Naofs.FullDisk
import Naofs.Callbacks
import Naofs.SwapRemove
import Naofs.Volume
import Naofs.VolumeUnlink
import Naofs.Revision
import Naofs.Rewriting
import Naofs.Reclaim
import Naofs.Serving
import Naofs.Mounting
import Naofs.Answers
import Naofs.Sessions
import Naofs.Growth
import Naofs.Pruning
import Naofs.Unlinking
import Naofs.Completion
import Naofs.Moving
import Naofs.BalanceRuns
import Naofs.Machine
import Naofs.VolumeRuns
import Naofs.Refinement
import Naofs.Guarantees
