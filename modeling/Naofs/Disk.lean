import Naofs.Buffer

/-!
# Naofs.Disk

The parameters of the file system and the block device under it.

`Disk` is everything the block layer works on: the blocks themselves and their
backend, which says how many blocks the file system was sized for, whether
they are on the device or in the array in memory, and what an uninitialised
block buffer happens to hold.  `getDiskBlock` and `writeDiskBlock` are the two
accessors of `blkfetch.c`; a number past the end of the backend is refused and
leaves the buffer, respectively the disk, as it was.

The `trace` is a ghost: it records the calls of the allocator and nothing in
the model reads it.
-/

namespace Naofs

/-! ## Parameters (`params.h`, `diskParams.h`, `params.c`) -/

@[simp] abbrev blockSize : Nat := 1024
@[simp] abbrev blockAddressSize : Nat := 8
@[simp] abbrev inodeAddressSize : Nat := 2
@[simp] abbrev numOfInodes : Nat := 65536
@[simp] abbrev filenameSize : Nat := 62
@[simp] abbrev directoryEntrySize : Nat := 64
@[simp] abbrev directoryEntriesInBlock : Nat := 16
@[simp] abbrev directBlockLimit : Nat := 9
@[simp] abbrev inodeBufferSize : Nat := 32
@[simp] abbrev inodeHashSize : Nat := 8
@[simp] abbrev maxFileDescriptors : Nat := 10000
@[simp] abbrev blockAddressesPerBlock : Nat := 128
@[simp] abbrev inodeNosPerBlock : Nat := 512
@[simp] abbrev blocksInInode : Nat := 13

@[simp] abbrev superBlockNo : Nat := 1
@[simp] abbrev freeListBlock : Nat := 2
@[simp] abbrev inodeListBlock : Nat := 3
@[simp] abbrev inodeBlocksHead : Nat := 4

/-- `sizeof(iNode)`. -/
@[simp] abbrev iNodeStructSize : Nat := 176

/-- The loop of `initializeINodeParams`: one doubling for each halving of the
struct size until it is zero. -/
def roundedINodeSize (iNodeStructSize : Nat) : Nat :=
  if h : iNodeStructSize = 0 then 1 else 2 * roundedINodeSize (iNodeStructSize / 2)
termination_by iNodeStructSize
decreasing_by omega

@[simp] abbrev inodeSize : Nat := 256
@[simp] abbrev inodesPerBlock : Nat := 4
@[simp] abbrev numOfInodeBlocks : Nat := 16384

/-- The first block of the data region, `4 + NUM_OF_INODE_BLOCKS`. -/
@[simp] abbrev dataRegionStart : Nat := 16388

/-- `NUM_OF_BLOCKS` for a disk of `DISK_SIZE_IN_GB` gigabytes. -/
@[simp] abbrev defaultNumOfBlocks : Nat := 31457280

/-- The numbers above are those `initializeINodeParams` computes. -/
theorem initializeINodeParams_eq :
    inodeSize = roundedINodeSize iNodeStructSize ∧ inodesPerBlock = blockSize / inodeSize ∧
      numOfInodeBlocks = inodeSize * numOfInodes / blockSize ∧
      dataRegionStart = 4 + numOfInodeBlocks ∧ defaultNumOfBlocks = 30 * 2 ^ 20 := by
  have h : roundedINodeSize 176 = 256 := by simp [roundedINodeSize]
  simp [h]

/-! ## Blocks -/

/-- `struct disk_block`. -/
abbrev DiskBlock := Buffer UInt8 blockSize

/-- A decoded free-list block; indirect blocks have the same layout. -/
abbrev FreeDiskListBlock := Buffer Nat blockAddressesPerBlock

/-- A decoded block of the free-inode list. -/
abbrev INodeListBlock := Buffer Nat inodeNosPerBlock

def makeFreeDiskListBlock (blockPtr : DiskBlock) : FreeDiskListBlock :=
  blockPtr.readNumbers 0 blockAddressSize blockAddressesPerBlock

def writeFreeDiskListBlock (theBlock : FreeDiskListBlock) (blockPtr : DiskBlock) : DiskBlock :=
  blockPtr.writeNumbers 0 blockAddressSize theBlock

def makeINodeListBlock (blockPtr : DiskBlock) : INodeListBlock :=
  blockPtr.readNumbers 0 inodeAddressSize inodeNosPerBlock

def writeINodeListBlock (theBlock : INodeListBlock) (blockPtr : DiskBlock) : DiskBlock :=
  blockPtr.writeNumbers 0 inodeAddressSize theBlock

/-- `makeSuperBlock`: the remembered inode, the only field of the super block. -/
def makeSuperBlock (blockPtr : DiskBlock) : Nat := blockPtr.readNat 0 inodeAddressSize

def writeSuperBlock (rememberedINode : Nat) (blockPtr : DiskBlock) : DiskBlock :=
  blockPtr.writeNat 0 inodeAddressSize rememberedINode

/-- Slot `i` of a block read as a list of block numbers. -/
@[irreducible] def slot (b : DiskBlock) (i : Nat) : Nat := (makeFreeDiskListBlock b).peek i

@[simp] theorem peek_makeFreeDiskListBlock (b : DiskBlock) (i : Nat) :
    (makeFreeDiskListBlock b).peek i = slot b i := by rw [slot]

/-- A number of a list block is eight bytes of it. -/
theorem slot_eq_readNat (b : DiskBlock) {i : Nat} (h : i < 128) :
    slot b i = b.readNat (8 * i) 8 := by
  rw [slot, makeFreeDiskListBlock, Buffer.peek_readNumbers b 0 8 h, Nat.zero_add]

/-- Eight bytes hold numbers below 2^64. -/
theorem slot_lt (b : DiskBlock) (i : Nat) : slot b i < 2 ^ 64 := by
  by_cases h : i < 128
  · rw [slot_eq_readNat b h]
    exact b.readNat_lt _ _
  · rw [slot, Buffer.peek_of_le _ (Nat.le_of_not_lt h)]
    decide

/-- What is written to a slot is read back, in eight bytes. -/
theorem slot_writeFreeDiskListBlock (t : FreeDiskListBlock) (b : DiskBlock) {i : Nat}
    (h : i < 128) : slot (writeFreeDiskListBlock t b) i = t.peek i % 2 ^ 64 := by
  rw [slot_eq_readNat _ h, show 8 * i = 0 + 8 * i by omega]
  exact Buffer.readNat_writeNumbers b (by decide) t h (by decide)

/-- Encoding what was decoded gives the block back, whatever the target held. -/
theorem writeFreeDiskListBlock_make (a b : DiskBlock) :
    writeFreeDiskListBlock (makeFreeDiskListBlock b) a = b :=
  Buffer.writeNumbers_readNumbers a b (by decide) rfl

/-- A block is known by its 128 numbers. -/
theorem ext_slot {a b : DiskBlock} (h : ∀ i < 128, slot a i = slot b i) : a = b := by
  have : makeFreeDiskListBlock a = makeFreeDiskListBlock b :=
    Buffer.ext_peek (by simpa using h)
  rw [← writeFreeDiskListBlock_make a a, this, writeFreeDiskListBlock_make]

/-! ## The disk -/

/-- Ways in which the C code can leave the defined behaviour, or not return. -/
inductive Fault where
  /-- A local variable is used that no path has set. -/
  | uninitialised
  | nullPointer
  | outOfBounds
  | doubleFree
  /-- The thread locks a mutex that it holds already. -/
  | deadlock
  /-- A loop that makes no progress. -/
  | diverges
deriving DecidableEq, Repr

/-- A result of two computations is one of the first and one of the second. -/
theorem bind_eq_ok {α β : Type} {m : Except Fault α} {f : α → Except Fault β} {b : β} :
    (m >>= f) = .ok b ↔ ∃ a, m = .ok a ∧ f a = .ok b := by
  cases m with
  | error e => simp [bind, Except.bind]
  | ok a => simp [bind, Except.bind]

/-- What the ghost trace records. -/
inductive Event where
  /-- `blockAlloc` returned this number. -/
  | alloc (block : Nat)
  /-- `blockFree` was called with this number; the flag says whether the block
  joined the list without becoming a link with its old contents. -/
  | free (block : Nat) (reusable : Bool)
  /-- `freeDataBlockInINode` was called on an inode of this size. -/
  | release (size : Nat)
  /-- `iget` was called with this number. -/
  | fetch (iNodeNumber : Nat)
  /-- `iget` found the inode cached with no links and read it from disk again;
  the flag says whether the copy in core was referenced and modified. -/
  | reread (iNodeNumber : Nat) (modified : Bool)
deriving DecidableEq, Repr

@[simp] abbrev numOfBlocksInMem : Nat := 65536

/-- What does not change while the file system runs. -/
structure Backend where
  /-- Whether the device is open; otherwise the blocks are in memory. -/
  isDiskAvailable : Bool
  /-- `NUM_OF_BLOCKS`, a `size_t`. -/
  numOfBlocks : Nat
  numOfBlocks_lt : numOfBlocks < 2 ^ 64
  /-- What a block buffer holds when `malloc` returns it. -/
  junk : DiskBlock

/-- The number of blocks the backend stores. -/
def Backend.capacity (k : Backend) : Nat :=
  if k.isDiskAvailable then k.numOfBlocks else numOfBlocksInMem

/-- The number of blocks fits a `size_t`. -/
theorem Backend.capacity_lt (k : Backend) : k.capacity < 2 ^ 64 := by
  unfold capacity
  split
  · exact k.numOfBlocks_lt
  · decide

/-- Two sizes of small devices. -/
theorem Backend.four_lt : 4 < 2 ^ 64 := by decide

theorem Backend.eight_lt : 8 < 2 ^ 64 := by decide

structure Disk where
  backend : Backend
  blocks : Nat → DiskBlock
  /-- Ghost: the calls made so far. -/
  trace : List Event

namespace Disk

/-- `fetchDeviceDiskBlock`; the device itself does not fail. -/
def fetchDeviceDiskBlock (d : Disk) (blockNumber : Nat) (blockData : DiskBlock) :
    Int × DiskBlock :=
  if blockNumber ≥ d.backend.numOfBlocks then (-1, blockData) else (0, d.blocks blockNumber)

def writeDeviceDiskBlock (d : Disk) (blockNumber : Nat) (blockData : DiskBlock) : Int × Disk :=
  if blockNumber ≥ d.backend.numOfBlocks then (-1, d)
  else (0, { d with blocks := Function.update d.blocks blockNumber blockData })

def fetchMemoryDiskBlock (d : Disk) (blockNumber : Nat) (blockData : DiskBlock) :
    Int × DiskBlock :=
  if blockNumber ≥ numOfBlocksInMem then (-1, blockData) else (0, d.blocks blockNumber)

def writeMemoryDiskBlock (d : Disk) (blockNumber : Nat) (blockData : DiskBlock) : Int × Disk :=
  if blockNumber ≥ numOfBlocksInMem then (-1, d)
  else (0, { d with blocks := Function.update d.blocks blockNumber blockData })

def getDiskBlock (d : Disk) (blockNumber : Nat) (blockData : DiskBlock) : Int × DiskBlock :=
  if d.backend.isDiskAvailable then d.fetchDeviceDiskBlock blockNumber blockData
  else d.fetchMemoryDiskBlock blockNumber blockData

def writeDiskBlock (d : Disk) (blockNumber : Nat) (blockData : DiskBlock) : Int × Disk :=
  if d.backend.isDiskAvailable then d.writeDeviceDiskBlock blockNumber blockData
  else d.writeMemoryDiskBlock blockNumber blockData

/-- The buffer after `getDiskBlock`: no caller looks at the return code. -/
def load (d : Disk) (blockNumber : Nat) (blockData : DiskBlock) : DiskBlock :=
  (d.getDiskBlock blockNumber blockData).2

def store (d : Disk) (blockNumber : Nat) (blockData : DiskBlock) : Disk :=
  (d.writeDiskBlock blockNumber blockData).2

def log (d : Disk) (e : Event) : Disk := { d with trace := d.trace ++ [e] }

variable (d : Disk)

/-- A block in range is loaded. -/
theorem load_of_lt {n : Nat} (h : n < d.backend.capacity) (buf : DiskBlock) :
    d.load n buf = d.blocks n := by
  unfold Backend.capacity at h
  unfold load getDiskBlock fetchDeviceDiskBlock fetchMemoryDiskBlock
  split at h <;> next hc => simp [hc, Nat.not_le.mpr h]

/-- Out of range the buffer is left as it was. -/
theorem load_of_le {n : Nat} (h : d.backend.capacity ≤ n) (buf : DiskBlock) : d.load n buf = buf := by
  unfold Backend.capacity at h
  unfold load getDiskBlock fetchDeviceDiskBlock fetchMemoryDiskBlock
  split at h
  · next hc => rw [if_pos hc, if_pos h]
  · next hc => rw [if_neg hc, if_pos h]

/-- A block in range is stored, any other store does nothing. -/
theorem blocks_store (n : Nat) (b : DiskBlock) (m : Nat) :
    (d.store n b).blocks m = if m = n ∧ n < d.backend.capacity then b else d.blocks m := by
  unfold store writeDiskBlock writeDeviceDiskBlock writeMemoryDiskBlock Backend.capacity
  split <;> split <;> grind [Function.update_apply]

/-- A block in range is read back after it is stored. -/
theorem blocks_store_self {n : Nat} (h : n < d.backend.capacity) (b : DiskBlock) :
    (d.store n b).blocks n = b := by simp [blocks_store, h]

/-- Other blocks are as they were. -/
theorem blocks_store_of_ne {n m : Nat} (h : m ≠ n) (b : DiskBlock) :
    (d.store n b).blocks m = d.blocks m := by simp [blocks_store, h]

@[simp] theorem backend_store (n : Nat) (b : DiskBlock) :
    (d.store n b).backend = d.backend := by
  unfold store writeDiskBlock writeDeviceDiskBlock writeMemoryDiskBlock
  split <;> split <;> rfl

@[simp] theorem trace_store (n : Nat) (b : DiskBlock) : (d.store n b).trace = d.trace := by
  unfold store writeDiskBlock writeDeviceDiskBlock writeMemoryDiskBlock
  split <;> split <;> rfl

@[simp] theorem blocks_log (e : Event) : (d.log e).blocks = d.blocks := rfl
@[simp] theorem backend_log (e : Event) : (d.log e).backend = d.backend := rfl
@[simp] theorem trace_log (e : Event) : (d.log e).trace = d.trace ++ [e] := rfl

@[simp] theorem load_log (e : Event) (n : Nat) (b : DiskBlock) : (d.log e).load n b = d.load n b := rfl

attribute [irreducible] load store

end Disk

end Naofs
