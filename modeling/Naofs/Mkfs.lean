import Naofs.FreeChain
import Naofs.INodeAlloc

/-!
# Naofs.Mkfs

`makeFileSystem` (`mkfs.c`, `iNode.c`): the inode table, the list of free
inodes, the chain of free blocks and the super block of a new file system.

The last section says what the new file system looks like.  None of it depends
on what was on the disk before, except the stale block number that
`assignRootData` takes from the free list before there is one.
-/

namespace Naofs

/-- `initializeINode`. -/
def initializeINode (iNodeNum : Nat) : INode where
  deviceNumber := 0
  iNodeNumber := if iNodeNum ≥ numOfInodes then 0 else iNodeNum
  access := 0
  modification := 0
  statusChange := 0
  linksCount := 0
  type := .free
  fileMode := 0
  ownerUid := 0
  groupUid := 0
  dataBlockNums := .tabulate fun _ => 0
  size := 0

/-- `populateINodesIn`: the next inode number and the block. -/
def populateINodesIn (iNodeNum : Nat) : Nat × DiskBlock :=
  (iNodeNum + inodesPerBlock,
    (List.range inodesPerBlock).foldl
      (fun b i => (initializeINode (iNodeNum + i)).encode b (i * inodeSize))
      (.tabulate fun _ => 0))

/-- `initINodeListBlock` for the list `1, 2, …, listSize`, which fills the block. -/
def initINodeListBlock (listSize : Nat) : Nat × DiskBlock :=
  (if inodeAddressSize * listSize = blockSize then listSize else 0,
    (List.range listSize).foldl (fun b i => b.writeNat (inodeAddressSize * i) inodeAddressSize (i + 1))
      (.tabulate fun _ => 0))

/-- `S_IFDIR` and all permissions. -/
@[simp] abbrev rootMode : UInt32 := 0o040777

namespace Disk

/-- The loop of `createINodes` over the first `k` blocks of the table. -/
def createINodes (d : Disk) (startPos : Nat) (k : Nat) : Disk :=
  ((List.range k).foldl (fun (s : Disk × Nat) i =>
    (s.1.store (startPos + i) (populateINodesIn s.2).2, (populateINodesIn s.2).1)) (d, 0)).1

/-- `assignRootData`, which runs before the free list is initialised. -/
def assignRootData (d : Disk) : Disk :=
  let rootINode := (d.getDiskInode 0 d.junkINode).2
  let blockNum := d.blockAlloc.1
  (d.blockAlloc.2.writeDiskInode 0
    { rootINode with
      type := .directory, fileMode := rootMode,
      dataBlockNums := rootINode.dataBlockNums.poke 0 blockNum }).2

def writeINodeListToDisk (d : Disk) (freeBlockNum iNodeListSize : Nat) : Nat × Disk :=
  let d := d.assignRootData
  let (rememberedINode, metaBlock) := initINodeListBlock iNodeListSize
  (rememberedINode, d.store freeBlockNum metaBlock)

def initializeINodeData (d : Disk) (freeBlockNum startPos : Nat) : Nat × Disk :=
  (d.createINodes startPos numOfInodeBlocks).writeINodeListToDisk freeBlockNum inodeNosPerBlock

/-- The disk once `initializeINodeParams` has set `NUM_OF_BLOCKS`. -/
def sized (d : Disk) : Disk :=
  { d with backend :=
      ⟨d.backend.isDiskAvailable, defaultNumOfBlocks, by decide, d.backend.junk⟩ }

def makeFileSystem (d : Disk) : Disk :=
  let d := d.sized
  let (iNodeToRemember, d) := d.initializeINodeData inodeListBlock inodeBlocksHead
  let d := d.initializeDiskBlocks freeListBlock dataRegionStart
  d.store superBlockNo (writeSuperBlock iNodeToRemember d.backend.junk)

end Disk

/-! ## Blocks of new inodes -/

/-- The fields of a new inode are in range. -/
theorem fits_initializeINode (n : Nat) : (initializeINode n).Fits where
  deviceNumber := by simp [initializeINode]
  iNodeNumber := by
    simp only [initializeINode, numOfInodes]
    split <;> omega
  linksCount := by simp [initializeINode]
  dataBlockNums := fun i hi => by simp [initializeINode, hi]
  size := by simp [initializeINode]

/-- Each cell of a new block of the table holds its inode. -/
theorem decode_populateINodesIn (n : Nat) {i : Nat} (hi : i < 4) :
    INode.decode (populateINodesIn n).2 (i * 256) = initializeINode (n + i) := by
  have hloop : ∀ m ≤ 4, ∀ i < m, INode.decode ((List.range m).foldl
      (fun b i => (initializeINode (n + i)).encode b (i * 256)) (.tabulate fun _ => 0))
      (i * 256) = initializeINode (n + i) := by
    intro m
    induction m with
    | zero => omega
    | succ m ih =>
        intro hm i hi
        rw [List.range_succ, List.foldl_append]
        simp only [List.foldl_cons, List.foldl_nil]
        by_cases him : i = m
        · subst him
          exact INode.decode_encode (fits_initializeINode _) _ (by omega)
        · rw [← ih (by omega) i (by omega)]
          apply INode.decode_congr
          intro j hj
          exact INode.peek_encode_of_disjoint _ _ (by omega) (by omega)
  exact hloop 4 (by omega) i hi

/-! ## The list of free inodes -/

/-- Slot `i` of a block read as a list of inode numbers. -/
@[irreducible] def listed (b : DiskBlock) (i : Nat) : Nat := (makeINodeListBlock b).peek i

@[simp] theorem peek_makeINodeListBlock (b : DiskBlock) (i : Nat) :
    (makeINodeListBlock b).peek i = listed b i := by rw [listed]

/-- A number of the inode list is two bytes of the block. -/
theorem listed_eq_readNat (b : DiskBlock) {i : Nat} (h : i < 512) :
    listed b i = b.readNat (2 * i) 2 := by
  rw [listed, makeINodeListBlock, Buffer.peek_readNumbers b 0 2 h, Nat.zero_add]

/-- Two bytes hold numbers below 65536. -/
theorem listed_lt (b : DiskBlock) (i : Nat) : listed b i < 65536 := by
  by_cases h : i < 512
  · rw [listed_eq_readNat b h]
    exact b.readNat_lt _ 2
  · rw [listed, Buffer.peek_of_le _ (Nat.le_of_not_lt h)]
    decide

/-- What is written to a slot is read back, in two bytes. -/
theorem listed_writeINodeListBlock (t : INodeListBlock) (b : DiskBlock) {i : Nat}
    (h : i < 512) : listed (writeINodeListBlock t b) i = t.peek i % 65536 := by
  rw [listed_eq_readNat _ h, show 2 * i = 0 + 2 * i by omega]
  exact Buffer.readNat_writeNumbers b (by decide) t h (by decide)

/-- The first list has the numbers 1 to 512 in order. -/
theorem initINodeListBlock_spec :
    (initINodeListBlock 512).1 = 512 ∧ ∀ i < 512, listed (initINodeListBlock 512).2 i = i + 1 := by
  refine ⟨rfl, fun i hi => ?_⟩
  rw [listed_eq_readNat _ hi, Buffer.readNat_eq_of_leByte (v := i + 1)]
  · exact Nat.mod_eq_of_lt (by omega)
  · intro j hj
    have h := Buffer.peek_foldl_writeNat (n := 1024) (.tabulate fun _ => 0) 0 (w := 2) (by decide)
      (fun i => i + 1) 512 (2 * i + j) (by omega)
    simp only [Nat.zero_add] at h
    simp only [initINodeListBlock, inodeAddressSize]
    rw [h, if_pos (by omega)]
    congr 1
    · omega
    · omega

/-! ## The new file system -/

namespace Disk

section Steps

variable (d : Disk)

/-- The loop of `createINodes`, and where its counter stands. -/
theorem createINodes_loop (k : Nat) :
    ((List.range k).foldl (fun (s : Disk × Nat) i =>
      (s.1.store (4 + i) (populateINodesIn s.2).2, (populateINodesIn s.2).1)) (d, 0)) =
      (d.createINodes 4 k, 4 * k) := by
  induction k with
  | zero => rfl
  | succ k ih =>
      rw [createINodes, List.range_succ, List.foldl_append, ih]
      simp only [List.foldl_cons, List.foldl_nil, populateINodesIn]
      congr 1

/-- One block of inodes more. -/
theorem createINodes_succ (k : Nat) :
    d.createINodes 4 (k + 1) =
      (d.createINodes 4 k).store (4 + k) (populateINodesIn (4 * k)).2 := by
  rw [createINodes, List.range_succ, List.foldl_append, createINodes_loop]
  rfl

@[simp] theorem backend_createINodes (k : Nat) : (d.createINodes 4 k).backend = d.backend := by
  induction k with
  | zero => rfl
  | succ k ih => rw [createINodes_succ, backend_store, ih]

/-- The blocks of inodes, from block 4 on, and those that are left alone. -/
theorem blocks_createINodes (k m : Nat) (hcap : 4 + k ≤ d.backend.capacity) :
    (d.createINodes 4 k).blocks m =
      if 4 ≤ m ∧ m < 4 + k then (populateINodesIn (4 * (m - 4))).2 else d.blocks m := by
  induction k with
  | zero =>
      rw [if_neg (by omega)]
      rfl
  | succ k ih =>
      rw [createINodes_succ, blocks_store, backend_createINodes, ih (by omega)]
      by_cases hm : m = 4 + k
      · rw [if_pos (by omega), if_pos (by omega), hm, Nat.add_sub_cancel_left]
      · rw [if_neg (by omega)]
        by_cases hr : 4 ≤ m ∧ m < 4 + k
        · rw [if_pos hr, if_pos (by omega)]
        · rw [if_neg hr, if_neg (by omega)]

/-- The new table: every cell holds its own free inode. -/
theorem diskINode_createINodes {n k : Nat} (hcap : 4 + k ≤ d.backend.capacity) (hn : n < 4 * k) :
    (d.createINodes 4 k).diskINode n = initializeINode n := by
  have hb : (d.createINodes 4 k).blocks (n / 4 + 4) = (populateINodesIn (4 * (n / 4))).2 := by
    rw [blocks_createINodes _ _ _ hcap, if_pos (by omega), Nat.add_sub_cancel]
  simp only [diskINode, inodesPerBlock, inodeBlocksHead, inodeSize, hb]
  rw [decode_populateINodesIn _ (Nat.mod_lt _ (by omega)), Nat.div_add_mod]

@[simp] theorem backend_assignRootData : d.assignRootData.backend = d.backend := by
  simp [assignRootData]

/-- The root is an empty directory without links. -/
theorem diskINode_assignRootData (hcap : dataRegionStart ≤ d.backend.capacity)
    (h0 : d.diskINode 0 = initializeINode 0) :
    d.assignRootData.diskINode 0 =
      { initializeINode 0 with
        type := .directory, fileMode := rootMode,
        dataBlockNums := (initializeINode 0).dataBlockNums.poke 0 d.blockAlloc.1 } := by
  rw [assignRootData, getDiskInode_of_lt _ hcap (by decide), h0]
  apply diskINode_writeDiskInode_self _ (by simpa using hcap) (by decide)
  have hf := fits_initializeINode 0
  refine ⟨hf.deviceNumber, hf.iNodeNumber, hf.linksCount, fun i hi => ?_, hf.size⟩
  rw [Buffer.peek_poke]
  split
  · exact d.blockAlloc_lt
  · exact hf.dataBlockNums i hi

/-- The root is written in place, beside three other inodes. -/
theorem diskINode_assignRootData_of_ne (hcap : dataRegionStart ≤ d.backend.capacity) {n : Nat}
    (hn : n ≠ 0) : d.assignRootData.diskINode n = d.diskINode n := by
  rw [assignRootData, diskINode_writeDiskInode_of_ne _ (by simpa using hcap) (by decide) _ hn]
  exact diskINode_congr _ (blocks_blockAlloc_of_ne _ (by omega))

end Steps

attribute [irreducible] createINodes assignRootData

section MakeFileSystem

variable (d : Disk)

/-- The disk before the chain of free blocks is written. -/
def withINodes : Disk :=
  (d.sized.createINodes 4 16384).assignRootData.store 3 (initINodeListBlock 512).2

/-- The inodes come first, then the chain of free blocks, and the super block last. -/
theorem makeFileSystem_eq :
    d.makeFileSystem = (d.withINodes.initializeDiskBlocks 2 16388).store 1
      (writeSuperBlock 512 d.backend.junk) := by
  simp only [makeFileSystem, initializeINodeData, writeINodeListToDisk, withINodes]
  simp only [backend_initializeDiskBlocks, backend_store, backend_assignRootData,
    backend_createINodes]
  rfl

/-- The disk is larger than the blocks before the data region. -/
theorem le_capacity_sized : dataRegionStart ≤ d.sized.backend.capacity := by
  cases hdev : d.backend.isDiskAvailable <;> simp [sized, Backend.capacity, hdev]

@[simp] theorem backend_withINodes : d.withINodes.backend = d.sized.backend := by
  simp [withINodes]

@[simp] theorem backend_makeFileSystem : d.makeFileSystem.backend = d.sized.backend := by
  simp [makeFileSystem_eq]

/-- It is so after formatting. -/
theorem le_capacity_makeFileSystem : dataRegionStart ≤ d.makeFileSystem.backend.capacity := by
  rw [backend_makeFileSystem]
  exact d.le_capacity_sized

/-- Below the data region only the super block and the free list are written after the inodes. -/
theorem blocks_makeFileSystem {m : Nat} (h : 3 ≤ m) (hm : m < 16388) :
    d.makeFileSystem.blocks m = d.withINodes.blocks m := by
  rw [makeFileSystem_eq, blocks_store_of_ne _ (by omega),
    blocks_initializeDiskBlocks _ _ _ (by omega) (by omega)]

/-- The chain and the super block leave the inodes alone. -/
theorem diskINode_makeFileSystem_eq {n : Nat} (hn : n < 65536) :
    d.makeFileSystem.diskINode n = (d.sized.createINodes 4 16384).assignRootData.diskINode n := by
  apply diskINode_congr
  rw [blocks_makeFileSystem _ (by omega) (by omega), withINodes, blocks_store_of_ne _ (by omega)]

/-- After formatting all inodes but the root are as new. -/
theorem diskINode_makeFileSystem {n : Nat} (h0 : n ≠ 0) (hn : n < 65536) :
    d.makeFileSystem.diskINode n = initializeINode n := by
  have hcap := d.le_capacity_sized
  rw [diskINode_makeFileSystem_eq _ hn,
    diskINode_assignRootData_of_ne _ (by simpa using hcap) h0,
    diskINode_createINodes _ (by simp at hcap; omega) (by omega)]

/-- The root is a directory, with a first block number that nobody has set. -/
theorem diskINode_makeFileSystem_root : ∃ stale, d.makeFileSystem.diskINode 0 =
    { initializeINode 0 with
      type := .directory, fileMode := rootMode,
      dataBlockNums := (initializeINode 0).dataBlockNums.poke 0 stale } := by
  have hcap := d.le_capacity_sized
  rw [diskINode_makeFileSystem_eq _ (by omega)]
  refine ⟨_, diskINode_assignRootData _ (by simpa using hcap) ?_⟩
  exact diskINode_createINodes _ (by simp at hcap; omega) (by omega)

/-- After formatting the inode list has its first 512 numbers. -/
theorem listed_makeFileSystem {i : Nat} (hi : i < 512) :
    listed (d.makeFileSystem.blocks 3) i = i + 1 := by
  have hcap := d.le_capacity_sized
  rw [blocks_makeFileSystem _ (by omega) (by omega), withINodes,
    blocks_store_self _ (by simp at hcap ⊢; omega)]
  exact initINodeListBlock_spec.2 i hi

/-- On the device the whole data region is free. -/
theorem freeBlocks_makeFileSystem (hdev : d.backend.isDiskAvailable) :
    FreeBlocks d.makeFileSystem (List.range' 16388 (31457280 - 16388)) := by
  have hnum : d.withINodes.backend.numOfBlocks = 31457280 := by simp [sized]
  have hcap : d.withINodes.backend.capacity = 31457280 := by
    simp [sized, Backend.capacity, hdev]
  have hstack := d.withINodes.initializeDiskBlocks_stack 2 16388 (by omega) (by omega) (by omega)
  rw [hnum] at hstack
  rw [makeFileSystem_eq]
  refine FreeBlocks.frame (d := d.withINodes.initializeDiskBlocks 2 16388) ?_ (by simp)
    (blocks_store_of_ne _ (by omega) _) fun x hx => blocks_store_of_ne _ ?_ _
  · exact hstack
  · have := List.mem_range'_1.mp hx
    omega

end MakeFileSystem

end Disk

end Naofs
