import Naofs.Disk

/-!
# Naofs.INode

Inodes and the table of inodes on disk (`iNode.h`, `mkfs/iNodeManager.c`).

An inode takes 176 bytes, laid out as the C compiler lays out `struct iNode`,
at the start of a cell of `INODE_SIZE` bytes; four cells make a block of the
inode table.  `getDiskInode` and `writeDiskInode` make the table an array:

* `diskINode_writeDiskInode_self` — a written inode is read back;
* `diskINode_writeDiskInode_of_ne` — every other inode is as it was;
* `blocks_writeDiskInode` — no other block is touched.
-/

namespace Naofs

/-- `enum iNodeType`. -/
inductive INodeType where
  | free
  | regular
  | directory
deriving DecidableEq, Repr

namespace INodeType

def code : INodeType → Nat
  | .free => 0
  | .regular => 1
  | .directory => 2

/-- The type with a stored code.  The code is compared with `T_FREE` and
`T_DIRECTORY` only, so a number outside the enumeration acts like `T_REGULAR`. -/
def ofCode : Nat → INodeType
  | 0 => .free
  | 2 => .directory
  | _ => .regular

@[simp] theorem ofCode_code (t : INodeType) : ofCode t.code = t := by cases t <;> rfl

/-- A type fits the four bytes that it has on the disk. -/
theorem code_lt (t : INodeType) : t.code < 256 ^ 4 := by cases t <;> decide

end INodeType

/-- `struct iNode`. -/
structure INode where
  deviceNumber : Nat
  iNodeNumber : Nat
  access : UInt64
  modification : UInt64
  statusChange : UInt64
  linksCount : Nat
  type : INodeType
  fileMode : UInt32
  ownerUid : UInt32
  groupUid : UInt32
  dataBlockNums : Buffer Nat blocksInInode
  size : Nat
deriving DecidableEq, Repr

namespace INode

/-- The `size_t` fields hold 64-bit numbers. -/
structure Fits (x : INode) : Prop where
  deviceNumber : x.deviceNumber < 2 ^ 64
  iNodeNumber : x.iNodeNumber < 2 ^ 64
  linksCount : x.linksCount < 2 ^ 64
  dataBlockNums : ∀ i < 13, x.dataBlockNums.peek i < 2 ^ 64
  size : x.size < 2 ^ 64

/-- `memcpy` of the struct to the bytes at `base`. -/
def encode (x : INode) (b : DiskBlock) (base : Nat) : DiskBlock :=
  b |>.writeNat base 8 x.deviceNumber
    |>.writeNat (base + 8) 8 x.iNodeNumber
    |>.writeNat (base + 16) 8 x.access.toNat
    |>.writeNat (base + 24) 8 x.modification.toNat
    |>.writeNat (base + 32) 8 x.statusChange.toNat
    |>.writeNat (base + 40) 8 x.linksCount
    |>.writeNat (base + 48) 4 x.type.code
    |>.writeNat (base + 52) 4 x.fileMode.toNat
    |>.writeNat (base + 56) 4 x.ownerUid.toNat
    |>.writeNat (base + 60) 4 x.groupUid.toNat
    |>.writeNumbers (base + 64) 8 x.dataBlockNums
    |>.writeNat (base + 168) 8 x.size

/-- `memcpy` of the bytes at `base` to a struct. -/
def decode (b : DiskBlock) (base : Nat) : INode where
  deviceNumber := b.readNat base 8
  iNodeNumber := b.readNat (base + 8) 8
  access := .ofNat (b.readNat (base + 16) 8)
  modification := .ofNat (b.readNat (base + 24) 8)
  statusChange := .ofNat (b.readNat (base + 32) 8)
  linksCount := b.readNat (base + 40) 8
  type := .ofCode (b.readNat (base + 48) 4)
  fileMode := .ofNat (b.readNat (base + 52) 4)
  ownerUid := .ofNat (b.readNat (base + 56) 4)
  groupUid := .ofNat (b.readNat (base + 60) 4)
  dataBlockNums := b.readNumbers (base + 64) 8 blocksInInode
  size := b.readNat (base + 168) 8

/-- What is read from disk fits. -/
theorem fits_decode (b : DiskBlock) (base : Nat) : (decode b base).Fits where
  deviceNumber := b.readNat_lt _ 8
  iNodeNumber := b.readNat_lt _ 8
  linksCount := b.readNat_lt _ 8
  dataBlockNums := fun i hi => by
    rw [decode, Buffer.peek_readNumbers _ _ _ hi]
    exact b.readNat_lt _ 8
  size := b.readNat_lt _ 8

/-- A struct depends only on its own bytes. -/
theorem decode_congr {a b : DiskBlock} {base base' : Nat}
    (h : ∀ j < 176, a.peek (base + j) = b.peek (base' + j)) :
    decode a base = decode b base' := by
  have hr : ∀ o k, o + k ≤ 176 → a.readNat (base + o) k = b.readNat (base' + o) k := by
    intro o k hok
    apply Buffer.readNat_congr
    intro j hj
    have := h (o + j) (by omega)
    rwa [← Nat.add_assoc, ← Nat.add_assoc] at this
  have hd : a.readNumbers (base + 64) 8 blocksInInode =
      b.readNumbers (base' + 64) 8 blocksInInode := by
    apply Buffer.ext_peek
    intro i hi
    rw [Buffer.peek_readNumbers _ _ _ hi, Buffer.peek_readNumbers _ _ _ hi]
    have := hr (64 + 8 * i) 8 (by simp at hi; omega)
    rwa [← Nat.add_assoc, ← Nat.add_assoc] at this
  have h0 := hr 0 8 (by omega)
  simp only [Nat.add_zero] at h0
  simp only [decode, h0, hd, hr 8 8 (by omega), hr 16 8 (by omega), hr 24 8 (by omega),
    hr 32 8 (by omega), hr 40 8 (by omega), hr 48 4 (by omega), hr 52 4 (by omega),
    hr 56 4 (by omega), hr 60 4 (by omega), hr 168 8 (by omega)]

/-- Writing a struct leaves the bytes around it alone. -/
theorem peek_encode_of_disjoint (x : INode) (b : DiskBlock) {base j : Nat} (hj : j < 1024)
    (h : j < base ∨ base + 176 ≤ j) : (x.encode b base).peek j = b.peek j := by
  have hw : ∀ (c : DiskBlock) (off k v : Nat), base ≤ off → off + k ≤ base + 176 →
      (c.writeNat off k v).peek j = c.peek j := by
    intro c off k v h1 h2
    rw [Buffer.writeNat, Buffer.peek_copyIn, if_neg (by omega)]
  have hn : ∀ (c : DiskBlock), (c.writeNumbers (base + 64) 8 x.dataBlockNums).peek j =
      c.peek j := by
    intro c
    rw [Buffer.peek_writeNumbers _ _ (by decide) _ hj, if_neg (by simp; omega)]
  simp only [encode]
  rw [hw _ _ _ _ (by omega) (by omega), hn, hw _ _ _ _ (by omega) (by omega),
    hw _ _ _ _ (by omega) (by omega), hw _ _ _ _ (by omega) (by omega),
    hw _ _ _ _ (by omega) (by omega), hw _ _ _ _ (by omega) (by omega),
    hw _ _ _ _ (by omega) (by omega), hw _ _ _ _ (by omega) (by omega),
    hw _ _ _ _ (by omega) (by omega), hw _ _ _ _ (by omega) (by omega),
    hw _ _ _ _ (by omega) (by omega)]

/-- **Round trip**: a struct that fits is read back. -/
theorem decode_encode {x : INode} (hx : x.Fits) (b : DiskBlock) {base : Nat}
    (h : base + 176 ≤ 1024) : decode (x.encode b base) base = x := by
  -- a field is not touched by the writes behind it
  have hw : ∀ (c : DiskBlock) (off k v off' k' : Nat), off' + k' ≤ off ∨ off + k ≤ off' →
      (c.writeNat off k v).readNat off' k' = c.readNat off' k' :=
    fun c _ _ v _ _ hd => Buffer.readNat_writeNat_of_disjoint c v hd
  have hn : ∀ (c : DiskBlock) (off' k' : Nat), off' + k' ≤ 1024 →
      off' + k' ≤ base + 64 ∨ base + 168 ≤ off' →
      (c.writeNumbers (base + 64) 8 x.dataBlockNums).readNat off' k' = c.readNat off' k' :=
    fun c off' k' h1 h2 =>
      Buffer.readNat_writeNumbers_of_disjoint c (by decide) _ h1 (by simp; omega)
  have hs : ∀ (c : DiskBlock) (off k v : Nat), off + k ≤ 1024 → v < 256 ^ k →
      (c.writeNat off k v).readNat off k = v := by
    intro c off k v h1 h2
    rw [Buffer.readNat_writeNat c v h1, Nat.mod_eq_of_lt h2]
  have hblocks : (x.encode b base).readNumbers (base + 64) 8 blocksInInode =
      x.dataBlockNums := by
    apply Buffer.ext_peek
    intro i hi
    simp only [blocksInInode] at hi
    rw [Buffer.peek_readNumbers _ _ _ hi]
    simp only [encode]
    rw [hw _ _ _ _ _ _ (by omega), Buffer.readNat_writeNumbers _ (by decide) _ hi (by simp; omega)]
    exact Nat.mod_eq_of_lt (hx.dataBlockNums i hi)
  have h4 : ∀ v : UInt32, v.toNat < 256 ^ 4 := fun v => v.toNat_lt
  have h8 : ∀ v : UInt64, v.toNat < 256 ^ 8 := fun v => v.toNat_lt
  have f1 := hx.deviceNumber
  have f2 := hx.iNodeNumber
  have f3 := hx.linksCount
  have f4 := hx.size
  simp only [decode, hblocks]
  simp only [encode]
  simp (disch := first | omega | exact h4 _ | exact h8 _ | exact INodeType.code_lt _) only
    [hw, hn, hs, INodeType.ofCode_code, UInt64.ofNat_toNat, UInt32.ofNat_toNat]

end INode

/-! ## The table on disk -/

inductive INodeAccessType where
  | read
  | write
deriving DecidableEq, Repr

namespace Disk

/-- Returns the code, the caller's struct and the disk.  No caller passes a
block of its own. -/
def accessINodeAndItsBlock (d : Disk) (iNodeNum : Nat) (inode : INode)
    (accessType : INodeAccessType) : Int × INode × Disk :=
  if iNodeNum ≥ numOfInodes then (-1, inode, d)
  else
    let blockNum := iNodeNum / inodesPerBlock + inodeBlocksHead
    let metaBlock := d.load blockNum d.backend.junk
    let index := iNodeNum % inodesPerBlock
    match accessType with
    | .read => (0, INode.decode metaBlock (index * inodeSize), d)
    | .write =>
        let metaBlock := metaBlock.copyIn (index * inodeSize) inodeSize fun _ => 0
        (0, inode, d.store blockNum (inode.encode metaBlock (index * inodeSize)))

def getDiskInode (d : Disk) (iNodeNum : Nat) (inode : INode) : Int × INode :=
  let r := d.accessINodeAndItsBlock iNodeNum inode .read
  (r.1, r.2.1)

def writeDiskInode (d : Disk) (iNodeNum : Nat) (inode : INode) : Int × Disk :=
  let r := d.accessINodeAndItsBlock iNodeNum inode .write
  (r.1, r.2.2)

/-- What a freshly allocated `iNode` struct holds. -/
def junkINode (d : Disk) : INode := INode.decode d.backend.junk 0

def updateINodeData (d : Disk) (now : UInt64) (iNodeNum : Nat) (iType : INodeType)
    (mode oUid gUid : UInt32) (size linksCount : Nat) : Disk :=
  let inode := (d.getDiskInode iNodeNum d.junkINode).2
  (d.writeDiskInode iNodeNum
    { inode with
      statusChange := now, type := iType, fileMode := mode, ownerUid := oUid, groupUid := gUid,
      size := size, linksCount := linksCount }).2

/-- The inode that the table holds for a number. -/
def diskINode (d : Disk) (n : Nat) : INode :=
  INode.decode (d.blocks (n / inodesPerBlock + inodeBlocksHead)) (n % inodesPerBlock * inodeSize)

section Table

variable (d : Disk)

theorem fits_diskINode (n : Nat) : (d.diskINode n).Fits := INode.fits_decode _ _

/-- An inode is read from one block. -/
theorem diskINode_congr {d' : Disk} {n : Nat}
    (h : d'.blocks (n / 4 + 4) = d.blocks (n / 4 + 4)) : d'.diskINode n = d.diskINode n := by
  simp only [diskINode, inodesPerBlock, inodeBlocksHead, h]

/-- A number in range finds the inode. -/
theorem getDiskInode_of_lt (hcap : dataRegionStart ≤ d.backend.capacity) {n : Nat}
    (h : n < numOfInodes) (x : INode) : d.getDiskInode n x = (0, d.diskINode n) := by
  have hload : d.load (n / 4 + 4) d.backend.junk = d.blocks (n / 4 + 4) :=
    d.load_of_lt (by simp at *; omega) _
  simp only [getDiskInode, accessINodeAndItsBlock, Nat.not_le.mpr h, if_false]
  simp only [inodesPerBlock, inodeBlocksHead, hload, diskINode]

@[simp] theorem getDiskInode_of_le {n : Nat} (h : numOfInodes ≤ n) (x : INode) :
    d.getDiskInode n x = (-1, x) := by
  simp [getDiskInode, accessINodeAndItsBlock, h]

@[simp] theorem writeDiskInode_of_le {n : Nat} (h : numOfInodes ≤ n) (x : INode) :
    d.writeDiskInode n x = (-1, d) := by
  simp [writeDiskInode, accessINodeAndItsBlock, h]

@[simp] theorem getDiskInode_log (e : Event) (n : Nat) (x : INode) :
    (d.log e).getDiskInode n x = d.getDiskInode n x := by
  unfold getDiskInode accessINodeAndItsBlock
  split <;> simp

@[simp] theorem junkINode_log (e : Event) : (d.log e).junkINode = d.junkINode := rfl

@[simp] theorem backend_writeDiskInode (n : Nat) (x : INode) :
    (d.writeDiskInode n x).2.backend = d.backend := by
  unfold writeDiskInode accessINodeAndItsBlock
  split <;> simp

@[simp] theorem trace_writeDiskInode (n : Nat) (x : INode) :
    (d.writeDiskInode n x).2.trace = d.trace := by
  unfold writeDiskInode accessINodeAndItsBlock
  split <;> simp

/-- Only the block of the inode is written. -/
theorem blocks_writeDiskInode {n m : Nat} (x : INode) (h : m ≠ n / 4 + 4) :
    (d.writeDiskInode n x).2.blocks m = d.blocks m := by
  unfold writeDiskInode accessINodeAndItsBlock
  split
  · rfl
  · exact d.blocks_store_of_ne h _

/-- The data region is not touched. -/
theorem blocks_writeDiskInode_data {n m : Nat} (x : INode) (h : dataRegionStart ≤ m) :
    (d.writeDiskInode n x).2.blocks m = d.blocks m := by
  by_cases hn : n < numOfInodes
  · exact d.blocks_writeDiskInode x (by simp at *; omega)
  · rw [writeDiskInode_of_le _ (Nat.le_of_not_lt hn)]

theorem blocks_writeDiskInode_self (hcap : dataRegionStart ≤ d.backend.capacity) {n : Nat}
    (h : n < numOfInodes) (x : INode) :
    (d.writeDiskInode n x).2.blocks (n / 4 + 4) =
      x.encode ((d.blocks (n / 4 + 4)).copyIn (n % 4 * 256) 256 fun _ => 0) (n % 4 * 256) := by
  have hlt : n / 4 + 4 < d.backend.capacity := by simp at *; omega
  simp only [writeDiskInode, accessINodeAndItsBlock, Nat.not_le.mpr h, if_false]
  simp only [inodesPerBlock, inodeBlocksHead, inodeSize, d.load_of_lt hlt]
  exact d.blocks_store_self hlt _

/-- A written inode is read back. -/
theorem diskINode_writeDiskInode_self (hcap : dataRegionStart ≤ d.backend.capacity) {n : Nat}
    (h : n < numOfInodes) {x : INode} (hx : x.Fits) :
    (d.writeDiskInode n x).2.diskINode n = x := by
  simp only [diskINode, inodesPerBlock, inodeBlocksHead, inodeSize,
    d.blocks_writeDiskInode_self hcap h x]
  exact INode.decode_encode hx _ (by omega)

/-- Every other inode is as it was. -/
theorem diskINode_writeDiskInode_of_ne (hcap : dataRegionStart ≤ d.backend.capacity)
    {n m : Nat} (h : n < numOfInodes) (x : INode) (hmn : m ≠ n) :
    (d.writeDiskInode n x).2.diskINode m = d.diskINode m := by
  by_cases hb : m / 4 + 4 = n / 4 + 4
  · -- a neighbour in the same block: its cell is disjoint
    simp only [diskINode, inodesPerBlock, inodeBlocksHead, inodeSize, hb,
      d.blocks_writeDiskInode_self hcap h x]
    have hcell : m % 4 < n % 4 ∨ n % 4 < m % 4 := by omega
    apply INode.decode_congr
    intro j hj
    have hlt : m % 4 * 256 + j < 1024 := by omega
    rw [INode.peek_encode_of_disjoint _ _ hlt (by omega), Buffer.peek_copyIn,
      if_neg (by omega)]
  · exact d.diskINode_congr (d.blocks_writeDiskInode x hb)

end Table

section Update

variable (d : Disk) (now : UInt64) (n : Nat) (t : INodeType) (mode oUid gUid : UInt32)
  (size links : Nat)

@[simp] theorem backend_updateINodeData :
    (d.updateINodeData now n t mode oUid gUid size links).backend = d.backend := by
  simp [updateINodeData]

@[simp] theorem trace_updateINodeData :
    (d.updateINodeData now n t mode oUid gUid size links).trace = d.trace := by
  simp [updateINodeData]

@[simp] theorem updateINodeData_of_le (h : numOfInodes ≤ n) :
    d.updateINodeData now n t mode oUid gUid size links = d := by
  simp [updateINodeData, d.writeDiskInode_of_le h]

theorem blocks_updateINodeData {m : Nat} (h : m ≠ n / 4 + 4) :
    (d.updateINodeData now n t mode oUid gUid size links).blocks m = d.blocks m :=
  d.blocks_writeDiskInode _ h

variable {n size links}

/-- What is read after an update: the new fields, and the block numbers that were there. -/
theorem diskINode_updateINodeData_self (hcap : dataRegionStart ≤ d.backend.capacity)
    (h : n < numOfInodes) (hs : size < 2 ^ 64) (hl : links < 2 ^ 64) :
    (d.updateINodeData now n t mode oUid gUid size links).diskINode n =
      { d.diskINode n with
        statusChange := now, type := t, fileMode := mode, ownerUid := oUid, groupUid := gUid,
        size := size, linksCount := links } := by
  have hf := d.fits_diskINode n
  simp only [updateINodeData, d.getDiskInode_of_lt hcap h]
  apply d.diskINode_writeDiskInode_self hcap h
  exact ⟨hf.deviceNumber, hf.iNodeNumber, hl, hf.dataBlockNums, hs⟩

/-- The other inodes, also those of the same block, are as they were. -/
theorem diskINode_updateINodeData_of_ne (hcap : dataRegionStart ≤ d.backend.capacity)
    (h : n < numOfInodes) {m : Nat} (hmn : m ≠ n) :
    (d.updateINodeData now n t mode oUid gUid size links).diskINode m = d.diskINode m :=
  d.diskINode_writeDiskInode_of_ne hcap h _ hmn

end Update

attribute [irreducible] writeDiskInode getDiskInode updateINodeData

end Disk

/-! ## Inodes in core (`inCoreiNode.h`) -/

/-- `struct inCoreiNode`. -/
structure InCoreINode extends INode where
  /-- Whether `iNodeMutex` is held. -/
  iNodeMutex : Bool
  referenceCount : Nat
  inodeChanged : Bool
  fileDataChanged : Bool
deriving DecidableEq, Repr

namespace InCoreINode

def insertDiskInodeData (inCore : InCoreINode) (diskInode : INode) : InCoreINode :=
  { inCore with toINode := diskInode }

/-- `getDiskINodeData`: every field of the struct on disk is set. -/
def getDiskINodeData (inCore : InCoreINode) : INode := inCore.toINode

/-- `size_t` arithmetic. -/
def wrapSize (z : Int) : Nat := (z % 2 ^ 64).toNat

/-- The conversion of a `size_t` to an `int`. -/
def toCInt (z : Int) : Int := z.bmod (2 ^ 32)

def updateINodeMetadata (iNode : InCoreINode) (now : UInt64) (sizeDifference : Int)
    (linkCount : Nat) : InCoreINode :=
  { iNode with
    size := wrapSize (iNode.size + sizeDifference)
    linksCount := linkCount
    modification := if sizeDifference ≠ 0 then now else iNode.modification
    fileDataChanged := if sizeDifference ≠ 0 then true else iNode.fileDataChanged
    inodeChanged := true }

/-- `S_IFDIR`. -/
@[simp] abbrev sIfdir : UInt32 := 0o040000

/-- The assignments of `changeMode`. -/
def assignMode (inode : InCoreINode) (mode : UInt32) : InCoreINode :=
  { inode with
    fileMode := if inode.type = .directory then sIfdir ||| mode else mode
    inodeChanged := true }

/-- A `uid_t` or `gid_t` of `-1`. -/
@[simp] abbrev noId : UInt32 := 0xffffffff

/-- The assignments of `changeOwner`. -/
def assignOwner (inode : InCoreINode) (uid gid : UInt32) : InCoreINode :=
  if uid ≠ noId then
    { inode with
      ownerUid := uid
      groupUid := if gid ≠ noId then gid else inode.groupUid
      inodeChanged := true }
  else if gid ≠ noId then { inode with groupUid := gid, inodeChanged := true }
  else inode

/-- Only the blocks, the size, the modification time and the flags may differ. -/
def Touched (x y : InCoreINode) : Prop :=
  ∃ nums size time changed data, y =
    { x with
      dataBlockNums := nums, size := size, modification := time, inodeChanged := changed,
      fileDataChanged := data }

theorem Touched.refl (x : InCoreINode) : Touched x x := ⟨_, _, _, _, _, rfl⟩

/-- Changes one after the other. -/
theorem Touched.trans {x y z : InCoreINode} (h : Touched x y) (h' : Touched y z) : Touched x z := by
  obtain ⟨_, _, _, _, _, rfl⟩ := h
  obtain ⟨_, _, _, _, _, rfl⟩ := h'
  exact ⟨_, _, _, _, _, rfl⟩

/-- The fields that such a change keeps. -/
theorem Touched.number {x y : InCoreINode} (h : Touched x y) : y.iNodeNumber = x.iNodeNumber := by
  obtain ⟨_, _, _, _, _, rfl⟩ := h
  rfl

theorem Touched.device {x y : InCoreINode} (h : Touched x y) : y.deviceNumber = x.deviceNumber := by
  obtain ⟨_, _, _, _, _, rfl⟩ := h
  rfl

theorem Touched.kind {x y : InCoreINode} (h : Touched x y) : y.type = x.type := by
  obtain ⟨_, _, _, _, _, rfl⟩ := h
  rfl

theorem Touched.mode {x y : InCoreINode} (h : Touched x y) : y.fileMode = x.fileMode := by
  obtain ⟨_, _, _, _, _, rfl⟩ := h
  rfl

theorem Touched.links {x y : InCoreINode} (h : Touched x y) : y.linksCount = x.linksCount := by
  obtain ⟨_, _, _, _, _, rfl⟩ := h
  rfl

theorem Touched.references {x y : InCoreINode} (h : Touched x y) :
    y.referenceCount = x.referenceCount := by
  obtain ⟨_, _, _, _, _, rfl⟩ := h
  rfl

theorem Touched.mutex {x y : InCoreINode} (h : Touched x y) : y.iNodeMutex = x.iNodeMutex := by
  obtain ⟨_, _, _, _, _, rfl⟩ := h
  rfl

@[simp] theorem dataBlockNums_updateINodeMetadata (x : InCoreINode) (now : UInt64) (k : Int)
    (links : Nat) : (x.updateINodeMetadata now k links).dataBlockNums = x.dataBlockNums := rfl

theorem touched_updateINodeMetadata (x : InCoreINode) (now : UInt64) (k : Int) :
    Touched x (x.updateINodeMetadata now k x.linksCount) := ⟨_, _, _, _, _, rfl⟩

/-- A `size_t` is below 2^64. -/
theorem wrapSize_lt (z : Int) : wrapSize z < 2 ^ 64 := by
  unfold wrapSize
  omega

/-- The updated fields fit their places on the disk. -/
theorem fits_updateINodeMetadata {x : InCoreINode} (hx : x.Fits) (now : UInt64) (k : Int)
    {links : Nat} (hlinks : links < 2 ^ 64) : (x.updateINodeMetadata now k links).Fits :=
  ⟨hx.deviceNumber, hx.iNodeNumber, hlinks, hx.dataBlockNums, wrapSize_lt _⟩

/-- A number that fits is not changed by the conversion. -/
theorem wrapSize_of_lt {z : Int} (h0 : 0 ≤ z) (h : z < 2 ^ 64) : wrapSize z = z.toNat := by
  rw [wrapSize, Int.emod_eq_of_lt h0 h]

theorem wrapSize_natCast {n : Nat} (h : n < 2 ^ 64) : wrapSize n = n := by
  rw [wrapSize_of_lt (by omega) (by omega), Int.toNat_natCast]

/-- A number that an `int` can hold is not changed by the conversion. -/
theorem toCInt_of_lt {z : Int} (h0 : -2147483648 ≤ z) (h : z < 2147483648) : toCInt z = z :=
  Int.bmod_eq_of_le (by omega) (by omega)

/-- A difference of two `size_t` that is small comes back as it is. -/
theorem toCInt_wrapSize {z : Int} (h0 : -2147483648 ≤ z) (h : z < 2147483648) :
    toCInt (wrapSize z) = z := by
  by_cases hz : 0 ≤ z
  · rw [wrapSize_of_lt hz (by omega), Int.toNat_of_nonneg hz, toCInt_of_lt h0 h]
  · have hw : (wrapSize z : Int) = z + 4294967296 * 4294967296 := by
      unfold wrapSize
      omega
    rw [hw]
    exact (Int.add_mul_bmod_self_left z 4294967296 4294967296).trans (toCInt_of_lt h0 h)

/-- An `int` that has become too large is negative. -/
theorem toCInt_of_le {z : Int} (h0 : 2147483648 ≤ z) (h : z < 4294967296) :
    toCInt z = z - 4294967296 := by
  have hsub : toCInt z = toCInt (z - 4294967296) := (Int.sub_bmod_right z 4294967296).symm
  rw [hsub]
  exact toCInt_of_lt (by omega) (by omega)

/-- The size after a small number of bytes was added. -/
theorem size_updateINodeMetadata (x : InCoreINode) (now : UInt64) {k : Nat} (hk : k ≤ 1024)
    (hx : x.size + k < 2 ^ 64) :
    (x.updateINodeMetadata now (toCInt k) x.linksCount).size = x.size + k := by
  simp only [updateINodeMetadata, toCInt_of_lt (z := k) (by omega) (by omega)]
  rw [wrapSize_of_lt (by omega) (by omega)]
  omega

end InCoreINode

end Naofs
