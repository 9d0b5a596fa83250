import Naofs.INode
import Mathlib.Data.List.Nodup
import Mathlib.Data.List.Perm.Lattice

/-!
# Naofs.INodeAlloc

The inode allocator of `ialloc.c` and `ifree.c`.

Free inode numbers are cached in the 512 slots of `INODE_LIST_BLOCK`; the super
block remembers where a search of the inode table should start when the cache
runs dry.  Numbers are taken from the first used slot and put back into the
slot before it, so that the list is a run of zeros followed by free numbers.

`getNewINode` asks for a refill when `checkAndGetFreeINode` answers `0`, but
that function answers `-1` whenever its counter reaches the end of the block,
which is the case both for an empty list and for the number in the last slot.
-/

namespace Naofs

/-- `(size_t)-1`, the value `checkAndGetFreeINode` returns for an error. -/
@[simp] abbrev noINode : Nat := 2 ^ 64 - 1

/-- The slot at which a forward search of the list stops. -/
def firstListed (iNodeList : INodeListBlock) : Option Nat :=
  (List.range inodeNosPerBlock).find? fun i => iNodeList.peek i != 0

def checkAndGetFreeINode (iNodeList : INodeListBlock) : Nat × INodeListBlock :=
  -- the counter has passed the slot it stopped at
  let counter := match firstListed iNodeList with
    | some i => i + 1
    | none => inodeNosPerBlock
  if counter = inodeNosPerBlock then (noINode, iNodeList)
  else (iNodeList.peek (counter - 1), iNodeList.poke (counter - 1) 0)

/-! ## Searching the inode table -/

/-- `makeINodesBlock`: four structs, one right after the other. -/
def makeINodesBlock (blockPtr : DiskBlock) : List INode :=
  (List.range inodesPerBlock).map fun i => INode.decode blockPtr (i * iNodeStructSize)

/-- `getFromBlock`: the numbers it stores, in order. -/
def getFromBlock (blockOfINodes : List INode) : List Nat :=
  (blockOfINodes.filter fun x => x.type = .free).map (·.iNodeNumber)

def getReturnValue (collected : List Nat) : Nat :=
  if collected.length < inodeNosPerBlock then 0 else collected.getLastD 0

namespace Disk

/-- The loop of `searchINodes` with `k` blocks of the table to go. -/
def collectINodes (d : Disk) : (k : Nat) → List Nat → List Nat
  | 0, collected => collected
  | k + 1, collected =>
      if collected.length < inodeNosPerBlock then
        let iNodesData := d.load (inodeBlocksHead + numOfInodeBlocks - (k + 1)) d.backend.junk
        collectINodes d k (collected ++ getFromBlock (makeINodesBlock iNodesData))
      else collected

/-- `searchINodes`: the number to remember and the list.  Numbers beyond the
last slot are stored past the end of the buffer. -/
def searchINodes (d : Disk) (startINodeNum : Nat) (iNodeNums : INodeListBlock) :
    Nat × INodeListBlock :=
  if startINodeNum = 0 then (0, iNodeNums)
  else
    let collected := d.collectINodes (numOfInodeBlocks - startINodeNum / inodesPerBlock) []
    (getReturnValue collected,
      .tabulate fun i => if i < collected.length then collected.getD i 0 else iNodeNums.peek i)

def fetchFreeINodes (d : Disk) (iNodeList : INodeListBlock) : INodeListBlock × Disk :=
  let superBlockData := d.load superBlockNo d.backend.junk
  let (rememberedINode, iNodeList) := d.searchINodes (makeSuperBlock superBlockData) iNodeList
  (iNodeList, d.store superBlockNo (writeSuperBlock rememberedINode superBlockData))

/-! ## Allocation -/

def getNewINode (d : Disk) (now : UInt64) (fileType : INodeType) (fileMode uid gid : UInt32) :
    Nat × Disk :=
  let iNodeListData := d.load inodeListBlock d.backend.junk
  let iNodeList := makeINodeListBlock iNodeListData
  let (freeINode, iNodeList) := checkAndGetFreeINode iNodeList
  let (freeINode, iNodeList, d) :=
    if freeINode = 0 then
      let (iNodeList, d) := d.fetchFreeINodes iNodeList
      let (freeINode, iNodeList) := checkAndGetFreeINode iNodeList
      (freeINode, iNodeList, d)
    else (freeINode, iNodeList, d)
  let d := d.updateINodeData now freeINode fileType fileMode uid gid 0 0
  (freeINode, d.store inodeListBlock (writeINodeListBlock iNodeList iNodeListData))

/-! ## Release -/

/-- `saveInListIfPossible`: an empty list is reported as saved but keeps no
number. -/
def saveInListIfPossible (iNodeNum : Nat) (iNodeList : INodeListBlock) : Bool × INodeListBlock :=
  match firstListed iNodeList with
  | some 0 => (false, iNodeList)
  | some (counter + 1) => (true, iNodeList.poke counter iNodeNum)
  | none => (true, iNodeList)

def rememberIfNeeded (d : Disk) (iNodeNum : Nat) (iNodeList : INodeListBlock) : Disk :=
  if iNodeList.peek (inodeNosPerBlock - 1) < iNodeNum then d
  else
    let superBlockData := d.load superBlockNo d.backend.junk
    d.store superBlockNo (writeSuperBlock iNodeNum superBlockData)

/-- `freeINode`.  Where the number is not saved the list buffer is freed twice. -/
def freeINode (d : Disk) (now : UInt64) (iNodeNum : Nat) : Except Fault Disk :=
  let d := d.updateINodeData now iNodeNum .free 0 0 0 0 0
  let iNodeListData := d.load inodeListBlock d.backend.junk
  let iNodeList := makeINodeListBlock iNodeListData
  let (isSavedInList, iNodeList) := saveInListIfPossible iNodeNum iNodeList
  if ¬ isSavedInList then
    let _ := d.rememberIfNeeded iNodeNum iNodeList
    .error .doubleFree
  else .ok (d.store inodeListBlock (writeINodeListBlock iNodeList iNodeListData))

theorem trace_freeINode {d d' : Disk} {now : UInt64} {n : Nat} (h : d.freeINode now n = .ok d') :
    d'.trace = d.trace := by
  unfold freeINode at h
  simp only at h
  split at h
  · cases h
  · cases h
    simp

attribute [irreducible] getNewINode freeINode

end Disk

end Naofs
