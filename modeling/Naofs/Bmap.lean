import Naofs.FreeList
import Naofs.INode
import Naofs.Radix

/-!
# Naofs.Bmap

From offsets in a file to blocks: `calculateOffset`, `bmap` and the insertion of
a new block into the tree of a file (`bmap.c`, `incoreInodeOps/iNodeManager.c`).

The first ten blocks of a file are in the inode; behind these come one tree
each of level 1, 2 and 3 with fan-out 128, the shape described in `Radix`.
`calculateOffset` computes the digits of an index (`calculateOffset_eq`), and an
index past the last tree leaves its result uninitialised.
-/

namespace Naofs

/-! ## Offsets -/

inductive IndirectionLevel where
  | direct
  | singleIndirect
  | doubleIndirect
  | tripleIndirect
deriving DecidableEq, Repr

/-- The value of the enumerator. -/
def IndirectionLevel.toNat : IndirectionLevel → Nat
  | .direct => 0
  | .singleIndirect => 1
  | .doubleIndirect => 2
  | .tripleIndirect => 3

@[simp] abbrev singleIndirectLimit : Nat := 137
@[simp] abbrev doubleIndirectLimit : Nat := 16521
@[simp] abbrev tripleIndirectLimit : Nat := 2113673

structure BlkTreeOffset where
  offsets : Buffer Int 4
  offsetIndirection : IndirectionLevel

def blkTreeOffsetConstructor (directOffset firstOffset secondOffset thirdOffset : Int)
    (indirection : IndirectionLevel) : BlkTreeOffset where
  offsets := ⟨#v[directOffset, firstOffset, secondOffset, thirdOffset]⟩
  offsetIndirection := indirection

/-- `calculateOffset`; `none` where it returns without setting its result. -/
def calculateOffset (offset : Nat) : Option BlkTreeOffset :=
  let blkIndex := offset / blockSize
  if blkIndex ≤ directBlockLimit then
    some (blkTreeOffsetConstructor blkIndex (-1) (-1) (-1) .direct)
  else if blkIndex ≤ singleIndirectLimit then
    let firstOffset := blkIndex - directBlockLimit - 1
    some (blkTreeOffsetConstructor (-1) firstOffset (-1) (-1) .singleIndirect)
  else if blkIndex ≤ doubleIndirectLimit then
    let firstOffset := (blkIndex - singleIndirectLimit - 1) / blockAddressesPerBlock
    let secondOffset := blkIndex - firstOffset * blockAddressesPerBlock - singleIndirectLimit - 1
    some (blkTreeOffsetConstructor (-1) firstOffset secondOffset (-1) .doubleIndirect)
  else if blkIndex ≤ tripleIndirectLimit then
    let firstOffset := (blkIndex - doubleIndirectLimit - 1) /
      (blockAddressesPerBlock * blockAddressesPerBlock)
    let secondOffset := (blkIndex - firstOffset * (blockAddressesPerBlock * blockAddressesPerBlock) -
      doubleIndirectLimit - 1) / blockAddressesPerBlock
    let thirdOffset := blkIndex - secondOffset * blockAddressesPerBlock -
      firstOffset * (blockAddressesPerBlock * blockAddressesPerBlock) - doubleIndirectLimit - 1
    some (blkTreeOffsetConstructor (-1) firstOffset secondOffset thirdOffset .tripleIndirect)
  else none

/-- The entries behind the direct one that are in use, `offsets + 1` in the source. -/
def BlkTreeOffset.below (o : BlkTreeOffset) : List Nat :=
  (List.range o.offsetIndirection.toNat).map fun counter => (o.offsets.peek (counter + 1)).toNat

/-- The level of the tree an index belongs to, 0 for the blocks in the inode. -/
def treeLevel (q : Nat) : Nat :=
  if q < 10 then 0 else if q < 138 then 1 else if q < 16522 then 2 else 3

/-- The first index of the tree of a level. -/
def treeBase : Nat → Nat
  | 0 => 0
  | 1 => 10
  | 2 => 138
  | _ => 16522

/-- The number of blocks a file can have. -/
@[simp] abbrev maxBlocks : Nat := 2113674

theorem treeLevel_le (q : Nat) : treeLevel q ≤ 3 := by
  unfold treeLevel
  split_ifs <;> omega

/-- The indices of each level. -/
theorem treeLevel_bounds (q : Nat) :
    (treeLevel q = 0 ∧ q < 10) ∨ (treeLevel q = 1 ∧ 10 ≤ q ∧ q < 138) ∨
      (treeLevel q = 2 ∧ 138 ≤ q ∧ q < 16522) ∨ (treeLevel q = 3 ∧ 16522 ≤ q) := by
  unfold treeLevel
  split_ifs <;> omega

/-- Ten blocks need no indirect block. -/
theorem treeLevel_eq_zero {q : Nat} : treeLevel q = 0 ↔ q < 10 := by
  unfold treeLevel
  split_ifs <;> simp <;> omega

/-- An index lies behind the base of its tree and within the tree. -/
theorem treeBase_le {q : Nat} (hq : q < maxBlocks) (h : treeLevel q ≠ 0) :
    treeBase (treeLevel q) ≤ q ∧ q - treeBase (treeLevel q) < 128 ^ treeLevel q := by
  simp only [maxBlocks] at hq
  unfold treeLevel at *
  split_ifs at * <;> simp [treeBase] at * <;> omega

section CalculateOffset

variable {offset : Nat}

/-- The coordinates of a direct block. -/
theorem calculateOffset_direct (h : offset / 1024 < 10) :
    calculateOffset offset =
      some (blkTreeOffsetConstructor (offset / 1024 : Nat) (-1) (-1) (-1) .direct) := by
  unfold calculateOffset
  exact if_pos (by simp; omega)

/-- Those of a block under the single indirect block. -/
theorem calculateOffset_single (h1 : 10 ≤ offset / 1024) (h2 : offset / 1024 < 138) :
    calculateOffset offset =
      some (blkTreeOffsetConstructor (-1) (offset / 1024 - 10 : Nat) (-1) (-1) .singleIndirect) := by
  unfold calculateOffset
  simp only [blockSize, directBlockLimit, singleIndirectLimit]
  rw [if_neg (by omega), if_pos (by omega), Nat.sub_sub]

/-- Those of a block under the double indirect block. -/
theorem calculateOffset_double (h1 : 138 ≤ offset / 1024) (h2 : offset / 1024 < 16522) :
    calculateOffset offset =
      some (blkTreeOffsetConstructor (-1) ((offset / 1024 - 138) / 128 : Nat)
        ((offset / 1024 - 138) % 128 : Nat) (-1) .doubleIndirect) := by
  unfold calculateOffset
  simp only [blockSize, directBlockLimit, singleIndirectLimit, doubleIndirectLimit,
    blockAddressesPerBlock]
  rw [if_neg (by omega), if_neg (by omega), if_pos (by omega), Nat.sub_sub,
    show offset / 1024 - (offset / 1024 - (137 + 1)) / 128 * 128 - 137 - 1 =
      (offset / 1024 - 138) % 128 by omega]

/-- Those of a block under the triple indirect block. -/
theorem calculateOffset_triple (h1 : 16522 ≤ offset / 1024) (h2 : offset / 1024 < 2113674) :
    calculateOffset offset =
      some (blkTreeOffsetConstructor (-1) ((offset / 1024 - 16522) / 16384 : Nat)
        ((offset / 1024 - 16522) % 16384 / 128 : Nat) ((offset / 1024 - 16522) % 128 : Nat)
        .tripleIndirect) := by
  unfold calculateOffset
  simp only [blockSize, directBlockLimit, singleIndirectLimit, doubleIndirectLimit,
    tripleIndirectLimit, blockAddressesPerBlock]
  rw [if_neg (by omega), if_neg (by omega), if_neg (by omega), if_pos (by omega), Nat.sub_sub,
    show offset / 1024 - (offset / 1024 - (16521 + 1)) / (128 * 128) * (128 * 128) - 16521 - 1 =
      (offset / 1024 - 16522) % 16384 by omega,
    show offset / 1024 - (offset / 1024 - 16522) % 16384 / 128 * 128 -
      (offset / 1024 - (16521 + 1)) / (128 * 128) * (128 * 128) - 16521 - 1 =
      (offset / 1024 - 16522) % 128 by omega]

/-- The digits below the root, level by level. -/
theorem below_single (i k l : Int) (j : Nat) :
    (blkTreeOffsetConstructor i j k l .singleIndirect).below = [j] := rfl

theorem below_double (i l : Int) (j k : Nat) :
    (blkTreeOffsetConstructor i j k l .doubleIndirect).below = [j, k] := rfl

theorem below_triple (i : Int) (j k l : Nat) :
    (blkTreeOffsetConstructor i j k l .tripleIndirect).below = [j, k, l] := rfl

/-- Three digits to base 128. -/
theorem digits_three (k : Nat) :
    Radix.digits 128 3 k = [k / 16384, k % 16384 / 128, k % 128] := by
  have hmod : k % 16384 % 128 = k % 128 := by omega
  simp only [Radix.digits, pow_one, pow_zero, Nat.div_one, Nat.reducePow, hmod]

/-- `calculateOffset` below the limit: the direct index, or the digits of the
position in the tree. -/
theorem calculateOffset_eq (h : offset / 1024 < maxBlocks) :
    ∃ o, calculateOffset offset = some o ∧
      o.offsetIndirection.toNat = treeLevel (offset / 1024) ∧
      (treeLevel (offset / 1024) = 0 → o.offsets.peek 0 = (offset / 1024 : Nat)) ∧
      (treeLevel (offset / 1024) ≠ 0 → o.below =
        Radix.digits 128 (treeLevel (offset / 1024))
          (offset / 1024 - treeBase (treeLevel (offset / 1024)))) := by
  simp only [maxBlocks] at h
  by_cases h1 : offset / 1024 < 10
  · have hl : treeLevel (offset / 1024) = 0 := treeLevel_eq_zero.mpr h1
    rw [hl]
    exact ⟨_, calculateOffset_direct h1, rfl, fun _ => rfl, fun hn => absurd rfl hn⟩
  by_cases h2 : offset / 1024 < 138
  · have hl : treeLevel (offset / 1024) = 1 := by rw [treeLevel, if_neg h1, if_pos h2]
    rw [hl]
    refine ⟨_, calculateOffset_single (by omega) h2, rfl, by omega, fun _ => ?_⟩
    simp only [below_single, Radix.digits, treeBase, pow_zero, Nat.div_one]
  by_cases h3 : offset / 1024 < 16522
  · have hl : treeLevel (offset / 1024) = 2 := by
      rw [treeLevel, if_neg h1, if_neg h2, if_pos h3]
    rw [hl]
    refine ⟨_, calculateOffset_double (by omega) h3, rfl, by omega, fun _ => ?_⟩
    simp only [below_double, Radix.digits, treeBase, pow_one, pow_zero, Nat.div_one]
  · have hl : treeLevel (offset / 1024) = 3 := by
      rw [treeLevel, if_neg h1, if_neg h2, if_neg h3]
    rw [hl]
    refine ⟨_, calculateOffset_triple (by omega) h, rfl, by omega, fun _ => ?_⟩
    rw [below_triple, digits_three]
    rfl

end CalculateOffset

/-- Behind the last block there are no coordinates. -/
theorem calculateOffset_eq_none {offset : Nat} (h : maxBlocks ≤ offset / 1024) :
    calculateOffset offset = none := by
  simp only [maxBlocks] at h
  simp only [calculateOffset, blockSize, directBlockLimit, singleIndirectLimit,
    doubleIndirectLimit, tripleIndirectLimit]
  rw [if_neg (by omega), if_neg (by omega), if_neg (by omega), if_neg (by omega)]

/-! ## The source functions -/

structure BmapResponse where
  blockNumber : Nat
  byteOffsetInBlock : Nat
  bytesLeftInBlock : Nat
deriving DecidableEq, Repr

inductive BmapMode where
  | read
  | append
deriving DecidableEq, Repr

def createBMapResponse (blockNum offset : Nat) : BmapResponse :=
  ⟨blockNum, offset, blockSize - offset⟩

namespace Disk

/-- The loop of `processAndGetDiskBlock` over the offsets to go. -/
def processAndGetDiskBlock (d : Disk) : List Nat → (startBlockNum : Nat) → DiskBlock → Nat
  | [], indirectBlockIndex, _ => indirectBlockIndex
  | off :: offsets, indirectBlockIndex, dataBlock =>
      let dataBlock := d.load indirectBlockIndex dataBlock
      let workingData := makeFreeDiskListBlock dataBlock
      d.processAndGetDiskBlock offsets (workingData.peek off) dataBlock

def allocateIfNeeded (d : Disk) (indirOffsets : List Nat) : Nat × Disk :=
  if indirOffsets.all (· == 0) then d.blockAlloc else (0, d)

/-- The loop of `allocateAllNeededBlocks` after its first round, when `curBlock`
points into the buffer of the block `parentBlock`. -/
def allocateBelow (d : Disk) (blockNumToAdd : Nat) : List Nat → (parentBlock index : Nat) →
    FreeDiskListBlock → DiskBlock → Disk
  | [], parentBlock, index, workingData, dataBlock =>
      let workingData := workingData.poke index blockNumToAdd
      d.store parentBlock (writeFreeDiskListBlock workingData dataBlock)
  | off :: offsets, parentBlock, index, workingData, dataBlock =>
      let (newAllocBlock, d) := d.allocateIfNeeded (off :: offsets)
      let (workingData, dataBlock, d) :=
        if newAllocBlock ≠ 0 then
          let workingData := workingData.poke index newAllocBlock
          let dataBlock := writeFreeDiskListBlock workingData dataBlock
          (workingData, dataBlock, d.store parentBlock dataBlock)
        else (workingData, dataBlock, d)
      let tmp := workingData.peek index
      let dataBlock := d.load tmp dataBlock
      allocateBelow d blockNumToAdd offsets tmp off (makeFreeDiskListBlock dataBlock) dataBlock

/-- `allocateAllNeededBlocks` on the entry `curBlock` of the inode; returns the
new entry. -/
def allocateAllNeededBlocks (d : Disk) (curBlock blockNumToAdd off : Nat) (offsets : List Nat) :
    Nat × Disk :=
  let (newAllocBlock, d) := d.allocateIfNeeded (off :: offsets)
  let curBlock := if newAllocBlock ≠ 0 then newAllocBlock else curBlock
  let dataBlock := d.load curBlock d.backend.junk
  (curBlock, d.allocateBelow blockNumToAdd offsets curBlock off (makeFreeDiskListBlock dataBlock)
    dataBlock)

/-- `updateIndex`.  Adding no bytes keeps the modification time. -/
def updateIndex (d : Disk) (iNode : InCoreINode) (blockNumToAdd : Nat) (blkOffset : BlkTreeOffset) :
    Except Fault (InCoreINode × Disk) :=
  if blkOffset.offsetIndirection = .direct then
    .ok ({ iNode with
      dataBlockNums := iNode.dataBlockNums.poke (blkOffset.offsets.peek 0).toNat blockNumToAdd }, d)
  else
    match blkOffset.below with
    | [] => .error .uninitialised
    | off :: offsets =>
        let slotIndex := directBlockLimit + blkOffset.offsetIndirection.toNat
        let (entry, d) := d.allocateAllNeededBlocks (iNode.dataBlockNums.peek slotIndex)
          blockNumToAdd off offsets
        let iNode := { iNode with dataBlockNums := iNode.dataBlockNums.poke slotIndex entry }
        .ok (iNode.updateINodeMetadata 0 0 iNode.linksCount, d)

def insertDataBlockInINode (d : Disk) (iNode : InCoreINode) (blockNumToAdd : Nat) :
    Except Fault (InCoreINode × Disk) :=
  if iNode.size % blockSize ≠ 0 then .ok (iNode, d)
  else
    match calculateOffset iNode.size with
    | none => .error .uninitialised
    | some blkOffset => d.updateIndex iNode blockNumToAdd blkOffset

/-- The block at an offset inside the file. -/
def lookupBlock (d : Disk) (iNode : InCoreINode) (offset : Nat) : Except Fault Nat :=
  match calculateOffset offset with
  | none => .error .uninitialised
  | some indirectionOffsets =>
      if indirectionOffsets.offsetIndirection = .direct then
        .ok (iNode.dataBlockNums.peek (indirectionOffsets.offsets.peek 0).toNat)
      else
        let iNodeBlockIndex := directBlockLimit + indirectionOffsets.offsetIndirection.toNat
        .ok (d.processAndGetDiskBlock indirectionOffsets.below
          (iNode.dataBlockNums.peek iNodeBlockIndex) d.backend.junk)

def bmap (d : Disk) (iNode : InCoreINode) (offset : Nat) (response : BmapResponse)
    (mode : BmapMode) : Except Fault (Int × BmapResponse × InCoreINode × Disk) :=
  if offset ≥ iNode.size ∧ (mode = .read ∨ offset > iNode.size) then
    .ok (-1, response, iNode, d)
  else if offset = iNode.size ∧ offset % blockSize = 0 ∧ mode = .append then do
    let (newBlock, d) := d.blockAlloc
    let (iNode, d) ← d.insertDataBlockInINode iNode newBlock
    .ok (0, createBMapResponse newBlock 0, iNode, d)
  else do
    let dataBlockNum ← d.lookupBlock iNode offset
    .ok (0, createBMapResponse dataBlockNum (offset % blockSize), iNode, d)

end Disk

end Naofs
