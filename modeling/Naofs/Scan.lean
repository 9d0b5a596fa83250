import Naofs.Table
import Mathlib.Algebra.BigOperators.Intervals
import Mathlib.Data.List.GetD

/-!
# Naofs.Scan

The scan for free inodes (`searchINodes`) with every store into the caller's
buffer checked, and with the blocks that it reads.

The loop looks at its count before each block, but a block adds up to four
numbers at once.  The scan stays within the 512 slots of the buffer exactly if
no block takes the count from below 512 to above it (`scan_within_buffer_iff`);
on a new file system a scan that starts in the first block does.
-/

namespace Naofs

namespace Checked

/-- `getFromBlock`: the count, and the buffer with the numbers stored from
`nextAddrAt` on. -/
def getFromBlock : List INode → (nextAddrAt : Nat) → INodeListBlock →
    Except Fault (Nat × INodeListBlock)
  | [], _, iNodeNos => .ok (0, iNodeNos)
  | theINode :: iNodes, nextAddrAt, iNodeNos =>
      if theINode.type = .free then
        if nextAddrAt < inodeNosPerBlock then do
          let (collectedCount, iNodeNos) ← getFromBlock iNodes (nextAddrAt + 1)
            (iNodeNos.poke nextAddrAt theINode.iNodeNumber)
          .ok (collectedCount + 1, iNodeNos)
        else .error .outOfBounds
      else getFromBlock iNodes nextAddrAt iNodeNos

def getReturnValue (iNodeNums : INodeListBlock) (freeINodeCounter : Nat) : Except Fault Nat :=
  if freeINodeCounter = 0 then .ok 0
  else if freeINodeCounter < inodeNosPerBlock then .ok 0
  else if freeINodeCounter - 1 < inodeNosPerBlock then .ok (iNodeNums.peek (freeINodeCounter - 1))
  else .error .outOfBounds

/-- `endOfINodeBlocks`. -/
@[simp] abbrev endOfINodeBlocks : Nat := inodeBlocksHead + numOfInodeBlocks

/-- The loop of `searchINodes`: the blocks it reads, and the count and the buffer
it ends with. -/
def searchLoop (d : Disk) (blockCounter freeINodeCounter : Nat) (iNodeNums : INodeListBlock) :
    List Nat × Except Fault (Nat × INodeListBlock) :=
  if freeINodeCounter < inodeNosPerBlock then
    if blockCounter ≥ endOfINodeBlocks then ([], .ok (freeINodeCounter, iNodeNums))
    else
      let iNodesList := makeINodesBlock (d.load blockCounter d.backend.junk)
      match getFromBlock iNodesList freeINodeCounter iNodeNums with
      | .error e => ([blockCounter], .error e)
      | .ok (collectedCount, iNodeNums) =>
          let r := searchLoop d (blockCounter + 1) (freeINodeCounter + collectedCount) iNodeNums
          (blockCounter :: r.1, r.2)
  else ([], .ok (freeINodeCounter, iNodeNums))
termination_by endOfINodeBlocks - blockCounter
decreasing_by
  simp only [endOfINodeBlocks, inodeBlocksHead, numOfInodeBlocks] at *
  omega

def searchINodes (d : Disk) (startINodeNum : Nat) (iNodeNums : INodeListBlock) :
    List Nat × Except Fault (Nat × INodeListBlock) :=
  if startINodeNum = 0 then ([], .ok (0, iNodeNums))
  else
    let r := searchLoop d (startINodeNum / inodesPerBlock + inodeBlocksHead) 0 iNodeNums
    (r.1, do
      let (freeINodeCounter, iNodeNums) ← r.2
      let retValue ← getReturnValue iNodeNums freeINodeCounter
      .ok (retValue, iNodeNums))

/-! ## The loops and what they collect -/

/-- The buffer with the numbers `l` stored from `start` on. -/
def stored (buf : INodeListBlock) (start : Nat) (l : List Nat) : INodeListBlock :=
  buf.copyIn start l.length fun i => l.getD i 0

theorem stored_nil (buf : INodeListBlock) (start : Nat) : stored buf start [] = buf := by
  apply Buffer.ext_peek
  intro i _
  rw [stored, Buffer.peek_copyIn, if_neg (by simp; omega)]

/-- Storing one number and then the rest. -/
theorem stored_cons (buf : INodeListBlock) {start : Nat} (h : start < 512) (v : Nat) (l : List Nat) :
    stored (buf.poke start v) (start + 1) l = stored buf start (v :: l) := by
  apply Buffer.ext_peek
  intro i hi
  simp only [inodeNosPerBlock] at hi
  simp only [stored, Buffer.peek_copyIn, Buffer.peek_poke, List.length_cons, inodeNosPerBlock]
  by_cases his : i = start
  · rw [if_neg (by omega), if_pos ⟨his, h⟩, if_pos (by omega), his, Nat.sub_self]
    rfl
  · by_cases hin : start + 1 ≤ i ∧ i < start + 1 + l.length
    · rw [if_pos (by omega), if_pos (by omega), show i - start = i - (start + 1) + 1 by omega]
      rfl
    · rw [if_neg (by omega), if_neg (by omega), if_neg (by omega)]

/-- Numbers that are stored in two batches. -/
theorem stored_stored (buf : INodeListBlock) (l l' : List Nat) :
    stored (stored buf 0 l) l.length l' = stored buf 0 (l ++ l') := by
  apply Buffer.ext_peek
  intro i hi
  simp only [stored, Buffer.peek_copyIn, List.length_append, Nat.zero_add, Nat.sub_zero]
  by_cases hlo : i < l.length
  · rw [if_neg (by omega), if_pos (by omega), if_pos (by omega),
      List.getD_append _ _ _ _ hlo]
  · by_cases hhi : i < l.length + l'.length
    · rw [if_pos (by omega), if_pos (by omega),
        List.getD_append_right _ _ _ _ (Nat.le_of_not_lt hlo)]
    · rw [if_neg (by omega), if_neg (by omega), if_neg (by omega)]

/-- A block whose numbers fit is stored as a whole, any other is refused. -/
theorem getFromBlock_eq (iNodes : List INode) : ∀ (start : Nat) (buf : INodeListBlock),
    start ≤ 512 →
    getFromBlock iNodes start buf =
      if start + (Naofs.getFromBlock iNodes).length ≤ 512 then
        .ok ((Naofs.getFromBlock iNodes).length, stored buf start (Naofs.getFromBlock iNodes))
      else .error .outOfBounds := by
  induction iNodes with
  | nil =>
      intro start buf hs
      rw [getFromBlock, if_pos (by simpa [Naofs.getFromBlock] using hs)]
      simp [Naofs.getFromBlock, stored_nil]
  | cons x iNodes ih =>
      intro start buf hs
      by_cases hx : x.type = .free
      · have hcons : Naofs.getFromBlock (x :: iNodes) =
            x.iNodeNumber :: Naofs.getFromBlock iNodes := by
          simp [Naofs.getFromBlock, hx]
        rw [getFromBlock, if_pos hx, hcons, List.length_cons]
        by_cases hlt : start < 512
        · rw [if_pos hlt, ih (start + 1) _ (by omega)]
          by_cases hfit : start + 1 + (Naofs.getFromBlock iNodes).length ≤ 512
          · rw [if_pos hfit, if_pos (by omega), stored_cons buf hlt]
            rfl
          · rw [if_neg hfit, if_neg (by omega)]
            rfl
        · rw [if_neg hlt, if_neg (by omega)]
      · have hcons : Naofs.getFromBlock (x :: iNodes) = Naofs.getFromBlock iNodes := by
          simp [Naofs.getFromBlock, hx]
        rw [getFromBlock, if_neg hx, hcons]
        exact ih start buf hs

/-- The loop with `k` blocks to go: it reads blocks of the table only, and ends
with what `collectINodes` collects, if that fits into the buffer. -/
theorem searchLoop_eq (d : Disk) (buf : INodeListBlock) (k : Nat) :
    ∀ (b : Nat) (l : List Nat), b + k = 16388 → l.length ≤ 512 →
      (∀ m ∈ (searchLoop d b l.length (stored buf 0 l)).1, b ≤ m ∧ m < 16388) ∧
      (searchLoop d b l.length (stored buf 0 l)).2 =
        if (d.collectINodes k l).length ≤ 512 then
          .ok ((d.collectINodes k l).length, stored buf 0 (d.collectINodes k l))
        else .error .outOfBounds := by
  induction k with
  | zero =>
      intro b l hb hl
      have hstop : searchLoop d b l.length (stored buf 0 l) = ([], .ok (l.length, stored buf 0 l)) := by
        rw [searchLoop]
        by_cases hlt : l.length < 512
        · rw [if_pos hlt, if_pos (by simp; omega)]
        · rw [if_neg hlt]
      rw [hstop]
      simp [Disk.collectINodes, hl]
  | succ k ih =>
      intro b l hb hl
      by_cases hlt : l.length < 512
      · have hcollect : d.collectINodes (k + 1) l = d.collectINodes k
            (l ++ Naofs.getFromBlock (makeINodesBlock (d.load b d.backend.junk))) := by
          rw [Disk.collectINodes, if_pos hlt]
          simp only [inodeBlocksHead, numOfInodeBlocks]
          rw [show 4 + 16384 - (k + 1) = b by omega]
        rw [searchLoop, if_pos hlt, if_neg (by simp; omega), hcollect]
        simp only [getFromBlock_eq _ _ _ hl]
        generalize Naofs.getFromBlock (makeINodesBlock (d.load b d.backend.junk)) = new
        by_cases hfit : l.length + new.length ≤ 512
        · obtain ⟨hreads, hresult⟩ := ih (b + 1) (l ++ new) (by omega) (by simpa using hfit)
          rw [List.length_append, ← stored_stored] at hreads hresult
          rw [if_pos hfit]
          simp only
          refine ⟨fun m hm => ?_, hresult⟩
          rcases List.mem_cons.mp hm with rfl | hm
          · omega
          · have := hreads m hm
            omega
        · -- the block does not fit, and `collectINodes` stops after it as well
          have hstop : d.collectINodes k (l ++ new) = l ++ new := by
            cases k with
            | zero => rfl
            | succ k =>
                rw [Disk.collectINodes, if_neg (by simp; omega)]
          rw [if_neg hfit, hstop, List.length_append, if_neg hfit]
          simp only [List.mem_singleton]
          exact ⟨fun m hm => by omega, trivial⟩
      · have hcollect : d.collectINodes (k + 1) l = l := by
          rw [Disk.collectINodes, if_neg hlt]
        rw [searchLoop, if_neg hlt, hcollect, if_pos hl]
        simp

/-- A scan that fits does what the unchecked one does. -/
theorem searchINodes_eq (d : Disk) (buf : INodeListBlock) {start : Nat} (h1 : 1 ≤ start)
    (h2 : start < numOfInodes) :
    (∀ m ∈ (searchINodes d start buf).1, inodeBlocksHead ≤ m ∧ m < endOfINodeBlocks) ∧
    (searchINodes d start buf).2 =
      if (d.collectINodes (numOfInodeBlocks - start / inodesPerBlock) []).length ≤ 512 then
        .ok (d.searchINodes start buf)
      else .error .outOfBounds := by
  simp only [numOfInodes] at h2
  have hne : start ≠ 0 := by omega
  obtain ⟨hreads, hresult⟩ := searchLoop_eq d buf (16384 - start / 4) (start / 4 + 4) []
    (by omega) (by simp)
  rw [stored_nil] at hreads hresult
  simp only [searchINodes, hne, if_false, Disk.searchINodes]
  refine ⟨fun m hm => ?_, ?_⟩
  · have := hreads m hm
    simp only [inodeBlocksHead, endOfINodeBlocks, numOfInodeBlocks]
    omega
  · simp only [List.length_nil] at hresult
    simp only [inodesPerBlock, inodeBlocksHead, numOfInodeBlocks, hresult]
    generalize d.collectINodes (16384 - start / 4) [] = l
    by_cases hfit : l.length ≤ 512
    · have hbuf : stored buf 0 l =
          .tabulate fun i => if i < l.length then l.getD i 0 else buf.peek i := by
        simp [stored, Buffer.copyIn]
      have hret : getReturnValue (stored buf 0 l) l.length = .ok (Naofs.getReturnValue l) := by
        unfold getReturnValue Naofs.getReturnValue
        by_cases h0 : l.length = 0
        · rw [if_pos h0, if_pos (by simp; omega)]
        · by_cases hlt : l.length < 512
          · rw [if_neg h0, if_pos hlt, if_pos hlt]
          · rw [if_neg h0, if_neg hlt, if_pos (by simp; omega), if_neg hlt, hbuf,
              Buffer.peek_tabulate, if_pos (by simp; omega), if_pos (by omega)]
            congr 1
            rw [List.getD_eq_getElem?_getD, ← List.getLast?_eq_getElem?, List.getLastD_eq_getLast?]
      rw [if_pos hfit, if_pos hfit, ← hbuf]
      exact bind_eq_ok.mpr ⟨_, rfl, bind_eq_ok.mpr ⟨_, hret, rfl⟩⟩
    · rw [if_neg hfit, if_neg hfit]
      rfl

end Checked

/-! ## Where the count crosses the end of the buffer -/

namespace Disk

/-- The number of inodes in a block that `makeINodesBlock` finds free. -/
def freeIn (d : Disk) (b : Nat) : Nat := (makeINodesBlock (d.blocks b)).countP (·.type = .free)

/-- The number of free inodes that the blocks from `lo` up to `hi` contribute. -/
def freeBetween (d : Disk) (lo hi : Nat) : Nat := ∑ b ∈ Finset.Ico lo hi, d.freeIn b

section Counts

variable (d : Disk)

/-- As many numbers are taken from a block as it has free inodes. -/
theorem length_getFromBlock (b : Nat) :
    (getFromBlock (makeINodesBlock (d.blocks b))).length = d.freeIn b := by
  rw [getFromBlock, List.length_map, freeIn, List.countP_eq_length_filter]

@[simp] theorem freeBetween_sized (lo hi : Nat) : d.sized.freeBetween lo hi = d.freeBetween lo hi :=
  rfl

theorem freeBetween_self (lo : Nat) : d.freeBetween lo lo = 0 := by simp [freeBetween]

/-- The first block of the range comes first. -/
theorem freeBetween_cons {lo hi : Nat} (h : lo < hi) :
    d.freeBetween lo hi = d.freeIn lo + d.freeBetween (lo + 1) hi :=
  Finset.sum_eq_sum_Ico_succ_bot h d.freeIn

/-- What is collected fits exactly if no block makes the count jump over 512. -/
theorem length_collectINodes_le_iff (hcap : dataRegionStart ≤ d.backend.capacity) (k : Nat) :
    ∀ (lo : Nat) (l : List Nat), lo + k = 16388 → l.length ≤ 512 →
      ((d.collectINodes k l).length ≤ 512 ↔ ∀ b, lo ≤ b → b < 16388 →
        l.length + d.freeBetween lo b < 512 → l.length + d.freeBetween lo (b + 1) ≤ 512) := by
  induction k with
  | zero =>
      intro lo l hlo hl
      refine iff_of_true hl fun b h1 h2 => ?_
      omega
  | succ k ih =>
      intro lo l hlo hl
      by_cases hlt : l.length < 512
      · have hload : d.load lo d.backend.junk = d.blocks lo :=
          d.load_of_lt (by simp at hcap; omega) _
        have hcollect : d.collectINodes (k + 1) l = d.collectINodes k
            (l ++ getFromBlock (makeINodesBlock (d.blocks lo))) := by
          rw [collectINodes, if_pos hlt]
          simp only [inodeBlocksHead, numOfInodeBlocks]
          rw [show 4 + 16384 - (k + 1) = lo by omega, hload]
        have hlen : (l ++ getFromBlock (makeINodesBlock (d.blocks lo))).length =
            l.length + d.freeIn lo := by rw [List.length_append, length_getFromBlock]
        have hfirst : d.freeBetween lo (lo + 1) = d.freeIn lo := by
          rw [freeBetween_cons _ (by omega), freeBetween_self, Nat.add_zero]
        rw [hcollect]
        by_cases hfit : l.length + d.freeIn lo ≤ 512
        · rw [ih (lo + 1) _ (by omega) (by omega), hlen]
          constructor
          · intro h b h1 h2 hb
            by_cases hbl : b = lo
            · rw [hbl, hfirst]
              exact hfit
            · rw [freeBetween_cons _ (by omega)] at hb ⊢
              have := h b (by omega) h2 (by omega)
              omega
          · intro h b h1 h2 hb
            have hb' := h b (by omega) h2 (by rw [freeBetween_cons _ (by omega)]; omega)
            rw [freeBetween_cons _ (by omega)] at hb'
            omega
        · -- the loop stops behind this block, with too many numbers
          have hstop : d.collectINodes k (l ++ getFromBlock (makeINodesBlock (d.blocks lo))) =
              l ++ getFromBlock (makeINodesBlock (d.blocks lo)) := by
            cases k with
            | zero => rfl
            | succ k => rw [collectINodes, if_neg (by rw [hlen]; simp; omega)]
          rw [hstop, hlen]
          refine iff_of_false hfit fun h => hfit ?_
          have := h lo (by omega) (by omega) (by rw [freeBetween_self]; omega)
          rwa [hfirst] at this
      · have hcollect : d.collectINodes (k + 1) l = l := by rw [collectINodes, if_neg hlt]
        rw [hcollect]
        exact iff_of_true hl fun b _ _ hb => by omega

end Counts

/-- The scan terminates without a store behind the buffer, reading only blocks of
the inode table. -/
def ScanSafe (d : Disk) (startINodeNum : Nat) (iNodeNums : INodeListBlock) : Prop :=
  (∀ b ∈ (Checked.searchINodes d startINodeNum iNodeNums).1,
    inodeBlocksHead ≤ b ∧ b < inodeBlocksHead + numOfInodeBlocks) ∧
  ∃ r, (Checked.searchINodes d startINodeNum iNodeNums).2 = .ok r

/-- The scan is safe exactly if no block that is begun with room in the list has more free inodes
than that room. -/
theorem scanSafe_iff {d : Disk} (hcap : dataRegionStart ≤ d.backend.capacity) {start : Nat}
    (h1 : 1 ≤ start) (h2 : start < numOfInodes) (buf : INodeListBlock) :
    d.ScanSafe start buf ↔ ∀ b, start / inodesPerBlock + inodeBlocksHead ≤ b →
      b < inodeBlocksHead + numOfInodeBlocks →
      d.freeBetween (start / inodesPerBlock + inodeBlocksHead) b < inodeNosPerBlock →
      d.freeBetween (start / inodesPerBlock + inodeBlocksHead) (b + 1) ≤ inodeNosPerBlock := by
  obtain ⟨hreads, hresult⟩ := Checked.searchINodes_eq d buf h1 h2
  have hcount := d.length_collectINodes_le_iff hcap (16384 - start / 4) (start / 4 + 4) []
    (by simp at h2; omega) (by simp)
  simp only [List.length_nil, Nat.zero_add] at hcount
  unfold ScanSafe
  rw [hresult]
  simp only [inodesPerBlock, inodeBlocksHead, numOfInodeBlocks, inodeNosPerBlock]
  refine Iff.trans ⟨fun h => ?_, fun h => ⟨hreads, _, if_pos h⟩⟩ hcount
  by_contra hcon
  obtain ⟨r, hr⟩ := h.2
  rw [if_neg hcon] at hr
  cases hr

/-- **The scan for free inodes stays within its buffer** exactly if no block of
the table takes the count of free inodes from below 512 to above 512. -/
theorem scan_within_buffer_iff (d : Disk) {startINodeNum : Nat} (h1 : 1 ≤ startINodeNum)
    (h2 : startINodeNum < numOfInodes) (iNodeNums : INodeListBlock) :
    d.sized.ScanSafe startINodeNum iNodeNums ↔
      ∀ b, startINodeNum / inodesPerBlock + inodeBlocksHead ≤ b →
        b < inodeBlocksHead + numOfInodeBlocks →
        d.freeBetween (startINodeNum / inodesPerBlock + inodeBlocksHead) b < inodeNosPerBlock →
        d.freeBetween (startINodeNum / inodesPerBlock + inodeBlocksHead) (b + 1) ≤
          inodeNosPerBlock :=
  scanSafe_iff d.le_capacity_sized h1 h2 iNodeNums

/-! ## The scan of a new file system -/

/-- What decides that a position of a padded block counts as free: the type of
the first inode, the padding behind it, and block numbers of the next two. -/
theorem countP_makeINodesBlock {b : DiskBlock} (hpad : Padded b)
    (h10 : (INode.decode b 256).dataBlockNums.peek 10 = 0)
    (h0 : (INode.decode b 512).dataBlockNums.peek 0 = 0) :
    (makeINodesBlock b).countP (·.type = .free) =
      if (INode.decode b 0).type = .free then 4 else 3 := by
  have hlist : makeINodesBlock b =
      [INode.decode b 0, INode.decode b 176, INode.decode b 352, INode.decode b 528] := rfl
  have t1 : (INode.decode b 176).type = .free := by
    apply INode.ofCode_eq_free.mpr
    apply INode.readNat_eq_zero_iff.mpr
    intro j hj
    have := hpad 0 (by omega) (176 + 48 + j) (by omega) (by omega)
    rwa [Nat.zero_mul, Nat.zero_add] at this
  have t2 : (INode.decode b 352).type = .free := by
    apply INode.ofCode_eq_free.mpr
    apply INode.readNat_eq_zero_iff.mpr
    intro j hj
    rw [INode.decode, Buffer.peek_readNumbers _ _ _ (by decide)] at h10
    exact INode.readNat_eq_zero_iff.mp h10 j (by omega)
  have t3 : (INode.decode b 528).type = .free := by
    apply INode.ofCode_eq_free.mpr
    apply INode.readNat_eq_zero_iff.mpr
    intro j hj
    rw [INode.decode, Buffer.peek_readNumbers _ _ _ (by decide)] at h0
    exact INode.readNat_eq_zero_iff.mp h0 j (by omega)
  rw [hlist]
  by_cases t0 : (INode.decode b 0).type = .free
  · simp [t0, t1, t2, t3]
  · simp [t0, t1, t2, t3]

/-- After formatting the inode blocks are padded with zeros. -/
theorem padded_makeFileSystem (d : Disk) {k : Nat} (hk : k < 16384) :
    Padded (d.makeFileSystem.blocks (4 + k)) := by
  have hcap := d.le_capacity_sized
  have hnew : Padded ((d.sized.createINodes 4 16384).blocks (4 + k)) := by
    rw [blocks_createINodes _ _ _ (by simp at hcap; omega), if_pos (by omega)]
    exact padded_populateINodesIn _
  rw [blocks_makeFileSystem _ (by omega) (by omega), withINodes, blocks_store_of_ne _ (by omega),
    assignRootData]
  apply Padded.writeDiskInode (by simpa using hcap)
  rwa [blocks_blockAlloc_of_ne _ (by omega)]

/-- A block whose last three inodes are new. -/
theorem freeIn_of_new {d : Disk} {k : Nat} (hpad : Padded (d.blocks (4 + k)))
    (hnew : ∀ i, 1 ≤ i → i < 4 → d.diskINode (4 * k + i) = initializeINode (4 * k + i)) :
    d.freeIn (4 + k) = if (d.diskINode (4 * k)).type = .free then 4 else 3 := by
  have hcell : ∀ i < 4, INode.decode (d.blocks (4 + k)) (i * 256) = d.diskINode (4 * k + i) := by
    intro i hi
    simp only [diskINode, inodesPerBlock, inodeBlocksHead, inodeSize]
    rw [show (4 * k + i) / 4 + 4 = 4 + k by omega, show (4 * k + i) % 4 = i by omega]
  have hzero : ∀ i, 1 ≤ i → i < 4 → ∀ j < 13,
      (INode.decode (d.blocks (4 + k)) (i * 256)).dataBlockNums.peek j = 0 := by
    intro i hlo hi j hj
    rw [hcell i hi, hnew i hlo hi, initializeINode, Buffer.peek_tabulate, if_pos hj]
  have hfirst := hcell 0 (by omega)
  rw [Nat.zero_mul, Nat.add_zero] at hfirst
  rw [freeIn, countP_makeINodesBlock hpad (hzero 1 (by omega) (by omega) 10 (by omega))
    (hzero 2 (by omega) (by omega) 0 (by omega)), hfirst]

/-- In a new table every position counts as free, except the root. -/
theorem freeIn_makeFileSystem (d : Disk) {k : Nat} (hk : k < 16384) :
    d.makeFileSystem.freeIn (4 + k) = if k = 0 then 3 else 4 := by
  rw [freeIn_of_new (padded_makeFileSystem d hk) fun i hlo hi =>
    diskINode_makeFileSystem d (by omega) (by omega)]
  by_cases hk0 : k = 0
  · obtain ⟨stale, hroot⟩ := d.diskINode_makeFileSystem_root
    rw [if_pos hk0, hk0, Nat.mul_zero, hroot, if_neg (by simp)]
  · rw [if_neg hk0, diskINode_makeFileSystem d (by omega) (by omega)]
    rfl

/-- After formatting all inodes but the root are free. -/
theorem freeBetween_makeFileSystem (d : Disk) (k : Nat) (hk : k ≤ 16383) :
    d.makeFileSystem.freeBetween 4 (5 + k) = 3 + 4 * k := by
  induction k with
  | zero =>
      have h := d.freeIn_makeFileSystem (k := 0) (by omega)
      rw [freeBetween_cons _ (by omega), freeBetween_self]
      simpa using h
  | succ k ih =>
      have h := d.freeIn_makeFileSystem (k := k + 1) (by omega)
      rw [if_neg (by omega)] at h
      rw [freeBetween, show 5 + (k + 1) = 5 + k + 1 by omega,
        Finset.sum_Ico_succ_top (by omega), ← freeBetween, ih (by omega),
        show 5 + k = 4 + (k + 1) by omega, h]
      omega

/-- A scan from the first block stores three numbers behind the buffer, if that
block adds three to the count and all others four. -/
theorem not_scanSafe {d : Disk} (h : ∀ k ≤ 16383, d.freeBetween 4 (5 + k) = 3 + 4 * k)
    (buf : INodeListBlock) : ¬ d.sized.ScanSafe 1 buf := by
  intro hsafe
  rw [scanSafe_iff d.le_capacity_sized (by omega) (by decide)] at hsafe
  have hstart : 1 / inodesPerBlock + inodeBlocksHead = 4 := rfl
  have hjump := hsafe (5 + 127) (by simp) (by simp)
  simp only [freeBetween_sized, inodeNosPerBlock, hstart] at hjump
  rw [h 127 (by omega), show 5 + 127 + 1 = 5 + 128 by omega, h 128 (by omega)] at hjump
  omega

/-- On a table of zeros every block adds four, and the count meets 512 exactly. -/
theorem scan_within_buffer_blank : ∃ (d : Disk) (buf : INodeListBlock),
    d.sized.ScanSafe 1 buf := by
  refine ⟨⟨⟨true, 0, by decide, .tabulate fun _ => 0⟩, fun _ => .tabulate fun _ => 0, []⟩,
    .tabulate fun _ => 0, ?_⟩
  refine (scan_within_buffer_iff _ (by omega) (by decide) _).mpr fun b _ _ => ?_
  have hfree : ∀ b', freeIn ⟨⟨true, 0, by decide, .tabulate fun _ => 0⟩,
      fun _ => .tabulate fun _ => 0, []⟩ b' = 4 := by
    intro b'
    have hzero : ∀ base, base + 176 ≤ 1024 →
        INode.decode (.tabulate fun _ => 0 : DiskBlock) base = INode.blank := by
      intro base hbase
      refine INode.decode_eq_blank_iff.mpr fun j hj => ?_
      rw [Buffer.peek_tabulate, if_pos (by simp; omega)]
    rw [freeIn, countP_makeINodesBlock]
    · rw [hzero 0 (by omega)]
      rfl
    · intro i hi j _ hj
      rw [Buffer.peek_tabulate, if_pos (by simp; omega)]
    · rw [hzero 256 (by omega)]
      rfl
    · rw [hzero 512 (by omega)]
      rfl
  simp only [freeBetween, hfree, Finset.sum_const, Nat.card_Ico, inodeNosPerBlock, inodesPerBlock,
    inodeBlocksHead, Nat.nsmul_eq_mul]
  omega

/-- The table that `mkfs` writes, scanned from inode 1. -/
theorem scan_past_buffer : ¬ ∀ (d : Disk) (startINodeNum : Nat) (iNodeNums : INodeListBlock),
    1 ≤ startINodeNum → startINodeNum < numOfInodes → d.sized.ScanSafe startINodeNum iNodeNums := by
  intro h
  exact not_scanSafe (freeBetween_makeFileSystem
    ⟨⟨true, 0, by decide, .tabulate fun _ => 0⟩, fun _ => .tabulate fun _ => 0, []⟩)
    (.tabulate fun _ => 0) (h _ 1 _ (by omega) (by decide))

end Disk

end Naofs
