import Naofs.Append

/-!
# Naofs.Contents

The bytes of a file.

`byteAt` is byte `i` of a file, in the data block of its index.  A copy into one data
block changes the bytes it covers and no others (`byteAt_copyIn`), and `bmap` at the
end of the file changes none (`byteAt_of_same`).
-/

namespace Naofs

namespace Disk

/-- Byte `i` of a file. -/
def byteAt (d : Disk) (nums : Buffer Nat blocksInInode) (i : Nat) : UInt8 :=
  (d.blocks (d.fileBlock nums (i / blockSize))).peek (i % blockSize)

/-- The file of `size` bytes on `d'` is the one on `d` with the `len` bytes of `src` at
`off`. -/
def Overwritten (d d' : Disk) (nums nums' : Buffer Nat blocksInInode) (size off len : Nat)
    (src : Nat → UInt8) : Prop :=
  ∀ i < size, d'.byteAt nums' i =
    if off ≤ i ∧ i < off + len then src (i - off) else d.byteAt nums i

section Bytes

variable {d d' : Disk} {nums nums' : Buffer Nat blocksInInode} {n q : Nat}

/-- Different indices have different data blocks. -/
theorem fileBlock_injective (hown : Own d.backend (d.fileBlocks nums n)) {j k : Nat} (hj : j < n)
    (hk : k < n) (h : d.fileBlock nums j = d.fileBlock nums k) : j = k := by
  have hnodup := hown.nodup
  rw [fileBlocks] at hnodup
  exact List.inj_on_of_nodup_map (List.nodup_append.mp hnodup).1 (List.mem_range.mpr hj)
    (List.mem_range.mpr hk) h

/-- The bytes of data blocks that keep their places and their contents. -/
theorem byteAt_of_same {i : Nat} (hblock : d'.fileBlock nums' (i / 1024) = d.fileBlock nums (i / 1024))
    (hblocks : d'.blocks (d.fileBlock nums (i / 1024)) = d.blocks (d.fileBlock nums (i / 1024))) :
    d'.byteAt nums' i = d.byteAt nums i := by
  simp only [byteAt, blockSize, hblock, hblocks]

/-- Writing a data block does not move the others. -/
theorem fileBlock_store (hown : Own d.backend (d.fileBlocks nums n)) (hn : n ≤ maxBlocks)
    (hq : q < n) (v : DiskBlock) {k : Nat} (hk : k < n) :
    (d.store (d.fileBlock nums q) v).fileBlock nums k = d.fileBlock nums k := by
  refine fileBlock_frame hk hn fun b hb => blocks_store_of_ne _ ?_ _
  rintro rfl
  exact fileBlock_notMem hown hq hb

/-- A copy of `len` bytes into a data block at `off`. -/
theorem byteAt_copyIn (hown : Own d.backend (d.fileBlocks nums n)) (hn : n ≤ maxBlocks) (hq : q < n)
    {off len : Nat} (hlen : off + len ≤ 1024) (src : Nat → UInt8) {i : Nat} (hi : i / 1024 < n) :
    (d.store (d.fileBlock nums q)
        ((d.load (d.fileBlock nums q) d.backend.junk).copyIn off len src)).byteAt nums i =
      if 1024 * q + off ≤ i ∧ i < 1024 * q + off + len then src (i - (1024 * q + off))
      else d.byteAt nums i := by
  have hcap : d.fileBlock nums q < d.backend.capacity := (hown.data _ (mem_fileBlocks hq)).2.2
  simp only [byteAt, blockSize]
  rw [fileBlock_store hown hn hq _ hi]
  by_cases hqi : i / 1024 = q
  · rw [hqi, blocks_store_self _ hcap, Buffer.peek_copyIn, d.load_of_lt hcap]
    by_cases hin : off ≤ i % 1024 ∧ i % 1024 < off + len
    · rw [if_pos ⟨hin.1, hin.2, by omega⟩, if_pos (by omega),
        show i % 1024 - off = i - (1024 * q + off) by omega]
    · rw [if_neg (fun h => hin ⟨h.1, h.2.1⟩), if_neg (by omega)]
  · rw [blocks_store_of_ne _ (fun h => hqi (fileBlock_injective hown hi hq h)), if_neg (by omega)]

/-- Two writes, the second behind the first one. -/
theorem Overwritten.trans {d'' : Disk} {nums'' : Buffer Nat blocksInInode} {size size' off len len' : Nat}
    {src : Nat → UInt8} (h : Overwritten d d' nums nums' size off len src)
    (h' : Overwritten d' d'' nums' nums'' size' (off + len) len' fun i => src (len + i))
    (hle : ∀ i < size', i < size ∨ off + len ≤ i ∧ i < off + len + len') :
    Overwritten d d'' nums nums'' size' off (len + len') src := by
  intro i hi
  rw [h' i hi]
  by_cases h2 : off + len ≤ i ∧ i < off + len + len'
  · rw [if_pos h2, if_pos (by omega)]
    exact congrArg src (by omega)
  · rw [if_neg h2, h i ((hle i hi).resolve_right h2)]
    by_cases h1 : off ≤ i ∧ i < off + len
    · rw [if_pos h1, if_pos (by omega)]
    · rw [if_neg h1, if_neg (by omega)]

/-- Byte `i` of a file as `bmap` and `getDiskBlock` find it; `none` past its end. -/
def readByte (d : Disk) (iNode : InCoreINode) (i : Nat) : Except Fault (Option UInt8) := do
  let (error, response, _, d) ← d.bmap iNode i ⟨0, 0, 0⟩ .read
  if error = 0 then
    .ok (some ((d.load response.blockNumber d.backend.junk).peek response.byteOffsetInBlock))
  else .ok none

/-- In a well-formed file `bmap` finds the bytes of its data blocks. -/
theorem readByte_eq {x : InCoreINode}
    (hown : Own d.backend (d.fileBlocks x.dataBlockNums (blockCount x.size)))
    (hmax : blockCount x.size ≤ maxBlocks) (i : Nat) :
    d.readByte x i = .ok (if i < x.size then some (d.byteAt x.dataBlockNums i) else none) := by
  by_cases hi : i < x.size
  · have hq : i / 1024 < blockCount x.size := by
      unfold blockCount
      omega
    have hbmap : d.bmap x i ⟨0, 0, 0⟩ .read =
        .ok (0, createBMapResponse (d.fileBlock x.dataBlockNums (i / 1024)) (i % 1024), x, d) :=
      bmap_inside (.inl hi) hmax fun b hb => (hown.data b (indirectBlocks_subset hb)).2.2
    rw [readByte, hbmap, if_pos hi]
    simp only [bind, Except.bind, createBMapResponse, if_pos, byteAt, blockSize]
    rw [d.load_of_lt (hown.data _ (mem_fileBlocks hq)).2.2]
  · have hbmap : d.bmap x i ⟨0, 0, 0⟩ .read = .ok (-1, ⟨0, 0, 0⟩, x, d) := by
      rw [bmap, if_pos ⟨by omega, .inl rfl⟩]
    rw [readByte, hbmap, if_neg hi]
    rfl

end Bytes

end Disk

end Naofs
