import Naofs.FileOps
import Naofs.Mkfs

/-!
# Naofs.Supply

Writing to a file while the free list can supply the blocks.

`Uses x d y d' l k` says that the way from the inode `x` on the disk `d` to `y` on
`d'` took the first `k` blocks of the free list `l`, gave none of them to anything
but the file, and wrote no block but these, those of the file and the free list.
The number `k` is computed beforehand, from the size of the file, the offset and the
number of bytes: `growNeeds` for a file that grows, `writeNeeds` for `writeToFile`,
which can also shorten a file and then allocates again what it had.
-/

namespace Naofs

namespace Disk

open InCoreINode (wrapSize toCInt)

/-! ## Using up the free list -/

structure Uses (x : InCoreINode) (d : Disk) (y : InCoreINode) (d' : Disk) (l : List Nat) (k : Nat) :
    Prop where
  touched : x.Touched y
  backend : d'.backend = d.backend
  allocates : Allocates d d' (l.take k)
  free : FreeBlocks d' (l.drop k)
  owned : ∀ b, (d'.fileBlocks y.dataBlockNums (blockCount y.size)).count b ≤
    (l.take k ++ d.fileBlocks x.dataBlockNums (blockCount x.size)).count b
  frame : ∀ b, b ≠ 2 → b ∉ l.take k ++ d.fileBlocks x.dataBlockNums (blockCount x.size) →
    d'.blocks b = d.blocks b

section Uses

variable {d d' d'' : Disk} {x y z : InCoreINode} {l : List Nat} {k k' : Nat}

theorem count_take_add_drop (l : List Nat) (k b : Nat) :
    (l.take k).count b + (l.drop k).count b = l.count b := by
  rw [← List.count_append, List.take_append_drop]

theorem Uses.refl (x : InCoreINode) (hfree : FreeBlocks d l) : Uses x d x d l 0 where
  touched := .refl x
  backend := rfl
  allocates := by
    rw [List.take_zero]
    exact .refl d
  free := by rwa [List.drop_zero]
  owned := fun b => by rw [List.take_zero, List.nil_append]
  frame := fun _ _ _ => rfl

/-- What is left of the free list and the file are still apart. -/
theorem Uses.own (h : Uses x d y d' l k)
    (hown : Own d.backend (l ++ d.fileBlocks x.dataBlockNums (blockCount x.size))) :
    Own d'.backend (l.drop k ++ d'.fileBlocks y.dataBlockNums (blockCount y.size)) := by
  rw [h.backend]
  refine hown.mono fun b => ?_
  have h1 := h.owned b
  have h2 := count_take_add_drop l k b
  simp only [List.count_append] at *
  omega

/-- First some blocks are used, and then others. -/
theorem Uses.trans (h : Uses x d y d' l k) (h' : Uses y d' z d'' (l.drop k) k') :
    Uses x d z d'' l (k + k') := by
  have htake : l.take (k + k') = l.take k ++ (l.drop k).take k' := List.take_add
  refine ⟨h.touched.trans h'.touched, h'.backend.trans h.backend, ?_, ?_, fun b => ?_,
    fun b hb2 hb => ?_⟩
  · rw [htake]
    exact h.allocates.trans h'.allocates
  · rw [← List.drop_drop]
    exact h'.free
  · have h1 := h.owned b
    have h2 := h'.owned b
    rw [htake]
    simp only [List.count_append] at *
    omega
  · rw [htake] at hb
    simp only [List.mem_append, not_or] at hb
    have hyb : b ∉ d'.fileBlocks y.dataBlockNums (blockCount y.size) := by
      intro hcon
      have h1 := h.owned b
      have h2 := List.count_pos_iff.mpr hcon
      have h3 : 0 < (l.take k ++ d.fileBlocks x.dataBlockNums (blockCount x.size)).count b := by omega
      rcases List.mem_append.mp (List.count_pos_iff.mp h3) with h4 | h4
      · exact hb.1.1 h4
      · exact hb.2 h4
    rw [h'.frame b hb2, h.frame b hb2]
    · simp [hb.1.1, hb.2]
    · simp [hb.1.2, hyb]

/-- A round at the end of the file that writes `k` bytes. -/
theorem uses_end {n : Nat} (resp : BmapResponse) (now : UInt64) (hk : 0 < n)
    (hk' : n ≤ 1024 - x.size % 1024) (hx : x.size + n ≤ maxFileSize)
    (hcap : 2 < d.backend.capacity) (hfree : FreeBlocks d l)
    (hown : Own d.backend (l ++ d.fileBlocks x.dataBlockNums (blockCount x.size)))
    (hlen : endNeeds x.size ≤ l.length) :
    ∃ blk y d₁, d.bmap x x.size resp .append =
        .ok (0, createBMapResponse blk (x.size % 1024), y, d₁) ∧
      y.size = x.size ∧ y.linksCount = x.linksCount ∧
      (y.updateINodeMetadata now (toCInt n) y.linksCount).size = x.size + n ∧
      (∀ v, Uses x d (y.updateINodeMetadata now (toCInt n) y.linksCount) (d₁.store blk v) l
        (endNeeds x.size)) ∧
      ∀ src, Overwritten d
        (d₁.store blk ((d₁.load blk d₁.backend.junk).copyIn (x.size % 1024) n src))
        x.dataBlockNums (y.updateINodeMetadata now (toCInt n) y.linksCount).dataBlockNums
        (x.size + n) x.size n src := by
  simp only [maxFileSize] at hx
  obtain ⟨blk, y, d₁, heq, hsize, htouch, hback, halloc, hv, hbytes⟩ :=
    grow_round_freeBlocks resp (by simp; omega) hcap hfree hown hlen
  have hsz := y.size_updateINodeMetadata now (k := n) (by omega) (by omega)
  rw [hsize] at hsz
  refine ⟨blk, y, d₁, heq, hsize, htouch.links, hsz, fun v => ?_, fun src => ?_⟩
  · obtain ⟨hfree', hext⟩ := hv v
    refine ⟨htouch.trans (y.touched_updateINodeMetadata now _), by simpa using hback, ?_, hfree',
      fun b => ?_, hext.frame⟩
    · simpa [Allocates] using halloc
    · rw [hsz, blockCount_add hk hk', InCoreINode.dataBlockNums_updateINodeMetadata]
      exact (hext.blocks.count_eq b).le
  · rw [InCoreINode.dataBlockNums_updateINodeMetadata]
    exact hbytes n src (by omega)

/-- The first block of a file. -/
theorem fileBlocks_one (d : Disk) (nums : Buffer Nat blocksInInode) :
    d.fileBlocks nums 1 = [d.fileBlock nums 0] := by
  rw [fileBlocks, indirectBlocks_direct d nums (by omega), List.append_nil]
  rfl

theorem blockCount_of_le {n : Nat} (h0 : 0 < n) (h : n ≤ 1024) : blockCount n = 1 := by
  unfold blockCount
  omega

/-- A round inside the file; the size may have changed within the blocks, or to one
block. -/
theorem uses_inside {offset : Nat} (resp : BmapResponse) (hoff : offset < x.size)
    (hx : x.size ≤ maxFileSize) (hfree : FreeBlocks d l)
    (hown : Own d.backend (l ++ d.fileBlocks x.dataBlockNums (blockCount x.size))) :
    d.bmap x offset resp .append =
        .ok (0, createBMapResponse (d.fileBlock x.dataBlockNums (offset / 1024)) (offset % 1024),
          x, d) ∧
      ∀ v y, x.Touched y → y.dataBlockNums = x.dataBlockNums →
        (blockCount y.size = blockCount x.size ∨ blockCount y.size = 1) →
        Uses x d y (d.store (d.fileBlock x.dataBlockNums (offset / 1024)) v) l 0 := by
  simp only [maxFileSize] at hx
  have hn : blockCount x.size ≤ maxBlocks := by
    simp only [maxBlocks, blockCount]
    omega
  have hq : offset / 1024 < blockCount x.size := by
    unfold blockCount
    omega
  have hmem : d.fileBlock x.dataBlockNums (offset / 1024) ∈
      d.fileBlocks x.dataBlockNums (blockCount x.size) := mem_fileBlocks hq
  have hfile : Own d.backend (d.fileBlocks x.dataBlockNums (blockCount x.size)) :=
    hown.mono fun b => by
      rw [List.count_append]
      omega
  refine ⟨bmap_inside (.inl hoff) hn fun b hb => (hfile.data b (indirectBlocks_subset hb)).2.2,
    fun v y htouch hnums hcount => ?_⟩
  obtain ⟨blk, hblk⟩ : ∃ blk, blk = d.fileBlock x.dataBlockNums (offset / 1024) := ⟨_, rfl⟩
  rw [← hblk] at hmem ⊢
  have hsame : ∀ b ∈ d.indirectBlocks x.dataBlockNums (blockCount x.size),
      (d.store blk v).blocks b = d.blocks b := by
    intro b hb
    refine blocks_store_of_ne _ ?_ _
    rintro rfl
    exact fileBlock_notMem hfile hq (hblk ▸ hb)
  have hblk2 : blk ≠ 2 := (hfile.data blk hmem).2.1
  refine ⟨htouch, by simp, ?_, ?_, fun b => ?_, fun b hb2 hb => ?_⟩
  · rw [List.take_zero]
    simp [Allocates]
  · rw [List.drop_zero]
    refine hfree.frame (by simp) (blocks_store_of_ne _ hblk2.symm _) fun b hb =>
      blocks_store_of_ne _ ?_ _
    rintro rfl
    exact (List.nodup_append.mp hown.nodup).2.2 b hb b hmem rfl
  · rw [List.take_zero, List.nil_append, hnums]
    rcases hcount with hcount | hcount
    · rw [hcount, fileBlocks_frame hn hsame]
    · -- a single block, which the file had before
      rw [hcount, fileBlocks_one, fileBlock_frame (show 0 < blockCount x.size by omega) hn hsame,
        fileBlocks, List.count_append]
      have : [d.fileBlock x.dataBlockNums 0].count b ≤
          ((List.range (blockCount x.size)).map (d.fileBlock x.dataBlockNums)).count b := by
        refine List.Sublist.count_le b ?_
        rw [List.singleton_sublist]
        exact List.mem_map_of_mem (List.mem_range.mpr (by omega))
      omega
  · refine blocks_store_of_ne _ ?_ _
    rintro rfl
    exact hb (List.mem_append_right _ hmem)

end Uses

/-! ## Growing -/

/-- The blocks needed to add `left` bytes to a file of `size` bytes: for each round,
those that `bmap` asks for. -/
def growNeeds : (fuel : Nat) → (size left : Nat) → Nat
  | 0, _, _ => 0
  | fuel + 1, size, left =>
      if 0 < left then
        let k := min (1024 - size % 1024) left
        endNeeds size + growNeeds fuel (size + k) (left - k)
      else 0

/-- `increaseFileSizeBy` from a counter on. -/
theorem increaseLoop_uses (now : UInt64) (size : Nat) : ∀ (fuel : Nat) (x : InCoreINode)
    (d : Disk) (bytesWritten : Nat) (resp : BmapResponse) (l : List Nat),
    size - bytesWritten < fuel → x.size + (size - bytesWritten) ≤ maxFileSize →
    2 < d.backend.capacity → FreeBlocks d l →
    Own d.backend (l ++ d.fileBlocks x.dataBlockNums (blockCount x.size)) →
    growNeeds fuel x.size (size - bytesWritten) ≤ l.length →
    ∃ y d', increaseLoop now size fuel x d x.size bytesWritten resp = .ok (y, d') ∧
      y.size = x.size + (size - bytesWritten) ∧
      Uses x d y d' l (growNeeds fuel x.size (size - bytesWritten)) ∧
      Overwritten d d' x.dataBlockNums y.dataBlockNums (x.size + (size - bytesWritten)) x.size
        (size - bytesWritten) fun _ => 0 := by
  intro fuel
  induction fuel with
  | zero => omega
  | succ fuel ih =>
      intro x d bw resp l hfuel hmax hcap hfree hown hlen
      by_cases hlt : bw < size
      · obtain ⟨k, hkdef⟩ : ∃ k, k = min (1024 - x.size % 1024) (size - bw) := ⟨_, rfl⟩
        rw [growNeeds, if_pos (by omega), ← hkdef] at hlen ⊢
        dsimp only at hlen ⊢
        simp only [maxFileSize] at hmax
        obtain ⟨blk, y, d₁, heq, hsize, -, hsz, huses, hbytes⟩ := uses_end (n := k) resp now
          (by omega) (by omega) (by simp; omega) hcap hfree hown (by omega)
        have h1 := huses ((d₁.load blk d₁.backend.junk).copyIn (x.size % 1024) k fun _ => 0)
        obtain ⟨z, d', hrun, hzs, h2, hbytes'⟩ := ih
          (y.updateINodeMetadata now (toCInt k) y.linksCount)
          (d₁.writeNullBytes blk (x.size % 1024) k) (bw + k)
          (createBMapResponse blk (x.size % 1024)) (l.drop (endNeeds x.size)) (by omega)
          (by rw [hsz]; simp; omega) (h1.backend ▸ hcap) h1.free (h1.own hown)
          (by rw [hsz, List.length_drop, show size - (bw + k) = size - bw - k by omega]; omega)
        rw [hsz, show size - (bw + k) = size - bw - k by omega] at h2 hbytes'
        have hall := (hbytes fun _ => 0).trans hbytes' fun i hi => by omega
        rw [show k + (size - bw - k) = size - bw by omega,
          show x.size + k + (size - bw - k) = x.size + (size - bw) by omega] at hall
        refine ⟨z, d', ?_, by omega, h1.trans h2, hall⟩
        have hoff : wrapSize ((x.size : Int) + k) =
            (y.updateINodeMetadata now (toCInt k) y.linksCount).size := by
          rw [hsz, ← Int.natCast_add, InCoreINode.wrapSize_natCast (by omega)]
        simp only [increaseLoop, if_pos hlt, heq, bind, Except.bind, createBMapResponse, blockSize,
          ← hkdef]
        rw [hoff]
        exact hrun
      · refine ⟨x, d, ?_, by omega, ?_, fun i hi => ?_⟩
        · rw [increaseLoop, if_neg hlt]
        · rw [growNeeds, if_neg (by omega)]
          exact .refl x hfree
        · rw [if_neg (by omega)]

/-! ## Writing -/

/-- The size of the file after a round of `writeToFile` that wrote `k` of `size`
bytes.  Inside a file that is shorter than the whole write, the size becomes that
of the round. -/
def roundSize (size fileSize offset k : Nat) : Nat :=
  if offset = fileSize then fileSize + k else if fileSize < size then k else fileSize

/-- The number of bytes of a round. -/
def roundBytes (size bytesWritten offset : Nat) : Nat :=
  min (1024 - offset % 1024) (size - bytesWritten)

/-- The blocks needed to write `size` bytes, of which `bytesWritten` are done, at
`offset` in a file of `fileSize` bytes. -/
def writeNeeds (size : Nat) : (fuel : Nat) → (fileSize bytesWritten offset : Nat) → Nat
  | 0, _, _, _ => 0
  | fuel + 1, fileSize, bytesWritten, offset =>
      if bytesWritten < size ∧ offset ≤ fileSize then
        let k := roundBytes size bytesWritten offset
        (if offset = fileSize then endNeeds fileSize else 0) +
          writeNeeds size fuel (roundSize size fileSize offset k) (bytesWritten + k) (offset + k)
      else 0

/-- The number of bytes written in the end, and the size of the file. -/
def writeResult (size : Nat) : (fuel : Nat) → (fileSize bytesWritten offset : Nat) → Nat × Nat
  | 0, fileSize, bytesWritten, _ => (bytesWritten, fileSize)
  | fuel + 1, fileSize, bytesWritten, offset =>
      if bytesWritten < size ∧ offset ≤ fileSize then
        let k := roundBytes size bytesWritten offset
        writeResult size fuel (roundSize size fileSize offset k) (bytesWritten + k) (offset + k)
      else (bytesWritten, fileSize)

/-- The offset is where the file ends or past it, or the file is not shorter than the
whole write. -/
def Steady (size fileSize offset : Nat) : Prop := fileSize ≤ offset ∨ size ≤ fileSize

section Result

variable {size : Nat}

/-- A round writes at least a byte, and no more than the block has left. -/
theorem roundBytes_pos {bw : Nat} (offset : Nat) (h : bw < size) :
    0 < roundBytes size bw offset ∧ roundBytes size bw offset ≤ 1024 - offset % 1024 ∧
      roundBytes size bw offset ≤ size - bw := by
  unfold roundBytes
  omega

/-- After a round, a write is steady. -/
theorem Steady.round {fileSize offset k : Nat} :
    Steady size (roundSize size fileSize offset k) (offset + k) := by
  simp only [Steady, roundSize]
  split_ifs <;> omega

/-- A steady write leaves the size as it is or moves it to the end of what was
written. -/
theorem writeResult_steady (size : Nat) : ∀ (fuel fileSize bw offset : Nat), Steady size fileSize offset →
    bw ≤ (writeResult size fuel fileSize bw offset).1 ∧
      fileSize ≤ (writeResult size fuel fileSize bw offset).2 ∧
      ((writeResult size fuel fileSize bw offset).2 = fileSize ∧
          (fileSize ≤ offset → (writeResult size fuel fileSize bw offset).1 = bw) ∨
        offset ≤ fileSize ∧ (writeResult size fuel fileSize bw offset).2 =
          offset + ((writeResult size fuel fileSize bw offset).1 - bw)) := by
  intro fuel
  induction fuel with
  | zero =>
      exact fun fileSize bw offset _ => ⟨Nat.le_refl _, Nat.le_refl _, .inl ⟨rfl, fun _ => rfl⟩⟩
  | succ fuel ih =>
      intro fileSize bw offset hs
      rw [writeResult]
      split
      · next hgo =>
          obtain ⟨hk0, hk1, hk2⟩ := roundBytes_pos offset hgo.1
          obtain ⟨k, hk⟩ : ∃ k, k = roundBytes size bw offset := ⟨_, rfl⟩
          rw [← hk] at hk0 hk1 hk2 ⊢
          dsimp only
          have ih' := ih (roundSize size fileSize offset k) (bw + k) (offset + k) .round
          generalize writeResult size fuel (roundSize size fileSize offset k) (bw + k)
            (offset + k) = r at ih'
          simp only [Steady, roundSize] at *
          split_ifs at ih' <;> omega
      · exact ⟨Nat.le_refl _, Nat.le_refl _, .inl ⟨rfl, fun _ => rfl⟩⟩

end Result

section Write

variable {s : WriteState} {size bw k : Nat}

/-- The size after a round inside the file.  The difference to it is an `int`. -/
theorem resize_inside (now : UInt64) (hbw : s.bytesWritten = bw) (hle : bw ≤ s.offset)
    (hoff : s.offset < s.iNode.size) (hlt : bw < size) (hsize : size < 2 ^ 63) (hk : k ≤ 1024)
    (hmax : s.iNode.size ≤ maxFileSize)
    (hdiff : s.iNode.size < size → s.iNode.size ≤ 2147483648 + k) :
    s.iNode.Touched (s.resize now size k) ∧
      (s.resize now size k).dataBlockNums = s.iNode.dataBlockNums ∧
      (s.resize now size k).size = roundSize size s.iNode.size s.offset k := by
  simp only [maxFileSize] at hmax
  have h1 : wrapSize ((s.iNode.size : Int) - bw) = s.iNode.size - bw := by
    rw [InCoreINode.wrapSize_of_lt (by omega) (by omega)]
    omega
  have h2 : wrapSize ((size : Int) - bw) = size - bw := by
    rw [InCoreINode.wrapSize_of_lt (by omega) (by omega)]
    omega
  rw [WriteState.resize, roundSize, if_neg (Nat.ne_of_lt hoff), if_neg (Nat.ne_of_lt hoff), hbw, h1,
    h2]
  by_cases hcut : s.iNode.size < size
  · rw [if_pos (by omega), if_pos hcut]
    refine ⟨s.iNode.touched_updateINodeMetadata now _,
      InCoreINode.dataBlockNums_updateINodeMetadata _ _ _ _, ?_⟩
    simp only [InCoreINode.updateINodeMetadata]
    rw [InCoreINode.toCInt_wrapSize (by omega) (by omega),
      InCoreINode.wrapSize_of_lt (by omega) (by omega)]
    omega
  · rw [if_neg (by omega), if_neg hcut]
    exact ⟨.refl _, Eq.refl _, Eq.refl _⟩

/-- One round of `writeToFile`, at the end of the file or inside it. -/
theorem writeLoop_round (now : UInt64) (buf : Nat → UInt8) {l : List Nat}
    (hsize : size < 2 ^ 63) (hk : k = roundBytes size bw s.offset)
    (hbw : s.bytesWritten = bw) (hle : bw ≤ s.offset) (hlt : bw < size)
    (hin : s.offset ≤ s.iNode.size) (hmax : s.iNode.size ≤ maxFileSize)
    (hoffmax : s.offset < maxFileSize)
    (hdiff : s.offset < s.iNode.size → s.iNode.size < size → s.iNode.size ≤ 2147483648 + k)
    (hcap : 2 < s.disk.backend.capacity) (hfree : FreeBlocks s.disk l)
    (hown : Own s.disk.backend
      (l ++ s.disk.fileBlocks s.iNode.dataBlockNums (blockCount s.iNode.size)))
    (hlen : (if s.offset = s.iNode.size then endNeeds s.iNode.size else 0) ≤ l.length) :
    ∃ s', (∀ fuel, writeLoop now buf size (fuel + 1) s = writeLoop now buf size fuel s') ∧
      s'.bytesWritten = toCInt (bw + k : Nat) ∧ s'.offset = s.offset + k ∧
      s'.iNode.size = roundSize size s.iNode.size s.offset k ∧
      Uses s.iNode s.disk s'.iNode s'.disk l
        (if s.offset = s.iNode.size then endNeeds s.iNode.size else 0) ∧
      Overwritten s.disk s'.disk s.iNode.dataBlockNums s'.iNode.dataBlockNums
        (roundSize size s.iNode.size s.offset k) s.offset k fun i => buf (bw + i) := by
  obtain ⟨x, d, resp, bytesWritten, offset, moved⟩ := s
  simp only [maxFileSize, roundBytes] at hk hbw hle hin hmax hoffmax hdiff hcap hfree hown hlen ⊢
  subst hbw
  have hk0 : 0 < k := by omega
  have hk1 : k ≤ 1024 := by omega
  have hk2 : offset % 1024 + k ≤ 1024 := by omega
  have hkend : k ≤ 1024 - offset % 1024 := by omega
  have hkmax : offset + k ≤ maxFileSize := by
    simp only [maxFileSize]
    omega
  have hblocks : blockCount x.size ≤ maxBlocks := by
    simp only [maxBlocks, blockCount]
    omega
  have hlast : ∀ i < x.size, i / 1024 < blockCount x.size := by
    unfold blockCount
    omega
  have hfirst : ∀ i < k, i / 1024 ≤ 0 / 1024 := by omega
  have hwrap : wrapSize (bw : Int) = bw := InCoreINode.wrapSize_natCast (by omega)
  have hrest : wrapSize ((size : Int) - bw) = size - bw := by
    rw [InCoreINode.wrapSize_of_lt (by omega) (by omega)]
    omega
  have hoff : wrapSize ((offset : Int) + k) = offset + k := by
    rw [← Int.natCast_add, InCoreINode.wrapSize_natCast (by omega)]
  obtain ⟨count, hcount⟩ : ∃ count, toCInt ((bw : Int) + k) = count := ⟨_, rfl⟩
  rw [show toCInt (bw + k : Nat) = count by rw [← hcount, Int.natCast_add]]
  by_cases hend : offset = x.size
  · subst hend
    rw [if_pos rfl] at hlen ⊢
    obtain ⟨blk, y, d₁, heq, hys, -, hsz, huses, hbytes⟩ := uses_end resp now hk0 hkend
      hkmax hcap hfree hown hlen
    refine ⟨⟨y.updateINodeMetadata now (toCInt k) y.linksCount,
      d₁.writeToBlock (createBMapResponse blk (x.size % 1024)) (fun i => buf (bw + i)) k,
      createBMapResponse blk (x.size % 1024), count, x.size + k, moved + k⟩,
      fun fuel => ?_, rfl, rfl, ?_, huses _, ?_⟩
    · simp only [writeLoop, hwrap, if_pos hlt, heq, bind, Except.bind, createBMapResponse,
        blockSize, hrest, ← hk, WriteState.resize, hys, hoff, hcount]
      simp
    · rw [roundSize, if_pos rfl, hsz]
    · rw [roundSize, if_pos rfl]
      exact hbytes _
  · have hlt' : offset < x.size := Nat.lt_of_le_of_ne hin hend
    rw [if_neg hend] at hlen ⊢
    obtain ⟨heq, huses⟩ := uses_inside resp hlt' hmax hfree hown
    obtain ⟨blk, hblk⟩ : ∃ blk, blk = d.fileBlock x.dataBlockNums (offset / 1024) := ⟨_, rfl⟩
    rw [← hblk] at heq huses
    obtain ⟨htouch, hnums, hsz⟩ := resize_inside (k := k)
      (s := ⟨x, d, createBMapResponse blk (offset % 1024), bw, offset, moved⟩) now rfl hle hlt' hlt
      hsize hk1 hmax (hdiff hlt')
    refine ⟨⟨WriteState.resize ⟨x, d, createBMapResponse blk (offset % 1024), bw, offset, moved⟩
        now size k,
      d.writeToBlock (createBMapResponse blk (offset % 1024)) (fun i => buf (bw + i)) k,
      createBMapResponse blk (offset % 1024), count, offset + k, moved + k⟩,
      fun fuel => ?_, rfl, rfl, hsz, huses _ _ htouch hnums ?_, ?_⟩
    · simp only [writeLoop, hwrap, if_pos hlt, heq, bind, Except.bind, createBMapResponse,
        blockSize, hrest, ← hk, hoff, hcount]
      simp
    · rw [hsz, roundSize, if_neg hend]
      split
      · exact .inr (blockCount_of_le hk0 hk1)
      · exact .inl rfl
    · intro i hi
      rw [roundSize, if_neg hend] at hi
      have hfile : Own d.backend (d.fileBlocks x.dataBlockNums (blockCount x.size)) :=
        hown.mono fun b => by
          rw [List.count_append]
          omega
      have hi' : i / 1024 < blockCount x.size := by
        split at hi
        · exact Nat.lt_of_le_of_lt (hfirst i hi) (hlast 0 (Nat.zero_lt_of_lt hlt'))
        · exact hlast i hi
      have h := byteAt_copyIn (q := offset / 1024) hfile hblocks (hlast offset hlt') hk2
        (fun i => buf (bw + i)) hi'
      rw [← hblk, Nat.div_add_mod] at h
      rw [hnums]
      exact h

/-- The loop ends when all bytes are written, and when `bmap` refuses the offset. -/
theorem writeLoop_stop (now : UInt64) (buf : Nat → UInt8) {fuel : Nat}
    (hstop : ¬ (wrapSize s.bytesWritten < size ∧ s.offset ≤ s.iNode.size)) :
    writeLoop now buf size (fuel + 1) s = .ok s := by
  rw [writeLoop]
  by_cases hlt : wrapSize s.bytesWritten < size
  · have hoff : s.iNode.size < s.offset := by omega
    have hbmap : s.disk.bmap s.iNode s.offset s.bmapResp .append =
        .ok (-1, s.bmapResp, s.iNode, s.disk) := by
      rw [bmap, if_pos ⟨Nat.le_of_lt hoff, .inr hoff⟩]
    rw [if_pos hlt, hbmap]
    rfl
  · rw [if_neg hlt]

/-- The loop of `writeToFile`. -/
theorem writeLoop_uses (now : UInt64) (buf : Nat → UInt8) (hsize : size < 2147483648) :
    ∀ (fuel bw : Nat) (s : WriteState) (l : List Nat), s.bytesWritten = bw → bw ≤ s.offset →
    size - bw < fuel → s.iNode.size ≤ maxFileSize → s.offset + (size - bw) ≤ maxFileSize →
    2 < s.disk.backend.capacity → FreeBlocks s.disk l →
    Own s.disk.backend (l ++ s.disk.fileBlocks s.iNode.dataBlockNums (blockCount s.iNode.size)) →
    writeNeeds size fuel s.iNode.size bw s.offset ≤ l.length →
    ∃ s', writeLoop now buf size fuel s = .ok s' ∧ s'.iNode.size ≤ maxFileSize ∧
      Uses s.iNode s.disk s'.iNode s'.disk l (writeNeeds size fuel s.iNode.size bw s.offset) ∧
      s'.bytesWritten = (writeResult size fuel s.iNode.size bw s.offset).1 ∧
      s'.iNode.size = (writeResult size fuel s.iNode.size bw s.offset).2 ∧
      (Steady size s.iNode.size s.offset ∨ s.offset = 0 →
        Overwritten s.disk s'.disk s.iNode.dataBlockNums s'.iNode.dataBlockNums s'.iNode.size
          s.offset ((writeResult size fuel s.iNode.size bw s.offset).1 - bw)
          fun i => buf (bw + i)) := by
  intro fuel
  induction fuel with
  | zero => omega
  | succ fuel ih =>
      intro bw s l hbw hle hfuel hmax hoffmax hcap hfree hown hlen
      by_cases hgo : bw < size ∧ s.offset ≤ s.iNode.size
      · obtain ⟨hlt, hin⟩ := hgo
        obtain ⟨k, hk⟩ : ∃ k, k = roundBytes size bw s.offset := ⟨_, rfl⟩
        obtain ⟨hk0, -, hk2⟩ := roundBytes_pos s.offset hlt
        rw [writeNeeds, if_pos ⟨hlt, hin⟩, ← hk] at hlen
        simp only [writeNeeds, writeResult, if_pos (show bw < size ∧ s.offset ≤ s.iNode.size from
          ⟨hlt, hin⟩), ← hk]
        rw [← hk] at hk0 hk2
        dsimp only at hlen ⊢
        obtain ⟨s₁, hstep, hbw₁, hoff₁, hsize₁, h₁, hbytes₁⟩ := writeLoop_round now buf (by omega) hk hbw
          hle hlt hin hmax (by omega) (by omega) hcap hfree hown (by omega)
        rw [InCoreINode.toCInt_of_lt (by omega) (by omega)] at hbw₁
        simp only [maxFileSize] at hmax hoffmax
        have hround : roundSize size s.iNode.size s.offset k ≤ maxFileSize := by
          simp only [roundSize, maxFileSize]
          split_ifs <;> omega
        obtain ⟨s', hrun, hmax', h', hn, hsz, hbytes⟩ := ih (bw + k) s₁
          (l.drop (if s.offset = s.iNode.size then endNeeds s.iNode.size else 0)) hbw₁ (by omega)
          (by omega) (hsize₁ ▸ hround) (by simp; omega) (h₁.backend ▸ hcap) h₁.free (h₁.own hown)
          (by rw [hsize₁, hoff₁, List.length_drop]; omega)
        rw [hsize₁, hoff₁] at h' hn hsz hbytes
        refine ⟨s', (hstep fuel).trans hrun, hmax', h₁.trans h', hn, hsz, fun hs => ?_⟩
        obtain ⟨hcount, hend⟩ := writeResult_steady size fuel
          (roundSize size s.iNode.size s.offset k) (bw + k) (s.offset + k) .round
        have hall := hbytes₁.trans (by
          simpa only [← Nat.add_assoc] using hbytes (.inl .round)) fun i hi => by
            rw [hsz] at hi
            omega
        rwa [show k + ((writeResult size fuel (roundSize size s.iNode.size s.offset k) (bw + k)
          (s.offset + k)).1 - (bw + k)) = (writeResult size fuel (roundSize size s.iNode.size
          s.offset k) (bw + k) (s.offset + k)).1 - bw by omega] at hall
      · have hwrap : wrapSize s.bytesWritten = bw := by
          rw [hbw]
          exact InCoreINode.wrapSize_natCast (by simp only [maxFileSize] at hoffmax; omega)
        rw [writeNeeds, writeResult, if_neg hgo, if_neg hgo, writeLoop_stop now buf (by rwa [hwrap])]
        refine ⟨s, rfl, hmax, .refl _ hfree, hbw, rfl, fun _ i _ => ?_⟩
        rw [if_neg (by omega)]

end Write

/-! ## A new file system -/

/-- On the device, `makeFileSystem` leaves a free list of blocks that nobody owns. -/
theorem own_makeFileSystem (d : Disk) (hdev : d.backend.isDiskAvailable) :
    Own d.makeFileSystem.backend (List.range' 16388 (31457280 - 16388)) where
  nodup := List.nodup_range'
  data := fun b hb => by
    have hcap : d.makeFileSystem.backend.capacity = 31457280 := by
      simp [sized, Backend.capacity, hdev]
    have := List.mem_range'_1.mp hb
    rw [hcap]
    omega

end Disk

end Naofs
