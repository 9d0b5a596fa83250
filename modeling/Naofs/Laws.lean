import Naofs.Isolation

/-!
# Naofs.Laws

What growing and writing do to the bytes of a file.

`truncateINode` past the end of a file adds zeros (`truncateINode_grow`).
`writeToFile` does what it should where the write starts or ends the file in the
right way: `writeLaw_iff` gives the offsets and sizes for which it does, and they are
read off `writeResult`, the way of the size through the rounds of the loop.
-/

namespace Naofs

open Disk (blockCount)

/-- A file within the maximum size whose blocks are all different. -/
structure WellFormed (d : Disk) (x : InCoreINode) : Prop where
  own : Own d.backend (d.fileBlocks x.dataBlockNums (blockCount x.size))
  size : x.size ≤ maxFileSize

theorem WellFormed.blockCount_le {d : Disk} {x : InCoreINode} (h : WellFormed d x) :
    blockCount x.size ≤ maxBlocks := by
  have hsize := h.size
  simp only [maxFileSize] at hsize
  simp only [maxBlocks, blockCount]
  omega

/-- What `bmap` finds in a file. -/
theorem WellFormed.readByte {d : Disk} {x : InCoreINode} (h : WellFormed d x) (i : Nat) :
    d.readByte x i = .ok (if i < x.size then some (d.byteAt x.dataBlockNums i) else none) :=
  Disk.readByte_eq h.own h.blockCount_le i

/-- A file within the maximum size whose blocks and those of the free list `l` are
apart. -/
structure Apart (d : Disk) (x : InCoreINode) (l : List Nat) : Prop where
  capacity : 2 < d.backend.capacity
  free : FreeBlocks d l
  own : Own d.backend (l ++ d.fileBlocks x.dataBlockNums (blockCount x.size))
  size : x.size ≤ maxFileSize

namespace Apart

variable {d : Disk} {x : InCoreINode} {l : List Nat}

theorem wellFormed (h : Apart d x l) : WellFormed d x where
  own := h.own.mono fun b => by
    rw [List.count_append]
    omega
  size := h.size

/-- A call that takes blocks from the free list leaves the rest of it apart. -/
theorem uses {d' : Disk} {y : InCoreINode} {k : Nat} (h : Apart d x l)
    (huses : Disk.Uses x d y d' l k) (hsize : y.size ≤ maxFileSize) : Apart d' y (l.drop k) where
  capacity := huses.backend ▸ h.capacity
  free := huses.free
  own := huses.own h.own
  size := hsize

/-- **Growing**: the file keeps its bytes, and those behind them read as zero. -/
theorem truncateINode_grow (h : Apart d x l) (env : Env) (size : Nat) (hlt : x.size < size)
    (hmax : size ≤ maxFileSize)
    (hneeds : Disk.growNeeds (size - x.size + 1) x.size (size - x.size) ≤ l.length) :
    ∃ y d', d.truncateINode env x size = .ok (y, d') ∧ y.size = size ∧
      y.linksCount = x.linksCount ∧ ∀ i, d'.readByte y i =
        if i < x.size then d.readByte x i else if i < size then .ok (some 0) else .ok none := by
  obtain ⟨y, d', hrun, hy, huses, hbytes⟩ := Disk.increaseLoop_uses env.now (size - x.size)
    (size - x.size + 1) x d 0 env.response l (by omega) (by omega) h.capacity h.free h.own hneeds
  have hsize : y.size = size := by omega
  refine ⟨y, d', ?_, hsize, huses.touched.links, fun i => ?_⟩
  · rw [Disk.truncateINode, if_neg (by omega), if_neg (by omega)]
    exact hrun
  · rw [(h.uses huses (hsize ▸ hmax)).wellFormed.readByte, h.wellFormed.readByte, hsize]
    by_cases hi : i < size
    · rw [if_pos hi, hbytes i (by omega)]
      by_cases hold : i < x.size
      · rw [if_pos hold, if_pos hold, if_neg (by omega)]
      · rw [if_neg hold, if_pos hi, if_pos (by omega)]
    · rw [if_neg hi, if_neg (by omega), if_neg hi]

/-- A file in the first block of the free list of a new file system. -/
def oneBlockFile (size : Nat) : InCoreINode :=
  { FS.oneBlockDirectory size 16388 with type := .regular, fileMode := 0, linksCount := 1 }

/-- A file of one block on a new file system. -/
theorem exists_oneBlockFile (size : Nat) (h0 : 0 < size) (h : size ≤ 1024) :
    ∃ l, Apart AllocState.smallDisk.makeFileSystem.blockAlloc.2 (oneBlockFile size) l ∧
      l.length = 31440891 := by
  have hcap : dataRegionStart ≤ AllocState.smallDisk.makeFileSystem.backend.capacity :=
    AllocState.smallDisk.le_capacity_makeFileSystem
  have hfree := AllocState.smallDisk.freeBlocks_makeFileSystem rfl
  have hown := AllocState.smallDisk.own_makeFileSystem rfl
  obtain ⟨n, hn⟩ : ∃ n, 31457280 - 16388 = n + 1 := ⟨_, rfl⟩
  rw [hn, List.range'_succ] at hfree hown
  simp only [dataRegionStart] at hcap
  obtain ⟨-, hfree'⟩ := Disk.blockAlloc_cons (by omega) hfree fun hcon => (hown.data 2 hcon).2.1 rfl
  have hblocks : AllocState.smallDisk.makeFileSystem.blockAlloc.2.fileBlocks
      (oneBlockFile size).dataBlockNums (blockCount (oneBlockFile size).size) = [16388] := by
    rw [show (oneBlockFile size).size = size from rfl, Disk.blockCount_of_le h0 h,
      Disk.fileBlocks_one, Disk.fileBlock, if_pos (by decide)]
    rfl
  refine ⟨List.range' (16388 + 1) n, ⟨?_, hfree', ?_, Nat.le_trans h (by decide)⟩, ?_⟩
  · rw [Disk.backend_blockAlloc]
    omega
  · rw [Disk.backend_blockAlloc, hblocks]
    refine hown.mono fun b => ?_
    rw [List.count_append, ← List.singleton_append (l := List.range' (16388 + 1) n),
      List.count_append]
    omega
  · rw [List.length_range']
    omega

/-- A file of ten bytes, made longer by ten. -/
theorem truncateINode_grow_ten : ∃ (d : Disk) (y : InCoreINode) (d' : Disk),
    d.truncateINode FS.blankEnv (oneBlockFile 10) 20 = .ok (y, d') ∧ y.size = 20 ∧
      y.linksCount = 1 ∧ d'.readByte y 12 = .ok (some 0) := by
  obtain ⟨l, hl, -⟩ := exists_oneBlockFile 10 (by decide) (by decide)
  obtain ⟨y, d', hrun, hsize, hlinks, hbytes⟩ := truncateINode_grow hl FS.blankEnv 20
    (by decide) (by decide) (Nat.le_trans (Nat.le_of_eq (by decide)) (Nat.zero_le _))
  refine ⟨_, y, d', hrun, hsize, hlinks, ?_⟩
  rw [hbytes 12, if_neg (by decide), if_pos (by decide)]

end Apart

/-! ## The size after a write -/

namespace Disk

variable {size : Nat}

/-- At the end of the file everything is appended. -/
theorem writeResult_append : ∀ (fuel fileSize bw : Nat), bw ≤ size → size - bw < fuel →
    writeResult size fuel fileSize bw fileSize = (size, fileSize + (size - bw)) := by
  intro fuel
  induction fuel with
  | zero => omega
  | succ fuel ih =>
      intro fileSize bw hle hfuel
      rw [writeResult]
      by_cases hlt : bw < size
      · obtain ⟨hk0, -, hk⟩ := roundBytes_pos fileSize hlt
        rw [if_pos ⟨hlt, Nat.le_refl _⟩]
        dsimp only
        rw [roundSize, if_pos rfl, ih _ _ (by omega) (by omega), Prod.mk.injEq]
        omega
      · rw [if_neg (by omega), Prod.mk.injEq]
        omega

/-- A write in a file that is not shorter than it, up to the end of the file or on from
the end of a block. -/
theorem writeResult_within : ∀ (fuel fileSize bw offset : Nat), bw ≤ size → size - bw < fuel →
    size ≤ fileSize → offset ≤ fileSize →
    fileSize % 1024 = 0 ∨ offset + (size - bw) ≤ fileSize →
    writeResult size fuel fileSize bw offset =
      (size, max fileSize (offset + (size - bw))) := by
  intro fuel
  induction fuel with
  | zero => omega
  | succ fuel ih =>
      intro fileSize bw offset hle hfuel hsize hoff hfit
      by_cases hend : offset = fileSize
      · rw [hend, writeResult_append _ _ _ hle hfuel, Nat.max_eq_right (by omega)]
      · rw [writeResult]
        by_cases hlt : bw < size
        · obtain ⟨hk0, hk1, hk⟩ := roundBytes_pos offset hlt
          rw [if_pos ⟨hlt, hoff⟩]
          dsimp only
          rw [roundSize, if_neg hend, if_neg (by omega),
            ih _ _ _ (by omega) (by omega) hsize (by omega) (by omega), Prod.mk.injEq]
          omega
        · rw [if_neg (by omega), Prod.mk.injEq]
          omega

/-- A write that starts inside such a file never moves its end, when that is inside a
block. -/
theorem writeResult_stuck : ∀ (fuel fileSize bw offset : Nat), size ≤ fileSize →
    offset < fileSize → fileSize % 1024 ≠ 0 →
    (writeResult size fuel fileSize bw offset).2 = fileSize := by
  intro fuel
  induction fuel with
  | zero => exact fun _ _ _ _ _ _ => rfl
  | succ fuel ih =>
      intro fileSize bw offset hsize hoff hmod
      rw [writeResult]
      split
      · next hgo =>
          obtain ⟨hk0, hk1, hk⟩ := roundBytes_pos offset hgo.1
          dsimp only
          rw [roundSize, if_neg (by omega), if_neg (by omega)]
          by_cases hin : offset + roundBytes size bw offset < fileSize
          · exact ih _ _ _ hsize hin hmod
          · -- the last round ends past the end of the file, or writes the last byte
            have hdone : ¬ (bw + roundBytes size bw offset < size ∧
                offset + roundBytes size bw offset ≤ fileSize) := by
              unfold roundBytes at *
              omega
            cases fuel with
            | zero => rfl
            | succ fuel => rw [writeResult, if_neg hdone]
      · rfl

/-- **The size after a write** of `size` bytes at `offset`: all bytes are written and
the file ends where it should. -/
theorem writeResult_iff {fileSize offset : Nat} (hoff : offset ≤ fileSize) (hpos : 0 < size) :
    writeResult size (size + 1) fileSize 0 offset = (size, max fileSize (offset + size)) ↔
      offset = fileSize ∨ offset + size ≤ fileSize ∨ offset = 0 ∨
        fileSize % 1024 = 0 ∧ size ≤ fileSize := by
  constructor
  · intro h
    by_contra hcon
    simp only [not_or, not_and] at hcon
    obtain ⟨hend, hlong, hzero, hfit⟩ := hcon
    have h2 := congrArg Prod.snd h
    simp only at h2
    by_cases hsize : size ≤ fileSize
    · rw [writeResult_stuck _ _ _ _ hsize (by omega) (fun hmod => hfit hmod hsize)] at h2
      omega
    · -- the first round cuts the file
      obtain ⟨hk0, hk1, hk⟩ := roundBytes_pos offset hpos
      rw [writeResult, if_pos ⟨hpos, hoff⟩] at h2
      dsimp only at h2
      rw [roundSize, if_neg hend, if_pos (by omega)] at h2
      cases size with
      | zero => omega
      | succ n =>
          rw [writeResult, if_neg (by omega)] at h2
          omega
  · intro h
    by_cases hend : offset = fileSize
    · rw [hend, writeResult_append _ _ _ (by omega) (by omega), Nat.max_eq_right (by omega),
        Nat.sub_zero]
    · by_cases hsize : size ≤ fileSize
      · rw [writeResult_within _ _ _ _ (by omega) (by omega) hsize hoff (by omega), Nat.sub_zero]
      · obtain rfl : offset = 0 := by omega
        obtain ⟨hk0, hk1, hk⟩ := roundBytes_pos 0 hpos
        rw [writeResult, if_pos ⟨hpos, hoff⟩]
        dsimp only
        rw [roundSize, if_neg hend, if_pos (by omega), Nat.zero_add,
          writeResult_append _ _ _ (by omega) (by omega), Prod.mk.injEq]
        omega

end Disk

/-! ## The write law -/

namespace FS

section WriteLaw

variable {fs : FS} {fd : Nat} {node : NodeId} {l : List Nat} {size offset : Nat}

/-- What a write of `size` bytes at `offset` should do to a file. -/
def WriteLaw (fs : FS) (fd : Nat) (node : NodeId) (env : Env) (buf : Nat → UInt8)
    (size offset : Nat) : Prop :=
  ∃ fs', fs.writeToFile env fd buf size offset = .ok (size, fs') ∧
    (fs'.inode node).size = max (fs.inode node).size (offset + size) ∧
    ∀ i, fs'.disk.readByte (fs'.inode node) i =
      if offset ≤ i ∧ i < offset + size then .ok (some (buf (i - offset)))
      else fs.disk.readByte (fs.inode node) i

/-- The outcome of a write, by `writeResult`. -/
theorem writeToFile_result (hopen : fs.Open fd node) (hfree : (fs.inode node).iNodeMutex = false)
    (h : Apart fs.disk (fs.inode node) l) (env : Env) (buf : Nat → UInt8)
    (hoff : offset ≤ (fs.inode node).size) (hsize : size < 2147483648)
    (hmax : offset + size ≤ maxFileSize)
    (hneeds : Disk.writeNeeds size (size + 1) (fs.inode node).size 0 offset ≤ l.length) :
    ∃ fs' r, r = Disk.writeResult size (size + 1) (fs.inode node).size 0 offset ∧
      fs.writeToFile env fd buf size offset = .ok (r.1, fs') ∧ (fs'.inode node).size = r.2 ∧
      (∃ l', Apart fs'.disk (fs'.inode node) l') ∧
      (Disk.Steady size (fs.inode node).size offset ∨ offset = 0 →
        Disk.Overwritten fs.disk fs'.disk (fs.inode node).dataBlockNums
          (fs'.inode node).dataBlockNums r.2 offset r.1 buf) := by
  obtain ⟨s, hloop, hs, huses, hcount, hend, hbytes⟩ := Disk.writeLoop_uses env.now buf hsize
    (size + 1) 0 ⟨{ fs.inode node with iNodeMutex := true }, fs.disk, env.response, 0, offset, 0⟩ l rfl
    (Nat.zero_le _) (by omega) h.size (by simpa using hmax) h.capacity h.free h.own hneeds
  have hinode : (fs.written fd node s).inode node = { s.iNode with iNodeMutex := false } := by
    rw [inode_written, Function.update_self]
  have hlocked : Apart fs.disk { fs.inode node with iNodeMutex := true } l :=
    ⟨h.capacity, h.free, h.own, h.size⟩
  have hafter := hlocked.uses huses hs
  refine ⟨fs.written fd node s, _, rfl, ?_, ?_, ?_, fun hsteady => ?_⟩
  · rw [writeToFile_eq hopen hfree env buf size hoff, hloop]
    simp only [Except.map, hcount]
  · rw [hinode]
    exact hend
  · rw [hinode]
    exact ⟨_, hafter.capacity, hafter.free, hafter.own, hafter.size⟩
  · rw [hinode]
    have hall := hbytes hsteady
    rw [hend, Nat.sub_zero] at hall
    simp only [Nat.zero_add] at hall
    exact hall

/-- The law is one about the result of the loop. -/
theorem writeLaw_iff_result (hopen : fs.Open fd node) (hfree : (fs.inode node).iNodeMutex = false)
    (h : Apart fs.disk (fs.inode node) l) (env : Env) (buf : Nat → UInt8)
    (hoff : offset ≤ (fs.inode node).size) (hpos : 0 < size) (hsize : size < 2147483648)
    (hmax : offset + size ≤ maxFileSize)
    (hneeds : Disk.writeNeeds size (size + 1) (fs.inode node).size 0 offset ≤ l.length) :
    WriteLaw fs fd node env buf size offset ↔
      Disk.writeResult size (size + 1) (fs.inode node).size 0 offset =
        (size, max (fs.inode node).size (offset + size)) := by
  obtain ⟨fs', r, hr, hrun, hend, ⟨l', hapart⟩, hbytes⟩ := writeToFile_result hopen hfree h env buf
    hoff hsize hmax hneeds
  rw [← hr]
  constructor
  · rintro ⟨fs'', hrun', hend', -⟩
    rw [hrun, Except.ok.injEq, Prod.mk.injEq] at hrun'
    obtain ⟨hcount, rfl⟩ := hrun'
    rw [hend] at hend'
    exact Prod.ext (Int.ofNat.inj hcount) hend'
  · intro hall
    have hwhere := (Disk.writeResult_iff hoff hpos).mp (hr.symm.trans hall)
    have hover := hbytes (by unfold Disk.Steady; omega)
    rw [hall] at hrun hend hover
    refine ⟨fs', hrun, hend, fun i => ?_⟩
    rw [hapart.wellFormed.readByte, h.wellFormed.readByte, hend]
    by_cases hi : i < max (fs.inode node).size (offset + size)
    · rw [if_pos hi, hover i hi]
      by_cases hin : offset ≤ i ∧ i < offset + size
      · rw [if_pos hin, if_pos hin]
      · rw [if_neg hin, if_neg hin, if_pos (by omega)]
    · rw [if_neg hi, if_neg (by omega), if_neg (by omega)]

/-- **The write law** holds where the write starts at the end of the file or at its
beginning, does not reach past the end, or runs over an end on a block boundary in a
file that is not shorter than the write. -/
theorem writeLaw_iff (hopen : fs.Open fd node) (hfree : (fs.inode node).iNodeMutex = false)
    (h : Apart fs.disk (fs.inode node) l) (env : Env) (buf : Nat → UInt8)
    (hoff : offset ≤ (fs.inode node).size) (hpos : 0 < size) (hsize : size < 2147483648)
    (hmax : offset + size ≤ maxFileSize)
    (hneeds : Disk.writeNeeds size (size + 1) (fs.inode node).size 0 offset ≤ l.length) :
    WriteLaw fs fd node env buf size offset ↔
      offset = (fs.inode node).size ∨ offset + size ≤ (fs.inode node).size ∨ offset = 0 ∨
        (fs.inode node).size % 1024 = 0 ∧ size ≤ (fs.inode node).size := by
  rw [writeLaw_iff_result hopen hfree h env buf hoff hpos hsize hmax hneeds]
  exact Disk.writeResult_iff hoff hpos

/-- A state with an open file. -/
theorem exists_open (x : InCoreINode) (d : Disk) :
    ∃ fs : FS, fs.disk = d ∧ fs.inode 0 = x ∧ fs.Open 0 0 := by
  obtain ⟨fs, -, -⟩ := exists_mount (fun _ _ => 0) d
  exact ⟨{ fs.setInode 0 x with disk := d, fileTable := fun _ => ⟨some 0, 0, 0, 0, true⟩ }, rfl,
    inode_setInode_self x, by decide, rfl, rfl⟩

/-- Five bytes appended to ten. -/
theorem writeLaw_append : ∃ fs : FS, (fs.inode 0).size = 10 ∧
    WriteLaw fs 0 0 blankEnv (fun _ => 0x61) 5 10 := by
  obtain ⟨l, hl, -⟩ := Apart.exists_oneBlockFile 10 (by decide) (by decide)
  obtain ⟨fs, hdisk, hnode, hopen⟩ := exists_open (Apart.oneBlockFile 10)
    AllocState.smallDisk.makeFileSystem.blockAlloc.2
  have hsize : (fs.inode 0).size = 10 := by rw [hnode]; rfl
  rw [← hdisk, ← hnode] at hl
  refine ⟨fs, hsize, (writeLaw_iff hopen (by rw [hnode]; rfl) hl _ _ (by omega) (by decide)
    (by decide) (by decide) ?_).mpr (.inl hsize.symm)⟩
  rw [hsize]
  exact Nat.le_trans (Nat.le_of_eq (by decide)) (Nat.zero_le _)

/-- Ten bytes written at offset 5 of ten: the file does not get longer. -/
theorem overwrite_past_end : ¬ ∀ (fs : FS) (fd : Nat) (node : NodeId) (l : List Nat) (env : Env)
    (buf : Nat → UInt8) (size offset : Nat), fs.Open fd node →
      (fs.inode node).type = .regular → (fs.inode node).iNodeMutex = false →
      Apart fs.disk (fs.inode node) l → offset ≤ (fs.inode node).size → 0 < size →
      size < 2147483648 → offset + size ≤ maxFileSize →
      Disk.writeNeeds size (size + 1) (fs.inode node).size 0 offset ≤ l.length →
      WriteLaw fs fd node env buf size offset := by
  intro hall
  obtain ⟨l, hl, -⟩ := Apart.exists_oneBlockFile 10 (by decide) (by decide)
  obtain ⟨fs, hdisk, hnode, hopen⟩ := exists_open (Apart.oneBlockFile 10)
    AllocState.smallDisk.makeFileSystem.blockAlloc.2
  have hsize : (fs.inode 0).size = 10 := by rw [hnode]; rfl
  have hfree : (fs.inode 0).iNodeMutex = false := by rw [hnode]; rfl
  rw [← hdisk, ← hnode] at hl
  have hneeds : Disk.writeNeeds 10 11 (fs.inode 0).size 0 5 ≤ l.length := by
    rw [hsize]
    exact Nat.le_trans (Nat.le_of_eq (by decide)) (Nat.zero_le _)
  have hlaw := hall fs 0 0 l blankEnv (fun _ => 0x61) 10 5 hopen (by rw [hnode]; rfl) hfree hl
    (by omega) (by decide) (by decide) (by decide) hneeds
  rw [writeLaw_iff_result hopen hfree hl _ _ (by omega) (by decide) (by decide) (by decide) hneeds,
    hsize] at hlaw
  exact absurd hlaw (by decide)

end WriteLaw

end FS

end Naofs
