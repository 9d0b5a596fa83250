import Naofs.Contents

/-!
# Naofs.Write

The loops that put bytes into a file: `writeToFile` (`write.c`) and the growing
side of `truncateINode` (`truncate.c`), on an inode in core and the disk.

A round of either loop asks `bmap` for the block at the current offset, writes
into that block and moves the size.  `writeToFile` only moves the size by the
bytes written if the offset is at the end of the file.  Otherwise, if the file is
shorter than the whole write, it sets the size to the number of bytes of this
round, which can shorten the file.
-/

namespace Naofs

/-- The largest size of a file. -/
@[simp] abbrev maxFileSize : Nat := 2164402176

namespace Disk

open InCoreINode (wrapSize toCInt)

/-! ## The source functions -/

def writeToBlock (d : Disk) (bmapResp : BmapResponse) (buf : Nat → UInt8) (size : Nat) : Disk :=
  let blockPtr := d.load bmapResp.blockNumber d.backend.junk
  d.store bmapResp.blockNumber (blockPtr.copyIn bmapResp.byteOffsetInBlock size buf)

/-- What the loop of `writeToFile` works on. -/
structure WriteState where
  iNode : InCoreINode
  disk : Disk
  bmapResp : BmapResponse
  /-- An `int`. -/
  bytesWritten : Int
  offset : Nat
  /-- The bytes added to the offset of the file table entry. -/
  moved : Nat

/-- The new size after a round that wrote `bytesToWrite` bytes. -/
def WriteState.resize (s : WriteState) (now : UInt64) (size bytesToWrite : Nat) : InCoreINode :=
  if s.offset = s.iNode.size then
    s.iNode.updateINodeMetadata now (toCInt bytesToWrite) s.iNode.linksCount
  else if wrapSize (s.iNode.size - s.bytesWritten) < wrapSize (size - s.bytesWritten) then
    s.iNode.updateINodeMetadata now (toCInt (wrapSize (bytesToWrite - s.iNode.size)))
      s.iNode.linksCount
  else s.iNode

/-- The loop of `writeToFile` for `size` bytes in `buf`. -/
def writeLoop (now : UInt64) (buf : Nat → UInt8) (size : Nat) :
    (fuel : Nat) → WriteState → Except Fault WriteState
  | 0, _ => .error .diverges
  | fuel + 1, s =>
      if wrapSize s.bytesWritten < size then do
        let (retValue, bmapResp, iNode, disk) ← s.disk.bmap s.iNode s.offset s.bmapResp .append
        let s := { s with iNode, disk, bmapResp }
        if retValue < 0 then .ok s
        else
          let bytesToWrite := min bmapResp.bytesLeftInBlock (wrapSize (size - s.bytesWritten))
          let disk := disk.writeToBlock bmapResp (fun i => buf (s.bytesWritten.toNat + i)) bytesToWrite
          writeLoop now buf size fuel
            { s with
              disk
              iNode := s.resize now size bytesToWrite
              bytesWritten := toCInt (s.bytesWritten + bytesToWrite)
              moved := s.moved + bytesToWrite
              offset := wrapSize (s.offset + bytesToWrite) }
      else .ok s

def writeNullBytes (d : Disk) (blockNumber offset bytesToWrite : Nat) : Disk :=
  let blockPtr := d.load blockNumber d.backend.junk
  d.store blockNumber (blockPtr.copyIn offset bytesToWrite fun _ => 0)

/-- The loop of `increaseFileSizeBy`; the result of `bmap` is not looked at. -/
def increaseLoop (now : UInt64) (size : Nat) : (fuel : Nat) → (iNode : InCoreINode) → Disk →
    (offset bytesWritten : Nat) → BmapResponse → Except Fault (InCoreINode × Disk)
  | 0, _, _, _, _, _ => .error .diverges
  | fuel + 1, iNode, d, offset, bytesWritten, bmapResp =>
      if bytesWritten < size then do
        let (_, bmapResp, iNode, d) ← d.bmap iNode offset bmapResp .append
        let bytesToWrite := min bmapResp.bytesLeftInBlock (size - bytesWritten)
        let d := d.writeNullBytes bmapResp.blockNumber bmapResp.byteOffsetInBlock bytesToWrite
        increaseLoop now size fuel
          (iNode.updateINodeMetadata now (toCInt bytesToWrite) iNode.linksCount) d
          (wrapSize (offset + bytesToWrite)) (bytesWritten + bytesToWrite) bmapResp
      else .ok (iNode, d)

def increaseFileSizeBy (d : Disk) (now : UInt64) (bmapResp : BmapResponse) (iNode : InCoreINode)
    (size : Nat) : Except Fault (InCoreINode × Disk) :=
  increaseLoop now size (size + 1) iNode d iNode.size 0 bmapResp

/-! ## One round at the end of the file -/

section Round

variable {d : Disk} {x : InCoreINode}

/-- Bytes up to the end of the last block need that block, and no other. -/
theorem blockCount_add {size k : Nat} (hk : 0 < k) (hk' : k ≤ 1024 - size % 1024) :
    blockCount (size + k) = size / 1024 + 1 := by
  unfold blockCount
  omega

/-- `bmap` at the end of a file, and a write to the block it returns. -/
theorem grow_round (d : Disk) (x : InCoreINode) (resp : BmapResponse) (hx : x.size < maxFileSize) :
    ∃ blk y d₁, d.bmap x x.size resp .append =
        .ok (0, createBMapResponse blk (x.size % 1024), y, d₁) ∧
      y.size = x.size ∧ x.Touched y ∧ d₁.backend = d.backend ∧ ∃ new, Allocates d d₁ new ∧
        (Own d.backend (new ++ d.fileBlocks x.dataBlockNums (blockCount x.size)) →
          blk ∈ new ++ d.fileBlocks x.dataBlockNums (blockCount x.size) ∧
          (∀ v, Extends d (d₁.store blk v) x.dataBlockNums y.dataBlockNums (blockCount x.size)
            (x.size / 1024 + 1) new) ∧
          ∀ len src, x.size % 1024 + len ≤ 1024 → Overwritten d
            (d₁.store blk ((d₁.load blk d₁.backend.junk).copyIn (x.size % 1024) len src))
            x.dataBlockNums y.dataBlockNums (x.size + len) x.size len src) := by
  simp only [maxFileSize] at hx
  have hn : x.size / 1024 < maxBlocks := by simp only [maxBlocks]; omega
  obtain ⟨blk, nums', changed, d₁, heq, hback, new, hnew, hext⟩ := bmap_end d x resp hn
  refine ⟨blk, _, d₁, heq, rfl, ⟨_, _, _, _, _, rfl⟩, hback, new, hnew, fun hown => ?_⟩
  obtain ⟨hext', rfl, hold⟩ := hext hown
  have hown' : Own d₁.backend (d₁.fileBlocks nums' (x.size / 1024 + 1)) := by
    rw [hback]
    exact hown.perm hext'.blocks
  refine ⟨hext'.blocks.mem_iff.mp (mem_fileBlocks (Nat.lt_succ_self _)),
    fun v => hext'.store hown' hn (Nat.lt_succ_self _), fun len src hlen i hi => ?_⟩
  rw [byteAt_copyIn hown' hn (Nat.lt_succ_self _) hlen src (by omega),
    show 1024 * (x.size / 1024) + x.size % 1024 = x.size by omega]
  by_cases hnew : x.size ≤ i ∧ i < x.size + len
  · rw [if_pos hnew, if_pos hnew]
  · have hq : i / 1024 < blockCount x.size := by
      unfold blockCount
      omega
    rw [if_neg hnew, if_neg hnew]
    exact byteAt_of_same (hext'.old _ hq) (hold _ hq)

/-- With enough blocks on the free list, a round takes the first ones. -/
theorem grow_round_freeBlocks {l : List Nat} (resp : BmapResponse) (hx : x.size < maxFileSize)
    (hcap : 2 < d.backend.capacity) (hfree : FreeBlocks d l)
    (hown : Own d.backend (l ++ d.fileBlocks x.dataBlockNums (blockCount x.size)))
    (hlen : endNeeds x.size ≤ l.length) :
    ∃ blk y d₁, d.bmap x x.size resp .append =
        .ok (0, createBMapResponse blk (x.size % 1024), y, d₁) ∧
      y.size = x.size ∧ x.Touched y ∧ d₁.backend = d.backend ∧
      Allocates d d₁ (l.take (endNeeds x.size)) ∧
      (∀ v, FreeBlocks (d₁.store blk v) (l.drop (endNeeds x.size)) ∧
        Extends d (d₁.store blk v) x.dataBlockNums y.dataBlockNums (blockCount x.size)
          (x.size / 1024 + 1) (l.take (endNeeds x.size))) ∧
      ∀ len src, x.size % 1024 + len ≤ 1024 → Overwritten d
        (d₁.store blk ((d₁.load blk d₁.backend.junk).copyIn (x.size % 1024) len src))
        x.dataBlockNums y.dataBlockNums (x.size + len) x.size len src := by
  obtain ⟨blk, y, d₁, heq, hsize, htouch, hback, new, hnew, hext⟩ := grow_round d x resp hx
  simp only [maxFileSize] at hx
  have hn : x.size / 1024 < maxBlocks := by simp only [maxBlocks]; omega
  obtain ⟨halloc, hfree₁⟩ := bmap_end_freeBlocks hn hcap hfree hown hlen heq
  obtain rfl : new = l.take (endNeeds x.size) := hnew.unique halloc
  have hsplit : ∀ b, (l.take (endNeeds x.size)).count b + (l.drop (endNeeds x.size)).count b =
      l.count b := fun b => by rw [← List.count_append, List.take_append_drop]
  obtain ⟨hblk, hext', hbytes⟩ := hext (by
    refine hown.mono fun b => ?_
    have := hsplit b
    simp only [List.count_append]
    omega)
  refine ⟨blk, y, d₁, heq, hsize, htouch, hback, halloc, fun v => ⟨?_, hext' v⟩, hbytes⟩
  -- the block written is the file's own
  have h1 := List.nodup_iff_count_le_one.mp hown.nodup blk
  have h2 := List.count_pos_iff.mpr hblk
  have h3 := hsplit blk
  simp only [List.count_append] at h1 h2
  refine hfree₁.frame (by simp) (blocks_store_of_ne _ ?_ _) fun b hb => blocks_store_of_ne _ ?_ _
  · rintro rfl
    refine (hown.data 2 ?_).2.1 rfl
    rw [← List.count_pos_iff, List.count_append]
    omega
  · rintro rfl
    have := List.count_pos_iff.mpr hb
    omega

end Round

/-! ## Growing with fresh blocks -/

/-- `Grows x d y d' new`: the file `x` on `d` became `y` on `d'` by appending; the
allocator handed out `new`, and if these blocks were fresh they are what the file
owns more. -/
structure Grows (x : InCoreINode) (d : Disk) (y : InCoreINode) (d' : Disk) (new : List Nat) :
    Prop where
  touched : x.Touched y
  backend : d'.backend = d.backend
  allocates : Allocates d d' new
  extends_of_own : Own d.backend (new ++ d.fileBlocks x.dataBlockNums (blockCount x.size)) →
    Extends d d' x.dataBlockNums y.dataBlockNums (blockCount x.size) (blockCount y.size) new

section Grows

variable {d d' d'' : Disk} {x y z : InCoreINode} {new new' : List Nat}

theorem Grows.refl (x : InCoreINode) (d : Disk) : Grows x d x d [] :=
  ⟨.refl x, rfl, .refl d, fun _ => .refl d _ _⟩

/-- A file grows and grows again. -/
theorem Grows.trans (h : Grows x d y d' new) (h' : Grows y d' z d'' new') :
    Grows x d z d'' (new ++ new') := by
  refine ⟨h.touched.trans h'.touched, h'.backend.trans h.backend,
    h.allocates.trans h'.allocates, fun hown => ?_⟩
  have h1 := h.extends_of_own (hown.mono fun b => by
    simp only [List.count_append]
    omega)
  refine h1.trans (h'.extends_of_own ?_)
  rw [h.backend]
  refine hown.mono fun b => ?_
  have := h1.blocks.count_eq b
  simp only [List.count_append] at *
  omega

/-- A round of a loop: `bmap`, a write to the block, and the new size. -/
theorem grows_round (d : Disk) (x : InCoreINode) (resp : BmapResponse) (now : UInt64) {k : Nat}
    (hk : 0 < k) (hk' : k ≤ 1024 - x.size % 1024) (hx : x.size + k ≤ maxFileSize) :
    ∃ blk y d₁, d.bmap x x.size resp .append =
        .ok (0, createBMapResponse blk (x.size % 1024), y, d₁) ∧
      y.size = x.size ∧ y.linksCount = x.linksCount ∧
      (y.updateINodeMetadata now (toCInt k) y.linksCount).size = x.size + k ∧
      ∃ new, ∀ v, Grows x d (y.updateINodeMetadata now (toCInt k) y.linksCount)
        (d₁.store blk v) new := by
  simp only [maxFileSize] at hx
  obtain ⟨blk, y, d₁, heq, hsize, htouch, hback, new, hnew, hext⟩ :=
    grow_round d x resp (by simp; omega)
  have hsz := y.size_updateINodeMetadata now (k := k) (by omega) (by omega)
  rw [hsize] at hsz
  refine ⟨blk, y, d₁, heq, hsize, ?_, hsz, new, fun v => ⟨?_, ?_, ?_, fun hown => ?_⟩⟩
  · obtain ⟨_, _, _, _, _, rfl⟩ := htouch
    rfl
  · exact htouch.trans (y.touched_updateINodeMetadata now _)
  · rw [backend_store, hback]
  · simpa [Allocates] using hnew
  · rw [hsz, blockCount_add hk hk', InCoreINode.dataBlockNums_updateINodeMetadata]
    exact (hext hown).2.1 v

/-- `increaseFileSizeBy` from a counter `done` on. -/
theorem increaseLoop_grows (now : UInt64) {size : Nat} : ∀ (fuel : Nat) (x : InCoreINode)
    (d : Disk) (bytesWritten : Nat) (resp : BmapResponse), size - bytesWritten < fuel →
    x.size + (size - bytesWritten) ≤ maxFileSize →
    ∃ y d' new, increaseLoop now size fuel x d x.size bytesWritten resp = .ok (y, d') ∧
      y.size = x.size + (size - bytesWritten) ∧ Grows x d y d' new := by
  intro fuel
  induction fuel with
  | zero => omega
  | succ fuel ih =>
      intro x d bw resp hfuel hmax
      by_cases hlt : bw < size
      · simp only [maxFileSize] at hmax
        obtain ⟨k, hkdef⟩ : ∃ k, k = min (1024 - x.size % 1024) (size - bw) := ⟨_, rfl⟩
        obtain ⟨blk, y, d₁, heq, hsize, -, hsz, new, hgrows⟩ := grows_round d x resp now
          (k := k) (by omega) (by omega) (by simp; omega)
        obtain ⟨z, d', new', hrun, hzs, hgrows'⟩ := ih
          (y.updateINodeMetadata now (toCInt k) y.linksCount)
          (d₁.writeNullBytes blk (x.size % 1024) k) (bw + k)
          (createBMapResponse blk (x.size % 1024)) (by omega) (by rw [hsz]; simp; omega)
        refine ⟨z, d', new ++ new', ?_, by omega, (hgrows _).trans hgrows'⟩
        have hoff : wrapSize ((x.size : Int) + k) =
            (y.updateINodeMetadata now (toCInt k) y.linksCount).size := by
          rw [hsz, ← Int.natCast_add, InCoreINode.wrapSize_natCast (by omega)]
        simp only [increaseLoop, if_pos hlt, heq, bind, Except.bind, createBMapResponse, blockSize,
          ← hkdef]
        rw [hoff]
        exact hrun
      · refine ⟨x, d, [], ?_, by omega, .refl x d⟩
        rw [increaseLoop, if_neg hlt]

/-- Growing without a write appends blocks and nothing else. -/
theorem increaseFileSizeBy_grows (d : Disk) (now : UInt64) (resp : BmapResponse) (x : InCoreINode)
    {size : Nat} (hmax : x.size + size ≤ maxFileSize) :
    ∃ y d' new, d.increaseFileSizeBy now resp x size = .ok (y, d') ∧ y.size = x.size + size ∧
      Grows x d y d' new :=
  increaseLoop_grows now (size + 1) x d 0 resp (by omega) (by simpa using hmax)

/-- The loop stops at once when the counter has become negative. -/
theorem writeLoop_negative (now : UInt64) (buf : Nat → UInt8) {size fuel : Nat} {s : WriteState}
    (hsize : size ≤ maxFileSize) (h : s.bytesWritten < 0) (h' : -2147483648 ≤ s.bytesWritten) :
    writeLoop now buf size (fuel + 1) s = .ok s := by
  simp only [maxFileSize] at hsize
  rw [writeLoop, if_neg]
  unfold wrapSize
  omega

/-- The loop of `writeToFile` from the end of the file on.  A counter that
overflows ends it early. -/
theorem writeLoop_grows (now : UInt64) (buf : Nat → UInt8) {size : Nat}
    (hsize : size ≤ maxFileSize) : ∀ (fuel : Nat) (s : WriteState), s.offset = s.iNode.size →
    0 ≤ s.bytesWritten → s.bytesWritten < 2147483648 → size - s.bytesWritten.toNat < fuel →
    s.iNode.size + (size - s.bytesWritten.toNat) ≤ maxFileSize →
    ∃ s' new, writeLoop now buf size fuel s = .ok s' ∧
      s'.iNode.size ≤ s.iNode.size + (size - s.bytesWritten.toNat) ∧
      Grows s.iNode s.disk s'.iNode s'.disk new := by
  intro fuel
  induction fuel with
  | zero => omega
  | succ fuel ih =>
      intro s hoff h0 h31 hfuel hmax
      obtain ⟨x, d, resp, bw, offset, moved⟩ := s
      obtain ⟨bw, rfl⟩ := Int.eq_ofNat_of_zero_le h0
      simp only [maxFileSize] at hoff h31 hfuel hmax hsize ⊢
      subst hoff
      have hbw : wrapSize bw = bw := InCoreINode.wrapSize_natCast (by omega)
      by_cases hlt : bw < size
      · have hrest : wrapSize ((size : Int) - bw) = size - bw := by
          rw [InCoreINode.wrapSize_of_lt (by omega) (by omega)]
          omega
        obtain ⟨k, hkdef⟩ : ∃ k, k = min (1024 - x.size % 1024) (size - bw) := ⟨_, rfl⟩
        obtain ⟨blk, y, d₁, heq, hys, -, hsz, new, hgrows⟩ := grows_round d x resp now
          (k := k) (by omega) (by omega) (by simp; omega)
        have hoff : wrapSize ((x.size : Int) + k) = x.size + k := by
          rw [← Int.natCast_add, InCoreINode.wrapSize_natCast (by omega)]
        have hstep : writeLoop now buf size (fuel + 1) ⟨x, d, resp, bw, x.size, moved⟩ =
            writeLoop now buf size fuel
              ⟨y.updateINodeMetadata now (toCInt k) y.linksCount,
                d₁.writeToBlock (createBMapResponse blk (x.size % 1024)) (fun i => buf (bw + i)) k,
                createBMapResponse blk (x.size % 1024), toCInt (bw + k), x.size + k, moved + k⟩ := by
          simp only [writeLoop, hbw, if_pos hlt, heq, bind, Except.bind, createBMapResponse,
            blockSize, hrest, ← hkdef, WriteState.resize, hys, hoff]
          simp
        rw [hstep]
        by_cases hwrap : (bw : Int) + k < 2147483648
        · rw [InCoreINode.toCInt_of_lt (z := (bw : Int) + k) (by omega) hwrap]
          obtain ⟨s', new', hrun, hs', hgrows'⟩ := ih
            ⟨y.updateINodeMetadata now (toCInt k) y.linksCount,
              d₁.writeToBlock (createBMapResponse blk (x.size % 1024)) (fun i => buf (bw + i)) k,
              createBMapResponse blk (x.size % 1024), bw + k, x.size + k, moved + k⟩
            hsz.symm (by simp; omega) hwrap (by simp; omega) (by simp [hsz]; omega)
          refine ⟨s', new ++ new', hrun, ?_, (hgrows _).trans hgrows'⟩
          simp only [hsz] at hs'
          omega
        · obtain ⟨fuel, rfl⟩ : ∃ f, fuel = f + 1 := ⟨fuel - 1, by omega⟩
          rw [InCoreINode.toCInt_of_le (z := (bw : Int) + k) (by omega) (by omega)]
          refine ⟨_, new, writeLoop_negative now buf hsize (by simp; omega) (by simp; omega), ?_,
            hgrows _⟩
          simp only [hsz]
          omega
      · refine ⟨⟨x, d, resp, bw, x.size, moved⟩, [], ?_, Nat.le_add_right _ _, .refl x d⟩
        rw [writeLoop, if_neg (by rwa [hbw])]

end Grows

end Disk

end Naofs
