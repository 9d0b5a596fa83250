import Naofs.Revision

/-!
# Naofs.Rewriting

Writing to a file and changing its length, as changes of its bytes.

`writeToFile` and `truncateINode` are loops over blocks.  Here each of them is one
`Rewrites`, and the file of the new inode is the old one with other bytes
(`writeLoop_becomes`, `truncateINode_becomes_grow`, `truncateINode_becomes_shrink`).
-/

namespace Naofs

open Disk (blockCount)

/-! ## Inodes that are marked as changed -/

/-- The fields still fit, and what has changed is noted. -/
def InCoreINode.Noted (x y : InCoreINode) : Prop := y.Fits ∧ (y = x ∨ y.inodeChanged = true)

/-- A mark stays. -/
theorem InCoreINode.Noted.trans {x y z : InCoreINode} (h : x.Noted y) (h' : y.Noted z) : x.Noted z := by
  obtain ⟨-, rfl | hy⟩ := h
  · exact h'
  · obtain ⟨hfits, rfl | hz⟩ := h'
    · exact ⟨hfits, .inr hy⟩
    · exact ⟨hfits, .inr hz⟩

/-- Updated metadata still fit, and the inode is marked. -/
theorem InCoreINode.noted_updateINodeMetadata {x y : InCoreINode} (hy : y.Fits) (now : UInt64) (k : Int) :
    x.Noted (y.updateINodeMetadata now k y.linksCount) :=
  ⟨fits_updateINodeMetadata hy now k hy.linksCount, .inr rfl⟩

namespace Disk

open InCoreINode (wrapSize toCInt)

section Noted

variable {d d' : Disk} {x y : InCoreINode}

/-- A new block alone does not make the file longer. -/
theorem insertDataBlockInINode_size {blk : Nat} (hx : x.Fits)
    (h : d.insertDataBlockInINode x blk = .ok (y, d')) : y.size = x.size := by
  unfold insertDataBlockInINode at h
  split at h
  · cases h
    rfl
  · split at h
    · cases h
    · unfold updateIndex at h
      split at h
      · cases h
        rfl
      · split at h
        · cases h
        · simp only [Except.ok.injEq, Prod.mk.injEq] at h
          obtain ⟨rfl, -⟩ := h
          simpa [InCoreINode.updateINodeMetadata] using InCoreINode.wrapSize_natCast hx.size

/-- Only the end of the file is extended. -/
theorem bmap_unchanged {offset : Nat} {resp resp' : BmapResponse} {mode : BmapMode} {ret : Int}
    (hx : x.Fits) (h : d.bmap x offset resp mode = .ok (ret, resp', y, d')) :
    y = x ∨ ret = 0 ∧ offset = y.size := by
  unfold bmap at h
  split at h
  · cases h
    exact .inl rfl
  · split at h
    · next hend =>
        obtain ⟨⟨z, d₁⟩, hins, h⟩ := bind_eq_ok.mp h
        cases h
        exact .inr ⟨rfl, hend.1.trans (insertDataBlockInINode_size hx hins).symm⟩
    · obtain ⟨blk, -, h⟩ := bind_eq_ok.mp h
      cases h
      exact .inl rfl

/-- Each round of growing appends a block and updates the metadata. -/
theorem increaseLoop_noted (now : UInt64) (size : Nat) : ∀ (fuel : Nat) {x : InCoreINode} {d : Disk}
    {offset bw : Nat} {resp : BmapResponse}, x.Fits →
    increaseLoop now size fuel x d offset bw resp = .ok (y, d') → x.Noted y := by
  intro fuel
  induction fuel with
  | zero =>
      intro x d offset bw resp _ h
      cases h
  | succ fuel ih =>
      intro x d offset bw resp hx h
      rw [increaseLoop] at h
      split at h
      · obtain ⟨⟨ret, resp', z, d₁⟩, hbmap, h⟩ := bind_eq_ok.mp h
        have hz := bmap_fits hx hbmap
        have hround := InCoreINode.noted_updateINodeMetadata (x := x) hz now
          (toCInt (min resp'.bytesLeftInBlock (size - bw) : Nat))
        exact hround.trans (ih hround.1 h)
      · cases h
        exact ⟨hx, .inl rfl⟩

/-- Each round of a write looks up a block and updates the metadata. -/
theorem writeLoop_noted (now : UInt64) (buf : Nat → UInt8) (size : Nat) : ∀ (fuel : Nat)
    {s s' : WriteState}, s.iNode.Fits → writeLoop now buf size fuel s = .ok s' →
    s.iNode.Noted s'.iNode := by
  intro fuel
  induction fuel with
  | zero =>
      intro s s' _ h
      cases h
  | succ fuel ih =>
      intro s s' hs h
      rw [writeLoop] at h
      split at h
      · obtain ⟨⟨ret, resp', z, d₁⟩, hbmap, h⟩ := bind_eq_ok.mp h
        have hz := bmap_fits hs hbmap
        dsimp only at h
        split at h
        · next hret =>
            cases h
            refine ⟨hz, .inl ((bmap_unchanged hs hbmap).resolve_right fun hcon => ?_)⟩
            rw [hcon.1] at hret
            exact absurd hret (by decide)
        · have hround : s.iNode.Noted (WriteState.resize { s with iNode := z, disk := d₁, bmapResp := resp' }
              now size (min resp'.bytesLeftInBlock (wrapSize (size - s.bytesWritten)))) := by
            rw [WriteState.resize]
            dsimp only
            split
            · exact InCoreINode.noted_updateINodeMetadata hz now _
            · next hne =>
                split
                · exact InCoreINode.noted_updateINodeMetadata hz now _
                · exact ⟨hz, .inl ((bmap_unchanged hs hbmap).resolve_right fun hcon => hne hcon.2)⟩
          exact hround.trans (ih hround.1 h)
      · cases h
        exact ⟨hs, .inl rfl⟩

end Noted

/-! ## Blocks that are given up -/

section Discards

variable {d d' d'' : Disk} {bs bs' l : List Nat} {b : Nat}

/-- A block is loaded from both disks alike. -/
theorem load_congr (h : SameBlocks d d') (n : Nat) (buf : DiskBlock) : d'.load n buf = d.load n buf := by
  simp only [load, getDiskBlock, fetchDeviceDiskBlock, fetchMemoryDiskBlock, h.backend, h.blocks]

/-- A block is stored on both disks alike. -/
theorem sameBlocks_store (h : SameBlocks d d') (n : Nat) (buf : DiskBlock) :
    SameBlocks (d.store n buf) (d'.store n buf) := by
  refine ⟨by rw [backend_store, backend_store, h.backend], funext fun k => ?_⟩
  rw [blocks_store, blocks_store, h.backend, h.blocks]

/-- `blockFree` does not read the trace. -/
theorem sameBlocks_blockFree (h : SameBlocks d d') (b : Nat) :
    SameBlocks (d.blockFree b) (d'.blockFree b) := by
  have hinto : SameBlocks (d.freeInto freeListBlock b) (d'.freeInto freeListBlock b) := by
    rw [freeInto, freeInto, h.backend, load_congr h]
    dsimp only
    split
    · exact sameBlocks_store (sameBlocks_store h _ _) _ _
    · exact sameBlocks_store h _ _
  refine ⟨?_, ?_⟩
  · rw [backend_blockFree, backend_blockFree, h.backend]
  · rw [blockFree, blockFree, blocks_log, blocks_log, hinto.blocks]

/-- Blocks are freed on both disks alike. -/
theorem sameBlocks_foldl (bs : List Nat) : ∀ {d d' : Disk}, SameBlocks d d' →
    SameBlocks (bs.foldl blockFree d) (bs.foldl blockFree d') := by
  induction bs with
  | nil => exact fun h => h
  | cons b bs ih => exact fun h => ih (sameBlocks_blockFree h b)

/-- The blocks are freed, and nothing else happens. -/
structure Discards (d d' : Disk) (bs : List Nat) : Prop where
  drops : Drops d d' bs
  same : SameBlocks (bs.foldl blockFree d) d'

theorem Discards.refl (d : Disk) : Discards d d [] := ⟨.refl d, .refl d⟩

/-- A note in the trace discards nothing. -/
theorem Discards.log (d : Disk) (size : Nat) : Discards d (d.log (.release size)) [] :=
  ⟨.log d size, rfl, rfl⟩

/-- What `blockFree` is called for is discarded. -/
theorem Discards.foldl (d : Disk) (bs : List Nat) : Discards d (bs.foldl blockFree d) bs :=
  ⟨.foldl d bs, .refl _⟩

/-- First some blocks are discarded, and then others. -/
theorem Discards.trans (h : Discards d d' bs) (h' : Discards d' d'' bs') : Discards d d'' (bs ++ bs') := by
  refine ⟨h.drops.trans h'.drops, ?_⟩
  rw [List.foldl_append]
  exact (sameBlocks_foldl bs' h.same).trans h'.same

/-- The data block is freed, and the indirect blocks that it was the last use of. -/
theorem freeDataBlockInINode_discards {x : InCoreINode} {blk : Nat}
    (h : d.freeDataBlockInINode x blk = .ok d') : ∃ bs, Discards d d' bs := by
  have hfirst := (Discards.log d x.size).trans (.foldl _ [blk])
  unfold freeDataBlockInINode at h
  dsimp only at h
  split at h
  · cases h
  · cases h
    rw [freeNeededBlocks]
    dsimp only
    split
    · exact ⟨_, hfirst⟩
    · exact ⟨_, hfirst.trans (.foldl _ _)⟩

/-- The loop of `decreaseFileSizeBy` frees blocks. -/
theorem decreaseLoop_discards (now : UInt64) (size : Nat) : ∀ (fuel : Nat) {x y : InCoreINode} {d : Disk}
    {offset bytes : Nat} {resp : BmapResponse}, x.Fits →
    decreaseLoop now size fuel x d offset bytes resp = .ok (y, d') →
    x.Noted y ∧ y.dataBlockNums = x.dataBlockNums ∧ ∃ bs, Discards d d' bs := by
  intro fuel
  induction fuel with
  | zero =>
      intro x y d offset bytes resp _ h
      cases h
  | succ fuel ih =>
      intro x y d offset bytes resp hx h
      rw [decreaseLoop] at h
      split at h
      · obtain ⟨⟨ret, resp', z, d₁⟩, hbmap, hround⟩ := bind_eq_ok.mp h
        obtain ⟨rfl, rfl⟩ := bmap_read hbmap
        dsimp only at hround
        split at hround
        · cases hround
          exact ⟨InCoreINode.noted_updateINodeMetadata hx now _,
            InCoreINode.dataBlockNums_updateINodeMetadata _ _ _ _, _, .refl _⟩
        · obtain ⟨d₂, hfree, hrest⟩ := bind_eq_ok.mp hround
          obtain ⟨bs, hbs⟩ := freeDataBlockInINode_discards hfree
          have hstep := InCoreINode.noted_updateINodeMetadata (x := z) hx now
            (toCInt (wrapSize (-(resp'.byteOffsetInBlock + 1 : Nat))))
          obtain ⟨hnoted, hnums, bs', hbs'⟩ := ih hstep.1 hrest
          refine ⟨hstep.trans hnoted, hnums.trans ?_, _, hbs.trans hbs'⟩
          exact InCoreINode.dataBlockNums_updateINodeMetadata _ _ _ _
      · cases h
        exact ⟨⟨hx, .inl rfl⟩, rfl, _, .refl _⟩

/-- A list block that is not the last one stays so. -/
theorem linked_blockFree (hcap : 2 < d.backend.capacity) (hb : b ≠ 0 ∧ b ≠ 2 ∧ b < d.backend.capacity)
    (h : slot (d.blocks 2) 127 ≠ 0) : slot ((d.blockFree b).blocks 2) 127 ≠ 0 := by
  by_cases h0 : slot (d.blocks 2) 0 = 0
  · obtain ⟨c, -, hc, -, hfill⟩ := slot_blockFree_fill hcap
      (hb.2.2.trans d.backend.capacity_lt) h0
    have hne : 127 ≠ c := by
      rintro rfl
      exact h hc
    rw [hfill 127 (by decide), if_neg hne]
    exact h
  · rw [(slot_blockFree_spill hcap hb.2.1 hb.2.2 h0).1 127 (by decide), if_pos rfl]
    exact hb.1

/-- A free list that is linked stays so: a freed block is a number more or the new link. -/
theorem linked_foldl : ∀ (bs : List Nat) {d : Disk}, 2 < d.backend.capacity →
    (∀ b ∈ bs, b ≠ 0 ∧ b ≠ 2 ∧ b < d.backend.capacity) → slot (d.blocks 2) 127 ≠ 0 →
    slot ((bs.foldl blockFree d).blocks 2) 127 ≠ 0 := by
  intro bs
  induction bs with
  | nil => exact fun _ _ h => h
  | cons b bs ih =>
      intro d hcap hbs h
      refine ih (by rwa [backend_blockFree]) (fun c hc => ?_)
        (linked_blockFree hcap (hbs b List.mem_cons_self) h)
      rw [backend_blockFree]
      exact hbs c (List.mem_cons_of_mem _ hc)

/-- The free list is still linked after blocks of a file are discarded. -/
theorem Discards.linked (h : Discards d d' bs) (hcap : 2 < d.backend.capacity) (hown : Own d.backend bs)
    (hlink : slot (d.blocks 2) 127 ≠ 0) : slot (d'.blocks 2) 127 ≠ 0 := by
  rw [h.same.blocks]
  exact linked_foldl bs hcap hown.data hlink

/-- All of them are free then. -/
theorem freeBlocks_foldl : ∀ (bs : List Nat) {d : Disk} {l : List Nat}, 2 < d.backend.capacity →
    FreeBlocks d l → Own d.backend (l ++ bs) → slot (d.blocks 2) 127 ≠ 0 →
    ∃ l', l'.Perm (bs ++ l) ∧ FreeBlocks (bs.foldl blockFree d) l' := by
  intro bs
  induction bs with
  | nil => exact fun _ h _ _ => ⟨_, .refl _, h⟩
  | cons b bs ih =>
      intro d l hcap h hown hlink
      have hb := hown.data b (List.mem_append_right _ List.mem_cons_self)
      have hbl : b ∉ l := fun hmem =>
        (List.nodup_append.mp hown.nodup).2.2 b hmem b List.mem_cons_self rfl
      have h2 : 2 ∉ l := fun hmem => (hown.data 2 (List.mem_append_left _ hmem)).2.1 rfl
      obtain ⟨l₁, hperm, hfree⟩ := blockFree_perm hcap h hb.1 hb.2.1 hb.2.2 hbl h2 (.inr (.inl hlink))
      have hown₁ : Own (d.blockFree b).backend (l₁ ++ bs) := by
        rw [backend_blockFree]
        refine hown.mono fun c => ?_
        rw [List.count_append, List.count_append, hperm.count_eq, List.count_cons, List.count_cons]
        omega
      obtain ⟨l', hperm', hfree'⟩ := ih (by rwa [backend_blockFree]) hfree hown₁
        (linked_blockFree hcap hb hlink)
      refine ⟨l', hperm'.trans ?_, hfree'⟩
      exact (hperm.append_left bs).trans List.perm_middle

/-- **The blocks that are given up are free.**  They come to a list block that has a link. -/
theorem Discards.freeBlocks (h : Discards d d' bs) (hcap : 2 < d.backend.capacity) (hfree : FreeBlocks d l)
    (hown : Own d.backend (l ++ bs)) (hlink : bs = [] ∨ slot (d.blocks 2) 127 ≠ 0) :
    ∃ l', l'.Perm (bs ++ l) ∧ FreeBlocks d' l' := by
  have hfolded : ∃ l', l'.Perm (bs ++ l) ∧ FreeBlocks (bs.foldl blockFree d) l' := by
    obtain rfl | hlink := hlink
    · exact ⟨l, .refl _, hfree⟩
    · exact freeBlocks_foldl bs hcap hfree hown hlink
  obtain ⟨l', hl', hfree'⟩ := hfolded
  exact ⟨l', hl', hfree'.frame h.same.backend (congrFun h.same.blocks 2) fun b _ =>
    congrFun h.same.blocks b⟩

end Discards

/-! ## Growing and writing -/

/-- The bytes of a file over which others were written. -/
theorem Overwritten.bytes {d d' : Disk} {nums nums' : Buffer Nat blocksInInode} {size off len : Nat}
    {src : Nat → UInt8} (hoff : off ≤ size)
    (hover : Overwritten d d' nums nums' (max size (off + len)) off len src) :
    (List.range (max size (off + len))).map (d'.byteAt nums') =
      ((List.range size).map (d.byteAt nums)).take off ++ (List.range len).map src ++
        ((List.range size).map (d.byteAt nums)).drop (off + len) := by
  refine List.ext_getElem ?_ fun i hi hi' => ?_
  · simp only [List.length_append, List.length_take, List.length_drop, List.length_map, List.length_range]
    omega
  · rw [List.length_map, List.length_range] at hi
    rw [List.getElem_map, List.getElem_range, hover i hi]
    simp only [List.getElem_append, List.length_append, List.length_take, List.length_map,
      List.length_range, List.getElem_take, List.getElem_drop, List.getElem_map, List.getElem_range]
    rw [Nat.min_eq_left hoff]
    by_cases hpre : i < off
    · rw [if_neg (by omega), dif_pos (by omega), dif_pos hpre]
    · by_cases hmid : i < off + len
      · rw [if_pos (by omega), dif_pos hmid, dif_neg hpre]
      · rw [if_neg (by omega), dif_neg hmid]
        congr 1
        omega

/-! ## Blocks that are taken -/

/-- The file grows in its last block, or by one. -/
theorem blockTotal_end {size k : Nat} (hk : 0 < k) (hk' : k ≤ 1024 - size % 1024) :
    blockTotal (blockCount (size + k)) = blockTotal (blockCount size) + endNeeds size := by
  have hmod := Nat.div_add_mod size 1024
  rw [endNeeds]
  by_cases hs : size % 1024 = 0
  · have hcount : blockCount size = size / 1024 := by
      unfold blockCount
      omega
    have hcount' : blockCount (size + k) = size / 1024 + 1 := by
      unfold blockCount
      omega
    rw [if_pos hs, hcount, hcount', blockTotal]
    omega
  · have hcount : blockCount (size + k) = blockCount size := by
      unfold blockCount
      omega
    rw [if_neg hs, hcount, Nat.add_zero]

/-- The count of blocks round by round is that of the whole. -/
theorem blockTotal_grow : ∀ {fuel size left : Nat}, left < fuel →
    blockTotal (blockCount (size + left)) = blockTotal (blockCount size) + growNeeds fuel size left := by
  intro fuel
  induction fuel with
  | zero => omega
  | succ fuel ih =>
      intro size left hleft
      rw [growNeeds]
      split
      · obtain ⟨k, hk⟩ : ∃ k, k = min (1024 - size % 1024) left := ⟨_, rfl⟩
        have hmod : size % 1024 < 1024 := Nat.mod_lt _ (by decide)
        dsimp only
        rw [← hk, ← Nat.add_assoc, ← blockTotal_end (show 0 < k by omega) (by omega),
          ← ih (show left - k < fuel by omega), Nat.add_assoc, Nat.add_sub_cancel' (by omega)]
      · next hzero => rw [Nat.eq_zero_of_not_pos hzero, Nat.add_zero, Nat.add_zero]

/-- A steady write takes the blocks that the file then has. -/
theorem blockTotal_steady (size : Nat) : ∀ (fuel fileSize bw offset : Nat), Steady size fileSize offset →
    blockTotal (blockCount (writeResult size fuel fileSize bw offset).2) =
      blockTotal (blockCount fileSize) + writeNeeds size fuel fileSize bw offset := by
  intro fuel
  induction fuel with
  | zero => exact fun _ _ _ _ => rfl
  | succ fuel ih =>
      intro fileSize bw offset hs
      rw [writeResult, writeNeeds]
      split
      · next hgo =>
          obtain ⟨hk0, hk1, -⟩ := roundBytes_pos offset hgo.1
          dsimp only
          rw [ih _ _ _ .round, ← Nat.add_assoc]
          congr 1
          rw [roundSize]
          by_cases hend : offset = fileSize
          · rw [if_pos hend, if_pos hend, blockTotal_end hk0 (hend ▸ hk1)]
          · have hle : size ≤ fileSize := hs.resolve_left (by omega)
            rw [if_neg hend, if_neg hend, if_neg (by omega), Nat.add_zero]
      · rfl

/-- The file has its old blocks and those taken from the free list, and no others. -/
theorem Uses.owned_eq {x y : InCoreINode} {d d' : Disk} {l : List Nat} {k : Nat} (h : Uses x d y d' l k)
    (hx : x.size ≤ maxFileSize) (hy : y.size ≤ maxFileSize) (hk : k ≤ l.length)
    (htotal : blockTotal (blockCount y.size) = blockTotal (blockCount x.size) + k) (b : Nat) :
    (d'.fileBlocks y.dataBlockNums (blockCount y.size)).count b =
      (l.take k ++ d.fileBlocks x.dataBlockNums (blockCount x.size)).count b := by
  refine List.Perm.count_eq (List.Subperm.perm_of_length_le ?_ ?_) b
  · exact List.subperm_ext_iff.mpr fun b _ => h.owned b
  · rw [List.length_append, List.length_take, length_fileBlocks _ _ (blockCount_le_max hx),
      length_fileBlocks _ _ (blockCount_le_max hy), htotal, Nat.min_eq_left hk, Nat.add_comm]

/-- What an append does to the disk, as a rewrite of one file. -/
theorem Uses.rewrites {x y : InCoreINode} {d d' : Disk} {l : List Nat} {k : Nat} (h : Uses x d y d' l k)
    (hx : x.size ≤ maxFileSize) (hy : y.size ≤ maxFileSize) (hk : k ≤ l.length)
    (htotal : blockTotal (blockCount y.size) = blockTotal (blockCount x.size) + k)
    (hnoted : x.Noted y) : Rewrites x d y d' l (l.drop k) where
  number := h.touched.number
  device := h.touched.device
  references := h.touched.references
  links := h.touched.links
  fits := hnoted.1
  noted := hnoted.2.elim (fun heq => .inr (by rw [heq]; exact ⟨rfl, rfl, rfl⟩)) .inl
  backend := h.backend
  free := h.free
  owned := by
    intro b
    have heq := h.owned_eq hx hy hk htotal b
    have hsplit := count_take_add_drop l k b
    rw [List.count_append] at heq
    omega
  frame := by
    intro b hb2 hmem
    refine h.frame b hb2 fun hcon => hmem ?_
    obtain hcon | hcon := List.mem_append.mp hcon
    · exact List.mem_append_left _ (List.mem_of_mem_take hcon)
    · exact List.mem_append_right _ hcon

/-- The new inode of a regular file, whose bytes are those of `file`. -/
structure Becomes (x : InCoreINode) (d : Disk) (y : InCoreINode) (d' : Disk) (l l' : List Nat)
    (file : File) : Prop where
  rewrites : Rewrites x d y d' l l'
  type : y.type = x.type
  mode : y.fileMode = x.fileMode
  size : y.size ≤ maxFileSize
  file : d'.fileOf y.toINode = file

/-- A regular file stays one. -/
theorem Becomes.reshapes {x y : InCoreINode} {d d' : Disk} {l l' : List Nat} {file : File} {fs : FS}
    {n : Nat} (h : Becomes x d y d' l l' file) (hvalue : x.toINode = fs.seen n)
    (hregular : fs.tree.directory n = false) : FS.Reshapes fs n y.toINode d' where
  size := h.size
  type := by rw [h.type, hvalue]
  kind := by rw [h.mode, hvalue]
  entries := fun hdir => absurd (hregular.symm.trans hdir) (by decide)

/-- Offset and size of a write that `writeToFile` does as it should. -/
def WritesWhole (fileSize size offset : Nat) : Prop :=
  size = 0 ∨ offset = fileSize ∨ offset + size ≤ fileSize ∨ offset = 0 ∧ fileSize ≤ blockSize ∨
    fileSize % blockSize = 0 ∧ size ≤ fileSize

instance (fileSize size offset : Nat) : Decidable (WritesWhole fileSize size offset) :=
  inferInstanceAs (Decidable (_ ∨ _ ∨ _ ∨ _ ∧ _ ∨ _ ∧ _))

/-- A write that is answered in full leaves the file as long as its end requires. -/
theorem WritesWhole.writeResult_eq {fileSize size offset : Nat} (h : WritesWhole fileSize size offset)
    (hoff : offset ≤ fileSize) :
    writeResult size (size + 1) fileSize 0 offset = (size, max fileSize (offset + size)) ∧
      (Steady size fileSize offset ∨ offset = 0) := by
  obtain rfl | hpos := Nat.eq_zero_or_pos size
  · refine ⟨?_, .inl (.inr (Nat.zero_le _))⟩
    rw [writeResult, if_neg (by omega), Nat.add_zero, Nat.max_eq_left hoff]
  · replace h := h.resolve_left hpos.ne'
    refine ⟨(writeResult_iff hoff hpos).mpr (h.imp_right (.imp_right (.imp_left And.left))), ?_⟩
    obtain rfl | h | h | h := h
    · exact .inl (.inl le_rfl)
    · exact .inl (.inr (by omega))
    · exact .inr h.1
    · exact .inl (.inr h.2)

/-- No block is taken that the file does not have then. -/
theorem WritesWhole.blockTotal_eq {fileSize size offset : Nat} (h : WritesWhole fileSize size offset)
    (hoff : offset ≤ fileSize) :
    blockTotal (blockCount (max fileSize (offset + size))) =
      blockTotal (blockCount fileSize) + writeNeeds size (size + 1) fileSize 0 offset := by
  obtain ⟨hres, hsteady⟩ := h.writeResult_eq hoff
  rw [show max fileSize (offset + size) = (writeResult size (size + 1) fileSize 0 offset).2 by rw [hres]]
  by_cases hs : Steady size fileSize offset
  · exact blockTotal_steady size _ _ _ _ hs
  -- The file is in one block, and the first round writes over all of it.
  obtain rfl := hsteady.resolve_left hs
  have hsmall : 0 < fileSize ∧ fileSize < size ∧ fileSize ≤ 1024 := by
    simp only [Steady, WritesWhole, blockSize] at hs h
    omega
  have hone : blockCount (roundBytes size 0 0) = blockCount fileSize := by
    unfold blockCount roundBytes
    omega
  rw [writeResult, writeNeeds, if_pos (by omega), if_pos (by omega)]
  dsimp only
  rw [blockTotal_steady size _ _ _ _ .round, if_neg (by omega), Nat.zero_add, roundSize, if_neg (by omega),
    if_pos hsmall.2.1, hone, Nat.zero_add]

/-- Sizes between which `truncateINode` does as it should, with `room` blocks on the free
list.  Where blocks are freed, the first list block has a link. -/
def Resizes (d : Disk) (room old size : Nat) : Prop :=
  old ≤ size ∧ size ≤ maxFileSize ∧ growNeeds (size - old + 1) old (size - old) ≤ room ∨
    size < old ∧ ShrinksClean old size ∧
      (blockCount size = blockCount old ∨ slot (d.blocks 2) 127 ≠ 0)

instance (d : Disk) (room old size : Nat) : Decidable (d.Resizes room old size) :=
  inferInstanceAs (Decidable (_ ∧ _ ∧ _ ∨ _ ∧ _ ∧ _))

/-- Sizes that fit together. -/
theorem shrinkLaw_clean {d : Disk} {x : InCoreINode} (h : WellFormed d x) (env : Env) {size : Nat}
    (hlt : size < x.size) (hclean : ShrinksClean x.size size) : ShrinkLaw d env x size := by
  obtain hsame | ⟨hmod, hone⟩ | ⟨hq, hold, hnew⟩ := hclean
  · exact shrinkLaw_same h env hlt hsame
  · exact shrinkLaw_unaligned h env hlt hmod (.inl hone)
  · by_cases hmod : x.size % 1024 = 0
    · exact shrinkLaw_aligned h env hlt hmod hq hold hnew
    · exact shrinkLaw_unaligned h env hlt hmod (.inr ⟨hold, hnew⟩)

section Shrink

variable {d d' : Disk} {x y : InCoreINode} {l bs : List Nat} {env : Env} {size : Nat} (h : Apart d x l)
  (hfits : x.Fits) (hlt : size < x.size) (hrun : d.truncateINode env x size = .ok (y, d'))

include h hfits hlt hrun

/-- All that happens to the disk is that blocks are freed. -/
theorem truncateINode_discards : ∃ bs, Discards d d' bs := by
  rw [truncateINode_shrink env h.size hlt] at hrun
  exact (decreaseLoop_discards _ _ _ hfits hrun).2.2

/-- **A file that has become smaller.**  The blocks that it does not need are on the free
list, and the others stay. -/
theorem shrink_rewrites (hy : y.size = size) (hdrops : Drops d d' bs)
    (hperm : (bs ++ d.fileBlocks x.dataBlockNums (blockCount size)).Perm
      (d.fileBlocks x.dataBlockNums (blockCount x.size)))
    (hlink : blockCount size = blockCount x.size ∨ slot (d.blocks 2) 127 ≠ 0) :
    ∃ l', l.length ≤ l'.length ∧ x.Touched y ∧ y.dataBlockNums = x.dataBlockNums ∧
      (∀ b ∈ d.fileBlocks x.dataBlockNums (blockCount size), d'.blocks b = d.blocks b) ∧
      Rewrites x d y d' l l' := by
  rw [truncateINode_shrink env h.size hlt] at hrun
  have htouched := decreaseLoop_touched _ hrun
  obtain ⟨hnoted, hnums, bs', hbs⟩ := decreaseLoop_discards _ _ _ hfits hrun
  obtain rfl : bs' = bs := hbs.drops.unique hdrops
  have hcount : ∀ b, bs'.count b + (d.fileBlocks x.dataBlockNums (blockCount size)).count b =
      (d.fileBlocks x.dataBlockNums (blockCount x.size)).count b := fun b => by
    rw [← hperm.count_eq, List.count_append]
  -- Blocks that stay are not freed, so the contents are where they were.
  have hstay : ∀ b ∈ d.fileBlocks x.dataBlockNums (blockCount size), d'.blocks b = d.blocks b := by
    intro b hb
    have hmem := hperm.mem_iff.mp (List.mem_append_right bs' hb)
    refine hbs.drops.frame b (h.wellFormed.own.data b hmem).2.1 fun hcon => ?_
    exact (List.nodup_append.mp (hperm.nodup_iff.mpr h.wellFormed.own.nodup)).2.2 b hcon b hb rfl
  have hlink' : bs' = [] ∨ slot (d.blocks 2) 127 ≠ 0 := hlink.imp_left fun hsame => by
    rw [hsame] at hperm
    have hlen := hperm.length_eq
    rw [List.length_append] at hlen
    exact List.eq_nil_of_length_eq_zero (by omega)
  obtain ⟨l', hl', hfree⟩ := hbs.freeBlocks h.capacity h.free (h.own.mono fun b => by
    rw [List.count_append, List.count_append, ← hcount b]
    omega) hlink'
  have hblocks : d'.fileBlocks y.dataBlockNums (blockCount y.size) =
      d.fileBlocks x.dataBlockNums (blockCount size) := by
    rw [hnums, hy]
    exact fileBlocks_same (x := { x with size := size }) (hlt.le.trans h.size) hstay
  refine ⟨l', ?_, htouched, hnums, hstay, htouched.number, htouched.device, htouched.references,
    htouched.links, hnoted.1, hnoted.2.elim (fun heq => .inr (by rw [heq]; exact ⟨rfl, rfl, rfl⟩)) .inl,
    hbs.drops.backend, hfree, fun b => ?_, fun b hb2 hmem => ?_⟩
  · rw [hl'.length_eq, List.length_append]
    omega
  · rw [hblocks, hl'.count_eq, List.count_append, ← hcount b]
    omega
  · refine hbs.drops.frame b hb2 fun hcon => hmem (List.mem_append_right _ ?_)
    exact hperm.mem_iff.mp (List.mem_append_left _ hcon)

end Shrink

section File

variable {d : Disk} {x : InCoreINode} {l : List Nat} (h : Apart d x l) (hfits : x.Fits)
  (hregular : sIsdir x.fileMode = false)

include hregular in
/-- The file is known by its bytes. -/
theorem becomes_of_bytes {d' : Disk} {y : InCoreINode} {k : Nat} {bytes : List UInt8}
    (huses : Uses x d y d' l k) (hnoted : x.Noted y) (hsize : y.size ≤ maxFileSize)
    (hx : x.size ≤ maxFileSize) (hk : k ≤ l.length)
    (htotal : blockTotal (blockCount y.size) = blockTotal (blockCount x.size) + k)
    (hbytes : (List.range y.size).map (d'.byteAt y.dataBlockNums) = bytes) :
    Becomes x d y d' l (l.drop k) { d.fileOf x.toINode with content := .bytes bytes } := by
  have hrewrites := huses.rewrites hx hsize hk htotal hnoted
  obtain ⟨nums, size, time, changed, data, rfl⟩ := huses.touched
  refine ⟨hrewrites, rfl, rfl, hsize, ?_⟩
  rw [fileOf, if_neg (by rw [hregular]; decide)]
  exact congrArg (fun bytes => File.mk _ _ _ (.bytes bytes)) hbytes

include h hfits hregular

/-- **`writeToFile`** of a regular file. -/
theorem writeLoop_becomes (now : UInt64) (buf : Nat → UInt8) (resp : BmapResponse) {size offset : Nat}
    (hoff : offset ≤ x.size) (hsize : size < 2147483648) (hmax : offset + size ≤ maxFileSize)
    (hneeds : writeNeeds size (size + 1) x.size 0 offset ≤ l.length)
    (hwhole : WritesWhole x.size size offset) :
    ∃ s, writeLoop now buf size (size + 1) ⟨x, d, resp, 0, offset, 0⟩ = .ok s ∧
      s.bytesWritten = size ∧
      Becomes x d s.iNode s.disk l (l.drop (writeNeeds size (size + 1) x.size 0 offset))
        ((d.fileOf x.toINode).write offset ((List.range size).map buf)) := by
  obtain ⟨hres, hsteady⟩ := hwhole.writeResult_eq hoff
  obtain ⟨s, hrun, hle, huses, hbw, hsz, hover⟩ := writeLoop_uses now buf hsize (size + 1) 0
    ⟨x, d, resp, 0, offset, 0⟩ l rfl (Nat.zero_le _) (by omega) h.size (by simpa using hmax) h.capacity
    h.free h.own hneeds
  rw [hres] at hbw hsz hover
  refine ⟨s, hrun, hbw, becomes_of_bytes hregular huses
    (writeLoop_noted now buf size _ hfits hrun) hle h.size hneeds
    (by rw [hsz]; exact hwhole.blockTotal_eq hoff) ?_⟩
  have hover := hover hsteady
  rw [hsz] at hover ⊢
  simp only [Nat.sub_zero, Nat.zero_add] at hover
  rw [hover.bytes hoff, bytes_fileOf hregular, List.length_map, List.length_range]

/-- **`truncateINode`** to a greater size. -/
theorem truncateINode_becomes_grow (env : Env) {size : Nat} (hle : x.size ≤ size) (hmax : size ≤ maxFileSize)
    (hneeds : growNeeds (size - x.size + 1) x.size (size - x.size) ≤ l.length) :
    ∃ y d', d.truncateINode env x size = .ok (y, d') ∧
      Becomes x d y d' l (l.drop (growNeeds (size - x.size + 1) x.size (size - x.size)))
        ((d.fileOf x.toINode).truncate size) := by
  have hgrown : ∃ y d', d.truncateINode env x size = .ok (y, d') ∧ y.size = size ∧ x.Noted y ∧
      Uses x d y d' l (growNeeds (size - x.size + 1) x.size (size - x.size)) ∧
      Overwritten d d' x.dataBlockNums y.dataBlockNums size x.size (size - x.size) fun _ => 0 := by
    rw [truncateINode]
    by_cases heq : x.size = size
    · rw [if_pos heq, heq, Nat.sub_self, growNeeds, if_neg (by omega)]
      refine ⟨x, d, rfl, heq, ⟨hfits, .inl rfl⟩, .refl x h.free, fun i hi => ?_⟩
      rw [if_neg (by omega)]
    · rw [if_neg heq, if_neg (by omega), increaseFileSizeBy]
      obtain ⟨y, d', hrun, hy, huses, hover⟩ := increaseLoop_uses env.now (size - x.size)
        (size - x.size + 1) x d 0 env.response l (by omega) (by omega) h.capacity h.free h.own hneeds
      rw [Nat.sub_zero, Nat.add_sub_cancel' hle] at hy hover
      exact ⟨y, d', hrun, hy, increaseLoop_noted _ _ _ hfits hrun, huses, hover⟩
  obtain ⟨y, d', hrun, hy, hnoted, huses, hover⟩ := hgrown
  have htotal : blockTotal (blockCount y.size) = blockTotal (blockCount x.size) +
      growNeeds (size - x.size + 1) x.size (size - x.size) := by
    rw [← blockTotal_grow (Nat.lt_succ_self _), hy, Nat.add_sub_cancel' hle]
  refine ⟨y, d', hrun, becomes_of_bytes hregular huses hnoted (by rwa [hy]) h.size hneeds htotal ?_⟩
  have hend : max x.size (x.size + (size - x.size)) = size := by omega
  have hover' : Overwritten d d' x.dataBlockNums y.dataBlockNums (max x.size (x.size + (size - x.size)))
      x.size (size - x.size) fun _ => 0 := by rwa [hend]
  have hbytes := hover'.bytes le_rfl
  rw [hend] at hbytes
  rw [hy, hbytes, bytes_fileOf hregular, List.length_map, List.length_range, List.map_const',
    List.length_range, List.take_of_length_le (by simp), List.take_of_length_le (by simpa using hle),
    List.drop_of_length_le (by simp), List.append_nil]

/-- **`truncateINode`** to a smaller size.  A block that is freed comes to a list block that
has a link. -/
theorem truncateINode_becomes_shrink (env : Env) {size : Nat} (hlt : size < x.size)
    (hclean : ShrinksClean x.size size)
    (hlink : blockCount size = blockCount x.size ∨ slot (d.blocks 2) 127 ≠ 0) :
    ∃ y d' l', d.truncateINode env x size = .ok (y, d') ∧ l.length ≤ l'.length ∧
      Becomes x d y d' l l' ((d.fileOf x.toINode).truncate size) := by
  obtain ⟨y, d', events, hrun, hy, -, htrace, hperm, -⟩ := shrinkLaw_clean h.wellFormed env hlt hclean
  obtain ⟨bs, hbs⟩ := truncateINode_discards h hfits hlt hrun
  have hfreed : FS.freed events = bs := by
    obtain ⟨events', htrace', hevents⟩ := hbs.drops.trace
    rw [htrace', List.append_cancel_left_eq] at htrace
    rw [← htrace, hevents]
  rw [hfreed] at hperm
  obtain ⟨l', hlen, htouched, hnums, hstay, hrewrites⟩ :=
    shrink_rewrites h hfits hlt hrun hy hbs.drops hperm hlink
  refine ⟨y, d', l', hrun, hlen, hrewrites, htouched.kind, htouched.mode, ?_, ?_⟩
  · rw [hy]
    exact hlt.le.trans h.size
  · have hsame := fileOf_same (x := { x.toINode with size := size }) (hlt.le.trans h.size) hstay
    obtain ⟨nums, size', time, changed, data, rfl⟩ := htouched
    cases hnums
    cases hy
    have hcut : ((List.range x.size).map (d.byteAt x.dataBlockNums)).take size' =
        (List.range size').map (d.byteAt x.dataBlockNums) := by
      rw [← List.map_take, List.take_range, Nat.min_eq_left hlt.le]
    rw [File.truncate, bytes_fileOf hregular, hcut, List.length_map, List.length_range,
      Nat.sub_eq_zero_of_le hlt.le, List.replicate_zero, List.append_nil]
    refine hsame.trans ?_
    rw [fileOf, if_neg (by rw [hregular]; decide)]
    rfl

/-- **`truncateINode`** of a regular file. -/
theorem truncateINode_becomes (env : Env) {size : Nat} (hresizes : d.Resizes l.length x.size size) :
    ∃ y d' l', d.truncateINode env x size = .ok (y, d') ∧
      l.length ≤ l'.length + growNeeds (size - x.size + 1) x.size (size - x.size) ∧
      Becomes x d y d' l l' ((d.fileOf x.toINode).truncate size) := by
  obtain ⟨hle, hmax, hneeds⟩ | ⟨hlt, hclean, hlink⟩ := hresizes
  · obtain ⟨y, d', hrun, hbecomes⟩ := truncateINode_becomes_grow h hfits hregular env hle hmax hneeds
    exact ⟨y, d', _, hrun, by rw [List.length_drop]; omega, hbecomes⟩
  · obtain ⟨y, d', l', hrun, hlen, hbecomes⟩ :=
      truncateINode_becomes_shrink h hfits hregular env hlt hclean hlink
    exact ⟨y, d', l', hrun, by omega, hbecomes⟩

end File

end Disk

end Naofs
