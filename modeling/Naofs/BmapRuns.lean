import Naofs.Conservation

/-!
# Naofs.BmapRuns

`bmap` finds what it has inserted.

A file grows from nothing: `bmap` in append mode at its end, and then the size moves on,
to the end of the block or less.  `inserted` are the numbers of the data blocks in the
order in which `bmap` returned them.  If the blocks that the allocator handed out are
fresh, `bmap` in read mode finds them again at every offset (`found_of_append_run`).
-/

namespace Naofs

open Disk (blockCount)

/-- A file that grows, and the data blocks inserted so far. -/
structure AppendState where
  iNode : InCoreINode
  disk : Disk
  inserted : List Nat

namespace AppendState

/-- `bmap` at the end of the file, and `bytes` more bytes. -/
def append (st : AppendState) (now : UInt64) (resp : BmapResponse) (bytes : Nat) :
    Except Fault (Int × AppendState) := do
  let (retValue, resp, iNode, disk) ← st.disk.bmap st.iNode st.iNode.size resp .append
  .ok (retValue, ⟨iNode.updateINodeMetadata now (InCoreINode.toCInt bytes) iNode.linksCount, disk,
    if st.iNode.size % blockSize = 0 then st.inserted ++ [resp.blockNumber] else st.inserted⟩)

/-- The size does not move past the block or the largest size. -/
def Room (st : AppendState) (bytes : Nat) : Prop :=
  0 < bytes ∧ bytes ≤ blockSize - st.iNode.size % blockSize ∧ st.iNode.size + bytes ≤ maxFileSize

def Step (st st' : AppendState) : Prop :=
  ∃ now resp bytes, st.Room bytes ∧ ∃ retValue, st.append now resp bytes = .ok (retValue, st')

/-- In a run that began with the disk `d` the allocator handed out `new`; if these
blocks are fresh they are those of the file, and the data blocks are where they were
inserted. -/
structure Inv (d : Disk) (st : AppendState) (new : List Nat) : Prop where
  backend : st.disk.backend = d.backend
  allocates : Disk.Allocates d st.disk new
  size : st.iNode.size ≤ maxFileSize
  blocks : Own d.backend new → (st.disk.fileBlocks st.iNode.dataBlockNums
    (blockCount st.iNode.size)).Perm new
  inserted : Own d.backend new → st.inserted =
    (List.range (blockCount st.iNode.size)).map (st.disk.fileBlock st.iNode.dataBlockNums)

section Steps

variable {d : Disk} {st st' : AppendState} {new : List Nat} {bytes : Nat}

/-- Every append returns 0, keeps the invariant and only adds to the data blocks. -/
theorem Inv.append (h : Inv d st new) (hroom : st.Room bytes) (now : UInt64) (resp : BmapResponse) :
    ∃ st' new', st.append now resp bytes = .ok (0, st') ∧ Inv d st' (new ++ new') ∧
      st.inserted <+: st'.inserted ∧ st'.iNode.size = st.iNode.size + bytes := by
  obtain ⟨hb0, hb1, hmax⟩ := hroom
  simp only [maxFileSize, blockSize] at hb1 hmax
  have hn : st.iNode.size / 1024 < maxBlocks := by
    simp only [maxBlocks]
    omega
  obtain ⟨blk, nums', changed, d', heq, hback, new', hnew, hext⟩ :=
    Disk.bmap_end st.disk st.iNode resp hn
  obtain ⟨y, hy⟩ : ∃ y : InCoreINode,
    y = { st.iNode with dataBlockNums := nums', inodeChanged := changed } := ⟨_, rfl⟩
  rw [← hy] at heq
  have hnums : y.dataBlockNums = nums' := by rw [hy]
  have hsize : (y.updateINodeMetadata now (InCoreINode.toCInt bytes) y.linksCount).size =
      st.iNode.size + bytes := by
    rw [y.size_updateINodeMetadata now (by omega) (by rw [hy]; simp only; omega), hy]
  refine ⟨⟨y.updateINodeMetadata now (InCoreINode.toCInt bytes) y.linksCount, d',
    if st.iNode.size % blockSize = 0 then st.inserted ++ [blk] else st.inserted⟩, new', ?_, ?_, ?_,
    hsize⟩
  · exact bind_eq_ok.mpr ⟨_, heq, rfl⟩
  · -- fresh blocks extend the file
    have hown : Own d.backend (new ++ new') → Own d.backend new ∧
        Own st.disk.backend (new' ++ st.disk.fileBlocks st.iNode.dataBlockNums
          (blockCount st.iNode.size)) := by
      intro hown
      have hold : Own d.backend new := hown.mono fun b => by
        rw [List.count_append]
        omega
      refine ⟨hold, ?_⟩
      rw [h.backend]
      exact hown.perm (((h.blocks hold).append_left new').trans List.perm_append_comm)
    refine ⟨hback.trans h.backend, h.allocates.trans hnew, ?_, fun hfresh => ?_, fun hfresh => ?_⟩
    · rw [hsize]
      exact hmax
    · obtain ⟨hold, hfresh'⟩ := hown hfresh
      rw [hsize, Disk.blockCount_add hb0 hb1, InCoreINode.dataBlockNums_updateINodeMetadata, hnums]
      exact (hext hfresh').1.blocks.trans
        (((h.blocks hold).append_left new').trans List.perm_append_comm)
    · obtain ⟨hold, hfresh'⟩ := hown hfresh
      obtain ⟨hext', hlast, -⟩ := hext hfresh'
      have hsame : (List.range (blockCount st.iNode.size)).map (d'.fileBlock nums') = st.inserted := by
        rw [h.inserted hold]
        exact List.map_congr_left fun k hk => hext'.old k (List.mem_range.mp hk)
      rw [hsize, Disk.blockCount_add hb0 hb1, InCoreINode.dataBlockNums_updateINodeMetadata, hnums]
      split
      · next hmod =>
          have hcount : blockCount st.iNode.size = st.iNode.size / 1024 := by
            simp only [blockSize] at hmod
            unfold Disk.blockCount
            omega
          rw [List.range_succ, List.map_append, List.map_singleton, hlast, ← hcount, hsame]
      · next hmod =>
          have hcount : blockCount st.iNode.size = st.iNode.size / 1024 + 1 := by
            simp only [blockSize] at hmod
            unfold Disk.blockCount
            omega
          rw [← hcount, hsame]
  · dsimp only
    split
    · exact List.prefix_append _ _
    · exact List.prefix_rfl

/-- Fresh blocks are found where they were inserted. -/
theorem Inv.found (h : Inv d st new) (hfresh : Own d.backend new) {offset : Nat}
    (hoff : offset < st.iNode.size) (resp : BmapResponse) :
    st.inserted.Nodup ∧ ∃ blk, st.inserted[offset / 1024]? = some blk ∧
      st.disk.bmap st.iNode offset resp .read =
        .ok (0, ⟨blk, offset % 1024, 1024 - offset % 1024⟩, st.iNode, st.disk) := by
  have hmax := h.size
  simp only [maxFileSize] at hmax
  have hn : blockCount st.iNode.size ≤ maxBlocks := by
    simp only [maxBlocks, Disk.blockCount]
    omega
  have hq : offset / 1024 < blockCount st.iNode.size := by
    unfold Disk.blockCount
    omega
  have hown : Own st.disk.backend (st.disk.fileBlocks st.iNode.dataBlockNums
      (blockCount st.iNode.size)) := by
    rw [h.backend]
    exact hfresh.perm (h.blocks hfresh)
  refine ⟨?_, st.disk.fileBlock st.iNode.dataBlockNums (offset / 1024), ?_, ?_⟩
  · have := hown.nodup
    rw [Disk.fileBlocks, ← h.inserted hfresh] at this
    exact (List.nodup_append.mp this).1
  · rw [h.inserted hfresh, List.getElem?_map, List.getElem?_range hq]
    rfl
  · exact Disk.bmap_inside (.inl hoff) hn fun b hb =>
      (hown.data b (Disk.indirectBlocks_subset hb)).2.2

end Steps

/-! ## Whole runs -/

/-- The data blocks are found at every offset, and no two of them are the same. -/
structure Found (st : AppendState) : Prop where
  distinct : st.inserted.Nodup
  read : ∀ offset < st.iNode.size, ∀ resp, ∃ blk, st.inserted[offset / blockSize]? = some blk ∧
    st.disk.bmap st.iNode offset resp .read =
      .ok (0, ⟨blk, offset % blockSize, blockSize - offset % blockSize⟩, st.iNode, st.disk)

section Runs

variable {x : InCoreINode} {d : Disk} {st st' : AppendState}

theorem exists_inv_of_run {new : List Nat} (h : Inv d st new)
    (hrun : Relation.ReflTransGen Step st st') :
    ∃ new', Inv d st' (new ++ new') ∧ st.inserted <+: st'.inserted ∧
      st.iNode.size ≤ st'.iNode.size := by
  induction hrun with
  | refl => exact ⟨[], by rwa [List.append_nil], List.prefix_rfl, Nat.le_refl _⟩
  | tail _ hstep ih =>
      obtain ⟨new', hinv, hprefix, hle⟩ := ih
      obtain ⟨now, resp, bytes, hroom, r, hop⟩ := hstep
      obtain ⟨st'', new'', hop', hinv', hprefix', hsize⟩ := hinv.append hroom now resp
      cases hop.symm.trans hop'
      exact ⟨new' ++ new'', by rwa [← List.append_assoc], hprefix.trans hprefix', by omega⟩

/-- **Lookup undoes insertion**: every append of a run returns, and if the blocks handed
out were fresh, `bmap` finds the block that was inserted for each index, then and
after every later append. -/
theorem found_of_append_run (hempty : x.size = 0)
    (hrun : Relation.ReflTransGen Step ⟨x, d, []⟩ st) (hlater : Relation.ReflTransGen Step st st') :
    (∀ now resp bytes, st'.Room bytes → ∃ st'', st'.append now resp bytes = .ok (0, st'')) ∧
    ∃ events, st'.disk.trace = d.trace ++ events ∧
      (Own d.backend (FS.handedOut events) → Found st' ∧ st.inserted <+: st'.inserted ∧
        ∀ offset < st.iNode.size, ∀ resp, ∃ response,
          st.disk.bmap st.iNode offset resp .read = .ok (0, response, st.iNode, st.disk) ∧
          st'.disk.bmap st'.iNode offset resp .read = .ok (0, response, st'.iNode, st'.disk)) := by
  have h0 : Inv d ⟨x, d, []⟩ [] := by
    refine ⟨rfl, .refl d, by simp [hempty], fun _ => ?_, fun _ => ?_⟩
    · rw [hempty, show blockCount 0 = 0 from rfl, Disk.fileBlocks_zero]
    · rw [hempty]
      rfl
  obtain ⟨new, hinv, -⟩ := exists_inv_of_run h0 hrun
  obtain ⟨new', hinv', hprefix, hle⟩ := exists_inv_of_run hinv hlater
  rw [List.nil_append] at hinv hinv'
  refine ⟨fun now resp bytes hroom => ?_, (new ++ new').map Event.alloc, hinv'.allocates,
    fun hfresh => ?_⟩
  · obtain ⟨st'', -, hop, -⟩ := hinv'.append hroom now resp
    exact ⟨st'', hop⟩
  · rw [FS.handedOut_alloc] at hfresh
    have hold : Own d.backend new := hfresh.mono fun b => by
      rw [List.count_append]
      omega
    have hfound : Found st' := by
      refine ⟨?_, fun offset hoff resp => (hinv'.found hfresh hoff resp).2⟩
      have := (hfresh.perm (hinv'.blocks hfresh)).nodup
      rw [Disk.fileBlocks, ← hinv'.inserted hfresh] at this
      exact (List.nodup_append.mp this).1
    refine ⟨hfound, hprefix, fun offset hoff resp => ?_⟩
    obtain ⟨-, blk, hblk, hread⟩ := hinv.found hold hoff resp
    obtain ⟨-, blk', hblk', hread'⟩ := hinv'.found hfresh (hoff.trans_le hle) resp
    obtain ⟨t, ht⟩ := hprefix
    rw [← ht, List.getElem?_append_left (List.getElem?_eq_some_iff.mp hblk).1, hblk] at hblk'
    cases hblk'
    exact ⟨_, hread, hread'⟩

/-- Block 16388 is inserted into the empty inode 1 of a new file system. -/
theorem found_first : ∃ st, Step ⟨Cache.emptyINode, AllocState.smallDisk.makeFileSystem, []⟩ st ∧
    st.inserted = [16388] ∧ st.disk.bmap st.iNode 5 ⟨0, 0, 0⟩ .read =
      .ok (0, ⟨16388, 5, 1019⟩, st.iNode, st.disk) := by
  have hfree := AllocState.smallDisk.freeBlocks_makeFileSystem rfl
  have hown := AllocState.smallDisk.own_makeFileSystem rfl
  have hcap := AllocState.smallDisk.le_capacity_makeFileSystem
  simp only [dataRegionStart] at hcap
  obtain ⟨n, hn⟩ : ∃ n, 31457280 - 16388 = n + 1 := ⟨_, rfl⟩
  rw [hn, List.range'_succ] at hfree hown
  generalize AllocState.smallDisk.makeFileSystem = d at *
  obtain ⟨hblk, -⟩ := Disk.blockAlloc_cons (by omega) hfree fun hcon => (hown.data 2 hcon).2.1 rfl
  have hins : d.blockAlloc.2.insertDataBlockInINode Cache.emptyINode d.blockAlloc.1 =
      .ok ({ Cache.emptyINode with
        dataBlockNums := Cache.emptyINode.dataBlockNums.poke 0 d.blockAlloc.1 }, d.blockAlloc.2) := by
    rw [Disk.insertDataBlockInINode, if_neg (by decide)]
    rfl
  have hbmap : d.bmap Cache.emptyINode 0 ⟨0, 0, 0⟩ .append =
      .ok (0, createBMapResponse d.blockAlloc.1 0, { Cache.emptyINode with
        dataBlockNums := Cache.emptyINode.dataBlockNums.poke 0 d.blockAlloc.1 }, d.blockAlloc.2) := by
    rw [Disk.bmap, if_neg (by decide), if_pos (by decide)]
    exact bind_eq_ok.mpr ⟨_, hins, rfl⟩
  obtain ⟨st, hst⟩ : ∃ st : AppendState, st = ⟨InCoreINode.updateINodeMetadata
    { Cache.emptyINode with dataBlockNums := Cache.emptyINode.dataBlockNums.poke 0 d.blockAlloc.1 } 0
    (InCoreINode.toCInt (1024 : Nat)) Cache.emptyINode.linksCount, d.blockAlloc.2,
    [d.blockAlloc.1]⟩ := ⟨_, rfl⟩
  have hop : (AppendState.mk Cache.emptyINode d []).append 0 ⟨0, 0, 0⟩ 1024 = .ok (0, st) := by
    rw [hst]
    exact bind_eq_ok.mpr ⟨_, hbmap, rfl⟩
  have hins : st.inserted = [16388] := by rw [hst, hblk]
  have hdisk : st.disk = d.blockAlloc.2 := by rw [hst]
  have hsize : st.iNode.size = 1024 := by
    rw [hst]
    exact InCoreINode.size_updateINodeMetadata _ 0 (by omega) (by simp [Cache.emptyINode])
  have hstep : Step ⟨Cache.emptyINode, d, []⟩ st :=
    ⟨0, ⟨0, 0, 0⟩, 1024, by simp [Room, Cache.emptyINode], 0, hop⟩
  obtain ⟨-, events, hevents, hfound⟩ := found_of_append_run rfl (.single hstep) .refl
  have hnew : events = [Event.alloc 16388] := by
    rw [hdisk, Disk.trace_blockAlloc, hblk] at hevents
    exact (List.append_cancel_left hevents).symm
  rw [hnew] at hfound
  obtain ⟨blk, hblk', hread⟩ := (hfound (hown.mono fun b => by
    simp [FS.handedOut, List.count_cons])).1.read 5 (by rw [hsize]; decide) ⟨0, 0, 0⟩
  rw [hins] at hblk'
  cases hblk'
  exact ⟨st, hstep, hins, hread⟩

end Runs

end AppendState

end Naofs
