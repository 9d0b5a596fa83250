import Naofs.Entries
import Naofs.Transparency

/-!
# Naofs.Adding

Entries that are added to a directory.

`getAndUpdateDirectoryTable` writes one entry behind the last one, and
`updateNewDirMetaData` the first two of a new directory.  Both take the blocks they need
from the free list, and what is in the directory already stays
(`getAndUpdateDirectoryTable_entries`, `updateNewDirMetaData_entries`).
-/

namespace Naofs

/-! ## The bytes of an entry -/

namespace DirectoryEntry

/-- The 64 bytes that `addDirectoryEntry` stores. -/
def bytes (name : Nat → UInt8) (iNodeNum : Nat) (i : Nat) : UInt8 :=
  if i < filenameSize then name i else Buffer.leByte iNodeNum (i - filenameSize)

theorem put_eq_copyIn (b : DiskBlock) (offset : Nat) (name : Nat → UInt8) (num : Nat) :
    put b offset name num = b.copyIn offset 64 (bytes name num) := by
  refine Buffer.ext_peek fun i hi => ?_
  rw [put, Buffer.writeNat, Buffer.peek_copyIn, Buffer.peek_copyIn, Buffer.peek_copyIn]
  simp only [filenameSize, inodeAddressSize]
  by_cases hin : offset ≤ i ∧ i < offset + 64
  · by_cases hname : i < offset + 62
    · rw [if_neg (by omega), if_pos (by omega), if_pos (by omega), bytes, if_pos (by simp; omega)]
    · rw [if_pos (by omega), if_pos (by omega), bytes, if_neg (by simp; omega),
        show i - offset - filenameSize = i - (offset + 62) by simp; omega]
  · rw [if_neg (by omega), if_neg (by omega), if_neg (by omega)]

/-- A block in which the bytes stand has the entry. -/
theorem decode_of_bytes {b : DiskBlock} {offset : Nat} {name : Nat → UInt8} {num : Nat}
    (h : ∀ k < 64, b.peek (offset + k) = bytes name num k) :
    decode b offset = ⟨.tabulate name, num % 65536⟩ := by
  rw [← decode_put_self (.tabulate fun _ => 0) (show 0 + 64 ≤ 1024 by decide) name num]
  refine decode_congr fun k hk => ?_
  rw [h k hk, put_eq_copyIn, Buffer.peek_copyIn, if_pos (by simp only [blockSize]; omega)]
  rw [Nat.zero_add, Nat.sub_zero]

end DirectoryEntry

namespace Disk

open InCoreINode (toCInt)

section Append

variable {d : Disk} {x : InCoreINode} {l : List Nat}

/-- `bmap` keeps the fields within their types. -/
theorem bmap_fits {d' : Disk} {y : InCoreINode} {offset : Nat} {resp resp' : BmapResponse}
    {mode : BmapMode} {ret : Int} (hx : x.Fits)
    (h : d.bmap x offset resp mode = .ok (ret, resp', y, d')) : y.Fits := by
  rw [bmap] at h
  split at h
  · cases h
    exact hx
  · split at h
    · obtain ⟨⟨z, d₁⟩, hins, h⟩ := bind_eq_ok.mp h
      cases h
      exact (INodeUpdate.insertDataBlockInINode_fits hx d.blockAlloc_lt hins).1
    · obtain ⟨blk, -, h⟩ := bind_eq_ok.mp h
      cases h
      exact hx

/-- The entries of a directory that has grown by some bytes. -/
theorem entries_of_overwritten {d' : Disk} {y : InCoreINode} {k : Nat} {src : Nat → UInt8}
    (hx : x.size = 64 * entryCount x) (hsize : y.size = x.size + 64 * k)
    (hover : Overwritten d d' x.dataBlockNums y.dataBlockNums (x.size + 64 * k) x.size (64 * k) src)
    {added : List DirectoryEntry} (hlen : added.length = k)
    (hadded : ∀ i (hi : i < added.length), ∃ name num, added[i] = ⟨.tabulate name, num % 65536⟩ ∧
      ∀ j < 64, src (64 * i + j) = DirectoryEntry.bytes name num j) :
    d'.entries y = d.entries x ++ added := by
  have hcount : entryCount y = entryCount x + k := by
    rw [entryCount, hsize, hx]
    simp only [directoryEntrySize]
    omega
  refine List.ext_getElem ?_ fun i hi hi' => ?_
  · rw [length_entries, List.length_append, length_entries, hcount, hlen]
  · rw [length_entries, hcount] at hi
    rw [getElem_entries]
    by_cases hold : i < entryCount x
    · rw [List.getElem_append_left (by rw [length_entries]; exact hold), getElem_entries]
      refine entryAt_congr fun j hj => ?_
      rw [hover _ (by omega), if_neg (by omega)]
    · rw [List.getElem_append_right (by rw [length_entries]; omega)]
      simp only [length_entries]
      obtain ⟨name, num, heq, hbytes⟩ := hadded (i - entryCount x) (by omega)
      rw [heq, entryAt]
      refine DirectoryEntry.decode_of_bytes fun j hj => ?_
      have hpeek := peek_entryAt d' y.dataBlockNums i hj
      simp only [directoryEntriesInBlock, directoryEntrySize]
      rw [hpeek, hover _ (by omega), if_pos (by omega), ← hbytes j hj]
      congr 1
      omega

/-- **An entry is added** behind the others. -/
theorem getAndUpdateDirectoryTable_entries (h : DirectoryFile d x) (hfits : x.Fits) (env : Env)
    (num : Nat) (name : Nat → UInt8) (hx : x.size + 64 ≤ maxFileSize) (hcap : 2 < d.backend.capacity)
    (hfree : FreeBlocks d l)
    (hown : Own d.backend (l ++ d.fileBlocks x.dataBlockNums (blockCount x.size)))
    (hlen : endNeeds x.size ≤ l.length) :
    ∃ y d', d.getAndUpdateDirectoryTable env x num name = .ok (y, d') ∧ y.Fits ∧
      y.inodeChanged = true ∧ Uses x d y d' l (endNeeds x.size) ∧ y.size = x.size + 64 ∧
      d'.entries y = d.entries x ++ [⟨.tabulate name, num % 65536⟩] := by
  have hwhole := size_eq h
  have hfit : x.size % 1024 + 64 ≤ 1024 := by omega
  obtain ⟨blk, y, d₁, heq, hys, hlinks, hsz, huses, hover⟩ := uses_end (n := 64) env.response env.now
    (by omega) (by omega) hx hcap hfree hown hlen
  have h64 : toCInt (64 : Nat) = 64 := InCoreINode.toCInt_of_lt (by omega) (by omega)
  rw [h64] at hsz huses hover
  have hyfits := bmap_fits hfits heq
  have hadd : d₁.addDirectoryEntry blk (x.size % 1024) name num = .ok (d₁.store blk
      ((d₁.load blk d₁.backend.junk).copyIn (x.size % 1024) 64 (DirectoryEntry.bytes name num))) := by
    rw [← DirectoryEntry.put_eq_copyIn]
    exact addDirectoryEntry_ok d₁ blk hfit name num
  refine ⟨_, _, ?_, InCoreINode.fits_updateINodeMetadata hyfits env.now 64 hyfits.linksCount, rfl,
    huses _, hsz, entries_of_overwritten hwhole hsz (hover (DirectoryEntry.bytes name num)) rfl ?_⟩
  · rw [getAndUpdateDirectoryTable, if_neg (by simpa using h.searchable)]
    refine bind_eq_ok.mpr ⟨_, heq, ?_⟩
    dsimp only
    rw [if_neg (by omega)]
    exact bind_eq_ok.mpr ⟨_, hadd, rfl⟩
  · intro i hi
    obtain rfl : i = 0 := by simpa using hi
    exact ⟨name, num, rfl, fun j _ => by rw [Nat.mul_zero, Nat.zero_add]⟩

theorem store_store (d : Disk) (b : Nat) (v w : DiskBlock) : (d.store b v).store b w = d.store b w := by
  unfold store writeDiskBlock writeDeviceDiskBlock writeMemoryDiskBlock
  split <;> split <;> simp_all

/-- A block behind the disk would not keep what is stored in it. -/
theorem lt_capacity_of_overwritten {d₁ : Disk} {nums nums' : Buffer Nat blocksInInode}
    {size off len blk : Nat} (hlen : 0 < len)
    (hover : ∀ src, Overwritten d (d₁.store blk ((d₁.load blk d₁.backend.junk).copyIn off len src))
      nums nums' (size + len) size len src) : blk < d₁.backend.capacity := by
  by_contra hcon
  have hstore : ∀ v, (d₁.store blk v).blocks = d₁.blocks := fun v => by
    funext b
    rw [blocks_store, if_neg fun hb => hcon hb.2]
  have hbyte : ∀ c : UInt8, d₁.byteAt nums' size = c := fun c => by
    have hc := hover (fun _ => c) size (by omega)
    rw [if_pos (by omega)] at hc
    refine (byteAt_of_same ?_ ?_).symm.trans hc
    · rw [fileBlock, fileBlock, show (d₁.store blk _).child = d₁.child from
        funext fun b => child_congr (congrFun (hstore _) b)]
    · rw [hstore]
  exact absurd ((hbyte 0).symm.trans (hbyte 1)) (by decide)

/-- **The first entries** of a directory that has none. -/
theorem updateNewDirMetaData_entries (h0 : x.size = 0) (hfits : x.Fits) (env : Env) (parent : Nat)
    (hcap : 2 < d.backend.capacity) (hfree : FreeBlocks d l)
    (hown : Own d.backend (l ++ d.fileBlocks x.dataBlockNums (blockCount x.size)))
    (hlen : 1 ≤ l.length) :
    ∃ y d', d.updateNewDirMetaData env x parent = .ok (y, d') ∧ y.Fits ∧ y.inodeChanged = true ∧
      Uses x d { y with linksCount := x.linksCount } d' l 1 ∧ y.linksCount = 2 ∧ y.size = 128 ∧
      d'.entries y = [⟨.tabulate (bytesOf env [0x2e]), x.iNodeNumber % 65536⟩,
        ⟨.tabulate (bytesOf env [0x2e, 0x2e]), parent % 65536⟩] := by
  have hneeds : endNeeds x.size = 1 := by
    rw [h0]
    rfl
  obtain ⟨blk, y, d₁, heq, hys, hlinks, hsz, huses, hover⟩ := uses_end (n := 128) env.response env.now
    (by omega) (by omega) (by rw [h0]; decide) hcap hfree hown (by rw [hneeds]; exact hlen)
  have h128 : toCInt (128 : Nat) = 128 := InCoreINode.toCInt_of_lt (by omega) (by omega)
  rw [h128] at hsz huses hover
  rw [hneeds] at huses
  have hyfits := bmap_fits hfits heq
  have hnum : y.iNodeNumber = x.iNodeNumber := (huses d₁.backend.junk).touched.number
  have hblk := lt_capacity_of_overwritten (by omega) hover
  let first := DirectoryEntry.bytes (bytesOf env [0x2e]) x.iNodeNumber
  let second := DirectoryEntry.bytes (bytesOf env [0x2e, 0x2e]) parent
  let src : Nat → UInt8 := fun i => if i < 64 then first i else second (i - 64)
  have hadd : d₁.addDirectoryEntry blk 0 (bytesOf env [0x2e]) y.iNodeNumber = .ok (d₁.store blk
      ((d₁.load blk d₁.backend.junk).copyIn 0 64 first)) := by
    rw [hnum, ← DirectoryEntry.put_eq_copyIn]
    exact addDirectoryEntry_ok d₁ blk (by decide) _ _
  have hadd' : (d₁.store blk ((d₁.load blk d₁.backend.junk).copyIn 0 64 first)).addDirectoryEntry blk
      (0 + 64) (bytesOf env [0x2e, 0x2e]) parent = .ok (d₁.store blk
        ((d₁.load blk d₁.backend.junk).copyIn 0 128 src)) := by
    refine (addDirectoryEntry_ok _ blk (by decide) _ _).trans (congrArg Except.ok ?_)
    rw [store_store, load_of_lt _ (by rwa [backend_store]), blocks_store_self _ hblk]
    refine congrArg _ ((DirectoryEntry.put_eq_copyIn _ _ _ _).trans (Buffer.ext_peek fun i hi => ?_))
    simp only [Buffer.peek_copyIn]
    by_cases h64 : i < 64
    · rw [if_neg (by omega), if_pos (by omega), if_pos (by omega)]
      exact (if_pos (by omega)).symm
    · by_cases h128 : i < 128
      · rw [if_pos (by omega), if_pos (by omega)]
        exact (if_neg (by omega)).symm
      · rw [if_neg (by omega), if_neg (by omega), if_neg (by omega)]
  have hzero : x.size % 1024 = 0 := by rw [h0]
  have hlinked : { y.updateINodeMetadata env.now 128 2 with linksCount := x.linksCount } =
      y.updateINodeMetadata env.now 128 y.linksCount := by
    rw [hlinks]
    rfl
  refine ⟨y.updateINodeMetadata env.now 128 2,
    d₁.store blk ((d₁.load blk d₁.backend.junk).copyIn 0 128 src), ?_,
    InCoreINode.fits_updateINodeMetadata hyfits env.now _ (by decide), rfl, ?_, rfl, ?_, ?_⟩
  · rw [hzero] at heq
    refine bind_eq_ok.mpr ⟨_, heq, ?_⟩
    dsimp only
    rw [if_neg (by omega)]
    exact bind_eq_ok.mpr ⟨_, hadd, bind_eq_ok.mpr ⟨_, hadd', rfl⟩⟩
  · rw [hlinked]
    exact huses _
  · exact hsz.trans (by rw [h0])
  · have hover := hover src
    rw [hzero] at hover
    have hempty : d.entries x = [] := by
      rw [entries, entryCount, h0]
      rfl
    refine (entries_of_overwritten (k := 2) (by rw [entryCount, h0]; rfl) hsz hover rfl ?_).trans
      (congrArg (· ++ _) hempty)
    intro i hi
    obtain rfl | rfl : i = 0 ∨ i = 1 := by
      simp only [List.length_cons, List.length_nil] at hi
      omega
    · refine ⟨_, _, rfl, fun j hj => ?_⟩
      rw [Nat.mul_zero, Nat.zero_add]
      exact if_pos hj
    · refine ⟨_, _, rfl, fun j hj => ?_⟩
      rw [show 64 * 1 + j = j + 64 by omega]
      refine (if_neg (by omega)).trans ?_
      rw [Nat.add_sub_cancel]

end Append

end Disk

end Naofs
