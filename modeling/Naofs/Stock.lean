import Naofs.Adding
import Naofs.Creation

/-!
# Naofs.Stock

The steps of a creation that succeeds.

A `Stocked` state is a tree with free inodes and free blocks.  `createFile` takes an inode
off the list (`Stocked.allocate`), adds an entry to the parent (`Stocked.enter`), writes
the links of the new file or the first two entries of a directory (`Entered.start`) and
gives both references back (`Started.finish`).  Each step is described by what an `iget`
would see after it and by the blocks it has written; `Planted` is the state at the end.
-/

namespace Naofs

open Function (update update_self update_of_ne)

/-! ## Names that fit -/

/-- A name of at most 61 bytes is stored as it is. -/
theorem DirectoryEntry.label_bytesOf (env : Env) (name : Name) (h0 : (0 : UInt8) ∉ name)
    (hlen : name.length ≤ 61) (num : Nat) :
    (⟨.tabulate (Disk.bytesOf env name), num⟩ : DirectoryEntry).Terminated ∧
      (⟨.tabulate (Disk.bytesOf env name), num⟩ : DirectoryEntry).label = name := by
  have hpeek : ∀ j ≤ name.length,
      (Buffer.tabulate (Disk.bytesOf env name) : Buffer UInt8 filenameSize).peek j = name[j]?.getD 0 := by
    intro j hj
    rw [Buffer.peek_tabulate, if_pos (by simp only [filenameSize]; omega), Disk.bytesOf, if_pos hj]
  have hend : (Buffer.tabulate (Disk.bytesOf env name) : Buffer UInt8 filenameSize).peek name.length =
      0 := by
    rw [hpeek _ le_rfl, List.getElem?_eq_none le_rfl]
    rfl
  have hterm : (⟨.tabulate (Disk.bytesOf env name), num⟩ : DirectoryEntry).Terminated :=
    ⟨name.length, by simp only [filenameSize]; omega, hend⟩
  obtain ⟨n, -, hzero, hbefore, hlabel⟩ := label_eq hterm
  have hn : n = name.length := by
    refine Nat.le_antisymm (Nat.le_of_not_lt fun hcon => hbefore _ hcon hend) ?_
    refine Nat.le_of_not_lt fun hcon => h0 ?_
    dsimp only at hzero
    rw [hpeek n hcon.le, List.getElem?_eq_getElem hcon, Option.getD_some] at hzero
    exact hzero ▸ List.getElem_mem hcon
  refine ⟨hterm, hlabel.trans (List.ext_getElem (by simpa using hn) fun i hi hi' => ?_)⟩
  rw [List.getElem_map, List.getElem_range]
  dsimp only
  rw [hpeek i hi'.le, List.getElem?_eq_getElem hi', Option.getD_some]

/-! ## Files in blocks that stay -/

namespace Disk

section Frame

variable {d d' : Disk} {x : InCoreINode} (hsize : x.size ≤ maxFileSize)
  (hsame : ∀ b ∈ d.fileBlocks x.dataBlockNums (blockCount x.size), d'.blocks b = d.blocks b)

include hsize in
/-- A file has no more blocks than an inode can address. -/
theorem blockCount_le_max : blockCount x.size ≤ maxBlocks := by
  simp only [maxFileSize] at hsize
  simp only [maxBlocks, blockCount]
  omega

include hsize hsame

/-- A file whose blocks are as they were has the same blocks. -/
theorem fileBlocks_same : d'.fileBlocks x.dataBlockNums (blockCount x.size) =
    d.fileBlocks x.dataBlockNums (blockCount x.size) :=
  fileBlocks_frame (blockCount_le_max hsize) fun b hb => hsame b (indirectBlocks_subset hb)

/-- And the same entries. -/
theorem entries_same : d'.entries x = d.entries x := by
  refine List.map_congr_left fun i hi => ?_
  rw [List.mem_range, entryCount] at hi
  have hblock : i / 16 < blockCount x.size := by
    simp only [directoryEntrySize] at hi
    simp only [blockCount]
    omega
  have hfile : d'.fileBlock x.dataBlockNums (i / 16) = d.fileBlock x.dataBlockNums (i / 16) :=
    fileBlock_frame hblock (blockCount_le_max hsize) fun b hb => hsame b (indirectBlocks_subset hb)
  simp only [entryAt, directoryEntriesInBlock]
  rw [hfile, hsame _ (mem_fileBlocks hblock)]

end Frame

end Disk

/-! ## Trees with a stock of inodes and blocks -/

namespace FS

open Disk (blockCount endNeeds Uses)

/-- The blocks of the file that is seen under a number. -/
def blocksOf (fs : FS) (n : Nat) : List Nat :=
  fs.disk.fileBlocks (fs.seen n).dataBlockNums (blockCount (fs.seen n).size)

/-- The blocks of the file of a node. -/
def nodeBlocks (fs : FS) (x : NodeId) : List Nat :=
  fs.disk.fileBlocks (fs.inode x).dataBlockNums (blockCount (fs.inode x).size)

/-- An inode that is free and that nobody holds. -/
structure Unused (fs : FS) (held : List NodeId) (m : Nat) : Prop where
  type : (fs.seen m).type = .free
  links : (fs.seen m).linksCount = 0
  notHeld : ∀ x ∈ held, (fs.inode x).iNodeNumber ≠ m

/-- A tree with the free list `l`.  The blocks of its files and of the free list are all
different, and the inode list has unused inodes only. -/
structure Stocked (fs : FS) (held : List NodeId) (l : List Nat) : Prop extends TreeState fs held where
  free : FreeBlocks fs.disk l
  size : ∀ n, fs.tree.Reached n → (fs.seen n).size ≤ maxFileSize
  own : ∀ n, fs.tree.Reached n → Own fs.disk.backend (l ++ fs.blocksOf n)
  data : ∀ n, fs.tree.Reached n → ∀ b ∈ l ++ fs.blocksOf n, dataRegionStart ≤ b
  apart : ∀ n k, fs.tree.Reached n → fs.tree.Reached k → n ≠ k →
    (fs.blocksOf n).Disjoint (fs.blocksOf k)
  unused : ∀ i < 512, listed (fs.disk.blocks 3) i ≠ 0 → fs.Unused held (listed (fs.disk.blocks 3) i)
  once : ∀ i < 512, ∀ j < 512, listed (fs.disk.blocks 3) i ≠ 0 →
    listed (fs.disk.blocks 3) i = listed (fs.disk.blocks 3) j → i = j

end FS

/-- The free list and the data region are as they were. -/
structure SameData (d d' : Disk) : Prop where
  backend : d'.backend = d.backend
  blocks : ∀ b, b = 2 ∨ dataRegionStart ≤ b → d'.blocks b = d.blocks b

namespace SameData

variable {d d' : Disk} {x : InCoreINode} {l : List Nat}

/-- The free list is in what stays. -/
theorem freeBlocks (h : SameData d d') (hdata : ∀ b ∈ l, dataRegionStart ≤ b) (hfree : FreeBlocks d l) :
    FreeBlocks d' l :=
  hfree.frame h.backend (h.blocks 2 (.inl rfl)) fun b hb => h.blocks b (.inr (hdata b hb))

section File

variable (h : SameData d d') (hsize : x.size ≤ maxFileSize)
  (hdata : ∀ b ∈ d.fileBlocks x.dataBlockNums (Disk.blockCount x.size), dataRegionStart ≤ b)

include h hsize hdata

/-- A file that lies in what stays has the same blocks. -/
theorem fileBlocks : d'.fileBlocks x.dataBlockNums (Disk.blockCount x.size) =
    d.fileBlocks x.dataBlockNums (Disk.blockCount x.size) :=
  Disk.fileBlocks_same hsize fun b hb => h.blocks b (.inr (hdata b hb))

/-- And the same entries. -/
theorem entries : d'.entries x = d.entries x :=
  Disk.entries_same hsize fun b hb => h.blocks b (.inr (hdata b hb))

end File

end SameData

/-- A file that takes blocks of the free list, with one beside it that has taken its own:
together they have no block that was not there. -/
theorem Disk.Uses.beside {d d' : Disk} {v w y : InCoreINode} {l own : List Nat} {j i : Nat}
    (hown : Own d.backend (l ++ own)) (hbounded : y.size ≤ maxFileSize)
    (hy : ∀ b, (d.fileBlocks y.dataBlockNums (Disk.blockCount y.size)).count b ≤
      (l.take j ++ own).count b)
    (hnone : d.fileBlocks v.dataBlockNums (Disk.blockCount v.size) = [])
    (huses : Disk.Uses v d w d' (l.drop j) i) :
    (∀ b ∈ d.fileBlocks y.dataBlockNums (Disk.blockCount y.size), d'.blocks b = d.blocks b) ∧
      ∀ b, (d'.fileBlocks y.dataBlockNums (Disk.blockCount y.size)).count b +
        (d'.fileBlocks w.dataBlockNums (Disk.blockCount w.size)).count b + (l.drop (j + i)).count b ≤
          l.count b + own.count b := by
  have hframe := huses.frame
  have howned := huses.owned
  rw [hnone, List.append_nil] at hframe howned
  have hsplit := Disk.count_take_add_drop l j
  -- the blocks of the file are none of those that are left on the free list
  have hsame : ∀ b ∈ d.fileBlocks y.dataBlockNums (Disk.blockCount y.size),
      d'.blocks b = d.blocks b := by
    intro b hb
    have hle := hy b
    have hpos := List.count_pos_iff.mpr hb
    have hone := List.nodup_iff_count_le_one.mp hown.nodup b
    have hpart := hsplit b
    rw [List.count_append] at hle hone
    have hmem : b ∈ l ++ own := by
      rw [← List.count_pos_iff, List.count_append]
      omega
    refine hframe b (hown.data b hmem).2.1 fun hcon => ?_
    have := List.count_pos_iff.mpr (List.mem_of_mem_take hcon)
    omega
  refine ⟨hsame, fun b => ?_⟩
  have hle := hy b
  have hle' := howned b
  have hpart := hsplit b
  have hpart' := Disk.count_take_add_drop (l.drop j) i b
  rw [List.drop_drop] at hpart'
  rw [List.count_append] at hle
  rw [Disk.fileBlocks_same hbounded hsame]
  omega

namespace FS

open Disk (blockCount endNeeds Uses)

/-! ## The steps of a creation -/

section Steps

variable {fs fs' : FS} {held : List NodeId} {n m : Nat} {x : NodeId}

/-- The order of the references does not matter. -/
theorem Coherent.perm (h : Coherent fs held) {held' : List NodeId} (hperm : held'.Perm held) :
    Coherent fs held' := by
  obtain ⟨l, q, hinv⟩ := h.cache
  refine ⟨⟨l, q, hinv.lists, hinv.unlocked, fun x => ?_⟩, h.stored, h.table, h.number, h.fits,
    h.idle, h.synced⟩
  rw [hinv.counts x, hperm.count_eq]

/-- An inode on disk that is not in use has changed. -/
theorem Coherent.renew (h : Coherent fs held) {d : Disk} (hback : d.backend = fs.disk.backend)
    (htable : ∀ k < numOfInodes, k ≠ m → d.diskINode k = fs.disk.diskINode k)
    (hself : (d.diskINode m).iNodeNumber = m ∧ (d.diskINode m).deviceNumber = 0)
    (hlinks : (fs.seen m).linksCount = 0) (hheld : ∀ x ∈ held, (fs.inode x).iNodeNumber ≠ m) :
    Coherent { fs with disk := d } held ∧
      (∀ k < numOfInodes, k ≠ m → { fs with disk := d }.seen k = fs.seen k) ∧
      { fs with disk := d }.seen m = d.diskINode m := by
  have hnode : ∀ x, fs.Caches m x → (fs.inode x).linksCount = 0 ∧ (fs.inode x).referenceCount = 0 := by
    intro x hx
    refine ⟨?_, h.idle_iff.mpr fun hmem => hheld x hmem hx.number⟩
    by_contra hne
    rw [seen_of_caches hx, if_neg hne] at hlinks
    exact hne hlinks
  obtain ⟨l, q, hinv⟩ := h.cache
  refine ⟨⟨⟨l, q, hinv.lists, hinv.unlocked, hinv.counts⟩, ?_, ?_, h.number, h.fits, h.idle, ?_⟩, ?_, ?_⟩
  · change _ ≤ d.backend.capacity
    rw [hback]
    exact h.stored
  · intro k hk
    by_cases hkm : k = m
    · rw [hkm]
      exact hself
    · change (d.diskINode k).iNodeNumber = k ∧ (d.diskINode k).deviceNumber = 0
      rw [htable k hk hkm]
      exact h.table k hk
  · intro k x hx hun hused
    by_cases hkm : k = m
    · subst hkm
      obtain ⟨h0, h0'⟩ := hnode x hx
      exact absurd hused (not_or.mpr ⟨fun hcon => hcon h0, fun hcon => hcon h0'⟩)
    · exact (h.synced k x hx hun hused).trans (htable k (h.number k x hx) hkm).symm
  · exact fun k hk hkm => seen_congr (fun _ => .rfl) (fun _ _ => rfl) (htable k hk hkm)
  · by_cases hx : ∃ x, fs.Caches m x
    · obtain ⟨x, hx⟩ := hx
      rw [seen_of_caches (show Caches { fs with disk := d } m x from hx)]
      exact if_pos (hnode x hx).1
    · exact @seen_of_uncached { fs with disk := d } m (not_exists.mp hx)

end Steps

/-- A reference to the parent, and a new inode on disk. -/
structure Allocated (fs : FS) (held : List NodeId) (x : NodeId) (n m k : Nat) (new : INode)
    (fs' : FS) : Prop where
  coherent : Coherent fs' (x :: held)
  caches : fs'.Caches n x
  value : (fs'.inode x).toINode = fs.seen n
  kept : ∀ z ∈ held, (fs'.inode z).iNodeNumber = (fs.inode z).iNodeNumber
  others : ∀ k < numOfInodes, k ≠ m → fs'.seen k = fs.seen k
  new : fs'.seen m = new
  data : SameData fs.disk fs'.disk
  list : ∀ i < 512, listed (fs'.disk.blocks 3) i = if i = k then 0 else listed (fs.disk.blocks 3) i

/-- The node of the parent is `y` now, after it has taken `j` blocks. -/
structure Staged (fs : FS) (held : List NodeId) (l : List Nat) (x : NodeId) (n j : Nat)
    (y : InCoreINode) (fs' : FS) : Prop where
  coherent : Coherent fs' (x :: held)
  caches : fs'.Caches n x
  inode : fs'.inode x = y
  kept : ∀ z ∈ held, (fs'.inode z).iNodeNumber = (fs.inode z).iNodeNumber
  bounded : y.size ≤ maxFileSize
  backend : fs'.disk.backend = fs.disk.backend
  free : FreeBlocks fs'.disk (l.drop j)
  owned : ∀ b, (fs'.disk.fileBlocks y.dataBlockNums (blockCount y.size)).count b ≤
    (l.take j ++ fs.blocksOf n).count b

/-- `initNewINode` has made `w` of the empty file of the node `z`. -/
structure Initialised (held : List NodeId) (l : List Nat) (z : NodeId) (m j : Nat)
    (inside : List DirectoryEntry) (w : InCoreINode) (fs fs' : FS) : Prop where
  touched : Coherent.Touched fs held m w fs'
  inode : fs'.inode = update fs.inode z w
  kind : w.type = (fs.inode z).type
  linked : w.linksCount ≠ 0
  small : w.size = 0 ∨ w.size = 128
  uses : Uses (fs.inode z) fs.disk { w with linksCount := (fs.inode z).linksCount } fs'.disk l j
  low : ∀ b < dataRegionStart, b ≠ 2 → fs'.disk.blocks b = fs.disk.blocks b
  inside : fs'.disk.entries w = inside

/-- The entry `e` is in the parent, whose node is `y` now. -/
structure Entered (fs : FS) (held : List NodeId) (l : List Nat) (x : NodeId) (n m k : Nat)
    (new : INode) (e : DirectoryEntry) (y : InCoreINode) (fs' : FS) : Prop where
  coherent : Coherent fs' (x :: held)
  caches : fs'.Caches n x
  inode : fs'.inode x = y
  kept : ∀ z ∈ held, (fs'.inode z).iNodeNumber = (fs.inode z).iNodeNumber
  others : ∀ k < numOfInodes, k ≠ n → k ≠ m → fs'.seen k = fs.seen k
  new : fs'.seen m = new
  self : fs'.seen n = if y.linksCount = 0 then fs'.disk.diskINode n else y.toINode
  list : ∀ i < 512, listed (fs'.disk.blocks 3) i = if i = k then 0 else listed (fs.disk.blocks 3) i
  size : y.size = (fs.seen n).size + 64
  bounded : y.size ≤ maxFileSize
  mode : y.fileMode = (fs.seen n).fileMode
  links : y.linksCount = (fs.seen n).linksCount
  backend : fs'.disk.backend = fs.disk.backend
  free : FreeBlocks fs'.disk (l.drop (endNeeds (fs.seen n).size))
  owned : ∀ b, (fs'.disk.fileBlocks y.dataBlockNums (blockCount y.size)).count b ≤
    (l.take (endNeeds (fs.seen n).size) ++ fs.blocksOf n).count b
  frame : ∀ b, dataRegionStart ≤ b → b ∉ l.take (endNeeds (fs.seen n).size) ++ fs.blocksOf n →
    fs'.disk.blocks b = fs.disk.blocks b
  entries : fs'.disk.entries y = fs.disk.entries (fs.seen n).bare ++ [e]

/-- The inode that `getNewINode` writes over an old one. -/
def newINode (env : Env) (fileType : INodeType) (mode uid gid : UInt32) (old : INode) : INode :=
  { old with
    statusChange := env.now, type := fileType, fileMode := mode, ownerUid := uid, groupUid := gid
    size := 0, linksCount := 0 }

/-- The entries of a new file. -/
def firstEntries (env : Env) (fileType : INodeType) (m n : Nat) : List DirectoryEntry :=
  if fileType = .directory then
    [⟨.tabulate (Disk.bytesOf env [0x2e]), m % 65536⟩,
      ⟨.tabulate (Disk.bytesOf env [0x2e, 0x2e]), n % 65536⟩]
  else []

/-- The new file is complete, and both inodes are in core. -/
structure Started (fs : FS) (held : List NodeId) (l : List Nat) (x z : NodeId) (n m k needs : Nat)
    (e : DirectoryEntry) (inside : List DirectoryEntry) (y w : InCoreINode) (fs' : FS) : Prop where
  coherent : Coherent fs' (z :: x :: held)
  parent : fs'.Caches n x
  child : fs'.Caches m z
  inodeParent : fs'.inode x = y
  inodeChild : fs'.inode z = w
  fresh : z ∉ x :: held
  kept : ∀ z ∈ held, (fs'.inode z).iNodeNumber = (fs.inode z).iNodeNumber
  others : ∀ k < numOfInodes, k ≠ n → k ≠ m → fs'.seen k = fs.seen k
  self : y.linksCount ≠ 0 → fs'.seen n = y.toINode
  list : ∀ i < 512, listed (fs'.disk.blocks 3) i = if i = k then 0 else listed (fs.disk.blocks 3) i
  size : y.size = (fs.seen n).size + 64
  mode : y.fileMode = (fs.seen n).fileMode
  links : y.linksCount = (fs.seen n).linksCount
  linked : w.linksCount ≠ 0
  small : w.size = 0 ∨ w.size = 128
  backend : fs'.disk.backend = fs.disk.backend
  free : FreeBlocks fs'.disk (l.drop needs)
  owned : ∀ b, (fs'.disk.fileBlocks y.dataBlockNums (blockCount y.size)).count b +
    (fs'.disk.fileBlocks w.dataBlockNums (blockCount w.size)).count b + (l.drop needs).count b ≤
      l.count b + (fs.blocksOf n).count b
  frame : ∀ b, dataRegionStart ≤ b → b ∉ l ++ fs.blocksOf n → fs'.disk.blocks b = fs.disk.blocks b
  entries : fs'.disk.entries y = fs.disk.entries (fs.seen n).bare ++ [e]
  inside : fs'.disk.entries w = inside

/-- The entry `e` of `n` is the file `m`, which has the entries `inside`. -/
structure Planted (fs : FS) (held : List NodeId) (l : List Nat) (n m k needs : Nat)
    (fileType : INodeType) (e : DirectoryEntry) (inside : List DirectoryEntry) (fs' : FS) : Prop where
  coherent : Coherent fs' held
  kept : ∀ z ∈ held, (fs'.inode z).iNodeNumber = (fs.inode z).iNodeNumber
  others : ∀ k < numOfInodes, k ≠ n → k ≠ m → fs'.seen k = fs.seen k
  list : ∀ i < 512, listed (fs'.disk.blocks 3) i = if i = k then 0 else listed (fs.disk.blocks 3) i
  size : (fs'.seen n).size = (fs.seen n).size + 64
  mode : (fs'.seen n).fileMode = (fs.seen n).fileMode
  links : (fs'.seen n).linksCount = (fs.seen n).linksCount
  type : (fs'.seen m).type = fileType
  linked : (fs'.seen m).linksCount ≠ 0
  small : (fs'.seen m).size = 0 ∨ (fs'.seen m).size = 128
  backend : fs'.disk.backend = fs.disk.backend
  free : FreeBlocks fs'.disk (l.drop needs)
  owned : ∀ b, (fs'.blocksOf n).count b + (fs'.blocksOf m).count b + (l.drop needs).count b ≤
    l.count b + (fs.blocksOf n).count b
  frame : ∀ b, dataRegionStart ≤ b → b ∉ l ++ fs.blocksOf n → fs'.disk.blocks b = fs.disk.blocks b
  entries : fs'.disk.entries (fs'.seen n).bare = fs.disk.entries (fs.seen n).bare ++ [e]
  inside : fs'.disk.entries (fs'.seen m).bare = inside
  /-- The node of the new file is free again. -/
  available : ∃ z, z ∉ held

section Run

variable {fs fs₁ : FS} {held : List NodeId} {l : List Nat} {n m k : Nat} {x : NodeId}

/-- An unused inode has no name. -/
theorem Unused.unreached (h : TreeState fs held) (hm : fs.Unused held m) (h0 : m ≠ 0) :
    ¬ fs.tree.Reached m := fun hcon => h.linked m hcon h0 hm.links

/-- **The new inode.** -/
theorem Stocked.allocate (h : Stocked fs held l) (hx : Standing fs held fs₁ x n)
    (hn : fs.tree.Reached n) (env : Env) (fileType : INodeType) (mode uid gid : UInt32)
    (hk : k < 511) (hz : ∀ i < k, listed (fs.disk.blocks 3) i = 0)
    (hm : listed (fs.disk.blocks 3) k = m) (h0 : m ≠ 0) :
    ∃ fs₂, getNewINode env fileType mode uid gid fs₁ = .ok (m, fs₂) ∧
      Allocated fs held x n m k (newINode env fileType mode uid gid (fs.disk.diskINode m)) fs₂ := by
  have hunused := h.unused k (by omega) (by rwa [hm])
  rw [hm] at hunused
  have hlt : m < numOfInodes := hm ▸ listed_lt _ _
  have hnm : n ≠ m := fun hcon => hunused.unreached h.toTreeState h0 (hcon ▸ hn)
  have hblocks := hx.disk.blocks
  have hcap : dataRegionStart ≤ fs₁.disk.backend.capacity := hx.coherent.stored
  have hz₁ : ∀ i < k, listed (fs₁.disk.blocks 3) i = 0 := by rwa [hblocks]
  have hm₁ : listed (fs₁.disk.blocks 3) k = m := by rwa [hblocks]
  have hne₁ : listed (fs₁.disk.blocks 3) k ≠ 0 := by rwa [hm₁]
  obtain ⟨hnum, hback, hlist, htable⟩ :=
    Disk.getNewINode_take hcap hz₁ env.now fileType mode uid gid hk hne₁
  obtain ⟨hself, hframe⟩ := Disk.getNewINode_taken hcap hz₁ env.now fileType mode uid gid hk hne₁
  rw [hm₁] at hnum htable hself hframe
  rw [hx.disk.diskINode] at hself
  obtain ⟨htab, hdev⟩ := h.coherent.table m hlt
  have hheld : ∀ z ∈ x :: held, (fs₁.inode z).iNodeNumber ≠ m := by
    intro z hz
    obtain rfl | hz := List.mem_cons.mp hz
    · rw [hx.caches.number]
      exact hnm
    · rw [hx.kept z hz]
      exact hunused.notHeld z hz
  obtain ⟨hcoherent, hothers, hnew⟩ := hx.coherent.renew (m := m) hback (fun k _ hkm => htable k hkm)
    (by rw [hself]; exact ⟨htab, hdev⟩) (by rw [hx.seen m hlt]; exact hunused.links) hheld
  refine ⟨{ fs₁ with disk := (fs₁.disk.getNewINode env.now fileType mode uid gid).2 },
    congrArg (fun i => Except.ok (i, _)) hnum, hcoherent, hx.caches, hx.value, hx.kept, ?_, ?_, ?_, ?_⟩
  · exact fun k hk hkm => (hothers k hk hkm).trans (hx.seen k hk)
  · exact hnew.trans hself
  · refine ⟨hback.trans hx.disk.backend, fun b hb => ?_⟩
    simp only [dataRegionStart] at hb
    simp only [numOfInodes] at hlt
    rw [← congrFun hblocks b]
    exact hframe b (by omega) (by omega)
  · rw [hblocks] at hlist
    exact hlist

/-- A write to the data region keeps the table. -/
theorem diskINode_of_frame {d d' : Disk} {l : List Nat} (hdata : ∀ b ∈ l, dataRegionStart ≤ b)
    (hframe : ∀ b, b ≠ 2 → b ∉ l → d'.blocks b = d.blocks b) {k : Nat} (hk : k < numOfInodes) :
    d'.diskINode k = d.diskINode k := by
  simp only [numOfInodes] at hk
  simp only [dataRegionStart] at hdata
  refine d.diskINode_congr (hframe _ (by omega) fun hmem => ?_)
  have := hdata _ hmem
  omega

/-- A held node that takes blocks of the free list: nothing below the data region is
written but the free list. -/
theorem Coherent.spend {y : InCoreINode} {d : Disk} {j : Nat} (h : Coherent fs held)
    (hheld : x ∈ held) (hx : fs.Caches n x)
    (huses : Uses (fs.inode x) fs.disk { y with linksCount := (fs.inode x).linksCount } d l j)
    (hdata : ∀ b ∈ l.take j ++ fs.nodeBlocks x, dataRegionStart ≤ b) (hfits : y.Fits)
    (hchanged : y.inodeChanged = true) :
    Coherent.Touched fs held n y ({ fs with disk := d }.setInode x y) ∧
      ∀ b < dataRegionStart, b ≠ 2 → d.blocks b = fs.disk.blocks b := by
  have htouched := huses.touched
  refine ⟨h.update hheld hx (htouched.number.trans hx.number) (htouched.device.trans (h.device hx))
    (htouched.mutex.trans (h.unlocked x)) htouched.references hfits
    (fun hun => absurd (hun.1.symm.trans hchanged) (by decide)) huses.backend
    fun k hk => diskINode_of_frame hdata huses.frame hk, fun b hb hb2 => ?_⟩
  exact huses.frame b hb2 fun hmem => absurd (hdata b hmem) (by omega)

section Parent

variable (h : Stocked fs held l) {new : INode} (hx : Allocated fs held x n m k new fs₁)
  (hn : fs.tree.Reached n)

include h hx hn

/-- The parent has the blocks that it had. -/
theorem Allocated.nodeBlocks : fs₁.nodeBlocks x = fs.blocksOf n := by
  rw [FS.nodeBlocks, hx.value]
  exact hx.data.fileBlocks (x := (fs.seen n).bare) (h.size n hn) fun b hb =>
    h.data n hn b (List.mem_append_right _ hb)

/-- The file at hand and the free list are different from each other. -/
theorem Allocated.own : Own fs₁.disk.backend (l ++ fs₁.nodeBlocks x) := by
  rw [hx.nodeBlocks h hn, hx.data.backend]
  exact h.own n hn

/-- The blocks of the parent and those that it may take. -/
theorem Allocated.le_of_mem {b j : Nat} (hb : b ∈ l.take j ++ fs₁.nodeBlocks x) : dataRegionStart ≤ b := by
  rw [hx.nodeBlocks h hn] at hb
  refine h.data n hn b ((List.mem_append.mp hb).elim (fun hb => ?_) fun hb => ?_)
  · exact List.mem_append_left _ (List.mem_of_mem_take hb)
  · exact List.mem_append_right _ hb

/-- Taking an inode takes no block. -/
theorem Allocated.freeBlocks : FreeBlocks fs₁.disk l :=
  hx.data.freeBlocks (fun b hb => h.data n hn b (List.mem_append_left _ hb)) h.free

/-- `getAndUpdateDirectoryTable` on the parent, which is a directory. -/
theorem Allocated.add (hdir : fs.tree.directory n) (env : Env) (name : Name)
    (hsize : (fs.seen n).size + 64 ≤ maxFileSize) (hlen : endNeeds (fs.seen n).size ≤ l.length) :
    ∃ y d, getAndUpdateDirectoryTable env x m name fs₁ =
        .ok ((), { fs₁ with disk := d }.setInode x y) ∧
      y.Fits ∧ y.inodeChanged = true ∧
      Uses (fs₁.inode x) fs₁.disk y d l (endNeeds (fs.seen n).size) ∧
      y.size = (fs.seen n).size + 64 ∧
      d.entries y = fs.disk.entries (fs.seen n).bare ++
        [⟨.tabulate (Disk.bytesOf env name), m % 65536⟩] := by
  have hle := h.size n hn
  have hentries : fs₁.disk.entries (fs₁.inode x) = fs.disk.entries (fs.seen n).bare := by
    rw [(SameBlocks.refl fs₁.disk).entries (y := fs₁.inode x) (x := (fs.seen n).bare) hx.value]
    exact hx.data.entries hle fun b hb => h.data n hn b (List.mem_append_right _ hb)
  have hown := hx.own h hn
  have hfile : DirectoryFile fs₁.disk (fs₁.inode x) := by
    have hdirectory := h.directory n hn hdir
    refine ⟨⟨hown.mono fun b => ?_, by rw [hx.value]; exact hle⟩, ?_,
      by rw [hx.value]; exact hdirectory.whole⟩
    · rw [List.count_append]
      exact Nat.le_add_left ..
    · rw [validateSearch, hx.value]
      exact hdirectory.searchable
  have hcap : 2 < fs₁.disk.backend.capacity := by
    have := hx.coherent.stored
    simp only [dataRegionStart] at this
    omega
  have hsz : (fs₁.inode x).size = (fs.seen n).size := by rw [hx.value]
  obtain ⟨y, d, heq, hfits, hchanged, huses, hgrown, hadded⟩ :=
    Disk.getAndUpdateDirectoryTable_entries hfile (hx.coherent.fits n x hx.caches) env m
      (Disk.bytesOf env name) (by rwa [hsz]) hcap (hx.freeBlocks h hn) hown (by rwa [hsz])
  rw [hsz] at huses hgrown
  exact ⟨y, d, onINode_ok heq, hfits, hchanged, huses, hgrown, hadded.trans (by rw [hentries])⟩

end Parent

/-- **The new entry.** -/
theorem Stocked.enter (h : Stocked fs held l) {new : INode} (hx : Allocated fs held x n m k new fs₁)
    (hn : fs.tree.Reached n) (hnm : n ≠ m) (hm : m < numOfInodes) (hdir : fs.tree.directory n)
    (env : Env) (name : Name) (hsize : (fs.seen n).size + 64 ≤ maxFileSize)
    (hlen : endNeeds (fs.seen n).size ≤ l.length) :
    ∃ y fs₂, getAndUpdateDirectoryTable env x m name fs₁ = .ok ((), fs₂) ∧
      Entered fs held l x n m k new ⟨.tabulate (Disk.bytesOf env name), m % 65536⟩ y fs₂ := by
  obtain ⟨y, d, heq, hfits, hchanged, huses, hgrown, hadded⟩ := hx.add h hn hdir env name hsize hlen
  have htouched := huses.touched
  have hsame : { y with linksCount := (fs₁.inode x).linksCount } = y := by rw [← htouched.links]
  obtain ⟨ht, hlow⟩ := hx.coherent.spend List.mem_cons_self hx.caches (by rwa [hsame])
    (fun b hb => hx.le_of_mem h hn hb) hfits hchanged
  have hframe := huses.frame
  have howned := huses.owned
  change ∀ b, b ≠ 2 → b ∉ _ ++ fs₁.nodeBlocks x → _ at hframe
  change ∀ b, _ ≤ (_ ++ fs₁.nodeBlocks x).count b at howned
  rw [hx.nodeBlocks h hn] at hframe howned
  refine ⟨y, _, heq, ht.coherent, (ht.caches n x).mpr hx.caches, update_self .., ?_, ?_, ?_, ht.self, ?_,
    hgrown, by rw [hgrown]; exact hsize, ?_, ?_, huses.backend.trans hx.data.backend, huses.free, howned,
    ?_, hadded⟩
  · intro z hz
    rw [← hx.kept z hz]
    change (update fs₁.inode x y z).iNodeNumber = _
    by_cases hzx : z = x
    · rw [hzx, update_self, htouched.number]
    · rw [update_of_ne hzx]
  · exact fun k hk hkn hkm => (ht.others k hk hkn).trans (hx.others k hk hkm)
  · exact (ht.others m hm hnm.symm).trans hx.new
  · intro i hi
    rw [← hx.list i hi]
    exact congrArg (listed · i) (hlow 3 (by decide) (by decide))
  · rw [htouched.mode, hx.value]
  · rw [htouched.links, hx.value]
  · intro b hb hnot
    exact (hframe b (by rintro rfl; exact absurd hb (by decide)) hnot).trans (hx.data.blocks b (.inr hb))

/-- The first entries and the links of an empty file. -/
theorem initNewINode_eq (env : Env) {fileType : INodeType} (htype : fileType ≠ .free) (z x : NodeId)
    (h0 : (fs.inode z).size = 0) (hfits : (fs.inode z).Fits) (hcap : 2 < fs.disk.backend.capacity)
    (hfree : FreeBlocks fs.disk l) (hown : Own fs.disk.backend l)
    (hlen : firstNeeds fileType ≤ l.length) :
    ∃ w d, initNewINode env fileType z x fs = .ok ((), { fs with disk := d }.setInode z w) ∧
      w.Fits ∧ w.inodeChanged = true ∧ w.linksCount ≠ 0 ∧ (w.size = 0 ∨ w.size = 128) ∧
      Uses (fs.inode z) fs.disk { w with linksCount := (fs.inode z).linksCount } d l
        (firstNeeds fileType) ∧
      d.entries w = firstEntries env fileType (fs.inode z).iNodeNumber (fs.inode x).iNodeNumber := by
  have hnone : fs.disk.fileBlocks (fs.inode z).dataBlockNums (blockCount (fs.inode z).size) = [] := by
    rw [h0]
    exact Disk.fileBlocks_zero _ _
  cases fileType with
  | free => exact absurd rfl htype
  | regular =>
      have hsize : ((fs.inode z).updateINodeMetadata env.now 0 1).size = 0 := by
        change InCoreINode.wrapSize ((fs.inode z).size + 0) = 0
        rw [h0]
        rfl
      have hrun : initNewINode env .regular z x fs = .ok ((),
          { fs with disk := fs.disk }.setInode z ((fs.inode z).updateINodeMetadata env.now 0 1)) := rfl
      refine ⟨(fs.inode z).updateINodeMetadata env.now 0 1, fs.disk, hrun,
        InCoreINode.fits_updateINodeMetadata hfits _ _ (by decide), rfl, Nat.one_ne_zero, .inl hsize,
        ⟨⟨_, _, _, _, _, rfl⟩, rfl, .refl _, by rwa [firstNeeds, if_neg (by decide)], fun b => ?_,
          fun b _ _ => rfl⟩, ?_⟩
      · change (fs.disk.fileBlocks _ (blockCount ((fs.inode z).updateINodeMetadata env.now 0 1).size)).count
          b ≤ _
        rw [hsize, show blockCount 0 = 0 from rfl, Disk.fileBlocks_zero, List.count_nil]
        exact Nat.zero_le _
      · rw [Disk.entries, Disk.entryCount, hsize]
        rfl
  | directory =>
      obtain ⟨w, d, heq, hwfits, hchanged, huses, hlinks, hsize, hentries⟩ :=
        Disk.updateNewDirMetaData_entries h0 hfits env (fs.inode x).iNodeNumber hcap hfree
          (by rwa [hnone, List.append_nil]) hlen
      have hrun : updateNewDirMetaData env z (fs.inode x).iNodeNumber fs = .ok ((),
          { fs with disk := d }.setInode z w) := onINode_ok heq
      exact ⟨w, d, hrun, hwfits, hchanged, by rw [hlinks]; decide, .inr hsize, huses,
        hentries⟩

/-- The directory with its new entry, as a file that has grown. -/
theorem Entered.staged {e : DirectoryEntry} {y : InCoreINode} {new : INode}
    (h : Entered fs held l x n m k new e y fs₁) :
    Staged fs held l x n (endNeeds (fs.seen n).size) y fs₁ :=
  ⟨h.coherent, h.caches, h.inode, h.kept, h.bounded, h.backend, h.free, h.owned⟩

section Child

variable {y : InCoreINode} {j : Nat} {fs₂ : FS} {z : NodeId} (h : Stocked fs held l)
  (hs : Staged fs held l x n j y fs₁) (hn : fs.tree.Reached n)
  (hz : Coherent.Fetched fs₁ (x :: held) m z fs₂)

include hs hz

/-- The node of the new inode is another one. -/
theorem Staged.fresh (hnm : n ≠ m) (hunused : fs.Unused held m) : z ∉ x :: held := by
  refine hz.node.elim id fun hnum hmem => ?_
  obtain rfl | hmem := List.mem_cons.mp hmem
  · exact hnm (hs.caches.number.symm.trans hnum)
  · rw [hs.kept z hmem] at hnum
    exact hunused.notHeld z hmem hnum

/-- The parent is where it was. -/
theorem Staged.parent (hfresh : z ∉ x :: held) : x ≠ z ∧ fs₂.inode x = y ∧ fs₂.Caches n x := by
  have hxz : x ≠ z := fun hcon => hfresh (hcon ▸ List.mem_cons_self)
  have hy : fs₂.inode x = y := (hz.others x hxz).trans hs.inode
  have hcaches := hz.coherent.caches_of_held
    (List.mem_cons_of_mem z (List.mem_cons_self (a := x) (l := held)))
  rw [hy, ← hs.inode, hs.caches.number] at hcaches
  exact ⟨hxz, hy, hcaches⟩

include h hn

/-- `initNewINode` on the new inode, which is empty. -/
theorem Staged.start (hfresh : z ∉ x :: held) (env : Env) {fileType : INodeType}
    (htype : fileType ≠ .free) (hnew : (fs₁.seen m).size = 0)
    (hlen : j + firstNeeds fileType ≤ l.length) :
    ∃ w fs₃, initNewINode env fileType z x fs₂ = .ok ((), fs₃) ∧
      Initialised (z :: x :: held) (l.drop j) z m (firstNeeds fileType) (firstEntries env fileType m n) w
        fs₂ fs₃ ∧
      (∀ b ∈ fs₁.disk.fileBlocks y.dataBlockNums (blockCount y.size),
        fs₃.disk.blocks b = fs₁.disk.blocks b) ∧
      ∀ b, (fs₃.disk.fileBlocks y.dataBlockNums (blockCount y.size)).count b +
        (fs₃.disk.fileBlocks w.dataBlockNums (blockCount w.size)).count b +
          (l.drop (j + firstNeeds fileType)).count b ≤ l.count b + (fs.blocksOf n).count b := by
  obtain ⟨-, hy, hcaches⟩ := hs.parent hz hfresh
  have hsize : (fs₂.inode z).size = 0 := by rw [hz.value, hnew]
  have hback : fs₂.disk.backend = fs.disk.backend := hz.disk.backend.trans hs.backend
  have hown : Own fs₂.disk.backend (l.drop j) := by
    rw [hback]
    refine (h.own n hn).mono fun b => ?_
    have := Disk.count_take_add_drop l j b
    rw [List.count_append]
    omega
  have hfree : FreeBlocks fs₂.disk (l.drop j) :=
    hs.free.frame hz.disk.backend (congrFun hz.disk.blocks 2) fun b _ => congrFun hz.disk.blocks b
  have hcap : 2 < fs₂.disk.backend.capacity := by
    have := hz.coherent.stored
    simp only [dataRegionStart] at this
    omega
  obtain ⟨w, d, heq, hfits, hchanged, hlinked, hsmall, huses, hinside⟩ := initNewINode_eq env htype z x
    hsize (hz.coherent.fits m z hz.caches) hcap hfree hown (by rw [List.length_drop]; omega)
  have hnone : fs₂.disk.fileBlocks (fs₂.inode z).dataBlockNums (blockCount (fs₂.inode z).size) = [] := by
    rw [hsize]
    exact Disk.fileBlocks_zero _ _
  obtain ⟨ht, hlow⟩ := hz.coherent.spend List.mem_cons_self hz.caches huses (fun b hb => by
    rw [nodeBlocks, hnone, List.append_nil] at hb
    exact h.data n hn b (List.mem_append_left _ (List.mem_of_mem_drop (List.mem_of_mem_take hb))))
    hfits hchanged
  have howned := hs.owned
  rw [← hz.disk.fileBlocks] at howned
  obtain ⟨hsame, hcount⟩ := huses.beside (by rw [hback]; exact h.own n hn) hs.bounded howned hnone
  rw [hz.caches.number, hcaches.number] at hinside
  rw [hz.disk.fileBlocks, hz.disk.blocks] at hsame
  exact ⟨w, _, heq, ⟨ht, rfl, huses.touched.kind, hlinked, hsmall, huses, hlow, hinside⟩, hsame, hcount⟩

end Child

/-- **The new file.** -/
theorem Entered.start {e : DirectoryEntry} {y : InCoreINode} {new : INode} {fs₂ : FS} {z : NodeId}
    (h : Stocked fs held l) (he : Entered fs held l x n m k new e y fs₁) (hn : fs.tree.Reached n)
    (hnm : n ≠ m) (hunused : fs.Unused held m)
    (hz : Coherent.Fetched fs₁ (x :: held) m z fs₂) (env : Env) {fileType : INodeType}
    (htype : fileType ≠ .free) (hnew : new.size = 0)
    (hlen : endNeeds (fs.seen n).size + firstNeeds fileType ≤ l.length) :
    ∃ w fs₃, initNewINode env fileType z x fs₂ = .ok ((), fs₃) ∧ w.type = new.type ∧
      Started fs held l x z n m k (endNeeds (fs.seen n).size + firstNeeds fileType) e
        (firstEntries env fileType m n) y w fs₃ := by
  have hlt := h.number n hn
  have hfresh := he.staged.fresh hz hnm hunused
  obtain ⟨hxz, hy, hxcaches⟩ := he.staged.parent hz hfresh
  obtain ⟨w, fs₃, heq, hi, hsame, hcount⟩ := he.staged.start h hn hz hfresh env htype
    (by rw [he.new, hnew]) hlen
  have hvalue : (fs₂.inode z).toINode = new := hz.value.trans he.new
  have hframe := hi.uses.frame
  rw [show fs₂.disk.fileBlocks (fs₂.inode z).dataBlockNums (blockCount (fs₂.inode z).size) = [] by
    rw [hvalue, hnew]
    exact Disk.fileBlocks_zero _ _, List.append_nil] at hframe
  refine ⟨w, fs₃, heq, hi.kind.trans (by rw [hvalue]), hi.touched.coherent,
    (hi.touched.caches n x).mpr hxcaches, (hi.touched.caches m z).mpr hz.caches, ?_, ?_, hfresh, ?_, ?_, ?_,
    ?_, he.size, he.mode, he.links, hi.linked, hi.small,
    hi.uses.backend.trans (hz.disk.backend.trans he.backend), ?_, hcount, ?_, ?_, hi.inside⟩
  · rw [hi.inode, update_of_ne hxz, hy]
  · rw [hi.inode, update_self]
  · intro v hv
    have hvz : v ≠ z := fun hcon => hfresh (List.mem_cons_of_mem _ (hcon ▸ hv))
    rw [← he.kept v hv, ← hz.others v hvz, hi.inode, update_of_ne hvz]
  · intro i hi' hin him
    rw [hi.touched.others i hi' him, hz.seen i hi', he.others i hi' hin him]
  · intro hlinks
    rw [hi.touched.others n hlt hnm, hz.seen n hlt, he.self, if_neg hlinks]
  · intro i hi'
    rw [← he.list i hi', hi.low 3 (by decide) (by decide), hz.disk.blocks]
  · have := hi.uses.free
    rwa [List.drop_drop] at this
  · intro b hb hnot
    rw [List.mem_append, not_or] at hnot
    have hne : b ≠ 2 := by
      rintro rfl
      exact absurd hb (by decide)
    have hfirst : fs₁.disk.blocks b = fs.disk.blocks b := he.frame b hb fun hcon =>
      (List.mem_append.mp hcon).elim (fun hcon => hnot.1 (List.mem_of_mem_take hcon)) hnot.2
    rw [← hfirst, ← congrFun hz.disk.blocks b]
    exact hframe b hne fun hcon => hnot.1 (List.mem_of_mem_drop (List.mem_of_mem_take hcon))
  · exact (Disk.entries_same he.bounded hsame).trans he.entries

/-- Giving back an inode writes at most the block of the inode. -/
theorem Coherent.Returned.sameData {fs' : FS} (h : Coherent.Returned fs held n x fs')
    (hn : n < numOfInodes) : SameData fs.disk fs'.disk := by
  simp only [numOfInodes] at hn
  refine ⟨h.backend, fun b hb => h.blocks b ?_⟩
  simp only [dataRegionStart] at hb
  omega

/-- **The references** to both inodes are given back. -/
theorem Started.finish {e : DirectoryEntry} {inside : List DirectoryEntry} {y w : InCoreINode}
    {z : NodeId} {needs : Nat} (h : Stocked fs held l)
    (hs : Started fs held l x z n m k needs e inside y w fs₁) (hn : fs.tree.Reached n) (hnm : n ≠ m)
    (now : UInt64) (hbounded : y.size ≤ maxFileSize)
    (hroot : (fs.seen n).linksCount = 0 → x ∉ held) :
    ∃ fs₂ fs₃, fs₁.iput now x = .ok (0, fs₂) ∧ fs₂.iput now z = .ok (0, fs₃) ∧
      Planted fs held l n m k needs w.type e inside fs₃ := by
  have hlt := h.number n hn
  have hltm := hs.coherent.number m z hs.child
  have hzheld : z ∉ held := fun hcon => hs.fresh (List.mem_cons_of_mem _ hcon)
  have hxz : x ≠ z := fun hcon => hs.fresh (hcon ▸ List.mem_cons_self)
  have hkept : x ∈ z :: held ∨ (fs₁.inode x).linksCount ≠ 0 ∨ n = 0 := by
    rw [hs.inodeParent, hs.links]
    by_cases h0 : n = 0
    · exact .inr (.inr h0)
    · exact .inr (.inl (h.linked n hn h0))
  obtain ⟨fs₂, hput, hx⟩ := (hs.coherent.perm (List.Perm.swap z x held)).iput now hs.parent hkept
  have hw : (fs₂.inode z).toINode = w.toINode := by rw [hx.value, hs.inodeChild]
  obtain ⟨fs₃, hput', hz⟩ := hx.coherent.iput now ((hx.caches m z).mpr hs.child)
    (.inr (.inl (by rw [hw]; exact hs.linked)))
  have hparent : fs₃.seen n = y.toINode := by
    rw [(hz.others n hlt hnm).1]
    by_cases hmem : x ∈ held
    · rw [(hx.shared (List.mem_cons_of_mem _ hmem)).1]
      exact hs.self fun hcon => hroot (hs.links ▸ hcon) hmem
    · have hnot : x ∉ z :: held := fun hcon => (List.mem_cons.mp hcon).elim hxz hmem
      rw [(hx.last hnot).1, hs.inodeParent]
  have hchild : fs₃.seen m = w.toINode := (hz.last hzheld).1.trans hw
  have hdata : SameData fs₁.disk fs₃.disk := by
    have hfirst := hx.sameData hlt
    have hsecond := hz.sameData hltm
    exact ⟨hsecond.backend.trans hfirst.backend, fun b hb =>
      (hsecond.blocks b hb).trans (hfirst.blocks b hb)⟩
  have hstart := h.data n hn
  -- all blocks of the two files are in the data region
  have hregion : ∀ b, 0 < l.count b + (fs.blocksOf n).count b → dataRegionStart ≤ b := by
    intro b hb
    rw [← List.count_append, List.count_pos_iff] at hb
    exact hstart b hb
  have hyregion : ∀ b ∈ fs₁.disk.fileBlocks y.dataBlockNums (blockCount y.size), dataRegionStart ≤ b := by
    intro b hb
    have := hs.owned b
    have := List.count_pos_iff.mpr hb
    exact hregion b (by omega)
  have hwregion : ∀ b ∈ fs₁.disk.fileBlocks w.dataBlockNums (blockCount w.size), dataRegionStart ≤ b := by
    intro b hb
    have := hs.owned b
    have := List.count_pos_iff.mpr hb
    exact hregion b (by omega)
  have hwbounded : w.size ≤ maxFileSize := by
    obtain h0 | h128 := hs.small
    · rw [h0]
      decide
    · rw [h128]
      decide
  refine ⟨fs₂, fs₃, hput, hput', hz.coherent, ?_, ?_, ?_, ?_, ?_, ?_, ?_, ?_, ?_,
    hdata.backend.trans hs.backend, ?_, ?_, ?_, ?_, ?_, z, hzheld⟩
  · intro v hv
    rw [hz.value, hx.value, hs.kept v hv]
  · intro i hi hin him
    rw [(hz.others i hi him).1, (hx.others i hi hin).1, hs.others i hi hin him]
  · intro i hi
    simp only [numOfInodes] at hlt hltm
    rw [← hs.list i hi, hz.blocks 3 (by omega), hx.blocks 3 (by omega)]
  · rw [hparent, hs.size]
  · rw [hparent, hs.mode]
  · rw [hparent, hs.links]
  · rw [hchild]
  · rw [hchild]
    exact hs.linked
  · rw [hchild]
    exact hs.small
  · refine hdata.freeBlocks (fun b hb => ?_) hs.free
    exact hstart b (List.mem_append_left _ (List.mem_of_mem_drop hb))
  · intro b
    rw [blocksOf, blocksOf, hparent, hchild, hdata.fileBlocks hbounded hyregion,
      hdata.fileBlocks hwbounded hwregion]
    exact hs.owned b
  · exact fun b hb hnot => (hdata.blocks b (.inr hb)).trans (hs.frame b hb hnot)
  · rw [(SameBlocks.refl fs₃.disk).entries (y := (fs₃.seen n).bare) (x := y) hparent,
      hdata.entries hbounded hyregion, hs.entries]
  · rw [(SameBlocks.refl fs₃.disk).entries (y := (fs₃.seen m).bare) (x := w) hchild,
      hdata.entries hwbounded hwregion, hs.inside]

end Run

end FS

end Naofs
