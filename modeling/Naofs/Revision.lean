import Naofs.Volume

/-!
# Naofs.Revision

One file of a tree has changed.

Whoever writes to a file, changes its length or its attributes leaves a state that is
`Revised`: the blocks that the file gives up are free, and those that it has taken were.
If it still leads to the same files, the tree is as before and the state is stocked
(`Revised.stocked`), and the volume differs in this file only (`Revised.agrees`).
-/

namespace Naofs

open Function (update update_self update_of_ne)

/-- Kind, mode and owner of a file. -/
structure INode.SameOwner (x y : INode) : Prop where
  type : y.type = x.type
  mode : y.fileMode = x.fileMode
  uid : y.ownerUid = x.ownerUid
  gid : y.groupUid = x.groupUid

/-- The mode and the owner are not among the changed fields. -/
theorem InCoreINode.Touched.sameOwner {x y : InCoreINode} (h : x.Touched y) :
    x.toINode.SameOwner y.toINode := by
  obtain ⟨_, _, _, _, _, rfl⟩ := h
  exact ⟨rfl, rfl, rfl, rfl⟩

namespace Disk

variable {d d' : Disk}

/-- A file whose blocks stay. -/
theorem fileOf_same {x : INode} (hsize : x.size ≤ maxFileSize)
    (hsame : ∀ b ∈ d.fileBlocks x.dataBlockNums (blockCount x.size), d'.blocks b = d.blocks b) :
    d'.fileOf x = d.fileOf x := by
  have hbytes : (List.range x.size).map (d'.byteAt x.dataBlockNums) =
      (List.range x.size).map (d.byteAt x.dataBlockNums) := by
    refine List.map_congr_left fun i hi => ?_
    rw [List.mem_range] at hi
    have hblock : i / 1024 < blockCount x.size := by
      simp only [blockCount]
      omega
    refine byteAt_of_same ?_ (hsame _ (mem_fileBlocks hblock))
    exact fileBlock_frame hblock (blockCount_le_max (x := x.bare) hsize) fun b hb =>
      hsame b (indirectBlocks_subset hb)
  rw [fileOf, fileOf, hbytes, entries_same (x := x.bare) hsize hsame]

end Disk

namespace FS

open Disk (blockCount)

/-- The file `n` has other blocks, and the free list is `l'`. -/
structure Revised (fs : FS) (l l' : List Nat) (n : Nat) (fs' : FS) : Prop where
  others : ∀ i < numOfInodes, i ≠ n → fs'.seen i = fs.seen i
  list : fs'.disk.blocks 3 = fs.disk.blocks 3
  backend : fs'.disk.backend = fs.disk.backend
  free : FreeBlocks fs'.disk l'
  owned : ∀ b, (fs'.blocksOf n).count b + l'.count b = l.count b + (fs.blocksOf n).count b
  frame : ∀ b, dataRegionStart ≤ b → b ∉ l ++ fs.blocksOf n → fs'.disk.blocks b = fs.disk.blocks b

/-- The file leads on to the same files as before. -/
structure SameShape (fs fs' : FS) (n : Nat) : Prop where
  directory : fs'.tree.directory n = fs.tree.directory n
  entries : fs.tree.directory n →
    fs'.disk.entries (fs'.seen n).bare = fs.disk.entries (fs.seen n).bare
  whole : fs.tree.directory n → (fs'.seen n).size = (fs.seen n).size
  size : (fs'.seen n).size ≤ maxFileSize
  links : (fs'.seen n).linksCount = (fs.seen n).linksCount

/-- Every file of the tree has blocks of its own, and none of the free list. -/
structure Housed (fs : FS) (held : List NodeId) (l : List Nat) : Prop extends TreeState fs held where
  free : FreeBlocks fs.disk l
  size : ∀ n, fs.tree.Reached n → (fs.seen n).size ≤ maxFileSize
  own : ∀ n, fs.tree.Reached n → Own fs.disk.backend (l ++ fs.blocksOf n)
  data : ∀ n, fs.tree.Reached n → ∀ b ∈ l ++ fs.blocksOf n, dataRegionStart ≤ b
  apart : ∀ n k, fs.tree.Reached n → fs.tree.Reached k → n ≠ k → (fs.blocksOf n).Disjoint (fs.blocksOf k)

/-- A stocked tree is a housed one, with its inode list. -/
theorem Stocked.housed {fs : FS} {held : List NodeId} {l : List Nat} (h : Stocked fs held l) :
    Housed fs held l := ⟨h.toTreeState, h.free, h.size, h.own, h.data, h.apart⟩

/-- The blocks of two files and of the free list are different. -/
theorem Housed.own_two {fs : FS} {held : List NodeId} {l : List Nat} (h : Housed fs held l) {n i : Nat}
    (hn : fs.tree.Reached n) (hi : fs.tree.Reached i) (hin : i ≠ n) :
    Own fs.disk.backend (l ++ fs.blocksOf n ++ fs.blocksOf i) := by
  refine ⟨List.nodup_append.mpr ⟨(h.own n hn).nodup, (List.nodup_append.mp (h.own i hi).nodup).2.1, ?_⟩,
    fun b hb => ?_⟩
  · rintro b hb c hc rfl
    obtain hb | hb := List.mem_append.mp hb
    · exact (List.nodup_append.mp (h.own i hi).nodup).2.2 b hb b hc rfl
    · exact h.apart i n hi hn hin hc hb
  · obtain hb | hb := List.mem_append.mp hb
    · exact (h.own n hn).data b hb
    · exact (h.own i hi).data b (List.mem_append_right _ hb)

/-- The blocks of two files and the free list are all different. -/
theorem Stocked.own_two {fs : FS} {held : List NodeId} {l : List Nat} (h : Stocked fs held l) {n i : Nat}
    (hn : fs.tree.Reached n) (hi : fs.tree.Reached i) (hin : i ≠ n) :
    Own fs.disk.backend (l ++ fs.blocksOf n ++ fs.blocksOf i) := h.housed.own_two hn hi hin

section Revised

variable {fs fs' : FS} {held held' : List NodeId} {l l' : List Nat} {n : Nat} (h : Stocked fs held l)
  (hr : Revised fs l l' n fs') (hn : fs.tree.Reached n)

include h hr hn

/-- The other files are where they were. -/
theorem Revised.same {i : Nat} (hi : fs.tree.Reached i) (hin : i ≠ n) :
    fs'.seen i = fs.seen i ∧ ∀ b ∈ fs.blocksOf i, fs'.disk.blocks b = fs.disk.blocks b := by
  refine ⟨hr.others i (h.number i hi) hin, fun b hb => ?_⟩
  refine hr.frame b (h.data i hi b (List.mem_append_right _ hb)) fun hcon => ?_
  obtain hcon | hcon := List.mem_append.mp hcon
  · exact (List.nodup_append.mp (h.own i hi).nodup).2.2 b hcon b hb rfl
  · exact h.apart i n hi hn hin hb hcon

/-- Other files have the blocks that they had. -/
theorem Revised.blocksOf_same {i : Nat} (hi : fs.tree.Reached i) (hin : i ≠ n) :
    fs'.blocksOf i = fs.blocksOf i := by
  obtain ⟨hseen, hsame⟩ := hr.same h hn hi hin
  rw [blocksOf, hseen]
  exact Disk.fileBlocks_same (x := (fs.seen i).bare) (h.size i hi) hsame

/-- Other directories have the entries that they had. -/
theorem Revised.entries_same {i : Nat} (hi : fs.tree.Reached i) (hin : i ≠ n) :
    fs'.disk.entries (fs'.seen i).bare = fs.disk.entries (fs.seen i).bare := by
  obtain ⟨hseen, hsame⟩ := hr.same h hn hi hin
  rw [hseen]
  exact Disk.entries_same (x := (fs.seen i).bare) (h.size i hi) hsame

/-- Other files have the contents that they had. -/
theorem Revised.file_same {i : Nat} (hi : fs.tree.Reached i) (hin : i ≠ n) :
    fs'.file i = fs.file i := by
  obtain ⟨hseen, hsame⟩ := hr.same h hn hi hin
  rw [file, hseen]
  exact Disk.fileOf_same (h.size i hi) hsame

variable (hs : SameShape fs fs' n)

include hs

/-- The tree has the directories and the entries that it had. -/
theorem Revised.tree_same {i : Nat} (hi : fs.tree.Reached i) :
    fs'.tree.directory i = fs.tree.directory i ∧
      (fs.tree.directory i → fs'.tree.entry i = fs.tree.entry i) := by
  by_cases hin : i = n
  · subst hin
    refine ⟨hs.directory, fun hdir => ?_⟩
    funext name
    change Option.map _ (List.find? _ (fs'.disk.entries (fs'.seen i).bare)) = _
    rw [hs.entries hdir]
    rfl
  · refine ⟨?_, fun _ => ?_⟩
    · change sIsdir (fs'.seen i).fileMode = sIsdir (fs.seen i).fileMode
      rw [(hr.same h hn hi hin).1]
    · funext name
      change Option.map _ (List.find? _ (fs'.disk.entries (fs'.seen i).bare)) = _
      rw [hr.entries_same h hn hi hin]
      rfl

/-- So no directory has changed, not even the revised one. -/
theorem Revised.entries_of_directory {i : Nat} (hi : fs.tree.Reached i) (hdir : fs.tree.directory i) :
    fs'.disk.entries (fs'.seen i).bare = fs.disk.entries (fs.seen i).bare := by
  by_cases hin : i = n
  · subst hin
    exact hs.entries hdir
  · exact hr.entries_same h hn hi hin

/-- The same files are reached. -/
theorem Revised.reached {i : Nat} : fs'.tree.Reached i ↔ fs.tree.Reached i :=
  Tree.reached_congr fun _ hi => hr.tree_same h hn hs hi

omit h hn hs in
/-- The revised file has blocks of its own or from the free list. -/
theorem Revised.mem {b : Nat} (hb : b ∈ l' ++ fs'.blocksOf n) : b ∈ l ++ fs.blocksOf n := by
  have hle := hr.owned b
  have hpos := List.count_pos_iff.mpr hb
  rw [← List.count_pos_iff, List.count_append]
  rw [List.count_append] at hpos
  omega

omit hs in
/-- The new free list has no block of a file. -/
theorem Revised.own {i : Nat} (hi : fs.tree.Reached i) :
    Own fs'.disk.backend (l' ++ fs'.blocksOf i) := by
  rw [hr.backend]
  by_cases hin : i = n
  · subst hin
    refine (h.own i hi).mono fun b => ?_
    have := hr.owned b
    simp only [List.count_append]
    omega
  · rw [hr.blocksOf_same h hn hi hin]
    refine (h.own_two hn hi hin).mono fun b => ?_
    have := hr.owned b
    simp only [List.count_append]
    omega

omit hs in
/-- All of these blocks are in the data region. -/
theorem Revised.data {i : Nat} (hi : fs.tree.Reached i) :
    ∀ b ∈ l' ++ fs'.blocksOf i, dataRegionStart ≤ b := by
  intro b hb
  by_cases hin : i = n
  · subst hin
    exact h.data i hi b (hr.mem hb)
  · rw [hr.blocksOf_same h hn hi hin] at hb
    obtain hb | hb := List.mem_append.mp hb
    · exact h.data n hn b (hr.mem (List.mem_append_left _ hb))
    · exact h.data i hi b (List.mem_append_right _ hb)

omit hs in
/-- The blocks of two files are still different. -/
theorem Revised.apart {i j : Nat} (hi : fs.tree.Reached i) (hj : fs.tree.Reached j) (hij : i ≠ j) :
    (fs'.blocksOf i).Disjoint (fs'.blocksOf j) := by
  have hfar : ∀ k, fs.tree.Reached k → k ≠ n → (fs'.blocksOf n).Disjoint (fs'.blocksOf k) := by
    intro k hk hkn b hb hb'
    rw [hr.blocksOf_same h hn hk hkn] at hb'
    have hmem := hr.mem (List.mem_append_right _ hb)
    exact (List.nodup_append.mp (h.own_two hn hk hkn).nodup).2.2 b hmem b hb' rfl
  by_cases hin : i = n
  · subst hin
    exact hfar j hj (Ne.symm hij)
  · by_cases hjn : j = n
    · subst hjn
      exact (hfar i hi hij).symm
    · rw [hr.blocksOf_same h hn hi hin, hr.blocksOf_same h hn hj hjn]
      exact h.apart i j hi hj hij

/-- The tree is sound in the new state. -/
theorem Revised.treeState (hc : Coherent fs' held') : TreeState fs' held' where
  coherent := hc
  number := fun i hi => h.number i ((hr.reached h hn hs).mp hi)
  linked := by
    intro i hi hi0
    rw [hr.reached h hn hs] at hi
    by_cases hin : i = n
    · subst hin
      rw [hs.links]
      exact h.linked i hi hi0
    · rw [(hr.same h hn hi hin).1]
      exact h.linked i hi hi0
  directory := by
    intro i hi hdir
    rw [hr.reached h hn hs] at hi
    have hdir' : fs.tree.directory i := (hr.tree_same h hn hs hi).1.symm.trans hdir
    have hsize : (fs'.seen i).size = (fs.seen i).size := by
      by_cases hin : i = n
      · subst hin
        exact hs.whole hdir'
      · rw [(hr.same h hn hi hin).1]
    refine ⟨⟨(hr.own h hn hi).mono fun b => ?_, ?_⟩, hdir, ?_⟩
    · change (fs'.blocksOf i).count b ≤ _
      rw [List.count_append]
      omega
    · change (fs'.seen i).size ≤ _
      rw [hsize]
      exact h.size i hi
    · change (fs'.seen i).size % _ = 0
      rw [hsize]
      exact (h.directory i hi hdir').whole
  terminated := by
    intro i hi hdir
    rw [hr.reached h hn hs] at hi
    have hdir' : fs.tree.directory i := (hr.tree_same h hn hs hi).1.symm.trans hdir
    rw [NamesEnd, hr.entries_of_directory h hn hs hi hdir']
    exact h.terminated i hi hdir'
  distinct := by
    intro i hi hdir
    rw [hr.reached h hn hs] at hi
    have hdir' : fs.tree.directory i := (hr.tree_same h hn hs hi).1.symm.trans hdir
    rw [DistinctNames, hr.entries_of_directory h hn hs hi hdir']
    exact h.distinct i hi hdir'

/-- **The state stays stocked**, where nobody gets hold of an unused inode. -/
theorem Revised.stocked (hc : Coherent fs' held')
    (hheld : ∀ z ∈ held', fs.tree.Reached (fs'.inode z).iNodeNumber ∨
      ∃ w ∈ held, (fs.inode w).iNodeNumber = (fs'.inode z).iNodeNumber) : Stocked fs' held' l' where
  toTreeState := hr.treeState h hn hs hc
  free := hr.free
  size := by
    intro i hi
    rw [hr.reached h hn hs] at hi
    by_cases hin : i = n
    · subst hin
      exact hs.size
    · rw [(hr.same h hn hi hin).1]
      exact h.size i hi
  own := fun i hi => hr.own h hn ((hr.reached h hn hs).mp hi)
  data := fun i hi => hr.data h hn ((hr.reached h hn hs).mp hi)
  apart := fun i j hi hj hij =>
    hr.apart h hn ((hr.reached h hn hs).mp hi) ((hr.reached h hn hs).mp hj) hij
  unused := by
    intro i hi hne
    rw [hr.list] at hne ⊢
    have hunused := h.unused i hi hne
    have hin : listed (fs.disk.blocks 3) i ≠ n := fun hcon =>
      hunused.unreached h.toTreeState hne (hcon ▸ hn)
    have hseen := hr.others _ (listed_lt (fs.disk.blocks 3) i) hin
    refine ⟨by rw [hseen]; exact hunused.type, by rw [hseen]; exact hunused.links, fun x hx hcon => ?_⟩
    obtain hreached | ⟨w, hw, hnum⟩ := hheld x hx
    · exact hunused.unreached h.toTreeState hne (hcon ▸ hreached)
    · exact hunused.notHeld w hw (hnum.trans hcon)
  once := by
    rw [hr.list]
    exact h.once

/-- The volume differs in this file only. -/
theorem Revised.agrees {f : File → File} (hf : fs'.file n = f (fs.file n))
    (hopened : fs'.volume.opened = fs.volume.opened) :
    (fs.volume.modify n f).Agrees fs'.volume := by
  refine Volume.Agrees.symm ⟨fun i hi => ?_, hopened.symm⟩
  rw [reached_volume, hr.reached h hn hs] at hi
  by_cases hin : i = n
  · subst hin
    exact (update_self ..).trans hf.symm
  · exact (update_of_ne hin ..).trans (hr.file_same h hn hi hin).symm

end Revised

end FS

/-! ## Changes of an inode and its blocks -/

/-- The inode `x` becomes `y`, and the free list `l` becomes `l'`. -/
structure Disk.Rewrites (x : InCoreINode) (d : Disk) (y : InCoreINode) (d' : Disk) (l l' : List Nat) :
    Prop where
  number : y.iNodeNumber = x.iNodeNumber
  device : y.deviceNumber = x.deviceNumber
  references : y.referenceCount = x.referenceCount
  links : y.linksCount = x.linksCount
  fits : y.Fits
  /-- A change is noted. -/
  noted : y.inodeChanged = true ∨
    y.toINode = x.toINode ∧ y.inodeChanged = x.inodeChanged ∧ y.fileDataChanged = x.fileDataChanged
  backend : d'.backend = d.backend
  free : FreeBlocks d' l'
  owned : ∀ b, (d'.fileBlocks y.dataBlockNums (blockCount y.size)).count b + l'.count b =
    l.count b + (d.fileBlocks x.dataBlockNums (blockCount x.size)).count b
  frame : ∀ b, b ≠ 2 → b ∉ l ++ d.fileBlocks x.dataBlockNums (blockCount x.size) →
    d'.blocks b = d.blocks b

namespace FS

open Disk (blockCount Rewrites)

/-- The file `n` has the inode `y`, and its blocks are those of `d`. -/
structure Rewritten (fs : FS) (held : List NodeId) (l l' : List Nat) (n : Nat) (y : INode) (d : Disk)
    (fs' : FS) : Prop extends Revised fs l l' n fs' where
  coherent : Coherent fs' held
  kept : ∀ z ∈ held, (fs'.inode z).iNodeNumber = (fs.inode z).iNodeNumber
  self : fs'.seen n = y
  blocks : ∀ b ∈ d.fileBlocks y.dataBlockNums (blockCount y.size), fs'.disk.blocks b = d.blocks b

/-- The inode `y` is one for the same kind of file: a directory has the entries that it had. -/
structure Reshapes (fs : FS) (n : Nat) (y : INode) (d : Disk) : Prop where
  size : y.size ≤ maxFileSize
  type : y.type = (fs.seen n).type
  kind : sIsdir y.fileMode = sIsdir (fs.seen n).fileMode
  entries : fs.tree.directory n →
    y.size = (fs.seen n).size ∧ d.entries y.bare = fs.disk.entries (fs.seen n).bare

/-- The contents are those of the new inode on the new disk. -/
theorem Rewritten.file_eq {fs fs' : FS} {held : List NodeId} {l l' : List Nat} {n : Nat} {y : INode}
    {d : Disk} (hw : Rewritten fs held l l' n y d fs') (hsize : y.size ≤ maxFileSize) :
    fs'.file n = d.fileOf y := by
  rw [file, hw.self]
  exact Disk.fileOf_same hsize hw.blocks

/-- What is rewritten keeps its kind and its links. -/
theorem Rewritten.shape {fs fs' : FS} {held : List NodeId} {l l' : List Nat} {n : Nat} {y : INode}
    {d : Disk} (hw : Rewritten fs held l l' n y d fs') (hy : Reshapes fs n y d)
    (hlinks : y.linksCount = (fs.seen n).linksCount) : SameShape fs fs' n where
  directory := by
    change sIsdir (fs'.seen n).fileMode = sIsdir (fs.seen n).fileMode
    rw [hw.self, hy.kind]
  entries := fun hdir => by
    rw [hw.self, ← (hy.entries hdir).2]
    exact Disk.entries_same (x := y.bare) hy.size hw.blocks
  whole := fun hdir => by rw [hw.self, (hy.entries hdir).1]
  size := by
    rw [hw.self]
    exact hy.size
  links := by rw [hw.self, hlinks]

section Rewrites

variable {fs fs₁ fs' : FS} {held : List NodeId} {l l' : List Nat} {n : Nat} {x : NodeId}
  {y z : InCoreINode} {d : Disk}

/-- A change under the lock of a node, which is then released. -/
theorem Coherent.rewrite (h : Coherent fs held) (hheld : x ∈ held) (hx : fs.Caches n x)
    (hw : Rewrites { fs.inode x with iNodeMutex := true } fs.disk y d l l')
    (hdata : ∀ b ∈ l ++ fs.nodeBlocks x, dataRegionStart ≤ b) :
    Coherent.Touched fs held n { y with iNodeMutex := false }
        ({ fs with disk := d }.setInode x { y with iNodeMutex := false }) ∧
      ∀ b < dataRegionStart, b ≠ 2 → d.blocks b = fs.disk.blocks b := by
  have htable : ∀ k < numOfInodes, d.diskINode k = fs.disk.diskINode k := fun k hk =>
    diskINode_of_frame hdata hw.frame hk
  refine ⟨h.update hheld hx (hw.number.trans hx.number) (hw.device.trans (h.device hx)) rfl
    hw.references hw.fits (fun hun => ?_) hw.backend htable,
    fun b hb hb2 => hw.frame b hb2 fun hmem => absurd (hdata b hmem) (by omega)⟩
  obtain hnoted | ⟨hsame, hchanged, hdataChanged⟩ := hw.noted
  · exact absurd (hun.1.symm.trans hnoted) (by decide)
  · rw [htable n (h.number n x hx)]
    refine hsame.trans (h.synced n x hx ⟨hchanged.symm.trans hun.1, hdataChanged.symm.trans hun.2⟩ ?_)
    exact .inr fun hcon => h.idle_iff.mp hcon hheld

/-- What the change does to the tree. -/
theorem Rewrites.revised (h : Stocked fs held l) (hn : fs.tree.Reached n)
    (hsame : SameBlocks fs.disk fs₁.disk) (hvalue : (fs₁.inode x).toINode = fs.seen n)
    (hw : Rewrites { fs₁.inode x with iNodeMutex := true } fs₁.disk y d l l')
    (hsize : y.size ≤ maxFileSize)
    (hothers : ∀ i < numOfInodes, i ≠ n → fs'.seen i = fs.seen i)
    (hself : fs'.seen n = y.toINode) (hdata : SameData d fs'.disk)
    (hlist : fs'.disk.blocks 3 = fs.disk.blocks 3) : Revised fs l l' n fs' := by
  have hblocks : fs₁.nodeBlocks x = fs.blocksOf n := by
    rw [nodeBlocks, hvalue, hsame.fileBlocks, blocksOf]
  have howned : ∀ b, (d.fileBlocks y.dataBlockNums (blockCount y.size)).count b + l'.count b =
      l.count b + (fs.blocksOf n).count b := by
    rw [← hblocks]
    exact hw.owned
  have hfrom : ∀ b ∈ d.fileBlocks y.dataBlockNums (blockCount y.size) ++ l', dataRegionStart ≤ b := by
    intro b hb
    refine h.data n hn b ?_
    have hpos := List.count_pos_iff.mpr hb
    have hle := howned b
    rw [List.count_append] at hpos
    rw [← List.count_pos_iff, List.count_append]
    omega
  refine ⟨hothers, hlist, ?_, ?_, fun b => ?_, fun b hb hmem => ?_⟩
  · rw [hdata.backend, hw.backend, hsame.backend]
  · exact hdata.freeBlocks (fun b hb => hfrom b (List.mem_append_right _ hb)) hw.free
  · rw [blocksOf, hself, hdata.fileBlocks hsize fun b hb => hfrom b (List.mem_append_left _ hb)]
    exact howned b
  · rw [← hblocks] at hmem
    rw [hdata.blocks b (.inr hb), hw.frame b (by simp only [dataRegionStart] at hb; omega) hmem,
      hsame.blocks]

/-- A field of the inodes that the change keeps. -/
theorem field_setInode {α : Type} (field : InCoreINode → α) (d : Disk) (hy : field y = field (fs.inode x))
    (z : NodeId) : field (({ fs with disk := d }.setInode x y).inode z) = field (fs.inode z) := by
  change field (update fs.inode x y z) = _
  by_cases hz : z = x
  · rw [hz, update_self, hy]
  · rw [update_of_ne hz]

/-- **A change through a descriptor.** -/
theorem Stocked.revise (h : Stocked fs held l) (hheld : x ∈ held) (hx : (fs.inode x).iNodeNumber = n)
    (hn : fs.tree.Reached n) (hlinks : (fs.inode x).linksCount ≠ 0)
    (hw : Rewrites { fs.inode x with iNodeMutex := true } fs.disk y d l l')
    (hsize : y.size ≤ maxFileSize) :
    Rewritten fs held l l' n y.toINode d
      ({ fs with disk := d }.setInode x { y with iNodeMutex := false }) := by
  have hcaches : fs.Caches n x := hx ▸ h.coherent.caches_of_held hheld
  have hvalue : (fs.inode x).toINode = fs.seen n := by rw [seen_of_caches hcaches, if_neg hlinks]
  have hdata : ∀ b ∈ l ++ fs.nodeBlocks x, dataRegionStart ≤ b := by
    rw [nodeBlocks, hvalue]
    exact h.data n hn
  obtain ⟨ht, hlow⟩ := h.coherent.rewrite hheld hcaches hw hdata
  have hself := ht.self
  rw [if_neg (show y.linksCount ≠ 0 by rw [hw.links]; exact hlinks)] at hself
  refine ⟨Rewrites.revised h hn (.refl _) hvalue hw hsize ht.others hself ⟨rfl, fun _ _ => rfl⟩
    (hlow 3 (by decide) (by decide)), ht.coherent, fun z _ => ?_, hself, fun _ _ => rfl⟩
  exact field_setInode (·.iNodeNumber) d (y := { y with iNodeMutex := false }) hw.number z

/-- The blocks of the file at hand are in the data region. -/
theorem Standing.data (h : Stocked fs held l) (hx : Standing fs held fs₁ x n) (hn : fs.tree.Reached n) :
    ∀ b ∈ l ++ fs₁.nodeBlocks x, dataRegionStart ≤ b := by
  rw [nodeBlocks, hx.value, hx.disk.fileBlocks]
  exact h.data n hn

/-- After a change the reference can be given back, since the inode has kept its links. -/
theorem Standing.rewrite (h : Stocked fs held l) (hx : Standing fs held fs₁ x n) (hn : fs.tree.Reached n)
    (hw : Rewrites { fs₁.inode x with iNodeMutex := true } fs₁.disk y d l l') (now : UInt64) :
    Coherent.Touched fs₁ (x :: held) n { y with iNodeMutex := false }
        ({ fs₁ with disk := d }.setInode x { y with iNodeMutex := false }) ∧
      (∀ b < dataRegionStart, b ≠ 2 → d.blocks b = fs₁.disk.blocks b) ∧
      ∃ fs₂, ({ fs₁ with disk := d }.setInode x { y with iNodeMutex := false }).iput now x = .ok (0, fs₂) ∧
        Coherent.Returned ({ fs₁ with disk := d }.setInode x { y with iNodeMutex := false }) held n x fs₂ := by
  obtain ⟨ht, hlow⟩ := hx.coherent.rewrite List.mem_cons_self hx.caches hw (hx.data h hn)
  refine ⟨ht, hlow, ht.coherent.iput now ((ht.caches n x).mpr hx.caches) ?_⟩
  rw [inode_setInode_self]
  by_cases hn0 : n = 0
  · exact .inr (.inr hn0)
  · refine .inr (.inl ?_)
    change y.linksCount ≠ 0
    rw [hw.links]
    exact fun hcon => h.linked n hn hn0 (hx.value ▸ hcon)

/-- **A change through a path**: the reference is given back. -/
theorem Standing.revise (h : Stocked fs held l) (hx : Standing fs held fs₁ x n)
    (hn : fs.tree.Reached n) (hshared : x ∈ held → (fs.seen n).linksCount ≠ 0)
    (hw : Rewrites { fs₁.inode x with iNodeMutex := true } fs₁.disk y d l l')
    (hsize : y.size ≤ maxFileSize) (now : UInt64) :
    ∃ fs₂, ({ fs₁ with disk := d }.setInode x { y with iNodeMutex := false }).iput now x = .ok (0, fs₂) ∧
      Rewritten fs held l l' n y.toINode d fs₂ ∧
      ∀ z, (fs₂.inode z).linksCount = (fs₁.inode z).linksCount := by
  have hdata := hx.data h hn
  have hlinks : y.linksCount = (fs.seen n).linksCount := by
    rw [hw.links, ← hx.value]
  have hnode : ({ fs₁ with disk := d }.setInode x { y with iNodeMutex := false }).inode x =
      { y with iNodeMutex := false } := update_self ..
  obtain ⟨ht, hlow, fs₂, hput, hret⟩ := hx.rewrite h hn hw now
  have hself : fs₂.seen n = y.toINode := by
    by_cases hmem : x ∈ held
    · rw [(hret.shared hmem).1, ht.self, if_neg]
      change y.linksCount ≠ 0
      rw [hlinks]
      exact hshared hmem
    · rw [(hret.last hmem).1, hnode]
  have hsame := hret.sameData (h.number n hn)
  refine ⟨fs₂, hput, ⟨Rewrites.revised h hn hx.disk hx.value hw hsize (fun i hi hin => ?_) hself hsame ?_,
    hret.coherent, fun z hz => ?_, hself, fun b hb => hsame.blocks b (.inr (hdata b ?_))⟩, fun z => ?_⟩
  · rw [(hret.others i hi hin).1, ht.others i hi hin, hx.seen i hi]
  · rw [hret.blocks 3 (by omega), ← hx.disk.blocks]
    exact hlow 3 (by decide) (by decide)
  · rw [hret.value z]
    exact (field_setInode (·.iNodeNumber) d (y := { y with iNodeMutex := false }) hw.number z).trans
      (hx.kept z hz)
  · have hle : _ = l.count b + (fs₁.nodeBlocks x).count b := hw.owned b
    have hpos := List.count_pos_iff.mpr hb
    rw [← List.count_pos_iff, List.count_append]
    omega
  · rw [hret.value z]
    exact field_setInode (·.linksCount) d (y := { y with iNodeMutex := false }) hw.links z

end Rewrites

end FS

end Naofs
