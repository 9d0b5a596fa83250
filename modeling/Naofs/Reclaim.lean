import Naofs.Holding
import Naofs.Rewriting

/-!
# Naofs.Reclaim

A file that has no links any more.

When its last reference is given back, `iput` writes the inode, frees its blocks and then
its number (`releaseUnlinked`).  `Coherent.release` says that the blocks are on the free
list then, that the number is on the list of free inodes or can be found in the table, and
that every other inode is seen as before.
-/

namespace Naofs

open Function (update update_self update_of_ne)

/-- A store behind the end. -/
theorem Buffer.poke_of_le {α : Type} [Inhabited α] {n i : Nat} (b : Buffer α n) (h : n ≤ i) (v : α) :
    b.poke i v = b := by
  refine Buffer.ext_peek fun j hj => ?_
  rw [Buffer.peek_poke, if_neg fun hcon => by omega]

/-- A long free list goes on behind its first block. -/
theorem FreeBlocks.linked {d : Disk} {l : List Nat} (h : FreeBlocks d l) (hlen : 127 < l.length) :
    slot (d.blocks 2) 127 ≠ 0 := by
  rw [FreeBlocks] at h
  generalize d.blocks 2 = b at h ⊢
  cases h with
  | last _ =>
      have hle : (front b).length ≤ 127 := by
        rw [front_eq, usedSlots]
        exact (List.length_filter_le ..).trans (by rw [List.length_map, List.length_range])
      omega
  | link hne _ _ => exact hne

namespace Disk

/-! ## Freeing the blocks -/

section Blocks

variable {d d' : Disk} {x y : InCoreINode}

/-- The loops and the recursion of `inodeBlocksFree` free one block after the other. -/
theorem diskBlockFree_foldl : ∀ (level : Nat) (d : Disk) (b : Nat) (left : Int),
    ∃ bs : List Nat, (diskBlockFree level d b left).1 = bs.foldl blockFree d := by
  intro level
  induction level with
  | zero => exact fun d b _ => ⟨[b], rfl⟩
  | succ level ih =>
      intro d b left
      have hloop : ∀ (blocks : List Nat) (s : Disk × Int) (nums : Nat → Nat), ∃ bs : List Nat,
          (blocks.foldl (fun (s : Disk × Int) i =>
            if s.2 > 0 then diskBlockFree level s.1 (nums i) s.2 else s) s).1 = bs.foldl blockFree s.1 := by
        intro blocks
        induction blocks with
        | nil => exact fun s _ => ⟨[], rfl⟩
        | cons i blocks ihb =>
            intro s nums
            rw [List.foldl_cons]
            split
            · obtain ⟨bs, hbs⟩ := ih s.1 (nums i) s.2
              obtain ⟨bs', hbs'⟩ := ihb (diskBlockFree level s.1 (nums i) s.2) nums
              exact ⟨bs ++ bs', by rw [hbs', hbs, List.foldl_append]⟩
            · exact ihb s nums
      obtain ⟨bs, hbs⟩ := hloop (List.range blockAddressesPerBlock) (d, left)
        (makeFreeDiskListBlock (d.load b d.backend.junk)).peek
      refine ⟨bs ++ [b], ?_⟩
      rw [diskBlockFree]
      dsimp only
      rw [hbs, List.foldl_append, List.foldl_cons, List.foldl_nil]

/-- A round of a loop of `inodeBlocksFree`: it frees blocks, and clears numbers. -/
structure FreeState.Clears (s t : FreeState) : Prop where
  disk : ∃ bs : List Nat, t.disk = bs.foldl blockFree s.disk
  nums : ∀ i, t.dataBlockNums.peek i = s.dataBlockNums.peek i ∨ t.dataBlockNums.peek i = 0

theorem FreeState.Clears.refl (s : FreeState) : s.Clears s := ⟨⟨[], rfl⟩, fun _ => .inl rfl⟩

/-- First some block numbers are cleared, and then others. -/
theorem FreeState.Clears.trans {s t u : FreeState} (h : s.Clears t) (h' : t.Clears u) : s.Clears u := by
  obtain ⟨⟨bs, hbs⟩, hnums⟩ := h
  obtain ⟨⟨bs', hbs'⟩, hnums'⟩ := h'
  refine ⟨⟨bs ++ bs', by rw [hbs', hbs, List.foldl_append]⟩, fun i => ?_⟩
  obtain heq | heq := hnums' i
  · rw [heq]
    exact hnums i
  · exact .inr heq

/-- So it is over all block numbers. -/
theorem FreeState.clears_foldl {f : FreeState → Nat → FreeState}
    (hf : ∀ (s : FreeState) (i : Nat), s.Clears (f s i)) :
    ∀ (l : List Nat) (s : FreeState), s.Clears (l.foldl f s) := by
  intro l
  induction l with
  | nil => exact .refl
  | cons i l ih => exact fun s => (hf s i).trans (ih (f s i))

theorem FreeState.clears_freeDirect (s : FreeState) (i : Nat) : s.Clears (s.freeDirect i) := by
  unfold freeDirect
  split
  · refine ⟨⟨[s.dataBlockNums.peek i], rfl⟩, fun j => ?_⟩
    dsimp only
    rw [Buffer.peek_poke]
    split
    · exact .inr rfl
    · exact .inl rfl
  · exact .refl s

theorem FreeState.clears_freeTree (s : FreeState) (i : Nat) : s.Clears (s.freeTree i) := by
  unfold freeTree
  split
  · obtain ⟨bs, hbs⟩ := diskBlockFree_foldl (i + 1) s.disk
      (s.dataBlockNums.peek (directBlockLimit + 1 + i)) s.leftSize
    generalize diskBlockFree (i + 1) s.disk (s.dataBlockNums.peek (directBlockLimit + 1 + i))
      s.leftSize = r at hbs
    obtain ⟨disk, left⟩ := r
    refine ⟨⟨bs, hbs⟩, fun j => ?_⟩
    dsimp only
    rw [Buffer.peek_poke]
    split
    · exact .inr rfl
    · exact .inl rfl
  · exact .refl s

/-- **`inodeBlocksFree`** frees the blocks of the file, and the inode still fits. -/
theorem inodeBlocksFree_discards (hsize : x.size ≤ maxFileSize) (hfits : x.Fits)
    (hown : Own d.backend (d.fileBlocks x.dataBlockNums (blockCount x.size))) :
    ∃ nums d' bs, d.inodeBlocksFree x = .ok ({ x with dataBlockNums := nums }, d') ∧
      { x with dataBlockNums := nums }.Fits ∧ Discards d d' bs ∧
      bs.Perm (d.fileBlocks x.dataBlockNums (blockCount x.size)) := by
  obtain ⟨nums, d', bs, hrun, hperm, hfrees⟩ := inodeBlocksFree_spec (blockCount_le_max hsize) hown
  have hclears := (FreeState.clears_foldl FreeState.clears_freeDirect (List.range (directBlockLimit + 1))
    ⟨d, x.dataBlockNums, x.size⟩).trans (FreeState.clears_foldl FreeState.clears_freeTree (List.range 3) _)
  have hstate := hrun
  unfold inodeBlocksFree at hstate
  dsimp only at hstate
  split at hstate
  · cases hstate
  · simp only [Except.ok.injEq, Prod.mk.injEq] at hstate
    obtain ⟨hinode, hdisk⟩ := hstate
    have hnums := congrArg (·.dataBlockNums) hinode
    obtain ⟨⟨bs', hbs'⟩, hcleared⟩ := hclears
    dsimp only at hnums
    rw [hnums] at hcleared
    rw [hdisk] at hbs'
    have hdrops : Drops d d' bs := by
      obtain ⟨flags, htrace, hflags⟩ := hfrees.trace
      exact ⟨hfrees.backend, ⟨_, htrace, FS.freed_free hflags⟩, hfrees.frame⟩
    obtain rfl : bs' = bs := (hbs' ▸ Drops.foldl d bs').unique hdrops
    refine ⟨nums, d', bs', hrun, ⟨hfits.deviceNumber, hfits.iNodeNumber, hfits.linksCount, fun i hi => ?_,
      hfits.size⟩, ⟨hdrops, hbs' ▸ .refl _⟩, hperm⟩
    obtain heq | heq := hcleared i
    · rw [heq]
      exact hfits.dataBlockNums i hi
    · rw [heq]
      decide

end Blocks

/-! ## Freeing the number -/

/-- The inode `n` is free on disk, and its number is on the list, in slot `k`, unless the
list was empty. -/
structure GivesUp (d : Disk) (n k : Nat) (d' : Disk) : Prop where
  backend : d'.backend = d.backend
  type : (d'.diskINode n).type = .free
  links : (d'.diskINode n).linksCount = 0
  number : (d'.diskINode n).iNodeNumber = (d.diskINode n).iNodeNumber
  device : (d'.diskINode n).deviceNumber = (d.diskINode n).deviceNumber
  others : ∀ i, i ≠ n → d'.diskINode i = d.diskINode i
  slot : ∀ i < 512, i ≤ k → listed (d.blocks 3) i = 0
  next : k + 1 < 512 → listed (d.blocks 3) (k + 1) ≠ 0
  list : ∀ i < 512, listed (d'.blocks 3) i = if i = k then n else listed (d.blocks 3) i
  blocks : ∀ b, b ≠ 3 → b ≠ n / 4 + 4 → d'.blocks b = d.blocks b

section Number

variable {d : Disk} {n : Nat}

/-- With the first slot unused, the number is saved before the first one that is used. -/
theorem saveInListIfPossible_eq {b : DiskBlock} (hz : listed b 0 = 0) (n : Nat) :
    ∃ k, (∀ i < 512, i ≤ k → listed b i = 0) ∧ (k + 1 < 512 → listed b (k + 1) ≠ 0) ∧
      saveInListIfPossible n (makeINodeListBlock b) = (true, (makeINodeListBlock b).poke k n) := by
  unfold saveInListIfPossible
  split
  · next hfirst =>
      obtain ⟨hused, -, -⟩ := List.find?_range_eq_some.mp hfirst
      simp [hz] at hused
  · next c hfirst =>
      obtain ⟨hused, -, hbefore⟩ := List.find?_range_eq_some.mp hfirst
      refine ⟨c, fun i _ hi => ?_, fun _ => by simpa using hused, rfl⟩
      simpa using hbefore i (Nat.lt_succ_of_le hi)
  · next hfirst =>
      refine ⟨512, fun i hi _ => ?_, fun hcon => by omega, ?_⟩
      swap
      · rw [Buffer.poke_of_le _ (Nat.le_refl inodeNosPerBlock)]
      simpa using List.find?_range_eq_none.mp hfirst i hi

/-- **`freeINode`**, with the first slot of the list unused. -/
theorem freeINode_ok (hcap : dataRegionStart ≤ d.backend.capacity) (hz : listed (d.blocks 3) 0 = 0)
    (hn : n < numOfInodes) (now : UInt64) : ∃ d' k, d.freeINode now n = .ok d' ∧ d.GivesUp n k d' := by
  have hb3 : (d.updateINodeData now n .free 0 0 0 0 0).blocks 3 = d.blocks 3 :=
    d.blocks_updateINodeData _ _ _ _ _ _ _ _ (by omega)
  have hload : (d.updateINodeData now n .free 0 0 0 0 0).load 3 d.backend.junk = d.blocks 3 := by
    rw [load_of_lt _ (by simp at hcap ⊢; omega), hb3]
  obtain ⟨k, hslot, hnext, hsave⟩ := saveInListIfPossible_eq hz n
  have hpeek : ∀ i < 512, ((makeINodeListBlock (d.blocks 3)).poke k n).peek i =
      if i = k then n else listed (d.blocks 3) i := by
    intro i hi
    rw [Buffer.peek_poke, peek_makeINodeListBlock]
    by_cases hik : i = k
    · rw [if_pos ⟨hik, hik ▸ hi⟩, if_pos hik]
    · rw [if_neg fun hcon => hik hcon.1, if_neg hik]
  obtain ⟨d', hd'⟩ : ∃ d', d' = (d.updateINodeData now n .free 0 0 0 0 0).store 3
      (writeINodeListBlock ((makeINodeListBlock (d.blocks 3)).poke k n) (d.blocks 3)) := ⟨_, rfl⟩
  have hrun : d.freeINode now n = .ok d' := by
    unfold freeINode
    simp only [inodeListBlock, backend_updateINodeData, hload, hsave, not_true_eq_false, if_false, hd']
  have hself : d'.diskINode n = { d.diskINode n with
      statusChange := now, type := .free, fileMode := 0, ownerUid := 0, groupUid := 0, size := 0
      linksCount := 0 } := by
    rw [hd', diskINode_congr _ (blocks_store_of_ne _ (by omega) _)]
    exact diskINode_updateINodeData_self _ _ _ _ _ _ hcap hn (by decide) (by decide)
  refine ⟨d', k, hrun, ⟨?_, by rw [hself], by rw [hself], by rw [hself], by rw [hself],
    fun i hi => ?_, hslot, hnext, fun i hi => ?_, fun b hb3 hb => ?_⟩⟩
  · rw [hd', backend_store, backend_updateINodeData]
  · rw [hd', diskINode_congr _ (blocks_store_of_ne _ (by omega) _)]
    exact diskINode_updateINodeData_of_ne d now _ _ _ _ hcap hn hi
  · rw [hd', listed_store hcap _ (backend_updateINodeData ..) _ (fun j hj => ?_) hi, hpeek i hi]
    rw [hpeek j hj]
    split
    · exact hn
    · exact listed_lt _ _
  · rw [hd', blocks_store_of_ne _ hb3, blocks_updateINodeData _ _ _ _ _ _ _ _ _ hb]

end Number

/-! ## Giving up a file -/

/-- The file with the number `n` and the blocks `bs` is given up. -/
structure Reclaims (d : Disk) (n k : Nat) (bs l l' : List Nat) (d' : Disk) : Prop where
  backend : d'.backend = d.backend
  type : (d'.diskINode n).type = .free
  links : (d'.diskINode n).linksCount = 0
  identified : (d'.diskINode n).iNodeNumber = n ∧ (d'.diskINode n).deviceNumber = 0
  others : ∀ i < numOfInodes, i ≠ n → d'.diskINode i = d.diskINode i
  slot : ∀ i < 512, i ≤ k → listed (d.blocks 3) i = 0
  next : k + 1 < 512 → listed (d.blocks 3) (k + 1) ≠ 0
  list : ∀ i < 512, listed (d'.blocks 3) i = if i = k then n else listed (d.blocks 3) i
  free : FreeBlocks d' l'
  perm : l'.Perm (bs ++ l)
  /-- A list block that has a link keeps one. -/
  linked : Naofs.slot (d.blocks 2) 127 ≠ 0 → Naofs.slot (d'.blocks 2) 127 ≠ 0
  frame : ∀ b, dataRegionStart ≤ b → b ∉ bs → d'.blocks b = d.blocks b

/-- The blocks of a file are on the free list. -/
structure BlocksFreed (d : Disk) (bs l l' : List Nat) (d' : Disk) : Prop where
  backend : d'.backend = d.backend
  low : ∀ b < dataRegionStart, b ≠ 2 → d'.blocks b = d.blocks b
  table : ∀ i < numOfInodes, d'.diskINode i = d.diskINode i
  free : FreeBlocks d' l'
  perm : l'.Perm (bs ++ l)
  linked : Naofs.slot (d.blocks 2) 127 ≠ 0 → Naofs.slot (d'.blocks 2) 127 ≠ 0
  frame : ∀ b, dataRegionStart ≤ b → b ∉ bs → d'.blocks b = d.blocks b

section Release

variable {d : Disk} {x y : InCoreINode} {l bs : List Nat} (hcap : dataRegionStart ≤ d.backend.capacity)

include hcap

/-- **`inodeBlocksFree`** gives all blocks of the file to the free list. -/
theorem inodeBlocksFree_freed (hfits : x.Fits) (hsize : x.size ≤ maxFileSize)
    (hbs : d.fileBlocks x.dataBlockNums (blockCount x.size) = bs) (hfree : FreeBlocks d l)
    (hown : Own d.backend (l ++ bs)) (hdata : ∀ b ∈ l ++ bs, dataRegionStart ≤ b)
    (hlink : bs = [] ∨ slot (d.blocks 2) 127 ≠ 0) :
    ∃ nums d' l', d.inodeBlocksFree x = .ok ({ x with dataBlockNums := nums }, d') ∧
      { x with dataBlockNums := nums }.Fits ∧ d.BlocksFreed bs l l' d' := by
  have hcap₂ : 2 < d.backend.capacity := by
    simp only [dataRegionStart] at hcap
    omega
  obtain ⟨nums, d', bs', hrun, hfits', hdiscards, hperm⟩ := inodeBlocksFree_discards (d := d) hsize hfits
    (hbs ▸ hown.mono fun b => by rw [List.count_append]; omega)
  rw [hbs] at hperm
  have hmem : ∀ b ∈ bs', dataRegionStart ≤ b := fun b hb =>
    hdata b (List.mem_append_right _ (hperm.mem_iff.mp hb))
  obtain ⟨l', hl', hfree'⟩ := hdiscards.freeBlocks hcap₂ hfree (hown.perm (hperm.append_left l))
    (hlink.imp_left fun hnil => (hnil ▸ hperm).eq_nil)
  refine ⟨nums, d', l', hrun, hfits', hdiscards.drops.backend, fun b hb hb2 => ?_, fun i hi => ?_, hfree',
    hl'.trans (hperm.append_right l), fun hslot => ?_, fun b hb hnot => ?_⟩
  · refine hdiscards.drops.frame b hb2 fun hcon => ?_
    have := hmem b hcon
    omega
  · exact FS.diskINode_of_frame hmem hdiscards.drops.frame hi
  · refine hdiscards.linked hcap₂ (hown.mono fun b => ?_) hslot
    rw [List.count_append, hperm.count_eq]
    omega
  · exact hdiscards.drops.frame b (by simp only [dataRegionStart] at hb; omega) fun hcon =>
      hnot (hperm.mem_iff.mp hcon)

/-- **An inode without links** is written, its blocks are freed, and then its number. -/
theorem releaseUnlinked_ok (hlt : y.iNodeNumber < numOfInodes) (h0 : y.iNodeNumber ≠ 0)
    (hdev : y.deviceNumber = 0) (hlinks : y.linksCount = 0) (hchanged : y.inodeChanged = true) (hfits : y.Fits)
    (hsize : y.size ≤ maxFileSize) (hfree : FreeBlocks d l)
    (hbs : d.fileBlocks y.dataBlockNums (blockCount y.size) = bs)
    (hown : Own d.backend (l ++ bs)) (hdata : ∀ b ∈ l ++ bs, dataRegionStart ≤ b)
    (hlink : bs = [] ∨ slot (d.blocks 2) 127 ≠ 0) (hlist : listed (d.blocks 3) 0 = 0) (now : UInt64) :
    ∃ z d' l' k, FS.releaseUnlinked now (FS.writeBack d y) = .ok (z, d') ∧ z.Fits ∧
      d.Reclaims y.iNodeNumber k bs l l' d' := by
  obtain ⟨n, hn⟩ : ∃ n, n = y.iNodeNumber := ⟨_, rfl⟩
  rw [← hn] at hlt h0 ⊢
  have hlow : n / 4 + 4 < dataRegionStart := by
    simp only [numOfInodes] at hlt
    simp only [dataRegionStart]
    omega
  obtain ⟨z, hz⟩ : ∃ z, z = { y with inodeChanged := false, fileDataChanged := false } := ⟨_, rfl⟩
  obtain ⟨d₁, hd₁⟩ : ∃ d₁, d₁ = FS.writeINodeToDisk d y := ⟨_, rfl⟩
  have hwrite : FS.writeBack d y = (z, d₁) := by rw [FS.writeBack, if_pos (.inl hchanged), hz, hd₁]
  rw [FS.writeINodeToDisk, ← hn] at hd₁
  have hback₁ : d₁.backend = d.backend := by rw [hd₁, backend_writeDiskInode]
  have hblocks₁ : ∀ b, b ≠ n / 4 + 4 → d₁.blocks b = d.blocks b := fun b hb => by
    rw [hd₁, blocks_writeDiskInode _ _ hb]
  have hdata₁ : ∀ b, dataRegionStart ≤ b → d₁.blocks b = d.blocks b := fun b hb => hblocks₁ b (by omega)
  have hself₁ : d₁.diskINode n = y.toINode := by
    rw [hd₁]
    exact d.diskINode_writeDiskInode_self hcap hlt hfits
  -- The blocks of the file are where they were.
  have hbs₁ : d₁.fileBlocks z.dataBlockNums (blockCount z.size) = bs := by
    rw [hz, ← hbs]
    exact fileBlocks_same (x := y) hsize fun b hb => hdata₁ b (hdata b (List.mem_append_right _ (hbs ▸ hb)))
  obtain ⟨nums, d₂, l', hblocks, hfits', hfreed⟩ := inodeBlocksFree_freed (hback₁ ▸ hcap)
    (by rw [hz]; exact hfits) (by rw [hz]; exact hsize) hbs₁
    (hfree.frame hback₁ (hblocks₁ 2 (by omega)) fun b hb => hdata₁ b (hdata b (List.mem_append_left _ hb)))
    (hback₁ ▸ hown) hdata (by rwa [hblocks₁ 2 (by omega)])
  have hlist₂ : d₂.blocks 3 = d.blocks 3 := by
    rw [hfreed.low 3 (by decide) (by decide), hblocks₁ 3 (by omega)]
  obtain ⟨d₃, k, hnumber, hgives⟩ := freeINode_ok (d := d₂) (n := n)
    (by rw [hfreed.backend, hback₁]; exact hcap) (by rw [hlist₂]; exact hlist) hlt now
  have hblocks₃ : ∀ b, dataRegionStart ≤ b → d₃.blocks b = d₂.blocks b := fun b hb => by
    refine hgives.blocks b ?_ (by omega)
    simp only [dataRegionStart] at hb
    omega
  refine ⟨{ z with dataBlockNums := nums }, d₃, l', k, ?_, hfits', ⟨?_, hgives.type, hgives.links, ?_,
    fun i hi hin => ?_, ?_, ?_, fun i hi => ?_, ?_, hfreed.perm, fun hslot => ?_, fun b hb hnot => ?_⟩⟩
  · rw [hwrite, FS.releaseUnlinked, if_pos (by rw [hz]; exact ⟨hlinks, hn ▸ h0⟩)]
    refine bind_eq_ok.mpr ⟨_, hblocks, bind_eq_ok.mpr ⟨d₃, ?_, rfl⟩⟩
    rw [hz, ← hn]
    exact hnumber
  · rw [hgives.backend, hfreed.backend, hback₁]
  · rw [hgives.number, hgives.device, hfreed.table n hlt, hself₁]
    exact ⟨hn.symm, hdev⟩
  · rw [hgives.others i hin, hfreed.table i hi, hd₁]
    exact d.diskINode_writeDiskInode_of_ne hcap hlt _ hin
  · rw [← hlist₂]
    exact hgives.slot
  · rw [← hlist₂]
    exact hgives.next
  · rw [← hlist₂]
    exact hgives.list i hi
  · refine hfreed.free.frame hgives.backend (hgives.blocks 2 (by decide) (by omega)) fun b hb => hblocks₃ b ?_
    exact hdata b (List.perm_append_comm.mem_iff.mp (hfreed.perm.mem_iff.mp hb))
  · rw [hgives.blocks 2 (by decide) (by omega)]
    refine hfreed.linked ?_
    rwa [hblocks₁ 2 (by omega)]
  · rw [hblocks₃ b hb, hfreed.frame b hb hnot, hdata₁ b hb]

end Release

end Disk

namespace FS

open Disk (blockCount)

/-- What `iput` does to the last reference of a file without links. -/
structure Coherent.Released (fs : FS) (held : List NodeId) (y : NodeId) (n k : Nat) (l l' : List Nat)
    (fs' : FS) : Prop where
  coherent : Coherent fs' held
  caches : ∀ i z, fs'.Caches i z ↔ fs.Caches i z
  inode : ∀ z, z ≠ y → fs'.inode z = fs.inode z
  others : ∀ i < numOfInodes, i ≠ n → fs'.seen i = fs.seen i
  self : fs'.seen n = fs'.disk.diskINode n
  reclaims : fs.disk.Reclaims n k (fs.nodeBlocks y) l l' fs'.disk

/-- **The last reference to a file without links** is given back. -/
theorem Coherent.release {fs : FS} {held : List NodeId} {y : NodeId} {n : Nat} {l : List Nat}
    (h : Coherent fs (y :: held)) (hy : y ∉ held) (hn : fs.Caches n y) (h0 : n ≠ 0)
    (hlinks : (fs.inode y).linksCount = 0) (hchanged : (fs.inode y).inodeChanged = true)
    (hsize : (fs.inode y).size ≤ maxFileSize) (hfree : FreeBlocks fs.disk l)
    (hown : Own fs.disk.backend (l ++ fs.nodeBlocks y))
    (hdata : ∀ b ∈ l ++ fs.nodeBlocks y, dataRegionStart ≤ b)
    (hlink : fs.nodeBlocks y = [] ∨ slot (fs.disk.blocks 2) 127 ≠ 0)
    (hlist : listed (fs.disk.blocks 3) 0 = 0) (now : UInt64) :
    ∃ fs' l' k, fs.iput now y = .ok (0, fs') ∧ Released fs held y n k l l' fs' := by
  obtain ⟨free, q, hinv⟩ := h.cache
  have hone : (fs.inode y).referenceCount = 1 := by
    rw [h.counts y, List.count_cons_self, List.count_eq_zero.mpr hy]
  have hlt := h.number n y hn
  obtain ⟨z, d, l', k, hrel, hfits, hrec⟩ := Disk.releaseUnlinked_ok (y := retiring (fs.inode y)) h.stored
    (hn.number.symm ▸ hlt) (hn.number.symm ▸ h0) (h.device hn) hlinks hchanged (h.fits n y hn) hsize hfree
    rfl hown hdata hlink hlist now
  rw [show (retiring (fs.inode y)).iNodeNumber = n from hn.number] at hrec
  obtain ⟨nums, fs', hz, hput, hinode, hdisk, hinv'⟩ := hinv.last hone hrel
  rw [List.erase_cons_head] at hinv'
  have hfits' : (closed (fs.inode y) nums).Fits := by
    rw [← hz]
    exact hfits
  have ht := h.touched hn hinv hinv' hinode hn.number hfits' (by rw [hdisk, hrec.backend])
    (fun i hi hin => by rw [hdisk, hrec.others i hi hin]) (by rw [hdisk]; exact hrec.identified)
    (fun _ => ⟨rfl, rfl⟩) (fun _ hused => absurd hused (by simp [closed, hlinks]))
  refine ⟨fs', l', k, hput, ht.coherent, ht.caches, fun z hz => by rw [hinode, update_of_ne hz],
    ht.others, ?_, hdisk ▸ hrec⟩
  rw [ht.self]
  exact if_pos hlinks

end FS

end Naofs
