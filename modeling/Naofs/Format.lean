import Naofs.Table

/-!
# Naofs.Format

What `mkfs` leaves on a disk, whatever was on it.

* `mkfs_chain` — the chain of free blocks hands out the data region in
  increasing order, and then nothing;
* `mkfs_keeps_stale_block` — two disks look the same after `makeFileSystem`,
  except for the block that the root inode records: `assignRootData` takes it
  from the free list of the file system before.
-/

namespace Naofs

namespace Disk

/-! ## Allocating from the chain -/

/-- The numbers that `k` calls of `blockAlloc` return, one after the other. -/
def blockAllocs (d : Disk) : Nat → List Nat
  | 0 => []
  | k + 1 => d.blockAlloc.1 :: d.blockAlloc.2.blockAllocs k

/-- The calls return the free list in order, and 0 once it is empty. -/
theorem blockAllocs_eq {d : Disk} (hcap : 2 < d.backend.capacity) {l : List Nat} (h : FreeBlocks d l)
    (h2 : 2 ∉ l) (k : Nat) : d.blockAllocs k = l.take k ++ List.replicate (k - l.length) 0 := by
  induction k generalizing d l with
  | zero => simp [blockAllocs]
  | succ k ih =>
      cases l with
      | nil =>
          obtain ⟨h0, hblocks⟩ := blockAlloc_nil hcap h
          have hnil : FreeBlocks d.blockAlloc.2 [] := h.frame (by simp) (by rw [hblocks]) (by simp)
          rw [blockAllocs, h0, ih (by simpa using hcap) hnil (by simp)]
          simp [List.replicate_succ]
      | cons x l =>
          obtain ⟨hx, htail⟩ := blockAlloc_cons hcap h h2
          rw [blockAllocs, hx, ih (by simpa using hcap) htail fun hmem => h2 (by simp [hmem])]
          simp

/-- **The chain of `mkfs`**: only the list block and the data region are written,
and allocation then returns the blocks of the region in increasing order, each
once, and 0 ever after. -/
theorem mkfs_chain (d : Disk) {startPos : Nat} (hs : freeListBlock < startPos)
    (hN : startPos ≤ d.backend.numOfBlocks) (hstored : d.backend.numOfBlocks ≤ d.backend.capacity) :
    (∀ n, n ≠ freeListBlock → n < startPos ∨ d.backend.numOfBlocks ≤ n →
      (d.initializeDiskBlocks freeListBlock startPos).blocks n = d.blocks n) ∧
    ∀ k, (d.initializeDiskBlocks freeListBlock startPos).blockAllocs k =
      (List.range' startPos (d.backend.numOfBlocks - startPos)).take k ++
        List.replicate (k - (d.backend.numOfBlocks - startPos)) 0 := by
  simp only [freeListBlock] at hs
  refine ⟨fun n hn hns => blocks_initializeDiskBlocks d _ _ hn hns, fun k => ?_⟩
  have hfree : FreeBlocks (d.initializeDiskBlocks 2 startPos)
      (List.range' startPos (d.backend.numOfBlocks - startPos)) :=
    d.initializeDiskBlocks_stack 2 startPos (by omega) hs hstored
  have h2 : 2 ∉ List.range' startPos (d.backend.numOfBlocks - startPos) := by
    rw [List.mem_range'_1]
    omega
  have hallocs := blockAllocs_eq (by rw [backend_initializeDiskBlocks]; omega) hfree h2 k
  rwa [List.length_range'] at hallocs

/-- A region of two full list blocks and of none. -/
theorem mkfs_chain_full : ∃ d : Disk, d.backend.numOfBlocks = 260 ∧
    (d.initializeDiskBlocks freeListBlock 4).blockAllocs 257 =
      (List.range' 4 256).take 257 ++ List.replicate (257 - 256) 0 ∧
    (d.initializeDiskBlocks freeListBlock 260).blockAllocs 1 = [0] := by
  refine ⟨⟨⟨true, 260, by decide, .tabulate fun _ => 0⟩, fun _ => .tabulate fun _ => 0, []⟩, rfl, ?_, ?_⟩
  · exact (mkfs_chain _ (by decide) (by decide) (by decide)).2 257
  · exact (mkfs_chain _ (by decide) (by decide) (by decide)).2 1

/-! ## The chain as it can be read -/

/-- The numbers listed in the first `k` list blocks, from the contents `b` on.
The list ends where its link is zero or not stored. -/
def chainFrom (d : Disk) : Nat → DiskBlock → List Nat
  | 0, _ => []
  | k + 1, b => usedSlots (slot b) blockAddressesPerBlock ++
      if slot b 127 ≠ 0 ∧ slot b 127 < d.backend.capacity then
        chainFrom d k (d.blocks (slot b 127))
      else []

def freeChain (d : Disk) (k : Nat) : List Nat := d.chainFrom k (d.blocks freeListBlock)

theorem freeChain_eq (d : Disk) (k : Nat) : d.freeChain k = d.chainFrom k (d.blocks 2) := rfl

section Chain

variable {d : Disk} {p s : Nat}

/-- One round of `initializeDiskBlocks`, and the rest. -/
theorem initializeDiskBlocks_round (hp : p < d.backend.numOfBlocks)
    (hfull : s + 128 ≤ d.backend.numOfBlocks) : d.initializeDiskBlocks p s =
      (d.store p (makeOneBlock d.backend.numOfBlocks s).2).initializeDiskBlocks (s + 127) (s + 128) := by
  have hnext := (makeOneBlock_spec s d.backend.numOfBlocks_lt).1
  rw [if_pos hfull] at hnext
  rw [initializeDiskBlocks, if_pos hp]
  simp [hnext]

/-- The last block of the chain holds what is left. -/
theorem initializeDiskBlocks_last (hp : p < d.backend.numOfBlocks)
    (hlast : ¬ s + 128 ≤ d.backend.numOfBlocks) :
    d.initializeDiskBlocks p s = d.store p (makeOneBlock d.backend.numOfBlocks s).2 := by
  have hnext := (makeOneBlock_spec s d.backend.numOfBlocks_lt).1
  rw [if_neg hlast] at hnext
  rw [initializeDiskBlocks, if_pos hp]
  simp [hnext]

/-- The list block that the first round writes. -/
theorem blocks_initializeDiskBlocks_self (hp : p < d.backend.numOfBlocks)
    (hcap : p < d.backend.capacity) (hps : p < s) :
    (d.initializeDiskBlocks p s).blocks p = (makeOneBlock d.backend.numOfBlocks s).2 := by
  by_cases hfull : s + 128 ≤ d.backend.numOfBlocks
  · rw [initializeDiskBlocks_round hp hfull,
      blocks_initializeDiskBlocks _ _ _ (by omega) (by omega), blocks_store_self _ hcap]
  · rw [initializeDiskBlocks_last hp hfull, blocks_store_self _ hcap]

/-- The slots of that block. -/
theorem slot_initializeDiskBlocks (hp : p < d.backend.numOfBlocks) (hcap : p < d.backend.capacity)
    (hps : p < s) {i : Nat} (hi : i < 128) :
    slot ((d.initializeDiskBlocks p s).blocks p) i =
      if s + i < d.backend.numOfBlocks then s + i else 0 := by
  rw [blocks_initializeDiskBlocks_self hp hcap hps]
  exact (makeOneBlock_spec s d.backend.numOfBlocks_lt).2 i hi

/-- `e` holds the chain that `initializeDiskBlocks` has written from `p` on. -/
def Holds (e d : Disk) (p s : Nat) : Prop :=
  e.backend = d.backend ∧ ∀ n, n = p ∨ s ≤ n → e.blocks n = (d.initializeDiskBlocks p s).blocks n

/-- The chain behind the first list block. -/
theorem Holds.next {e : Disk} (h : Holds e d p s) (hp : p < d.backend.numOfBlocks)
    (hfull : s + 128 ≤ d.backend.numOfBlocks) :
    Holds e (d.store p (makeOneBlock d.backend.numOfBlocks s).2) (s + 127) (s + 128) := by
  refine ⟨by simpa using h.1, fun n hn => ?_⟩
  rw [h.2 n (by omega), initializeDiskBlocks_round hp hfull]

/-- The chain does not depend on the disk it was written to. -/
theorem chainFrom_eq (k : Nat) : ∀ {d₁ d₂ e₁ e₂ : Disk} {p s : Nat}, d₁.backend = d₂.backend →
    Holds e₁ d₁ p s → Holds e₂ d₂ p s → p < d₁.backend.numOfBlocks → p < d₁.backend.capacity →
    p < s → e₁.chainFrom k (e₁.blocks p) = e₂.chainFrom k (e₂.blocks p) := by
  induction k with
  | zero => intros; rfl
  | succ k ih =>
      intro d₁ d₂ e₁ e₂ p s hd h₁ h₂ hp hcap hps
      have hblock : e₁.blocks p = e₂.blocks p := by
        rw [h₁.2 p (.inl rfl), h₂.2 p (.inl rfl), blocks_initializeDiskBlocks_self hp hcap hps,
          blocks_initializeDiskBlocks_self (by rwa [← hd]) (by rwa [← hd]) hps, hd]
      have hlink : slot (e₂.blocks p) 127 =
          if s + 127 < d₁.backend.numOfBlocks then s + 127 else 0 := by
        rw [← hblock, h₁.2 p (.inl rfl), slot_initializeDiskBlocks hp hcap hps (by omega)]
      rw [chainFrom, chainFrom, hblock]
      congr 1
      have hbackend : e₁.backend = e₂.backend := by rw [h₁.1, h₂.1, hd]
      rw [hbackend]
      by_cases hnext : slot (e₂.blocks p) 127 ≠ 0 ∧ slot (e₂.blocks p) 127 < e₂.backend.capacity
      · rw [if_pos hnext, if_pos hnext]
        have hfull : s + 128 ≤ d₁.backend.numOfBlocks := by
          by_contra hcon
          rw [if_neg (by omega)] at hlink
          exact hnext.1 hlink
        rw [if_pos (by omega)] at hlink
        rw [hlink] at hnext ⊢
        rw [h₂.1, ← hd] at hnext
        exact ih (by simpa using hd) (h₁.next hp hfull)
          (h₂.next (by rwa [← hd]) (by rwa [← hd])) (by simp; omega)
          (by simpa using hnext.2) (by omega)
      · rw [if_neg hnext, if_neg hnext]

/-- Every stored block of the data region is on the chain. -/
theorem mem_chainFrom (k : Nat) : ∀ {d e : Disk} {p s : Nat}, Holds e d p s →
    d.backend.capacity ≤ d.backend.numOfBlocks → p < d.backend.capacity → p < s →
    ∀ n, s ≤ n → n < d.backend.capacity → n < s + 128 * k → n ∈ e.chainFrom k (e.blocks p) := by
  induction k with
  | zero => intros; omega
  | succ k ih =>
      intro d e p s h hle hcap hps n hsn hn hk
      have hslot : ∀ i < 128, slot (e.blocks p) i =
          if s + i < d.backend.numOfBlocks then s + i else 0 := by
        intro i hi
        rw [h.2 p (.inl rfl), slot_initializeDiskBlocks (by omega) hcap hps hi]
      rw [chainFrom, List.mem_append]
      by_cases hlt : n < s + 128
      · refine .inl (mem_usedSlots.mpr ⟨by omega, n - s, by simp; omega, ?_⟩)
        rw [hslot _ (by omega), if_pos (by omega)]
        omega
      · have hlink : slot (e.blocks p) 127 = s + 127 := by
          rw [hslot 127 (by omega), if_pos (by omega)]
        rw [hlink, if_pos ⟨by omega, by rw [h.1]; omega⟩]
        exact .inr (ih (h.next (by omega) (by omega)) (by simpa using hle) (by simp; omega)
          (by omega) n (by omega) (by simpa using hn) (by omega))

end Chain

/-! ## Two disks after `makeFileSystem` -/

/-- The number `blockAlloc` returns is read from the list block alone. -/
theorem blockAlloc_fst_congr {d d' : Disk} (hcap : 2 < d.backend.capacity)
    (hcap' : 2 < d'.backend.capacity) (h : d'.blocks 2 = d.blocks 2) :
    d'.blockAlloc.1 = d.blockAlloc.1 := by
  simp only [blockAlloc, freeListBlock, d.load_of_lt hcap, d'.load_of_lt hcap', h]

section MakeFileSystem

variable (d : Disk)

/-- After formatting the chain begins at block 2. -/
theorem holds_makeFileSystem : Holds d.makeFileSystem d.withINodes 2 16388 := by
  refine ⟨by simp, fun n hn => ?_⟩
  rw [makeFileSystem_eq, blocks_store_of_ne _ (by omega)]

/-- The root inode with the block that the old free list would have given out. -/
theorem diskINode_root : d.makeFileSystem.diskINode 0 =
    { initializeINode 0 with
      type := .directory, fileMode := rootMode,
      dataBlockNums := (initializeINode 0).dataBlockNums.poke 0 d.sized.blockAlloc.1 } := by
  have hcap := d.le_capacity_sized
  have hstale : (d.sized.createINodes 4 16384).blockAlloc.1 = d.sized.blockAlloc.1 := by
    simp only [dataRegionStart] at hcap
    refine blockAlloc_fst_congr (by omega) (by simp; omega) ?_
    rw [blocks_createINodes _ _ _ (by omega), if_neg (by omega)]
  rw [diskINode_makeFileSystem_eq _ (by omega), diskINode_assignRootData _ (by simpa using hcap)
    (diskINode_createINodes _ (by simp at hcap; omega) (by omega)), hstale]

/-- The super block has the size of the inode list. -/
theorem remembered_makeFileSystem : makeSuperBlock (d.makeFileSystem.blocks superBlockNo) = 512 := by
  have hcap := d.le_capacity_sized
  rw [makeFileSystem_eq, superBlockNo, blocks_store_self _ (by simp at hcap ⊢; omega)]
  exact Buffer.readNat_writeNat _ 512 (by decide)

theorem capacity_le_sized : d.sized.backend.capacity ≤ d.sized.backend.numOfBlocks := by
  cases hdev : d.backend.isDiskAvailable <;> simp [sized, Backend.capacity, hdev]

/-- Every block of the data region that the backend stores is on the new chain. -/
theorem mem_freeChain {n : Nat} (hn : dataRegionStart ≤ n) (hcap : n < d.sized.backend.capacity) :
    ∃ k, n ∈ d.makeFileSystem.freeChain k := by
  have hle := d.capacity_le_sized
  simp only [dataRegionStart] at hn
  refine ⟨n, ?_⟩
  rw [freeChain_eq]
  refine mem_chainFrom n (holds_makeFileSystem d) ?_ ?_ (by omega) n hn ?_ (by omega)
  · rwa [backend_withINodes]
  · rw [backend_withINodes]
    omega
  · rwa [backend_withINodes]

end MakeFileSystem

/-- The block that the root inode records first. -/
def rootBlock (d : Disk) : Nat := (d.getDiskInode 0 d.junkINode).2.dataBlockNums.peek 0

/-- A block of the data region that is not on the chain of free blocks. -/
def OffChain (d : Disk) (n : Nat) : Prop :=
  dataRegionStart ≤ n ∧ n < d.backend.capacity ∧ ∀ k, n ∉ d.freeChain k

/-- `mkfs` forgets the old disk: the tables, the lists and the chains of two new
file systems are the same, and the root has a block of its own. -/
structure Forgets (d₁ d₂ : Disk) : Prop where
  table : ∀ n < numOfInodes, ∀ y, d₁.makeFileSystem.getDiskInode n y = d₂.makeFileSystem.getDiskInode n y
  list : makeINodeListBlock (d₁.makeFileSystem.blocks inodeListBlock) =
    makeINodeListBlock (d₂.makeFileSystem.blocks inodeListBlock)
  remembered : makeSuperBlock (d₁.makeFileSystem.blocks superBlockNo) =
    makeSuperBlock (d₂.makeFileSystem.blocks superBlockNo)
  chain : ∀ k, d₁.makeFileSystem.freeChain k = d₂.makeFileSystem.freeChain k
  root : d₁.makeFileSystem.OffChain d₁.makeFileSystem.rootBlock ∧
    d₂.makeFileSystem.OffChain d₂.makeFileSystem.rootBlock

/-- The root's block is never one of its own. -/
theorem not_offChain_rootBlock (d : Disk) :
    ¬ d.makeFileSystem.OffChain d.makeFileSystem.rootBlock := by
  rintro ⟨hlo, hhi, hoff⟩
  rw [backend_makeFileSystem] at hhi
  obtain ⟨k, hk⟩ := d.mem_freeChain hlo hhi
  exact hoff k hk

/-- Every inode can be read after formatting. -/
theorem getDiskInode_makeFileSystem (d : Disk) {n : Nat} (hn : n < numOfInodes) (y : INode) :
    d.makeFileSystem.getDiskInode n y = (0, d.makeFileSystem.diskINode n) :=
  getDiskInode_of_lt _ d.le_capacity_makeFileSystem hn y

/-- The root block is the first block number of inode 0. -/
theorem rootBlock_eq {d : Disk} (hcap : dataRegionStart ≤ d.backend.capacity) :
    d.rootBlock = (d.diskINode 0).dataBlockNums.peek 0 := by
  rw [rootBlock, getDiskInode_of_lt _ hcap (by decide)]

/-- The root records the first block of the old free list. -/
theorem rootBlock_makeFileSystem (d : Disk) :
    d.makeFileSystem.rootBlock = d.sized.blockAlloc.1 := by
  rw [rootBlock_eq d.le_capacity_makeFileSystem, diskINode_root]
  simp only [initializeINode]
  rw [Buffer.peek_poke_self _ (by decide)]

/-- The tables are the same exactly if the old free lists start with the same block. -/
theorem table_makeFileSystem_iff (d₁ d₂ : Disk) :
    (∀ n < numOfInodes, ∀ y,
        d₁.makeFileSystem.getDiskInode n y = d₂.makeFileSystem.getDiskInode n y) ↔
      d₁.sized.blockAlloc.1 = d₂.sized.blockAlloc.1 := by
  constructor
  · intro h
    have h0 := h 0 (by decide) INode.blank
    rw [getDiskInode_makeFileSystem _ (by decide), getDiskInode_makeFileSystem _ (by decide),
      Prod.mk.injEq] at h0
    rw [← rootBlock_makeFileSystem d₁, ← rootBlock_makeFileSystem d₂,
      rootBlock_eq d₁.le_capacity_makeFileSystem, rootBlock_eq d₂.le_capacity_makeFileSystem, h0.2]
  · intro h n hn y
    rw [getDiskInode_makeFileSystem _ hn, getDiskInode_makeFileSystem _ hn]
    by_cases hn0 : n = 0
    · rw [hn0, diskINode_root, diskINode_root, h]
    · rw [diskINode_makeFileSystem _ hn0 hn, diskINode_makeFileSystem _ hn0 hn]

/-- The inode list is the same on all disks. -/
theorem list_makeFileSystem (d₁ d₂ : Disk) :
    makeINodeListBlock (d₁.makeFileSystem.blocks inodeListBlock) =
      makeINodeListBlock (d₂.makeFileSystem.blocks inodeListBlock) := by
  apply Buffer.ext_peek
  intro i hi
  rw [inodeListBlock, peek_makeINodeListBlock, peek_makeINodeListBlock, listed_makeFileSystem _ hi,
    listed_makeFileSystem _ hi]

/-- The chain is the same on all disks of one size. -/
theorem freeChain_makeFileSystem {d₁ d₂ : Disk} (h : d₁.backend = d₂.backend) (k : Nat) :
    d₁.makeFileSystem.freeChain k = d₂.makeFileSystem.freeChain k := by
  have hsized : d₁.sized.backend = d₂.sized.backend := by rw [sized, sized, h]
  have hcap := d₁.le_capacity_sized
  have hle := d₁.capacity_le_sized
  simp only [dataRegionStart] at hcap
  rw [freeChain_eq, freeChain_eq]
  exact chainFrom_eq k (by simpa using hsized) (holds_makeFileSystem d₁) (holds_makeFileSystem d₂)
    (by rw [backend_withINodes]; omega) (by rw [backend_withINodes]; omega) (by omega)

/-- **`mkfs` does not forget the old disk**: the root keeps the first block of
the old free list, which is free in the new file system or not in its data
region.  Nothing else is left of what was on the disk. -/
theorem mkfs_keeps_stale_block (d₁ d₂ : Disk) (hbackend : d₁.backend = d₂.backend) :
    ¬ Forgets d₁ d₂ ∧
    d₁.makeFileSystem.rootBlock = d₁.sized.blockAlloc.1 ∧
    ((∀ n < numOfInodes, ∀ y,
        d₁.makeFileSystem.getDiskInode n y = d₂.makeFileSystem.getDiskInode n y) ↔
      d₁.sized.blockAlloc.1 = d₂.sized.blockAlloc.1) ∧
    makeINodeListBlock (d₁.makeFileSystem.blocks inodeListBlock) =
      makeINodeListBlock (d₂.makeFileSystem.blocks inodeListBlock) ∧
    makeSuperBlock (d₁.makeFileSystem.blocks superBlockNo) =
      makeSuperBlock (d₂.makeFileSystem.blocks superBlockNo) ∧
    ∀ k, d₁.makeFileSystem.freeChain k = d₂.makeFileSystem.freeChain k := by
  refine ⟨fun h => not_offChain_rootBlock d₁ h.root.1, rootBlock_makeFileSystem d₁,
    table_makeFileSystem_iff d₁ d₂, list_makeFileSystem d₁ d₂, ?_, freeChain_makeFileSystem hbackend⟩
  rw [remembered_makeFileSystem, remembered_makeFileSystem]

/-- Formatting a blank device. -/
theorem mkfs_keeps_stale_block_blank : ∃ d₁ d₂ : Disk, d₁.backend = d₂.backend ∧ ¬ Forgets d₁ d₂ := by
  have hbackend : (Disk.mk ⟨true, 0, by decide, .tabulate fun _ => 0⟩ (fun _ => .tabulate fun _ => 0)
      []).backend = (Disk.mk ⟨true, 0, by decide, .tabulate fun _ => 0⟩
        (fun _ => .tabulate fun _ => 1) []).backend := rfl
  exact ⟨_, _, hbackend, (mkfs_keeps_stale_block _ _ hbackend).1⟩

/-- An old file system whose free list starts with block 20000: the new root
records that block, although it is on the new chain. -/
theorem mkfs_stale_root : ¬ ∀ d₁ d₂ : Disk, d₁.backend = d₂.backend → Forgets d₁ d₂ := by
  intro h
  have hk : (31457280 : Nat) < 2 ^ 64 := by decide
  have hbackend : (Disk.mk ⟨true, 31457280, hk, .tabulate fun _ => 0⟩
      (fun _ => writeFreeDiskListBlock (.tabulate fun _ => 20000) (.tabulate fun _ => 0)) []).backend =
      (Disk.mk ⟨true, 31457280, hk, .tabulate fun _ => 0⟩ (fun _ => .tabulate fun _ => 0)
        []).backend := rfl
  exact not_offChain_rootBlock _ (h _ _ hbackend).root.1

end Disk

end Naofs
