import Naofs.FreeChain
import Naofs.Lifo
import Naofs.Mkfs

/-!
# Naofs.Memory

The allocator on the disk in memory (`mdisk.c`).

`makeFileSystem` builds the free list for `NUM_OF_BLOCKS` blocks, but the memory
stores 65536 and drops what is written behind them.  The last list block it stores
names blocks 65412 to 65539.  `Spine d q b p` says that the list read from `b` is `p`
as far as it is stored, and that the blocks `q` follow, which are not.  Freed blocks
are pushed in front, so `q` stays where it is until `p` is used up:
`stores_iff_room`.
-/

namespace Naofs

/-- The unused slots of a list block come before the used ones, and there is a link. -/
def PackedBlock (b : DiskBlock) : Prop :=
  ∃ k ≤ 127, (∀ i < k, slot b i = 0) ∧ ∀ i ≤ 127, k ≤ i → slot b i ≠ 0

inductive Spine (d : Disk) (q : List Nat) : DiskBlock → List Nat → Prop where
  | base {b : DiskBlock} {p : List Nat} (hpack : PackedBlock b) (hfront : front b = p ++ q) :
      Spine d q b p
  | link {b : DiskBlock} {p : List Nat} (hpack : PackedBlock b)
      (hcap : slot b 127 < d.backend.capacity) (hl : Spine d q (d.blocks (slot b 127)) p) :
      Spine d q b (front b ++ slot b 127 :: p)

section Spine

variable {d d' : Disk} {q p : List Nat} {b : DiskBlock} {x : Nat}

/-- A list block, and those behind its link. -/
theorem Spine.inv (h : Spine d q b p) : PackedBlock b ∧
    (front b = p ++ q ∨ slot b 127 < d.backend.capacity ∧
      ∃ p', p = front b ++ slot b 127 :: p' ∧ Spine d q (d.blocks (slot b 127)) p') := by
  cases h with
  | base hpack hfront => exact ⟨hpack, .inl hfront⟩
  | link hpack hcap hl => exact ⟨hpack, .inr ⟨hcap, _, rfl, hl⟩⟩

/-- Only the stored part of the list matters. -/
theorem Spine.frame (h : Spine d q b p) (hk : d'.backend = d.backend)
    (hb : ∀ x ∈ p, d'.blocks x = d.blocks x) : Spine d' q b p := by
  induction h with
  | base hpack hfront => exact .base hpack hfront
  | link hpack hcap hl ih =>
      refine .link hpack (by rwa [hk]) ?_
      rw [hb _ (by simp)]
      exact ih fun x hx => hb x (by simp [hx])

namespace Disk

/-- The first used slot of a packed list block is taken. -/
theorem blockAlloc_front {l : List Nat} (hcap : 2 < d.backend.capacity)
    (hpack : PackedBlock (d.blocks 2)) (hfront : front (d.blocks 2) = x :: l) :
    d.blockAlloc.1 = x ∧ PackedBlock (d.blockAlloc.2.blocks 2) ∧
      front (d.blockAlloc.2.blocks 2) = l ∧
      slot (d.blockAlloc.2.blocks 2) 127 = slot (d.blocks 2) 127 := by
  obtain ⟨k, hk, hz, hne⟩ := hpack
  have hk' : k < 127 := by
    by_contra hcon
    have hnil : front (d.blocks 2) = [] := front_eq_nil.mpr fun i hi => hz i (by omega)
    rw [hnil] at hfront
    cases hfront
  obtain ⟨hret, hslot⟩ := slot_blockAlloc hcap hk' (hne k (by omega) (Nat.le_refl _)) hz
  have hsplit : front (d.blocks 2) =
      slot (d.blocks 2) k :: front (d.blockAlloc.2.blocks 2) := by
    rw [front_eq, front_eq]
    exact usedSlots_clear_first hk' (hne k (by omega) (Nat.le_refl _)) hz
      fun i hi => hslot i (by omega)
  rw [hfront] at hsplit
  injection hsplit with hx hl
  refine ⟨hret.trans hx.symm, ⟨k + 1, hk', fun i hi => ?_, fun i hi hi' => ?_⟩, hl.symm, ?_⟩
  · rw [hslot i (by omega)]
    split
    · rfl
    · exact hz i (by omega)
  · rw [hslot i (by omega), if_neg (by omega)]
    exact hne i hi (by omega)
  · rw [hslot 127 (by omega), if_neg (by omega)]

/-- **Pop**, while the list goes on in stored blocks. -/
theorem blockAlloc_spine (hcap : 2 < d.backend.capacity) (h : Spine d q (d.blocks 2) (x :: p))
    (h2 : 2 ∉ x :: p) :
    d.blockAlloc.1 = x ∧ Spine d.blockAlloc.2 q (d.blockAlloc.2.blocks 2) p := by
  have hframe : ∀ y ∈ p, d.blockAlloc.2.blocks y = d.blocks y := fun y hy =>
    d.blocks_blockAlloc_of_ne fun hcon => h2 (List.mem_cons_of_mem _ (hcon ▸ hy))
  obtain ⟨hpack, hfront | ⟨hlink, p', hp, hl⟩⟩ := h.inv
  · obtain ⟨hret, hpack', hfront', -⟩ := blockAlloc_front hcap hpack hfront
    exact ⟨hret, .base hpack' hfront'⟩
  · cases hf : front (d.blocks 2) with
    | nil =>
        -- the link is taken, and what it holds becomes the list block
        rw [hf, List.nil_append] at hp
        injection hp with hx hp
        subst hp
        obtain ⟨k, hk, hz, hne⟩ := hpack
        obtain ⟨hret, hblocks⟩ := blocks_blockAlloc_link hcap (front_eq_nil.mp hf)
          (hne 127 (Nat.le_refl _) hk) hlink
        refine ⟨hret.trans hx.symm, ?_⟩
        rw [hblocks]
        exact hl.frame (by simp) hframe
    | cons y l =>
        rw [hf, List.cons_append] at hp
        injection hp with hx hp
        subst hx hp
        obtain ⟨hret, hpack', hfront', h127⟩ := blockAlloc_front hcap hpack hf
        refine ⟨hret, ?_⟩
        rw [← hfront', ← h127]
        refine .link hpack' (by simpa [h127] using hlink) ?_
        rw [h127, hframe _ (by simp)]
        exact hl.frame (by simp) fun y hy => hframe y (by simp [hy])

/-- **Push**: the freed block is the top of the list. -/
theorem blockFree_spine (hcap : 2 < d.backend.capacity) (h : Spine d q (d.blocks 2) p)
    (hx0 : x ≠ 0) (hx2 : x ≠ 2) (hxc : x < d.backend.capacity) (hxp : x ∉ p) (h2 : 2 ∉ p) :
    Spine (d.blockFree x) q ((d.blockFree x).blocks 2) (x :: p) := by
  have hframe : ∀ y ∈ p, (d.blockFree x).blocks y = d.blocks y := fun y hy =>
    d.blocks_blockFree_of_ne (fun hcon => h2 (hcon ▸ hy)) fun hcon => hxp (hcon ▸ hy)
  obtain ⟨hpack, hcase⟩ := h.inv
  obtain ⟨k, hk, hz, hne⟩ := hpack
  by_cases h0 : slot (d.blocks 2) 0 = 0
  · obtain ⟨c, hc, hcz, hafter, hslot⟩ :=
      slot_blockFree_fill hcap (hxc.trans d.backend.capacity_lt) h0
    have hck : c + 1 = k := by
      have h1 : c < k := by
        by_contra hcon
        exact hne c (by omega) (by omega) hcz
      have h2 : ¬ c + 1 < k := fun hcon => hafter (c + 1) (by omega) (by omega) (hz _ hcon)
      omega
    have hnew : slot ((d.blockFree x).blocks 2) c = x := by rw [hslot c hc, if_pos rfl]
    have h127 : slot ((d.blockFree x).blocks 2) 127 = slot (d.blocks 2) 127 := by
      rw [hslot 127 (by omega), if_neg (by omega)]
    have hpack' : PackedBlock ((d.blockFree x).blocks 2) := by
      refine ⟨c, by omega, fun i hi => ?_, fun i hi hi' => ?_⟩
      · rw [hslot i (by omega), if_neg (by omega), hz i (by omega)]
      · rw [hslot i (by omega)]
        split
        · exact hx0
        · exact hne i hi (by omega)
    have hfront : front ((d.blockFree x).blocks 2) = x :: front (d.blocks 2) := by
      rw [front_eq, front_eq]
      have := usedSlots_clear_first (f := slot ((d.blockFree x).blocks 2)) (g := slot (d.blocks 2))
        (show c < 127 by omega) (by rw [hnew]; exact hx0) (fun i hi => ?_) fun i hi => ?_
      · rwa [hnew] at this
      · rw [hslot i (by omega), if_neg (by omega), hz i (by omega)]
      · rw [hslot i (by omega)]
        split
        · next hic => rw [hic, hcz]
        · rfl
    rcases hcase with hbase | ⟨hlink, p', rfl, hl⟩
    · exact .base hpack' (by rw [hfront, hbase]; rfl)
    · have hlist := Spine.link (d := d.blockFree x) (q := q) (p := p') hpack'
        (by simpa [h127] using hlink) (by
          rw [h127, hframe _ (by simp)]
          exact hl.frame (by simp) fun y hy => hframe y (by simp [hy]))
      rwa [hfront, h127] at hlist
  · obtain ⟨hslot, hcontents⟩ := slot_blockFree_spill hcap hx2 hxc h0
    have h127 : slot ((d.blockFree x).blocks 2) 127 = x := by rw [hslot 127 (by omega), if_pos rfl]
    have hzero : ∀ i < 127, slot ((d.blockFree x).blocks 2) i = 0 := fun i hi => by
      rw [hslot i (by omega), if_neg (by omega)]
    have hpack' : PackedBlock ((d.blockFree x).blocks 2) := by
      refine ⟨127, Nat.le_refl _, hzero, fun i hi hi' => ?_⟩
      obtain rfl : i = 127 := by omega
      rw [h127]
      exact hx0
    have hlist := Spine.link (d := d.blockFree x) (q := q) (p := p) hpack'
      (by rw [h127]; simpa using hxc) (by
        rw [h127, hcontents]
        exact h.frame (by simp) hframe)
    rwa [front_eq_nil.mpr hzero, h127] at hlist

/-- When the stored part is used up, the first block behind it is handed out. -/
theorem blockAlloc_beyond {y : Nat} (hcap : 2 < d.backend.capacity)
    (h : Spine d (y :: q) (d.blocks 2) []) : d.blockAlloc.1 = y := by
  obtain ⟨hpack, hfront | ⟨-, p', hp, -⟩⟩ := h.inv
  · exact (blockAlloc_front hcap hpack hfront).1
  · simp at hp

/-- The blocks behind the end of the memory in the last list block that it stores. -/
def beyond : List Nat := [65536, 65537, 65538]

/-- A full list block of `mkfs`. -/
theorem packed_makeOneBlock {N s : Nat} (hN : N < 2 ^ 64) (hs : 0 < s) (h : s + 128 ≤ N) :
    PackedBlock (makeOneBlock N s).2 ∧ front (makeOneBlock N s).2 = List.range' s 127 ∧
      slot (makeOneBlock N s).2 127 = s + 127 := by
  obtain ⟨-, hslot⟩ := makeOneBlock_spec s hN
  have hfull : ∀ i < 128, slot (makeOneBlock N s).2 i = s + i := fun i hi => by
    rw [hslot i hi, if_pos (by omega)]
  refine ⟨⟨0, by omega, by omega, fun i hi _ => ?_⟩, ?_, hfull 127 (by omega)⟩
  · rw [hfull i (by omega)]
    omega
  · rw [front_eq]
    exact usedSlots_consecutive hs fun i hi => hfull i (by omega)

/-- The chain that `mkfs` writes to the memory. -/
theorem initializeDiskBlocks_spine (d : Disk) (p s : Nat) (hcap : d.backend.capacity = 65536)
    (hnum : 65540 ≤ d.backend.numOfBlocks) (hp : p < 65536) (hps : p < s) (hs : s ≤ 65412)
    (hmod : s % 128 = 4) :
    Spine (d.initializeDiskBlocks p s) beyond ((d.initializeDiskBlocks p s).blocks p)
      (List.range' s (65536 - s)) := by
  induction d, p, s using initializeDiskBlocks.induct with
  | case1 d p s hp' next h0 =>
      have hnext := (makeOneBlock_spec s d.backend.numOfBlocks_lt).1
      rw [if_pos (by omega)] at hnext
      simp only [next, hnext] at h0
      omega
  | case2 d p s hp' next d' h0 ih =>
      have hnext := (makeOneBlock_spec s d.backend.numOfBlocks_lt).1
      rw [if_pos (by omega)] at hnext
      obtain ⟨hpack, hfront, h127⟩ := packed_makeOneBlock d.backend.numOfBlocks_lt
        (show 0 < s by omega) (show s + 128 ≤ d.backend.numOfBlocks by omega)
      have heq : d.initializeDiskBlocks p s =
          (d.store p (makeOneBlock d.backend.numOfBlocks s).2).initializeDiskBlocks (s + 127)
            (s + 128) := by
        rw [initializeDiskBlocks, if_pos hp']
        simp [hnext]
      have hblock : (d.initializeDiskBlocks p s).blocks p =
          (makeOneBlock d.backend.numOfBlocks s).2 := by
        rw [heq, blocks_initializeDiskBlocks _ _ _ (by omega) (by omega),
          blocks_store_self _ (by omega)]
      rw [hblock]
      by_cases hlast : s = 65412
      · subst hlast
        exact .base hpack (by rw [hfront]; decide)
      · have ih' := ih (by simpa [d'] using hcap) (by simpa [d'] using hnum)
          (by simp only [next, hnext]; omega) (by simp [next, hnext]) (by simp; omega)
          (by simp only [blockAddressesPerBlock]; omega)
        simp only [next, d', hnext, blockAddressesPerBlock] at ih'
        rw [← heq] at ih'
        have hlist := Spine.link (d := d.initializeDiskBlocks p s) (q := beyond)
          (p := List.range' (s + 128) (65536 - (s + 128))) hpack
          (by rw [h127, backend_initializeDiskBlocks, hcap]; omega) (by rw [h127]; exact ih')
        have hsplit : List.range' s (65536 - s) =
            List.range' s 127 ++ (s + 127) :: List.range' (s + 128) (65536 - (s + 128)) := by
          rw [show 65536 - s = 127 + (1 + (65536 - (s + 128))) by omega, ← List.range'_append_1,
            ← List.range'_append_1]
          simp
        rwa [hfront, h127, ← hsplit] at hlist
  | case3 d p s hp' => omega

/-- A new file system in memory. -/
theorem makeFileSystem_spine (d : Disk) (hmem : d.backend.isDiskAvailable = false) :
    d.makeFileSystem.backend.capacity = 65536 ∧
      Spine d.makeFileSystem beyond (d.makeFileSystem.blocks 2) (List.range' 16388 49148) := by
  have hcap : d.withINodes.backend.capacity = 65536 := by
    simp [sized, Backend.capacity, hmem]
  have hspine := initializeDiskBlocks_spine d.withINodes 2 16388 hcap (by simp [sized]) (by omega)
    (by omega) (by omega) (by omega)
  refine ⟨by simp [sized, Backend.capacity, hmem], ?_⟩
  rw [makeFileSystem_eq, blocks_store_of_ne _ (by omega)]
  refine hspine.frame (by simp) fun x hx => blocks_store_of_ne _ ?_ _
  have := List.mem_range'_1.mp hx
  omega

end Disk

end Spine

/-! ## Whole runs -/

namespace AllocState

/-- The number of data blocks that the memory stores. -/
@[simp] abbrev memoryBlocks : Nat := 49148

/-- What `blockAlloc` returns can be written and read back, and nobody has it. -/
def Stores (st : AllocState) : Prop :=
  st.disk.blockAlloc.1 ≠ 0 → (∀ contents buf, (st.disk.blockAlloc.2.store st.disk.blockAlloc.1
    contents).load st.disk.blockAlloc.1 buf = contents) ∧ st.disk.blockAlloc.1 ∉ st.allocated

/-- An allocation is made while the memory has a free block. -/
def Room (st : AllocState) : AllocOp → Prop
  | .alloc => st.allocated.length < memoryBlocks
  | _ => True

def RoomStep (st st' : AllocState) : Prop := ∃ op, st.Enabled op ∧ st.Room op ∧ st' = st.step op

/-- The stored part of the list and the allocated blocks split the memory. -/
structure MemoryInv (st : AllocState) : Prop where
  capacity : st.disk.backend.capacity = 65536
  split : ∃ p, Spine st.disk Disk.beyond (st.disk.blocks 2) p ∧
    (p ++ st.allocated).Perm (List.range' 16388 memoryBlocks)

section Memory

variable {st st' : AllocState}

/-- The free blocks and the allocated ones are the blocks of the data region. -/
theorem MemoryInv.lists (h : MemoryInv st) : ∃ p, Spine st.disk Disk.beyond (st.disk.blocks 2) p ∧
    (p ++ st.allocated).Perm (List.range' 16388 memoryBlocks) ∧ (p ++ st.allocated).Nodup ∧
    p.length + st.allocated.length = memoryBlocks ∧
    ∀ b ∈ p ++ st.allocated, 16388 ≤ b ∧ b < 65536 := by
  obtain ⟨p, hp, hperm⟩ := h.split
  refine ⟨p, hp, hperm, hperm.nodup_iff.mpr List.nodup_range', ?_, fun b hb => ?_⟩
  · have := hperm.length_eq
    rwa [List.length_append, List.length_range'] at this
  · have := List.mem_range'_1.mp (hperm.subset hb)
    simp only [memoryBlocks] at this
    omega

/-- With room, the next block is the first of the stored part. -/
theorem MemoryInv.alloc (h : MemoryInv st) (hroom : st.allocated.length < memoryBlocks) :
    ∃ x p, st.disk.blockAlloc.1 = x ∧ x ≠ 0 ∧ x < 65536 ∧ x ∉ st.allocated ∧
      Spine st.disk.blockAlloc.2 Disk.beyond (st.disk.blockAlloc.2.blocks 2) p ∧
      (p ++ x :: st.allocated).Perm (List.range' 16388 memoryBlocks) := by
  obtain ⟨p, hp, hperm, hnodup, hlength, hmem⟩ := h.lists
  have hcap := h.capacity
  cases p with
  | nil =>
      rw [List.length_nil] at hlength
      omega
  | cons x p =>
      have hx := hmem x (by simp)
      obtain ⟨hret, hspine⟩ := Disk.blockAlloc_spine (by omega) hp fun hcon => by
        have := hmem 2 (List.mem_append_left _ hcon)
        omega
      refine ⟨x, p, hret, by omega, hx.2, fun hcon => ?_, hspine, List.perm_middle.trans hperm⟩
      simp only [List.cons_append, List.nodup_cons, List.mem_append] at hnodup
      exact hnodup.1 (.inr hcon)

theorem MemoryInv.stores_iff (h : MemoryInv st) :
    Stores st ↔ st.allocated.length < memoryBlocks := by
  have hcap := h.capacity
  constructor
  · intro hstores
    by_contra hfull
    obtain ⟨p, hp, -, -, hlength, -⟩ := h.lists
    obtain rfl : p = [] := List.length_eq_zero_iff.mp (by omega)
    have hret := Disk.blockAlloc_beyond (by omega) hp
    -- block 65536 reads as whatever the buffer held
    obtain ⟨hread, -⟩ := hstores (by rw [hret]; decide)
    rw [hret] at hread
    have h0 := hread (.tabulate fun _ => 0) (.tabulate fun _ => 1)
    rw [Disk.load_of_le _ (by simp [hcap])] at h0
    have h1 := congrArg (fun b => b.peek 0) h0
    simp at h1
  · intro hroom hne
    obtain ⟨x, p, hret, -, hlt, hfresh, -⟩ := h.alloc hroom
    rw [hret]
    refine ⟨fun contents buf => ?_, hfresh⟩
    rw [Disk.load_of_lt _ (by simp [hcap, hlt]), Disk.blocks_store_self _ (by simp [hcap, hlt])]

theorem MemoryInv.step (h : MemoryInv st) (hstep : RoomStep st st') : MemoryInv st' := by
  obtain ⟨op, hen, hroom, rfl⟩ := hstep
  obtain ⟨p, hp, hperm, hnodup, -, hmem⟩ := h.lists
  have hcap := h.capacity
  cases op with
  | alloc =>
      obtain ⟨x, p', hret, hx0, -, -, hspine, hperm'⟩ := h.alloc hroom
      refine ⟨by simpa [AllocState.step] using hcap, p', hspine, ?_⟩
      have hallocated : (st.step .alloc).allocated = x :: st.allocated := by
        simp [AllocState.step, hret, hx0]
      rwa [hallocated]
  | free b =>
      have hb := hmem b (List.mem_append_right _ hen)
      have hbp : b ∉ p := fun hcon => (List.nodup_append.mp hnodup).2.2 b hcon b hen rfl
      refine ⟨by simpa [AllocState.step] using hcap, b :: p, ?_, ?_⟩
      · refine Disk.blockFree_spine (by omega) hp (by omega) (by omega) (by omega) hbp fun hcon => ?_
        have := hmem 2 (List.mem_append_left _ hcon)
        omega
      · calc b :: p ++ st.allocated.erase b
            |>.Perm (p ++ b :: st.allocated.erase b) := List.perm_middle.symm
          _ |>.Perm (p ++ st.allocated) := (List.perm_cons_erase hen).symm.append_left p
          _ |>.Perm (List.range' 16388 memoryBlocks) := hperm
  | overwrite b contents =>
      have hb := hmem b (List.mem_append_right _ hen)
      refine ⟨by simpa [AllocState.step] using hcap, p, ?_, hperm⟩
      have h2 : (st.step (.overwrite b contents)).disk.blocks 2 = st.disk.blocks 2 :=
        Disk.blocks_store_of_ne _ (by omega) _
      rw [h2]
      refine hp.frame (by simp [AllocState.step]) fun x hx => Disk.blocks_store_of_ne _ ?_ _
      rintro rfl
      exact (List.nodup_append.mp hnodup).2.2 x hx x hen rfl

/-- A new file system in memory, before the first allocation. -/
def inMemory (d : Disk) : AllocState := ⟨d.makeFileSystem, []⟩

theorem MemoryInv.of_run {d : Disk} (hmem : d.backend.isDiskAvailable = false)
    (hrun : Relation.ReflTransGen RoomStep (inMemory d) st) : MemoryInv st := by
  induction hrun with
  | refl =>
      obtain ⟨hcap, hspine⟩ := d.makeFileSystem_spine hmem
      exact ⟨hcap, _, hspine, by simp [inMemory]⟩
  | tail _ hstep ih => exact ih.step hstep

/-- **In memory** the allocator is right as long as fewer blocks are allocated than the
memory stores. -/
theorem stores_iff_room {d : Disk} (hmem : d.backend.isDiskAvailable = false)
    (hrun : Relation.ReflTransGen RoomStep (inMemory d) st) :
    Stores st ↔ st.allocated.length < memoryBlocks :=
  (MemoryInv.of_run hmem hrun).stores_iff

/-- A disk in memory, all zeros. -/
def zeroMemory : Disk :=
  ⟨⟨false, 4, Backend.four_lt, .tabulate fun _ => 0⟩, fun _ => .tabulate fun _ => 0, []⟩

/-- Every number of blocks that fits can be allocated. -/
theorem exists_allocations {d : Disk} (hmem : d.backend.isDiskAvailable = false) (n : Nat)
    (hn : n ≤ memoryBlocks) :
    ∃ st, Relation.ReflTransGen RoomStep (inMemory d) st ∧ st.allocated.length = n := by
  induction n with
  | zero => exact ⟨_, .refl, rfl⟩
  | succ n ih =>
      obtain ⟨st, hrun, hlength⟩ := ih (by omega)
      obtain ⟨x, -, hret, hx0, -⟩ := (MemoryInv.of_run hmem hrun).alloc (by omega)
      refine ⟨st.step .alloc, hrun.tail ⟨.alloc, trivial, by simp only [Room]; omega, rfl⟩, ?_⟩
      simp [AllocState.step, hret, hx0, hlength]

/-- With a thousand blocks in use the next one is stored. -/
theorem stores_thousand : ∃ st, Relation.ReflTransGen RoomStep (inMemory zeroMemory) st ∧
    st.allocated.length = 1000 ∧ Stores st := by
  obtain ⟨st, hrun, hlength⟩ := exists_allocations (d := zeroMemory) rfl 1000 (by decide)
  exact ⟨st, hrun, hlength, (stores_iff_room rfl hrun).mpr (by rw [hlength]; decide)⟩

/-- After 49148 allocations the next one returns block 65536. -/
theorem memory_exhausted : ¬ ∀ (d : Disk) (st : AllocState), d.backend.isDiskAvailable = false →
    Relation.ReflTransGen AnyStep (inMemory d) st → Stores st := by
  intro hall
  obtain ⟨st, hrun, hlength⟩ := exists_allocations (d := zeroMemory) rfl memoryBlocks (Nat.le_refl _)
  have hany : Relation.ReflTransGen AnyStep (inMemory zeroMemory) st :=
    hrun.lift id fun _ _ ⟨op, hen, _, heq⟩ => ⟨op, hen, heq⟩
  have hstores := hall zeroMemory st rfl hany
  rw [(MemoryInv.of_run rfl hrun).stores_iff] at hstores
  omega

end Memory

end AllocState

end Naofs
