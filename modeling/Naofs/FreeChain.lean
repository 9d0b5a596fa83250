import Naofs.FreeList
import Mathlib.Logic.Relation

/-!
# Naofs.FreeChain

The free list that `mkfs` builds, and the allocator over whole runs.

`initializeDiskBlocks` writes the chain of list blocks: block after block of
128 consecutive numbers, the last number of each being the block that holds
the next.  `initializeDiskBlocks_stack` says that the list it leaves is
the data region in increasing order.

A run of the allocator is a sequence of allocations, frees of allocated blocks
and overwrites of allocated blocks.  `AllocState.Inv` relates the disk to the blocks
handed out so far: the free list and the allocated blocks split the data
region between them.
-/

namespace Naofs

namespace Disk

/-! ## `mkfs`: the chain of list blocks -/

/-- The loop of `makeOneBlock` with `k` slots to go: the slots left over, the
next number and the block. -/
def fillSlots (numOfBlocks : Nat) : (k : Nat) → DiskBlock → Nat → Nat × Nat × DiskBlock
  | 0, blockPtr, nodeCounter => (0, nodeCounter, blockPtr)
  | k + 1, blockPtr, nodeCounter =>
      if nodeCounter < numOfBlocks then
        fillSlots numOfBlocks k
          (blockPtr.writeNat (8 * (blockAddressesPerBlock - (k + 1))) blockAddressSize nodeCounter)
          (nodeCounter + 1)
      else (k + 1, nodeCounter, blockPtr)

def makeOneBlock (numOfBlocks startNode : Nat) : Nat × DiskBlock :=
  match fillSlots numOfBlocks blockAddressesPerBlock (.tabulate fun _ => 0) startNode with
  | (0, nodeCounter, blockPtr) => (nodeCounter - 1, blockPtr)
  | (_ + 1, _, blockPtr) => (0, blockPtr)

/-- The numbers run on from `n`, until the slots or the blocks are used up. -/
theorem fillSlots_spec (N : Nat) : ∀ (k : Nat) (b : DiskBlock) (n : Nat), k ≤ 128 →
    (fillSlots N k b n).1 = k - min k (N - n) ∧
      (fillSlots N k b n).2.1 = n + min k (N - n) ∧
      ∀ i < 128, (fillSlots N k b n).2.2.readNat (8 * i) 8 =
        if 128 - k ≤ i ∧ n + (i - (128 - k)) < N then (n + (i - (128 - k))) % 2 ^ 64
        else b.readNat (8 * i) 8 := by
  intro k
  induction k with
  | zero =>
      intro b n _
      refine ⟨by simp [fillSlots], by simp [fillSlots], fun i hi => ?_⟩
      have : ¬ (128 - 0 ≤ i ∧ n + (i - (128 - 0)) < N) := by omega
      rw [if_neg this]
      rfl
  | succ k ih =>
      intro b n hk
      by_cases hlt : n < N
      · have hstep : fillSlots N (k + 1) b n =
            fillSlots N k (b.writeNat (8 * (128 - (k + 1))) 8 n) (n + 1) := by
          simp [fillSlots, hlt]
        obtain ⟨h1, h2, h3⟩ := ih (b.writeNat (8 * (128 - (k + 1))) 8 n) (n + 1) (by omega)
        rw [hstep]
        refine ⟨by omega, by omega, fun i hi => ?_⟩
        rw [h3 i hi]
        by_cases hc : 128 - k ≤ i ∧ n + 1 + (i - (128 - k)) < N
        · rw [if_pos hc, if_pos (by omega)]
          congr 1
          omega
        · rw [if_neg hc]
          by_cases hi' : i = 128 - (k + 1)
          · rw [if_pos (by omega), hi', Buffer.readNat_writeNat b n (by simp; omega)]
            simp
          · rw [if_neg (by omega), Buffer.readNat_writeNat_of_disjoint b n (by omega)]
      · have hstep : fillSlots N (k + 1) b n = (k + 1, n, b) := by simp [fillSlots, hlt]
        rw [hstep]
        refine ⟨by simp; omega, by simp; omega, fun i hi => ?_⟩
        rw [if_neg (by omega)]

/-- One list block: consecutive numbers from `startNode`, as far as there are
blocks, and the number of its link if it is full. -/
theorem makeOneBlock_spec {N : Nat} (s : Nat) (hN : N < 2 ^ 64) :
    (makeOneBlock N s).1 = (if s + 128 ≤ N then s + 127 else 0) ∧
      ∀ i < 128, slot (makeOneBlock N s).2 i = if s + i < N then s + i else 0 := by
  obtain ⟨h1, h2, h3⟩ := fillSlots_spec N 128 (.tabulate fun _ => 0) s (by omega)
  have hblock : (makeOneBlock N s).2 =
      (fillSlots N 128 (.tabulate fun _ => 0) s).2.2 := by
    unfold makeOneBlock
    split <;> next h => simp [h]
  have hzero : ∀ i, (Buffer.tabulate (fun _ => 0) : DiskBlock).readNat (8 * i) 8 = 0 := by
    intro i
    rw [Buffer.readNat_eq_of_leByte (v := 0)]
    · simp
    · intro j _
      by_cases h : 8 * i + j < 1024
      · simp [Buffer.leByte, h]
      · simp [Buffer.leByte, h]
        rfl
  refine ⟨?_, fun i hi => ?_⟩
  · unfold makeOneBlock
    split
    · next n b h =>
        rw [h] at h1 h2
        simp only at h1 h2
        rw [if_pos (by omega)]
        simp only
        omega
    · next k n b h =>
        rw [h] at h1
        simp only at h1
        rw [if_neg (by omega)]
  · rw [slot_eq_readNat _ hi, hblock, h3 i hi, hzero]
    by_cases hc : s + i < N
    · rw [if_pos (by omega), if_pos hc, Nat.mod_eq_of_lt (by omega)]
      omega
    · rw [if_neg (by omega), if_neg hc]

/-- The used slots of a block of consecutive numbers. -/
theorem usedSlots_consecutive {f : Nat → Nat} {s : Nat} (hs : 0 < s) :
    ∀ {m : Nat}, (∀ i < m, f i = s + i) → usedSlots f m = List.range' s m := by
  intro m
  induction m with
  | zero => simp [usedSlots]
  | succ m ih =>
      intro h
      rw [usedSlots_succ, ih fun i hi => h i (by omega), List.range'_concat, h m (by omega)]
      simp
      omega

/-- The loop of `initializeDiskBlocks` from the list block `pointerBlockNumber`. -/
def initializeDiskBlocks (d : Disk) (pointerBlockNumber startPos : Nat) : Disk :=
  if pointerBlockNumber < d.backend.numOfBlocks then
    let nextFreeListNumber := (makeOneBlock d.backend.numOfBlocks startPos).1
    let d' := d.store pointerBlockNumber (makeOneBlock d.backend.numOfBlocks startPos).2
    if nextFreeListNumber = 0 then d'
    else d'.initializeDiskBlocks nextFreeListNumber (startPos + blockAddressesPerBlock)
  else d
termination_by d.backend.numOfBlocks - startPos
decreasing_by
  next h =>
    have hnext := (makeOneBlock_spec startPos d.backend.numOfBlocks_lt).1
    simp only [backend_store, blockAddressesPerBlock]
    split at hnext <;> omega

@[simp] theorem backend_initializeDiskBlocks (d : Disk) (p s : Nat) :
    (d.initializeDiskBlocks p s).backend = d.backend := by
  induction d, p, s using initializeDiskBlocks.induct with
  | case1 d p s hp next h0 =>
      rw [initializeDiskBlocks, if_pos hp]
      simp only [next] at h0
      simp [h0]
  | case2 d p s hp next d' h0 ih =>
      rw [initializeDiskBlocks, if_pos hp]
      simp only [next] at h0
      simpa [h0, d', next] using ih
  | case3 d p s hp => rw [initializeDiskBlocks, if_neg hp]

/-- Only the list block and blocks of the data region are written. -/
theorem blocks_initializeDiskBlocks (d : Disk) (p s : Nat) {n : Nat} (hn : n ≠ p)
    (hns : n < s ∨ d.backend.numOfBlocks ≤ n) :
    (d.initializeDiskBlocks p s).blocks n = d.blocks n := by
  induction d, p, s using initializeDiskBlocks.induct with
  | case1 d p s hp next h0 =>
      rw [initializeDiskBlocks, if_pos hp]
      simp only [next] at h0
      simp [h0, blocks_store_of_ne _ hn]
  | case2 d p s hp next d' h0 ih =>
      have hnext := (makeOneBlock_spec s d.backend.numOfBlocks_lt).1
      have hlt : s + 128 ≤ d.backend.numOfBlocks := by
        by_contra hcon
        rw [if_neg hcon] at hnext
        exact h0 hnext
      rw [if_pos hlt] at hnext
      have h := ih (by simp only [next, hnext]; omega)
        (by simp [d']; omega)
      rw [initializeDiskBlocks, if_pos hp]
      simp only [next] at h0
      simp only [h0, if_false]
      rw [h, blocks_store_of_ne _ hn]
  | case3 d p s hp => rw [initializeDiskBlocks, if_neg hp]

/-- **The chain of `mkfs`**: read from the list block, it is the data region in
increasing order. -/
theorem initializeDiskBlocks_stack (d : Disk) (p s : Nat) (hp : p < d.backend.numOfBlocks)
    (hps : p < s) (hback : d.backend.numOfBlocks ≤ d.backend.capacity) :
    Stack (d.initializeDiskBlocks p s) ((d.initializeDiskBlocks p s).blocks p)
      (List.range' s (d.backend.numOfBlocks - s)) := by
  induction d, p, s using initializeDiskBlocks.induct with
  | case1 d p s hp' next h0 =>
      obtain ⟨hnext, hslot⟩ := makeOneBlock_spec s d.backend.numOfBlocks_lt
      have hlt : ¬ s + 128 ≤ d.backend.numOfBlocks := by
        intro hcon
        rw [if_pos hcon] at hnext
        simp only [next, hnext] at h0
        omega
      have heq : d.initializeDiskBlocks p s = d.store p (makeOneBlock d.backend.numOfBlocks s).2 := by
        rw [initializeDiskBlocks, if_pos hp']
        simp only [next] at h0
        simp [h0]
      rw [heq, blocks_store_self _ (by omega)]
      -- the last list block: nothing behind it, and the rest of the region in it
      have h127 : slot (makeOneBlock d.backend.numOfBlocks s).2 127 = 0 := by
        rw [hslot 127 (by omega), if_neg (by omega)]
      have hfront : front (makeOneBlock d.backend.numOfBlocks s).2 =
          List.range' s (d.backend.numOfBlocks - s) := by
        have hsplit : usedSlots (slot (makeOneBlock d.backend.numOfBlocks s).2) 127 =
            usedSlots (slot (makeOneBlock d.backend.numOfBlocks s).2) (d.backend.numOfBlocks - s) :=
          usedSlots_of_zero (by omega) fun i hi hi' => by
            rw [hslot i (by omega), if_neg (by omega)]
        rw [front_eq, hsplit]
        exact usedSlots_consecutive (by omega) fun i hi => by
          rw [hslot i (by omega), if_pos (by omega)]
      exact hfront ▸ Stack.last h127
  | case2 d p s hp' next d' h0 ih =>
      obtain ⟨hnext, hslot⟩ := makeOneBlock_spec s d.backend.numOfBlocks_lt
      have hlt : s + 128 ≤ d.backend.numOfBlocks := by
        by_contra hcon
        rw [if_neg hcon] at hnext
        exact h0 hnext
      rw [if_pos hlt] at hnext
      have heq : d.initializeDiskBlocks p s =
          (d.store p (makeOneBlock d.backend.numOfBlocks s).2).initializeDiskBlocks (s + 127) (s + 128) := by
        rw [initializeDiskBlocks, if_pos hp']
        simp [hnext]
      have ih' := ih (by simp [d', next, hnext]; omega) (by simp [next, hnext])
        (by simpa [d'] using hback)
      simp only [next, d', hnext, backend_store, blockAddressesPerBlock] at ih'
      rw [← heq] at ih'
      have hblock : (d.initializeDiskBlocks p s).blocks p = (makeOneBlock d.backend.numOfBlocks s).2 := by
        rw [heq, blocks_initializeDiskBlocks _ _ _ (by omega) (by omega),
          blocks_store_self _ (by omega)]
      have h127 : slot (makeOneBlock d.backend.numOfBlocks s).2 127 = s + 127 := by
        rw [hslot 127 (by omega), if_pos (by omega)]
      have hfront : front (makeOneBlock d.backend.numOfBlocks s).2 = List.range' s 127 := by
        rw [front_eq]
        exact usedSlots_consecutive (by omega) fun i hi => by
          rw [hslot i (by omega), if_pos (by omega)]
      have hlink := Stack.link (d := d.initializeDiskBlocks p s)
        (b := (makeOneBlock d.backend.numOfBlocks s).2)
        (l := List.range' (s + 128) (d.backend.numOfBlocks - (s + 128)))
        (by omega) (by rw [h127, backend_initializeDiskBlocks]; omega)
        (by rw [h127]; exact ih')
      rw [hblock]
      have hsplit : List.range' s (d.backend.numOfBlocks - s) =
          List.range' s 127 ++ (s + 127) :: List.range' (s + 128) (d.backend.numOfBlocks - (s + 128)) := by
        rw [show d.backend.numOfBlocks - s = 127 + (1 + (d.backend.numOfBlocks - (s + 128))) by omega,
          ← List.range'_append_1, ← List.range'_append_1]
        simp
      rw [hsplit, ← hfront, ← h127]
      exact hlink
  | case3 d p s hp' => exact absurd hp hp'

end Disk

/-! ## Runs of the allocator -/

/-- A disk and the blocks handed out and not freed since. -/
structure AllocState where
  disk : Disk
  allocated : List Nat

inductive AllocOp where
  | alloc
  | free (b : Nat)
  | overwrite (b : Nat) (contents : DiskBlock)

namespace AllocState

def step (st : AllocState) : AllocOp → AllocState
  | .alloc => ⟨st.disk.blockAlloc.2,
      if st.disk.blockAlloc.1 = 0 then st.allocated else st.disk.blockAlloc.1 :: st.allocated⟩
  | .free b => ⟨st.disk.blockFree b, st.allocated.erase b⟩
  | .overwrite b contents => ⟨st.disk.store b contents, st.allocated⟩

/-- Only allocated blocks are freed or written. -/
def Enabled (st : AllocState) : AllocOp → Prop
  | .alloc => True
  | .free b => b ∈ st.allocated
  | .overwrite b _ => b ∈ st.allocated

/-- No free makes a link of a block's old contents. -/
def Clean (st : AllocState) : AllocOp → Prop
  | .free b => Disk.Reusable st.disk b
  | _ => True

def AnyStep (st st' : AllocState) : Prop := ∃ op, st.Enabled op ∧ st' = st.step op

def CleanStep (st st' : AllocState) : Prop := ∃ op, st.Enabled op ∧ st.Clean op ∧ st' = st.step op

/-- What the allocator owes its callers for the data region from `s` on: no
block twice, none from outside, and none kept back. -/
structure Sound (s : Nat) (st : AllocState) : Prop where
  fresh : st.disk.blockAlloc.1 ≠ 0 → st.disk.blockAlloc.1 ∉ st.allocated ∧
    s ≤ st.disk.blockAlloc.1 ∧ st.disk.blockAlloc.1 < st.disk.backend.numOfBlocks
  complete : st.disk.blockAlloc.1 = 0 ↔ ∀ b, s ≤ b → b < st.disk.backend.numOfBlocks → b ∈ st.allocated

/-- The invariant: free and allocated blocks split the data region. -/
structure Inv (s : Nat) (st : AllocState) : Prop where
  region : 2 < s
  stored : 2 < st.disk.backend.numOfBlocks ∧ st.disk.backend.numOfBlocks ≤ st.disk.backend.capacity
  split : ∃ l, FreeBlocks st.disk l ∧
    (l ++ st.allocated).Perm (List.range' s (st.disk.backend.numOfBlocks - s))

section Invariant

variable {s : Nat} {st st' : AllocState}

/-- The list and the allocated blocks of a state, unfolded from the invariant. -/
theorem Inv.lists (h : Inv s st) : ∃ l, FreeBlocks st.disk l ∧
    (l ++ st.allocated).Perm (List.range' s (st.disk.backend.numOfBlocks - s)) ∧
    (l ++ st.allocated).Nodup ∧
    ∀ b, b ∈ l ++ st.allocated ↔ s ≤ b ∧ b < st.disk.backend.numOfBlocks := by
  obtain ⟨l, hl, hperm⟩ := h.split
  refine ⟨l, hl, hperm, hperm.nodup_iff.mpr List.nodup_range', fun b => ?_⟩
  rw [hperm.mem_iff, List.mem_range'_1]
  omega

/-- What holds of every state makes it sound. -/
theorem Inv.sound (h : Inv s st) : Sound s st := by
  obtain ⟨l, hl, hperm, hnodup, hmem⟩ := h.lists
  have hs := h.region
  have hcap : 2 < st.disk.backend.capacity := by have := h.stored; omega
  cases l with
  | nil =>
      obtain ⟨h0, -⟩ := Disk.blockAlloc_nil hcap hl
      refine ⟨fun hne => absurd h0 hne, ⟨fun _ b hsb hbn => ?_, fun _ => h0⟩⟩
      simpa using (hmem b).mpr ⟨hsb, hbn⟩
  | cons x l =>
      have h2 : 2 ∉ x :: l := fun hcon => by
        have := (hmem 2).mp (List.mem_append_left _ hcon)
        omega
      obtain ⟨hx, -⟩ := Disk.blockAlloc_cons hcap hl h2
      have hxr := (hmem x).mp (by simp)
      have hxa : x ∉ st.allocated := by
        simp only [List.cons_append, List.nodup_cons, List.mem_append] at hnodup
        exact fun hcon => hnodup.1 (.inr hcon)
      refine ⟨fun _ => by rw [hx]; exact ⟨hxa, hxr⟩, ⟨fun h0 => ?_, fun hall => ?_⟩⟩
      · omega
      · exact absurd (hall x hxr.1 hxr.2) hxa

/-- A block goes from the free list to its owner. -/
theorem Inv.step_alloc (h : Inv s st) : Inv s (st.step .alloc) := by
  obtain ⟨l, hl, hperm, hnodup, hmem⟩ := h.lists
  have hs := h.region
  have hcap : 2 < st.disk.backend.capacity := by have := h.stored; omega
  refine ⟨hs, by simpa [step] using h.stored, ?_⟩
  cases l with
  | nil =>
      obtain ⟨h0, hblocks⟩ := Disk.blockAlloc_nil hcap hl
      refine ⟨[], hl.frame (by simp [step]) ?_ (by simp), ?_⟩
      · simp [step, hblocks]
      · simpa [step, h0] using hperm
  | cons x l =>
      have h2 : 2 ∉ x :: l := fun hcon => by
        have := (hmem 2).mp (List.mem_append_left _ hcon)
        omega
      obtain ⟨hx, hl'⟩ := Disk.blockAlloc_cons hcap hl h2
      have hx0 : x ≠ 0 := Stack.ne_zero hl x (by simp)
      refine ⟨l, hl', ?_⟩
      have hstep : (st.step .alloc).allocated = x :: st.allocated := by simp [step, hx, hx0]
      rw [hstep]
      simpa [step] using List.perm_middle.trans hperm

/-- A block comes back, if the overwritten list block gives nothing away. -/
theorem Inv.step_free {b : Nat} (h : Inv s st) (hb : b ∈ st.allocated)
    (hclean : Disk.Reusable st.disk b) : Inv s (st.step (.free b)) := by
  obtain ⟨l, hl, hperm, hnodup, hmem⟩ := h.lists
  have hs := h.region
  have hst := h.stored
  have hbr := (hmem b).mp (List.mem_append_right _ hb)
  have hbl : b ∉ l := fun hcon => (List.nodup_append.mp hnodup).2.2 b hcon b hb rfl
  have h2 : 2 ∉ l := fun hcon => by
    have := (hmem 2).mp (List.mem_append_left _ hcon)
    omega
  obtain ⟨l', hp, hl'⟩ := Disk.blockFree_perm (by omega) hl (by omega) (by omega) (by omega)
    hbl h2 hclean
  refine ⟨hs, by simpa [step] using hst, l', hl', ?_⟩
  simp only [step, Disk.backend_blockFree]
  calc l' ++ st.allocated.erase b
      |>.Perm (b :: l ++ st.allocated.erase b) := hp.append_right _
    _ |>.Perm (l ++ b :: st.allocated.erase b) := List.perm_middle.symm
    _ |>.Perm (l ++ st.allocated) := (List.perm_cons_erase hb).symm.append_left l
    _ |>.Perm (List.range' s (st.disk.backend.numOfBlocks - s)) := hperm

/-- Owners may write what they like to their blocks. -/
theorem Inv.step_overwrite {b : Nat} (h : Inv s st) (hb : b ∈ st.allocated)
    (contents : DiskBlock) : Inv s (st.step (.overwrite b contents)) := by
  obtain ⟨l, hl, hperm, hnodup, hmem⟩ := h.lists
  have hs := h.region
  have hbr := (hmem b).mp (List.mem_append_right _ hb)
  refine ⟨hs, by simpa [step] using h.stored, l, ?_, by simpa [step] using hperm⟩
  refine hl.frame (by simp [step]) ?_ fun x hx => ?_
  · exact Disk.blocks_store_of_ne _ (by omega) _
  · refine Disk.blocks_store_of_ne _ ?_ _
    rintro rfl
    exact (List.nodup_append.mp hnodup).2.2 x hx x hb rfl

theorem Inv.step (h : Inv s st) (hstep : CleanStep st st') : Inv s st' := by
  obtain ⟨op, hen, hcl, rfl⟩ := hstep
  cases op with
  | alloc => exact h.step_alloc
  | free b => exact h.step_free hen hcl
  | overwrite b contents => exact h.step_overwrite hen contents

end Invariant

/-- The state `initializeDiskBlocks` leaves: everything is free. -/
def initial (d : Disk) (s : Nat) : AllocState := ⟨d.initializeDiskBlocks freeListBlock s, []⟩

/-- After formatting all blocks of the chain are free. -/
theorem Inv.initial {d : Disk} {s : Nat} (hs : 2 < s) (h2 : 2 < d.backend.numOfBlocks)
    (hback : d.backend.numOfBlocks ≤ d.backend.capacity) : Inv s (initial d s) := by
  refine ⟨hs, by simpa [AllocState.initial] using ⟨h2, hback⟩, _,
    d.initializeDiskBlocks_stack 2 s h2 hs hback, ?_⟩
  simp [AllocState.initial]

/-- **Allocator runs**: as long as no free makes a link of a block's old
contents, the allocator hands out every data block exactly once at a time. -/
theorem sound_of_clean_run {d : Disk} {s : Nat} {st : AllocState} (hs : freeListBlock < s)
    (h2 : freeListBlock < d.backend.numOfBlocks) (hback : d.backend.numOfBlocks ≤ d.backend.capacity)
    (hrun : Relation.ReflTransGen CleanStep (initial d s) st) : Sound s st := by
  have hinv : Inv s st := by
    induction hrun with
    | refl => exact Inv.initial hs h2 hback
    | tail _ hstep ih => exact ih.step hstep
  exact hinv.sound

/-- A device of four zeroed blocks: block 3 is the whole data region. -/
def smallDisk : Disk :=
  ⟨⟨true, 4, Backend.four_lt, .tabulate fun _ => 0⟩, fun _ => .tabulate fun _ => 0, []⟩

/-- With nothing allocated, the only block is handed out. -/
theorem Inv.alloc_only {st : AllocState} (h : Inv 3 st) (hn : st.disk.backend.numOfBlocks = 4)
    (hempty : st.allocated = []) : (st.step .alloc).allocated = [3] := by
  obtain ⟨l, hl, hperm, -, -⟩ := h.lists
  have hcap : 2 < st.disk.backend.capacity := by have := h.stored; omega
  rw [hempty, List.append_nil, hn] at hperm
  obtain rfl : l = [3] := List.perm_singleton.mp hperm
  obtain ⟨hx, -⟩ := Disk.blockAlloc_cons hcap hl (by decide)
  simp only [AllocState.step, hx, hempty]
  rfl

/-- Block 3 is allocated, cleared, freed and allocated again. -/
theorem sound_smallDisk : ∃ st, Relation.ReflTransGen CleanStep (initial smallDisk 3) st ∧
    st.allocated = [3] ∧ Sound 3 st := by
  have hinv := Inv.initial (d := smallDisk) (s := 3) (by decide) (by decide) (by decide)
  obtain ⟨st₁, hst₁⟩ : ∃ st, st = (initial smallDisk 3).step .alloc := ⟨_, rfl⟩
  have hstep₁ : CleanStep (initial smallDisk 3) st₁ := ⟨.alloc, trivial, trivial, hst₁⟩
  have hback₁ : st₁.disk.backend = smallDisk.backend := by simp [hst₁, step, initial]
  have hheld₁ : st₁.allocated = [3] := hst₁ ▸ hinv.alloc_only (by simp [initial, smallDisk]) rfl
  obtain ⟨st₂, hst₂⟩ : ∃ st, st = st₁.step
      (.overwrite 3 (writeFreeDiskListBlock (.tabulate fun _ => 0) (.tabulate fun _ => 0))) := ⟨_, rfl⟩
  have hstep₂ : CleanStep st₁ st₂ := ⟨.overwrite 3 _, by simp [Enabled, hheld₁], trivial, hst₂⟩
  have hheld₂ : st₂.allocated = [3] := hst₂ ▸ hheld₁
  have hclear : Disk.Reusable st₂.disk 3 := by
    refine .inr (.inr fun i hi => ?_)
    rw [hst₂, step, Disk.blocks_store_self _ (by rw [hback₁]; decide)]
    rw [slot_writeFreeDiskListBlock _ _ hi, Buffer.peek_tabulate]
    simp
  obtain ⟨st₃, hst₃⟩ : ∃ st, st = st₂.step (.free 3) := ⟨_, rfl⟩
  have hstep₃ : CleanStep st₂ st₃ := ⟨.free 3, by simp [Enabled, hheld₂], hclear, hst₃⟩
  have hheld₃ : st₃.allocated = [] := by simp [hst₃, step, hheld₂]
  have hrun₃ : Relation.ReflTransGen CleanStep (initial smallDisk 3) st₃ :=
    ((Relation.ReflTransGen.single hstep₁).tail hstep₂).tail hstep₃
  have hback₃ : st₃.disk.backend.numOfBlocks = 4 := by simp [hst₃, hst₂, step, hback₁, smallDisk]
  refine ⟨st₃.step .alloc, hrun₃.tail ⟨.alloc, trivial, trivial, rfl⟩,
    (((hinv.step hstep₁).step hstep₂).step hstep₃).alloc_only hback₃ hheld₃, ?_⟩
  exact sound_of_clean_run (by decide) (by decide) (by decide)
    (hrun₃.tail ⟨.alloc, trivial, trivial, rfl⟩)

/-- File contents that spell the number 7 in their first eight bytes. -/
def sevenContents : DiskBlock :=
  writeFreeDiskListBlock (.tabulate fun i => if i = 0 then 7 else 0) (.tabulate fun _ => 0)

theorem stack_sevenContents (d : Disk) : Stack d sevenContents [7] := by
  have hslot : ∀ i < 128, slot sevenContents i = if i = 0 then 7 else 0 := by
    intro i hi
    rw [sevenContents, slot_writeFreeDiskListBlock _ _ hi, Buffer.peek_tabulate, if_pos hi]
    split <;> rfl
  have hfront : front sevenContents = [7] := by
    have hone : usedSlots (slot sevenContents) 127 = usedSlots (slot sevenContents) 1 :=
      usedSlots_of_zero (by omega) fun i hi hi' => by rw [hslot i (by omega), if_neg (by omega)]
    rw [front_eq, hone, Disk.usedSlots_consecutive (s := 7) (by omega)]
    · rfl
    · intro i hi
      rw [hslot i (by omega), if_pos (by omega)]
      omega
  exact hfront ▸ Stack.last (by rw [hslot 127 (by omega), if_neg (by omega)])

/-- A block freed into the empty list becomes a link with the contents its
owner left in it, and the allocation after its own hands those out. -/
theorem alloc_freed_contents {st : AllocState} {b x : Nat} {contents : DiskBlock}
    (hcap : 2 < st.disk.backend.capacity) (h : FreeBlocks st.disk []) (hb : b ∈ st.allocated)
    (hb0 : b ≠ 0) (hb2 : b ≠ 2) (hbc : b < st.disk.backend.capacity) (hx : x ≠ 2)
    (hcont : ∀ d, Stack d contents [x]) :
    ∃ st', Relation.ReflTransGen AnyStep st st' ∧ st'.disk.blockAlloc.1 = x ∧
      st'.disk.backend.numOfBlocks = st.disk.backend.numOfBlocks := by
  have hd1 : FreeBlocks (st.disk.store b contents) [] :=
    h.frame (by simp) (Disk.blocks_store_of_ne _ (Ne.symm hb2) _) (by simp)
  have hz := Stack.nil_iff hd1 |>.mp rfl
  have hd2 : FreeBlocks ((st.disk.store b contents).blockFree b) [b, x] := by
    refine Disk.blockFree_newLink (by simpa using hcap) hd1 hb0 hb2 (by simpa using hbc)
      (hz 0 (by decide)) (hz 127 (by decide)) ?_
    rw [Disk.blocks_store_self _ hbc]
    exact hcont _
  have h2 : 2 ∉ [b, x] := by simp [Ne.symm hb2, Ne.symm hx]
  obtain ⟨-, hd3⟩ := Disk.blockAlloc_cons (by simpa using hcap) hd2 h2
  obtain ⟨hret, -⟩ := Disk.blockAlloc_cons (by simpa using hcap) hd3 (by simp [Ne.symm hx])
  refine ⟨((st.step (.overwrite b contents)).step (.free b)).step .alloc, ?_, hret, ?_⟩
  · have s1 : AnyStep st (st.step (.overwrite b contents)) :=
      ⟨.overwrite b contents, hb, rfl⟩
    have s2 : AnyStep (st.step (.overwrite b contents))
        ((st.step (.overwrite b contents)).step (.free b)) := ⟨.free b, hb, rfl⟩
    exact ((Relation.ReflTransGen.single s1).tail s2).tail ⟨.alloc, trivial, rfl⟩
  · simp [step]

/-- Allocate block 3, write a 7 into it, free it and allocate it again: the
next allocation returns 7, on a disk of four blocks. -/
theorem freed_contents_handed_out : ¬ ∀ (d : Disk) (s : Nat) (st : AllocState),
    freeListBlock < s → freeListBlock < d.backend.numOfBlocks → d.backend.numOfBlocks ≤ d.backend.capacity →
      Relation.ReflTransGen AnyStep (initial d s) st → Sound s st := by
  intro hall
  have hcap : (initial smallDisk 3).disk.backend.capacity = 4 := by
    simp [initial, smallDisk, Backend.capacity]
  have hn : (initial smallDisk 3).disk.backend.numOfBlocks = 4 := by
    simp [initial, smallDisk]
  have h0 : FreeBlocks (initial smallDisk 3).disk [3] :=
    smallDisk.initializeDiskBlocks_stack 2 3 (by decide) (by decide) (by decide)
  obtain ⟨hx, h1⟩ := Disk.blockAlloc_cons (by rw [hcap]; decide) h0 (by decide)
  have hmem : 3 ∈ ((initial smallDisk 3).step .alloc).allocated := by
    simp only [step, hx]
    simp
  obtain ⟨st, hrun, hret, hnum⟩ := alloc_freed_contents (x := 7)
    (by simp only [step, Disk.backend_blockAlloc, hcap]; decide) h1 hmem
    (by decide) (by decide) (by simp only [step, Disk.backend_blockAlloc, hcap]; decide)
    (by decide) stack_sevenContents
  have hfirst : AnyStep (initial smallDisk 3) ((initial smallDisk 3).step .alloc) :=
    ⟨.alloc, trivial, rfl⟩
  have hsound := hall smallDisk 3 st (by decide) (by decide) (by decide) (hrun.head hfirst)
  have hbad := (hsound.fresh (by omega)).2.2
  simp only [step, Disk.backend_blockAlloc] at hnum
  omega

end AllocState

end Naofs
