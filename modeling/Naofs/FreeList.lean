import Naofs.Disk
import Mathlib.Data.List.Nodup
import Mathlib.Data.List.Perm.Lattice

/-!
# Naofs.FreeList

The block allocator of `alloc.c` and `free.c`, and the list of free blocks it
keeps on disk.

`FREE_LIST_BLOCK` holds 128 slots.  A non-zero slot is a free block, and slot
127 is a free block that is also the *link* of the list: its own contents are
the next 128 slots.  `Stack d b l` says that reading the list this way from
the block contents `b` yields the blocks `l`, in the order in which
`blockAlloc` hands them out.

* `blockAlloc_nil` / `blockAlloc_cons` — allocation pops the stack;
* `blockFree_spill` — freeing into a list that is full at the front pushes the
  freed block, which takes the old list as its contents;
* `blockFree_fill` — freeing into a list with a link adds the freed block to
  the slots in front of it.

The remaining case, a list with neither, is where the freed block becomes a
link although its contents are whatever its owner left in it.
-/

namespace Naofs

namespace Disk

/-! ## The allocator -/

/-- The counter at which the search of `blockAlloc` stops: the first used
slot, or the end of the block. -/
def firstUsed (diskBlock : FreeDiskListBlock) : Nat :=
  ((List.range blockAddressesPerBlock).find? fun i => diskBlock.peek i != 0).getD
    blockAddressesPerBlock

def blockAlloc (d : Disk) : Nat × Disk :=
  let listData := d.load freeListBlock d.backend.junk
  let diskBlock := makeFreeDiskListBlock listData
  let counter := firstUsed diskBlock
  let newBlock := if counter < blockAddressesPerBlock then diskBlock.peek counter else 0
  let diskBlock := diskBlock.poke counter 0
  let listData :=
    if counter = blockAddressesPerBlock - 1 then d.load newBlock listData
    else writeFreeDiskListBlock diskBlock listData
  (newBlock, (d.store freeListBlock listData).log (.alloc newBlock))

/-- The slot the backward search of `_freeInto` stops at. -/
def lastUnused (diskBlock : FreeDiskListBlock) : Option Nat :=
  (List.range blockAddressesPerBlock).reverse.find? fun i => diskBlock.peek i == 0

def freeInto (d : Disk) (freeListBlockNumber blockNumber : Nat) : Disk :=
  let listData := d.load freeListBlockNumber d.backend.junk
  let diskBlock := makeFreeDiskListBlock listData
  if diskBlock.peek 0 ≠ 0 then
    let d := d.store blockNumber listData
    let diskBlock : FreeDiskListBlock :=
      .tabulate fun i => if i = blockAddressesPerBlock - 1 then blockNumber else 0
    d.store freeListBlockNumber (writeFreeDiskListBlock diskBlock listData)
  else
    let diskBlock :=
      match lastUnused diskBlock with
      | some i => diskBlock.poke i blockNumber
      | none => diskBlock
    d.store freeListBlockNumber (writeFreeDiskListBlock diskBlock listData)

/-- The freed block can be put on the list without making a link of its old
contents. -/
def Reusable (d : Disk) (b : Nat) : Prop :=
  slot (d.blocks 2) 0 ≠ 0 ∨ slot (d.blocks 2) 127 ≠ 0 ∨ ∀ i < 128, slot (d.blocks b) i = 0

instance (d : Disk) (b : Nat) : Decidable (Reusable d b) :=
  inferInstanceAs (Decidable (_ ∨ _ ∨ _))

def blockFree (d : Disk) (blockNumber : Nat) : Disk :=
  (d.freeInto freeListBlock blockNumber).log (.free blockNumber (decide (d.Reusable blockNumber)))

end Disk

/-! ## Used slots -/

/-- The non-zero values among `f 0, …, f (m - 1)`, in order. -/
def usedSlots (f : Nat → Nat) (m : Nat) : List Nat := ((List.range m).map f).filter (· ≠ 0)

/-- The slots are taken from the first on. -/
theorem usedSlots_succ (f : Nat → Nat) (m : Nat) :
    usedSlots f (m + 1) = usedSlots f m ++ if f m ≠ 0 then [f m] else [] := by
  simp only [usedSlots, List.range_succ, List.map_append, List.filter_append, List.map_cons,
    List.map_nil]
  split <;> simp_all

/-- Only the slots below `m` count. -/
theorem usedSlots_congr {f g : Nat → Nat} {m : Nat} (h : ∀ i < m, f i = g i) :
    usedSlots f m = usedSlots g m := by
  unfold usedSlots
  rw [List.map_congr_left fun i hi => h i (List.mem_range.mp hi)]

/-- No slot is used if all are zero. -/
theorem usedSlots_eq_nil {f : Nat → Nat} {m : Nat} :
    usedSlots f m = [] ↔ ∀ i < m, f i = 0 := by
  simp [usedSlots, List.filter_eq_nil_iff]

/-- A used slot has a number that is not zero. -/
theorem mem_usedSlots {f : Nat → Nat} {m x : Nat} :
    x ∈ usedSlots f m ↔ x ≠ 0 ∧ ∃ i < m, f i = x := by
  simp [usedSlots, and_comm]

/-- Unused slots at the end do not count. -/
theorem usedSlots_of_zero {f : Nat → Nat} {k m : Nat} (hk : k ≤ m)
    (h : ∀ i < m, k ≤ i → f i = 0) : usedSlots f m = usedSlots f k := by
  induction m with
  | zero =>
      obtain rfl : k = 0 := by omega
      rfl
  | succ m ih =>
      by_cases hkm : k = m + 1
      · rw [hkm]
      · rw [usedSlots_succ, ih (by omega) fun i hi => h i (by omega), h m (by omega) (by omega)]
        simp

/-- Clearing the first used slot takes its value off the front. -/
theorem usedSlots_clear_first {f g : Nat → Nat} {m c : Nat} (hc : c < m) (hf : f c ≠ 0)
    (hz : ∀ i < c, f i = 0) (hg : ∀ i < m, g i = if i = c then 0 else f i) :
    usedSlots f m = f c :: usedSlots g m := by
  induction m with
  | zero => omega
  | succ m ih =>
      rw [usedSlots_succ, usedSlots_succ]
      have hgm := hg m (by omega)
      by_cases hcm : c = m
      · subst hcm
        have hf0 : usedSlots f c = [] := usedSlots_eq_nil.mpr hz
        have hg0 : usedSlots g c = [] := by
          apply usedSlots_eq_nil.mpr
          intro i hi
          rw [hg i (by omega), if_neg (by omega), hz i hi]
        simp [hf0, hg0, hf, hgm]
      · rw [ih (by omega) fun i hi => hg i (by omega)]
        rw [if_neg (fun h => hcm h.symm)] at hgm
        rw [hgm, List.cons_append]

/-- Filling an unused slot adds the value, somewhere. -/
theorem usedSlots_fill {f g : Nat → Nat} {m c x : Nat} (hc : c < m) (hf : f c = 0) (hx : x ≠ 0)
    (hg : ∀ i < m, g i = if i = c then x else f i) :
    (usedSlots g m).Perm (x :: usedSlots f m) := by
  induction m with
  | zero => omega
  | succ m ih =>
      rw [usedSlots_succ, usedSlots_succ]
      have hgm := hg m (by omega)
      by_cases hcm : c = m
      · subst hcm
        have hfg : usedSlots g c = usedSlots f c := by
          apply usedSlots_congr
          intro i hi
          rw [hg i (by omega), if_neg (by omega)]
        simp [hfg, hf, hgm, hx]
      · rw [if_neg (fun h => hcm h.symm)] at hgm
        rw [hgm]
        exact (ih (by omega) fun i hi => hg i (by omega)).append_right _

/-! ## The stack of free blocks -/

/-- The free blocks in the slots before the link. -/
@[irreducible] def front (b : DiskBlock) : List Nat := usedSlots (slot b) 127

theorem front_eq (b : DiskBlock) : front b = usedSlots (slot b) 127 := by rw [front]

/-- A list block is used up when its numbers before the link are zero. -/
theorem front_eq_nil {b : DiskBlock} : front b = [] ↔ ∀ i < 127, slot b i = 0 := by
  rw [front_eq, usedSlots_eq_nil]

/-- `Stack d b l`: the free list that starts with the contents `b` is `l`. -/
inductive Stack (d : Disk) : DiskBlock → List Nat → Prop where
  | last {b : DiskBlock} (h : slot b 127 = 0) : Stack d b (front b)
  | link {b : DiskBlock} {l : List Nat} (h : slot b 127 ≠ 0) (hcap : slot b 127 < d.backend.capacity)
      (hl : Stack d (d.blocks (slot b 127)) l) : Stack d b (front b ++ slot b 127 :: l)

/-- The free list of the disk. -/
def FreeBlocks (d : Disk) (l : List Nat) : Prop := Stack d (d.blocks 2) l

theorem front_ne_zero {b : DiskBlock} {x : Nat} (h : x ∈ front b) : x ≠ 0 := by
  rw [front_eq] at h
  exact (mem_usedSlots.mp h).1

/-- Zero is never on the free list. -/
theorem Stack.ne_zero {d : Disk} {b : DiskBlock} {l : List Nat} (h : Stack d b l) :
    ∀ x ∈ l, x ≠ 0 := by
  induction h with
  | last _ => exact fun x hx => front_ne_zero hx
  | link h0 _ _ ih =>
      intro x hx
      rcases List.mem_append.mp hx with hx | hx
      · exact front_ne_zero hx
      · rcases List.mem_cons.mp hx with rfl | hx
        · exact h0
        · exact ih x hx

/-- What a list can look like. -/
theorem Stack.inv {d : Disk} {b : DiskBlock} {l : List Nat} (h : Stack d b l) :
    (slot b 127 = 0 ∧ l = front b) ∨
      (slot b 127 ≠ 0 ∧ slot b 127 < d.backend.capacity ∧
        ∃ l', l = front b ++ slot b 127 :: l' ∧ Stack d (d.blocks (slot b 127)) l') := by
  cases h with
  | last h0 => exact .inl ⟨h0, rfl⟩
  | link h0 hc hl => exact .inr ⟨h0, hc, _, rfl, hl⟩

/-- A list is determined by the contents it starts from. -/
theorem Stack.unique {d : Disk} {b : DiskBlock} {l l' : List Nat} (h : Stack d b l)
    (h' : Stack d b l') : l = l' := by
  induction h generalizing l' with
  | last h0 =>
      cases h' with
      | last _ => rfl
      | link h1 _ _ => exact absurd h0 h1
  | link h0 _ _ ih =>
      cases h' with
      | last h1 => exact absurd h1 h0
      | link _ _ hl' => rw [ih hl']

/-- Only the contents of free blocks matter to the list behind `b`. -/
theorem Stack.frame {d d' : Disk} {b : DiskBlock} {l : List Nat} (h : Stack d b l)
    (hk : d'.backend = d.backend) (hb : ∀ x ∈ l, d'.blocks x = d.blocks x) :
    Stack d' b l := by
  induction h with
  | last h0 => exact .last h0
  | link h0 hc hl ih =>
      refine .link h0 (by rwa [hk]) ?_
      rw [hb _ (by simp)]
      exact ih fun x hx => hb x (by simp [hx])

/-- The free list is read from its own blocks and the list block. -/
theorem FreeBlocks.frame {d d' : Disk} {l : List Nat} (h : FreeBlocks d l)
    (hk : d'.backend = d.backend) (h2 : d'.blocks 2 = d.blocks 2)
    (hb : ∀ x ∈ l, d'.blocks x = d.blocks x) : FreeBlocks d' l := by
  unfold FreeBlocks
  rw [h2]
  exact Stack.frame h hk hb

/-- A list is empty exactly if all slots are zero. -/
theorem Stack.nil_iff {d : Disk} {b : DiskBlock} {l : List Nat} (h : Stack d b l) :
    l = [] ↔ ∀ i < 128, slot b i = 0 := by
  cases h with
  | last h0 =>
      rw [front_eq_nil]
      constructor
      · intro hz i hi
        by_cases h : i = 127
        · rw [h, h0]
        · exact hz i (by omega)
      · exact fun hz i hi => hz i (by omega)
  | link h0 _ _ =>
      constructor
      · intro hl
        simp at hl
      · exact fun hz => absurd (hz 127 (by omega)) h0

namespace Disk

/-! ## Allocation pops -/

section Alloc

variable (d : Disk)

/-- An allocation writes the list block alone. -/
@[simp] theorem blocks_blockAlloc_of_ne {n : Nat} (h : n ≠ 2) :
    d.blockAlloc.2.blocks n = d.blocks n := by
  simp only [blockAlloc, blocks_log]
  exact d.blocks_store_of_ne h _

@[simp] theorem backend_blockAlloc : d.blockAlloc.2.backend = d.backend := by
  simp [blockAlloc]

@[simp] theorem trace_blockAlloc :
    d.blockAlloc.2.trace = d.trace ++ [.alloc d.blockAlloc.1] := by
  simp [blockAlloc]

/-- The answer is a `size_t`. -/
theorem blockAlloc_lt : d.blockAlloc.1 < 2 ^ 64 := by
  simp only [blockAlloc]
  split
  · rw [peek_makeFreeDiskListBlock]
    exact slot_lt _ _
  · decide

/-- The search runs to the end of a block of zeros. -/
theorem firstUsed_eq_of_zero {t : FreeDiskListBlock} (h : ∀ i < 128, t.peek i = 0) :
    firstUsed t = 128 := by
  have : (List.range 128).find? (fun i => t.peek i != 0) = none := by
    rw [List.find?_range_eq_none]
    intro i hi
    simp [h i hi]
  simp [firstUsed, this]

/-- Where the search stops, if some slot is used. -/
theorem firstUsed_spec {t : FreeDiskListBlock} (h : ∃ i < 128, t.peek i ≠ 0) :
    firstUsed t < 128 ∧ t.peek (firstUsed t) ≠ 0 ∧ ∀ i < firstUsed t, t.peek i = 0 := by
  cases hf : (List.range 128).find? (fun i => t.peek i != 0) with
  | none =>
      obtain ⟨i, hi, hne⟩ := h
      have := List.find?_range_eq_none.mp hf i hi
      simp_all
  | some c =>
      have hc := List.find?_range_eq_some.mp hf
      have heq : firstUsed t = c := by simp [firstUsed, hf]
      rw [heq]
      refine ⟨List.mem_range.mp hc.2.1, by simpa using hc.1, fun i hi => ?_⟩
      simpa using hc.2.2 i hi

variable {d}

/-- On the empty list `blockAlloc` returns 0 and writes the list back as it was. -/
theorem blockAlloc_nil (hcap : 2 < d.backend.capacity) (h : FreeBlocks d []) :
    d.blockAlloc.1 = 0 ∧ d.blockAlloc.2.blocks = d.blocks := by
  have hz := h.nil_iff.mp rfl
  have hc : firstUsed (makeFreeDiskListBlock (d.blocks 2)) = 128 := firstUsed_eq_of_zero (by simpa using hz)
  have hpoke : (makeFreeDiskListBlock (d.blocks 2)).poke 128 0 =
      makeFreeDiskListBlock (d.blocks 2) := by
    apply Buffer.ext_peek
    intro i hi
    exact Buffer.peek_poke_of_ne _ (by simp at hi; omega) 0
  constructor
  · simp [blockAlloc, d.load_of_lt hcap, hc]
  · funext n
    by_cases hn : n = 2
    · subst hn
      simp [blockAlloc, d.load_of_lt hcap, hc, hpoke, blocks_store, hcap,
        writeFreeDiskListBlock_make]
    · exact d.blocks_blockAlloc_of_ne hn

/-- The search ends at the first number that is not zero. -/
theorem firstUsed_eq {t : FreeDiskListBlock} {c : Nat} (hc : c < 128) (hne : t.peek c ≠ 0)
    (hz : ∀ i < c, t.peek i = 0) : firstUsed t = c := by
  obtain ⟨h1, h2, h3⟩ := firstUsed_spec (t := t) ⟨c, hc, hne⟩
  rcases Nat.lt_trichotomy (firstUsed t) c with h | h | h
  · exact absurd (hz _ h) h2
  · exact h
  · exact absurd (h3 c h) hne

/-- The first used slot is before the link: its block is taken out of the list. -/
theorem slot_blockAlloc {c : Nat} (hcap : 2 < d.backend.capacity) (hc : c < 127)
    (hne : slot (d.blocks 2) c ≠ 0) (hz : ∀ i < c, slot (d.blocks 2) i = 0) :
    d.blockAlloc.1 = slot (d.blocks 2) c ∧ ∀ i < 128,
      slot (d.blockAlloc.2.blocks 2) i = if i = c then 0 else slot (d.blocks 2) i := by
  have hload : d.load 2 d.backend.junk = d.blocks 2 := d.load_of_lt hcap _
  have hfirst : firstUsed (makeFreeDiskListBlock (d.blocks 2)) = c :=
    firstUsed_eq (by omega) (by simpa using hne) (by simpa using hz)
  refine ⟨by simp [blockAlloc, hload, hfirst, show c < 128 by omega], fun i hi => ?_⟩
  have : d.blockAlloc.2.blocks 2 =
      writeFreeDiskListBlock ((makeFreeDiskListBlock (d.blocks 2)).poke c 0) (d.blocks 2) := by
    simp [blockAlloc, hload, hfirst, blocks_store, hcap, show c ≠ 127 by omega]
  rw [this, slot_writeFreeDiskListBlock _ _ hi, Buffer.peek_poke]
  split
  · next h => simp [h.1]
  · next h =>
      have : i ≠ c := fun hic => h ⟨hic, by simp; omega⟩
      rw [if_neg this, peek_makeFreeDiskListBlock, Nat.mod_eq_of_lt (slot_lt _ _)]

/-- Only the link is used: its contents become the list. -/
theorem blocks_blockAlloc_link (hcap : 2 < d.backend.capacity)
    (hz : ∀ i < 127, slot (d.blocks 2) i = 0) (hne : slot (d.blocks 2) 127 ≠ 0)
    (hcl : slot (d.blocks 2) 127 < d.backend.capacity) :
    d.blockAlloc.1 = slot (d.blocks 2) 127 ∧
      d.blockAlloc.2.blocks 2 = d.blocks (slot (d.blocks 2) 127) := by
  have hload : d.load 2 d.backend.junk = d.blocks 2 := d.load_of_lt hcap _
  have hfirst : firstUsed (makeFreeDiskListBlock (d.blocks 2)) = 127 :=
    firstUsed_eq (by omega) (by simpa using hne) (by simpa using hz)
  constructor
  · simp [blockAlloc, hload, hfirst]
  · simp [blockAlloc, hload, hfirst, blocks_store, hcap, d.load_of_lt hcl]

/-- **Allocation pops**: `blockAlloc` returns the top of the stack and leaves
the rest of it. -/
theorem blockAlloc_cons {x : Nat} {l : List Nat} (hcap : 2 < d.backend.capacity)
    (h : FreeBlocks d (x :: l)) (h2 : 2 ∉ x :: l) :
    d.blockAlloc.1 = x ∧ FreeBlocks d.blockAlloc.2 l := by
  have hex : ∃ i < 128, (makeFreeDiskListBlock (d.blocks 2)).peek i ≠ 0 := by
    by_contra hcon
    have : ∀ i < 128, slot (d.blocks 2) i = 0 := by
      intro i hi
      by_contra hne
      exact hcon ⟨i, hi, by simpa using hne⟩
    simpa using h.nil_iff.mpr this
  obtain ⟨hc, hne, hz⟩ := firstUsed_spec hex
  generalize firstUsed (makeFreeDiskListBlock (d.blocks 2)) = c at hc hne hz
  simp only [peek_makeFreeDiskListBlock] at hne hz
  have hframe : ∀ y ∈ l, d.blockAlloc.2.blocks y = d.blocks y := by
    intro y hy
    apply d.blocks_blockAlloc_of_ne
    rintro rfl
    exact h2 (List.mem_cons_of_mem _ hy)
  unfold FreeBlocks at h ⊢
  by_cases hlast : c = 127
  · -- the popped block is the link, and its contents become the list
    subst hlast
    have hfront : front (d.blocks 2) = [] := front_eq_nil.mpr hz
    rcases h.inv with ⟨h0, -⟩ | ⟨-, hcl, l', hl', hl⟩
    · exact absurd h0 hne
    · rw [hfront, List.nil_append] at hl'
      injection hl' with hx hl'
      subst hl'
      obtain ⟨hret, hnew⟩ := blocks_blockAlloc_link hcap hz hne hcl
      refine ⟨hret.trans hx.symm, ?_⟩
      rw [hnew]
      exact hl.frame (by simp) hframe
  · -- the popped block is in a slot before the link
    obtain ⟨hret, hslot⟩ := slot_blockAlloc hcap (by omega) hne hz
    have hfront : front (d.blocks 2) =
        slot (d.blocks 2) c :: front (d.blockAlloc.2.blocks 2) := by
      rw [front_eq, front_eq]
      exact usedSlots_clear_first (by omega) hne hz fun i hi => hslot i (by omega)
    have h127 : slot (d.blockAlloc.2.blocks 2) 127 = slot (d.blocks 2) 127 := by
      rw [hslot 127 (by omega), if_neg (fun h => hlast h.symm)]
    rcases h.inv with ⟨h0, hl'⟩ | ⟨h0, hcl, l', hl', hl⟩
    · rw [hfront] at hl'
      injection hl' with hx hl'
      subst hl'
      exact ⟨hret.trans hx.symm, .last (h127.trans h0)⟩
    · rw [hfront, List.cons_append] at hl'
      injection hl' with hx hl'
      subst hl'
      refine ⟨hret.trans hx.symm, ?_⟩
      rw [← h127] at h0 hcl hl hframe ⊢
      refine .link h0 (by simpa using hcl) ?_
      rw [hframe _ (by simp)]
      exact hl.frame (by simp) fun y hy => hframe y (by simp [hy])

end Alloc

/-! ## Freeing pushes -/

section Free

variable (d : Disk)

/-- Freeing writes the list block, and the freed block at most. -/
theorem blocks_blockFree_of_ne {b n : Nat} (h2 : n ≠ 2) (hb : n ≠ b) :
    (d.blockFree b).blocks n = d.blocks n := by
  simp only [blockFree, freeInto, blocks_log]
  split
  · rw [blocks_store_of_ne _ h2, blocks_store_of_ne _ hb]
  · rw [blocks_store_of_ne _ h2]

@[simp] theorem backend_blockFree (b : Nat) : (d.blockFree b).backend = d.backend := by
  simp only [blockFree, freeInto]
  split <;> simp

@[simp] theorem trace_blockFree (b : Nat) :
    (d.blockFree b).trace = d.trace ++ [.free b (decide (d.Reusable b))] := by
  simp only [blockFree, freeInto]
  split <;> simp

/-- Where the backward search stops, if some slot is unused. -/
theorem lastUnused_spec {t : FreeDiskListBlock} (h : ∃ i < 128, t.peek i = 0) :
    ∃ c < 128, lastUnused t = some c ∧ t.peek c = 0 ∧ ∀ i < 128, c < i → t.peek i ≠ 0 := by
  cases hf : lastUnused t with
  | none =>
      obtain ⟨i, hi, h0⟩ := h
      have := List.find?_eq_none.mp hf i (by simpa using hi)
      simp [h0] at this
  | some c =>
      obtain ⟨hc, as, bs, hsplit, has⟩ := List.find?_eq_some_iff_append.mp hf
      have hrange : List.range 128 = bs.reverse ++ c :: as.reverse := by
        have := congrArg List.reverse hsplit
        simpa using this
      have hmem : c ∈ List.range 128 := by simp [hrange]
      refine ⟨c, List.mem_range.mp hmem, rfl, by simpa using hc, fun i hi hci => ?_⟩
      have hsorted : (bs.reverse ++ c :: as.reverse).Pairwise (· < ·) :=
        hrange ▸ List.pairwise_lt_range
      have himem : i ∈ bs.reverse ++ c :: as.reverse := hrange ▸ List.mem_range.mpr hi
      rcases List.mem_append.mp himem with hib | hic
      · have := (List.pairwise_append.mp hsorted).2.2 i hib c (by simp)
        omega
      · rcases List.mem_cons.mp hic with rfl | hia
        · omega
        · have := has i (by simpa using hia)
          simpa using this

variable {d} {b : Nat} {l : List Nat}

/-- The list block after a block was put into slot `c`. -/
theorem slot_blockFree_fill (hcap : 2 < d.backend.capacity) (hb : b < 2 ^ 64)
    (h0 : slot (d.blocks 2) 0 = 0) :
    ∃ c < 128, slot (d.blocks 2) c = 0 ∧ (∀ i < 128, c < i → slot (d.blocks 2) i ≠ 0) ∧
      ∀ i < 128, slot ((d.blockFree b).blocks 2) i = if i = c then b else slot (d.blocks 2) i := by
  have hload : d.load 2 d.backend.junk = d.blocks 2 := d.load_of_lt hcap _
  obtain ⟨c, hc, hlast, hcz, hafter⟩ :=
    lastUnused_spec (t := makeFreeDiskListBlock (d.blocks 2)) ⟨0, by omega, by simpa using h0⟩
  simp only [peek_makeFreeDiskListBlock] at hcz hafter
  refine ⟨c, hc, hcz, hafter, fun i hi => ?_⟩
  have : (d.blockFree b).blocks 2 =
      writeFreeDiskListBlock ((makeFreeDiskListBlock (d.blocks 2)).poke c b) (d.blocks 2) := by
    simp [blockFree, freeInto, hload, h0, hlast, blocks_store, hcap]
  rw [this, slot_writeFreeDiskListBlock _ _ hi, Buffer.peek_poke]
  by_cases hic : i = c
  · rw [if_pos ⟨hic, hc⟩, if_pos hic, Nat.mod_eq_of_lt hb]
  · rw [if_neg (fun h => hic h.1), if_neg hic, peek_makeFreeDiskListBlock,
      Nat.mod_eq_of_lt (slot_lt _ _)]

/-- With a used first slot the whole list moves into the freed block, and the list block
keeps the freed block as its link only. -/
theorem slot_blockFree_spill (hcap : 2 < d.backend.capacity) (hb2 : b ≠ 2)
    (hbc : b < d.backend.capacity) (h0 : slot (d.blocks 2) 0 ≠ 0) :
    (∀ i < 128, slot ((d.blockFree b).blocks 2) i = if i = 127 then b else 0) ∧
      (d.blockFree b).blocks b = d.blocks 2 := by
  have hload : d.load 2 d.backend.junk = d.blocks 2 := d.load_of_lt hcap _
  refine ⟨fun i hi => ?_, by simp [blockFree, freeInto, hload, h0, blocks_store, hb2, hbc]⟩
  have : (d.blockFree b).blocks 2 = writeFreeDiskListBlock
      (.tabulate fun i => if i = 127 then b else 0) (d.blocks 2) := by
    simp [blockFree, freeInto, hload, h0, blocks_store, hcap]
  rw [this, slot_writeFreeDiskListBlock _ _ hi, Buffer.peek_tabulate, if_pos hi]
  split
  · exact Nat.mod_eq_of_lt (hbc.trans d.backend.capacity_lt)
  · rfl

/-- **Freeing, spill**: the freed block is the top of the list. -/
theorem blockFree_spill (hcap : 2 < d.backend.capacity) (h : FreeBlocks d l)
    (hb0 : b ≠ 0) (hb2 : b ≠ 2) (hbc : b < d.backend.capacity) (hbl : b ∉ l) (h2 : 2 ∉ l)
    (h0 : slot (d.blocks 2) 0 ≠ 0) : FreeBlocks (d.blockFree b) (b :: l) := by
  obtain ⟨hslot, hcontents⟩ := slot_blockFree_spill hcap hb2 hbc h0
  have hfront : front ((d.blockFree b).blocks 2) = [] := by
    rw [front_eq_nil]
    intro i hi
    rw [hslot i (by omega), if_neg (by omega)]
  have h127 : slot ((d.blockFree b).blocks 2) 127 = b := by
    rw [hslot 127 (by omega), if_pos rfl]
  have hstack : Stack (d.blockFree b) (d.blocks 2) l := by
    refine Stack.frame h (by simp) fun x hx => ?_
    apply d.blocks_blockFree_of_ne
    · rintro rfl
      exact h2 hx
    · rintro rfl
      exact hbl hx
  have hlink := Stack.link (d := d.blockFree b) (b := (d.blockFree b).blocks 2) (l := l)
    (by rw [h127]; exact hb0) (by rw [h127]; simpa using hbc)
    (by rw [h127, hcontents]; exact hstack)
  rw [hfront, h127] at hlink
  exact hlink

/-- With a link in place the freed block goes into the last unused slot before it, and
the list goes on behind the link as it did. -/
theorem blockFree_before_link (hcap : 2 < d.backend.capacity) (h : FreeBlocks d l)
    (hbc : b < d.backend.capacity) (hbl : b ∉ l) (h2 : 2 ∉ l) (h0 : slot (d.blocks 2) 0 = 0)
    (h127 : slot (d.blocks 2) 127 ≠ 0) :
    ∃ c < 127, slot (d.blocks 2) c = 0 ∧ (∀ i < 128, c < i → slot (d.blocks 2) i ≠ 0) ∧
      (∀ i < 128, slot ((d.blockFree b).blocks 2) i = if i = c then b else slot (d.blocks 2) i) ∧
      ∃ l', l = front (d.blocks 2) ++ l' ∧
        FreeBlocks (d.blockFree b) (front ((d.blockFree b).blocks 2) ++ l') := by
  obtain ⟨c, hc, hcz, hafter, hslot⟩ :=
    slot_blockFree_fill hcap (hbc.trans d.backend.capacity_lt) h0
  have hc127 : c ≠ 127 := fun hcon => h127 (hcon ▸ hcz)
  have hlink : slot ((d.blockFree b).blocks 2) 127 = slot (d.blocks 2) 127 := by
    rw [hslot 127 (by omega), if_neg (fun hcon => hc127 hcon.symm)]
  refine ⟨c, by omega, hcz, hafter, hslot, ?_⟩
  rcases h.inv with ⟨hz, -⟩ | ⟨-, hcl, l', rfl, hl⟩
  · exact absurd hz h127
  · have hmem : ∀ x ∈ slot (d.blocks 2) 127 :: l', (d.blockFree b).blocks x = d.blocks x := by
      intro x hx
      apply d.blocks_blockFree_of_ne
      · rintro rfl
        exact h2 (List.mem_append_right _ hx)
      · rintro rfl
        exact hbl (List.mem_append_right _ hx)
    refine ⟨slot (d.blocks 2) 127 :: l', rfl, ?_⟩
    have := Stack.link (d := d.blockFree b) (b := (d.blockFree b).blocks 2) (l := l')
      (by rw [hlink]; exact h127) (by rw [hlink]; simpa using hcl)
      (by
        rw [hlink, hmem _ (by simp)]
        exact hl.frame (by simp) fun x hx => hmem x (by simp [hx]))
    rw [hlink] at this
    exact this

/-- **Freeing, fill**: the freed block is somewhere in the list. -/
theorem blockFree_fill (hcap : 2 < d.backend.capacity) (h : FreeBlocks d l)
    (hb0 : b ≠ 0) (hbc : b < d.backend.capacity) (hbl : b ∉ l) (h2 : 2 ∉ l)
    (h0 : slot (d.blocks 2) 0 = 0) (h127 : slot (d.blocks 2) 127 ≠ 0) :
    ∃ l', l'.Perm (b :: l) ∧ FreeBlocks (d.blockFree b) l' := by
  obtain ⟨c, hc, hcz, -, hslot, l', rfl, hl⟩ := blockFree_before_link hcap h hbc hbl h2 h0 h127
  have hfront : (front ((d.blockFree b).blocks 2)).Perm (b :: front (d.blocks 2)) := by
    rw [front_eq, front_eq]
    exact usedSlots_fill (by omega) hcz hb0 fun i hi => hslot i (by omega)
  exact ⟨_, hfront.append_right _, hl⟩

/-- Freeing into a list that has neither a used first slot nor a link makes
the freed block the link, with the contents it has. -/
theorem blockFree_newLink {l' : List Nat} (hcap : 2 < d.backend.capacity) (h : FreeBlocks d l)
    (hb0 : b ≠ 0) (hb2 : b ≠ 2) (hbc : b < d.backend.capacity)
    (h0 : slot (d.blocks 2) 0 = 0) (h127 : slot (d.blocks 2) 127 = 0)
    (hcontents : Stack (d.blockFree b) (d.blocks b) l') :
    FreeBlocks (d.blockFree b) (l ++ b :: l') := by
  obtain ⟨c, hc, hcz, hafter, hslot⟩ :=
    slot_blockFree_fill hcap (hbc.trans d.backend.capacity_lt) h0
  have hc127 : c = 127 := by
    by_contra hne
    exact hafter 127 (by omega) (by omega) h127
  subst hc127
  have hsame : (d.blockFree b).blocks b = d.blocks b := by
    simp [blockFree, freeInto, d.load_of_lt hcap, h0, blocks_store, hb2]
  have hfront : front ((d.blockFree b).blocks 2) = front (d.blocks 2) := by
    rw [front_eq, front_eq]
    apply usedSlots_congr
    intro i hi
    rw [hslot i (by omega), if_neg (by omega)]
  have hlink : slot ((d.blockFree b).blocks 2) 127 = b := by
    rw [hslot 127 (by omega), if_pos rfl]
  rcases h.inv with ⟨-, rfl⟩ | ⟨hcon, -⟩
  · have := Stack.link (d := d.blockFree b) (b := (d.blockFree b).blocks 2) (l := l')
      (by rw [hlink]; exact hb0) (by rw [hlink]; simpa using hbc)
      (by rw [hlink, hsame]; exact hcontents)
    rw [hlink, hfront] at this
    exact this
  · exact absurd h127 hcon

/-- **Freeing adds**: the freed block joins the list and nothing else changes
in it. -/
theorem blockFree_perm (hcap : 2 < d.backend.capacity) (h : FreeBlocks d l)
    (hb0 : b ≠ 0) (hb2 : b ≠ 2) (hbc : b < d.backend.capacity) (hbl : b ∉ l) (h2 : 2 ∉ l)
    (hr : Reusable d b) : ∃ l', l'.Perm (b :: l) ∧ FreeBlocks (d.blockFree b) l' := by
  by_cases h0 : slot (d.blocks 2) 0 = 0
  · by_cases h127 : slot (d.blocks 2) 127 = 0
    · rcases hr with hr | hr | hr
      · exact absurd h0 hr
      · exact absurd h127 hr
      · have hfront : front (d.blocks b) = [] :=
          front_eq_nil.mpr fun i hi => hr i (by omega)
        have hnil : Stack (d.blockFree b) (d.blocks b) [] :=
          hfront ▸ Stack.last (hr 127 (by omega))
        exact ⟨_, by simp, blockFree_newLink hcap h hb0 hb2 hbc h0 h127 hnil⟩
    · exact blockFree_fill hcap h hb0 hbc hbl h2 h0 h127
  · exact ⟨_, List.Perm.refl _, blockFree_spill hcap h hb0 hb2 hbc hbl h2 h0⟩

end Free

-- callers use the lemmas above, never the bodies
attribute [irreducible] blockAlloc blockFree

end Disk

end Naofs
