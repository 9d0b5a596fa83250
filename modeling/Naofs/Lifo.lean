import Naofs.FreeList
import Mathlib.Logic.Relation

/-!
# Naofs.Lifo

The free list as a stack.

The list block is *packed* if its unused slots all come before the used ones and
there is a link.  While it is packed, `blockFree` pushes on the stack of
`Stack` and `blockAlloc` pops from it, so that the two together restore the list block
byte for byte.  `refines_of_run` compares a whole run on the disk with the same run on
a list.
-/

namespace Naofs

namespace Disk

/-- The list block holds zeros, followed only by non-zero slots up to the link. -/
def Packed (d : Disk) : Prop :=
  ∃ k ≤ 127, (∀ i < k, slot (d.blocks 2) i = 0) ∧ ∀ i ≤ 127, k ≤ i → slot (d.blocks 2) i ≠ 0

section Packed

variable {d : Disk} {b : Nat} {l : List Nat}

/-- **Push**: the freed block is the top of the stack. -/
theorem blockFree_push (hcap : 2 < d.backend.capacity) (h : FreeBlocks d l) (hp : d.Packed)
    (hb0 : b ≠ 0) (hb2 : b ≠ 2) (hbc : b < d.backend.capacity) (hbl : b ∉ l) (h2 : 2 ∉ l) :
    FreeBlocks (d.blockFree b) (b :: l) := by
  obtain ⟨k, hk, hz, hne⟩ := hp
  by_cases h0 : slot (d.blocks 2) 0 = 0
  · obtain ⟨c, hc, hcz, hafter, hslot, l', rfl, hl⟩ := blockFree_before_link hcap h hbc hbl h2 h0
      (hne 127 le_rfl hk)
    -- the slots before the one that is filled are unused
    have hck : c < k := by
      by_contra hcon
      exact hne c (by omega) (by omega) hcz
    have hnew : slot ((d.blockFree b).blocks 2) c = b := by rw [hslot c (by omega), if_pos rfl]
    have hfront : front ((d.blockFree b).blocks 2) = b :: front (d.blocks 2) := by
      rw [front_eq, front_eq]
      have := usedSlots_clear_first (f := slot ((d.blockFree b).blocks 2)) (g := slot (d.blocks 2)) hc
        (by rw [hnew]; exact hb0) (fun i hi => ?_) fun i hi => ?_
      · rwa [hnew] at this
      · rw [hslot i (by omega), if_neg (by omega), hz i (by omega)]
      · rw [hslot i (by omega)]
        split
        · next hic => rw [hic, hcz]
        · rfl
    rw [hfront] at hl
    exact hl
  · exact blockFree_spill hcap h hb0 hb2 hbc hbl h2 h0

/-- **Pop**: there is a top, and it is taken. -/
theorem blockAlloc_pop (hcap : 2 < d.backend.capacity) (h : FreeBlocks d l) (hp : d.Packed)
    (h2 : 2 ∉ l) : l = d.blockAlloc.1 :: l.tail ∧ FreeBlocks d.blockAlloc.2 l.tail := by
  obtain ⟨k, hk, -, hne⟩ := hp
  cases l with
  | nil => exact absurd (h.nil_iff.mp rfl 127 (by omega)) (hne 127 le_rfl hk)
  | cons x l =>
      obtain ⟨hx, hl⟩ := blockAlloc_cons hcap h h2
      exact ⟨by rw [hx]; rfl, hl⟩

/-- A block freed and allocated again leaves the list block as it was. -/
theorem blockAlloc_blockFree (hcap : 2 < d.backend.capacity) (hp : d.Packed) (hb0 : b ≠ 0)
    (hb2 : b ≠ 2) (hbc : b < d.backend.capacity) :
    (d.blockFree b).blockAlloc.1 = b ∧ (d.blockFree b).blockAlloc.2.blocks 2 = d.blocks 2 := by
  obtain ⟨k, hk, hz, hne⟩ := hp
  have hcap' : 2 < (d.blockFree b).backend.capacity := by simpa using hcap
  by_cases h0 : slot (d.blocks 2) 0 = 0
  · obtain ⟨c, hc, hcz, -, hslot⟩ := slot_blockFree_fill hcap (hbc.trans d.backend.capacity_lt) h0
    have hck : c < k := by
      by_contra hcon
      exact hne c (by omega) (by omega) hcz
    have hnew : slot ((d.blockFree b).blocks 2) c = b := by rw [hslot c hc, if_pos rfl]
    obtain ⟨hret, hslot'⟩ := slot_blockAlloc (c := c) hcap' (by omega) (by rw [hnew]; exact hb0)
      fun i hi => by
      rw [hslot i (by omega), if_neg (by omega), hz i (by omega)]
    refine ⟨hret.trans hnew, ext_slot fun i hi => ?_⟩
    rw [hslot' i hi]
    split
    · next hic => rw [hic, hcz]
    · next hic => rw [hslot i hi, if_neg hic]
  · obtain ⟨hslot, hcontents⟩ := slot_blockFree_spill hcap hb2 hbc h0
    have h127 : slot ((d.blockFree b).blocks 2) 127 = b := by rw [hslot 127 (by omega), if_pos rfl]
    obtain ⟨hret, hblocks⟩ := blocks_blockAlloc_link hcap'
      (fun i hi => by rw [hslot i (by omega), if_neg (by omega)]) (by rw [h127]; exact hb0)
      (by rw [h127]; simpa using hbc)
    rw [h127] at hret hblocks
    exact ⟨hret, hblocks.trans hcontents⟩

end Packed

end Disk

/-! ## Whole runs -/

/-- The disk, and the stack that the same calls make of a list. -/
structure LifoState where
  disk : Disk
  stack : List Nat

namespace LifoState

inductive LifoOp where
  | blockAlloc
  | blockFree (blockNumber : Nat)
  | overwrite (blockNumber : Nat) (contents : DiskBlock)

def step (st : LifoState) : LifoOp → LifoState
  | .blockAlloc => ⟨st.disk.blockAlloc.2, st.stack.tail⟩
  | .blockFree b => ⟨st.disk.blockFree b, b :: st.stack⟩
  | .overwrite b contents => ⟨st.disk.store b contents, st.stack⟩

/-- A block of the disk that is neither the list block nor on the stack. -/
def Outside (st : LifoState) (b : Nat) : Prop :=
  b ≠ 0 ∧ b ≠ freeListBlock ∧ b < st.disk.backend.capacity ∧ b ∉ st.stack

/-- The list block is packed before each call. -/
def Enabled (st : LifoState) : LifoOp → Prop
  | .blockAlloc => st.disk.Packed
  | .blockFree b => st.disk.Packed ∧ st.Outside b
  | .overwrite b _ => st.disk.Packed ∧ b ≠ freeListBlock ∧ b ∉ st.stack

def Step (st st' : LifoState) : Prop := ∃ op, st.Enabled op ∧ st' = st.step op

/-- The stack of the disk is the list, without repetition. -/
structure Inv (st : LifoState) : Prop where
  stored : freeListBlock < st.disk.backend.capacity
  stack : FreeBlocks st.disk st.stack
  nodup : st.stack.Nodup
  notMem : freeListBlock ∉ st.stack

/-- `blockFree` pushes, `blockAlloc` pops, and the one undoes the other. -/
structure Lifo (st : LifoState) : Prop where
  push : ∀ b, st.Outside b → FreeBlocks (st.disk.blockFree b) (b :: st.stack)
  pop : st.stack = st.disk.blockAlloc.1 :: st.stack.tail ∧
    FreeBlocks st.disk.blockAlloc.2 st.stack.tail
  undo : ∀ b, st.Outside b → (st.disk.blockFree b).blockAlloc.1 = b ∧
    (st.disk.blockFree b).blockAlloc.2.blocks freeListBlock = st.disk.blocks freeListBlock

section Runs

variable {st st' : LifoState}

theorem Inv.lifo (h : Inv st) (hp : st.disk.Packed) : Lifo st where
  push := fun _ hb => Disk.blockFree_push h.stored h.stack hp hb.1 hb.2.1 hb.2.2.1 hb.2.2.2 h.notMem
  pop := Disk.blockAlloc_pop h.stored h.stack hp h.notMem
  undo := fun _ hb => Disk.blockAlloc_blockFree h.stored hp hb.1 hb.2.1 hb.2.2.1

theorem Inv.step (h : Inv st) (hstep : Step st st') : Inv st' := by
  obtain ⟨op, hen, rfl⟩ := hstep
  cases op with
  | blockAlloc =>
      have hpop := (h.lifo hen).pop
      refine ⟨by simpa [LifoState.step] using h.stored, hpop.2, h.nodup.tail, fun hcon => h.notMem ?_⟩
      exact List.mem_of_mem_tail hcon
  | blockFree b =>
      obtain ⟨hp, hb⟩ := hen
      refine ⟨by simpa [LifoState.step] using h.stored, (h.lifo hp).push b hb,
        List.nodup_cons.mpr ⟨hb.2.2.2, h.nodup⟩, ?_⟩
      rw [LifoState.step, List.mem_cons, not_or]
      exact ⟨fun hcon => hb.2.1 hcon.symm, h.notMem⟩
  | overwrite b contents =>
      obtain ⟨-, hb2, hb⟩ := hen
      refine ⟨by simpa [LifoState.step] using h.stored, ?_, h.nodup, h.notMem⟩
      refine h.stack.frame (by simp [LifoState.step]) ?_ fun x hx => ?_
      · exact st.disk.blocks_store_of_ne (Ne.symm hb2) _
      · refine st.disk.blocks_store_of_ne ?_ _
        rintro rfl
        exact hb hx

/-- **Refinement**: in every run in which the list block is packed before each call,
the disk holds the stack that the calls make, and the next call pushes or pops. -/
theorem refines_of_run (hcap : freeListBlock < st.disk.backend.capacity)
    (hstack : FreeBlocks st.disk st.stack) (hnodup : st.stack.Nodup)
    (hmem : freeListBlock ∉ st.stack) (hrun : Relation.ReflTransGen Step st st') :
    Inv st' ∧ (st'.disk.Packed → Lifo st') := by
  have hinv : Inv st' := by
    induction hrun with
    | refl => exact ⟨hcap, hstack, hnodup, hmem⟩
    | tail _ hstep ih => exact ih.step hstep
  exact ⟨hinv, hinv.lifo⟩

/-- A device of eight blocks with block 5 on the free list. -/
def oneFree : LifoState where
  disk := ⟨⟨true, 8, Backend.eight_lt, .tabulate fun _ => 0⟩,
    fun n => writeFreeDiskListBlock (.tabulate fun i => if n = 2 ∧ i = 127 then 5 else 0)
      (.tabulate fun _ => 0), []⟩
  stack := [5]

theorem slot_oneFree (n : Nat) {i : Nat} (hi : i < 128) :
    slot (oneFree.disk.blocks n) i = if n = 2 ∧ i = 127 then 5 else 0 := by
  have := slot_writeFreeDiskListBlock (.tabulate fun i => if n = 2 ∧ i = 127 then 5 else 0)
    (.tabulate fun _ => 0) hi
  rw [Buffer.peek_tabulate, if_pos hi] at this
  refine this.trans ?_
  split <;> rfl

/-- Block 6 is freed into the list. -/
theorem refines_first : Inv (oneFree.step (.blockFree 6)) ∧ Lifo (oneFree.step (.blockFree 6)) := by
  have hcap : oneFree.disk.backend.capacity = 8 := by simp [oneFree, Backend.capacity]
  have h127 : slot (oneFree.disk.blocks 2) 127 = 5 := by rw [slot_oneFree 2 (by omega), if_pos ⟨rfl, rfl⟩]
  have hzero : ∀ i < 127, slot (oneFree.disk.blocks 2) i = 0 := fun i hi => by
    rw [slot_oneFree 2 (by omega), if_neg (by omega)]
  have hpacked : oneFree.disk.Packed := by
    refine ⟨127, le_rfl, hzero, fun i hi hi' => ?_⟩
    obtain rfl : i = 127 := by omega
    rw [h127]
    decide
  have hstack : FreeBlocks oneFree.disk oneFree.stack := by
    have hnil : Stack oneFree.disk (oneFree.disk.blocks 5) [] := by
      have hfront : front (oneFree.disk.blocks 5) = [] := front_eq_nil.mpr fun i hi => by
        rw [slot_oneFree 5 (by omega), if_neg (by omega)]
      exact hfront ▸ Stack.last (by rw [slot_oneFree 5 (by omega), if_neg (by omega)])
    have hlink := Stack.link (d := oneFree.disk) (b := oneFree.disk.blocks 2) (l := [])
      (by rw [h127]; decide) (by rw [h127, hcap]; decide) (by rw [h127]; exact hnil)
    rwa [front_eq_nil.mpr hzero, h127] at hlink
  have hout : oneFree.Outside 6 := ⟨by decide, by decide, by rw [hcap]; decide, by decide⟩
  obtain ⟨hinv, hlifo⟩ := refines_of_run (by rw [hcap]; decide) hstack (by decide) (by decide)
    (.single ⟨.blockFree 6, ⟨hpacked, hout⟩, rfl⟩)
  refine ⟨hinv, hlifo ?_⟩
  obtain ⟨c, hc, hcz, hafter, hslot⟩ := Disk.slot_blockFree_fill (d := oneFree.disk) (b := 6)
    (by rw [hcap]; decide) (by decide) (hzero 0 (by decide))
  obtain rfl : c = 126 := by
    have h1 : ¬ c < 126 := fun h => hafter 126 (by omega) h (hzero 126 (by omega))
    have h2 : c ≠ 127 := fun h => by
      rw [h, h127] at hcz
      omega
    omega
  refine ⟨126, by omega, fun i hi => ?_, fun i hi hi' => ?_⟩
  · exact (hslot i (by omega)).trans (by rw [if_neg (by omega), hzero i (by omega)])
  · have hi'' : i = 126 ∨ i = 127 := by omega
    refine fun hcon => absurd ((hslot i (by omega)).symm.trans hcon) ?_
    rcases hi'' with rfl | rfl
    · rw [if_pos rfl]
      decide
    · rw [if_neg (by decide), h127]
      decide

end Runs

end LifoState

end Naofs
