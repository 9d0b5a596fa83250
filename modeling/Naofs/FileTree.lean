import Naofs.Bmap

/-!
# Naofs.FileTree

The tree of blocks of a file on the disk, and what appending a block does to it.

`Disk.child` reads the disk as a memory of pointers, so that the trees behind an
inode are those of `Radix`.  The insertion of a block is specified in two
steps.  `allocateBelow_grown` says what it does to the trees if the blocks that
the allocator hands out are fresh, whatever the allocator does otherwise;
`allocateBelow_freeBlocks` says which blocks are handed out if the free list is
in order.
-/

namespace Naofs

/-- Distinct numbers of blocks that hold data: stored, and not the free list. -/
structure Own (k : Backend) (l : List Nat) : Prop where
  nodup : l.Nodup
  data : ∀ b ∈ l, b ≠ 0 ∧ b ≠ 2 ∧ b < k.capacity

/-- Part of such a list, in any order. -/
theorem Own.mono {k : Backend} {l l' : List Nat} (h : Own k l)
    (hc : ∀ b, l'.count b ≤ l.count b) : Own k l' where
  nodup := List.nodup_iff_count_le_one.mpr fun b =>
    (hc b).trans (List.nodup_iff_count_le_one.mp h.nodup b)
  data := fun b hb => h.data b (by
    have := hc b
    rw [← List.count_pos_iff] at hb ⊢
    omega)

/-- The order of the blocks does not matter. -/
theorem Own.perm {k : Backend} {l l' : List Nat} (h : Own k l) (hp : l'.Perm l) : Own k l' :=
  h.mono fun b => (hp.count_eq b).le

namespace Disk

/-- The pointer in a slot of a block. -/
def child (d : Disk) (b i : Nat) : Nat := slot (d.blocks b) i

/-- The entries of an indirect block are read from that block. -/
theorem child_congr {d d' : Disk} {b : Nat} (h : d'.blocks b = d.blocks b) :
    d'.child b = d.child b := by
  funext i
  rw [child, child, h]

/-- `Allocates d d' new`: on the way from `d` to `d'` the allocator was called
and returned `new`, and no other event was recorded. -/
def Allocates (d d' : Disk) (new : List Nat) : Prop := d'.trace = d.trace ++ new.map Event.alloc

theorem Allocates.refl (d : Disk) : Allocates d d [] := by simp [Allocates]

/-- First some blocks are taken, and then others. -/
theorem Allocates.trans {d d' d'' : Disk} {l l' : List Nat} (h : Allocates d d' l)
    (h' : Allocates d' d'' l') : Allocates d d'' (l ++ l') := by
  unfold Allocates at *
  rw [h', h, List.map_append, List.append_assoc]

/-- The trace says which blocks are taken. -/
theorem Allocates.unique {d d' : Disk} {l l' : List Nat} (h : Allocates d d' l)
    (h' : Allocates d d' l') : l = l' := by
  unfold Allocates at *
  rw [h, List.append_cancel_left_eq] at h'
  exact List.map_injective_iff.mpr (fun _ _ => by simp) h'

/-! ## Reading -/

/-- `processAndGetDiskBlock` follows the digits if all blocks on the way are stored. -/
theorem processAndGetDiskBlock_eq {d : Disk} {L n k r : Nat} (hk : k < n) (hn : n ≤ 128 ^ L)
    (hown : ∀ b ∈ Radix.inner 128 d.child L r n, b < d.backend.capacity) (buf : DiskBlock) :
    d.processAndGetDiskBlock (Radix.digits 128 L k) r buf = Radix.leaf 128 d.child L r k := by
  induction L generalizing r n k buf with
  | zero => rfl
  | succ L ih =>
      have hpos : 0 < 128 ^ L := Nat.pow_pos (by omega)
      have hn0 : n ≠ 0 := by omega
      have hload : d.load r buf = d.blocks r :=
        d.load_of_lt (hown r (Radix.mem_inner_root hn0 r)) buf
      rw [Radix.digits, processAndGetDiskBlock, hload, peek_makeFreeDiskListBlock]
      have hle : k / 128 ^ L ≤ n / 128 ^ L := Nat.div_le_div_right hk.le
      rcases Nat.lt_or_eq_of_le hle with hlt | heq
      · exact ih (Nat.mod_lt _ hpos) le_rfl (fun b hb => hown b (Radix.mem_inner_full hlt hb)) _
      · have hdk := Nat.div_add_mod k (128 ^ L)
        have hdn := Nat.div_add_mod n (128 ^ L)
        rw [Radix.leaf, heq] at *
        exact ih (by omega) (Nat.mod_lt _ hpos).le
          (fun b hb => hown b (Radix.mem_inner_last hn0 hb)) _

/-! ## Insertion below an indirect block -/

section Below

variable {d : Disk} {x p i : Nat} {w : FreeDiskListBlock} {e : DiskBlock}

@[simp] theorem backend_allocateIfNeeded (d : Disk) (l : List Nat) :
    (d.allocateIfNeeded l).2.backend = d.backend := by
  unfold allocateIfNeeded
  split <;> simp

/-- A block is taken exactly if it is the first of its subtree. -/
theorem allocates_allocateIfNeeded (d : Disk) (l : List Nat) :
    Allocates d (d.allocateIfNeeded l).2
      (if l.all (· == 0) then [d.blockAlloc.1] else []) := by
  unfold allocateIfNeeded
  split
  · simp [Allocates]
  · exact Allocates.refl d

/-- The first round allocates if all offsets are zero. -/
theorem allocateBelow_allocates (d : Disk) (x : Nat) (offs : List Nat) (p i : Nat)
    (w : FreeDiskListBlock) (e : DiskBlock) :
    (d.allocateBelow x offs p i w e).backend = d.backend ∧
      ∃ new, Allocates d (d.allocateBelow x offs p i w e)
        ((if offs ≠ [] ∧ offs.all (· == 0) then [d.blockAlloc.1] else []) ++ new) := by
  induction offs generalizing d p i w e with
  | nil => exact ⟨by simp [allocateBelow], [], by simp [Allocates, allocateBelow]⟩
  | cons off offs ih =>
      have h1 := allocates_allocateIfNeeded d (off :: offs)
      simp only [allocateBelow, ne_eq, reduceCtorEq, not_false_eq_true, true_and]
      split
      · obtain ⟨hb, new, hnew⟩ := ih ((d.allocateIfNeeded (off :: offs)).2.store p _) _ _ _ _
        rw [Allocates, trace_store] at hnew
        exact ⟨by rw [hb]; simp, _, h1.trans hnew⟩
      · obtain ⟨hb, new, hnew⟩ := ih (d.allocateIfNeeded (off :: offs)).2 _ _ _ _
        exact ⟨by rw [hb]; simp, _, h1.trans hnew⟩

/-- A round that allocates: the new block is hung into its parent. -/
theorem allocateBelow_new {off : Nat} {offs : List Nat} {d₂ : Disk}
    (hall : ∀ i ∈ off :: offs, i = 0) (hc : d.blockAlloc.1 ≠ 0)
    (hcap : d.blockAlloc.1 < d.backend.capacity) (hi : i < 128)
    (hd₂ : d₂ = d.blockAlloc.2.store p
      (writeFreeDiskListBlock (w.poke i d.blockAlloc.1) e)) :
    d.allocateBelow x (off :: offs) p i w e =
      d₂.allocateBelow x offs d.blockAlloc.1 off
        (makeFreeDiskListBlock (d₂.blocks d.blockAlloc.1)) (d₂.blocks d.blockAlloc.1) := by
  have hneed : d.allocateIfNeeded (off :: offs) = d.blockAlloc := by
    rw [allocateIfNeeded, if_pos (by simpa using hall)]
  have hpeek : (w.poke i d.blockAlloc.1).peek i = d.blockAlloc.1 :=
    Buffer.peek_poke_self _ hi _
  simp only [allocateBelow, hneed, ne_eq, hc, not_false_eq_true, if_true, hpeek]
  rw [← hd₂, load_of_lt _ (by simpa [hd₂] using hcap)]

/-- A round that goes down into a block of the tree. -/
theorem allocateBelow_old {off : Nat} {offs : List Nat} (hall : ¬ ∀ i ∈ off :: offs, i = 0)
    (hcap : w.peek i < d.backend.capacity) :
    d.allocateBelow x (off :: offs) p i w e =
      d.allocateBelow x offs (w.peek i) off
        (makeFreeDiskListBlock (d.blocks (w.peek i))) (d.blocks (w.peek i)) := by
  have hneed : d.allocateIfNeeded (off :: offs) = (0, d) := by
    rw [allocateIfNeeded, if_neg (by simpa using hall)]
  simp only [allocateBelow, hneed, ne_eq, not_true_eq_false, if_false]
  rw [load_of_lt _ hcap]

/-- The slots of a block after one of them was set. -/
theorem child_store_poke {d' : Disk} (hb : d'.backend = d.backend) {v : Nat} (hv : v < 2 ^ 64)
    (hp : p < d.backend.capacity) (e : DiskBlock) {j : Nat} (hj : j < 128) :
    (d'.store p (writeFreeDiskListBlock ((makeFreeDiskListBlock (d.blocks p)).poke i v)
      e)).child p j = if j = i then v else d.child p j := by
  rw [child, blocks_store_self _ (by rwa [hb]), slot_writeFreeDiskListBlock _ _ hj,
    Buffer.peek_poke, peek_makeFreeDiskListBlock]
  split
  · next h => rw [if_pos h.1, Nat.mod_eq_of_lt hv]
  · next h =>
      rw [if_neg fun hji => h ⟨hji, by simp; omega⟩, Nat.mod_eq_of_lt (slot_lt _ _)]
      rfl

/-- **Insertion below a block**: with fresh blocks from the allocator the
subtree in one slot of `p` grows by the leaf `x`, and nothing else changes. -/
theorem allocateBelow_grown {L m : Nat} {new : List Nat} (hm : m < 128 ^ L) (hi : i < 128)
    (hx : x < 2 ^ 64)
    (hnew : Allocates d (d.allocateBelow x (Radix.digits 128 L m) p i
      (makeFreeDiskListBlock (d.blocks p)) e) new)
    (hown : Own d.backend (p :: new ++ Radix.inner 128 d.child L (d.child p i) m)) :
    let d' := d.allocateBelow x (Radix.digits 128 L m) p i
      (makeFreeDiskListBlock (d.blocks p)) e
    Radix.Grown 128 d.child d'.child L (d.child p i) (d'.child p i) m x new ∧
      (∀ j < 128, j ≠ i → d'.child p j = d.child p j) ∧
      ∀ b, b ≠ 2 → b ∉ p :: new ++ Radix.inner 128 d.child L (d.child p i) m →
        d'.blocks b = d.blocks b := by
  induction L generalizing d m p i e new with
  | zero =>
      intro d'
      obtain rfl : m = 0 := by simpa using hm
      have hd' : d' = d.store p (writeFreeDiskListBlock
          ((makeFreeDiskListBlock (d.blocks p)).poke i x) e) := rfl
      have hp := (hown.data p (by simp)).2.2
      obtain rfl : new = [] := hnew.unique (by simp [Allocates, allocateBelow, Radix.digits])
      have hslot : ∀ j < 128, d'.child p j = if j = i then x else d.child p j :=
        fun j hj => hd' ▸ child_store_poke rfl hx hp e hj
      refine ⟨?_, fun j hj hne => by rw [hslot j hj, if_neg hne], fun b _ hb => ?_⟩
      · rw [hslot i hi, if_pos rfl]
        exact Radix.Grown.leaf _
      · rw [hd']
        exact blocks_store_of_ne _ (by simpa using hb) _
  | succ L ih =>
      intro d'
      have hpos : 0 < 128 ^ L := Nat.pow_pos (by omega)
      have hq : m / 128 ^ L < 128 := Nat.div_lt_of_lt_mul (by rwa [← Nat.pow_succ])
      have hpd := hown.data p (by simp)
      by_cases hm0 : m = 0
      · -- the first leaf below this slot: a new block is hung in
        subst hm0
        have hall : ∀ i ∈ 0 / 128 ^ L :: Radix.digits 128 L (0 % 128 ^ L), i = 0 :=
          (Radix.digits_eq_zero (L := L + 1) (by omega) (Nat.pow_pos (by omega))).mpr rfl
        obtain ⟨-, new₁, hnew₁⟩ := allocateBelow_allocates d x (Radix.digits 128 (L + 1) 0) p
          i (makeFreeDiskListBlock (d.blocks p)) e
        obtain rfl : new = d.blockAlloc.1 :: new₁ := by
          rw [if_pos ⟨by simp [Radix.digits], by simpa [Radix.digits] using hall⟩] at hnew₁
          exact hnew.unique hnew₁
        have hcd := hown.data d.blockAlloc.1 (by simp)
        have hpc : p ≠ d.blockAlloc.1 ∧ p ∉ new₁ := by
          have := hown.nodup
          simp at this
          exact ⟨this.1.1, this.1.2⟩
        obtain ⟨d₂, hd₂⟩ : ∃ d₂, d₂ = d.blockAlloc.2.store p (writeFreeDiskListBlock
          ((makeFreeDiskListBlock (d.blocks p)).poke i d.blockAlloc.1) e) := ⟨_, rfl⟩
        have hd' : d' = _ := allocateBelow_new (x := x) hall hcd.1 hcd.2.2 hi hd₂
        rw [Nat.zero_div, Nat.zero_mod] at hd'
        have hback : d₂.backend = d.backend := by simp [hd₂]
        have hslot₂ : ∀ j < 128, d₂.child p j =
            if j = i then d.blockAlloc.1 else d.child p j := by
          intro j hj
          rw [hd₂]
          exact child_store_poke (backend_blockAlloc d) d.blockAlloc_lt hpd.2.2 e hj
        have hframe₂ : ∀ b, b ≠ 2 → b ≠ p → d₂.blocks b = d.blocks b := by
          intro b hb2 hbp
          rw [hd₂, blocks_store_of_ne _ hbp, blocks_blockAlloc_of_ne _ hb2]
        have halloc₂ : Allocates d₂ d' new₁ := by
          have : Allocates d d' (d.blockAlloc.1 :: new₁) := hnew
          simp only [Allocates, hd₂, trace_store, trace_blockAlloc] at this ⊢
          simpa using this
        obtain ⟨hgrown, hother, hframe⟩ := ih (d := d₂) (p := d.blockAlloc.1) (i := 0)
          (m := 0) hpos (by omega) (hd' ▸ halloc₂)
          (by
            rw [hback, Radix.inner_zero, List.append_nil]
            refine hown.mono fun b => ?_
            simp only [List.count_cons, List.count_append]
            omega)
        rw [Radix.inner_zero, List.append_nil] at hframe
        rw [← hd'] at hgrown hframe
        have hparent : d'.blocks p = d₂.blocks p :=
          hframe p hpd.2.1 (by simp [hpc])
        rw [Radix.inner_zero, List.append_nil, child_congr hparent, hslot₂ i hi, if_pos rfl]
        refine ⟨hgrown.newRoot rfl, fun j hj hne => ?_, fun b hb2 hb => ?_⟩
        · rw [hslot₂ j hj, if_neg hne]
        · simp only [List.mem_cons, not_or] at hb
          rw [hframe b hb2 (by simpa using hb.2), hframe₂ b hb2 hb.1]
      · -- otherwise the block in the slot is part of the tree already
        have hall : ¬ ∀ i ∈ m / 128 ^ L :: Radix.digits 128 L (m % 128 ^ L), i = 0 :=
          fun h => hm0 ((Radix.digits_eq_zero (L := L + 1) (by omega) hm).mp h)
        have hcd := hown.data (d.child p i)
          (by simp [Radix.mem_inner_root hm0])
        have hd' : d' = _ := allocateBelow_old (x := x) (p := p) (e := e) hall
          (by rw [peek_makeFreeDiskListBlock]; exact hcd.2.2)
        rw [peek_makeFreeDiskListBlock, show slot (d.blocks p) i = d.child p i
          from rfl] at hd'
        have hnew' : Allocates d d' new := hnew
        rw [Radix.inner_node hm0] at hown ⊢
        generalize hF : (List.range (m / 128 ^ L)).flatMap
          (fun j => Radix.inner 128 d.child L (d.child (d.child p i) j) (128 ^ L)) = F at *
        have hown' : Own d.backend (d.child p i :: new ++ Radix.inner 128 d.child L
            (d.child (d.child p i) (m / 128 ^ L)) (m % 128 ^ L)) := by
          refine hown.mono fun b => ?_
          simp only [List.count_cons, List.count_append]
          omega
        obtain ⟨hgrown, hother, hframe⟩ := ih (d := d) (p := d.child p i)
          (i := m / 128 ^ L) (m := m % 128 ^ L) (Nat.mod_lt _ hpos) hq
          (hd' ▸ hnew') hown'
        rw [← hd'] at hgrown hother hframe
        have hnodup := List.nodup_iff_count_le_one.mp hown.nodup
        have hparent : d'.blocks p = d.blocks p := by
          refine hframe p hpd.2.1 fun hmem => ?_
          have h1 := hnodup p
          have h2 := List.count_pos_iff.mpr hmem
          simp only [List.count_cons, List.count_append, beq_self_eq_true, if_true] at h1 h2
          omega
        rw [child_congr hparent]
        refine ⟨?_, fun _ _ _ => rfl, fun b hb2 hb => hframe b hb2 fun hmem => hb ?_⟩
        · refine hgrown.node (by omega) hm0 rfl (fun i hi' => hother i (by omega) (by omega))
            fun i hi' b hb => ?_
          -- the full subtrees are disjoint from the path that is written
          have hbF : b ∈ F := hF ▸ List.mem_flatMap.mpr ⟨i, List.mem_range.mpr hi', hb⟩
          refine child_congr (hframe b (hown.data b (by simp [hbF])).2.1 fun hmem => ?_)
          have h1 := hnodup b
          have h2 := List.count_pos_iff.mpr hmem
          have h3 := List.count_pos_iff.mpr hbF
          simp only [List.count_cons, List.count_append] at h1 h2
          omega
        · simp only [List.mem_cons, List.mem_append, List.cons_append] at hmem ⊢
          tauto

/-- The blocks an insertion takes are those at the front of the free list. -/
theorem allocateBelow_freeBlocks {L m : Nat} {l : List Nat} (hcap : 2 < d.backend.capacity)
    (hm : m < 128 ^ L) (hi : i < 128) (hfree : FreeBlocks d l)
    (hown : Own d.backend (p :: l ++ Radix.inner 128 d.child L (d.child p i) m))
    (hlen : Radix.newInner 128 L m ≤ l.length) :
    let d' := d.allocateBelow x (Radix.digits 128 L m) p i
      (makeFreeDiskListBlock (d.blocks p)) e
    Allocates d d' (l.take (Radix.newInner 128 L m)) ∧
      FreeBlocks d' (l.drop (Radix.newInner 128 L m)) := by
  have hpd := hown.data p (by simp)
  have hpl : ∀ b ∈ l, b ≠ p := by
    rintro b hb rfl
    have := hown.nodup
    simp [hb] at this
  have h2l : 2 ∉ l := fun h => (hown.data 2 (by simp [h])).2.1 rfl
  induction L generalizing d m p i e l with
  | zero =>
      intro d'
      refine ⟨by simp [Allocates, d', allocateBelow, Radix.digits, Radix.newInner], ?_⟩
      rw [Radix.newInner, List.drop_zero]
      exact hfree.frame (by simp [d', allocateBelow, Radix.digits])
        (blocks_store_of_ne _ hpd.2.1.symm _) fun b hb => blocks_store_of_ne _ (hpl b hb) _
  | succ L ih =>
      intro d'
      have hpos : 0 < 128 ^ L := Nat.pow_pos (by omega)
      have hq : m / 128 ^ L < 128 := Nat.div_lt_of_lt_mul (by rwa [← Nat.pow_succ])
      by_cases hm0 : m = 0
      · subst hm0
        rw [Radix.newInner_zero] at hlen ⊢
        obtain ⟨c, l, rfl⟩ : ∃ c l', l = c :: l' := List.exists_cons_of_length_pos (by omega)
        obtain ⟨hc, hfree₁⟩ := blockAlloc_cons hcap hfree h2l
        have hall : ∀ i ∈ 0 / 128 ^ L :: Radix.digits 128 L (0 % 128 ^ L), i = 0 :=
          (Radix.digits_eq_zero (L := L + 1) (by omega) (Nat.pow_pos (by omega))).mpr rfl
        have hcd := hown.data c (by simp)
        obtain ⟨d₂, hd₂⟩ : ∃ d₂, d₂ = d.blockAlloc.2.store p (writeFreeDiskListBlock
          ((makeFreeDiskListBlock (d.blocks p)).poke i d.blockAlloc.1) e) := ⟨_, rfl⟩
        have hd' : d' = _ := allocateBelow_new (x := x) hall (hc ▸ hcd.1) (hc ▸ hcd.2.2) hi hd₂
        rw [Nat.zero_div, Nat.zero_mod, hc] at hd'
        have hback : d₂.backend = d.backend := by simp [hd₂]
        have hfree₂ : FreeBlocks d₂ l := by
          rw [hd₂]
          exact hfree₁.frame (by simp) (blocks_store_of_ne _ hpd.2.1.symm _) fun b hb =>
            blocks_store_of_ne _ (hpl b (by simp [hb])) _
        have hcl : c ∉ l := by
          have := hown.nodup
          simp at this
          exact this.2.1
        obtain ⟨h1, h2⟩ := ih (d := d₂) (p := c) (i := 0) (m := 0) (l := l)
          (e := d₂.blocks c) (by rwa [hback]) hpos (by omega) hfree₂
          (by
            rw [hback, Radix.inner_zero, List.append_nil]
            refine hown.mono fun b => ?_
            simp only [List.count_cons, List.count_append]
            omega)
          (by simpa using hlen) (hback ▸ hcd) (by rintro b hb rfl; exact hcl hb)
          (fun h => h2l (by simp [h]))
        rw [Radix.newInner_zero, ← hd'] at h1 h2
        refine ⟨?_, h2⟩
        have hone : Allocates d d₂ [c] := by simp [Allocates, hd₂, hc]
        exact hone.trans h1
      · have hall : ¬ ∀ i ∈ m / 128 ^ L :: Radix.digits 128 L (m % 128 ^ L), i = 0 :=
          fun h => hm0 ((Radix.digits_eq_zero (L := L + 1) (by omega) hm).mp h)
        have hcd := hown.data (d.child p i) (by simp [Radix.mem_inner_root hm0])
        have hd' : d' = _ := allocateBelow_old (x := x) (p := p) (e := e) hall
          (by rw [peek_makeFreeDiskListBlock]; exact hcd.2.2)
        rw [peek_makeFreeDiskListBlock, show slot (d.blocks p) i = d.child p i
          from rfl] at hd'
        rw [Radix.newInner, if_neg hm0] at hlen ⊢
        rw [Radix.inner_node hm0] at hown
        have hown' : Own d.backend (d.child p i :: l ++ Radix.inner 128 d.child L
            (d.child (d.child p i) (m / 128 ^ L)) (m % 128 ^ L)) := by
          refine hown.mono fun b => ?_
          simp only [List.count_cons, List.count_append]
          omega
        rw [hd']
        refine ih hcap (Nat.mod_lt _ hpos) hq hfree hown' hlen hcd ?_ h2l
        rintro b hb rfl
        have := hown'.nodup
        simp [hb] at this

end Below

/-! ## Insertion below an entry of the inode -/

section Root

variable {d : Disk} {x r L m : Nat}

/-- The blocks that are taken on the way down are in the trace in their order. -/
theorem allocateAllNeededBlocks_allocates (d : Disk) (r x off : Nat) (offs : List Nat) :
    (d.allocateAllNeededBlocks r x off offs).2.backend = d.backend ∧
      ∃ new, Allocates d (d.allocateAllNeededBlocks r x off offs).2
        ((if (off :: offs).all (· == 0) then [d.blockAlloc.1] else []) ++ new) := by
  have h1 := allocates_allocateIfNeeded d (off :: offs)
  simp only [allocateAllNeededBlocks]
  refine ⟨(allocateBelow_allocates _ _ _ _ _ _ _).1.trans (by simp), ?_⟩
  obtain ⟨new, hnew⟩ := (allocateBelow_allocates (d.allocateIfNeeded (off :: offs)).2 x offs
    (if (d.allocateIfNeeded (off :: offs)).1 ≠ 0 then (d.allocateIfNeeded (off :: offs)).1 else r)
    off _ _).2
  exact ⟨_, h1.trans hnew⟩

/-- The first round allocates the root of the tree. -/
theorem allocateAllNeededBlocks_new (hall : ∀ i ∈ Radix.digits 128 (L + 1) m, i = 0)
    (hc : d.blockAlloc.1 ≠ 0) (hcap : d.blockAlloc.1 < d.backend.capacity) :
    d.allocateAllNeededBlocks r x (m / 128 ^ L) (Radix.digits 128 L (m % 128 ^ L)) =
      (d.blockAlloc.1, d.blockAlloc.2.allocateBelow x (Radix.digits 128 L (m % 128 ^ L))
        d.blockAlloc.1 (m / 128 ^ L)
        (makeFreeDiskListBlock (d.blockAlloc.2.blocks d.blockAlloc.1))
        (d.blockAlloc.2.blocks d.blockAlloc.1)) := by
  have hneed : d.allocateIfNeeded (m / 128 ^ L :: Radix.digits 128 L (m % 128 ^ L)) =
      d.blockAlloc := by
    rw [allocateIfNeeded, if_pos (by simpa [Radix.digits] using hall)]
  simp only [allocateAllNeededBlocks, hneed, ne_eq, hc, not_false_eq_true, if_true]
  rw [load_of_lt _ (by simpa using hcap)]

/-- The first round finds the root of the tree. -/
theorem allocateAllNeededBlocks_old (hall : ¬ ∀ i ∈ Radix.digits 128 (L + 1) m, i = 0)
    (hcap : r < d.backend.capacity) :
    d.allocateAllNeededBlocks r x (m / 128 ^ L) (Radix.digits 128 L (m % 128 ^ L)) =
      (r, d.allocateBelow x (Radix.digits 128 L (m % 128 ^ L)) r (m / 128 ^ L)
        (makeFreeDiskListBlock (d.blocks r)) (d.blocks r)) := by
  have hneed : d.allocateIfNeeded (m / 128 ^ L :: Radix.digits 128 L (m % 128 ^ L)) = (0, d) := by
    rw [allocateIfNeeded, if_neg (by simpa [Radix.digits] using hall)]
  simp only [allocateAllNeededBlocks, hneed, ne_eq, not_true_eq_false, if_false]
  rw [load_of_lt _ hcap]

/-- With fresh blocks from the allocator the tree of the entry grows by the leaf
`x`, and nothing else changes. -/
theorem allocateAllNeededBlocks_grown {new : List Nat} {res : Nat × Disk} (hm : m < 128 ^ (L + 1))
    (hx : x < 2 ^ 64)
    (hres : d.allocateAllNeededBlocks r x (m / 128 ^ L) (Radix.digits 128 L (m % 128 ^ L)) = res)
    (hnew : Allocates d res.2 new)
    (hown : Own d.backend (new ++ Radix.inner 128 d.child (L + 1) r m)) :
    Radix.Grown 128 d.child res.2.child (L + 1) r res.1 m x new ∧
      ∀ b, b ≠ 2 → b ∉ new ++ Radix.inner 128 d.child (L + 1) r m →
        res.2.blocks b = d.blocks b := by
  have hpos : 0 < 128 ^ L := Nat.pow_pos (by omega)
  have hq : m / 128 ^ L < 128 := Nat.div_lt_of_lt_mul (by rwa [← Nat.pow_succ])
  have hiff := Radix.digits_eq_zero (L := L + 1) (by omega) hm
  by_cases hm0 : m = 0
  · have hall := hiff.mpr hm0
    subst hm0
    obtain ⟨-, new₁, hnew₁⟩ := allocateAllNeededBlocks_allocates d r x (0 / 128 ^ L)
      (Radix.digits 128 L (0 % 128 ^ L))
    rw [if_pos (by simpa [Radix.digits] using hall), hres] at hnew₁
    obtain rfl : new = d.blockAlloc.1 :: new₁ := hnew.unique hnew₁
    have hcd := hown.data d.blockAlloc.1 (by simp)
    rw [allocateAllNeededBlocks_new hall hcd.1 hcd.2.2, Nat.zero_div, Nat.zero_mod] at hres
    subst hres
    have halloc : Allocates d.blockAlloc.2 (d.blockAlloc.2.allocateBelow x (Radix.digits 128 L 0)
        d.blockAlloc.1 0 (makeFreeDiskListBlock (d.blockAlloc.2.blocks d.blockAlloc.1))
        (d.blockAlloc.2.blocks d.blockAlloc.1)) new₁ := by
      simp only [Allocates, trace_blockAlloc] at hnew ⊢
      simpa using hnew
    obtain ⟨hgrown, -, hframe⟩ := allocateBelow_grown hpos (by omega) hx halloc
      (by simpa using hown)
    refine ⟨hgrown.newRoot rfl, fun b hb2 hb => ?_⟩
    rw [Radix.inner_zero, List.append_nil] at hframe hb
    rw [hframe b hb2 hb, blocks_blockAlloc_of_ne _ hb2]
  · have hall : ¬ ∀ i ∈ Radix.digits 128 (L + 1) m, i = 0 := fun h => hm0 (hiff.mp h)
    have hrd := hown.data r (by simp [Radix.mem_inner_root hm0])
    rw [allocateAllNeededBlocks_old hall hrd.2.2] at hres
    subst hres
    rw [Radix.inner_node hm0] at hown ⊢
    generalize hF : (List.range (m / 128 ^ L)).flatMap
      (fun i => Radix.inner 128 d.child L (d.child r i) (128 ^ L)) = F at *
    have hown' : Own d.backend (r :: new ++
        Radix.inner 128 d.child L (d.child r (m / 128 ^ L)) (m % 128 ^ L)) := by
      refine hown.mono fun b => ?_
      simp only [List.count_cons, List.count_append]
      omega
    obtain ⟨hgrown, hother, hframe⟩ := allocateBelow_grown (Nat.mod_lt _ hpos) hq hx hnew hown'
    refine ⟨?_, fun b hb2 hb => hframe b hb2 fun hmem => hb ?_⟩
    · refine hgrown.node (by omega) hm0 rfl (fun i hi' => hother i (by omega) (by omega))
        fun i hi' b hb => ?_
      have hbF : b ∈ F := hF ▸ List.mem_flatMap.mpr ⟨i, List.mem_range.mpr hi', hb⟩
      refine child_congr (hframe b (hown.data b (by simp [hbF])).2.1 fun hmem => ?_)
      have h1 := List.nodup_iff_count_le_one.mp hown.nodup b
      have h2 := List.count_pos_iff.mpr hmem
      have h3 := List.count_pos_iff.mpr hbF
      simp only [List.count_cons, List.count_append] at h1 h2
      omega
    · simp only [List.mem_cons, List.mem_append, List.cons_append] at hmem ⊢
      tauto

/-- The blocks on the way down come from the head of the free list. -/
theorem allocateAllNeededBlocks_freeBlocks {l : List Nat} {res : Nat × Disk}
    (hcap : 2 < d.backend.capacity) (hm : m < 128 ^ (L + 1))
    (hres : d.allocateAllNeededBlocks r x (m / 128 ^ L) (Radix.digits 128 L (m % 128 ^ L)) = res)
    (hfree : FreeBlocks d l)
    (hown : Own d.backend (l ++ Radix.inner 128 d.child (L + 1) r m))
    (hlen : Radix.newInner 128 (L + 1) m ≤ l.length) :
    Allocates d res.2 (l.take (Radix.newInner 128 (L + 1) m)) ∧
      FreeBlocks res.2 (l.drop (Radix.newInner 128 (L + 1) m)) := by
  have hpos : 0 < 128 ^ L := Nat.pow_pos (by omega)
  have hq : m / 128 ^ L < 128 := Nat.div_lt_of_lt_mul (by rwa [← Nat.pow_succ])
  have hiff := Radix.digits_eq_zero (L := L + 1) (by omega) hm
  by_cases hm0 : m = 0
  · have hall := hiff.mpr hm0
    subst hm0
    rw [Radix.newInner_zero] at hlen ⊢
    obtain ⟨c, l, rfl⟩ : ∃ c l', l = c :: l' := List.exists_cons_of_length_pos (by omega)
    have h2l : 2 ∉ c :: l := fun h => (hown.data 2 (List.mem_append_left _ h)).2.1 rfl
    obtain ⟨hc, hfree₁⟩ := blockAlloc_cons hcap hfree h2l
    have hcd := hown.data c (by simp)
    rw [allocateAllNeededBlocks_new hall (hc ▸ hcd.1) (hc ▸ hcd.2.2), Nat.zero_div, Nat.zero_mod,
      hc] at hres
    subst hres
    obtain ⟨h1, h2⟩ := allocateBelow_freeBlocks (x := x) (p := c) (i := 0) (m := 0)
      (e := d.blockAlloc.2.blocks c) (by simpa using hcap) hpos (by omega) hfree₁
      (by simpa using hown) (by simpa using hlen)
    rw [Radix.newInner_zero] at h1 h2
    have hone : Allocates d d.blockAlloc.2 [c] := by simp [Allocates, hc]
    exact ⟨hone.trans h1, h2⟩
  · have hall : ¬ ∀ i ∈ Radix.digits 128 (L + 1) m, i = 0 := fun h => hm0 (hiff.mp h)
    have hrd := hown.data r (by simp [Radix.mem_inner_root hm0])
    rw [allocateAllNeededBlocks_old hall hrd.2.2] at hres
    subst hres
    rw [Radix.newInner, if_neg hm0] at hlen ⊢
    rw [Radix.inner_node hm0] at hown
    refine allocateBelow_freeBlocks hcap (Nat.mod_lt _ hpos) hq hfree ?_ hlen
    refine hown.mono fun b => ?_
    simp only [List.count_cons, List.count_append]
    omega

end Root

/-! ## The blocks of a file -/

section File

/-- The indirect blocks of the tree of level `L` in a file of `n` blocks. -/
def treePart (d : Disk) (nums : Buffer Nat blocksInInode) (n L : Nat) : List Nat :=
  Radix.inner 128 d.child L (nums.peek (9 + L)) (min (n - treeBase L) (128 ^ L))

/-- The indirect blocks that the indices below `n` need. -/
def indirectBlocks (d : Disk) (nums : Buffer Nat blocksInInode) (n : Nat) : List Nat :=
  d.treePart nums n 1 ++ d.treePart nums n 2 ++ d.treePart nums n 3

/-- The data block with index `q`. -/
def fileBlock (d : Disk) (nums : Buffer Nat blocksInInode) (q : Nat) : Nat :=
  if treeLevel q = 0 then nums.peek q
  else Radix.leaf 128 d.child (treeLevel q) (nums.peek (9 + treeLevel q))
    (q - treeBase (treeLevel q))

/-- All blocks of a file with `n` data blocks. -/
def fileBlocks (d : Disk) (nums : Buffer Nat blocksInInode) (n : Nat) : List Nat :=
  (List.range n).map (d.fileBlock nums) ++ d.indirectBlocks nums n

variable {d d' : Disk} {nums nums' : Buffer Nat blocksInInode} {n : Nat}

/-- An indirect block is one of the three trees. -/
theorem mem_indirectBlocks {b : Nat} :
    b ∈ d.indirectBlocks nums n ↔ ∃ L, (L = 1 ∨ L = 2 ∨ L = 3) ∧ b ∈ d.treePart nums n L := by
  simp only [indirectBlocks, List.mem_append]
  constructor
  · rintro ((h | h) | h)
    exacts [⟨1, by simp, h⟩, ⟨2, by simp, h⟩, ⟨3, by simp, h⟩]
  · rintro ⟨L, rfl | rfl | rfl, h⟩
    exacts [.inl (.inl h), .inl (.inr h), .inr h]

/-- The tree an index belongs to has the leaf if the file has the block. -/
theorem lt_treePart {k : Nat} (hk : k < n) (hn : n ≤ maxBlocks) (h : treeLevel k ≠ 0) :
    k - treeBase (treeLevel k) < min (n - treeBase (treeLevel k)) (128 ^ treeLevel k) := by
  have := treeBase_le (q := k) (by omega) h
  omega

/-- A file depends on its entries in the inode and on its indirect blocks. -/
theorem treePart_congr {L : Nat} (he : nums'.peek (9 + L) = nums.peek (9 + L))
    (h : ∀ b ∈ d.treePart nums n L, d'.blocks b = d.blocks b) :
    d'.treePart nums' n L = d.treePart nums n L := by
  unfold treePart at *
  rw [he]
  exact Radix.inner_congr fun b hb => child_congr (h b hb)

/-- A block of the file is found from the tree of its level alone. -/
theorem fileBlock_congr {k : Nat} (hk : k < n) (hn : n ≤ maxBlocks)
    (he : nums'.peek (9 + treeLevel k) = nums.peek (9 + treeLevel k))
    (h : ∀ b ∈ d.treePart nums n (treeLevel k), d'.blocks b = d.blocks b)
    (hlvl : treeLevel k ≠ 0) : d'.fileBlock nums' k = d.fileBlock nums k := by
  rw [fileBlock, fileBlock, if_neg hlvl, if_neg hlvl, he]
  exact Radix.leaf_congr (by omega) (lt_treePart hk hn hlvl) (Nat.min_le_right _ _)
    fun b hb => child_congr (h b hb)

/-- The indirect blocks are found from their own contents. -/
theorem indirectBlocks_frame (h : ∀ b ∈ d.indirectBlocks nums n, d'.blocks b = d.blocks b) :
    d'.indirectBlocks nums n = d.indirectBlocks nums n := by
  have hp : ∀ L, (L = 1 ∨ L = 2 ∨ L = 3) → d'.treePart nums n L = d.treePart nums n L :=
    fun L hL => treePart_congr rfl fun b hb => h b (mem_indirectBlocks.mpr ⟨L, hL, hb⟩)
  rw [indirectBlocks, indirectBlocks, hp 1 (by simp), hp 2 (by simp), hp 3 (by simp)]

/-- There are three levels of indirect blocks. -/
theorem treeLevel_mem {k : Nat} (h : treeLevel k ≠ 0) :
    treeLevel k = 1 ∨ treeLevel k = 2 ∨ treeLevel k = 3 := by
  have := treeLevel_le k
  omega

/-- A block of the file is found from the indirect blocks. -/
theorem fileBlock_frame {k : Nat} (hk : k < n) (hn : n ≤ maxBlocks)
    (h : ∀ b ∈ d.indirectBlocks nums n, d'.blocks b = d.blocks b) :
    d'.fileBlock nums k = d.fileBlock nums k := by
  by_cases hlvl : treeLevel k = 0
  · rw [fileBlock, fileBlock, if_pos hlvl, if_pos hlvl]
  · exact fileBlock_congr hk hn rfl
      (fun b hb => h b (mem_indirectBlocks.mpr ⟨_, treeLevel_mem hlvl, hb⟩)) hlvl

/-- So are all of them together. -/
theorem fileBlocks_frame (hn : n ≤ maxBlocks)
    (h : ∀ b ∈ d.indirectBlocks nums n, d'.blocks b = d.blocks b) :
    d'.fileBlocks nums n = d.fileBlocks nums n := by
  rw [fileBlocks, fileBlocks, indirectBlocks_frame h]
  congr 1
  exact List.map_congr_left fun k hk => fileBlock_frame (List.mem_range.mp hk) hn h

/-- Ten blocks need no indirect block. -/
theorem indirectBlocks_direct (d : Disk) (nums : Buffer Nat blocksInInode) (hn : n ≤ 10) :
    d.indirectBlocks nums n = [] := by
  have htree : ∀ L, 10 ≤ treeBase L → d.treePart nums n L = [] := by
    intro L hL
    rw [treePart, show n - treeBase L = 0 by omega, Nat.zero_min, Radix.inner_zero]
  rw [indirectBlocks, htree 1 (by simp [treeBase]), htree 2 (by simp [treeBase]),
    htree 3 (by simp [treeBase])]
  rfl

/-- An empty file has no block. -/
theorem fileBlocks_zero (d : Disk) (nums : Buffer Nat blocksInInode) : d.fileBlocks nums 0 = [] := by
  simp [fileBlocks, indirectBlocks, treePart]

/-- `lookupBlock` finds the block. -/
theorem lookupBlock_eq {x : InCoreINode} (offset : Nat) (hk : offset / 1024 < n)
    (hn : n ≤ maxBlocks)
    (hcap : ∀ b ∈ d.indirectBlocks x.dataBlockNums n, b < d.backend.capacity) :
    d.lookupBlock x offset = .ok (d.fileBlock x.dataBlockNums (offset / 1024)) := by
  obtain ⟨o, ho, hlvl, hdirect, hbelow⟩ := calculateOffset_eq (show offset / 1024 < maxBlocks by omega)
  simp only [lookupBlock, ho]
  by_cases h0 : treeLevel (offset / 1024) = 0
  · have hdir : o.offsetIndirection = .direct := by
      cases ho' : o.offsetIndirection <;> simp_all [IndirectionLevel.toNat]
    rw [if_pos hdir, hdirect h0, fileBlock, if_pos h0]
    rfl
  · have hdir : o.offsetIndirection ≠ .direct := by
      intro hcon
      rw [hcon] at hlvl
      exact h0 hlvl.symm
    rw [if_neg hdir, hbelow h0, fileBlock, if_neg h0, hlvl]
    rw [processAndGetDiskBlock_eq (lt_treePart hk hn h0) (Nat.min_le_right _ _)]
    exact fun b hb => hcap b (mem_indirectBlocks.mpr ⟨_, treeLevel_mem h0, hb⟩)

end File

attribute [irreducible] treePart indirectBlocks fileBlock fileBlocks

end Disk

end Naofs
