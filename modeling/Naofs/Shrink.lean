import Naofs.Conservation
import Naofs.Laws

/-!
# Naofs.Shrink

Making a file shorter with `truncateINode`.

`decreaseFileSizeBy` removes the blocks from the last one on.  The position in the
tree from which `freeDataBlockInINode` decides about the indirect blocks is that of
the old size, which is the removed block only if the size lies inside it.  On a block
boundary it is the block behind, so that the indirect blocks go one round late: those
of the first round never existed or were freed before, and those of the last one are
never freed.  `shrinkLaw_of_clean` says for which sizes that makes no difference.
-/

namespace Naofs

namespace Disk

open FS (freed)
open InCoreINode (wrapSize toCInt)

/-! ## The indirect blocks of a position -/

section Position

variable {d d' : Disk} {nums : Buffer Nat blocksInInode} {q : Nat}

/-- The indirect blocks that index `q` needs and the indices before it do not. -/
def freshIndirect (d : Disk) (nums : Buffer Nat blocksInInode) (q : Nat) : List Nat :=
  if treeLevel q = 0 then []
  else Radix.fresh 128 d.child (treeLevel q) (nums.peek (9 + treeLevel q))
    (q - treeBase (treeLevel q))

/-- As many indirect blocks are fresh as an append takes. -/
theorem length_freshIndirect : (d.freshIndirect nums q).length = newIndirect q := by
  unfold freshIndirect newIndirect
  split
  · rfl
  · exact Radix.length_fresh _ _ _

/-- One block more has the indirect blocks that were there, and the fresh ones. -/
theorem freshIndirect_perm (d : Disk) (nums : Buffer Nat blocksInInode) (hq : q < maxBlocks) :
    (d.freshIndirect nums q ++ d.indirectBlocks nums q).Perm (d.indirectBlocks nums (q + 1)) := by
  have hpart : ∀ L, (L = 1 ∨ L = 2 ∨ L = 3) → ∀ b, (d.treePart nums (q + 1) L).count b =
      (d.treePart nums q L).count b +
        if L = treeLevel q then (d.freshIndirect nums q).count b else 0 := by
    intro L hL b
    obtain ⟨hself, hother⟩ := treePart_size hq hL
    by_cases h : L = treeLevel q
    · rw [if_pos h, freshIndirect, if_neg (by omega), ← h, treePart, treePart, (hself h).1,
        (hself h).2, ← (Radix.fresh_perm (by omega) _ _ _).count_eq b, List.count_append]
      omega
    · rw [if_neg h, treePart, treePart, hother h, Nat.add_zero]
  rw [List.perm_iff_count]
  intro b
  have h1 := hpart 1 (by omega) b
  have h2 := hpart 2 (by omega) b
  have h3 := hpart 3 (by omega) b
  simp only [indirectBlocks, List.count_append, h1, h2, h3]
  by_cases h0 : treeLevel q = 0
  · have hnil : d.freshIndirect nums q = [] := by rw [freshIndirect, if_pos h0]
    simp [h0, hnil]
  · rcases treeLevel_mem h0 with h | h | h <;> simp [h] <;> omega

/-- The fresh indirect blocks are read from the indirect blocks alone. -/
theorem freshIndirect_frame (hq : q < maxBlocks)
    (h : ∀ b ∈ d.indirectBlocks nums (q + 1), d'.blocks b = d.blocks b) :
    d'.freshIndirect nums q = d.freshIndirect nums q := by
  by_cases h0 : treeLevel q = 0
  · rw [freshIndirect, freshIndirect, if_pos h0, if_pos h0]
  · rw [freshIndirect, freshIndirect, if_neg h0, if_neg h0]
    refine Radix.fresh_congr (by omega) fun b hb => child_congr (h b ?_)
    refine mem_indirectBlocks.mpr ⟨_, treeLevel_mem h0, ?_⟩
    rwa [treePart, ((treePart_size hq (treeLevel_mem h0)).1 rfl).2]

/-- One more block: a data block and its indirect blocks. -/
theorem fileBlocks_succ (d : Disk) (nums : Buffer Nat blocksInInode) (hq : q < maxBlocks) :
    (d.fileBlock nums q :: d.freshIndirect nums q ++ d.fileBlocks nums q).Perm
      (d.fileBlocks nums (q + 1)) := by
  have h := fun b => (freshIndirect_perm d nums hq).count_eq b
  rw [List.perm_iff_count]
  intro b
  simp only [fileBlocks, List.range_succ, List.map_append, List.map_singleton, List.count_append,
    List.cons_append, List.count_cons, List.count_nil, ← h b]
  omega

end Position

/-! ## What `freeDataBlockInINode` frees -/

section Release

variable {d d' : Disk} {L k r : Nat}

/-- An indirect block has no use any more exactly if its first block goes. -/
theorem freeNeeded_digits (hk : k < 128 ^ L) : freeNeeded (Radix.digits 128 L k) = true ↔ k = 0 := by
  rw [← Radix.digits_eq_zero (by omega) hk]
  simp [freeNeeded]

/-- The walk from the root, if the blocks on the way are stored. -/
theorem blocksToBeFreed_eq (hk : k < 128 ^ L)
    (hcap : ∀ b ∈ Radix.inner 128 d.child L r (k + 1), b < d.backend.capacity) (buf : DiskBlock) :
    d.blocksToBeFreed (Radix.digits 128 L k) r buf = Radix.fresh 128 d.child L r k := by
  induction L generalizing r k buf with
  | zero => rfl
  | succ L ih =>
      rw [Radix.inner_succ (by omega)] at hcap
      have hload : d.load r buf = d.blocks r := d.load_of_lt (hcap r List.mem_cons_self) buf
      have hneeded := freeNeeded_digits hk
      rw [Radix.digits] at hneeded ⊢
      rw [blocksToBeFreed, Radix.fresh]
      rw [hload, peek_makeFreeDiskListBlock, ← child, ih (Nat.mod_lt _ (Nat.pow_pos (by omega)))
        fun b hb => hcap b (List.mem_cons_of_mem _ (List.mem_append_right _ hb))]
      by_cases h0 : k = 0
      · rw [if_pos (hneeded.mpr h0), if_pos h0]
        rfl
      · rw [if_neg (fun h => h0 (hneeded.mp h)), if_neg h0]
        rfl

/-- Whatever the blocks hold, the number of blocks is that of the position. -/
theorem length_blocksToBeFreed (hk : k < 128 ^ L) (buf : DiskBlock) :
    (d.blocksToBeFreed (Radix.digits 128 L k) r buf).length = Radix.newInner 128 L k := by
  induction L generalizing r k buf with
  | zero => rfl
  | succ L ih =>
      have hneeded := freeNeeded_digits hk
      rw [Radix.digits] at hneeded ⊢
      rw [blocksToBeFreed, Radix.newInner]
      by_cases h0 : k = 0
      · rw [if_pos (hneeded.mpr h0), if_pos h0, List.length_cons,
          ih (Nat.mod_lt _ (Nat.pow_pos (by omega))), h0, Nat.zero_mod, Radix.newInner_zero]
      · rw [if_neg (fun h => h0 (hneeded.mp h)), if_neg h0,
          ih (Nat.mod_lt _ (Nat.pow_pos (by omega)))]

/-- The first of them hangs in a block that the earlier leaves need too. -/
theorem head_blocksToBeFreed (hk : k < 128 ^ L)
    (hsame : ∀ b ∈ Radix.inner 128 d.child L r k,
      d'.blocks b = d.blocks b ∧ b < d'.backend.capacity) (buf : DiskBlock) :
    (d'.blocksToBeFreed (Radix.digits 128 L k) r buf).head? =
      (Radix.fresh 128 d.child L r k).head? := by
  induction L generalizing r k buf with
  | zero => rfl
  | succ L ih =>
      have hneeded := freeNeeded_digits hk
      rw [Radix.digits] at hneeded ⊢
      rw [blocksToBeFreed, Radix.fresh]
      by_cases h0 : k = 0
      · rw [if_pos (hneeded.mpr h0), if_pos h0]
        rfl
      · rw [if_neg (fun h => h0 (hneeded.mp h)), if_neg h0, List.nil_append]
        rw [Radix.inner_node h0] at hsame
        obtain ⟨hroot, hcap⟩ := hsame r List.mem_cons_self
        rw [d'.load_of_lt hcap, peek_makeFreeDiskListBlock, hroot]
        exact ih (Nat.mod_lt _ (Nat.pow_pos (by omega)))
          (fun b hb => hsame b (List.mem_cons_of_mem _ (List.mem_append_right _ hb))) _

end Release

/-- `Drops d d' l`: on the way from `d` to `d'` the blocks `l` were freed in this order,
and no other block was written but the free list. -/
structure Drops (d d' : Disk) (l : List Nat) : Prop where
  backend : d'.backend = d.backend
  trace : ∃ events, d'.trace = d.trace ++ events ∧ freed events = l
  frame : ∀ b, b ≠ 2 → b ∉ l → d'.blocks b = d.blocks b

section Drops

variable {d d' d'' : Disk} {l l' : List Nat}

theorem Drops.refl (d : Disk) : Drops d d [] :=
  ⟨rfl, ⟨[], by simp, rfl⟩, fun _ _ _ => rfl⟩

/-- A note in the trace drops nothing. -/
theorem Drops.log (d : Disk) (size : Nat) : Drops d (d.log (.release size)) [] :=
  ⟨rfl, ⟨[.release size], rfl, rfl⟩, fun _ _ _ => rfl⟩

/-- First some blocks are dropped, and then others. -/
theorem Drops.trans (h : Drops d d' l) (h' : Drops d' d'' l') : Drops d d'' (l ++ l') where
  backend := h'.backend.trans h.backend
  trace := by
    obtain ⟨e, ht, he⟩ := h.trace
    obtain ⟨e', ht', he'⟩ := h'.trace
    refine ⟨e ++ e', by rw [ht', ht, List.append_assoc], ?_⟩
    rw [← he, ← he']
    exact List.filterMap_append
  frame := fun b hb2 hb => by
    simp only [List.mem_append, not_or] at hb
    rw [h'.frame b hb2 hb.2, h.frame b hb2 hb.1]

theorem Drops.blockFree (d : Disk) (b : Nat) : Drops d (d.blockFree b) [b] :=
  ⟨by simp, ⟨[.free b (decide (d.Reusable b))], by simp, rfl⟩, fun c hc2 hcb =>
    d.blocks_blockFree_of_ne hc2 (by simpa using hcb)⟩

/-- Blocks are dropped one after the other. -/
theorem Drops.foldl (d : Disk) (l : List Nat) : Drops d (l.foldl Disk.blockFree d) l := by
  induction l generalizing d with
  | nil => exact .refl d
  | cons b l ih => exact (Drops.blockFree d b).trans (ih _)

/-- The blocks freed are those of the trace. -/
theorem Drops.unique (h : Drops d d' l) (h' : Drops d d' l') : l = l' := by
  obtain ⟨e, ht, he⟩ := h.trace
  obtain ⟨e', ht', he'⟩ := h'.trace
  rw [ht', List.append_cancel_left_eq] at ht
  rw [← he, ← he', ht]

end Drops

section FreeData

variable {d d' : Disk} {x : InCoreINode} {nums : Buffer Nat blocksInInode} {q : Nat}

/-- The indirect blocks that are freed for position `q`. -/
def released (d : Disk) (nums : Buffer Nat blocksInInode) (q : Nat) : List Nat :=
  if treeLevel q = 0 then []
  else d.blocksToBeFreed (Radix.digits 128 (treeLevel q) (q - treeBase (treeLevel q)))
    (nums.peek (9 + treeLevel q)) d.backend.junk

/-- An index lies in the tree of its level. -/
theorem sub_treeBase_lt (hq : q < maxBlocks) (h0 : treeLevel q ≠ 0) :
    q - treeBase (treeLevel q) < 128 ^ treeLevel q :=
  Nat.lt_of_lt_of_le (lt_treePart (Nat.lt_succ_self q) hq h0) (Nat.min_le_right _ _)

/-- As many indirect blocks are released as an append had taken. -/
theorem length_released (hq : q < maxBlocks) : (d.released nums q).length = newIndirect q := by
  unfold released newIndirect
  split
  · rfl
  · next h0 => exact length_blocksToBeFreed (sub_treeBase_lt hq h0) _

/-- What is released is what was fresh when the block was appended. -/
theorem released_eq (hq : q < maxBlocks)
    (hcap : ∀ b ∈ d.indirectBlocks nums (q + 1), b < d.backend.capacity) :
    d.released nums q = d.freshIndirect nums q := by
  unfold released freshIndirect
  split
  · rfl
  · next h0 =>
      refine blocksToBeFreed_eq (sub_treeBase_lt hq h0) (fun b hb => hcap b ?_) _
      refine mem_indirectBlocks.mpr ⟨_, treeLevel_mem h0, ?_⟩
      rwa [treePart, ((treePart_size hq (treeLevel_mem h0)).1 rfl).2]

/-- The first block that is released is read before anything is freed. -/
theorem head_released (nums : Buffer Nat blocksInInode) (hq : q < maxBlocks)
    (hsame : ∀ b ∈ d.indirectBlocks nums q, d'.blocks b = d.blocks b ∧ b < d'.backend.capacity) :
    (d'.released nums q).head? = (d.freshIndirect nums q).head? := by
  unfold released freshIndirect
  split
  · rfl
  · next h0 =>
      refine head_blocksToBeFreed (sub_treeBase_lt hq h0) (fun b hb => hsame b ?_) _
      refine mem_indirectBlocks.mpr ⟨_, treeLevel_mem h0, ?_⟩
      rwa [treePart, ((treePart_size hq (treeLevel_mem h0)).1 rfl).1]

/-- The data block is freed first, and then the indirect blocks that are released. -/
theorem freeDataBlockInINode_eq (hq : x.size / 1024 < maxBlocks) (blk : Nat) :
    ∃ d', d.freeDataBlockInINode x blk = .ok d' ∧
      Drops d d' (blk :: ((d.log (.release x.size)).blockFree blk).released x.dataBlockNums
        (x.size / 1024)) := by
  obtain ⟨o, ho, hlvl, -, hbelow⟩ := calculateOffset_eq hq
  obtain ⟨d₁, hd₁⟩ : ∃ d₁, d₁ = (d.log (.release x.size)).blockFree blk := ⟨_, rfl⟩
  have hfirst : Drops d d₁ [blk] := hd₁ ▸ (Drops.log d x.size).trans (Drops.blockFree _ _)
  rw [← hd₁]
  simp only [freeDataBlockInINode, ho, freeNeededBlocks, ← hd₁, released]
  by_cases h0 : treeLevel (x.size / 1024) = 0
  · have hdir : o.offsetIndirection = .direct := by
      cases ho' : o.offsetIndirection <;> simp_all [IndirectionLevel.toNat]
    rw [if_pos hdir, if_pos h0]
    exact ⟨d₁, rfl, hfirst⟩
  · have hdir : o.offsetIndirection ≠ .direct := by
      intro hcon
      rw [hcon] at hlvl
      exact h0 hlvl.symm
    rw [if_neg hdir, if_neg h0, hlvl, hbelow h0]
    exact ⟨_, rfl, hfirst.trans (Drops.foldl d₁ _)⟩

end FreeData

/-! ## The rounds -/

section Rounds

variable {d : Disk} {x : InCoreINode} {size bw : Nat}

/-- The size goes down by the bytes of the round. -/
theorem size_shrink (now : UInt64) {c : Nat} (hc : c ≤ x.size) (hc' : c ≤ 1024)
    (hmax : x.size ≤ maxFileSize) :
    (x.updateINodeMetadata now (toCInt (wrapSize (-(c : Nat)))) x.linksCount).size = x.size - c := by
  simp only [maxFileSize] at hmax
  simp only [InCoreINode.updateINodeMetadata]
  rw [InCoreINode.toCInt_wrapSize (by omega) (by omega),
    InCoreINode.wrapSize_of_lt (by omega) (by omega)]
  omega

/-- What `bmap` finds at the last byte, whatever the disk holds. -/
theorem bmap_last (resp : BmapResponse) (h0 : 0 < x.size) (hmax : x.size ≤ maxFileSize) :
    ∃ blk, d.lookupBlock x (x.size - 1) = .ok blk ∧ d.bmap x (x.size - 1) resp .read =
      .ok (0, createBMapResponse blk ((x.size - 1) % 1024), x, d) := by
  simp only [maxFileSize] at hmax
  have hq : (x.size - 1) / 1024 < maxBlocks := by
    simp only [maxBlocks]
    omega
  obtain ⟨blk, hblk⟩ := lookupBlock_ok d x hq
  refine ⟨blk, hblk, ?_⟩
  rw [bmap, if_neg (by omega), if_neg (by simp), hblk]
  rfl

/-- A round that removes the last block. -/
theorem decreaseLoop_free (d : Disk) (now : UInt64) (size bw : Nat) (resp : BmapResponse)
    (h0 : 0 < x.size) (hmax : x.size ≤ maxFileSize) (hq : x.size / 1024 < maxBlocks)
    (hc : (x.size - 1) % 1024 + 1 ≤ size - bw) :
    ∃ blk d₁ y resp' offset, d.lookupBlock x (x.size - 1) = .ok blk ∧
      (∀ fuel, decreaseLoop now size (fuel + 1) x d (x.size - 1) bw resp =
        decreaseLoop now size fuel y d₁ offset (bw + ((x.size - 1) % 1024 + 1)) resp') ∧
      y.size = 1024 * ((x.size - 1) / 1024) ∧ y.dataBlockNums = x.dataBlockNums ∧
      (0 < y.size → offset = y.size - 1) ∧
      Drops d d₁ (blk :: ((d.log (.release x.size)).blockFree blk).released x.dataBlockNums
        (x.size / 1024)) := by
  obtain ⟨blk, hblk, hbmap⟩ := bmap_last (d := d) resp h0 hmax
  obtain ⟨d₁, hrun, hdrops⟩ := freeDataBlockInINode_eq (d := d) hq blk
  obtain ⟨c, hcdef⟩ : ∃ c, c = (x.size - 1) % 1024 + 1 := ⟨_, rfl⟩
  have hsz := size_shrink now (x := x) (c := c) (by omega) (by omega) hmax
  rw [← hcdef] at hc ⊢
  refine ⟨blk, d₁, x.updateINodeMetadata now (toCInt (wrapSize (-(c : Nat)))) x.linksCount,
    createBMapResponse blk ((x.size - 1) % 1024), wrapSize (((x.size - 1 : Nat) : Int) - (c : Nat)),
    hblk, fun fuel => ?_, by omega, InCoreINode.dataBlockNums_updateINodeMetadata _ _ _ _,
    fun hpos => ?_, hdrops⟩
  · simp only [decreaseLoop, hbmap, bind, Except.bind, createBMapResponse, ← hcdef, hrun]
    rw [if_pos (by omega), if_neg (by omega)]
  · simp only [maxFileSize] at hmax
    rw [InCoreINode.wrapSize_of_lt (by omega) (by omega)]
    omega

/-- The last round, inside the last block that stays. -/
theorem decreaseLoop_end (d : Disk) (now : UInt64) (size bw fuel : Nat) (resp : BmapResponse)
    {offset : Nat} (hoff : 0 < x.size → offset = x.size - 1) (hmax : x.size ≤ maxFileSize) (hbw : bw ≤ size)
    (hc : size - bw = 0 ∨ size - bw ≤ (x.size - 1) % 1024 ∧ 0 < x.size) :
    ∃ y, decreaseLoop now size (fuel + 1) x d offset bw resp = .ok (y, d) ∧
      y.size = x.size - (size - bw) ∧ y.dataBlockNums = x.dataBlockNums := by
  by_cases hdone : bw < size
  · have h0 : 0 < x.size := by omega
    obtain ⟨blk, -, hbmap⟩ := bmap_last (d := d) resp h0 hmax
    rw [hoff h0]
    refine ⟨x.updateINodeMetadata now (toCInt (wrapSize (-(size - bw : Nat)))) x.linksCount, ?_,
      size_shrink now (by omega) (by omega) hmax,
      InCoreINode.dataBlockNums_updateINodeMetadata _ _ _ _⟩
    simp only [decreaseLoop, hbmap, bind, Except.bind, createBMapResponse]
    rw [if_pos hdone, if_pos (by omega)]
  · exact ⟨x, by rw [decreaseLoop, if_neg hdone], by omega, rfl⟩

end Rounds

/-! ## Counting -/

/-- The number of blocks of a file with `n` data blocks. -/
def blockTotal : Nat → Nat
  | 0 => 0
  | n + 1 => blockTotal n + 1 + newIndirect n

/-- A file has its data blocks and the indirect blocks above them. -/
theorem length_fileBlocks (d : Disk) (nums : Buffer Nat blocksInInode) {n : Nat}
    (hn : n ≤ maxBlocks) : (d.fileBlocks nums n).length = blockTotal n := by
  induction n with
  | zero => rw [fileBlocks_zero]; rfl
  | succ n ih =>
      have h := (fileBlocks_succ d nums (show n < maxBlocks from hn)).length_eq
      rw [← h, blockTotal, List.length_append, List.length_cons, ih (by omega),
        length_freshIndirect]
      omega

/-- From a block boundary on, the number of blocks freed depends on the sizes only.
The indirect blocks are those of the positions one further. -/
theorem decreaseLoop_count (now : UInt64) (size : Nat) : ∀ (p fuel : Nat) (x : InCoreINode) (d : Disk)
    (offset bw : Nat) (resp : BmapResponse), x.size = 1024 * p → p < maxBlocks →
    (0 < x.size → offset = x.size - 1) → bw ≤ size → size - bw ≤ x.size → size - bw < fuel →
    ∃ y d' l, decreaseLoop now size fuel x d offset bw resp = .ok (y, d') ∧ Drops d d' l ∧
      l.length + blockTotal (blockCount (x.size - (size - bw)) + 1) = blockTotal (p + 1) := by
  intro p
  induction p with
  | zero =>
      intro fuel x d offset bw resp hx hp hoff hbw hle hfuel
      obtain ⟨fuel, rfl⟩ : ∃ n, fuel = n + 1 := ⟨fuel - 1, by omega⟩
      obtain ⟨y, hrun, -⟩ := decreaseLoop_end d now size bw fuel resp hoff (by omega) hbw
        (.inl (by omega))
      refine ⟨y, d, [], hrun, .refl d, ?_⟩
      rw [hx, show 1024 * 0 - (size - bw) = 0 by omega]
      rfl
  | succ p ih =>
      intro fuel x d offset bw resp hx hp hoff hbw hle hfuel
      obtain ⟨fuel, rfl⟩ : ∃ n, fuel = n + 1 := ⟨fuel - 1, by omega⟩
      have hmax : x.size ≤ maxFileSize := by
        simp only [maxFileSize, maxBlocks] at hp ⊢
        omega
      by_cases hc : 1024 ≤ size - bw
      · obtain ⟨blk, d₁, y, resp', offset', -, hstep, hys, -, hoff', hdrops⟩ := decreaseLoop_free
          d now size bw resp (by omega) hmax (by omega) (by omega)
        rw [show (x.size - 1) % 1024 + 1 = 1024 by omega] at hstep
        obtain ⟨z, d', l, hrun, hdrops', hcount⟩ := ih fuel y d₁ offset' (bw + 1024) resp' (by omega)
          (by omega) hoff' (by omega) (by omega) (by omega)
        refine ⟨z, d', _, ?_, hdrops.trans hdrops', ?_⟩
        · rw [hoff (by omega), hstep, hrun]
        · have htotal : blockTotal (p + 1 + 1) = blockTotal (p + 1) + 1 + newIndirect (p + 1) := rfl
          rw [show x.size - (size - bw) = y.size - (size - (bw + 1024)) by omega, List.length_append,
            List.length_cons, length_released (by omega), show x.size / 1024 = p + 1 by omega, htotal]
          omega
      · obtain ⟨y, hrun, -⟩ := decreaseLoop_end d now size bw fuel resp hoff hmax hbw
          (by omega)
        refine ⟨y, d, [], hrun, .refl d, ?_⟩
        rw [show blockCount (x.size - (size - bw)) = p + 1 by unfold blockCount; omega]
        simp

/-! ## The law for shrinking -/

section Law

variable {d : Disk} {x : InCoreINode} {nums : Buffer Nat blocksInInode}

/-- What is left when the file has been cut to `p` blocks and the indirect blocks of
position `p` are still to be freed. -/
def pending (d : Disk) (nums : Buffer Nat blocksInInode) (n p : Nat) : List Nat :=
  (List.range p).map (d.fileBlock nums) ++ d.indirectBlocks nums (min (p + 1) n)

/-- On the way from `d` to `d'` a file of `n` blocks was cut to `p`. -/
structure Cutting (d : Disk) (nums : Buffer Nat blocksInInode) (n : Nat) (d' : Disk) (l : List Nat)
    (p : Nat) : Prop where
  drops : Drops d d' l
  perm : (l ++ d.pending nums n p).Perm (d.fileBlocks nums n)

/-- Blocks that are still to be freed are as they were. -/
theorem Cutting.same {n p : Nat} {d' : Disk} {l : List Nat} (h : Cutting d nums n d' l p)
    (hown : Own d.backend (d.fileBlocks nums n)) {b : Nat} (hb : b ∈ d.pending nums n p) :
    d'.blocks b = d.blocks b ∧ b < d.backend.capacity := by
  have hown' := hown.perm h.perm
  obtain ⟨-, hb2, hcap⟩ := hown'.data b (List.mem_append_right _ hb)
  refine ⟨h.drops.frame b hb2 fun hcon => ?_, hcap⟩
  exact (List.nodup_append.mp hown'.nodup).2.2 b hcon b hb rfl

/-- A longer file has the indirect blocks of a shorter one. -/
theorem indirectBlocks_subset_succ {q b : Nat} (hq : q < maxBlocks)
    (hb : b ∈ d.indirectBlocks nums q) : b ∈ d.indirectBlocks nums (q + 1) :=
  (freshIndirect_perm d nums hq).subset (List.mem_append_right _ hb)

/-- A round on a block boundary frees the last data block and the indirect blocks of
the position behind it. -/
theorem Cutting.round {n p : Nat} {d' d₁ : Disk} {l : List Nat} {blk : Nat}
    (h : Cutting d nums n d' l (p + 1)) (hown : Own d.backend (d.fileBlocks nums n))
    (hn : n ≤ maxBlocks) (hp : p + 1 ≤ n) (hend : p + 1 = n → n < maxBlocks ∧ newIndirect n = 0)
    (hx : x.size = 1024 * (p + 1)) (hnums : x.dataBlockNums = nums)
    (hblk : d'.lookupBlock x (x.size - 1) = .ok blk)
    (hdrops : Drops d' d₁ (blk :: ((d'.log (.release x.size)).blockFree blk).released
      x.dataBlockNums (x.size / 1024))) :
    ∃ l', Cutting d nums n d₁ l' p := by
  have hback : d'.backend = d.backend := h.drops.backend
  have hlast : ∀ b ∈ d.indirectBlocks nums (p + 1), b ∈ d.pending nums n (p + 1) := by
    intro b hb
    refine List.mem_append_right _ ?_
    by_cases hpn : p + 1 = n
    · rwa [Nat.min_eq_right (by omega), ← hpn]
    · rw [Nat.min_eq_left (by omega)]
      exact indirectBlocks_subset_succ (by omega) hb
  have hsame := fun b hb => h.same hown (hlast b hb)
  -- the data block that `bmap` finds
  obtain rfl : blk = d.fileBlock nums p := by
    have hlook := lookupBlock_eq (d := d') (x := x) (n := p + 1) (x.size - 1) (by omega) (by omega)
      fun b hb => by
        rw [hnums, indirectBlocks_frame fun b hb => (hsame b hb).1] at hb
        rw [hback]
        exact (hsame b hb).2
    rw [hblk, hnums, Except.ok.injEq, show (x.size - 1) / 1024 = p by omega] at hlook
    rw [hlook]
    exact fileBlock_frame (Nat.lt_succ_self p) (by omega) fun b hb => (hsame b hb).1
  rw [hnums, show x.size / 1024 = p + 1 by omega] at hdrops
  refine ⟨_, h.drops.trans hdrops, ?_⟩
  obtain ⟨d₂, hd₂⟩ : ∃ d₂, d₂ = (d'.log (.release x.size)).blockFree (d.fileBlock nums p) := ⟨_, rfl⟩
  rw [← hd₂]
  have hcount := h.perm.count_eq
  rw [List.perm_iff_count]
  intro b
  rw [← hcount b]
  simp only [pending, List.range_succ, List.map_append, List.map_singleton, List.count_append,
    List.count_cons, List.count_nil, Nat.min_eq_left hp]
  by_cases hpn : p + 1 = n
  · -- behind the end of the file there is nothing to free
    obtain ⟨hlt, hnone⟩ := hend hpn
    have hnil : d₂.released nums (p + 1) = [] := by
      rw [← List.length_eq_zero_iff, length_released (by omega), hpn, hnone]
    rw [hnil, Nat.min_eq_right (by omega), hpn]
    simp only [List.count_nil]
    omega
  · have hkeep : ∀ b ∈ d.indirectBlocks nums (p + 1 + 1),
        d₂.blocks b = d.blocks b ∧ b < d.backend.capacity := by
      intro b hb
      have hmem : b ∈ d.pending nums n (p + 1) := by
        refine List.mem_append_right _ ?_
        rwa [Nat.min_eq_left (by omega)]
      obtain ⟨hb1, hb2⟩ := h.same hown hmem
      refine ⟨?_, hb2⟩
      have hown' := hown.perm h.perm
      have hne : b ≠ d.fileBlock nums p := by
        intro hcon
        have h1 := List.nodup_iff_count_le_one.mp hown'.nodup b
        have h2 := List.count_pos_iff.mpr hb
        rw [List.count_append, pending, List.count_append, Nat.min_eq_left (by omega),
          List.range_succ, List.map_append, List.map_singleton, List.count_append, ← hcon,
          List.count_singleton_self] at h1
        omega
      rw [hd₂, blocks_blockFree_of_ne _ (hown'.data b (List.mem_append_right _ hmem)).2.1 hne]
      exact hb1
    have hfresh : d₂.released nums (p + 1) = d.freshIndirect nums (p + 1) := by
      rw [released_eq (by omega), freshIndirect_frame (by omega) fun b hb => (hkeep b hb).1]
      intro b hb
      rw [indirectBlocks_frame fun b hb => (hkeep b hb).1] at hb
      rw [hd₂, backend_blockFree]
      exact hback ▸ (hkeep b hb).2
    have hperm := (freshIndirect_perm d nums
      (show p + 1 < maxBlocks by omega)).count_eq b
    rw [hfresh, Nat.min_eq_left (by omega), ← hperm, List.count_append]
    omega

/-- The rounds from a block boundary on. -/
theorem decreaseLoop_cutting (now : UInt64) (size : Nat) {n : Nat}
    (hown : Own d.backend (d.fileBlocks nums n)) (hn : n ≤ maxBlocks) :
    ∀ (p fuel : Nat) (x : InCoreINode) (d' : Disk) (offset bw : Nat) (resp : BmapResponse)
      (l : List Nat), Cutting d nums n d' l p → p ≤ n →
    (p = n → n < maxBlocks ∧ newIndirect n = 0) → x.size = 1024 * p → x.dataBlockNums = nums →
    (0 < x.size → offset = x.size - 1) → bw ≤ size → size - bw ≤ x.size → size - bw < fuel →
    ∃ y d'' l', decreaseLoop now size fuel x d' offset bw resp = .ok (y, d'') ∧
      y.size = x.size - (size - bw) ∧ y.dataBlockNums = nums ∧
      Cutting d nums n d'' l' (blockCount (x.size - (size - bw))) := by
  intro p
  induction p with
  | zero =>
      intro fuel x d' offset bw resp l hcut hp hend hx hnums hoff hbw hle hfuel
      obtain ⟨fuel, rfl⟩ : ∃ n, fuel = n + 1 := ⟨fuel - 1, by omega⟩
      obtain ⟨y, hrun, hy, hynums⟩ := decreaseLoop_end d' now size bw fuel resp hoff (by omega)
        hbw (.inl (by omega))
      refine ⟨y, d', l, hrun, hy, hynums.trans hnums, ?_⟩
      rwa [hx, show 1024 * 0 - (size - bw) = 0 by omega]
  | succ p ih =>
      intro fuel x d' offset bw resp l hcut hp hend hx hnums hoff hbw hle hfuel
      obtain ⟨fuel, rfl⟩ : ∃ n, fuel = n + 1 := ⟨fuel - 1, by omega⟩
      have hlt : p + 1 < maxBlocks := by
        by_cases hpn : p + 1 = n
        · exact hpn ▸ (hend hpn).1
        · omega
      have hmax : x.size ≤ maxFileSize := by
        simp only [maxFileSize, maxBlocks] at hlt ⊢
        omega
      by_cases hc : 1024 ≤ size - bw
      · obtain ⟨blk, d₁, y, resp', offset', hblk, hstep, hys, hynums, hoff', hdrops⟩ :=
          decreaseLoop_free d' now size bw resp (by omega) hmax (by omega)
            (by omega)
        rw [show (x.size - 1) % 1024 + 1 = 1024 by omega] at hstep
        obtain ⟨l', hcut'⟩ := hcut.round hown hn hp hend hx hnums hblk hdrops
        obtain ⟨z, d'', l'', hrun, hz, hznums, hcut''⟩ := ih fuel y d₁ offset' (bw + 1024) resp' l'
          hcut' (by omega) (by omega) (by omega) (hynums.trans hnums) hoff' (by omega) (by omega)
          (by omega)
        rw [show y.size - (size - (bw + 1024)) = x.size - (size - bw) by omega] at hz hcut''
        refine ⟨z, d'', l'', ?_, hz, hznums, hcut''⟩
        rw [hoff (by omega), hstep, hrun]
      · obtain ⟨y, hrun, hy, hynums⟩ := decreaseLoop_end d' now size bw fuel resp hoff hmax
          hbw (by omega)
        refine ⟨y, d', l, hrun, hy, hynums.trans hnums, ?_⟩
        rwa [show blockCount (x.size - (size - bw)) = p + 1 by unfold blockCount; omega]

/-- Nothing is left over if no indirect block starts at the new end. -/
theorem Cutting.finish {n m : Nat} {d' : Disk} {l : List Nat} (h : Cutting d nums n d' l m)
    (hn : n ≤ maxBlocks) (hm : m < n) (hnone : newIndirect m = 0) :
    (l ++ d.fileBlocks nums m).Perm (d.fileBlocks nums n) := by
  have hnil : d.freshIndirect nums m = [] := by
    rw [← List.length_eq_zero_iff, length_freshIndirect, hnone]
  have hperm := freshIndirect_perm d nums (show m < maxBlocks by omega)
  rw [hnil, List.nil_append] at hperm
  refine List.Perm.trans ?_ h.perm
  rw [fileBlocks, pending, Nat.min_eq_left hm]
  exact (hperm.append_left _).append_left _

/-- What `truncateINode` to a smaller size should do: the bytes that stay are the same,
and the blocks freed are, each once, those that the shorter file does not need. -/
def ShrinkLaw (d : Disk) (env : Env) (x : InCoreINode) (size : Nat) : Prop :=
  ∃ y d' events, d.truncateINode env x size = .ok (y, d') ∧ y.size = size ∧
    (∀ i < size, d'.readByte y i = d.readByte x i) ∧ d'.trace = d.trace ++ events ∧
    (freed events ++ d.fileBlocks x.dataBlockNums (blockCount size)).Perm
      (d.fileBlocks x.dataBlockNums (blockCount x.size)) ∧
    (size = 0 → ∃ z d'' events', d.inodeBlocksFree x = .ok (z, d'') ∧
      d''.trace = d.trace ++ events' ∧ (freed events).Perm (freed events'))

/-- The bytes follow from the blocks. -/
theorem shrinkLaw_of_drops {env : Env} {size : Nat} (h : WellFormed d x) (hlt : size < x.size)
    {y : InCoreINode} {d' : Disk} {l : List Nat} (hrun : d.truncateINode env x size = .ok (y, d'))
    (hy : y.size = size) (hnums : y.dataBlockNums = x.dataBlockNums) (hdrops : Drops d d' l)
    (hperm : (l ++ d.fileBlocks x.dataBlockNums (blockCount size)).Perm
      (d.fileBlocks x.dataBlockNums (blockCount x.size))) : ShrinkLaw d env x size := by
  have hown := h.own.perm hperm
  have hsame : ∀ b ∈ d.fileBlocks x.dataBlockNums (blockCount size), d'.blocks b = d.blocks b := by
    intro b hb
    refine hdrops.frame b (hown.data b (List.mem_append_right _ hb)).2.1 fun hcon => ?_
    exact (List.nodup_append.mp hown.nodup).2.2 b hcon b hb rfl
  have hcount : blockCount size ≤ maxBlocks := by
    refine Nat.le_trans ?_ h.blockCount_le
    unfold blockCount
    omega
  have hindirect := fun b hb => hsame b (indirectBlocks_subset hb)
  have hwf : WellFormed d' y := by
    constructor
    · rw [hnums, hy, fileBlocks_frame hcount hindirect, hdrops.backend]
      refine hown.mono fun b => ?_
      rw [List.count_append]
      omega
    · rw [hy]
      exact Nat.le_trans hlt.le h.size
  obtain ⟨events, htrace, hfreed⟩ := hdrops.trace
  refine ⟨y, d', events, hrun, hy, fun i hi => ?_, htrace, hfreed ▸ hperm, fun h0 => ?_⟩
  · have hq : i / 1024 < blockCount size := by
      unfold blockCount
      omega
    have hblock : d'.fileBlock x.dataBlockNums (i / 1024) = d.fileBlock x.dataBlockNums (i / 1024) :=
      fileBlock_frame hq hcount hindirect
    rw [hwf.readByte, h.readByte, hy, if_pos hi, if_pos (by omega), hnums]
    rw [byteAt_of_same hblock (hsame _ (mem_fileBlocks hq))]
  · obtain ⟨nums', d'', l', hrun', hperm', hfrees⟩ := inodeBlocksFree_spec h.blockCount_le h.own
    obtain ⟨flags, htrace', hflags⟩ := hfrees.trace
    refine ⟨_, d'', _, hrun', htrace', ?_⟩
    rw [FS.freed_free hflags, hfreed]
    rw [h0, show blockCount 0 = 0 from rfl, fileBlocks_zero, List.append_nil] at hperm
    exact hperm.trans hperm'.symm

/-- For a smaller size the call is the loop that frees from the end. -/
theorem truncateINode_shrink (env : Env) {size : Nat} (hmax : x.size ≤ maxFileSize)
    (hlt : size < x.size) : d.truncateINode env x size = decreaseLoop env.now (x.size - size)
      (x.size - size + 1) x d (x.size - 1) 0 env.response := by
  simp only [maxFileSize] at hmax
  rw [truncateINode, if_neg (by omega), if_pos (by omega), decreaseFileSizeBy,
    InCoreINode.wrapSize_of_lt (by omega) (by omega), show ((x.size : Int) - 1).toNat = x.size - 1 by omega]

/-- A size inside the last block: the first round frees that block and its indirect
blocks. -/
theorem drops_last (h : WellFormed d x) (hmod : x.size % 1024 ≠ 0) {blk : Nat} {d₁ : Disk}
    (hblk : d.lookupBlock x (x.size - 1) = .ok blk)
    (hdrops : Drops d d₁ (blk :: ((d.log (.release x.size)).blockFree blk).released
      x.dataBlockNums (x.size / 1024))) :
    Drops d d₁ (d.fileBlock x.dataBlockNums (x.size / 1024) ::
      d.freshIndirect x.dataBlockNums (x.size / 1024)) := by
  obtain ⟨q, hq⟩ : ∃ q, q = x.size / 1024 := ⟨_, rfl⟩
  have hn : blockCount x.size = q + 1 := by
    unfold blockCount
    omega
  have hle := h.blockCount_le
  have hown := h.own
  rw [hn] at hle hown
  have hcap : ∀ b ∈ d.indirectBlocks x.dataBlockNums (q + 1), b < d.backend.capacity :=
    fun b hb => (hown.data b (indirectBlocks_subset hb)).2.2
  obtain rfl : blk = d.fileBlock x.dataBlockNums q := by
    have hlook := lookupBlock_eq (d := d) (x := x) (n := q + 1) (x.size - 1) (by omega) hle hcap
    rw [hblk, Except.ok.injEq, show (x.size - 1) / 1024 = q by omega] at hlook
    exact hlook
  rw [← hq] at hdrops ⊢
  have hkeep : ∀ b ∈ d.indirectBlocks x.dataBlockNums (q + 1),
      ((d.log (.release x.size)).blockFree (d.fileBlock x.dataBlockNums q)).blocks b = d.blocks b := by
    intro b hb
    refine blocks_blockFree_of_ne _ (hown.data b (indirectBlocks_subset hb)).2.1 ?_
    rintro rfl
    exact fileBlock_notMem hown (Nat.lt_succ_self q) hb
  rw [released_eq (by omega), freshIndirect_frame (by omega) hkeep] at hdrops
  · exact hdrops
  · intro b hb
    rw [indirectBlocks_frame hkeep] at hb
    rw [backend_blockFree]
    exact hcap b hb

/-- The sizes between which shrinking is right: no block goes, or only the last one and
the size lies inside it, or no indirect block starts at the block of the old size or at
the new end. -/
def ShrinksClean (old size : Nat) : Prop :=
  blockCount size = blockCount old ∨ old % 1024 ≠ 0 ∧ blockCount size + 1 = blockCount old ∨
    old / 1024 < maxBlocks ∧ newIndirect (old / 1024) = 0 ∧ newIndirect (blockCount size) = 0

instance (old size : Nat) : Decidable (ShrinksClean old size) :=
  inferInstanceAs (Decidable (_ ∨ _ ∧ _ ∨ _ ∧ _ ∧ _))

section Sizes

variable (h : WellFormed d x) (env : Env) {size : Nat} (hlt : size < x.size)

include h hlt

/-- A new end inside the last block. -/
theorem shrinkLaw_same (hsame : blockCount size = blockCount x.size) : ShrinkLaw d env x size := by
  obtain ⟨y, hrun, hy, hnums⟩ := decreaseLoop_end (x := x) d env.now (x.size - size) 0
    (x.size - size) env.response (fun _ => rfl) h.size (by omega)
    (by unfold blockCount at hsame; omega)
  refine shrinkLaw_of_drops h hlt ((truncateINode_shrink env h.size hlt).trans hrun) (by omega) hnums
    (.refl d) ?_
  rw [hsame, List.nil_append]

/-- From a block boundary. -/
theorem shrinkLaw_aligned (hmod : x.size % 1024 = 0) (hq : x.size / 1024 < maxBlocks)
    (hnone : newIndirect (x.size / 1024) = 0) (hend : newIndirect (blockCount size) = 0) :
    ShrinkLaw d env x size := by
  have hle := h.blockCount_le
  have hn : blockCount x.size = x.size / 1024 := by
    unfold blockCount
    omega
  by_cases hsame : blockCount size = blockCount x.size
  · exact shrinkLaw_same h env hlt hsame
  have hcut : Cutting d x.dataBlockNums (blockCount x.size) d [] (blockCount x.size) := by
    refine ⟨.refl d, ?_⟩
    rw [pending, Nat.min_eq_right (by omega), List.nil_append, fileBlocks]
  obtain ⟨y, d', l, hrun, hy, hnums, hcut'⟩ := decreaseLoop_cutting env.now (x.size - size) h.own
    hle _ (x.size - size + 1) x d (x.size - 1) 0 env.response [] hcut (Nat.le_refl _)
    (fun _ => hn ▸ ⟨hq, hnone⟩) (by omega) rfl (fun _ => rfl) (by omega) (by omega) (by omega)
  rw [show x.size - (x.size - size - 0) = size by omega] at hy hcut'
  refine shrinkLaw_of_drops h hlt ((truncateINode_shrink env h.size hlt).trans hrun) hy hnums
    hcut'.drops (hcut'.finish hle ?_ hend)
  unfold blockCount at *
  omega

/-- A size inside the last block, which goes: after the first round the file ends on a
block boundary. -/
theorem exists_first_round (hmod : x.size % 1024 ≠ 0) (hsame : blockCount size ≠ blockCount x.size) :
    ∃ d₁ y resp offset, d.truncateINode env x size =
        decreaseLoop env.now (x.size - size) (x.size - size) y d₁ offset (x.size % 1024) resp ∧
      y.size = 1024 * (x.size / 1024) ∧ y.dataBlockNums = x.dataBlockNums ∧
      (0 < y.size → offset = y.size - 1) ∧ Drops d d₁ (d.fileBlock x.dataBlockNums (x.size / 1024) ::
        d.freshIndirect x.dataBlockNums (x.size / 1024)) := by
  have hmax := h.size
  simp only [maxFileSize] at hmax
  have hq : x.size / 1024 < maxBlocks := by
    simp only [maxBlocks]
    omega
  obtain ⟨blk, d₁, y, resp, offset, hblk, hstep, hys, hynums, hoff, hdrops⟩ := decreaseLoop_free
    d env.now (x.size - size) 0 env.response (by omega) h.size hq
    (by unfold blockCount at hsame; omega)
  rw [show 0 + ((x.size - 1) % 1024 + 1) = x.size % 1024 by omega] at hstep
  exact ⟨d₁, y, resp, offset, (truncateINode_shrink env h.size hlt).trans (hstep _), by omega, hynums,
    hoff, drops_last h hmod hblk hdrops⟩

/-- From inside a block. -/
theorem shrinkLaw_unaligned (hmod : x.size % 1024 ≠ 0)
    (hclean : blockCount size + 1 = blockCount x.size ∨
      newIndirect (x.size / 1024) = 0 ∧ newIndirect (blockCount size) = 0) :
    ShrinkLaw d env x size := by
  have hle := h.blockCount_le
  by_cases hsame : blockCount size = blockCount x.size
  · exact shrinkLaw_same h env hlt hsame
  obtain ⟨d₁, y₁, resp, offset, hrun₁, hys, hynums, hoff, hfirst⟩ :=
    exists_first_round h env hlt hmod hsame
  obtain ⟨q, hq⟩ : ∃ q, q = x.size / 1024 := ⟨_, rfl⟩
  rw [← hq] at hfirst hys hclean
  have hn : blockCount x.size = q + 1 := by
    unfold blockCount
    omega
  have hless : blockCount size < q + 1 ∧ x.size % 1024 ≤ x.size - size ∧ q < maxBlocks := by
    refine ⟨?_, ?_, by omega⟩
    · rw [← hn]
      unfold blockCount at hsame ⊢
      omega
    · unfold blockCount at hsame
      omega
  by_cases hone : blockCount size = q
  · obtain ⟨y, hrun, hy, hnums⟩ := decreaseLoop_end d₁ env.now (x.size - size)
      (x.size % 1024) (x.size - size - 1) resp hoff
      (Nat.le_trans (by omega) h.size) hless.2.1 (by unfold blockCount at hone; omega)
    rw [show x.size - size - 1 + 1 = x.size - size by omega] at hrun
    refine shrinkLaw_of_drops h hlt (hrun₁.trans hrun) (by omega) (hnums.trans hynums) hfirst ?_
    rw [hone, hn]
    exact fileBlocks_succ d _ hless.2.2
  · obtain ⟨hnone, hend⟩ := hclean.resolve_left (by omega)
    have hnil : d.freshIndirect x.dataBlockNums q = [] := by
      rw [← List.length_eq_zero_iff, length_freshIndirect, hnone]
    rw [hnil] at hfirst
    have hcut : Cutting d x.dataBlockNums (blockCount x.size) d₁
        [d.fileBlock x.dataBlockNums q] q := by
      refine ⟨hfirst, ?_⟩
      rw [pending, hn, Nat.min_self, fileBlocks, List.range_succ, List.map_append,
        List.map_singleton, List.perm_iff_count]
      intro b
      simp only [List.count_append]
      omega
    obtain ⟨y, d', l, hrun, hy, hnums, hcut'⟩ := decreaseLoop_cutting env.now (x.size - size) h.own
      hle q (x.size - size) y₁ d₁ offset (x.size % 1024) resp _ hcut (by omega) (by omega) hys hynums
      hoff hless.2.1 (by omega) (by omega)
    rw [show y₁.size - (x.size - size - x.size % 1024) = size by omega] at hy hcut'
    exact shrinkLaw_of_drops h hlt (hrun₁.trans hrun) hy hnums hcut'.drops
      (hcut'.finish hle (by omega) hend)

/-- A law has the right number of blocks freed. -/
theorem ShrinkLaw.length_freed {env : Env} (hlaw : ShrinkLaw d env x size) {y : InCoreINode}
    {d' : Disk} {l : List Nat} (hrun : d.truncateINode env x size = .ok (y, d'))
    (hdrops : Drops d d' l) :
    (l ++ d.fileBlocks x.dataBlockNums (blockCount size)).Perm
        (d.fileBlocks x.dataBlockNums (blockCount x.size)) ∧
      l.length + blockTotal (blockCount size) = blockTotal (blockCount x.size) := by
  obtain ⟨y', d'', events, hrun', -, -, htrace, hperm, -⟩ := hlaw
  cases hrun.symm.trans hrun'
  obtain ⟨events', htrace', hfreed⟩ := hdrops.trace
  rw [htrace', List.append_cancel_left_eq] at htrace
  rw [← htrace, hfreed] at hperm
  have hle := h.blockCount_le
  have hless : blockCount size ≤ blockCount x.size := by
    unfold blockCount
    omega
  refine ⟨hperm, ?_⟩
  rw [← length_fileBlocks d x.dataBlockNums (Nat.le_trans hless hle),
    ← length_fileBlocks d x.dataBlockNums hle, ← hperm.length_eq, List.length_append]

/-- On a block boundary the indirect blocks of the two ends would have to be as many. -/
theorem newIndirect_of_law_aligned (hlaw : ShrinkLaw d env x size) (hmod : x.size % 1024 = 0)
    (hsame : blockCount size ≠ blockCount x.size) :
    x.size / 1024 < maxBlocks ∧ newIndirect (x.size / 1024) = newIndirect (blockCount size) := by
  have hmax := h.size
  have hn : blockCount x.size = x.size / 1024 := by
    unfold blockCount
    omega
  by_cases hq : x.size / 1024 < maxBlocks
  · refine ⟨hq, ?_⟩
    obtain ⟨y, d', l, hrun, hdrops, hcount⟩ := decreaseLoop_count env.now (x.size - size)
      (x.size / 1024) (x.size - size + 1) x d (x.size - 1) 0 env.response (by omega) hq
      (fun _ => rfl) (by omega) (by omega) (by omega)
    obtain ⟨-, hlength⟩ := hlaw.length_freed h hlt ((truncateINode_shrink env hmax hlt).trans hrun)
      hdrops
    rw [show x.size - (x.size - size - 0) = size by omega, blockTotal, blockTotal] at hcount
    rw [hn] at hlength
    omega
  · -- `calculateOffset` does not set its result
    obtain ⟨y, d', events, hrun, -⟩ := hlaw
    rw [truncateINode_shrink env hmax hlt] at hrun
    obtain ⟨blk, -, hbmap⟩ := bmap_last (d := d) env.response (by omega) hmax
    have hfail : d.freeDataBlockInINode x blk = .error .uninitialised := by
      simp only [freeDataBlockInINode, calculateOffset_eq_none (show maxBlocks ≤ x.size / 1024 by omega)]
    simp only [decreaseLoop, hbmap, bind, Except.bind, createBMapResponse, hfail] at hrun
    rw [if_pos (by omega), if_neg (by unfold blockCount at hsame; omega)] at hrun
    cases hrun

/-- From inside a block, the second round would free the indirect blocks of the first
one again. -/
theorem newIndirect_of_law_unaligned (hlaw : ShrinkLaw d env x size) (hmod : x.size % 1024 ≠ 0)
    (hmany : blockCount size + 1 < blockCount x.size) :
    newIndirect (x.size / 1024) = 0 ∧ newIndirect (blockCount size) = 0 := by
  have hle := h.blockCount_le
  obtain ⟨d₁, y₁, resp, offset, hrun₁, hys, hynums, hoff, hfirst⟩ :=
    exists_first_round h env hlt hmod (by omega)
  obtain ⟨q, hq⟩ : ∃ q, q = x.size / 1024 := ⟨_, rfl⟩
  rw [← hq] at hfirst hys ⊢
  have hn : blockCount x.size = q + 1 := by
    unfold blockCount
    omega
  have hrest : 1024 ≤ x.size - size - x.size % 1024 := by
    unfold blockCount at hmany
    omega
  have hy0 : 0 < y₁.size := by omega
  obtain ⟨f, hf⟩ : ∃ f, x.size - size = f + 1 := ⟨x.size - size - 1, by omega⟩
  obtain ⟨blk, d₂, y₂, resp', offset', hblk, hstep, hys₂, -, hoff₂, hdrops⟩ := decreaseLoop_free
    d₁ env.now (x.size - size) (x.size % 1024) resp hy0
    (Nat.le_trans (by omega) h.size) (by omega) (by omega)
  obtain ⟨y₃, d₃, l, hrun₃, hdrops₃, hcount⟩ := decreaseLoop_count env.now (x.size - size) (q - 1) f
    y₂ d₂ offset' (x.size % 1024 + ((y₁.size - 1) % 1024 + 1)) resp' (by omega) (by omega) hoff₂
    (by omega) (by omega) (by omega)
  have hrun : d.truncateINode env x size = .ok (y₃, d₃) := by
    have hsecond := hstep f
    rw [← hf] at hsecond
    rw [hrun₁, hoff hy0, hsecond, hrun₃]
  obtain ⟨hperm, hlength⟩ := hlaw.length_freed h hlt hrun ((hfirst.trans hdrops).trans hdrops₃)
  obtain ⟨e, he⟩ : ∃ e, e = (d₁.log (.release y₁.size)).blockFree blk := ⟨_, rfl⟩
  rw [hynums, show y₁.size / 1024 = q by omega, ← he] at hperm hlength
  rw [show y₂.size - (x.size - size - (x.size % 1024 + ((y₁.size - 1) % 1024 + 1))) = size by omega,
    show q - 1 + 1 = q by omega, blockTotal] at hcount
  simp only [hn, blockTotal, List.length_append, List.length_cons, length_freshIndirect,
    length_released (show q < maxBlocks by omega)] at hlength
  have hequal : newIndirect q = newIndirect (blockCount size) := by omega
  suffices hnone : newIndirect q = 0 from ⟨hnone, hequal ▸ hnone⟩
  by_contra hsome
  -- the first indirect block is found again in the second round
  have hown := h.own
  rw [hn] at hown hle
  have hown' := hown.perm (fileBlocks_succ d _ (by omega))
  have hkept : ∀ b ∈ d.fileBlocks x.dataBlockNums q, d₁.blocks b = d.blocks b := by
    intro b hb
    refine hfirst.frame b (hown'.data b (List.mem_append_right _ hb)).2.1 fun hcon => ?_
    exact (List.nodup_append.mp hown'.nodup).2.2 b hcon b hb rfl
  have hindirect := fun b hb => hkept b (indirectBlocks_subset hb)
  have hfile : Own d.backend (d.fileBlocks x.dataBlockNums q) := hown'.mono fun b => by
    rw [List.count_append]
    omega
  obtain rfl : blk = d.fileBlock x.dataBlockNums (q - 1) := by
    have hlook := lookupBlock_eq (d := d₁) (x := y₁) (n := q) (y₁.size - 1) (by omega) (by omega)
      fun b hb => by
        rw [hynums, indirectBlocks_frame hindirect] at hb
        rw [hfirst.backend]
        exact (hfile.data b (indirectBlocks_subset hb)).2.2
    rw [hblk, hynums, Except.ok.injEq, show (y₁.size - 1) / 1024 = q - 1 by omega] at hlook
    rw [hlook]
    exact fileBlock_frame (by omega) (by omega) hindirect
  have hhead : (e.released x.dataBlockNums q).head? = (d.freshIndirect x.dataBlockNums q).head? :=
    head_released _ (by omega) fun b hb => by
      rw [he]
      refine ⟨?_, ?_⟩
      · rw [blocks_blockFree_of_ne _ (hfile.data b (indirectBlocks_subset hb)).2.1]
        · exact hindirect b hb
        · rintro rfl
          exact fileBlock_notMem hfile (by omega) hb
      · rw [backend_blockFree, backend_log, hfirst.backend]
        exact (hfile.data b (indirectBlocks_subset hb)).2.2
  obtain ⟨b, hb⟩ : ∃ b, (d.freshIndirect x.dataBlockNums q).head? = some b := by
    rw [← Option.isSome_iff_exists, List.isSome_head?, ← List.length_pos_iff, length_freshIndirect]
    omega
  have h1 := List.count_pos_iff.mpr (List.mem_of_head? hb)
  have h2 := List.count_pos_iff.mpr (List.mem_of_head? (hhead.trans hb))
  have h3 := List.nodup_iff_count_le_one.mp (h.own.perm hperm).nodup b
  simp only [List.count_append, List.count_cons] at h3
  omega

/-- Shrinking is right between clean sizes only, but for the case that the pointers
found behind an aligned end are by chance those of the blocks it forgets. -/
theorem clean_of_shrinkLaw (hlaw : ShrinkLaw d env x size) :
    ShrinksClean x.size size ∨ x.size % 1024 = 0 ∧
      newIndirect (x.size / 1024) = newIndirect (blockCount size) ∧
      newIndirect (blockCount size) ≠ 0 := by
  have hle := h.blockCount_le
  by_cases hsame : blockCount size = blockCount x.size
  · exact .inl (.inl hsame)
  by_cases hmod : x.size % 1024 = 0
  · obtain ⟨hq, hequal⟩ := newIndirect_of_law_aligned h env hlt hlaw hmod hsame
    by_cases hnone : newIndirect (blockCount size) = 0
    · exact .inl (.inr (.inr ⟨hq, hequal.trans hnone, hnone⟩))
    · exact .inr ⟨hmod, hequal, hnone⟩
  · by_cases hone : blockCount size + 1 = blockCount x.size
    · exact .inl (.inr (.inl ⟨hmod, hone⟩))
    · obtain ⟨hold, hnew⟩ := newIndirect_of_law_unaligned h env hlt hlaw hmod (by
        unfold blockCount at *
        omega)
      refine .inl (.inr (.inr ⟨?_, hold, hnew⟩))
      unfold blockCount at hle
      omega

/-- **Shrinking** between clean sizes frees the right blocks.  Between others it does
not, unless the block of an aligned old size and the new end come with the same number
of indirect blocks. -/
theorem shrinkLaw_of_clean :
    (ShrinksClean x.size size → ShrinkLaw d env x size) ∧
      (ShrinkLaw d env x size → ShrinksClean x.size size ∨ x.size % 1024 = 0 ∧
        newIndirect (x.size / 1024) = newIndirect (blockCount size) ∧
        newIndirect (blockCount size) ≠ 0) := by
  refine ⟨fun hclean => ?_, clean_of_shrinkLaw h env hlt⟩
  by_cases hmod : x.size % 1024 = 0
  · rcases hclean with hsame | ⟨hne, -⟩ | ⟨hq, hold, hnew⟩
    · exact shrinkLaw_same h env hlt hsame
    · exact absurd hmod hne
    · exact shrinkLaw_aligned h env hlt hmod hq hold hnew
  · rcases hclean with hsame | ⟨-, hone⟩ | ⟨-, hold, hnew⟩
    · exact shrinkLaw_same h env hlt hsame
    · exact shrinkLaw_unaligned h env hlt hmod (.inl hone)
    · exact shrinkLaw_unaligned h env hlt hmod (.inr ⟨hold, hnew⟩)

end Sizes

/-- A file of ten bytes is emptied. -/
theorem shrinkLaw_ten : ∃ d, ShrinkLaw d FS.blankEnv (Apart.oneBlockFile 10) 0 := by
  obtain ⟨l, hl, -⟩ := Apart.exists_oneBlockFile 10 (by decide) (by decide)
  exact ⟨_, (shrinkLaw_of_clean hl.wellFormed FS.blankEnv (by decide)).1 (by decide)⟩

/-- A file of ten blocks, all in the inode. -/
def tenBlockFile : InCoreINode :=
  { Apart.oneBlockFile 10240 with dataBlockNums := .tabulate fun i => if i < 10 then 16388 + i else 0 }

/-- A file of ten direct blocks on a new file system. -/
theorem wellFormed_tenBlockFile : WellFormed AllocState.smallDisk.makeFileSystem tenBlockFile := by
  have hcap : AllocState.smallDisk.makeFileSystem.backend.capacity = 31457280 := by
    simp [sized, Backend.capacity, AllocState.smallDisk]
  have hblocks : AllocState.smallDisk.makeFileSystem.fileBlocks tenBlockFile.dataBlockNums
      (blockCount tenBlockFile.size) = List.range' 16388 10 := by
    rw [show blockCount tenBlockFile.size = 10 from rfl, fileBlocks,
      indirectBlocks_direct _ _ (by decide), List.append_nil, List.range'_eq_map_range]
    refine List.map_congr_left fun q hq => ?_
    have hq' := List.mem_range.mp hq
    rw [fileBlock, if_pos (treeLevel_eq_zero.mpr hq'), tenBlockFile,
      Buffer.peek_tabulate, if_pos (by simp only [blocksInInode]; omega), if_pos hq']
  refine ⟨⟨?_, fun b hb => ?_⟩, by decide⟩
  · rw [hblocks]
    exact List.nodup_range'
  · rw [hblocks, List.mem_range'_1] at hb
    rw [hcap]
    omega

/-- Ten blocks cut to nine: a block number behind the last one is freed too. -/
theorem shrink_ten_blocks : ¬ ∀ (d : Disk) (env : Env) (x : InCoreINode) (size : Nat),
    WellFormed d x → size < x.size → ShrinkLaw d env x size := by
  intro hall
  have hlaw := hall _ FS.blankEnv _ 9216 wellFormed_tenBlockFile (by decide)
  exact absurd (clean_of_shrinkLaw wellFormed_tenBlockFile FS.blankEnv (by decide) hlaw) (by decide)

end Law

end Disk

end Naofs
