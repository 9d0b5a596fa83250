import Naofs.FileTree

/-!
# Naofs.Append

Appending a block to a file: `insertDataBlockInINode` and the append branch of
`bmap`.

`FileGrown` is the specification: the file keeps its blocks, gets the new one at
its end, and the indirect blocks it needs now are those it had and those just
allocated.  As in `FileTree`, one theorem (`insertDataBlockInINode_grown`) needs
only that the allocated blocks are fresh, the other
(`insertDataBlockInINode_freeBlocks`) says where on the free list they come from.
-/

namespace Naofs

namespace Disk

/-- The file with entries `nums'` on `d'` is the one with entries `nums` on `d`,
which has `n` blocks, with the block `x` appended. -/
structure FileGrown (d d' : Disk) (nums nums' : Buffer Nat blocksInInode) (n x : Nat)
    (new : List Nat) : Prop where
  old : ∀ k < n, d'.fileBlock nums' k = d.fileBlock nums k
  last : d'.fileBlock nums' n = x
  indirect : (d'.indirectBlocks nums' (n + 1)).Perm (new ++ d.indirectBlocks nums n)
  frame : ∀ b, b ≠ 2 → b ∉ new ++ d.indirectBlocks nums n → d'.blocks b = d.blocks b

/-- The number of indirect blocks that come with the block of index `n`. -/
def newIndirect (n : Nat) : Nat :=
  if treeLevel n = 0 then 0 else Radix.newInner 128 (treeLevel n) (n - treeBase (treeLevel n))

section Insert

variable {d : Disk} {x : InCoreINode} {blk n : Nat}

/-- In the tree of the appended index there is one more leaf, in the others
nothing changes. -/
theorem treePart_size (hn : n < maxBlocks) {L : Nat} (hL : L = 1 ∨ L = 2 ∨ L = 3) :
    (L = treeLevel n → min (n - treeBase L) (128 ^ L) = n - treeBase L ∧
      min (n + 1 - treeBase L) (128 ^ L) = n - treeBase L + 1) ∧
      (L ≠ treeLevel n → min (n + 1 - treeBase L) (128 ^ L) = min (n - treeBase L) (128 ^ L)) := by
  simp only [maxBlocks] at hn
  have hlow : treeLevel n = 0 → n < 10 := treeLevel_eq_zero.mp
  have hlvl := treeLevel_bounds n
  rcases hL with rfl | rfl | rfl <;> simp only [treeBase] <;> refine ⟨fun h => ?_, fun h => ?_⟩ <;>
    omega

/-- Indices below the appended one lie in its tree or before it. -/
theorem FileGrown.direct (hn : treeLevel n = 0) (nums : Buffer Nat blocksInInode) :
    FileGrown d d nums (nums.poke n blk) n blk [] := by
  have hlt := treeLevel_eq_zero.mp hn
  refine ⟨fun k hk => ?_, ?_, ?_, fun _ _ _ => rfl⟩
  · have hk0 : treeLevel k = 0 := treeLevel_eq_zero.mpr (by omega)
    rw [fileBlock, fileBlock, if_pos hk0, if_pos hk0, Buffer.peek_poke_of_ne _ (by omega)]
  · rw [fileBlock, if_pos hn, Buffer.peek_poke_self _ (by simp; omega)]
  · have hp : ∀ L, (L = 1 ∨ L = 2 ∨ L = 3) →
        d.treePart (nums.poke n blk) (n + 1) L = d.treePart nums n L := by
      intro L hL
      rw [treePart, treePart, Buffer.peek_poke_of_ne _ (by omega),
        (treePart_size (lt_of_lt_of_le hlt (by decide)) hL).2 (by omega)]
    rw [indirectBlocks, indirectBlocks, hp 1 (by simp), hp 2 (by simp), hp 3 (by simp),
      List.nil_append]

theorem FileGrown.tree {d' : Disk} {nums : Buffer Nat blocksInInode} {entry : Nat}
    {new : List Nat} (hn : n < maxBlocks) (hlvl : treeLevel n ≠ 0)
    (hgrown : Radix.Grown 128 d.child d'.child (treeLevel n) (nums.peek (9 + treeLevel n)) entry
      (n - treeBase (treeLevel n)) blk new)
    (hframe : ∀ b, b ≠ 2 → b ∉ new ++ d.treePart nums n (treeLevel n) →
      d'.blocks b = d.blocks b)
    (hown : Own d.backend (new ++ d.indirectBlocks nums n)) :
    FileGrown d d' nums (nums.poke (9 + treeLevel n) entry) n blk new := by
  have hmem := treeLevel_mem hlvl
  have hle := treeLevel_le n
  -- the other trees are disjoint from what was written
  have hother : ∀ L, (L = 1 ∨ L = 2 ∨ L = 3) → L ≠ treeLevel n → ∀ b ∈ d.treePart nums n L,
      d'.blocks b = d.blocks b := by
    intro L hL hne b hb
    have hbi : b ∈ d.indirectBlocks nums n := mem_indirectBlocks.mpr ⟨L, hL, hb⟩
    refine hframe b (hown.data b (by simp [hbi])).2.1 fun hcon => ?_
    have h1 := List.nodup_iff_count_le_one.mp hown.nodup b
    have h2 := List.count_pos_iff.mpr hcon
    have h3 := List.count_pos_iff.mpr hb
    simp only [List.count_append, indirectBlocks] at h1 h2
    rcases hL with rfl | rfl | rfl <;> rcases hmem with h | h | h <;> rw [h] at h2 hne <;> omega
  have hentry : ∀ L, L ≠ treeLevel n →
      (nums.poke (9 + treeLevel n) entry).peek (9 + L) = nums.peek (9 + L) :=
    fun L hne => Buffer.peek_poke_of_ne _ (by omega) _
  have hself : (nums.poke (9 + treeLevel n) entry).peek (9 + treeLevel n) = entry :=
    Buffer.peek_poke_self _ (by simp; omega) _
  refine ⟨fun k hk => ?_, ?_, ?_, fun b hb2 hb => hframe b hb2 fun hcon => hb ?_⟩
  · by_cases hk0 : treeLevel k = 0
    · have := treeLevel_eq_zero.mp hk0
      rw [fileBlock, fileBlock, if_pos hk0, if_pos hk0, Buffer.peek_poke_of_ne _ (by omega)]
    by_cases hkn : treeLevel k = treeLevel n
    · have hb := (treeBase_le (q := k) (by omega) hk0).1
      rw [fileBlock, fileBlock, if_neg hk0, if_neg hk0, hkn, hself]
      rw [hkn] at hb
      exact hgrown.old _ (by omega)
    · exact fileBlock_congr hk (by omega) (hentry _ hkn) (hother _ (treeLevel_mem hk0) hkn) hk0
  · rw [fileBlock, if_neg hlvl, hself]
    exact hgrown.last
  · have hp : ∀ L, (L = 1 ∨ L = 2 ∨ L = 3) → L ≠ treeLevel n →
        d'.treePart (nums.poke (9 + treeLevel n) entry) (n + 1) L = d.treePart nums n L := by
      intro L hL hne
      have hsize := (treePart_size hn hL).2 hne
      have := treePart_congr (n := n) (hentry L hne) (hother L hL hne)
      unfold treePart at this ⊢
      rw [hsize, this]
    have hq : (d'.treePart (nums.poke (9 + treeLevel n) entry) (n + 1) (treeLevel n)).Perm
        (new ++ d.treePart nums n (treeLevel n)) := by
      have hsize := (treePart_size hn hmem).1 rfl
      unfold treePart
      rw [hsize.1, hsize.2, hself]
      exact hgrown.inner
    have hcount := List.perm_iff_count.mp hq
    rw [List.perm_iff_count]
    intro b
    have hb := hcount b
    simp only [indirectBlocks, List.count_append] at hb ⊢
    rcases hmem with h | h | h <;> rw [h] at hb hp ⊢
    · rw [hp 2 (by simp) (by simp), hp 3 (by simp) (by simp)]
      omega
    · rw [hp 1 (by simp) (by simp), hp 3 (by simp) (by simp)]
      omega
    · rw [hp 1 (by simp) (by simp), hp 2 (by simp) (by simp)]
      omega
  · simp only [List.mem_append] at hcon ⊢
    exact hcon.imp_right fun h => mem_indirectBlocks.mpr ⟨_, hmem, h⟩

/-- `insertDataBlockInINode` at the end of a file of whole blocks. -/
theorem insertDataBlockInINode_eq (d : Disk) (blk : Nat) (hs : x.size % 1024 = 0)
    (hn : x.size / 1024 < maxBlocks) :
    ∃ nums' changed d', d.insertDataBlockInINode x blk =
        .ok ({ x with dataBlockNums := nums', inodeChanged := changed }, d') ∧
      ((treeLevel (x.size / 1024) = 0 ∧ nums' = x.dataBlockNums.poke (x.size / 1024) blk ∧ d' = d) ∨
        ∃ L, treeLevel (x.size / 1024) = L + 1 ∧
          ∃ res, d.allocateAllNeededBlocks
              (x.dataBlockNums.peek (9 + treeLevel (x.size / 1024))) blk
              ((x.size / 1024 - treeBase (treeLevel (x.size / 1024))) / 128 ^ L)
              (Radix.digits 128 L
                ((x.size / 1024 - treeBase (treeLevel (x.size / 1024))) % 128 ^ L)) = res ∧
            nums' = x.dataBlockNums.poke (9 + treeLevel (x.size / 1024)) res.1 ∧ d' = res.2) := by
  obtain ⟨o, ho, hlvl, hdirect, hbelow⟩ := calculateOffset_eq hn
  have hsz : InCoreINode.wrapSize x.size = x.size := by
    rw [InCoreINode.wrapSize_of_lt (by omega) (by simp only [maxBlocks] at hn; omega)]
    exact Int.toNat_natCast _
  simp only [insertDataBlockInINode, blockSize, hs, ne_eq, not_true_eq_false, if_false, ho,
    updateIndex]
  by_cases h0 : treeLevel (x.size / 1024) = 0
  · have hdir : o.offsetIndirection = .direct := by
      cases ho' : o.offsetIndirection <;> simp_all [IndirectionLevel.toNat]
    rw [if_pos hdir, hdirect h0]
    exact ⟨_, _, _, rfl, .inl ⟨h0, rfl, rfl⟩⟩
  · have hdir : o.offsetIndirection ≠ .direct := by
      intro hcon
      rw [hcon] at hlvl
      exact h0 hlvl.symm
    obtain ⟨L, hL⟩ : ∃ L, treeLevel (x.size / 1024) = L + 1 := ⟨_, (Nat.succ_pred h0).symm⟩
    have hb := hbelow h0
    rw [hL, Radix.digits, ← hL] at hb
    rw [if_neg hdir, hb, hlvl]
    refine ⟨_, true, _, ?_, .inr ⟨L, hL, _, rfl, rfl, rfl⟩⟩
    simp only [InCoreINode.updateINodeMetadata, Int.add_zero, hsz, directBlockLimit, ne_eq,
      not_true_eq_false, if_false]

/-- What an insertion allocates, and what it does to the file if that is fresh. -/
theorem insertDataBlockInINode_grown (hs : x.size % 1024 = 0) (hn : x.size / 1024 < maxBlocks)
    (hblk : blk < 2 ^ 64) :
    ∃ nums' changed d', d.insertDataBlockInINode x blk =
        .ok ({ x with dataBlockNums := nums', inodeChanged := changed }, d') ∧
      d'.backend = d.backend ∧ ∃ new, Allocates d d' new ∧
        (Own d.backend (new ++ d.indirectBlocks x.dataBlockNums (x.size / 1024)) →
          FileGrown d d' x.dataBlockNums nums' (x.size / 1024) blk new) := by
  obtain ⟨nums', changed, d', heq, ⟨h0, rfl, rfl⟩ | ⟨L, hL, res, hres, rfl, rfl⟩⟩ :=
    insertDataBlockInINode_eq d blk hs hn
  · exact ⟨_, _, _, heq, rfl, [], Allocates.refl _, fun _ => FileGrown.direct h0 _⟩
  · have hlvl : treeLevel (x.size / 1024) ≠ 0 := by omega
    have hpart : d.treePart x.dataBlockNums (x.size / 1024) (treeLevel (x.size / 1024)) =
        Radix.inner 128 d.child (L + 1) (x.dataBlockNums.peek (9 + treeLevel (x.size / 1024)))
          (x.size / 1024 - treeBase (treeLevel (x.size / 1024))) := by
      rw [treePart, ((treePart_size hn (treeLevel_mem hlvl)).1 rfl).1, hL]
    have hm := (treeBase_le hn hlvl).2
    obtain ⟨hback, rest, hrest⟩ := allocateAllNeededBlocks_allocates d
      (x.dataBlockNums.peek (9 + treeLevel (x.size / 1024))) blk
      ((x.size / 1024 - treeBase (treeLevel (x.size / 1024))) / 128 ^ L)
      (Radix.digits 128 L ((x.size / 1024 - treeBase (treeLevel (x.size / 1024))) % 128 ^ L))
    rw [hres] at hback hrest
    obtain ⟨new, hnew⟩ : ∃ new, Allocates d res.2 new := ⟨_, hrest⟩
    refine ⟨_, _, _, heq, hback, new, hnew, fun hown => ?_⟩
    have hown' : Own d.backend (new ++ Radix.inner 128 d.child (L + 1)
        (x.dataBlockNums.peek (9 + treeLevel (x.size / 1024)))
        (x.size / 1024 - treeBase (treeLevel (x.size / 1024)))) := by
      rw [← hpart]
      refine hown.mono fun b => ?_
      simp only [indirectBlocks, List.count_append]
      rcases treeLevel_mem hlvl with h | h | h <;> rw [h] <;> omega
    obtain ⟨hgrown, hframe⟩ := allocateAllNeededBlocks_grown (by rwa [← hL]) hblk hres hnew hown'
    rw [← hpart] at hframe
    exact FileGrown.tree hn hlvl (by rwa [hL] at hgrown ⊢) hframe hown

/-- An insertion takes the blocks it needs off the front of the free list. -/
theorem insertDataBlockInINode_freeBlocks (hs : x.size % 1024 = 0)
    (hn : x.size / 1024 < maxBlocks) (hcap : 2 < d.backend.capacity) {l : List Nat}
    (hfree : FreeBlocks d l)
    (hown : Own d.backend (l ++ d.indirectBlocks x.dataBlockNums (x.size / 1024)))
    (hlen : newIndirect (x.size / 1024) ≤ l.length) {y : InCoreINode} {d' : Disk}
    (h : d.insertDataBlockInINode x blk = .ok (y, d')) :
    Allocates d d' (l.take (newIndirect (x.size / 1024))) ∧
      FreeBlocks d' (l.drop (newIndirect (x.size / 1024))) := by
  obtain ⟨nums', changed, d₁, heq, hcases⟩ :=
    insertDataBlockInINode_eq d blk hs hn
  rw [heq] at h
  cases h
  obtain ⟨h0, rfl, rfl⟩ | ⟨L, hL, res, hres, rfl, rfl⟩ := hcases
  · rw [newIndirect, if_pos h0, List.take_zero, List.drop_zero]
    exact ⟨Allocates.refl _, hfree⟩
  · have hlvl : treeLevel (x.size / 1024) ≠ 0 := by omega
    have hm := (treeBase_le hn hlvl).2
    rw [newIndirect, if_neg hlvl] at hlen ⊢
    rw [hL] at hlen hm ⊢
    rw [hL] at hres
    refine allocateAllNeededBlocks_freeBlocks hcap hm hres hfree ?_ hlen
    refine hown.mono fun b => ?_
    have hpart := ((treePart_size hn (treeLevel_mem hlvl)).1 rfl).1
    rw [hL] at hpart
    simp only [indirectBlocks, treePart, List.count_append]
    rcases treeLevel_mem hlvl with h | h | h <;> rw [hL] at h <;> rw [h] at hpart ⊢ <;>
      rw [hpart] <;> omega

end Insert

/-! ## Growth -/

/-- The number of blocks that hold `size` bytes. -/
def blockCount (size : Nat) : Nat := (size + 1023) / 1024

/-- `Extends`: the file got longer, from `n` blocks to `n'`; it owns what it
owned and the blocks `new`, and no other block but the free list was written. -/
structure Extends (d d' : Disk) (nums nums' : Buffer Nat blocksInInode) (n n' : Nat)
    (new : List Nat) : Prop where
  le : n ≤ n'
  old : ∀ k < n, d'.fileBlock nums' k = d.fileBlock nums k
  blocks : (d'.fileBlocks nums' n').Perm (new ++ d.fileBlocks nums n)
  frame : ∀ b, b ≠ 2 → b ∉ new ++ d.fileBlocks nums n → d'.blocks b = d.blocks b

section Extends

variable {d d' d'' : Disk} {nums nums' nums'' : Buffer Nat blocksInInode} {n n' n'' : Nat}
  {new new' : List Nat}

theorem Extends.refl (d : Disk) (nums : Buffer Nat blocksInInode) (n : Nat) :
    Extends d d nums nums n n [] :=
  ⟨le_rfl, fun _ _ => rfl, by rw [List.nil_append], fun _ _ _ => rfl⟩

/-- First some blocks are appended, and then others. -/
theorem Extends.trans (h : Extends d d' nums nums' n n' new)
    (h' : Extends d' d'' nums' nums'' n' n'' new') :
    Extends d d'' nums nums'' n n'' (new ++ new') where
  le := h.le.trans h'.le
  old := fun k hk => (h'.old k (hk.trans_le h.le)).trans (h.old k hk)
  blocks := by
    have hb := List.perm_iff_count.mp h.blocks
    have hb' := List.perm_iff_count.mp h'.blocks
    rw [List.perm_iff_count]
    intro b
    have h1 := hb b
    have h2 := hb' b
    simp only [List.count_append] at *
    omega
  frame := fun b hb2 hb => by
    simp only [List.mem_append, not_or] at hb
    rw [h'.frame b hb2, h.frame b hb2]
    · simp [hb.1.1, hb.2]
    · rw [List.mem_append, h.blocks.mem_iff]
      simp [hb.1, hb.2]

theorem mem_fileBlocks {k : Nat} (hk : k < n) : d.fileBlock nums k ∈ d.fileBlocks nums n := by
  rw [fileBlocks]
  exact List.mem_append_left _ (List.mem_map_of_mem (List.mem_range.mpr hk))

theorem indirectBlocks_subset {b : Nat} (h : b ∈ d.indirectBlocks nums n) :
    b ∈ d.fileBlocks nums n := by
  rw [fileBlocks]
  exact List.mem_append_right _ h

/-- A data block is not an indirect block. -/
theorem fileBlock_notMem {k : Nat} (hown : Own d.backend (d.fileBlocks nums n)) (hk : k < n) :
    d.fileBlock nums k ∉ d.indirectBlocks nums n := by
  intro hmem
  have hnodup := hown.nodup
  rw [fileBlocks, List.nodup_append] at hnodup
  exact hnodup.2.2 _ (List.mem_map_of_mem (List.mem_range.mpr hk)) _ hmem rfl

/-- The contents of a data block can be written. -/
theorem Extends.store {k : Nat} {v : DiskBlock} (h : Extends d d' nums nums' n n' new)
    (hown : Own d'.backend (d'.fileBlocks nums' n')) (hn : n' ≤ maxBlocks) (hk : k < n') :
    Extends d (d'.store (d'.fileBlock nums' k) v) nums nums' n n' new := by
  have hsame : ∀ b ∈ d'.indirectBlocks nums' n',
      (d'.store (d'.fileBlock nums' k) v).blocks b = d'.blocks b := by
    intro b hb
    refine blocks_store_of_ne _ ?_ _
    rintro rfl
    exact fileBlock_notMem hown hk hb
  refine ⟨h.le, fun j hj => ?_, ?_, fun b hb2 hb => ?_⟩
  · rw [fileBlock_frame (hj.trans_le h.le) hn hsame, h.old j hj]
  · rw [fileBlocks_frame hn hsame]
    exact h.blocks
  · rw [blocks_store_of_ne, h.frame b hb2 hb]
    rintro rfl
    exact hb (h.blocks.mem_iff.mp (mem_fileBlocks hk))

/-- One appended block, seen as an extension. -/
theorem FileGrown.extends {x : Nat} (h : FileGrown d d' nums nums' n x new) :
    Extends d d' nums nums' n (n + 1) (x :: new) where
  le := Nat.le_succ n
  old := h.old
  blocks := by
    have hmap : (List.range (n + 1)).map (d'.fileBlock nums') =
        (List.range n).map (d.fileBlock nums) ++ [x] := by
      rw [List.range_succ, List.map_append, List.map_singleton, h.last]
      congr 1
      exact List.map_congr_left fun k hk => h.old k (List.mem_range.mp hk)
    have hind := List.perm_iff_count.mp h.indirect
    rw [fileBlocks, fileBlocks, hmap, List.perm_iff_count]
    intro b
    have hb := hind b
    simp only [List.count_append, List.count_cons, List.count_nil] at *
    omega
  frame := fun b hb2 hb => h.frame b hb2 fun hcon => hb (by
    rw [List.mem_append] at hcon ⊢
    exact hcon.imp (List.mem_cons_of_mem _) indirectBlocks_subset)

/-- The allocation of the data block itself does not touch the trees. -/
theorem FileGrown.of_blockAlloc {x : Nat} (h2 : 2 ∉ d.indirectBlocks nums n) (hn : n ≤ maxBlocks)
    (h : FileGrown d.blockAlloc.2 d' nums nums' n x new) : FileGrown d d' nums nums' n x new := by
  have hsame : ∀ b ∈ d.indirectBlocks nums n, d.blockAlloc.2.blocks b = d.blocks b := by
    intro b hb
    refine blocks_blockAlloc_of_ne _ ?_
    rintro rfl
    exact h2 hb
  have hind := indirectBlocks_frame hsame
  refine ⟨fun k hk => ?_, h.last, ?_, fun b hb2 hb => ?_⟩
  · rw [h.old k hk, fileBlock_frame hk hn hsame]
  · rw [← hind]
    exact h.indirect
  · rw [h.frame b hb2 (by rwa [hind]), blocks_blockAlloc_of_ne _ hb2]

end Extends

/-! ## `bmap` -/

section Bmap

variable {d : Disk} {x : InCoreINode} {resp : BmapResponse}

/-- A block within the limit has coordinates. -/
theorem lookupBlock_ok (d : Disk) (x : InCoreINode) {offset : Nat}
    (h : offset / 1024 < maxBlocks) : ∃ blk, d.lookupBlock x offset = .ok blk := by
  obtain ⟨o, ho, -⟩ := calculateOffset_eq h
  simp only [lookupBlock, ho]
  split <;> exact ⟨_, rfl⟩

/-- Inside the file `bmap` returns the block and changes nothing. -/
theorem bmap_inside {offset : Nat} {mode : BmapMode}
    (hoff : offset < x.size ∨ offset = x.size ∧ x.size % 1024 ≠ 0 ∧ mode = .append)
    (hn : blockCount x.size ≤ maxBlocks)
    (hcap : ∀ b ∈ d.indirectBlocks x.dataBlockNums (blockCount x.size), b < d.backend.capacity) :
    d.bmap x offset resp mode =
      .ok (0, createBMapResponse (d.fileBlock x.dataBlockNums (offset / 1024)) (offset % 1024),
        x, d) := by
  have hq : offset / 1024 < blockCount x.size := by
    unfold blockCount
    omega
  have h1 : ¬ (offset ≥ x.size ∧ (mode = .read ∨ offset > x.size)) := by
    rintro ⟨hge, hmode⟩
    obtain hlt | ⟨heq, -, hm⟩ := hoff
    · omega
    · rcases hmode with hr | hgt
      · rw [hm] at hr
        cases hr
      · omega
  have h2 : ¬ (offset = x.size ∧ offset % 1024 = 0 ∧ mode = .append) := by
    rintro ⟨heq, hmod, -⟩
    obtain hlt | ⟨-, hne, -⟩ := hoff
    · omega
    · rw [heq] at hmod
      exact hne hmod
  rw [bmap, if_neg h1, if_neg h2, lookupBlock_eq offset hq hn hcap]
  rfl

/-- `bmap` at the end of the file, in append mode. -/
theorem bmap_end (d : Disk) (x : InCoreINode) (resp : BmapResponse)
    (hn : x.size / 1024 < maxBlocks) :
    ∃ blk nums' changed d', d.bmap x x.size resp .append =
        .ok (0, createBMapResponse blk (x.size % 1024),
          { x with dataBlockNums := nums', inodeChanged := changed }, d') ∧
      d'.backend = d.backend ∧ ∃ new, Allocates d d' new ∧
        (Own d.backend (new ++ d.fileBlocks x.dataBlockNums (blockCount x.size)) →
          Extends d d' x.dataBlockNums nums' (blockCount x.size) (x.size / 1024 + 1) new ∧
            d'.fileBlock nums' (x.size / 1024) = blk ∧
            ∀ k < blockCount x.size, d'.blocks (d.fileBlock x.dataBlockNums k) =
              d.blocks (d.fileBlock x.dataBlockNums k)) := by
  have h1 : ¬ (x.size ≥ x.size ∧ (BmapMode.append = .read ∨ x.size > x.size)) := by simp
  by_cases hs : x.size % 1024 = 0
  · -- a new block
    have hcount : blockCount x.size = x.size / 1024 := by
      unfold blockCount
      omega
    obtain ⟨nums', changed, d', heq, hback, new, hnew, hgrown⟩ :=
      insertDataBlockInINode_grown (d := d.blockAlloc.2) hs hn d.blockAlloc_lt
    have hone : Allocates d d.blockAlloc.2 [d.blockAlloc.1] := by simp [Allocates]
    refine ⟨d.blockAlloc.1, nums', changed, d', ?_, by rw [hback, backend_blockAlloc], _,
      hone.trans hnew, fun hown => ?_⟩
    · rw [bmap, if_neg h1, if_pos ⟨rfl, hs, rfl⟩]
      simp only [heq, hs, bind, Except.bind]
    · rw [hcount] at hown ⊢
      have h2 : 2 ∉ d.indirectBlocks x.dataBlockNums (x.size / 1024) := fun hmem =>
        (hown.data 2 (List.mem_append_right _ (indirectBlocks_subset hmem))).2.1 rfl
      have hsame : ∀ b ∈ d.indirectBlocks x.dataBlockNums (x.size / 1024),
          d.blockAlloc.2.blocks b = d.blocks b := by
        intro b hb
        refine blocks_blockAlloc_of_ne _ ?_
        rintro rfl
        exact h2 hb
      have hfg := (hgrown (by
        rw [indirectBlocks_frame hsame, backend_blockAlloc]
        refine hown.mono fun b => ?_
        simp only [fileBlocks, List.count_append, List.count_cons, List.cons_append]
        omega)).of_blockAlloc h2 (by omega)
      refine ⟨hfg.extends, hfg.last, fun k hk => ?_⟩
      have hfile : Own d.backend (d.fileBlocks x.dataBlockNums (x.size / 1024)) :=
        hown.mono fun b => by
          rw [List.count_append]
          omega
      refine hfg.frame _ (hfile.data _ (mem_fileBlocks hk)).2.1 fun hcon => ?_
      rcases List.mem_append.mp hcon with hcon | hcon
      · exact (List.nodup_append.mp hown.nodup).2.2 _ (List.mem_cons_of_mem _ hcon) _
          (mem_fileBlocks hk) rfl
      · exact fileBlock_notMem hfile hk hcon
  · -- the last block has room
    have hcount : blockCount x.size = x.size / 1024 + 1 := by
      unfold blockCount
      omega
    obtain ⟨blk, hblk⟩ := lookupBlock_ok d x hn
    refine ⟨blk, x.dataBlockNums, x.inodeChanged, d, ?_, rfl, [], Allocates.refl d, fun hown => ?_⟩
    · rw [bmap, if_neg h1, if_neg (fun h => hs h.2.1), hblk]
      rfl
    · have hlook := lookupBlock_eq (d := d) (x := x) (n := blockCount x.size) x.size
        (by omega) (by omega) fun b hb =>
          (hown.data b (List.mem_append_right _ (indirectBlocks_subset hb))).2.2
      rw [hblk] at hlook
      cases hlook
      rw [← hcount]
      exact ⟨Extends.refl d _ _, rfl, fun _ _ => rfl⟩

/-- The number of blocks that `bmap` needs at the end of a file. -/
def endNeeds (size : Nat) : Nat := if size % 1024 = 0 then newIndirect (size / 1024) + 1 else 0

/-- They are the first of the free list. -/
theorem bmap_end_freeBlocks {l : List Nat} (hn : x.size / 1024 < maxBlocks)
    (hcap : 2 < d.backend.capacity) (hfree : FreeBlocks d l)
    (hown : Own d.backend (l ++ d.fileBlocks x.dataBlockNums (blockCount x.size)))
    (hlen : endNeeds x.size ≤ l.length) {r : Int × BmapResponse × InCoreINode × Disk}
    (h : d.bmap x x.size resp .append = .ok r) :
    Allocates d r.2.2.2 (l.take (endNeeds x.size)) ∧
      FreeBlocks r.2.2.2 (l.drop (endNeeds x.size)) := by
  have h1 : ¬ (x.size ≥ x.size ∧ (BmapMode.append = .read ∨ x.size > x.size)) := by simp
  by_cases hs : x.size % 1024 = 0
  · have hcount : blockCount x.size = x.size / 1024 := by
      unfold blockCount
      omega
    rw [endNeeds, if_pos hs] at hlen ⊢
    obtain ⟨c, l, rfl⟩ : ∃ c l', l = c :: l' := List.exists_cons_of_length_pos (by omega)
    have h2l : 2 ∉ c :: l := fun hm => (hown.data 2 (List.mem_append_left _ hm)).2.1 rfl
    obtain ⟨hc, hfree₁⟩ := blockAlloc_cons hcap hfree h2l
    obtain ⟨nums', changed, d', heq, -⟩ :=
      insertDataBlockInINode_eq d.blockAlloc.2 d.blockAlloc.1 hs hn
    rw [bmap, if_neg h1, if_pos ⟨rfl, hs, rfl⟩] at h
    simp only [heq, bind, Except.bind] at h
    cases h
    have hsame : ∀ b ∈ d.indirectBlocks x.dataBlockNums (x.size / 1024),
        d.blockAlloc.2.blocks b = d.blocks b := by
      intro b hb
      refine blocks_blockAlloc_of_ne _ ?_
      rintro rfl
      rw [hcount] at hown
      exact (hown.data 2 (List.mem_append_right _ (indirectBlocks_subset hb))).2.1 rfl
    obtain ⟨h3, h4⟩ := insertDataBlockInINode_freeBlocks (d := d.blockAlloc.2) hs hn
      (by simpa using hcap) hfree₁ (by
        rw [indirectBlocks_frame hsame, backend_blockAlloc]
        refine hown.mono fun b => ?_
        simp only [hcount, fileBlocks, List.count_append, List.count_cons, List.cons_append]
        omega) (by simpa using hlen) heq
    have hone : Allocates d d.blockAlloc.2 [c] := by simp [Allocates, hc]
    exact ⟨hone.trans h3, h4⟩
  · rw [endNeeds, if_neg hs, List.take_zero, List.drop_zero]
    obtain ⟨blk, hblk⟩ := lookupBlock_ok d x hn
    rw [bmap, if_neg h1, if_neg (fun h => hs h.2.1), hblk] at h
    cases h
    exact ⟨Allocates.refl d, hfree⟩

end Bmap

end Disk

end Naofs
