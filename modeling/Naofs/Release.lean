import Naofs.Append

/-!
# Naofs.Release

Giving blocks back: `inodeBlocksFree` (`free.c`), which frees a whole file by a
recursion over its trees driven by the number of bytes left, and
`freeDataBlockInINode` (`incoreInodeOps/iNodeManager.c`), which frees the last
data block and the indirect blocks that go with it.

`inodeBlocksFree_spec` says that the recursion frees the blocks of the file, each
once, although it shares nothing with the code that built the trees.
-/

namespace Naofs

namespace Disk

/-! ## The source functions -/

def diskBlockFree : (recursionLevel : Nat) → Disk → (diskBlockNumber : Nat) → (leftSize : Int) →
    Disk × Int
  | 0, d, diskBlockNumber, leftSize => (d.blockFree diskBlockNumber, leftSize - blockSize)
  | recursionLevel + 1, d, diskBlockNumber, leftSize =>
      let diskBlocks := makeFreeDiskListBlock (d.load diskBlockNumber d.backend.junk)
      let (d, leftSize) := (List.range blockAddressesPerBlock).foldl
        (fun (s : Disk × Int) i =>
          if s.2 > 0 then diskBlockFree recursionLevel s.1 (diskBlocks.peek i) s.2 else s)
        (d, leftSize)
      (d.blockFree diskBlockNumber, leftSize)

/-- The state of the two loops of `inodeBlocksFree`. -/
structure FreeState where
  disk : Disk
  dataBlockNums : Buffer Nat blocksInInode
  leftSize : Int

def FreeState.freeDirect (s : FreeState) (i : Nat) : FreeState :=
  if s.leftSize > 0 then
    ⟨s.disk.blockFree (s.dataBlockNums.peek i), s.dataBlockNums.poke i 0, s.leftSize - blockSize⟩
  else s

def FreeState.freeTree (s : FreeState) (i : Nat) : FreeState :=
  if s.leftSize > 0 then
    let (disk, leftSize) := diskBlockFree (i + 1) s.disk
      (s.dataBlockNums.peek (directBlockLimit + 1 + i)) s.leftSize
    ⟨disk, s.dataBlockNums.poke (directBlockLimit + 1 + i) 0, leftSize⟩
  else s

/-- `inodeBlocksFree`; there are three trees. -/
def inodeBlocksFree (d : Disk) (inode : InCoreINode) : Except Fault (InCoreINode × Disk) :=
  let s := (List.range (directBlockLimit + 1)).foldl FreeState.freeDirect
    ⟨d, inode.dataBlockNums, inode.size⟩
  let s := (List.range 3).foldl FreeState.freeTree s
  if s.leftSize > 0 then .error .outOfBounds
  else .ok ({ inode with dataBlockNums := s.dataBlockNums }, s.disk)

def freeNeeded (indirOffsets : List Nat) : Bool := indirOffsets.all (· == 0)

/-- The first loop of `freeNeededBlocks`: the blocks to be freed. -/
def blocksToBeFreed (d : Disk) : List Nat → (block : Nat) → DiskBlock → List Nat
  | [], _, _ => []
  | off :: offsets, block, dataBlock =>
      let dataBlock := d.load block dataBlock
      let rest := d.blocksToBeFreed offsets ((makeFreeDiskListBlock dataBlock).peek off) dataBlock
      if freeNeeded (off :: offsets) then block :: rest else rest

def freeNeededBlocks (d : Disk) (iNode : InCoreINode) (blockNumToRemove : Nat)
    (blkOffset : BlkTreeOffset) : Disk :=
  let d := d.blockFree blockNumToRemove
  if blkOffset.offsetIndirection = .direct then d
  else
    let blockIndex := directBlockLimit + blkOffset.offsetIndirection.toNat
    (d.blocksToBeFreed blkOffset.below (iNode.dataBlockNums.peek blockIndex)
      d.backend.junk).foldl blockFree d

def freeDataBlockInINode (d : Disk) (iNode : InCoreINode) (blockNumToRemove : Nat) :
    Except Fault Disk :=
  let d := d.log (.release iNode.size)
  match calculateOffset iNode.size with
  | none => .error .uninitialised
  | some blkOffset => .ok (d.freeNeededBlocks iNode blockNumToRemove blkOffset)

/-! ## Freeing trees -/

/-- `Frees d d' l`: the way from `d` to `d'` freed the blocks `l` in this order,
did nothing else that is recorded, and wrote only these and the free list. -/
structure Frees (d d' : Disk) (l : List Nat) : Prop where
  backend : d'.backend = d.backend
  trace : ∃ flags, d'.trace = d.trace ++ (l.zip flags).map (fun p => .free p.1 p.2) ∧
    flags.length = l.length
  frame : ∀ b, b ≠ 2 → b ∉ l → d'.blocks b = d.blocks b

section Frees

variable {d d' d'' : Disk} {l l' : List Nat}

theorem Frees.refl (d : Disk) : Frees d d [] :=
  ⟨rfl, ⟨[], by simp⟩, fun _ _ _ => rfl⟩

theorem Frees.trans (h : Frees d d' l) (h' : Frees d' d'' l') : Frees d d'' (l ++ l') where
  backend := h'.backend.trans h.backend
  trace := by
    obtain ⟨f, ht, hf⟩ := h.trace
    obtain ⟨f', ht', hf'⟩ := h'.trace
    refine ⟨f ++ f', ?_, by simp [hf, hf']⟩
    rw [ht', ht, List.zip_append hf.symm, List.map_append, List.append_assoc]
  frame := fun b hb2 hb => by
    simp only [List.mem_append, not_or] at hb
    rw [h'.frame b hb2 hb.2, h.frame b hb2 hb.1]

theorem Frees.one (d : Disk) (b : Nat) : Frees d (d.blockFree b) [b] :=
  ⟨by simp, ⟨[decide (d.Reusable b)], by simp⟩, fun c hc2 hcb =>
    d.blocks_blockFree_of_ne hc2 (by simpa using hcb)⟩

end Frees

/-- **Freeing a tree**: with `leftSize` bytes to go, which need `n` blocks, the
recursion frees as many leaves and the indirect blocks above them. -/
theorem diskBlockFree_spec {L : Nat} : ∀ {d : Disk} {r n : Nat} {l : Int}, n ≠ 0 →
    1024 * (n : Int) - 1024 < l → l ≤ 1024 * (n : Int) →
    Own d.backend (Radix.postorder 128 d.child L r (min n (128 ^ L))) →
    Frees d (diskBlockFree L d r l).1 (Radix.postorder 128 d.child L r (min n (128 ^ L))) ∧
      (diskBlockFree L d r l).2 = l - 1024 * (min n (128 ^ L) : Nat) := by
  induction L with
  | zero =>
      intro d r n left hn hlo hhi hown
      have hmin : min n (128 ^ 0) = 1 := by
        rw [Nat.pow_zero]
        omega
      rw [hmin]
      refine ⟨?_, by simp [diskBlockFree]⟩
      simpa [Radix.postorder, diskBlockFree] using Frees.one d r
  | succ L ih =>
      intro d r n left hn hlo hhi hown
      have hpos : 0 < 128 ^ L := Nat.pow_pos (by omega)
      obtain ⟨C, hC⟩ : ∃ C, C = 128 ^ L := ⟨_, rfl⟩
      obtain ⟨M, hM⟩ : ∃ M, M = min n (128 ^ (L + 1)) := ⟨_, rfl⟩
      have hCM : 128 ^ (L + 1) = 128 * C := by rw [Nat.pow_succ, hC, Nat.mul_comm]
      rw [← hM] at hown ⊢
      rw [← hC] at hpos
      have hM0 : M ≠ 0 := by omega
      rw [Radix.postorder, if_neg hM0, ← hC] at hown ⊢
      have hrd := hown.data r (by simp)
      -- the blocks freed by the first `j` rounds
      obtain ⟨F, hF⟩ : ∃ F : Nat → List Nat, F = fun j => (List.range j).flatMap
        (fun i => Radix.postorder 128 d.child L (d.child r i) (min (M - i * C) C)) := ⟨_, rfl⟩
      have hFsucc : ∀ j, F (j + 1) = F j ++
          Radix.postorder 128 d.child L (d.child r j) (min (M - j * C) C) := by
        intro j
        simp only [hF, List.range_succ, List.flatMap_append, List.flatMap_singleton]
      have hF128 : (List.range 128).flatMap
          (fun i => Radix.postorder 128 d.child L (d.child r i) (min (M - i * C) C)) = F 128 := by
        rw [hF]
      rw [hF128] at hown ⊢
      have hmono : ∀ i j, i ≤ j → ∀ b, (F i).count b ≤ (F j).count b := by
        intro i j hij b
        induction hij with
        | refl => exact le_rfl
        | step _ ih =>
            rw [hFsucc, List.count_append]
            omega
      have hloop : ∀ j ≤ 128, ∃ dj : Disk, (List.range j).foldl (fun (s : Disk × Int) i =>
            if s.2 > 0 then diskBlockFree L s.1
              ((makeFreeDiskListBlock (d.load r d.backend.junk)).peek i) s.2 else s) (d, left) =
            (dj, left - 1024 * (min M (j * C) : Nat)) ∧ Frees d dj (F j) := by
        intro j
        induction j with
        | zero => exact fun _ => ⟨d, by simp, by simpa [hF] using Frees.refl d⟩
        | succ j ihj =>
            intro hj
            obtain ⟨dj, hfold, hfrees⟩ := ihj (by omega)
            rw [List.range_succ, List.foldl_append, hfold]
            simp only [List.foldl_cons, List.foldl_nil]
            have hsucc : (j + 1) * C = j * C + C := Nat.succ_mul j C
            have hjC : j * C + C ≤ 128 * C := hsucc ▸ Nat.mul_le_mul_right C hj
            by_cases hlt : j * C < M
            · -- the trees still to be freed are as they were
              have hsame : ∀ b ∈ Radix.postorder 128 d.child L (d.child r j) (min (M - j * C) C),
                  dj.blocks b = d.blocks b := by
                intro b hb
                have h1 := List.nodup_iff_count_le_one.mp hown.nodup b
                have h2 := hmono (j + 1) 128 hj b
                have h3 := List.count_pos_iff.mpr hb
                rw [hFsucc, List.count_append] at h2
                rw [List.count_append] at h1
                refine hfrees.frame b (hown.data b ?_).2.1 fun hcon => ?_
                · rw [← List.count_pos_iff, List.count_append]
                  omega
                · have := List.count_pos_iff.mpr hcon
                  omega
              have hle : min (M - j * C) C ≤ 128 ^ L := hC ▸ Nat.min_le_right _ _
              have hcongr : Radix.postorder 128 dj.child L (d.child r j) (min (M - j * C) C) =
                  Radix.postorder 128 d.child L (d.child r j) (min (M - j * C) C) := by
                refine Radix.postorder_congr (by omega) hle fun b hb => child_congr (hsame b ?_)
                rw [(Radix.postorder_perm (by omega) hle).mem_iff]
                exact List.mem_append_right _ hb
              have hmin : min (n - j * C) (128 ^ L) = min (M - j * C) C := by
                rw [← hC]
                omega
              obtain ⟨hfr, hleft⟩ := ih (d := dj) (r := d.child r j) (n := n - j * C)
                (l := left - 1024 * (min M (j * C) : Nat)) (by omega) (by omega) (by omega) (by
                  rw [hmin, hcongr, hfrees.backend]
                  refine hown.mono fun b => ?_
                  have := hmono (j + 1) 128 hj b
                  rw [hFsucc] at this
                  simp only [List.count_append] at this ⊢
                  omega)
              rw [hmin, hcongr] at hfr
              rw [hmin] at hleft
              rw [if_pos (by omega), load_of_lt _ hrd.2.2, peek_makeFreeDiskListBlock]
              refine ⟨_, Prod.ext rfl ?_, hFsucc j ▸ hfrees.trans hfr⟩
              rw [show slot (d.blocks r) j = d.child r j from rfl, hleft]
              simp only
              omega
            · refine ⟨dj, ?_, ?_⟩
              · rw [if_neg (by omega)]
                refine Prod.ext rfl ?_
                simp only
                omega
              · rw [hFsucc, show M - j * C = 0 by omega, Nat.zero_min, Radix.postorder_zero,
                  List.append_nil]
                exact hfrees
      obtain ⟨dj, hfold, hfrees⟩ := hloop 128 le_rfl
      have hres : diskBlockFree (L + 1) d r left =
          (dj.blockFree r, left - 1024 * (min M (128 * C) : Nat)) := by
        simp only [diskBlockFree, blockAddressesPerBlock, hfold]
      rw [hres]
      refine ⟨hfrees.trans (Frees.one dj r), ?_⟩
      rw [Nat.min_eq_left (by omega)]

/-! ## Freeing a file -/

section File

variable {d : Disk} {nums : Buffer Nat blocksInInode} {n : Nat}

/-- The leaves of the tree of level `L` in a file of `n` blocks. -/
def dataPart (d : Disk) (nums : Buffer Nat blocksInInode) (n L : Nat) : List Nat :=
  Radix.leaves 128 d.child L (nums.peek (9 + L)) (min (n - treeBase L) (128 ^ L))

/-- What `inodeBlocksFree` frees for the tree of level `L`. -/
def freedPart (d : Disk) (nums : Buffer Nat blocksInInode) (n L : Nat) : List Nat :=
  Radix.postorder 128 d.child L (nums.peek (9 + L)) (min (n - treeBase L) (128 ^ L))

/-- The data blocks, tree by tree. -/
theorem dataBlocks_perm (d : Disk) (nums : Buffer Nat blocksInInode) (hn : n ≤ maxBlocks) :
    ((List.range n).map (d.fileBlock nums)).Perm
      ((List.range (min n 10)).map nums.peek ++
        (d.dataPart nums n 1 ++ d.dataPart nums n 2 ++ d.dataPart nums n 3)) := by
  induction n with
  | zero => simp [dataPart, Radix.leaves]
  | succ n ih =>
      have hlt : n < maxBlocks := hn
      have hparts : ∀ L, (L = 1 ∨ L = 2 ∨ L = 3) → d.dataPart nums (n + 1) L =
          d.dataPart nums n L ++ if L = treeLevel n then [d.fileBlock nums n] else [] := by
        intro L hL
        obtain ⟨hself, hother⟩ := treePart_size hlt hL
        by_cases h : L = treeLevel n
        · rw [if_pos h, dataPart, dataPart, (hself h).1, (hself h).2, Radix.leaves, Radix.leaves,
            List.range_succ, List.map_append, List.map_singleton, fileBlock, if_neg (by omega), ← h]
        · rw [if_neg h, dataPart, dataPart, hother h, List.append_nil]
      have hdirect : (List.range (min (n + 1) 10)).map nums.peek =
          (List.range (min n 10)).map nums.peek ++
            if treeLevel n = 0 then [d.fileBlock nums n] else [] := by
        by_cases h : treeLevel n = 0
        · have := treeLevel_eq_zero.mp h
          rw [if_pos h, fileBlock, if_pos h, Nat.min_eq_left (by omega),
            Nat.min_eq_left (by omega), List.range_succ, List.map_append, List.map_singleton]
        · have : 10 ≤ n := Nat.le_of_not_lt fun hcon => h (treeLevel_eq_zero.mpr hcon)
          rw [if_neg h, Nat.min_eq_right (by omega), Nat.min_eq_right (by omega), List.append_nil]
      have ih' := List.perm_iff_count.mp (ih (by omega))
      rw [hparts 1 (by simp), hparts 2 (by simp), hparts 3 (by simp), hdirect, List.range_succ,
        List.map_append, List.map_singleton, List.perm_iff_count]
      intro b
      have hb := ih' b
      have hlvl := treeLevel_le n
      simp only [List.count_append] at hb ⊢
      rcases (by omega : treeLevel n = 0 ∨ treeLevel n = 1 ∨ treeLevel n = 2 ∨ treeLevel n = 3)
        with h | h | h | h <;> simp only [h] <;> simp <;> omega

/-- The traversal meets exactly the blocks of the file. -/
theorem freed_perm (d : Disk) (nums : Buffer Nat blocksInInode) (hn : n ≤ maxBlocks) :
    ((List.range (min n 10)).map nums.peek ++
      (d.freedPart nums n 1 ++ d.freedPart nums n 2 ++ d.freedPart nums n 3)).Perm
      (d.fileBlocks nums n) := by
  have hpart : ∀ L, (d.freedPart nums n L).Perm (d.dataPart nums n L ++ d.treePart nums n L) := by
    intro L
    rw [freedPart, dataPart, treePart]
    exact Radix.postorder_perm (by omega) (Nat.min_le_right _ _)
  rw [fileBlocks, indirectBlocks, List.perm_iff_count]
  intro b
  have h0 := (dataBlocks_perm d nums hn).count_eq b
  have h1 := (hpart 1).count_eq b
  have h2 := (hpart 2).count_eq b
  have h3 := (hpart 3).count_eq b
  simp only [List.count_append] at *
  omega

/-- The loop over the blocks in the inode. -/
theorem freeDirect_loop (d : Disk) (nums : Buffer Nat blocksInInode) (size : Nat) :
    ∀ j, j ≤ 10 → ∃ s : FreeState,
      (List.range j).foldl FreeState.freeDirect ⟨d, nums, size⟩ = s ∧
        Frees d s.disk ((List.range (min (blockCount size) j)).map nums.peek) ∧
        (∀ i, j ≤ i → s.dataBlockNums.peek i = nums.peek i) ∧
        s.leftSize = size - 1024 * (min (blockCount size) j : Nat) := by
  intro j
  induction j with
  | zero => exact fun _ => ⟨_, rfl, by simpa using Frees.refl d, fun _ _ => rfl, by simp⟩
  | succ j ih =>
      intro hj
      obtain ⟨s, hs, hfrees, hnums, hleft⟩ := ih (by omega)
      rw [List.range_succ, List.foldl_append, hs]
      refine ⟨_, rfl, ?_⟩
      simp only [List.foldl_cons, List.foldl_nil, FreeState.freeDirect]
      by_cases hpos : s.leftSize > 0
      · have hlt : j < blockCount size := by
          unfold blockCount at hleft ⊢
          omega
        rw [if_pos hpos, Nat.min_eq_right hlt]
        rw [Nat.min_eq_right hlt.le] at hfrees hleft
        refine ⟨?_, fun i hi => ?_, by simp only [hleft, blockSize]; omega⟩
        · rw [List.range_succ, List.map_append, List.map_singleton, ← hnums j le_rfl]
          exact hfrees.trans (Frees.one _ _)
        · simp only
          rw [Buffer.peek_poke_of_ne _ (by omega), hnums i (by omega)]
      · have hle : blockCount size ≤ j := by
          unfold blockCount at hleft ⊢
          omega
        rw [if_neg hpos, Nat.min_eq_left (by omega)]
        rw [Nat.min_eq_left hle] at hfrees hleft
        exact ⟨hfrees, fun i hi => hnums i (by omega), hleft⟩

/-- One tree. -/
theorem freeTree_round (size : Nat) {s : FreeState} {F : List Nat} {i L : Nat} (hL : L = i + 1)
    (hF : Frees d s.disk F) (hown : Own d.backend (F ++ d.freedPart nums (blockCount size) L))
    (hnums : ∀ j, 9 + L ≤ j → s.dataBlockNums.peek j = nums.peek j)
    (hleft : s.leftSize = size - 1024 * (min (blockCount size) (treeBase L) : Nat)) :
    Frees d (s.freeTree i).disk (F ++ d.freedPart nums (blockCount size) L) ∧
      (∀ j, 9 + (L + 1) ≤ j → (s.freeTree i).dataBlockNums.peek j = nums.peek j) ∧
      (s.freeTree i).leftSize =
        size - 1024 * (min (blockCount size) (treeBase L + 128 ^ L) : Nat) := by
  obtain ⟨n, hn⟩ : ∃ n, n = blockCount size := ⟨_, rfl⟩
  obtain ⟨B, hB⟩ : ∃ B, B = treeBase L := ⟨_, rfl⟩
  obtain ⟨C, hC⟩ : ∃ C, C = 128 ^ L := ⟨_, rfl⟩
  have hsize : (n = 0 ∧ size = 0) ∨ (0 < n ∧ 1024 * n < size + 1024 ∧ size ≤ 1024 * n) := by
    rw [hn]
    unfold blockCount
    omega
  have hidx : directBlockLimit + 1 + i = 9 + L := by
    simp only [directBlockLimit]
    omega
  rw [← hn] at hown hleft ⊢
  rw [← hB] at hleft ⊢
  rw [← hC]
  simp only [FreeState.freeTree, hidx, ← hL]
  by_cases hlt : B < n
  · -- the tree is as it was: only other blocks have been freed
    have hsame : ∀ b ∈ d.freedPart nums n L, s.disk.blocks b = d.blocks b := by
      intro b hb
      refine hF.frame b (hown.data b (List.mem_append_right _ hb)).2.1 fun hcon => ?_
      exact (List.nodup_append.mp hown.nodup).2.2 b hcon b hb rfl
    have hcongr : Radix.postorder 128 s.disk.child L (nums.peek (9 + L)) (min (n - B) (128 ^ L)) =
        d.freedPart nums n L := by
      unfold freedPart at hsame ⊢
      rw [← hB] at hsame ⊢
      refine Radix.postorder_congr (by omega) (Nat.min_le_right _ _) fun b hb =>
        child_congr (hsame b ?_)
      rw [(Radix.postorder_perm (by omega) (Nat.min_le_right _ _)).mem_iff]
      exact List.mem_append_right _ hb
    obtain ⟨hfr, hl⟩ := diskBlockFree_spec (d := s.disk) (L := L) (r := nums.peek (9 + L))
      (n := n - B) (l := s.leftSize) (by omega) (by omega) (by omega) (by
        rw [hcongr, hF.backend]
        exact hown.mono fun b => by rw [List.count_append]; omega)
    rw [hcongr] at hfr
    rw [← hC] at hl
    rw [if_pos (by omega), hnums _ le_rfl]
    refine ⟨hF.trans hfr, fun j hj => ?_, ?_⟩
    · simp only
      rw [Buffer.peek_poke_of_ne _ (by omega), hnums j (by omega)]
    · simp only [hl]
      omega
  · have hnil : d.freedPart nums n L = [] := by
      rw [freedPart, ← hB, show n - B = 0 by omega, Nat.zero_min, Radix.postorder_zero]
    rw [if_neg (by omega), hnil, List.append_nil]
    refine ⟨hF, fun j hj => hnums j (by omega), ?_⟩
    rw [hleft]
    omega

/-- **Freeing a file** frees its blocks, each once. -/
theorem inodeBlocksFree_spec {x : InCoreINode} (hn : blockCount x.size ≤ maxBlocks)
    (hown : Own d.backend (d.fileBlocks x.dataBlockNums (blockCount x.size))) :
    ∃ nums' d' freed, d.inodeBlocksFree x = .ok ({ x with dataBlockNums := nums' }, d') ∧
      freed.Perm (d.fileBlocks x.dataBlockNums (blockCount x.size)) ∧ Frees d d' freed := by
  have hperm := freed_perm d x.dataBlockNums hn
  obtain ⟨s₀, hs₀, hF₀, hnums₀, hleft₀⟩ := freeDirect_loop d x.dataBlockNums x.size 10 le_rfl
  have hown' := hown.perm hperm
  obtain ⟨hF₁, hnums₁, hleft₁⟩ := freeTree_round x.size (i := 0) (L := 1) rfl hF₀
    (hown'.mono fun b => by simp only [List.count_append]; omega) hnums₀ hleft₀
  obtain ⟨hF₂, hnums₂, hleft₂⟩ := freeTree_round x.size (i := 1) (L := 2) rfl hF₁
    (hown'.mono fun b => by simp only [List.count_append]; omega) hnums₁ hleft₁
  obtain ⟨hF₃, -, hleft₃⟩ := freeTree_round x.size (i := 2) (L := 3) rfl hF₂
    (hown'.mono fun b => by simp only [List.count_append]; omega) hnums₂ hleft₂
  refine ⟨(((s₀.freeTree 0).freeTree 1).freeTree 2).dataBlockNums,
    (((s₀.freeTree 0).freeTree 1).freeTree 2).disk, _, ?_, hperm, ?_⟩
  · have hdone : ¬ (((s₀.freeTree 0).freeTree 1).freeTree 2).leftSize > 0 := by
      rw [hleft₃]
      simp only [maxBlocks] at hn
      simp only [treeBase]
      unfold blockCount at *
      omega
    have hloops : (List.range 3).foldl FreeState.freeTree s₀ =
        ((s₀.freeTree 0).freeTree 1).freeTree 2 := by
      simp only [List.range_succ, List.range_zero, List.nil_append, List.cons_append,
        List.foldl_cons, List.foldl_nil]
    simp only [inodeBlocksFree, directBlockLimit, hs₀, hloops, if_neg hdone]
  · simpa using hF₃

end File

end Disk

end Naofs
