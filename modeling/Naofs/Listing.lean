import Naofs.Entries

/-!
# Naofs.Listing

Collecting the entries of a directory: `searchINodeDirectoryEntries` without a name and
`fillDirectoryEntries` (`read.c`).

A search without a name stores all entries from the first one it was asked for to the end of
their block, and goes on at the same position of the next block.  `collectLaw_iff` says for
which requests these are the entries that were asked for.  `fillDirectoryEntries` asks for one
block at a time and gets all of them (`fillDirectoryEntries_exact`).
-/

namespace Naofs

namespace Disk

open Function (update)

section Collect

variable {d : Disk} {x : InCoreINode} {env : Env} {buf : Nat → DirectoryEntry} {k n t : Nat}

/-- The buffer after `c` entries from entry `k` on were stored at position `t`. -/
def stored (d : Disk) (nums : Buffer Nat blocksInInode) (buf : Nat → DirectoryEntry) (t k c : Nat) :
    Nat → DirectoryEntry :=
  fun i => if t ≤ i ∧ i < t + c then (buf i).overlay (d.entryAt nums (k + (i - t))) else buf i

/-- Entries that are stored in two batches. -/
theorem stored_stored (nums : Buffer Nat blocksInInode) (c c' : Nat) :
    d.stored nums (d.stored nums buf t k c) (t + c) (k + c) c' = d.stored nums buf t k (c + c') := by
  funext i
  unfold stored
  by_cases h : t + c ≤ i ∧ i < t + c + c'
  · rw [if_pos h, if_neg (by omega), if_pos (by omega), show k + c + (i - (t + c)) = k + (i - t) by
      omega]
  · rw [if_neg h]
    by_cases h' : t ≤ i ∧ i < t + c
    · rw [if_pos h', if_pos (by omega)]
    · rw [if_neg h', if_neg (by omega)]

theorem stored_zero (nums : Buffer Nat blocksInInode) : d.stored nums buf t k 0 = buf := by
  funext i
  exact if_neg (by omega)

/-- A round stores what is left of the block. -/
theorem collect_round (resp : BmapResponse) (fuel : Nat) (h : DirectoryFile d x)
    (hk : k < entryCount x) (hmore : t < n) (buf : Nat → DirectoryEntry) :
    ∃ resp', searchINodeLoop x none n none (fuel + 1) d (64 * k) t resp buf =
      searchINodeLoop x none n none fuel d (64 * (k + 16)) (t + batch (entryCount x) k) resp'
        (d.stored x.dataBlockNums buf t k (batch (entryCount x) k)) := by
  have hblock := searchBlockLoop_collect none (d.blocks (d.fileBlock x.dataBlockNums (k / 16)))
    (batch (entryCount x) k) (64 * (k % 16)) 0 (fun i => buf (t + i)) (batch_le _ _)
  obtain ⟨resp', heq⟩ := searchINodeLoop_round resp fuel h hk (.inr hmore) hblock
  refine ⟨resp', heq.trans ?_⟩
  rw [if_neg (by simp)]
  simp only [Nat.zero_add, storedBack]
  refine congrArg _ (funext fun i => ?_)
  by_cases hi : i < t
  · rw [if_pos hi, stored, if_neg (by omega)]
  · rw [if_neg hi, stored, Nat.add_sub_cancel' (by omega)]
    by_cases hin : i - t < batch (entryCount x) k
    · rw [if_pos ⟨by omega, hin⟩, if_pos (by omega)]
      exact congrArg _ (decode_batch d x.dataBlockNums hin)
    · rw [if_neg (by omega), if_neg (by omega)]

/-- The loop ends when enough was stored. -/
theorem collect_enough (resp : BmapResponse) (fuel off : Nat) (h : n ≤ t) :
    searchINodeLoop x none n none (fuel + 1) d off t resp buf = .ok (t, buf, d) := by
  rw [searchINodeLoop, if_neg]
  simp
  omega

/-- From the start of a block on, whole blocks are stored until there are enough of them. -/
theorem collect_aligned (n : Nat) (h : DirectoryFile d x) : ∀ (fuel k t : Nat)
    (resp : BmapResponse) (buf : Nat → DirectoryEntry), k % 16 = 0 → entryCount x - k < fuel →
    searchINodeLoop x none n none fuel d (64 * k) t resp buf =
      .ok (t + min (16 * ((n - t + 15) / 16)) (entryCount x - k),
        d.stored x.dataBlockNums buf t k (min (16 * ((n - t + 15) / 16)) (entryCount x - k)), d) := by
  intro fuel
  induction fuel with
  | zero =>
      intro k t resp buf _ hfuel
      omega
  | succ fuel ih =>
      intro k t resp buf hk hfuel
      by_cases hmore : t < n
      · by_cases hlt : k < entryCount x
        · obtain ⟨resp', heq⟩ := collect_round resp fuel h hlt hmore buf
          have hbatch : batch (entryCount x) k = min 16 (entryCount x - k) := by
            unfold batch
            omega
          rw [heq, ih (k + 16) _ resp' _ (by omega) (by omega), hbatch]
          have htotal : min 16 (entryCount x - k) +
              min (16 * ((n - (t + min 16 (entryCount x - k)) + 15) / 16)) (entryCount x - (k + 16)) =
              min (16 * ((n - t + 15) / 16)) (entryCount x - k) := by omega
          rw [Nat.add_assoc, htotal]
          by_cases hfull : 16 ≤ entryCount x - k
          · rw [Nat.min_eq_left hfull] at htotal ⊢
            rw [stored_stored, htotal]
          · rw [show entryCount x - (k + 16) = 0 by omega, Nat.min_zero, stored_zero]
            rw [show entryCount x - (k + 16) = 0 by omega, Nat.min_zero, Nat.add_zero] at htotal
            rw [htotal]
        · rw [searchINodeLoop_past h (by omega), show entryCount x - k = 0 by omega, Nat.min_zero,
            stored_zero, Nat.add_zero]
      · rw [collect_enough resp fuel _ (by omega), show n - t = 0 by omega]
        simp only [Nat.zero_add, Nat.reduceDiv, Nat.mul_zero, Nat.zero_min, Nat.add_zero, stored_zero]

/-- What is stored stays, and the count does not go back. -/
theorem collect_keeps (h : DirectoryFile d x) : ∀ (fuel k t : Nat) (resp : BmapResponse)
    (buf : Nat → DirectoryEntry) {r : Nat × (Nat → DirectoryEntry) × Disk},
    searchINodeLoop x none n none fuel d (64 * k) t resp buf = .ok r →
    t ≤ r.1 ∧ ∀ i < t, r.2.1 i = buf i := by
  intro fuel
  induction fuel with
  | zero =>
      intro k t resp buf r hr
      cases hr
  | succ fuel ih =>
      intro k t resp buf r hr
      by_cases hmore : t < n
      · by_cases hlt : k < entryCount x
        · obtain ⟨resp', heq⟩ := collect_round resp fuel h hlt hmore buf
          obtain ⟨hle, hkeep⟩ := ih _ _ _ _ (heq.symm.trans hr)
          refine ⟨by omega, fun i hi => (hkeep i (by omega)).trans ?_⟩
          exact if_neg (by omega)
        · rw [searchINodeLoop_past h (by omega)] at hr
          cases hr
          exact ⟨Nat.le_refl t, fun _ _ => rfl⟩
      · rw [collect_enough resp fuel _ (by omega)] at hr
        cases hr
        exact ⟨Nat.le_refl t, fun _ _ => rfl⟩

/-! ## What was asked for -/

/-- A search for `n` entries from entry `k` on returns their number and stores them, and
nothing else. -/
def CollectLaw (d : Disk) (env : Env) (x : InCoreINode) (k n : Nat) : Prop :=
  ∀ buf, ∃ buf', d.searchINodeDirectoryEntries env x none k buf n false =
      .ok ((min n (entryCount x - k) : Nat), buf', d) ∧
    (∀ i < min n (entryCount x - k), buf' i = (buf i).overlay (d.entryAt x.dataBlockNums (k + i))) ∧
    ∀ i, min n (entryCount x - k) ≤ i → buf' i = buf i

/-- The requests for which the blocks hold the entries that were asked for: a request that
ends with the block it starts in or with the directory, or one for whole blocks.  The offset
of the first entry is a 64-bit number. -/
def Collects (m k n : Nat) : Prop :=
  n = 0 ∨ m ≤ k % 2 ^ 58 ∨ k < 2 ^ 58 ∧ (n = 16 - k % 16 ∨
    m ≤ k + n ∧ (k % 16 = 0 ∨ m ≤ k + (16 - k % 16)) ∨ k % 16 = 0 ∧ n % 16 = 0)

instance (m k n : Nat) : Decidable (Collects m k n) :=
  inferInstanceAs (Decidable (_ ∨ _ ∨ _ ∧ (_ ∨ _ ∧ (_ ∨ _) ∨ _ ∧ _)))

/-- The start of the source is multiplied in a `size_t`. -/
theorem wrapSize_entries (k : Nat) : InCoreINode.wrapSize (k * (64 : Nat)) = 64 * (k % 2 ^ 58) := by
  unfold InCoreINode.wrapSize
  omega

/-- Collecting is a scan from the entry that the start stands for after the multiplication. -/
theorem search_collect (h : DirectoryFile d x) (env : Env) (buf : Nat → DirectoryEntry) {j : Nat}
    (hj : k % 2 ^ 58 = j) {r : Nat × (Nat → DirectoryEntry) × Disk}
    (hr : searchINodeLoop x none n none (x.size + 2) d (64 * j) 0 env.response buf = .ok r) :
    d.searchINodeDirectoryEntries env x none k buf n false = .ok (r.1, r.2.1, r.2.2) := by
  rw [← hj, ← wrapSize_entries] at hr
  rw [searchINodeDirectoryEntries, if_neg (by simp [h.searchable])]
  exact bind_eq_ok.mpr ⟨none, rfl, bind_eq_ok.mpr ⟨r, hr, rfl⟩⟩

/-- The law in terms of the count and the buffer. -/
theorem collectLaw_of_stored
    (h : ∀ buf, d.searchINodeDirectoryEntries env x none k buf n false =
      .ok ((min n (entryCount x - k) : Nat),
        d.stored x.dataBlockNums buf 0 k (min n (entryCount x - k)), d)) :
    CollectLaw d env x k n := by
  refine fun buf => ⟨_, h buf, fun i hi => ?_, fun i hi => ?_⟩
  · rw [stored, if_pos (by omega), Nat.sub_zero]
  · exact if_neg (by omega)

/-- A directory has far fewer entries than a `size_t` can count in bytes. -/
theorem entryCount_lt (h : DirectoryFile d x) : entryCount x < 2 ^ 58 := by
  have hsize := h.size
  have := size_eq h
  simp only [maxFileSize] at hsize
  omega

/-- A first block with all that is left to be stored. -/
theorem collect_once (env : Env) (h : DirectoryFile d x) (hk : k < entryCount x) (hn : 0 < n)
    (hdone : n ≤ batch (entryCount x) k ∨ entryCount x ≤ k + 16) (buf : Nat → DirectoryEntry) :
    searchINodeLoop x none n none (x.size + 2) d (64 * k) 0 env.response buf =
      .ok (batch (entryCount x) k, d.stored x.dataBlockNums buf 0 k (batch (entryCount x) k), d) := by
  obtain ⟨resp', heq⟩ := collect_round env.response (x.size + 1) h hk hn buf
  rw [heq, Nat.zero_add]
  rcases hdone with hdone | hdone
  · exact collect_enough resp' x.size _ hdone
  · exact searchINodeLoop_past h hdone

/-- The condition is enough. -/
theorem collectLaw_of_collects (h : DirectoryFile d x) (env : Env)
    (hc : Collects (entryCount x) k n) : CollectLaw d env x k n := by
  have hcount := entryCount_lt h
  refine collectLaw_of_stored fun buf => ?_
  by_cases hn : n = 0
  · subst hn
    rw [Nat.zero_min, stored_zero]
    exact search_collect h env buf rfl (collect_enough _ _ _ (Nat.le_refl 0))
  by_cases hpast : entryCount x ≤ k % 2 ^ 58
  · rw [show entryCount x - k = 0 by omega, Nat.min_zero, stored_zero]
    exact search_collect h env buf rfl (searchINodeLoop_past h hpast)
  obtain ⟨hk, hc⟩ := (hc.resolve_left hn).resolve_left hpast
  have hmod : k % 2 ^ 58 = k := Nat.mod_eq_of_lt hk
  rw [hmod] at hpast
  by_cases hal : k % 16 = 0 ∧ (n % 16 = 0 ∨ entryCount x ≤ k + n)
  · have hrun := collect_aligned n h (x.size + 2) k 0 env.response buf hal.1
      (by have := entryCount_le x; omega)
    rw [show min (16 * ((n - 0 + 15) / 16)) (entryCount x - k) = min n (entryCount x - k) by omega,
      Nat.zero_add] at hrun
    exact search_collect h env buf hmod hrun
  · have hbatch : batch (entryCount x) k = min n (entryCount x - k) := by
      unfold batch
      omega
    have hrun := collect_once env h (n := n) (show k < entryCount x by omega) (by omega) (by omega) buf
    rw [hbatch] at hrun
    exact search_collect h env buf hmod hrun

/-- A search that returns has run the loop. -/
theorem exists_collect (h : DirectoryFile d x) {j : Nat} (hj : k % 2 ^ 58 = j)
    {s : Int × (Nat → DirectoryEntry) × Disk}
    (hs : d.searchINodeDirectoryEntries env x none k buf n false = .ok s) :
    ∃ r, searchINodeLoop x none n none (x.size + 2) d (64 * j) 0 env.response buf = .ok r ∧
      s = ((r.1 : Int), r.2.1, r.2.2) := by
  rw [searchINodeDirectoryEntries, if_neg (by simp [h.searchable])] at hs
  obtain ⟨last, hlast, hs⟩ := bind_eq_ok.mp hs
  cases hlast
  obtain ⟨r, hr, hs⟩ := bind_eq_ok.mp hs
  cases hs
  rw [← hj, ← wrapSize_entries]
  exact ⟨r, hr, rfl⟩

/-- Past the middle of a block, the second round leaves entries out. -/
theorem collect_skips (h : DirectoryFile d x) {r : Nat × (Nat → DirectoryEntry) × Disk}
    (hlt : batch (entryCount x) k < n) (hk : k + 16 < entryCount x)
    (hr : searchINodeLoop x none n none (x.size + 2) d (64 * k) 0 env.response buf = .ok r) :
    batch (entryCount x) k < r.1 ∧ r.2.1 (batch (entryCount x) k) =
      (buf (batch (entryCount x) k)).overlay (d.entryAt x.dataBlockNums (k + 16)) := by
  obtain ⟨resp₁, heq₁⟩ := collect_round env.response (x.size + 1) h (n := n)
    (show k < entryCount x by omega) (show 0 < n by omega) buf
  rw [Nat.zero_add] at heq₁
  obtain ⟨resp₂, heq₂⟩ := collect_round resp₁ x.size h hk hlt
    (d.stored x.dataBlockNums buf 0 k (batch (entryCount x) k))
  have hpos : 0 < batch (entryCount x) (k + 16) := by
    unfold batch
    omega
  obtain ⟨hle, hkeep⟩ := collect_keeps h _ _ _ _ _ ((heq₁.trans heq₂).symm.trans hr)
  refine ⟨by omega, (hkeep _ (by omega)).trans ?_⟩
  rw [stored, if_pos (by omega), Nat.sub_self, Nat.add_zero, stored, if_neg (by omega)]

/-- The condition is needed, where entries are different. -/
theorem collects_of_collectLaw (h : DirectoryFile d x) (hdistinct : (d.entries x).Nodup)
    (hlaw : CollectLaw d env x k n) : Collects (entryCount x) k n := by
  by_contra hnot
  have hcount := entryCount_lt h
  obtain ⟨buf', hs, hin, -⟩ := hlaw fun _ => FS.emptyEntry
  obtain ⟨j, hj⟩ : ∃ j, k % 2 ^ 58 = j := ⟨_, rfl⟩
  obtain ⟨r, hr, hsr⟩ := exists_collect h hj hs
  rw [Prod.mk.injEq, Prod.mk.injEq, Int.natCast_inj] at hsr
  obtain ⟨hret, hbuf, -⟩ := hsr
  rw [Collects, hj] at hnot
  have hpos : 0 < batch (entryCount x) j := by
    unfold batch
    omega
  by_cases honce : n ≤ batch (entryCount x) j ∨ entryCount x ≤ j + 16
  · rw [collect_once env h (by omega) (by omega) honce] at hr
    cases hr
    unfold batch at hret hpos
    simp only at hret
    omega
  by_cases hal : j % 16 = 0
  · rw [collect_aligned n h _ _ _ _ _ hal (by have := entryCount_le x; omega)] at hr
    cases hr
    simp only at hret
    omega
  · obtain ⟨hmore, hnext⟩ := collect_skips h (by omega) (by omega) hr
    have hc : batch (entryCount x) j = 16 - j % 16 := by
      unfold batch
      omega
    rw [← hbuf, hin _ (by omega)] at hnext
    have heq := entryAt_injective hdistinct (by omega) (by omega)
      (DirectoryEntry.overlay_injective hnext)
    omega

/-- **What a search without a name stores.**  The law holds for the requests that fit the
blocks, and where all entries are different it holds for no others. -/
theorem collectLaw_iff (h : DirectoryFile d x) (env : Env) (k n : Nat) :
    (Collects (entryCount x) k n → CollectLaw d env x k n) ∧
      ((d.entries x).Nodup → CollectLaw d env x k n → Collects (entryCount x) k n) :=
  ⟨collectLaw_of_collects h env, collects_of_collectLaw h⟩

/-- A directory in one block. -/
theorem directoryFile_oneBlock {d : Disk} (hcap : 16388 < d.backend.capacity) {size : Nat}
    (h0 : 0 < size) (hsize : size ≤ 1024) (hwhole : size % 64 = 0) :
    DirectoryFile d (FS.oneBlockDirectory size 16388) where
  own := by
    have hblock : d.fileBlocks (FS.oneBlockDirectory size 16388).dataBlockNums
        (blockCount (FS.oneBlockDirectory size 16388).size) = [16388] := by
      rw [show (FS.oneBlockDirectory size 16388).size = size from rfl, blockCount_of_le h0 hsize,
        fileBlocks_one, fileBlock, if_pos (by decide)]
      rfl
    rw [hblock]
    exact ⟨List.nodup_singleton _, by simpa using hcap⟩
  size := Nat.le_trans hsize (by decide)
  searchable := show sIsdir InCoreINode.sIfdir = true by decide
  whole := hwhole

/-- A disk in memory with the entry `a` of inode 7 in every block. -/
def oneEntryDisk : Disk where
  backend := ⟨false, 8, Backend.eight_lt, .tabulate fun _ => 0⟩
  blocks := fun _ => DirectoryEntry.put (.tabulate fun _ => 0) 0 (fun i => if i = 0 then 0x61 else 0) 7
  trace := []

/-- A directory in one block. -/
theorem directoryFile_oneEntryDisk {size : Nat} (h0 : 0 < size) (hsize : size ≤ 1024)
    (hwhole : size % 64 = 0) : DirectoryFile oneEntryDisk (FS.oneBlockDirectory size 16388) :=
  directoryFile_oneBlock (show 16388 < oneEntryDisk.backend.capacity by decide) h0 hsize hwhole

/-- A request for a whole block of entries is met. -/
theorem collectLaw_whole_block : ∃ d x, DirectoryFile d x ∧ entryCount x = 3 ∧
    CollectLaw d FS.blankEnv x 0 16 := by
  have h := directoryFile_oneEntryDisk (show 0 < 192 by decide) (by decide) (by decide)
  exact ⟨_, _, h, rfl, (collectLaw_iff h _ 0 16).1 (by decide)⟩

/-- Asked for one entry of a directory with three, the search stores three. -/
theorem collect_past_request : ¬ ∀ (d : Disk) (env : Env) (x : InCoreINode) (k n : Nat),
    DirectoryFile d x → CollectLaw d env x k n := by
  intro hall
  have h := directoryFile_oneEntryDisk (show 0 < 192 by decide) (by decide) (by decide)
  obtain ⟨buf', hs, -⟩ := hall _ FS.blankEnv _ 0 1 h fun _ => FS.emptyEntry
  obtain ⟨r, hr, hsr⟩ := exists_collect (j := 0) h rfl hs
  rw [collect_aligned 1 h _ 0 _ _ _ rfl (by decide)] at hr
  cases hr
  have hret : ((1 : Nat) : Int) = (3 : Nat) := congrArg Prod.fst hsr
  exact absurd hret (by decide)

end Collect

end Disk

/-! ## Listing a directory -/

namespace FS

open InCoreINode (wrapSize)

variable {env : Env} {fs : FS} {node : NodeId}

/-- A search in the directory of a node changes the disk alone. -/
theorem searchINodeDirectoryEntries_ok {name : Option Name} {offset n : Nat} {forUnlink : Bool}
    {buf : Nat → DirectoryEntry} {r : Int × (Nat → DirectoryEntry) × Disk}
    (h : fs.disk.searchINodeDirectoryEntries env (fs.inode node) name offset buf n forUnlink = .ok r) :
    searchINodeDirectoryEntries env node name offset buf n forUnlink fs =
      .ok ((r.1, r.2.1), { fs with disk := r.2.2 }) := by
  simp only [searchINodeDirectoryEntries, h, bind, Except.bind]

/-- One block of entries is read in each round. -/
theorem fillDirectoryLoop_eq (h : DirectoryFile fs.disk (fs.inode node)) : ∀ (fuel offset : Nat)
    (filled : List DirectoryEntry), offset % 16 = 0 ∨ Disk.entryCount (fs.inode node) ≤ offset →
    Disk.entryCount (fs.inode node) - offset < fuel →
    fillDirectoryLoop env node (Disk.entryCount (fs.inode node)) fuel offset filled fs =
      .ok (filled ++ (List.range (Disk.entryCount (fs.inode node) - offset)).map
        fun i => fs.disk.entryAt (fs.inode node).dataBlockNums (offset + i), fs) := by
  intro fuel
  induction fuel with
  | zero =>
      intro offset filled _ hfuel
      omega
  | succ fuel ih =>
      intro offset filled hoff hfuel
      rw [fillDirectoryLoop]
      split
      · next hlt =>
          obtain ⟨buf, hs, hin, -⟩ := Disk.collectLaw_of_collects (k := offset) (n := 16) h env
            (.inr (.inr ⟨by have := Disk.entryCount_lt h; omega, .inr (.inr ⟨by omega, rfl⟩)⟩))
            fun _ => emptyEntry
          generalize hm : min 16 (Disk.entryCount (fs.inode node) - offset) = c at hs hin
          have hread : wrapSize (c : Nat) = c := InCoreINode.wrapSize_natCast (by omega)
          have hmap : (List.range c).map buf =
              (List.range c).map fun i => fs.disk.entryAt (fs.inode node).dataBlockNums (offset + i) :=
            List.map_congr_left fun i hi => (hin i (List.mem_range.mp hi)).trans
              (DirectoryEntry.overlay_of_lt (by decide) _)
          refine NaoM.bind_eq_ok.mpr ⟨_, _, searchINodeDirectoryEntries_ok hs, ?_⟩
          simp only [hread]
          rw [if_neg (by simp; omega), ih (offset + c) _ (by omega) (by omega), hmap, List.append_assoc]
          have hsplit : Disk.entryCount (fs.inode node) - offset =
              c + (Disk.entryCount (fs.inode node) - (offset + c)) := by omega
          rw [hsplit, List.range_add, List.map_append, List.map_map]
          refine congrArg Except.ok (congrArg₂ Prod.mk (congrArg _ (congrArg _ ?_)) rfl)
          exact List.map_congr_left fun i _ => congrArg _ (Nat.add_assoc offset c i)
      · next hlt =>
          rw [show Disk.entryCount (fs.inode node) - offset = 0 by omega]
          simp
          rfl

/-- **A directory is listed exactly**: every entry once, in the order of the directory. -/
theorem fillDirectoryEntries_exact (h : DirectoryFile fs.disk (fs.inode node)) (env : Env) :
    fillDirectoryEntries env node fs = .ok (fs.disk.entries (fs.inode node), fs) := by
  refine (fillDirectoryLoop_eq h _ 0 [] (.inl rfl) (Nat.lt_succ_self _)).trans ?_
  simp [Disk.entries]

/-- A directory of three entries is listed. -/
theorem fillDirectoryEntries_exact_three : ∃ fs : FS, (fs.inode 0).size = 192 ∧
    ∃ filled, fillDirectoryEntries blankEnv 0 fs = .ok (filled, fs) ∧ filled.length = 3 := by
  obtain ⟨fs, hdisk, hinode, -⟩ := exists_open (oneBlockDirectory 192 16388) Disk.oneEntryDisk
  have h := Disk.directoryFile_oneEntryDisk (show 0 < 192 by decide) (by decide) (by decide)
  rw [← hdisk, ← hinode] at h
  refine ⟨fs, by rw [hinode]; rfl, _, fillDirectoryEntries_exact h blankEnv, ?_⟩
  rw [Disk.length_entries, hinode]
  rfl

end FS

end Naofs
