import Naofs.Listing
import Naofs.Shrink

/-!
# Naofs.Removal

Removing an entry from a directory, as `unlinkFileFromINode` does: the search for the entry
puts the last one in its place, and then the directory is cut by the size of an entry.

`removeEntry_exact` says that the other entries stay, each once, and that a block is freed
exactly if the last entry was alone in it.
-/

namespace Naofs

namespace Disk

open DirectoryEntry (noINode)
open Function (update)
open FS (freed)
open InCoreINode (wrapSize)

section Last

variable {d : Disk} {x : InCoreINode} {env : Env} {name : Name}

/-- The buffer that the last entry is read into; it is reset for a directory with two entries. -/
def lastBuffer (x : InCoreINode) (entry : DirectoryEntry) : DirectoryEntry :=
  if x.size ≤ 2 * directoryEntrySize then { name := .tabulate fun _ => 0, iNodeNum := noINode } else entry

/-- The last entry is read to the buffer. -/
theorem getLastEntry_eq (h : DirectoryFile d x) (h0 : 0 < entryCount x) (env : Env)
    (entry : DirectoryEntry) : d.getLastEntry env x entry =
      .ok ((lastBuffer x entry).overlay (d.entryAt x.dataBlockNums (entryCount x - 1))) := by
  have hsize := size_eq h
  have hmax := h.size
  simp only [maxFileSize] at hmax
  have hoff : wrapSize ((x.size : Int) - directoryEntrySize) = 64 * (entryCount x - 1) := by
    rw [directoryEntrySize, InCoreINode.wrapSize_of_lt (by omega) (by omega)]
    omega
  unfold getLastEntry
  refine bind_eq_ok.mpr ⟨_, hoff ▸ bmap_entry h (by omega), ?_⟩
  simp only [createBMapResponse]
  rw [load_entry h (by omega), DirectoryEntry.read_eq _ _ (by omega), Nat.mul_comm 64]
  rfl

/-- A number that is stored in two bytes and is not the largest one is not taken for `-1`. -/
theorem overlay_ne_noINode (entry : DirectoryEntry) {e : DirectoryEntry} (h : e.iNodeNum < 65535) :
    (entry.overlay e).iNodeNum ≠ noINode := by
  simp only [DirectoryEntry.overlay, noINode]
  omega

/-- The search of an unlink, for a name that is not there. -/
theorem searchUnlink_absent (h : DirectoryFile d x) (h0 : 0 < entryCount x)
    (hne : ∀ i < entryCount x, d.matchAt x.dataBlockNums name i = .ok false)
    (env : Env) (buf : Nat → DirectoryEntry) (n : Nat) :
    d.searchINodeDirectoryEntries env x (some name) 0 buf n true = .ok (0, buf, d) :=
  searchINodeDirectoryEntries_eq h env _ buf n true _
    (by rw [if_pos rfl, getLastEntry_eq h h0]; rfl)
    (searchINodeLoop_absent h hne _ 0 _ rfl (by have := entryCount_le x; omega))

/-- The disk after the last entry took the place of entry `p`. -/
def filled (d : Disk) (x : InCoreINode) (p : Nat) : Disk :=
  d.store (d.fileBlock x.dataBlockNums (p / 16))
    (DirectoryEntry.put (d.blocks (d.fileBlock x.dataBlockNums (p / 16))) (64 * (p % 16))
      (d.entryAt x.dataBlockNums (entryCount x - 1)).name.peek
      (d.entryAt x.dataBlockNums (entryCount x - 1)).iNodeNum)

theorem iNodeNum_lt (d : Disk) (nums : Buffer Nat blocksInInode) (i : Nat) :
    (d.entryAt nums i).iNodeNum < 65536 := DirectoryEntry.iNodeNum_decode_lt _ _

/-- The name and the number are all that is written. -/
theorem put_overlay (b : DiskBlock) (offset : Nat) (entry : DirectoryEntry) {e : DirectoryEntry} :
    DirectoryEntry.put b offset (entry.overlay e).name.peek (entry.overlay e).iNodeNum =
      DirectoryEntry.put b offset e.name.peek e.iNodeNum := by
  simp only [DirectoryEntry.put, DirectoryEntry.overlay, Buffer.writeNat]
  refine Buffer.ext_peek fun j hj => ?_
  simp only [Buffer.peek_copyIn, inodeAddressSize]
  split
  · next hin =>
      have hk : j - (offset + filenameSize) < 2 := by omega
      generalize j - (offset + filenameSize) = k at hk
      simp only [Buffer.leByte]
      refine UInt8.toNat_inj.mp ?_
      simp only [UInt8.toNat_ofNat']
      obtain rfl | rfl : k = 0 ∨ k = 1 := by omega
      · omega
      · omega
  · rfl

/-- The search of an unlink finds the entry. -/
theorem searchUnlink_eq (h : DirectoryFile d x) {p : Nat} (hp : FirstMatch d x name p) (env : Env)
    (buf : Nat → DirectoryEntry) (n : Nat) :
    d.searchINodeDirectoryEntries env x (some name) 0 buf n true =
      .ok (1, update buf 0 ((buf 0).overlay (d.entryAt x.dataBlockNums p)),
        d.putLast x.dataBlockNums (some ((lastBuffer x env.entry).overlay
          (d.entryAt x.dataBlockNums (entryCount x - 1)))) p) := by
  have hlt := hp.lt
  have hfuel : p < x.size + 2 := by
    have := entryCount_le x
    omega
  have hlast : (if true = true then (d.getLastEntry env x env.entry).map some else .ok none) =
      .ok (some ((lastBuffer x env.entry).overlay (d.entryAt x.dataBlockNums (entryCount x - 1)))) := by
    rw [if_pos rfl, getLastEntry_eq h (Nat.zero_lt_of_lt hlt), Except.map]
  rw [searchINodeDirectoryEntries_eq h env (some name) buf n true _ hlast
    (searchINodeLoop_found h hp (x.size + 2) 0 env.response rfl (Nat.zero_le p) (by omega)),
    Nat.cast_one]

/-- It fills the place of the entry with the last one. -/
theorem searchUnlink_found (h : DirectoryFile d x)
    (hnum : ∀ e ∈ d.entries x, e.iNodeNum < 65535) {p : Nat} (hp : FirstMatch d x name p) (env : Env)
    (buf : Nat → DirectoryEntry) (n : Nat) :
    d.searchINodeDirectoryEntries env x (some name) 0 buf n true =
      .ok (1, update buf 0 ((buf 0).overlay (d.entryAt x.dataBlockNums p)), d.filled x p) := by
  have hlt := hp.lt
  have hlast : d.entryAt x.dataBlockNums (entryCount x - 1) ∈ d.entries x :=
    mem_entries.mpr ⟨_, by omega, rfl⟩
  refine (searchUnlink_eq h hp env buf n).trans
    (congrArg Except.ok (congrArg₂ Prod.mk rfl (congrArg₂ Prod.mk rfl ?_)))
  simp only [putLast, replaced, if_neg (overlay_ne_noINode _ (hnum _ hlast)), filled, put_overlay]

end Last

/-! ## Cutting the last entry -/

section Cut

variable {d d' : Disk} {x y : InCoreINode}

/-- The last data block and the indirect blocks that are only there for it, if the last entry
is alone in its block. -/
def lastBlocks (d : Disk) (x : InCoreINode) : List Nat :=
  if entryCount x % 16 = 1 then d.fileBlock x.dataBlockNums (entryCount x / 16) ::
    d.freshIndirect x.dataBlockNums (entryCount x / 16) else []

/-- The last block goes with its only entry. -/
theorem blockCount_cut (h : DirectoryFile d x) :
    blockCount (x.size - 64) = if entryCount x % 16 = 1 then entryCount x / 16 else blockCount x.size := by
  have hsize := size_eq h
  unfold blockCount
  split <;> omega

/-- The blocks of the smaller directory and those that it does not need any more. -/
theorem lastBlocks_perm (h : DirectoryFile d x) :
    (d.lastBlocks x ++ d.fileBlocks x.dataBlockNums (blockCount (x.size - 64))).Perm
      (d.fileBlocks x.dataBlockNums (blockCount x.size)) := by
  have hsize := size_eq h
  have hmax := h.blockCount_le
  rw [blockCount_cut h, lastBlocks]
  by_cases hone : entryCount x % 16 = 1
  · have hcount : blockCount x.size = entryCount x / 16 + 1 := by
      unfold blockCount
      omega
    rw [if_pos hone, if_pos hone, hcount]
    rw [hcount] at hmax
    exact fileBlocks_succ d x.dataBlockNums (Nat.lt_of_succ_le hmax)
  · rw [if_neg hone, if_neg hone, List.nil_append]

/-- The directory loses its last entry, and the block if nothing is left in it. -/
theorem truncateINode_entry (h : DirectoryFile d x) (h0 : 0 < entryCount x) (env : Env) :
    ∃ y d', d.truncateINode env x (x.size - 64) = .ok (y, d') ∧ y.size = x.size - 64 ∧
      y.dataBlockNums = x.dataBlockNums ∧ Drops d d' (d.lastBlocks x) := by
  have hsize := size_eq h
  have hmax := h.size
  simp only [maxFileSize] at hmax
  rw [lastBlocks]
  by_cases hone : entryCount x % 16 = 1
  · have hmod : x.size % 1024 ≠ 0 := by omega
    have hcount : blockCount (x.size - 64) ≠ blockCount x.size := by
      unfold blockCount
      omega
    obtain ⟨d₁, y, resp, offset, hrun, hys, hynums, hoff, hdrops⟩ :=
      exists_first_round h.toWellFormed env (show x.size - 64 < x.size by omega) hmod hcount
    obtain ⟨z, hz, hzs, hznums⟩ := decreaseLoop_end d₁ env.now (x.size - (x.size - 64))
      (x.size % 1024) 63 resp hoff (by simp only [maxFileSize]; omega) (by omega) (.inl (by omega))
    refine ⟨z, d₁, ?_, by omega, hznums.trans hynums, ?_⟩
    · rw [hrun]
      rw [show x.size - (x.size - 64) = 64 by omega] at hz ⊢
      exact hz
    · rw [if_pos hone, show entryCount x / 16 = x.size / 1024 by omega]
      exact hdrops
  · obtain ⟨z, hz, hzs, hznums⟩ := decreaseLoop_end d env.now (x.size - (x.size - 64)) 0
      (x.size - (x.size - 64)) env.response (fun _ => rfl) h.size (by omega) (.inr (by omega))
    refine ⟨z, d, ?_, by omega, hznums, ?_⟩
    · rw [truncateINode_shrink env h.size (by omega)]
      exact hz
    · rw [if_neg hone]
      exact .refl d

/-- `bmap` only changes anything at the end of a file that grows. -/
theorem bmap_read {offset : Nat} {resp resp' : BmapResponse} {ret : Int}
    (h : d.bmap x offset resp .read = .ok (ret, resp', y, d')) : y = x ∧ d' = d := by
  unfold bmap at h
  split at h
  · cases h
    exact ⟨rfl, rfl⟩
  · rw [if_neg (by simp)] at h
    obtain ⟨blk, -, h⟩ := bind_eq_ok.mp h
    cases h
    exact ⟨rfl, rfl⟩

/-- Each round of shrinking updates the metadata only. -/
theorem decreaseLoop_touched {now : UInt64} {size : Nat} : ∀ (fuel : Nat) {x : InCoreINode} {d : Disk}
    {offset bytes : Nat} {resp : BmapResponse},
    decreaseLoop now size fuel x d offset bytes resp = .ok (y, d') → x.Touched y := by
  intro fuel
  induction fuel with
  | zero =>
      intro x d offset bytes resp h
      cases h
  | succ fuel ih =>
      intro x d offset bytes resp h
      rw [decreaseLoop] at h
      split at h
      · obtain ⟨⟨ret, resp', z, d₁⟩, hbmap, hrest⟩ := bind_eq_ok.mp h
        obtain ⟨rfl, rfl⟩ := bmap_read hbmap
        dsimp only at hrest
        split at hrest
        · simp only [Except.ok.injEq, Prod.mk.injEq] at hrest
          exact hrest.1 ▸ InCoreINode.touched_updateINodeMetadata z now _
        · obtain ⟨d₂, -, hrest⟩ := bind_eq_ok.mp hrest
          exact (InCoreINode.touched_updateINodeMetadata z now _).trans (ih hrest)
      · cases h
        exact InCoreINode.Touched.refl _

/-- Shrinking a file changes its size and its times. -/
theorem truncateINode_touched {env : Env} {size : Nat} (hle : size ≤ x.size)
    (h : d.truncateINode env x size = .ok (y, d')) : x.Touched y := by
  unfold truncateINode at h
  split at h
  · cases h
    exact .refl x
  · split at h
    · exact decreaseLoop_touched _ h
    · omega

/-- A file that loses its last blocks keeps the others. -/
theorem same_of_drops (h : DirectoryFile d x) (hdrops : Drops d d' (d.lastBlocks x)) {b : Nat}
    (hb : b ∈ d.fileBlocks x.dataBlockNums (blockCount (x.size - 64))) : d'.blocks b = d.blocks b := by
  have hown := h.own.perm (lastBlocks_perm h)
  refine hdrops.frame b (hown.data b (List.mem_append_right _ hb)).2.1 fun hcon => ?_
  exact (List.nodup_append.mp hown.nodup).2.2 b hcon b hb rfl

/-- The smaller directory, with the entries before the last one. -/
theorem directoryFile_cut (h : DirectoryFile d x) (hys : y.size = x.size - 64)
    (hnums : y.dataBlockNums = x.dataBlockNums) (hsearch : validateSearch y = true)
    (hdrops : Drops d d' (d.lastBlocks x)) :
    DirectoryFile d' y ∧ entryCount y = entryCount x - 1 ∧
      d'.fileBlocks y.dataBlockNums (blockCount y.size) =
        d.fileBlocks x.dataBlockNums (blockCount (x.size - 64)) ∧
      ∀ i < entryCount x - 1, d'.entryAt y.dataBlockNums i = d.entryAt x.dataBlockNums i := by
  have hsize := size_eq h
  have hmax := h.size
  have hcount : blockCount (x.size - 64) ≤ maxBlocks := by
    simp only [maxFileSize] at hmax
    simp only [blockCount, maxBlocks]
    omega
  have hsame := fun b hb => same_of_drops h hdrops (b := b) hb
  have hindirect := fun b hb => hsame b (indirectBlocks_subset hb)
  have hblocks : d'.fileBlocks y.dataBlockNums (blockCount y.size) =
      d.fileBlocks x.dataBlockNums (blockCount (x.size - 64)) := by
    rw [hys, hnums, fileBlocks_frame hcount hindirect]
  refine ⟨⟨⟨?_, ?_⟩, hsearch, ?_⟩, ?_, hblocks, fun i hi => ?_⟩
  · rw [hblocks, hdrops.backend]
    refine (h.own.perm (lastBlocks_perm h)).mono fun b => ?_
    rw [List.count_append]
    omega
  · rw [hys]
    omega
  · rw [hys]
    simp only [directoryEntrySize]
    omega
  · simp only [entryCount, directoryEntrySize, hys]
    omega
  · have hq : i / 16 < blockCount (x.size - 64) := by
      unfold blockCount
      omega
    simp only [entryAt, directoryEntriesInBlock, hnums]
    rw [fileBlock_frame hq hcount hindirect, hsame _ (mem_fileBlocks hq)]

end Cut

/-! ## Filling the place of an entry -/

section Fill

variable {d : Disk} {x : InCoreINode} {p : Nat}

/-- Writing into a data block of a directory leaves its blocks where they are. -/
theorem fileBlocks_filled (h : DirectoryFile d x) (hp : p < entryCount x) :
    (d.filled x p).fileBlocks x.dataBlockNums (blockCount x.size) =
        d.fileBlocks x.dataBlockNums (blockCount x.size) ∧
      (∀ b ∈ d.indirectBlocks x.dataBlockNums (blockCount x.size),
        (d.filled x p).blocks b = d.blocks b) := by
  have hindirect : ∀ b ∈ d.indirectBlocks x.dataBlockNums (blockCount x.size),
      (d.filled x p).blocks b = d.blocks b := by
    intro b hb
    refine blocks_store_of_ne _ ?_ _
    rintro rfl
    exact fileBlock_notMem h.own (lt_blockCount h hp) hb
  exact ⟨fileBlocks_frame h.blockCount_le hindirect, hindirect⟩

/-- The directory is as well formed with the last entry in another place. -/
theorem directoryFile_filled (h : DirectoryFile d x) (hp : p < entryCount x) :
    DirectoryFile (d.filled x p) x where
  own := by
    rw [(fileBlocks_filled h hp).1, filled, backend_store]
    exact h.own
  size := h.size
  searchable := h.searchable
  whole := h.whole

/-- Its blocks are the same. -/
theorem lastBlocks_filled (h : DirectoryFile d x) (hp : p < entryCount x) :
    (d.filled x p).lastBlocks x = d.lastBlocks x := by
  have hsize := size_eq h
  have hcount := h.blockCount_le
  unfold lastBlocks
  split
  · have hlast : blockCount x.size = entryCount x / 16 + 1 := by
      unfold blockCount
      omega
    have hindirect := (fileBlocks_filled h hp).2
    rw [hlast] at hcount hindirect
    rw [fileBlock_frame (Nat.lt_succ_self _) hcount hindirect,
      freshIndirect_frame (Nat.lt_of_succ_le hcount) hindirect]
  · rfl

/-- The last entry is in the place, and the others are where they were. -/
theorem entryAt_filled (h : DirectoryFile d x) (hp : p < entryCount x) {i : Nat}
    (hi : i < entryCount x) : (d.filled x p).entryAt x.dataBlockNums i =
      d.entryAt x.dataBlockNums (if i = p then entryCount x - 1 else i) := by
  rw [filled, entryAt_put h.own h.blockCount_le (lt_blockCount h hp) (lt_blockCount h hi)]
  split
  · have hname : ∀ e : DirectoryEntry, (.tabulate e.name.peek : Buffer UInt8 filenameSize) = e.name :=
      fun e => Buffer.ext_peek fun k hk => by rw [Buffer.peek_tabulate, if_pos hk]
    rw [hname, Nat.mod_eq_of_lt (iNodeNum_lt d _ _)]
  · rfl

/-- The numbers of the entries that stay, with the last one in the place of entry `p`. -/
theorem remaining_perm {m : Nat} (hp : p < m) :
    ((List.range (m - 1)).map fun i => if i = p then m - 1 else i).Perm
      ((List.range m).filter (· ≠ p)) := by
  refine (List.perm_ext_iff_of_nodup ?_ (List.nodup_range.filter _)).mpr fun i => ?_
  · refine List.nodup_range.map_on fun i hi j hj hij => ?_
    have hi := List.mem_range.mp hi
    have hj := List.mem_range.mp hj
    split at hij <;> split at hij <;> omega
  · simp only [List.mem_map, List.mem_range, List.mem_filter, decide_eq_true_eq]
    constructor
    · rintro ⟨j, hj, rfl⟩
      split <;> omega
    · rintro ⟨hi, hip⟩
      by_cases hlast : i = m - 1
      · exact ⟨p, by omega, by rw [if_pos rfl, hlast]⟩
      · exact ⟨i, by omega, if_neg hip⟩

end Fill

end Disk

/-! ## Removing an entry -/

/-- Different entries have different names. -/
def DistinctNames (d : Disk) (x : InCoreINode) : Prop :=
  ((d.entries x).map DirectoryEntry.label).Nodup

namespace Disk

section Remove

open FS (freed)
open Function (update)

variable {d : Disk} {x : InCoreINode} {name : Name} {p : Nat}

/-- Where names are different, only one entry has the name. -/
theorem FirstNamed.unique (hdistinct : DistinctNames d x) (hp : FirstNamed d x name p) {i : Nat}
    (hi : i < entryCount x) : (d.entryAt x.dataBlockNums i).label = name ↔ i = p := by
  constructor
  · intro hlabel
    rw [DistinctNames, entries, List.map_map] at hdistinct
    refine List.inj_on_of_nodup_map hdistinct (List.mem_range.mpr hi) (List.mem_range.mpr hp.lt) ?_
    rw [Function.comp_apply, Function.comp_apply, hlabel, hp.label]
  · rintro rfl
    exact hp.label

/-- The entries with other names. -/
theorem filter_entries (hdistinct : DistinctNames d x) (hp : FirstNamed d x name p) :
    (d.entries x).filter (fun e => e.label ≠ name) =
      ((List.range (entryCount x)).filter (· ≠ p)).map (d.entryAt x.dataBlockNums) := by
  rw [entries, List.filter_map]
  refine congrArg _ (List.filter_congr fun i hi => ?_)
  have hiff := hp.unique hdistinct (List.mem_range.mp hi)
  rw [Function.comp_apply, decide_eq_decide]
  exact not_congr hiff

/-- **Removing an entry removes only that entry.**  A block is freed if the last entry was
alone in it, with the indirect blocks that were only there for it; a name that is not there
changes nothing. -/
theorem removeEntry_exact (h : DirectoryFile d x) (hpos : 0 < x.size) (hterm : NamesEnd d x)
    (hdistinct : DistinctNames d x) (hnum : ∀ e ∈ d.entries x, e.iNodeNum < 65535)
    (hname : (0 : UInt8) ∉ name) (env : Env) (buf : Nat → DirectoryEntry) (n : Nat) :
    ((∃ e ∈ d.entries x, e.label = name) → ∃ buf' d₁ y d' events,
      d.searchINodeDirectoryEntries env x (some name) 0 buf n true = .ok (1, buf', d₁) ∧
      d₁.truncateINode env x (x.size - directoryEntrySize) = .ok (y, d') ∧
      y.size = x.size - directoryEntrySize ∧
      (d'.entries y).Perm ((d.entries x).filter fun e => e.label ≠ name) ∧ (d'.entries y).Nodup ∧
      d'.trace = d.trace ++ events ∧ freed events = d.lastBlocks x ∧
      (d.lastBlocks x ++ d'.fileBlocks y.dataBlockNums (blockCount y.size)).Perm
        (d.fileBlocks x.dataBlockNums (blockCount x.size))) ∧
    ((∀ e ∈ d.entries x, e.label ≠ name) →
      d.searchINodeDirectoryEntries env x (some name) 0 buf n true = .ok (0, buf, d)) := by
  have h0 : 0 < entryCount x := by
    have := size_eq h
    omega
  refine ⟨fun ⟨e, he, hlabel⟩ => ?_, fun hne =>
    searchUnlink_absent h h0 (matchAt_absent hname hterm hne) env buf n⟩
  obtain ⟨p, hp⟩ := (exists_firstNamed d x name).resolve_right fun hne => hne e he hlabel
  have hf := directoryFile_filled h hp.lt
  obtain ⟨y, d', hcut, hys, hynums, hdrops⟩ := truncateINode_entry hf h0 env
  have hsearch : validateSearch y = true := by
    rw [validateSearch, (truncateINode_touched (by omega) hcut).mode]
    exact h.searchable
  obtain ⟨-, hcount, hblocks, hentries⟩ := directoryFile_cut hf hys hynums hsearch hdrops
  rw [lastBlocks_filled h hp.lt] at hdrops
  obtain ⟨events, htrace, hfreed⟩ := hdrops.trace
  have hperm : (d'.entries y).Perm ((d.entries x).filter fun e => e.label ≠ name) := by
    rw [filter_entries hdistinct hp]
    refine List.Perm.trans (List.Perm.of_eq ?_) ((remaining_perm hp.lt).map _)
    rw [entries, hcount, List.map_map]
    refine List.map_congr_left fun i hi => ?_
    have hi := List.mem_range.mp hi
    exact (hentries i hi).trans (entryAt_filled h hp.lt (by omega))
  refine ⟨_, _, y, d', events, searchUnlink_found h hnum (hp.firstMatch hname hterm) env buf n,
    hcut, hys, hperm,
    hperm.nodup_iff.mpr ?_, ?_, hfreed, ?_⟩
  · exact (List.Nodup.of_map _ hdistinct).filter _
  · rw [htrace, filled, trace_store]
  · have := lastBlocks_perm hf
    rw [lastBlocks_filled h hp.lt, (fileBlocks_filled h hp.lt).1] at this
    rw [hblocks]
    exact this

/-- The only entry of a directory. -/
theorem entries_oneEntryDisk : oneEntryDisk.entries (FS.oneBlockDirectory 64 16388) =
    [⟨.tabulate fun i => if i = 0 then 0x61 else 0, 7⟩] := by
  refine congrArg (fun e => [e]) ?_
  exact DirectoryEntry.decode_put_self _ (show 0 + 64 ≤ 1024 by decide) _ 7

/-- The one name of that disk ends. -/
theorem namesEnd_oneEntryDisk : NamesEnd oneEntryDisk (FS.oneBlockDirectory 64 16388) := by
  intro e he
  rw [entries_oneEntryDisk, List.mem_singleton] at he
  subst he
  exact ⟨1, by decide, rfl⟩

/-- A disk in memory with three entries in every block. -/
def threeEntryDisk (e : Nat → Name × Nat) : Disk where
  backend := ⟨false, 8, Backend.eight_lt, .tabulate fun _ => 0⟩
  blocks := fun _ => DirectoryEntry.put (DirectoryEntry.put (DirectoryEntry.put (.tabulate fun _ => 0)
    0 ((e 0).1.getD · 0) (e 0).2) 64 ((e 1).1.getD · 0) (e 1).2) 128 ((e 2).1.getD · 0) (e 2).2
  trace := []

/-- The entries of that disk, one after the other. -/
theorem entryAt_threeEntryDisk (e : Nat → Name × Nat) (size : Nat) {i : Nat} (hi : i < 3) :
    (threeEntryDisk e).entryAt (FS.oneBlockDirectory size 16388).dataBlockNums i =
      ⟨.tabulate ((e i).1.getD · 0), (e i).2 % 65536⟩ := by
  match i, hi with
  | 0, _ =>
      refine (DirectoryEntry.decode_put_of_disjoint _ (show 0 + 64 ≤ 1024 by decide)
        (.inl (show 0 + 64 ≤ 128 by decide)) _ _).trans ?_
      refine (DirectoryEntry.decode_put_of_disjoint _ (show 0 + 64 ≤ 1024 by decide)
        (.inl (show 0 + 64 ≤ 64 by decide)) _ _).trans ?_
      exact DirectoryEntry.decode_put_self _ (show 0 + 64 ≤ 1024 by decide) _ _
  | 1, _ =>
      refine (DirectoryEntry.decode_put_of_disjoint _ (show 64 + 64 ≤ 1024 by decide)
        (.inl (show 64 + 64 ≤ 128 by decide)) _ _).trans ?_
      exact DirectoryEntry.decode_put_self _ (show 64 + 64 ≤ 1024 by decide) _ _
  | 2, _ => exact DirectoryEntry.decode_put_self _ (show 128 + 64 ≤ 1024 by decide) _ _

/-- The directory has these three. -/
theorem entries_threeEntryDisk (e : Nat → Name × Nat) :
    (threeEntryDisk e).entries (FS.oneBlockDirectory 192 16388) =
      (List.range 3).map fun i => ⟨.tabulate ((e i).1.getD · 0), (e i).2 % 65536⟩ :=
  List.map_congr_left fun _ hi => entryAt_threeEntryDisk e 192 (List.mem_range.mp hi)

/-- Names that are short enough end. -/
theorem namesEnd_threeEntryDisk {e : Nat → Name × Nat} (h : ∀ i, (e i).1.length < filenameSize) :
    NamesEnd (threeEntryDisk e) (FS.oneBlockDirectory 192 16388) := by
  intro entry hmem
  rw [entries_threeEntryDisk] at hmem
  obtain ⟨i, -, rfl⟩ := List.mem_map.mp hmem
  refine ⟨(e i).1.length, h i, ?_⟩
  rw [Buffer.peek_tabulate, if_pos (h i)]
  simp

/-- Of the entries `a`, `b` and `c` the first one is removed, and the last one takes its place. -/
theorem removeEntry_first : ∃ (d : Disk) (x : InCoreINode) (d₁ : Disk) (y : InCoreINode) (d' : Disk),
    (d.entries x).map DirectoryEntry.label = [[0x61], [0x62], [0x63]] ∧
      d₁.truncateINode FS.blankEnv x 128 = .ok (y, d') ∧
      ((d'.entries y).map DirectoryEntry.label).Perm [[0x62], [0x63]] := by
  obtain ⟨d, hd⟩ : ∃ d, d = threeEntryDisk fun i => ([0x61 + UInt8.ofNat i], 7 + i) := ⟨_, rfl⟩
  have h : DirectoryFile d (FS.oneBlockDirectory 192 16388) :=
    hd ▸ directoryFile_oneBlock (show 16388 < Backend.capacity _ by decide) (by decide) (by decide)
      (by decide)
  have hentries := hd ▸ entries_threeEntryDisk fun i => ([0x61 + UInt8.ofNat i], 7 + i)
  have hlabels : (d.entries (FS.oneBlockDirectory 192 16388)).map DirectoryEntry.label =
      [[0x61], [0x62], [0x63]] := by
    rw [hentries]
    decide
  obtain ⟨e, he, hlabel⟩ : ∃ e ∈ d.entries (FS.oneBlockDirectory 192 16388), e.label = [0x61] := by
    have hmem : ([0x61] : Name) ∈ (d.entries (FS.oneBlockDirectory 192 16388)).map
      DirectoryEntry.label := by simp [hlabels]
    simpa using hmem
  have hterm : NamesEnd d (FS.oneBlockDirectory 192 16388) :=
    hd ▸ namesEnd_threeEntryDisk fun _ => show 1 < filenameSize by decide
  obtain ⟨buf', d₁, y, d', events, -, hcut, -, hperm, -⟩ := (removeEntry_exact h (by decide) hterm
    (by rw [DistinctNames, hlabels]; decide) (by rw [hentries]; decide) (by decide) FS.blankEnv
    (fun _ => FS.emptyEntry) 0).1 ⟨e, he, hlabel⟩
  refine ⟨d, _, d₁, y, d', hlabels, hcut, (hperm.map DirectoryEntry.label).trans ?_⟩
  rw [hentries]
  decide

end Remove

end Disk

end Naofs
