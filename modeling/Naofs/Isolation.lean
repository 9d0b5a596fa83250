import Naofs.Directory
import Naofs.Ownership
import Naofs.Transparency

/-!
# Naofs.Isolation

Growing and writing one file leaves every other file alone.

The calls are `writeToFile` at any offset, a growing `truncateINode` and
`getAndUpdateDirectoryTable`.  `isolated_of_supply` is about every state in which the
free list and the files are apart and the free list can supply the blocks that the
call needs.
-/

namespace Naofs

namespace FS

open Disk (blockCount Uses endNeeds growNeeds writeNeeds)
open Function (update update_self update_of_ne)

/-- Calls on the file of a node. -/
inductive FileCall where
  | write (env : Env) (fd : Nat) (buf : Nat → UInt8) (size offset : Nat)
  | truncate (env : Env) (size : Nat)
  | addEntry (env : Env) (newInodeNumber : Nat) (filename : Nat → UInt8)

namespace FileCall

def run (node : NodeId) : FileCall → NaoM Unit
  | .write env fd buf size offset => fun fs => do
      let (_, fs) ← writeToFile env fd buf size offset fs
      .ok ((), fs)
  | .truncate env size => truncateINode env node size
  | .addEntry env newInodeNumber filename =>
      onINode node fun x d => d.getAndUpdateDirectoryTable env x newInodeNumber filename

/-- Fewer than 2^31 bytes are written, through a descriptor of the node; `truncateINode`
grows the file; the file stays within the largest size. -/
def Within (fs : FS) (node : NodeId) : FileCall → Prop
  | .write _ fd _ size offset => fs.Open fd node ∧ (fs.inode node).iNodeMutex = false ∧
      size < 2147483648 ∧ offset + size ≤ maxFileSize
  | .truncate _ size => (fs.inode node).size ≤ size ∧ size ≤ maxFileSize
  | .addEntry _ _ _ => (fs.inode node).size + directoryEntrySize ≤ maxFileSize

/-- The entry to be added does not cross the end of a block, as in a directory of whole
entries. -/
def Aligned (fs : FS) (node : NodeId) : FileCall → Prop
  | .addEntry _ _ _ => (fs.inode node).size % blockSize + directoryEntrySize ≤ blockSize
  | _ => True

/-- The number of blocks that the call takes from the free list. -/
def needs (fs : FS) (node : NodeId) : FileCall → Nat
  | .write _ _ _ size offset =>
      if offset > (fs.inode node).size then 0
      else writeNeeds size (size + 1) (fs.inode node).size 0 offset
  | .truncate _ size =>
      growNeeds (size - (fs.inode node).size + 1) (fs.inode node).size (size - (fs.inode node).size)
  | .addEntry _ _ _ =>
      if validateSearch (fs.inode node) then endNeeds (fs.inode node).size else 0

end FileCall

/-- A call changed the file of `node` and took `k` blocks of the free list. -/
def Reworks (fs fs' : FS) (node : NodeId) (l : List Nat) (k : Nat) : Prop :=
  ∃ x y z : InCoreINode, x.toINode = (fs.inode node).toINode ∧ z.toINode = y.toINode ∧
    fs'.cache = { fs.cache with inode := update fs.cache.inode node z } ∧
    y.size ≤ maxFileSize ∧ Uses x fs.disk y fs'.disk l k

section Calls

variable {fs fs' : FS} {node : NodeId} {l : List Nat} {n k : Nat}

/-- The free list and the file of one inode. -/
theorem Separate.own (h : Separate fs l) (hn : n < numOfInodes) :
    Own fs.disk.backend (l ++ fs.owned n) := by
  obtain ⟨rest, -, hcount⟩ := exists_rest_flatMap fs.owned hn
  have hle : ∀ b, (l ++ fs.owned n).count b ≤
      (l ++ (List.range numOfInodes).flatMap fs.owned).count b := by
    intro b
    have := hcount fs.owned (fun _ _ _ => rfl) b
    rw [List.count_append, List.count_append]
    omega
  refine Own.mono ⟨h.nodup, fun b hb => ?_⟩ hle
  have := h.data b hb
  simp only [dataRegionStart] at this
  omega

theorem current_of_lookup (h : fs.cache.hashLookup n 0 = .ok (some node)) :
    fs.current n = (fs.inode node).toINode := by
  rw [current, h]

/-- A change of one node that keeps its number does not move it. -/
theorem hashLookup_of_rework {y : InCoreINode}
    (hcache : fs'.cache = { fs.cache with inode := update fs.cache.inode node y })
    (hnum : y.iNodeNumber = (fs.inode node).iNodeNumber) (m : Nat) :
    fs'.cache.hashLookup m 0 = fs.cache.hashLookup m 0 := by
  refine Cache.hashLookup_congr (fun z => ?_) (by rw [hcache]) (by rw [hcache]) (by rw [hcache]) m 0
  rw [hcache]
  by_cases hz : z = node
  · subst hz
    simpa [inode] using hnum
  · simp [hz]

/-- The inodes after such a change. -/
theorem current_of_rework {y : InCoreINode} (hlook : fs.cache.hashLookup n 0 = .ok (some node))
    (hcache : fs'.cache = { fs.cache with inode := update fs.cache.inode node y })
    (hnum : y.iNodeNumber = (fs.inode node).iNodeNumber) :
    fs'.current n = y.toINode ∧ ∀ m, m ≠ n →
      (fs'.disk.diskINode m = fs.disk.diskINode m) → fs'.current m = fs.current m := by
  have hsame := hashLookup_of_rework hcache hnum
  refine ⟨?_, fun m hmn hdisk => ?_⟩
  · rw [current, hsame, hlook]
    simp [inode, hcache]
  · rw [current, current, hsame, hdisk]
    cases hm : fs.cache.hashLookup m 0 with
    | error e => rfl
    | ok found =>
        cases found with
        | none => rfl
        | some z =>
            have hz : z ≠ node := by
              rintro rfl
              have h1 := Cache.hashLookup_number hm
              have h2 := Cache.hashLookup_number hlook
              exact hmn (h1.symm.trans h2)
            simp [inode, hcache, hz]

/-- A change of one file leaves the others alone. -/
theorem Separate.reworks (h : Separate fs l) (hn : n < numOfInodes)
    (hlook : fs.cache.hashLookup n 0 = .ok (some node)) (htype : (fs.inode node).type ≠ .free)
    (hr : Reworks fs fs' node l k) :
    Separate fs' (l.drop k) ∧
      ∀ m < numOfInodes, m ≠ n → (fs.current m).type ≠ .free → Isolated fs fs' m := by
  obtain ⟨x, y, z, hx, hz, hcache, hsize, huses⟩ := hr
  have hcur := current_of_lookup hlook
  have hytype : y.type = (fs.inode node).type := by
    rw [← hx]
    obtain ⟨_, _, _, _, _, rfl⟩ := huses.touched
    rfl
  have hnum : z.iNodeNumber = (fs.inode node).iNodeNumber := by
    rw [hz, huses.touched.number, hx]
  obtain ⟨hself, hothers⟩ := current_of_rework hlook hcache hnum
  rw [hz] at hself
  have hold : fs.owned n = fs.disk.fileBlocks x.dataBlockNums (blockCount x.size) := by
    rw [owned, hcur, ← hx, fileOf, if_neg (hx ▸ htype)]
  have hnew : fs'.owned n = fs'.disk.fileBlocks y.dataBlockNums (blockCount y.size) := by
    rw [owned, hself, fileOf, if_neg (hytype ▸ htype)]
  -- nothing below the data region is written but the head of the free list
  have hframe : ∀ b, b ≠ 2 → b ∉ l ++ fs.owned n → fs'.disk.blocks b = fs.disk.blocks b := by
    intro b hb2 hb
    refine huses.frame b hb2 fun hcon => hb ?_
    rw [hold]
    rcases List.mem_append.mp hcon with hcon | hcon
    · exact List.mem_append_left _ (List.mem_of_mem_take hcon)
    · exact List.mem_append_right _ hcon
  refine h.exchange hn (fun m hm hmn => hothers m hmn ?_) ?_ ?_
  · refine Disk.diskINode_congr _ (hframe _ (by omega) fun hcon => ?_)
    have hlow : dataRegionStart ≤ m / 4 + 4 := by
      rcases List.mem_append.mp hcon with hcon | hcon
      · exact (h.data _ (List.mem_append_left _ hcon)).1
      · exact (h.mem_owned hn hcon).1
    simp only [dataRegionStart, numOfInodes] at hlow hm
    omega
  · rw [hself]
    exact fun _ => hsize
  · refine ⟨huses.backend, huses.free, fun b => ?_, fun b hb2 hb _ => hframe b hb2 hb⟩
    have h1 := huses.owned b
    have h2 := Disk.count_take_add_drop l k b
    rw [hnew, hold]
    simp only [List.count_append] at *
    omega

/-- A call that works on the inode and the disk only. -/
theorem onINode_reworks {f : InCoreINode → Disk → Except Fault (InCoreINode × Disk)}
    {y : InCoreINode} {d : Disk} (hf : f (fs.inode node) fs.disk = .ok (y, d))
    (hsize : y.size ≤ maxFileSize) (huses : Uses (fs.inode node) fs.disk y d l k) :
    ∃ fs', onINode node f fs = .ok ((), fs') ∧ Reworks fs fs' node l k :=
  ⟨_, onINode_ok hf, fs.inode node, y, y, rfl, rfl, rfl, hsize, huses⟩

/-- **Supply**: a call that the free list can supply returns, and takes what it needs. -/
theorem FileCall.reworks (h : Separate fs l) (hn : n < numOfInodes)
    (hlook : fs.cache.hashLookup n 0 = .ok (some node)) (htype : (fs.inode node).type ≠ .free)
    {call : FileCall} (hwithin : call.Within fs node) (haligned : call.Aligned fs node)
    (hneeds : call.needs fs node ≤ l.length) :
    ∃ fs', call.run node fs = .ok ((), fs') ∧ Reworks fs fs' node l (call.needs fs node) := by
  have hcur := current_of_lookup hlook
  have hown := h.own hn
  rw [owned, hcur, fileOf, if_neg htype] at hown
  have hcap : 2 < fs.disk.backend.capacity := by
    have := h.stored
    simp only [dataRegionStart] at this
    omega
  have hsize : (fs.inode node).size ≤ maxFileSize := by
    have := h.sizes n hn (by rwa [hcur])
    rwa [hcur] at this
  cases call with
  | write env fd buf size offset =>
      obtain ⟨hopen, hmutex, h31, hmax⟩ := hwithin
      simp only [needs] at hneeds ⊢
      by_cases hoff : offset > (fs.inode node).size
      · rw [if_pos hoff]
        exact ⟨_, bind_eq_ok.mpr ⟨_, writeToFile_past hopen hmutex env buf size hoff, rfl⟩,
          fs.inode node, fs.inode node, { fs.inode node with iNodeMutex := false }, rfl, rfl, rfl, hsize,
          .refl _ h.free⟩
      · rw [if_neg hoff] at hneeds ⊢
        obtain ⟨s, hloop, hs, huses, -⟩ := Disk.writeLoop_uses env.now buf h31 (size + 1) 0
          ⟨{ fs.inode node with iNodeMutex := true }, fs.disk, env.response, 0, offset, 0⟩ l rfl
          (Nat.zero_le _) (by omega) hsize (by simpa using hmax) hcap h.free hown hneeds
        have hcall : fs.writeToFile env fd buf size offset =
            .ok (s.bytesWritten, fs.written fd node s) := by
          rw [writeToFile_eq hopen hmutex env buf size (Nat.le_of_not_lt hoff), hloop]
          rfl
        exact ⟨fs.written fd node s, bind_eq_ok.mpr ⟨_, hcall, rfl⟩,
          { fs.inode node with iNodeMutex := true }, s.iNode, { s.iNode with iNodeMutex := false }, rfl,
          rfl, rfl, hs, huses⟩
  | truncate env size =>
      obtain ⟨hle, hmax⟩ := hwithin
      by_cases heq : (fs.inode node).size = size
      · have hzero : needs fs node (.truncate env size) = 0 := by
          simp [needs, growNeeds, heq]
        rw [hzero]
        exact onINode_reworks (f := fun x d => d.truncateINode env x size)
          (by rw [Disk.truncateINode, if_pos heq]) hsize (.refl _ h.free)
      · obtain ⟨y, d, hrun, hy, huses, -⟩ := Disk.increaseLoop_uses env.now
          (size - (fs.inode node).size) (size - (fs.inode node).size + 1) (fs.inode node)
          fs.disk 0 env.response l (by omega) (by omega) hcap h.free hown hneeds
        refine onINode_reworks (f := fun x d => d.truncateINode env x size) (y := y) (d := d) ?_
          (by omega) huses
        rw [Disk.truncateINode, if_neg heq, if_neg (by omega)]
        exact hrun
  | addEntry env num name =>
      simp only [needs] at hneeds ⊢
      by_cases hdir : validateSearch (fs.inode node)
      · rw [if_pos hdir] at hneeds ⊢
        obtain ⟨y, d, hrun, hy, huses⟩ := Disk.getAndUpdateDirectoryTable_uses env num name hdir
          haligned hwithin hcap h.free hown hneeds
        refine onINode_reworks (f := fun x d => d.getAndUpdateDirectoryTable env x num name) hrun ?_
          huses
        rw [hy]
        exact hwithin
      · rw [if_neg hdir]
        exact onINode_reworks (f := fun x d => d.getAndUpdateDirectoryTable env x num name)
          (by rw [Disk.getAndUpdateDirectoryTable, if_pos hdir]) hsize (.refl _ h.free)

/-- **Isolation**: with the files and the free list apart and the blocks supplied, a
call on one inode returns, leaves every other file as it was, and keeps them apart. -/
theorem isolated_of_supply (call : FileCall) (h : Separate fs l) {m : Nat} (hn : n < numOfInodes)
    (hm : m < numOfInodes) (hmn : m ≠ n) (hlook : fs.cache.hashLookup n 0 = .ok (some node))
    (htype : (fs.inode node).type ≠ .free) (htype' : (fs.current m).type ≠ .free)
    (hwithin : call.Within fs node) (haligned : call.Aligned fs node)
    (hneeds : call.needs fs node ≤ l.length) :
    ∃ fs', call.run node fs = .ok ((), fs') ∧ Isolated fs fs' m ∧
      Separate fs' (l.drop (call.needs fs node)) := by
  obtain ⟨fs', hrun, hr⟩ := FileCall.reworks h hn hlook htype hwithin haligned hneeds
  obtain ⟨hsep, hiso⟩ := h.reworks hn hlook htype hr
  exact ⟨fs', hrun, hiso m hm hmn htype', hsep⟩

end Calls

/-! ## A file system with one file -/

/-- In a run of `HolderState` the inode of a number is what was last written to it. -/
theorem current_of_inv {st : HolderState} {l : List NodeId} {q : Fin inodeHashSize → List NodeId}
    (h : HolderState.Inv st l q) {n : Nat} (hn : n < numOfInodes) : st.fs.current n = st.written n := by
  have hlook := Cache.hashLookup_spec h.cache.lists.queues n 0
  cases hf : (q (st.fs.cache.getHash n 0)).find? fun y => (st.fs.cache.inode y).iNodeNumber = n with
  | none =>
      rw [current, hlook, hf]
      refine h.synced n hn fun i x hx hnum => ?_
      have hhome : i = st.fs.cache.getHash n 0 := hnum ▸ h.cache.lists.home hx
      have := List.find?_eq_none.mp hf x (hhome ▸ hx)
      simp only [decide_eq_true_eq] at this
      exact absurd hnum this
  | some x =>
      have hnum : (st.fs.inode x).iNodeNumber = n := by simpa [inode] using List.find?_some hf
      rw [current, hlook, hf]
      exact (h.value _ x (List.mem_of_find?_eq_some hf)).trans (by rw [hnum])

/-- A state with inode 1 in core, on a disk with the inode table of a new file system. -/
theorem exists_single (x : InCoreINode) (hx : x.iNodeNumber = 1) (d : Disk)
    (hd : ∀ b, 4 ≤ b → b < dataRegionStart →
      d.blocks b = AllocState.smallDisk.makeFileSystem.blocks b) :
    ∃ fs : FS, fs.disk = d ∧ fs.inode 0 = x ∧ fs.cache.hashLookup 1 0 = .ok (some 0) ∧
      fs.current 1 = x.toINode ∧ ∀ m < numOfInodes, m ≠ 1 →
        fs.current m = AllocState.smallDisk.makeFileSystem.diskINode m := by
  have hnew := HolderState.numbered_makeFileSystem AllocState.smallDisk
  obtain ⟨fs₀, hfs₀, hdisk₀⟩ := exists_mount (fun _ _ => 0) AllocState.smallDisk.makeFileSystem
  obtain ⟨fs, -, hnode, -, ⟨events, hnoted⟩, l, q, i, hinv, hi⟩ := HolderState.exists_first_iget hnew
    hfs₀ (n := 1) (by decide)
  have hnum : (fs.inode 0).iNodeNumber = 1 := by
    rw [hnode]
    exact (hnew.2 1 (by decide)).1
  have hlook : fs.cache.hashLookup 1 0 = .ok (some 0) := by
    have := hinv.cache.lists.hashLookup_some hi
    rwa [show (fs.cache.inode 0).iNodeNumber = 1 from hnum] at this
  have hcache : ({ fs with disk := d }.setInode 0 x).cache =
      { fs.cache with inode := update fs.cache.inode 0 x } := rfl
  obtain ⟨hself, hothers⟩ := current_of_rework hlook hcache (hx.trans hnum.symm)
  refine ⟨{ fs with disk := d }.setInode 0 x, rfl, inode_setInode_self _, ?_, hself,
    fun m hm hm1 => ?_⟩
  · rw [← hlook]
    exact hashLookup_of_rework hcache (hx.trans hnum.symm) 1
  · have hfirst := current_of_inv hinv hm
    refine (hothers m hm1 ?_).trans hfirst
    have hrange : 4 ≤ m / 4 + 4 ∧ m / 4 + 4 < dataRegionStart := by
      simp only [numOfInodes, dataRegionStart] at hm ⊢
      omega
    refine Disk.diskINode_congr _ ((hd _ hrange.1 hrange.2).trans ?_)
    rw [hnoted, ← hdisk₀]
    rfl

/-- In such a state only inode 1 owns blocks. -/
theorem separate_single {fs : FS} {l : List Nat} (hothers : ∀ m < numOfInodes, m ≠ 1 →
      fs.current m = AllocState.smallDisk.makeFileSystem.diskINode m)
    (hcap : dataRegionStart ≤ fs.disk.backend.capacity) (hfree : FreeBlocks fs.disk l)
    (hsize : (fs.current 1).size ≤ maxFileSize) (hnodup : (l ++ fs.owned 1).Nodup)
    (hdata : ∀ b ∈ l ++ fs.owned 1, dataRegionStart ≤ b ∧ b < fs.disk.backend.capacity) :
    Separate fs l ∧ (fs.current 0).type = .directory := by
  obtain ⟨stale, hroot⟩ := AllocState.smallDisk.diskINode_makeFileSystem_root
  have h0 := (hothers 0 (by decide) (by decide)).trans hroot
  have hfreeType : ∀ m < numOfInodes, m ≠ 1 → m ≠ 0 → (fs.current m).type = .free := by
    intro m hm hm1 hm0
    rw [hothers m hm hm1, Disk.diskINode_makeFileSystem _ hm0 hm]
    rfl
  have hnone : ∀ m < numOfInodes, m ≠ 1 → fs.owned m = [] := by
    intro m hm hm1
    by_cases hm0 : m = 0
    · subst hm0
      have hsize0 : (fs.current 0).size = 0 := by rw [h0]; rfl
      rw [owned, fileOf, if_neg (by rw [h0]; simp), hsize0]
      exact Disk.fileBlocks_zero _ _
    · rw [owned, fileOf, if_pos (hfreeType m hm hm1 hm0)]
  obtain ⟨rest, -, hcount⟩ := exists_rest_flatMap (fun _ => ([] : List Nat)) (N := numOfInodes)
    (i := 1) (by decide)
  have hall : ∀ b, (l ++ (List.range numOfInodes).flatMap fs.owned).count b =
      (l ++ fs.owned 1).count b := by
    intro b
    have h1 := hcount fs.owned hnone b
    have h2 := hcount (fun _ => []) (fun _ _ _ => rfl) b
    have h3 : ((List.range numOfInodes).flatMap fun _ => ([] : List Nat)) = [] := by simp
    rw [h3] at h2
    simp only [List.count_append, List.count_nil] at *
    omega
  refine ⟨⟨hcap, hfree, ?_, fun b hb => hdata b ?_, fun m hm htype => ?_⟩, by rw [h0]⟩
  · exact List.nodup_iff_count_le_one.mpr fun b =>
      (hall b).le.trans (List.nodup_iff_count_le_one.mp hnodup b)
  · have := hall b
    rw [← List.count_pos_iff] at hb ⊢
    omega
  · by_cases hm1 : m = 1
    · rw [hm1]
      exact hsize
    · by_cases hm0 : m = 0
      · rw [hm0, h0]
        exact Nat.zero_le _
      · exact absurd (hfreeType m hm hm1 hm0) htype

/-- A directory of some size with one block. -/
def oneBlockDirectory (size blk : Nat) : InCoreINode :=
  { Cache.emptyINode with
    iNodeNumber := 1, type := .directory, fileMode := InCoreINode.sIfdir, size := size
    dataBlockNums := (Buffer.tabulate fun _ => 0 : Buffer Nat blocksInInode).poke 0 blk }

/-- What the calls of the examples find in memory. -/
def blankEnv : Env := ⟨0, ⟨0, 0, 0⟩, ⟨.tabulate fun _ => 0, 0⟩, fun _ => 0⟩

/-- An empty directory on a disk with the free list `l` and the inode table of a new file
system. -/
theorem exists_emptyDirectory {d : Disk} {l : List Nat}
    (hd : ∀ b, 4 ≤ b → b < dataRegionStart →
      d.blocks b = AllocState.smallDisk.makeFileSystem.blocks b)
    (hcap : dataRegionStart ≤ d.backend.capacity) (hfree : FreeBlocks d l) (hnodup : l.Nodup)
    (hdata : ∀ b ∈ l, dataRegionStart ≤ b ∧ b < d.backend.capacity) :
    ∃ fs : FS, fs.disk = d ∧ Separate fs l ∧ fs.inode 0 = oneBlockDirectory 0 0 ∧
      fs.cache.hashLookup 1 0 = .ok (some 0) ∧ (fs.current 0).type = .directory := by
  obtain ⟨fs, hdisk, hnode, hlook, hcur, hothers⟩ := exists_single (oneBlockDirectory 0 0) rfl d hd
  subst hdisk
  have hnil : fs.owned 1 = [] := by
    rw [owned, fileOf, hcur, if_neg (by simp [oneBlockDirectory])]
    exact Disk.fileBlocks_zero _ _
  obtain ⟨hsep, hroot⟩ := separate_single hothers hcap hfree (by rw [hcur]; exact Nat.zero_le _)
    (by rwa [hnil, List.append_nil]) (by rwa [hnil, List.append_nil])
  exact ⟨fs, rfl, hsep, hnode, hlook, hroot⟩

/-- On a new file system there are blocks for it. -/
theorem exists_newDirectory : ∃ (fs : FS) (l : List Nat), Separate fs l ∧ 1 ≤ l.length ∧
    fs.inode 0 = oneBlockDirectory 0 0 ∧ fs.cache.hashLookup 1 0 = .ok (some 0) ∧
    (fs.current 0).type = .directory := by
  have hown := AllocState.smallDisk.own_makeFileSystem rfl
  obtain ⟨fs, -, hsep, hnode, hlook, hroot⟩ := exists_emptyDirectory (fun _ _ _ => rfl)
    AllocState.smallDisk.le_capacity_makeFileSystem (AllocState.smallDisk.freeBlocks_makeFileSystem rfl)
    hown.nodup fun b hb => ⟨(List.mem_range'_1.mp hb).1, (hown.data b hb).2.2⟩
  exact ⟨fs, _, hsep, by rw [List.length_range']; omega, hnode, hlook, hroot⟩

/-- An entry is added to an empty directory, and the root stays as it was. -/
theorem isolated_first : ∃ fs fs', (fs.inode 0).type = .directory ∧ (fs.inode 0).size = 0 ∧
    FileCall.run 0 (.addEntry blankEnv 5 fun _ => 0x61) fs = .ok ((), fs') ∧ Isolated fs fs' 0 := by
  obtain ⟨fs, l, hsep, hlen, hnode, hlook, hroot⟩ := exists_newDirectory
  have hsize : (fs.inode 0).size = 0 := by rw [hnode]; rfl
  have htype : (fs.inode 0).type = .directory := by rw [hnode]; rfl
  obtain ⟨fs', hrun, hiso, -⟩ := isolated_of_supply (.addEntry blankEnv 5 fun _ => 0x61) hsep (m := 0)
    (n := 1) (by decide) (by decide) (by decide) hlook (by rw [htype]; decide)
    (by rw [hroot]; decide) (by simp only [FileCall.Within, hsize]; decide)
    (by simp only [FileCall.Aligned, hsize]; decide)
    (by
      simp only [FileCall.needs, hsize]
      split
      · simpa [Disk.endNeeds, Disk.newIndirect, treeLevel] using hlen
      · exact Nat.zero_le _)
  exact ⟨fs, fs', htype, hsize, hrun, hiso⟩

/-- In a directory of 1000 bytes the next entry crosses the end of a block. -/
theorem entry_crosses_block : ¬ ∀ (fs : FS) (l : List Nat) (n m : Nat) (node : NodeId)
    (call : FileCall), Separate fs l → n < numOfInodes → m < numOfInodes → m ≠ n →
      fs.cache.hashLookup n 0 = .ok (some node) → (fs.inode node).type ≠ .free →
      (fs.current m).type ≠ .free → call.Within fs node → call.needs fs node ≤ l.length →
      ∃ fs', call.run node fs = .ok ((), fs') ∧ Isolated fs fs' m ∧ ∃ l', Separate fs' l' := by
  intro hall
  have hcap : dataRegionStart ≤ AllocState.smallDisk.makeFileSystem.backend.capacity :=
    AllocState.smallDisk.le_capacity_makeFileSystem
  have hfree := AllocState.smallDisk.freeBlocks_makeFileSystem rfl
  have hown := AllocState.smallDisk.own_makeFileSystem rfl
  obtain ⟨n, hn⟩ : ∃ n, 31457280 - 16388 = n + 1 := ⟨_, rfl⟩
  rw [hn, List.range'_succ] at hfree hown
  obtain ⟨-, hfree'⟩ := Disk.blockAlloc_cons (by simp only [dataRegionStart] at hcap; omega) hfree
    fun hcon => (hown.data 2 hcon).2.1 rfl
  -- inode 1 is a directory of 1000 bytes in the block that was taken from the free list
  obtain ⟨fs, hdisk, hnode, hlook, hcur, hothers⟩ := exists_single (oneBlockDirectory 1000 16388) rfl
    AllocState.smallDisk.makeFileSystem.blockAlloc.2
    fun b hb _ => Disk.blocks_blockAlloc_of_ne _ (by omega)
  rw [← hdisk] at hfree'
  have hback : fs.disk.backend = AllocState.smallDisk.makeFileSystem.backend := by
    rw [hdisk, Disk.backend_blockAlloc]
  have hone : fs.owned 1 = [16388] := by
    rw [owned, fileOf, hcur, if_neg (by simp [oneBlockDirectory])]
    refine (Disk.fileBlocks_one fs.disk (oneBlockDirectory 1000 16388).dataBlockNums).trans ?_
    rw [Disk.fileBlock, if_pos (by decide), oneBlockDirectory, Buffer.peek_poke_self _ (by decide)]
  have hsame : ∀ b, (List.range' (16388 + 1) n ++ fs.owned 1).count b =
      (16388 :: List.range' (16388 + 1) n).count b := by
    intro b
    rw [hone, List.count_append, ← List.singleton_append (l := List.range' (16388 + 1) n),
      List.count_append]
    omega
  obtain ⟨hsep, hroot⟩ := separate_single hothers (hback ▸ hcap) hfree' (by rw [hcur]; decide)
    (List.nodup_iff_count_le_one.mpr fun b =>
      (hsame b).le.trans (List.nodup_iff_count_le_one.mp hown.nodup b)) fun b hb => by
    have hmem : b ∈ 16388 :: List.range' (16388 + 1) n := by
      have := hsame b
      rw [← List.count_pos_iff] at hb ⊢
      omega
    rw [hback]
    refine ⟨?_, (hown.data b hmem).2.2⟩
    rw [← List.range'_succ, List.mem_range'_1] at hmem
    exact hmem.1
  have hsize : (fs.inode 0).size = 1000 := by rw [hnode]; rfl
  obtain ⟨fs', hrun, -⟩ := hall fs _ 1 0 0 (.addEntry blankEnv 5 fun _ => 0x61) hsep (by decide)
    (by decide) (by decide) hlook (by rw [hnode]; simp [oneBlockDirectory]) (by rw [hroot]; decide)
    (by simp only [FileCall.Within, hsize]; decide)
    (by
      simp only [FileCall.needs, hsize, Disk.endNeeds]
      split <;> simp)
  obtain ⟨r, hfail, -⟩ := bind_eq_ok.mp hrun
  dsimp only at hfail
  have hdir : validateSearch (fs.inode 0) := by
    rw [hnode]
    decide
  have hbmap : fs.disk.bmap (fs.inode 0) (fs.inode 0).size blankEnv.response .append =
      .ok (0, createBMapResponse (fs.disk.fileBlock (fs.inode 0).dataBlockNums
        ((fs.inode 0).size / 1024)) ((fs.inode 0).size % 1024), fs.inode 0, fs.disk) := by
    refine Disk.bmap_inside (.inr ⟨rfl, by rw [hsize]; decide, rfl⟩) (by rw [hsize]; decide)
      fun b hb => ?_
    rw [hsize, Disk.indirectBlocks_direct _ _ (by decide)] at hb
    cases hb
  rw [Disk.getAndUpdateDirectoryTable, if_neg (by simpa using hdir)] at hfail
  obtain ⟨r', hr', hfail⟩ := bind_eq_ok.mp hfail
  cases hbmap.symm.trans hr'
  dsimp only at hfail
  rw [if_neg (by decide)] at hfail
  obtain ⟨d, hadd, -⟩ := bind_eq_ok.mp hfail
  simp only [Disk.addDirectoryEntry, DirectoryEntry.write, createBMapResponse, hsize] at hadd
  cases hadd

end FS

end Naofs
