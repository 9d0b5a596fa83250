import Naofs.Isolation
import Naofs.Shortage
import Naofs.Visibility

/-!
# Naofs.FullDisk

Calls that allocate, while the free list can supply their blocks and on a full disk.

`bmap` stores what `blockAlloc` returns, also a 0.  As long as the free list has the blocks
that a call asks for, the call is `Safe`: the files that it changed have data blocks of
their own, and below the data region only the lists and the records of these files are
written.  Without blocks, `truncateINode` gives block 0 to the file.
-/

namespace Naofs

namespace FS

open Disk (blockCount endNeeds Uses roundBytes roundSize writeResult)
open Function (update update_self update_of_ne)

/-- A call took `k` blocks of the free list `l` for the files of some nodes. -/
structure Safe (fs fs' : FS) (l : List Nat) (k : Nat) (nodes : List NodeId) : Prop where
  free : FreeBlocks fs'.disk (l.drop k)
  /-- The blocks of a file are different from each other and from the free ones. -/
  own : ∀ x ∈ nodes, Own fs'.disk.backend (l.drop k ++ fs'.nodeBlocks x)
  data : ∀ x ∈ nodes, ∀ b ∈ fs'.nodeBlocks x, dataRegionStart ≤ b
  /-- Below the data region only the two lists and the blocks of the records are written. -/
  low : ∀ b < dataRegionStart, b ≠ 2 → b ≠ 3 →
    (∀ x ∈ nodes, b ≠ (fs'.inode x).iNodeNumber / 4 + 4) → fs'.disk.blocks b = fs.disk.blocks b
  list : ∀ i < 512, listed (fs'.disk.blocks 3) i = listed (fs.disk.blocks 3) i ∨
    listed (fs'.disk.blocks 3) i = 0
  /-- A record is what it was, or the inode of one of the nodes. -/
  records : ∀ i < numOfInodes, fs'.disk.diskINode i = fs.disk.diskINode i ∨
    ∃ x ∈ nodes, fs'.disk.diskINode i = (fs'.inode x).toINode
  others : ∀ i < numOfInodes, (∀ x ∈ nodes, (fs'.inode x).iNodeNumber ≠ i) → fs'.seen i = fs.seen i

/-! ## Calls on one file -/

/-- What the call returns: for `writeToFile` the number of bytes. -/
def FileCall.result (node : NodeId) : FileCall → NaoM Int
  | .write env fd buf size offset => writeToFile env fd buf size offset
  | call => fun fs => do
      let (_, fs) ← call.run node fs
      .ok (0, fs)

/-- Every byte that is counted is in a block that the file had before or has now. -/
def FileCall.Counts (fs fs' : FS) (node : NodeId) (r : Int) : FileCall → Prop
  | .write _ _ _ _ offset => ∀ i : Nat, (i : Int) < r →
      (offset + i) / blockSize < blockCount (fs.inode node).size ∨
        (offset + i) / blockSize < blockCount (fs'.inode node).size
  | _ => True

section File

variable {fs fs' : FS} {node : NodeId} {l : List Nat} {n k : Nat}

/-- A change of one file that took its blocks from the free list. -/
theorem Reworks.safe (h : Separate fs l) (hn : n < numOfInodes)
    (hlook : fs.cache.hashLookup n 0 = .ok (some node)) (htype : (fs.inode node).type ≠ .free)
    (hr : Reworks fs fs' node l k) : Safe fs fs' l k [node] := by
  obtain ⟨x, y, z, hx, hz, hcache, -, huses⟩ := hr
  have hold : fs.disk.fileBlocks x.dataBlockNums (blockCount x.size) = fs.owned n := by
    rw [owned, current_of_lookup hlook, ← hx, fileOf, if_neg (hx ▸ htype)]
  have hinode : fs'.inode node = z := by
    rw [inode, hcache]
    exact update_self ..
  have hblocks : fs'.nodeBlocks node = fs'.disk.fileBlocks y.dataBlockNums (blockCount y.size) := by
    rw [nodeBlocks, hinode, hz]
  have hnum : z.iNodeNumber = (fs.inode node).iNodeNumber := by
    rw [hz, huses.touched.number, hx]
  have hfirst := h.own hn
  have hregion : ∀ b ∈ l.take k ++ fs.owned n, dataRegionStart ≤ b := by
    intro b hb
    obtain hb | hb := List.mem_append.mp hb
    · exact (h.data b (List.mem_append_left _ (List.mem_of_mem_take hb))).1
    · exact (h.mem_owned hn hb).1
  have hframe := huses.frame
  have howned := huses.owned
  rw [hold] at hframe howned
  have hlow : ∀ b < dataRegionStart, b ≠ 2 → fs'.disk.blocks b = fs.disk.blocks b := by
    intro b hb hb2
    exact hframe b hb2 fun hmem => absurd (hregion b hmem) (Nat.not_le.mpr hb)
  have htable : ∀ i < numOfInodes, fs'.disk.diskINode i = fs.disk.diskINode i := fun i hi =>
    diskINode_of_frame hregion hframe hi
  refine ⟨huses.free, ?_, ?_, fun b hb hb2 _ _ => hlow b hb hb2, fun i _ => .inl ?_,
    fun i hi => .inl (htable i hi), ?_⟩
  · intro v hv
    rw [List.mem_singleton.mp hv, hblocks]
    exact huses.own (by rwa [hold])
  · intro v hv b hb
    rw [List.mem_singleton.mp hv, hblocks] at hb
    have hpos := List.count_pos_iff.mpr hb
    exact hregion b (List.count_pos_iff.mp (hpos.trans_le (howned b)))
  · rw [hlow 3 (by decide) (by decide)]
  · intro i hi hne
    have hsame := hashLookup_of_rework hcache hnum
    refine seen_congr (fun v => by rw [Caches, Caches, hsame]) (fun v hv => ?_) (htable i hi)
    have hvn : v ≠ node := by
      rintro rfl
      refine hne v (List.mem_singleton.mpr rfl) ?_
      rw [hinode, hnum]
      exact hv.number
    rw [inode, hcache]
    exact congrArg _ (update_of_ne hvn ..)

/-- The bytes that the rounds of a write count are in blocks of the file before a round or
after the last one. -/
theorem div_lt_of_writeResult (size : Nat) : ∀ (fuel fileSize bw offset i : Nat),
    bw + i < (writeResult size fuel fileSize bw offset).1 →
    (offset + i) / 1024 < blockCount fileSize ∨
      (offset + i) / 1024 < blockCount (writeResult size fuel fileSize bw offset).2 := by
  intro fuel
  induction fuel with
  | zero =>
      intro fileSize bw offset i hi
      rw [writeResult] at hi
      omega
  | succ fuel ih =>
      intro fileSize bw offset i hi
      rw [writeResult] at hi ⊢
      split at hi
      · next hgo =>
          rw [if_pos hgo]
          obtain ⟨hk0, hk1, -⟩ := Disk.roundBytes_pos offset hgo.1
          generalize roundBytes size bw offset = j at *
          dsimp only at hi ⊢
          have hgrows := (Disk.writeResult_steady size fuel (roundSize size fileSize offset j) (bw + j)
            (offset + j) .round).2.1
          have hrest := ih (roundSize size fileSize offset j) (bw + j) (offset + j) (i - j)
          generalize writeResult size fuel (roundSize size fileSize offset j) (bw + j) (offset + j) = r
            at *
          simp only [roundSize, blockCount] at *
          by_cases hij : i < j
          · split_ifs at hgrows <;> omega
          · have hsub : offset + j + (i - j) = offset + i := by omega
            have hnext := hrest (by omega)
            rw [hsub] at hnext
            split_ifs at hgrows hnext <;> omega
      · omega

/-- `writeToFile` counts no byte without a block. -/
theorem writeToFile_counts {env : Env} {fd size offset : Nat} {buf : Nat → UInt8} {r : Int}
    (h : Separate fs l) (hn : n < numOfInodes)
    (hlook : fs.cache.hashLookup n 0 = .ok (some node)) (htype : (fs.inode node).type ≠ .free)
    (hwithin : (FileCall.write env fd buf size offset).Within fs node)
    (hneeds : (FileCall.write env fd buf size offset).needs fs node ≤ l.length)
    (hrun : fs.writeToFile env fd buf size offset = .ok (r, fs')) :
    (FileCall.write env fd buf size offset).Counts fs fs' node r := by
  obtain ⟨hopen, hmutex, h31, hmax⟩ := hwithin
  intro i hi
  by_cases hoff : offset > (fs.inode node).size
  · rw [writeToFile_past hopen hmutex env buf size hoff] at hrun
    cases hrun
    omega
  · have hown := h.own hn
    rw [owned, current_of_lookup hlook, fileOf, if_neg htype] at hown
    have hcap : 2 < fs.disk.backend.capacity := by
      have := h.stored
      simp only [dataRegionStart] at this
      omega
    have hsize : (fs.inode node).size ≤ maxFileSize := by
      have := h.sizes n hn (by rwa [current_of_lookup hlook])
      rwa [current_of_lookup hlook] at this
    rw [FileCall.needs, if_neg hoff] at hneeds
    obtain ⟨s, hloop, -, -, hcount, hend, -⟩ := Disk.writeLoop_uses env.now buf h31 (size + 1) 0
      ⟨{ fs.inode node with iNodeMutex := true }, fs.disk, env.response, 0, offset, 0⟩ l rfl
      (Nat.zero_le _) (by omega) hsize (by simpa using hmax) hcap h.free hown hneeds
    rw [writeToFile_eq hopen hmutex env buf size (Nat.le_of_not_lt hoff), hloop] at hrun
    cases hrun
    have hlt : 0 + i < (writeResult size (size + 1) (fs.inode node).size 0 offset).1 := by
      rw [hcount] at hi
      have := Int.ofNat_lt.mp hi
      rwa [Nat.zero_add]
    have hnew : ((fs.written fd node s).inode node).size =
        (writeResult size (size + 1) (fs.inode node).size 0 offset).2 := by
      rw [inode_written, update_self]
      exact hend
    rw [hnew]
    exact div_lt_of_writeResult size (size + 1) (fs.inode node).size 0 offset i hlt

/-- No `blockAlloc` of the call came back with 0. -/
def Handed (fs fs' : FS) : Prop := ∃ new, Disk.Allocates fs.disk fs'.disk new ∧ 0 ∉ new

/-- A call on one file that the free list can supply. -/
theorem FileCall.safe (call : FileCall) (h : Separate fs l) (hn : n < numOfInodes)
    (hlook : fs.cache.hashLookup n 0 = .ok (some node)) (htype : (fs.inode node).type ≠ .free)
    (hwithin : call.Within fs node) (haligned : call.Aligned fs node)
    (hneeds : call.needs fs node ≤ l.length) :
    ∃ r fs', call.result node fs = .ok (r, fs') ∧ Safe fs fs' l (call.needs fs node) [node] ∧
      Handed fs fs' ∧ call.Counts fs fs' node r := by
  obtain ⟨fs', hrun, hr⟩ := FileCall.reworks h hn hlook htype hwithin haligned hneeds
  have hsafe := hr.safe h hn hlook htype
  have hhanded : Handed fs fs' := by
    obtain ⟨x, y, z, -, -, -, -, huses⟩ := hr
    refine ⟨_, huses.allocates, fun h0 => ?_⟩
    have := (h.data 0 (List.mem_append_left _ (List.mem_of_mem_take h0))).1
    simp only [dataRegionStart] at this
    omega
  cases call with
  | write env fd buf size offset =>
      obtain ⟨⟨r, fs''⟩, hwrite, heq⟩ := bind_eq_ok.mp hrun
      cases heq
      exact ⟨r, fs', hwrite, hsafe, hhanded, writeToFile_counts h hn hlook htype hwithin hneeds hwrite⟩
  | truncate env size => exact ⟨0, fs', bind_eq_ok.mpr ⟨_, hrun, rfl⟩, hsafe, hhanded, trivial⟩
  | addEntry env num name => exact ⟨0, fs', bind_eq_ok.mpr ⟨_, hrun, rfl⟩, hsafe, hhanded, trivial⟩

/-- The inode and the disk after a change are those that it gives. -/
theorem onINode_disk {f : InCoreINode → Disk → Except Fault (InCoreINode × Disk)} {u : Unit}
    (h : onINode node f fs = .ok (u, fs')) :
    f (fs.inode node) fs.disk = .ok (fs'.inode node, fs'.disk) := by
  obtain ⟨⟨y, d⟩, hf, heq⟩ := bind_eq_ok.mp h
  cases heq
  rw [inode_setInode_self]
  exact hf

/-- **A call that asks for more blocks than there are** is handed a 0. -/
theorem FileCall.handed_zero (call : FileCall) (h : Separate fs l) (hn : n < numOfInodes)
    (hlook : fs.cache.hashLookup n 0 = .ok (some node)) (htype : (fs.inode node).type ≠ .free)
    (hwithin : call.Within fs node) (hshort : l.length < call.needs fs node) {r : Int}
    (hrun : call.result node fs = .ok (r, fs')) :
    ∃ new, Disk.Allocates fs.disk fs'.disk new ∧ 0 ∈ new := by
  have hcur := current_of_lookup hlook
  have hown := h.own hn
  rw [owned, hcur, fileOf, if_neg htype] at hown
  have hcap : 2 < fs.disk.backend.capacity := by
    have := h.stored
    simp only [dataRegionStart] at this
    omega
  have hsize : (fs.inode node).size ≤ maxFileSize := by
    have := h.sizes n hn (by rwa [hcur])
    rwa [hcur] at this
  cases call with
  | write env fd buf size offset =>
      obtain ⟨hopen, hmutex, h31, hmax⟩ := hwithin
      rw [needs] at hshort
      split at hshort
      · exact absurd hshort (Nat.not_lt_zero _)
      · next hoff =>
          simp only [result] at hrun
          rw [writeToFile_eq hopen hmutex env buf size (Nat.le_of_not_lt hoff)] at hrun
          cases hloop : Disk.writeLoop env.now buf size (size + 1)
            ⟨{ fs.inode node with iNodeMutex := true }, fs.disk, env.response, 0, offset, 0⟩ with
          | error e =>
              rw [hloop] at hrun
              cases hrun
          | ok s =>
              rw [hloop] at hrun
              cases hrun
              exact Disk.writeLoop_short env.now buf h31 (size + 1) 0
                ⟨{ fs.inode node with iNodeMutex := true }, fs.disk, env.response, 0, offset, 0⟩ s l rfl
                (Nat.zero_le _) hsize (by simpa using hmax) hcap h.free hown hshort hloop
  | truncate env size =>
      obtain ⟨hle, hmax⟩ := hwithin
      obtain ⟨⟨u, fs''⟩, hrun, heq⟩ := bind_eq_ok.mp hrun
      cases heq
      rw [run, FS.truncateINode] at hrun
      have hf := onINode_disk hrun
      rw [Disk.truncateINode] at hf
      split at hf
      · next heq =>
          rw [needs, heq, Nat.sub_self, Disk.growNeeds, if_neg (Nat.lt_irrefl 0)] at hshort
          exact absurd hshort (Nat.not_lt_zero _)
      · rw [if_neg (by omega)] at hf
        exact Disk.increaseLoop_short env.now (size - (fs.inode node).size)
          (size - (fs.inode node).size + 1) (fs.inode node) fs.disk 0 env.response l (by omega) hcap h.free
          hown hshort hf
  | addEntry env num name =>
      obtain ⟨⟨u, fs''⟩, hrun, heq⟩ := bind_eq_ok.mp hrun
      cases heq
      rw [run] at hrun
      have hf := onINode_disk hrun
      rw [needs] at hshort
      split at hshort
      · next hdir =>
          exact Disk.getAndUpdateDirectoryTable_short env num name hdir hwithin hcap h.free hown hshort hf
      · exact absurd hshort (Nat.not_lt_zero _)

end File

/-! ## A creation -/

/-- The blocks that one more entry of `n` needs; a file that is no directory gets none. -/
def entryNeeds (fs : FS) (n : Nat) : Nat :=
  if fs.tree.directory n then endNeeds (fs.seen n).size else 0

/-- What `createFile` needs in the parent `n`: an inode, blocks, and room for the entry. -/
structure Affords (fs : FS) (l : List Nat) (fileType : INodeType) (n : Nat) : Prop where
  inode : ∃ k < 511, listed (fs.disk.blocks 3) k ≠ 0
  blocks : fs.entryNeeds n + firstNeeds fileType ≤ l.length
  size : fs.tree.directory n → (fs.seen n).size + 64 ≤ maxFileSize

/-- On the way of a creation of `m` in `n`, which has taken `j` blocks. -/
structure Spent (fs : FS) (l : List Nat) (j n m : Nat) (fs' : FS) : Prop where
  free : FreeBlocks fs'.disk (l.drop j)
  backend : fs'.disk.backend = fs.disk.backend
  low : ∀ b < dataRegionStart, b ≠ 2 → b ≠ 3 → b ≠ n / 4 + 4 → b ≠ m / 4 + 4 →
    fs'.disk.blocks b = fs.disk.blocks b
  list : ∀ i < 512, listed (fs'.disk.blocks 3) i = listed (fs.disk.blocks 3) i ∨
    listed (fs'.disk.blocks 3) i = 0
  records : ∀ i < numOfInodes, i ≠ m → fs'.disk.diskINode i = fs.disk.diskINode i
  others : ∀ i < numOfInodes, i ≠ n → i ≠ m → fs'.seen i = fs.seen i

section Create

variable {fs fs₁ fs₂ : FS} {held held' : List NodeId} {l : List Nat} {n m k j j' : Nat} {x z : NodeId}
  {y : InCoreINode} {path name : Name} {env : Env} {fileType : INodeType}

/-- A step on the inode `i` that writes no block below the data region but the free list. -/
theorem Spent.touch (h : Spent fs l j n m fs₁) {i : Nat} (hi : i = n ∨ i = m)
    (ht : Coherent.Touched fs₁ held' i y fs₂)
    (hlow : ∀ b < dataRegionStart, b ≠ 2 → fs₂.disk.blocks b = fs₁.disk.blocks b)
    (hback : fs₂.disk.backend = fs₁.disk.backend) (hfree : FreeBlocks fs₂.disk (l.drop j')) :
    Spent fs l j' n m fs₂ where
  free := hfree
  backend := hback.trans h.backend
  low := fun b hb h2 h3 hbn hbm => (hlow b hb h2).trans (h.low b hb h2 h3 hbn hbm)
  list := by
    rw [hlow 3 (by decide) (by decide)]
    exact h.list
  records := by
    intro v hv hvm
    refine Eq.trans (Disk.diskINode_congr _ (hlow _ ?_ (by omega))) (h.records v hv hvm)
    simp only [numOfInodes, dataRegionStart] at hv ⊢
    omega
  others := by
    intro v hv hvn hvm
    rw [ht.others v hv (by rintro rfl; exact hi.elim hvn hvm)]
    exact h.others v hv hvn hvm

/-- Fetching an inode takes no block. -/
theorem Spent.fetch (h : Spent fs l j n m fs₁) {i : Nat} (hz : Coherent.Fetched fs₁ held' i z fs₂) :
    Spent fs l j n m fs₂ where
  free := h.free.frame hz.disk.backend (congrFun hz.disk.blocks 2) fun b _ => congrFun hz.disk.blocks b
  backend := hz.disk.backend.trans h.backend
  low := by
    rw [hz.disk.blocks]
    exact h.low
  list := by
    rw [hz.disk.blocks]
    exact h.list
  records := by
    rw [hz.disk.diskINode]
    exact h.records
  others := fun v hv hvn hvm => (hz.seen v hv).trans (h.others v hv hvn hvm)

/-- The inode of the list that becomes the new file. -/
theorem Stocked.allocate_spent (h : Stocked fs held l) (hx : Standing fs held fs₁ x n) (hn : fs.tree.Reached n)
    {mode uid gid : UInt32} {new : INode} (hk : k < 511) (hz : ∀ i < k, listed (fs.disk.blocks 3) i = 0)
    (hne : listed (fs.disk.blocks 3) k ≠ 0)
    (hrun : getNewINode env fileType mode uid gid fs₁ = .ok (listed (fs.disk.blocks 3) k, fs₂))
    (ha : Allocated fs held x n (listed (fs.disk.blocks 3) k) k new fs₂) :
    Spent fs l 0 n (listed (fs.disk.blocks 3) k) fs₂ := by
  have hblocks := hx.disk.blocks
  have hcap : dataRegionStart ≤ fs₁.disk.backend.capacity := hx.coherent.stored
  have hz₁ : ∀ i < k, listed (fs₁.disk.blocks 3) i = 0 := by rwa [hblocks]
  have hne₁ : listed (fs₁.disk.blocks 3) k ≠ 0 := by rwa [hblocks]
  obtain ⟨-, -, -, htable⟩ := Disk.getNewINode_take hcap hz₁ env.now fileType mode uid gid hk hne₁
  obtain ⟨-, hframe⟩ := Disk.getNewINode_taken hcap hz₁ env.now fileType mode uid gid hk hne₁
  rw [hblocks] at htable hframe
  have hdisk : fs₂.disk = (fs₁.disk.getNewINode env.now fileType mode uid gid).2 := by
    have hpair := Except.ok.inj hrun
    rw [← (Prod.mk.inj hpair).2]
  rw [← hdisk] at htable hframe
  refine ⟨by rw [List.drop_zero]; exact ha.freeBlocks h hn, ha.data.backend, ?_, ?_, ?_, ?_⟩
  · exact fun b _ _ h3 _ hbm => (hframe b h3 hbm).trans rfl
  · intro i hi
    rw [ha.list i hi]
    split
    · exact .inr rfl
    · exact .inl rfl
  · intro i _ him
    rw [htable i him, hx.disk.diskINode]
  · exact fun i hi _ him => ha.others i hi him

/-- **The parent**, which is a directory or not. -/
theorem Allocated.stage (h : Stocked fs held l) {new : INode} (hx : Allocated fs held x n m k new fs₁)
    (hn : fs.tree.Reached n) (hnm : n ≠ m) (hm : m < numOfInodes) (env : Env) (name : Name)
    (hsize : fs.tree.directory n → (fs.seen n).size + 64 ≤ maxFileSize)
    (hlen : fs.entryNeeds n ≤ l.length) (hspent : Spent fs l 0 n m fs₁) :
    ∃ y fs₂, getAndUpdateDirectoryTable env x m name fs₁ = .ok ((), fs₂) ∧
      Staged fs held l x n (fs.entryNeeds n) y fs₂ ∧ Spent fs l (fs.entryNeeds n) n m fs₂ ∧
      fs₂.seen m = new ∧ y.linksCount = (fs.seen n).linksCount := by
  rw [entryNeeds] at hlen ⊢
  by_cases hdir : fs.tree.directory n
  · rw [if_pos hdir] at hlen ⊢
    obtain ⟨y, d, heq, hfits, hchanged, huses, -⟩ := hx.add h hn hdir env name (hsize hdir) hlen
    obtain ⟨y', fs₂, heq', hentered⟩ := h.enter hx hn hnm hm hdir env name (hsize hdir) hlen
    cases heq.symm.trans heq'
    have hsame : { y with linksCount := (fs₁.inode x).linksCount } = y := by rw [← huses.touched.links]
    obtain ⟨ht, hlow⟩ := hx.coherent.spend List.mem_cons_self hx.caches (by rwa [hsame])
      (fun b hb => hx.le_of_mem h hn hb) hfits hchanged
    exact ⟨y', _, heq, hentered.staged, hspent.touch (.inl rfl) ht hlow huses.backend huses.free,
      hentered.new, hentered.links⟩
  · rw [if_neg hdir] at hlen ⊢
    have hsearch : ¬ validateSearch (fs₁.inode x) := by
      rw [validateSearch, hx.value]
      exact hdir
    have hrun : getAndUpdateDirectoryTable env x m name fs₁ = .ok ((), fs₁) := by
      have heq : fs₁.disk.getAndUpdateDirectoryTable env (fs₁.inode x) m (Disk.bytesOf env name) =
          .ok (fs₁.inode x, fs₁.disk) := by
        rw [Disk.getAndUpdateDirectoryTable, if_pos hsearch]
      refine (onINode_ok heq).trans ?_
      rw [setInode, inode, Function.update_eq_self]
    refine ⟨fs₁.inode x, fs₁, hrun, ⟨hx.coherent, hx.caches, rfl, hx.kept, ?_, hx.data.backend,
      hspent.free, ?_⟩, hspent, hx.new, by rw [hx.value]⟩
    · rw [hx.value]
      exact h.size n hn
    · intro b
      rw [List.take_zero, List.nil_append, ← hx.nodeBlocks h hn]
      exact le_rfl

/-- **The references** to the parent and to the new file are given back. -/
theorem Spent.finish (h : Stocked fs held l) (hn : fs.tree.Reached n) (hs : Spent fs l j n m fs₁)
    (hcoherent : Coherent fs₁ (z :: x :: held)) (hparent : fs₁.Caches n x) (hchild : fs₁.Caches m z)
    (hfresh : z ∉ x :: held) (hnm : n ≠ m) (hlinks : (fs₁.inode x).linksCount ≠ 0 ∨ n = 0)
    (hlinked : (fs₁.inode z).linksCount ≠ 0)
    (hsize : ∀ v ∈ [x, z], (fs₁.inode v).size ≤ maxFileSize)
    (howned : ∀ b, (fs₁.nodeBlocks x).count b + (fs₁.nodeBlocks z).count b + (l.drop j).count b ≤
      l.count b + (fs.blocksOf n).count b) (now : UInt64) :
    ∃ fs₂ fs₃, fs₁.iput now x = .ok (0, fs₂) ∧ fs₂.iput now z = .ok (0, fs₃) ∧
      Safe fs fs₃ l j [x, z] := by
  have hlt := hcoherent.number n x hparent
  have hltm := hcoherent.number m z hchild
  obtain ⟨fs₂, hput, hx⟩ := (hcoherent.perm (List.Perm.swap z x held)).iput now hparent (.inr hlinks)
  obtain ⟨fs₃, hput', hz⟩ := hx.coherent.iput now ((hx.caches m z).mpr hchild)
    (.inr (.inl (by rw [hx.value]; exact hlinked)))
  have hvalue : ∀ v, (fs₃.inode v).toINode = (fs₁.inode v).toINode := fun v =>
    (hz.value v).trans (hx.value v)
  have hfirst := hx.sameData hlt
  have hsecond := hz.sameData hltm
  have hsame : SameData fs₁.disk fs₃.disk := ⟨hsecond.backend.trans hfirst.backend, fun b hb =>
    (hsecond.blocks b hb).trans (hfirst.blocks b hb)⟩
  have hregion : ∀ b, 0 < l.count b + (fs.blocksOf n).count b → dataRegionStart ≤ b := by
    intro b hb
    rw [← List.count_append, List.count_pos_iff] at hb
    exact h.data n hn b hb
  -- both files have blocks of the parent and of the free list only
  have hcount : ∀ v ∈ [x, z], ∀ b, (fs₁.nodeBlocks v).count b + (l.drop j).count b ≤
      l.count b + (fs.blocksOf n).count b := by
    intro v hv b
    have := howned b
    simp only [List.mem_cons, List.not_mem_nil, or_false] at hv
    obtain rfl | rfl := hv <;> omega
  have hdata : ∀ v ∈ [x, z], ∀ b ∈ fs₁.nodeBlocks v, dataRegionStart ≤ b := by
    intro v hv b hb
    have := hcount v hv b
    have := List.count_pos_iff.mpr hb
    exact hregion b (by omega)
  have hblocks : ∀ v ∈ [x, z], fs₃.nodeBlocks v = fs₁.nodeBlocks v := by
    intro v hv
    rw [nodeBlocks, hvalue]
    exact hsame.fileBlocks (hsize v hv) (hdata v hv)
  have hnum : (fs₃.inode x).iNodeNumber = n ∧ (fs₃.inode z).iNodeNumber = m := by
    rw [hvalue, hvalue]
    exact ⟨hparent.number, hchild.number⟩
  refine ⟨fs₂, fs₃, hput, hput', ?_, ?_, ?_, ?_, ?_, ?_, ?_⟩
  · refine hsame.freeBlocks (fun b hb => ?_) hs.free
    exact h.data n hn b (List.mem_append_left _ (List.mem_of_mem_drop hb))
  · intro v hv
    rw [hblocks v hv, hsame.backend, hs.backend]
    refine (h.own n hn).mono fun b => ?_
    have := hcount v hv b
    simp only [List.count_append]
    omega
  · intro v hv
    rw [hblocks v hv]
    exact hdata v hv
  · intro b hb h2 h3 hrecord
    have hbn := hrecord x (by simp)
    have hbm := hrecord z (by simp)
    rw [hnum.1] at hbn
    rw [hnum.2] at hbm
    rw [hz.blocks b hbm, hx.blocks b hbn]
    exact hs.low b hb h2 h3 hbn hbm
  · rw [hz.blocks 3 (by omega), hx.blocks 3 (by omega)]
    exact hs.list
  · intro i hi
    by_cases him : i = m
    · subst him
      refine .inr ⟨z, by simp, ?_⟩
      rw [(hz.last fun hcon => hfresh (List.mem_cons_of_mem _ hcon)).2, hvalue, hx.value]
    · rw [(hz.others i hi him).2]
      by_cases hin : i = n
      · subst hin
        by_cases hmem : x ∈ z :: held
        · rw [(hx.shared hmem).2.diskINode]
          exact .inl (hs.records i hi him)
        · rw [(hx.last hmem).2, ← hvalue]
          exact .inr ⟨x, by simp, rfl⟩
      · rw [(hx.others i hi hin).2]
        exact .inl (hs.records i hi him)
  · intro i hi hne
    have hin : i ≠ n := fun hcon => hne x (by simp) (hnum.1.trans hcon.symm)
    have him : i ≠ m := fun hcon => hne z (by simp) (hnum.2.trans hcon.symm)
    rw [(hz.others i hi him).1, (hx.others i hi hin).1]
    exact hs.others i hi hin him

/-- **The rest of `createFile`**, with a reference to the parent. -/
theorem Stocked.creates_safe (h : Stocked fs held l) (hx : Standing fs held fs₁ x n)
    (hn : fs.tree.Reached n) (htype : fileType ≠ .free) (mode uid gid : UInt32)
    (hafford : Affords fs l fileType n)
    (hvalidate : validateThenGetParentINode env fileType path fs = .ok (some (x, name), fs₁)) :
    (∃ fs' z, createFile env path fileType mode uid gid fs = .ok (0, fs') ∧
      Safe fs fs' l (fs.entryNeeds n + firstNeeds fileType) [x, z]) ∨
    (∀ z, z ∈ x :: held) ∧ ∀ r, createFile env path fileType mode uid gid fs ≠ .ok r := by
  obtain ⟨k, hk, hne, hz⟩ := exists_firstSlot hafford.inode
  have hlen := hafford.blocks
  have hunused := h.unused k (by omega) hne
  have hlt : listed (fs.disk.blocks 3) k < numOfInodes := listed_lt _ _
  have hnm : n ≠ listed (fs.disk.blocks 3) k := fun hcon =>
    hunused.unreached h.toTreeState hne (hcon ▸ hn)
  obtain ⟨fs₂, hget, halloc⟩ := h.allocate hx hn env fileType
    (if fileType = .directory then InCoreINode.sIfdir ||| mode else mode) uid gid hk hz rfl hne
  have hspent := h.allocate_spent hx hn hk hz hne hget halloc
  obtain ⟨y, fs₃, hadd, hstaged, hspent, hnew, hlinks⟩ := halloc.stage h hn hnm hlt env name hafford.size
    (by omega) hspent
  obtain ⟨z, fs₄, higet, hfetched⟩ | ⟨hnone, higet⟩ := hstaged.coherent.iget hlt
  · have hfresh := hstaged.fresh hfetched hnm hunused
    obtain ⟨hxz, hy, hcaches⟩ := hstaged.parent hfetched hfresh
    obtain ⟨w, fs₅, hinit, hi, -, hcount⟩ := hstaged.start h hn hfetched hfresh env htype
      (by rw [hnew]; rfl) hlen
    have hinodes : fs₅.inode x = y ∧ fs₅.inode z = w := by
      rw [hi.inode, update_of_ne hxz, update_self]
      exact ⟨hy, rfl⟩
    have hfree := hi.uses.free
    rw [List.drop_drop] at hfree
    replace hspent := (hspent.fetch hfetched).touch (.inr rfl) hi.touched hi.low hi.uses.backend hfree
    obtain ⟨fs₆, fs₇, hput, hput', hsafe⟩ := hspent.finish h hn hi.touched.coherent
      ((hi.touched.caches n x).mpr hcaches) ((hi.touched.caches _ z).mpr hfetched.caches) hfresh hnm
      (by
        rw [hinodes.1, hlinks]
        by_cases h0 : n = 0
        · exact .inr h0
        · exact .inl (h.linked n hn h0))
      (by rw [hinodes.2]; exact hi.linked)
      (by
        intro v hv
        simp only [List.mem_cons, List.not_mem_nil, or_false] at hv
        obtain rfl | rfl := hv
        · rw [hinodes.1]
          exact hstaged.bounded
        · rw [hinodes.2]
          obtain h0 | h128 := hi.small
          · rw [h0]
            decide
          · rw [h128]
            decide)
      (by
        intro b
        rw [nodeBlocks, nodeBlocks, hinodes.1, hinodes.2]
        exact hcount b) env.now
    exact .inl ⟨fs₇, z, createFile_eq_ok hvalidate hget hadd higet hinit hput hput', hsafe⟩
  · exact .inr ⟨fun z => (hnone z).1, createFile_ne_ok hvalidate hget hadd higet⟩

/-- A call that changed nothing. -/
theorem Unchanged.safe (h : Stocked fs held l) {fs' : FS} (hsame : Unchanged fs fs') :
    Safe fs fs' l 0 [] := by
  have hnil : ∀ v : NodeId, v ∉ ([] : List NodeId) := fun _ => List.not_mem_nil
  refine ⟨?_, fun v hv => absurd hv (hnil v), fun v hv => absurd hv (hnil v), fun b _ _ _ _ => ?_,
    fun i _ => .inl ?_, fun i _ => .inl ?_, fun i hi _ => hsame.inodes i hi⟩
  · rw [List.drop_zero]
    exact h.free.frame hsame.disk.backend (congrFun hsame.disk.blocks 2) fun b _ =>
      congrFun hsame.disk.blocks b
  · rw [hsame.disk.blocks]
  · rw [hsame.disk.blocks]
  · rw [hsame.disk.diskINode]

/-- The parent to which the path leads can take the file, unless the call is refused. -/
def Sustains (fs : FS) (l : List Nat) (fileType : INodeType) (path : Name) : Prop :=
  ∀ n, (components (parentPath path)).foldlM fs.tree.follow 0 = some n → fileType ≠ .free →
    (fs.tree.directory n && (fs.tree.entry n (lastName path)).isSome) = false →
    Affords fs l fileType n

/-- **`createFile` is safe** in every state that can supply it.  It does not return if there
is no node for the parent or for the new file. -/
theorem Stocked.createFile_safe (h : Stocked fs held l) (env : Env) (fileType : INodeType)
    (mode uid gid : UInt32) (h0 : (0 : UInt8) ∉ path) (hsup : Sustains fs l fileType (slash :: path)) :
    (∃ r fs' k nodes, createFile env (slash :: path) fileType mode uid gid fs = .ok (r, fs') ∧
      Safe fs fs' l k nodes) ∨
    (∀ z z', z ∉ held → z' ∉ held → z = z') ∧
      ∀ r, createFile env (slash :: path) fileType mode uid gid fs ≠ .ok r := by
  obtain ⟨-, fs', hvalidate, hsame⟩ | ⟨hno, -⟩ := h.validate_cases env fileType h0
  · exact .inl ⟨-1, fs', 0, [], NaoM.bind_eq_ok.mpr ⟨_, _, hvalidate, rfl⟩, hsame.safe h⟩
  · have htype : fileType ≠ .free := fun hcon => hno (.fileType hcon)
    have hslash : slash ∈ slash :: path := List.mem_cons_self
    have hbytes : (0 : UInt8) ∉ slash :: path := by simpa using h0
    rw [← parentPath_append_lastName (slash :: path), List.mem_append, not_or] at hbytes
    obtain ⟨rest, hpath⟩ := parentPath_slash path
    have hrest : (0 : UInt8) ∉ rest := by
      have := hbytes.1
      rw [hpath] at this
      exact fun hmem => this (List.mem_cons_of_mem _ hmem)
    obtain ⟨hnone, -⟩ | ⟨-, hroot, x, n, fs₁, hway, hrun, hx, hn⟩ | ⟨-, hroot, hrun⟩ :=
      h.getFileINode_cases env hrest
    · exact absurd (.parent (hpath ▸ hnone)) hno
    · have habsent : (fs.tree.directory n && (fs.tree.entry n (lastName (slash :: path))).isSome) =
          false := by
        refine Bool.eq_false_iff.mpr fun hthere => ?_
        obtain ⟨hdir, hentry⟩ := Bool.and_eq_true_iff.mp hthere
        obtain ⟨m, hm⟩ := Option.isSome_iff_exists.mp hentry
        exact hno (.name hroot (hpath ▸ hway) hdir hm)
      have hafford := hsup n (by
        rw [hpath]
        exact foldlM_of_some (fun _ _ _ => follow_of_advance) _ hway) htype habsent
      have hvalidate := h.validate_ok hx hn htype hbytes.2 hslash (by rw [hpath]; exact hrun) habsent
      obtain ⟨fs', z, hcreate, hsafe⟩ | ⟨hall, hnot⟩ :=
        h.creates_safe hx hn htype mode uid gid hafford hvalidate
      · exact .inl ⟨0, fs', _, _, hcreate, hsafe⟩
      · refine .inr ⟨fun z z' hz hz' => ?_, hnot⟩
        have hzx := (List.mem_cons.mp (hall z)).resolve_right hz
        have hzx' := (List.mem_cons.mp (hall z')).resolve_right hz'
        exact hzx.trans hzx'.symm
    · refine .inr ⟨fun z z' hz _ => ?_, fun ⟨r, fs'⟩ heq => ?_⟩
      · exact absurd (h.available ⟨z, h.coherent.idle_iff.mpr hz⟩ 0) hroot
      · obtain ⟨_, _, hvalidate, -⟩ := NaoM.bind_eq_ok.mp heq
        rw [validateThenGetParentINode, if_neg (by cases fileType <;> simp_all),
          getParentINode_eq env hslash, hpath] at hvalidate
        obtain ⟨_, _, hrun', -⟩ := NaoM.bind_eq_ok.mp hvalidate
        cases hrun.symm.trans hrun'

end Create

/-- **Safety while there are blocks.**  A call on one file is safe exactly if the free list
has the blocks that it asks for.  `createFile` is safe if the parent can take the file; for
it this direction only is proved, and the other one for `getAndUpdateDirectoryTable`, through
which it allocates. -/
theorem supplied_calls_safe (fs : FS) (l : List Nat) :
    (∀ (call : FileCall) (n : Nat) (node : NodeId), Separate fs l → n < numOfInodes →
      fs.cache.hashLookup n 0 = .ok (some node) → (fs.inode node).type ≠ .free →
      call.Within fs node → call.Aligned fs node →
      ((∃ r fs', call.result node fs = .ok (r, fs') ∧ Safe fs fs' l (call.needs fs node) [node] ∧
        Handed fs fs' ∧ call.Counts fs fs' node r) ↔ call.needs fs node ≤ l.length)) ∧
    ∀ (held : List NodeId) (env : Env) (path : Name) (fileType : INodeType) (mode uid gid : UInt32),
      Stocked fs held l → (0 : UInt8) ∉ path → Sustains fs l fileType (slash :: path) →
      (∃ r fs' k nodes, createFile env (slash :: path) fileType mode uid gid fs = .ok (r, fs') ∧
        Safe fs fs' l k nodes) ∨
      (∀ z z', z ∉ held → z' ∉ held → z = z') ∧
        ∀ r, createFile env (slash :: path) fileType mode uid gid fs ≠ .ok r := by
  refine ⟨fun call n node h hn hlook htype hwithin haligned => ⟨?_, fun hneeds => ?_⟩, ?_⟩
  · rintro ⟨r, fs', hrun, -, ⟨new, hnew, h0⟩, -⟩
    refine Nat.le_of_not_lt fun hshort => h0 ?_
    obtain ⟨new', hnew', hzero⟩ := call.handed_zero h hn hlook htype hwithin hshort hrun
    rwa [hnew.unique hnew']
  · exact call.safe h hn hlook htype hwithin haligned hneeds
  · exact fun held env path fileType mode uid gid h h0 hsup =>
      h.createFile_safe env fileType mode uid gid h0 hsup

/-- An entry in an empty directory, and the directory `d` in a new file system. -/
theorem supplied_calls_safe_first :
    (∃ fs l r fs', FileCall.result 0 (.addEntry blankEnv 5 fun _ => 0x61) fs = .ok (r, fs') ∧
      Safe fs fs' l 1 [0] ∧ Handed fs fs') ∧
    ∃ fs l r fs' k nodes, createFile blankEnv [slash, 0x64] .directory 0o755 0 0 fs = .ok (r, fs') ∧
      Safe fs fs' l k nodes := by
  constructor
  · obtain ⟨fs, l, hsep, hlen, hnode, hlook, -⟩ := exists_newDirectory
    have hneeds : FileCall.needs fs 0 (.addEntry blankEnv 5 fun _ => 0x61) = 1 := by
      simp only [FileCall.needs, hnode]
      decide
    obtain ⟨r, fs', hrun, hsafe, hhanded, -⟩ := ((supplied_calls_safe fs l).1
      (.addEntry blankEnv 5 fun _ => 0x61) 1 0 hsep (by decide) hlook (by rw [hnode]; decide)
      (by simp only [FileCall.Within, hnode]; decide)
      (by simp only [FileCall.Aligned, hnode]; decide)).mpr (by rwa [hneeds])
    rw [hneeds] at hsafe
    exact ⟨fs, l, r, fs', hrun, hsafe, hhanded⟩
  · obtain ⟨fs, l, h, hmode, hsize, -, hlisted, hlen⟩ := exists_newVolume
    have hafford : Affords fs l .directory 0 := by
      have hdir := newVolume_directory hmode
      refine ⟨⟨0, by decide, by rw [hlisted]; decide⟩, ?_, fun _ => by rw [hsize]; decide⟩
      rw [entryNeeds, if_pos hdir, hsize]
      exact hlen
    obtain ⟨r, fs', k, nodes, hrun, hsafe⟩ | ⟨hone, -⟩ := (supplied_calls_safe fs l).2 [] blankEnv [0x64]
      .directory 0o755 0 0 h (by decide) fun n hn _ _ => by
        cases hn
        exact hafford
    · exact ⟨fs, l, r, fs', k, nodes, hrun, hsafe⟩
    · exact absurd (hone 0 1 List.not_mem_nil List.not_mem_nil) (by decide)

/-! ## A full disk -/

/-- A new file system whose blocks are all taken. -/
def fullDisk : Disk := AllocState.smallDisk.makeFileSystem.store 2
  (writeFreeDiskListBlock (.tabulate fun _ => 0) (AllocState.smallDisk.makeFileSystem.blocks 2))

/-- On that disk all blocks but the list block are as formatted. -/
theorem blocks_fullDisk {b : Nat} (hb : b ≠ 2) :
    fullDisk.blocks b = AllocState.smallDisk.makeFileSystem.blocks b := by
  rw [fullDisk]
  exact Disk.blocks_store_of_ne _ hb _

theorem capacity_fullDisk : dataRegionStart ≤ fullDisk.backend.capacity := by
  rw [fullDisk, Disk.backend_store]
  exact AllocState.smallDisk.le_capacity_makeFileSystem

/-- No block is free. -/
theorem freeBlocks_fullDisk : FreeBlocks fullDisk [] := by
  have hcap : 2 < AllocState.smallDisk.makeFileSystem.backend.capacity := by
    have := AllocState.smallDisk.le_capacity_makeFileSystem
    simp only [dataRegionStart] at this
    omega
  have hzero : ∀ i < 128, slot (fullDisk.blocks 2) i = 0 := by
    intro i hi
    rw [fullDisk, Disk.blocks_store_self _ hcap, slot_writeFreeDiskListBlock _ _ hi, Buffer.peek_tabulate]
    split <;> rfl
  have hstack : Stack fullDisk (fullDisk.blocks 2) (front (fullDisk.blocks 2)) :=
    .last (hzero 127 (by omega))
  rwa [front_eq_nil.mpr fun i hi => hzero i (by omega)] at hstack

/-- On a full disk the first entry of a directory is written to block 0, which becomes a
block of the directory. -/
theorem entry_in_block_zero : ¬ ∀ (fs : FS) (l : List Nat) (n : Nat) (node : NodeId) (call : FileCall),
    Separate fs l → n < numOfInodes → fs.cache.hashLookup n 0 = .ok (some node) →
    (fs.inode node).type ≠ .free → call.Within fs node → call.Aligned fs node →
    ∃ r fs' k, call.result node fs = .ok (r, fs') ∧ Safe fs fs' l k [node] := by
  intro hall
  obtain ⟨fs, hdisk, hsep, hnode, hlook, -⟩ := exists_emptyDirectory (d := fullDisk) (l := [])
    (fun b hb _ => blocks_fullDisk (by omega)) capacity_fullDisk freeBlocks_fullDisk
    List.nodup_nil fun b hb => absurd hb List.not_mem_nil
  obtain ⟨r, fs', k, hrun, hsafe⟩ := hall fs [] 1 0 (.addEntry blankEnv 5 fun _ => 0x61) hsep (by decide)
    hlook (by rw [hnode]; decide) (by simp only [FileCall.Within, hnode]; decide)
    (by simp only [FileCall.Aligned, hnode]; decide)
  obtain ⟨⟨u, fs''⟩, hrun, heq⟩ := bind_eq_ok.mp hrun
  cases heq
  rw [FileCall.run] at hrun
  have hf := onINode_disk hrun
  rw [hnode] at hf
  have hcap : 2 < fs.disk.backend.capacity := by
    have := capacity_fullDisk
    rw [← hdisk] at this
    simp only [dataRegionStart] at this
    omega
  obtain ⟨hsize, hnums⟩ := Disk.getAndUpdateDirectoryTable_full (by decide) (by decide) (by decide)
    (by decide) hcap hsep.free hf
  have hmem : 0 ∈ fs'.nodeBlocks 0 := by
    rw [nodeBlocks, hsize, hnums, show (oneBlockDirectory 0 0).size = 0 from rfl,
      show blockCount (0 + 64) = 1 from rfl, Disk.fileBlocks_one, List.mem_singleton, Disk.fileBlock,
      if_pos (by decide), Buffer.peek_poke_self _ (by decide)]
  exact absurd (hsafe.data 0 (List.mem_singleton.mpr rfl) 0 hmem) (by decide)

end FS

end Naofs
