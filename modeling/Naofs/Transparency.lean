import Naofs.CacheRuns

/-!
# Naofs.Transparency

What `iget` returns, over runs of `iget`, `iput` and updates through references
that are held.

`written n` is what was last written to inode `n` through any reference, wherever
the inode has been since then.  `iget` reads a cached inode without links from
disk again, so that what is in core and not yet on disk is lost; the root never
has links.  `transparent_of_clean_run` says that nothing else goes wrong.
-/

namespace Naofs

open Function (update update_self update_of_ne)

/-- An update of an inode in core. -/
inductive INodeUpdate where
  | updateINodeMetadata (sizeDifference : Int) (linkCount : Nat)
  | changeMode (mode : UInt32)
  | changeOwner (uid gid : UInt32)
  /-- `insertDataBlockInINode` followed by `updateINodeMetadata`. -/
  | insertDataBlock (blockNum : Nat) (sizeDifference : Int) (linkCount : Nat)

namespace INodeUpdate

def apply (now : UInt64) (d : Disk) (x : InCoreINode) : INodeUpdate →
    Except Fault (InCoreINode × Disk)
  | .updateINodeMetadata sizeDifference linkCount =>
      .ok (x.updateINodeMetadata now sizeDifference linkCount, d)
  | .changeMode mode => .ok (x.assignMode mode, d)
  | .changeOwner uid gid => .ok (x.assignOwner uid gid, d)
  | .insertDataBlock blockNum sizeDifference linkCount => do
      let (x, d) ← d.insertDataBlockInINode x blockNum
      .ok (x.updateINodeMetadata now sizeDifference linkCount, d)

/-- The numbers of the update are 64-bit numbers. -/
def Fits : INodeUpdate → Prop
  | .updateINodeMetadata _ linkCount => linkCount < 2 ^ 64
  | .changeMode _ => True
  | .changeOwner _ _ => True
  | .insertDataBlock blockNum _ linkCount => blockNum < 2 ^ 64 ∧ linkCount < 2 ^ 64

/-- A block number is a `size_t` at every level. -/
theorem allocateAllNeededBlocks_lt (d : Disk) {cur : Nat} (hcur : cur < 2 ^ 64) (blk off : Nat)
    (offsets : List Nat) : (d.allocateAllNeededBlocks cur blk off offsets).1 < 2 ^ 64 := by
  simp only [Disk.allocateAllNeededBlocks]
  split
  · unfold Disk.allocateIfNeeded
    split
    · exact d.blockAlloc_lt
    · simp
  · exact hcur

/-- Every block number in the inode stays a 64-bit number. -/
theorem insertDataBlockInINode_fits {d d' : Disk} {x y : InCoreINode} {blk : Nat} (hx : x.Fits)
    (hblk : blk < 2 ^ 64) (h : d.insertDataBlockInINode x blk = .ok (y, d')) :
    y.Fits ∧ ∃ nums size changed, y =
      { x with dataBlockNums := nums, size := size, inodeChanged := changed } := by
  have hpoke : ∀ j v, v < 2 ^ 64 → ∀ i < 13, (x.dataBlockNums.poke j v).peek i < 2 ^ 64 := by
    intro j v hv i hi
    rw [Buffer.peek_poke]
    split
    · exact hv
    · exact hx.dataBlockNums i hi
  unfold Disk.insertDataBlockInINode at h
  split at h
  · cases h
    exact ⟨hx, _, _, _, rfl⟩
  · split at h
    · cases h
    · next o _ =>
        unfold Disk.updateIndex at h
        split at h
        · cases h
          exact ⟨⟨hx.deviceNumber, hx.iNodeNumber, hx.linksCount, hpoke _ _ hblk, hx.size⟩,
            _, _, _, rfl⟩
        · split at h
          · cases h
          · next off offsets _ =>
              have hcur : x.dataBlockNums.peek (directBlockLimit + o.offsetIndirection.toNat) <
                  2 ^ 64 := by
                by_cases hslot : directBlockLimit + o.offsetIndirection.toNat < 13
                · exact hx.dataBlockNums _ hslot
                · rw [Buffer.peek_of_le _ (Nat.le_of_not_lt hslot)]
                  decide
              have hentry := allocateAllNeededBlocks_lt d hcur blk off offsets
              simp only [Except.ok.injEq, Prod.mk.injEq] at h
              obtain ⟨rfl, -⟩ := h
              refine ⟨InCoreINode.fits_updateINodeMetadata ?_ _ _ hx.linksCount, _, _, _, rfl⟩
              exact ⟨hx.deviceNumber, hx.iNodeNumber, hx.linksCount, hpoke _ _ hentry, hx.size⟩

/-- What an update can do. -/
theorem apply_spec {now : UInt64} {d d' : Disk} {x y : InCoreINode} {u : INodeUpdate} (hx : x.Fits)
    (hu : u.Fits) (h : u.apply now d x = .ok (y, d')) :
    y.Fits ∧ y.iNodeNumber = x.iNodeNumber ∧ y.deviceNumber = x.deviceNumber ∧
      y.iNodeMutex = x.iNodeMutex ∧ y.referenceCount = x.referenceCount ∧
      (y.inodeChanged = true ∨ y = x) := by
  cases u with
  | updateINodeMetadata k links =>
      cases h
      exact ⟨InCoreINode.fits_updateINodeMetadata hx _ _ hu, rfl, rfl, rfl, rfl, .inl rfl⟩
  | changeMode mode =>
      cases h
      exact ⟨⟨hx.deviceNumber, hx.iNodeNumber, hx.linksCount, hx.dataBlockNums, hx.size⟩,
        rfl, rfl, rfl, rfl, .inl rfl⟩
  | changeOwner uid gid =>
      cases h
      unfold InCoreINode.assignOwner
      split
      · exact ⟨⟨hx.deviceNumber, hx.iNodeNumber, hx.linksCount, hx.dataBlockNums, hx.size⟩,
          rfl, rfl, rfl, rfl, .inl rfl⟩
      · split
        · exact ⟨⟨hx.deviceNumber, hx.iNodeNumber, hx.linksCount, hx.dataBlockNums, hx.size⟩,
            rfl, rfl, rfl, rfl, .inl rfl⟩
        · exact ⟨hx, rfl, rfl, rfl, rfl, .inr rfl⟩
  | insertDataBlock blk k links =>
      obtain ⟨⟨z, d₁⟩, hins, h⟩ := bind_eq_ok.mp h
      cases h
      obtain ⟨hz, nums, size, changed, rfl⟩ := insertDataBlockInINode_fits hx hu.1 hins
      exact ⟨InCoreINode.fits_updateINodeMetadata hz _ _ hu.2, rfl, rfl, rfl, rfl, .inl rfl⟩

end INodeUpdate

/-- The file system, the references handed out and what was last written to each
inode. -/
structure HolderState where
  fs : FS
  held : List NodeId
  written : Nat → INode

namespace HolderState

inductive HolderOp where
  | iget (iNodeNumber : Nat)
  | iput (now : UInt64) (node : NodeId)
  | update (now : UInt64) (node : NodeId) (u : INodeUpdate)

def step (st : HolderState) : HolderOp → Except Fault HolderState
  | .iget iNodeNumber => do
      let (node, fs) ← st.fs.iget iNodeNumber 0
      .ok ⟨fs, node.toList ++ st.held, st.written⟩
  | .iput now node => do
      let (_, fs) ← st.fs.iput now node
      .ok ⟨fs, st.held.erase node, st.written⟩
  | .update now node u => do
      let (x, disk) ← u.apply now st.fs.disk (st.fs.inode node)
      .ok ⟨{ st.fs with disk }.setInode node x, st.held, update st.written x.iNodeNumber x.toINode⟩

/-- The inodes on disk are as they were. -/
def SameTable (d d' : Disk) : Prop :=
  d'.backend = d.backend ∧ ∀ n < numOfInodes, d'.diskINode n = d.diskINode n

/-- References are held when they are used; no inode is freed; a block that is
inserted comes with indirect blocks outside the inode table. -/
def Enabled (st : HolderState) : HolderOp → Prop
  | .iget iNodeNumber => iNodeNumber < numOfInodes
  | .iput _ node => node ∈ st.held ∧ ¬ ((st.fs.inode node).referenceCount = 1 ∧
      (st.fs.inode node).linksCount = 0 ∧ (st.fs.inode node).iNodeNumber ≠ 0)
  | .update now node u => node ∈ st.held ∧ u.Fits ∧
      ∀ x d, u.apply now st.fs.disk (st.fs.inode node) = .ok (x, d) → SameTable st.fs.disk d

/-- `iget` does not meet an inode without links that is in use and has changes
which are not on disk. -/
def Clean (st : HolderState) : HolderOp → Prop
  | .iget iNodeNumber => ∀ x, st.fs.cache.hashLookup iNodeNumber 0 = .ok (some x) →
      (st.fs.inode x).linksCount = 0 → (st.fs.inode x).referenceCount ≠ 0 →
      (st.fs.inode x).inodeChanged = false ∧ (st.fs.inode x).fileDataChanged = false
  | _ => True

def AnyStep (st st' : HolderState) : Prop := ∃ op, st.Enabled op ∧ st.step op = .ok st'

def CleanStep (st st' : HolderState) : Prop :=
  ∃ op, st.Enabled op ∧ st.Clean op ∧ st.step op = .ok st'

/-- `iget` returns, and what it returns is what was last written; an inode in use gets one
more reference and is otherwise left alone. -/
structure Transparent (st : HolderState) (n : Nat) : Prop where
  returns : ∃ r fs', st.fs.iget n 0 = .ok (r, fs')
  value : ∀ x fs', st.fs.iget n 0 = .ok (some x, fs') → (fs'.inode x).toINode = st.written n
  shared : ∀ x fs', st.fs.iget n 0 = .ok (some x, fs') → (st.fs.inode x).referenceCount ≠ 0 →
    fs'.inode = update st.fs.inode x
      { st.fs.inode x with referenceCount := (st.fs.inode x).referenceCount + 1 }

/-! ## The invariant -/

/-- No change is waiting to be written to disk. -/
def Unmodified (x : InCoreINode) : Prop := x.inodeChanged = false ∧ x.fileDataChanged = false

/-- A cached inode is what was last written to it; one that is not modified, or not
cached, is so on disk. -/
structure Inv (st : HolderState) (l : List NodeId) (q : Fin inodeHashSize → List NodeId) : Prop where
  cache : CacheState.Inv ⟨st.fs, st.held⟩ l q
  stored : dataRegionStart ≤ st.fs.disk.backend.capacity
  table : ∀ n < numOfInodes, (st.fs.disk.diskINode n).iNodeNumber = n ∧
    (st.fs.disk.diskINode n).deviceNumber = 0
  number : ∀ i, ∀ x ∈ q i, (st.fs.inode x).iNodeNumber < numOfInodes
  fits : ∀ i, ∀ x ∈ q i, (st.fs.inode x).Fits
  value : ∀ i, ∀ x ∈ q i, (st.fs.inode x).toINode = st.written (st.fs.inode x).iNodeNumber
  idle : ∀ x, (st.fs.inode x).referenceCount = 0 → Unmodified (st.fs.inode x)
  synced : ∀ n < numOfInodes,
    (∀ i, ∀ x ∈ q i, (st.fs.inode x).iNodeNumber = n → Unmodified (st.fs.inode x)) →
      st.fs.disk.diskINode n = st.written n

section Steps

variable {st st' : HolderState} {l : List NodeId} {q : Fin inodeHashSize → List NodeId} {n : Nat}
  {x : NodeId} {i : Fin inodeHashSize}

theorem Inv.loaded (h : Inv st l q) (hn : n < numOfInodes) :
    st.fs.loaded n = st.fs.disk.diskINode n := by
  rw [FS.loaded, st.fs.disk.getDiskInode_of_lt h.stored hn]

theorem Inv.identified (h : Inv st l q) (hn : n < numOfInodes) : st.fs.Identified n := by
  rw [FS.Identified, h.loaded hn]
  exact h.table n hn

/-- An unmodified inode is on disk as it is in core. -/
theorem Inv.on_disk (h : Inv st l q) (hx : x ∈ q i) (hun : Unmodified (st.fs.inode x)) :
    st.fs.disk.diskINode (st.fs.inode x).iNodeNumber = (st.fs.inode x).toINode := by
  refine (h.synced _ (h.number i x hx) fun j y hy hnum => ?_).trans (h.value i x hx).symm
  rw [h.cache.lists.unique hy hx hnum]
  exact hun

/-- A clean `iget` of a cached inode adds a reference and changes nothing else. -/
theorem Inv.reopened (h : Inv st l q) (hx : x ∈ q i)
    (hclean : st.Clean (.iget (st.fs.inode x).iNodeNumber)) :
    st.fs.reopened (st.fs.inode x).iNodeNumber x =
      { st.fs.inode x with referenceCount := (st.fs.inode x).referenceCount + 1 } := by
  unfold FS.reopened
  split
  · next h0 =>
      have hun : Unmodified (st.fs.inode x) := by
        by_cases href : (st.fs.inode x).referenceCount = 0
        · exact h.idle x href
        · exact hclean x (h.cache.lists.hashLookup_some hx) h0 href
      rw [h.loaded (h.number i x hx), h.on_disk hx hun]
  · rfl

/-- A step that changes one cached inode, in core and perhaps on disk. -/
theorem Inv.touch (h : Inv st l q) (hx : x ∈ q i) {y : InCoreINode} {l' : List NodeId}
    (hcache : CacheState.Inv ⟨st'.fs, st'.held⟩ l' q)
    (hinode : st'.fs.inode = update st.fs.inode x y)
    (hnum : y.iNodeNumber = (st.fs.inode x).iNodeNumber) (hfits : y.Fits)
    (hwritten : st'.written = update st.written (st.fs.inode x).iNodeNumber y.toINode)
    (hidle : y.referenceCount = 0 → Unmodified y)
    (hback : st'.fs.disk.backend = st.fs.disk.backend)
    (hothers : ∀ m < numOfInodes, m ≠ (st.fs.inode x).iNodeNumber →
      st'.fs.disk.diskINode m = st.fs.disk.diskINode m)
    (hself : st'.fs.disk.diskINode (st.fs.inode x).iNodeNumber =
        st.fs.disk.diskINode (st.fs.inode x).iNodeNumber ∨
      st'.fs.disk.diskINode (st.fs.inode x).iNodeNumber = y.toINode)
    (hsync : Unmodified y →
      st'.fs.disk.diskINode (st.fs.inode x).iNodeNumber = y.toINode) : Inv st' l' q := by
  have hy : st'.fs.inode x = y := by rw [hinode, update_self]
  have hz : ∀ z, z ≠ x → st'.fs.inode z = st.fs.inode z := fun z hz => by
    rw [hinode, update_of_ne hz]
  have hnext : ∀ {z j}, z ∈ q j → z ≠ x →
      (st.fs.inode z).iNodeNumber ≠ (st.fs.inode x).iNodeNumber :=
    fun hz hzx hcon => hzx (h.cache.lists.unique hz hx hcon)
  refine ⟨hcache, by rw [hback]; exact h.stored, fun m hm => ?_, fun j z hzj => ?_,
    fun j z hzj => ?_, fun j z hzj => ?_, fun z href => ?_, fun m hm hall => ?_⟩
  · by_cases hmx : m = (st.fs.inode x).iNodeNumber
    · subst hmx
      rcases hself with hself | hself
      · rw [hself]
        exact h.table _ hm
      · rw [hself]
        have hdev := hcache.lists.device hx
        rw [show st'.fs.cache.inode x = y from hy] at hdev
        exact ⟨hnum, hdev⟩
    · rw [hothers m hm hmx]
      exact h.table m hm
  · by_cases hzx : z = x
    · rw [hzx, hy, hnum]
      exact h.number i x hx
    · rw [hz z hzx]
      exact h.number j z hzj
  · by_cases hzx : z = x
    · rw [hzx, hy]
      exact hfits
    · rw [hz z hzx]
      exact h.fits j z hzj
  · by_cases hzx : z = x
    · rw [hzx, hy, hnum, hwritten, update_self]
    · rw [hz z hzx, hwritten, update_of_ne (hnext hzj hzx)]
      exact h.value j z hzj
  · by_cases hzx : z = x
    · rw [hzx, hy] at href ⊢
      exact hidle href
    · rw [hz z hzx] at href ⊢
      exact h.idle z href
  · by_cases hmx : m = (st.fs.inode x).iNodeNumber
    · subst hmx
      have := hall i x hx (by rw [hy, hnum])
      rw [hy] at this
      rw [hsync this, hwritten, update_self]
    · rw [hothers m hm hmx, hwritten, update_of_ne hmx]
      refine h.synced m hm fun j z hzj hzm => ?_
      have hzx : z ≠ x := fun hcon => hmx (by rw [← hzm, hcon])
      have := hall j z hzj
      rw [hz z hzx] at this
      exact this hzm

/-- What was written last is what the node has. -/
theorem Inv.written_self (h : Inv st l q) (hx : x ∈ q i) :
    st.written = update st.written (st.fs.inode x).iNodeNumber (st.fs.inode x).toINode :=
  (Function.update_eq_self_iff.mpr (h.value i x hx)).symm

/-- A clean `iget` keeps the invariant and returns what was last written. -/
theorem Inv.step_iget (h : Inv st l q) (hn : n < numOfInodes) (hclean : st.Clean (.iget n)) :
    ∃ r fs', st.fs.iget n 0 = .ok (r, fs') ∧
      (∃ l' q', Inv ⟨fs', r.toList ++ st.held, st.written⟩ l' q') ∧
      ∀ x, r = some x → (fs'.inode x).toINode = st.written n ∧
        ((st.fs.inode x).referenceCount ≠ 0 → fs'.inode = update st.fs.inode x
          { st.fs.inode x with referenceCount := (st.fs.inode x).referenceCount + 1 }) := by
  have hid := h.identified hn
  by_cases hcached : ∃ i, ∃ x ∈ q i, (st.fs.inode x).iNodeNumber = n
  · obtain ⟨i, x, hx, rfl⟩ := hcached
    obtain ⟨fs', heq, hinode, ⟨events, hdisk⟩, hinv⟩ := h.cache.hit hx rfl fun _ => hid
    rw [h.reopened hx hclean] at hinode
    refine ⟨some x, fs', heq, ⟨l.erase x, q, ?_⟩, ?_⟩
    · refine h.touch hx hinv hinode rfl (h.fits i x hx) (h.written_self hx) (by simp) ?_ ?_ ?_ ?_
      · rw [hdisk]
        rfl
      · intro m _ _
        rw [hdisk]
        rfl
      · rw [hdisk]
        exact .inl rfl
      · intro hun
        rw [hdisk]
        exact h.on_disk hx hun
    · rintro z ⟨⟩
      rw [hinode, update_self]
      exact ⟨h.value i x hx, fun _ => rfl⟩
  · have hnew : ∀ i, ∀ x ∈ q i, (st.fs.inode x).iNodeNumber ≠ n :=
      fun i x hx hn => hcached ⟨i, x, hx, hn⟩
    cases l with
    | nil =>
        refine ⟨none, _, FS.iget_full h.cache.lists hnew, ⟨[], q, ?_⟩, by simp⟩
        exact ⟨⟨h.cache.lists, h.cache.unlocked, h.cache.counts⟩, h.stored, h.table, h.number, h.fits,
          h.value, h.idle, h.synced⟩
    | cons x l =>
        have href : (st.fs.inode x).referenceCount = 0 := (h.cache.lists.mem_free x).mp (by simp)
        obtain ⟨fs', heq, hinode, ⟨events, hdisk⟩, hinv⟩ := h.cache.miss hnew hid
        have hwritten : st.fs.loaded n = st.written n := by
          rw [h.loaded hn]
          exact h.synced n hn fun i y hy hnum => absurd hnum (hnew i y hy)
        have hself : fs'.inode x = st.fs.opened n x := by simp [hinode]
        have hothers : ∀ z, z ≠ x → fs'.inode z = st.fs.inode z := fun z hz => by simp [hinode, hz]
        have hmem : ∀ {z j}, (z ∈ if j = st.fs.cache.getHash n 0 then x :: (q j).erase x
            else (q j).erase x) → z ≠ x → z ∈ q j := by
          intro z j hz hzx
          split at hz
          · exact List.mem_of_mem_erase ((List.mem_cons.mp hz).resolve_left hzx)
          · exact List.mem_of_mem_erase hz
        refine ⟨some x, fs', heq, ⟨_, _, hinv, ?_, ?_, ?_, ?_, ?_, ?_, ?_⟩, ?_⟩
        · rw [hdisk]
          exact h.stored
        · rw [hdisk]
          exact h.table
        · intro j z hz
          by_cases hzx : z = x
          · rw [hzx, hself]
            exact hid.1.trans_lt hn
          · rw [hothers z hzx]
            exact h.number j z (hmem hz hzx)
        · intro j z hz
          by_cases hzx : z = x
          · rw [hzx, hself, FS.opened, h.loaded hn]
            exact st.fs.disk.fits_diskINode n
          · rw [hothers z hzx]
            exact h.fits j z (hmem hz hzx)
        · intro j z hz
          by_cases hzx : z = x
          · rw [hzx, hself]
            have : (st.fs.opened n x).iNodeNumber = n := hid.1
            rw [this]
            exact hwritten
          · rw [hothers z hzx]
            exact h.value j z (hmem hz hzx)
        · intro z hz
          by_cases hzx : z = x
          · rw [hzx, hself] at hz
            exact absurd hz (by simp [FS.opened])
          · rw [hothers z hzx] at hz ⊢
            exact h.idle z hz
        · intro m hm hall
          rw [hdisk]
          refine h.synced m hm fun j z hz hnum => ?_
          -- the inode that leaves the cache had no changes
          by_cases hzx : z = x
          · rw [hzx]
            exact h.idle x href
          · have hz' : z ∈ if j = st.fs.cache.getHash n 0 then x :: (q j).erase x
                else (q j).erase x := by
              have := (List.mem_erase_of_ne hzx).mpr hz
              split
              · exact List.mem_cons_of_mem _ this
              · exact this
            have := hall j z hz'
            rw [hothers z hzx] at this
            exact this hnum
        · rintro z ⟨⟩
          rw [hself]
          exact ⟨hwritten, fun hcon => absurd href hcon⟩

/-- A clean `iget` hands out what was written last. -/
theorem Inv.transparent (h : Inv st l q) (hn : n < numOfInodes) (hclean : st.Clean (.iget n)) :
    Transparent st n := by
  obtain ⟨r, fs', heq, -, hr⟩ := h.step_iget hn hclean
  refine ⟨⟨r, fs', heq⟩, ?_, ?_⟩
  · intro x fs'' heq'
    cases heq.symm.trans heq'
    exact (hr x rfl).1
  · intro x fs'' heq'
    cases heq.symm.trans heq'
    exact (hr x rfl).2

/-- Giving back a reference writes the inode to disk, or leaves it as it is. -/
theorem Inv.step_iput (h : Inv st l q) {now : UInt64} (hen : st.Enabled (.iput now x))
    (hstep : st.step (.iput now x) = .ok st') : ∃ l', Inv st' l' q := by
  obtain ⟨⟨r, fs'⟩, heq, hst⟩ := bind_eq_ok.mp hstep
  cases hst
  obtain ⟨hheld, hkept⟩ := hen
  have hpos : 0 < (st.fs.inode x).referenceCount := by
    have := h.cache.counts x
    have := List.count_pos_iff.mpr hheld
    simp only at *
    omega
  obtain ⟨i, hx⟩ := h.cache.lists.hashed (x := x) (Nat.ne_of_gt hpos)
  by_cases hone : (st.fs.inode x).referenceCount = 1
  · have hrel : FS.releaseUnlinked now (FS.writeBack st.fs.disk (FS.retiring (st.fs.inode x))) =
        .ok ((FS.writeBack st.fs.disk (FS.retiring (st.fs.inode x))).1,
          (FS.writeBack st.fs.disk (FS.retiring (st.fs.inode x))).2) := by
      rw [FS.releaseUnlinked, FS.writeBack_inode, if_neg]
      · rw [← FS.writeBack_inode st.fs.disk]
      · exact fun hcon => hkept ⟨hone, hcon⟩
    obtain ⟨nums, fs'', hy, hok, hinode, hdisk, hinv⟩ := h.cache.last hone hrel
    cases hok.symm.trans heq
    obtain rfl : (st.fs.inode x).dataBlockNums = nums := by
      have := congrArg (·.dataBlockNums) hy
      rwa [FS.writeBack_inode] at this
    have hsame : (FS.closed (st.fs.inode x) (st.fs.inode x).dataBlockNums).toINode =
        (st.fs.inode x).toINode := rfl
    have hnum := h.number i x hx
    -- the disk has the inode, whether it was written now or before
    have hwrite : fs'.disk.backend = st.fs.disk.backend ∧
        (∀ m < numOfInodes, m ≠ (st.fs.inode x).iNodeNumber →
          fs'.disk.diskINode m = st.fs.disk.diskINode m) ∧
        fs'.disk.diskINode (st.fs.inode x).iNodeNumber = (st.fs.inode x).toINode := by
      rw [hdisk, FS.writeBack]
      split
      · refine ⟨st.fs.disk.backend_writeDiskInode _ _, fun m _ hm => ?_, ?_⟩
        · exact st.fs.disk.diskINode_writeDiskInode_of_ne h.stored hnum _ hm
        · exact st.fs.disk.diskINode_writeDiskInode_self h.stored hnum (h.fits i x hx)
      · next hflags =>
          simp only [FS.retiring, not_or, Bool.not_eq_true] at hflags
          exact ⟨rfl, fun _ _ _ => rfl, h.on_disk hx hflags⟩
    exact ⟨_, h.touch hx hinv hinode rfl (h.fits i x hx) (h.written_self hx) (fun _ => ⟨rfl, rfl⟩)
      hwrite.1 hwrite.2.1 (.inr hwrite.2.2) fun _ => hwrite.2.2⟩
  · obtain ⟨fs'', hok, hinode, hdisk, hinv⟩ := h.cache.shared (x := x) now (by simp only; omega)
    cases hok.symm.trans heq
    refine ⟨_, h.touch hx hinv hinode rfl (h.fits i x hx) (h.written_self hx) ?_ ?_ ?_ ?_ ?_⟩
    · intro hcon
      simp only at hcon
      omega
    · rw [hdisk]
    · intro m _ _
      rw [hdisk]
    · rw [hdisk]
      exact .inl rfl
    · intro hun
      rw [hdisk]
      exact h.on_disk hx hun

/-- An update through a reference. -/
theorem Inv.step_update (h : Inv st l q) {now : UInt64} {u : INodeUpdate}
    (hen : st.Enabled (.update now x u)) (hstep : st.step (.update now x u) = .ok st') :
    Inv st' l q := by
  obtain ⟨⟨y, d⟩, heq, hst⟩ := bind_eq_ok.mp hstep
  cases hst
  obtain ⟨hheld, hu, htable⟩ := hen
  have hpos : 0 < (st.fs.inode x).referenceCount := by
    have := h.cache.counts x
    have := List.count_pos_iff.mpr hheld
    simp only at *
    omega
  obtain ⟨i, hx⟩ := h.cache.lists.hashed (x := x) (Nat.ne_of_gt hpos)
  obtain ⟨hback, htable⟩ := htable y d heq
  obtain ⟨hfits, hnum, hdev, hmutex, href, hchanged⟩ :=
    INodeUpdate.apply_spec (h.fits i x hx) hu heq
  have hlists := h.cache.lists.modify (x := x) (y := y) h.cache.lists.free hnum hdev (by
    intro z
    by_cases hz : z = x
    · subst hz
      rw [update_self, href]
      exact h.cache.lists.mem_free z
    · rw [update_of_ne hz]
      exact h.cache.lists.mem_free z) fun _ => ⟨i, hx⟩
  have hcount : y.referenceCount = st.held.count x := href.trans (h.cache.counts x)
  refine h.touch hx (h.cache.after hlists rfl ?_ hcount fun _ _ => rfl) rfl hnum hfits ?_ ?_ hback
    (fun m hm _ => htable m hm) (.inl (htable _ (h.number i x hx))) ?_
  · exact hmutex.trans (h.cache.unlocked x)
  · rw [hnum]
  · intro hcon
    omega
  · intro hun
    rcases hchanged with hchanged | rfl
    · exact absurd hun.1 (by simp [hchanged])
    · exact (htable _ (h.number i x hx)).trans (h.on_disk hx hun)

theorem Inv.step (h : Inv st l q) (hstep : CleanStep st st') : ∃ l' q', Inv st' l' q' := by
  obtain ⟨op, hen, hclean, hstep⟩ := hstep
  cases op with
  | iget n =>
      obtain ⟨r, fs', heq, hinv, -⟩ := h.step_iget hen hclean
      obtain ⟨⟨r', fs''⟩, heq', hst⟩ := bind_eq_ok.mp hstep
      cases heq.symm.trans heq'
      cases hst
      exact hinv
  | iput now x =>
      obtain ⟨l', hinv⟩ := h.step_iput hen hstep
      exact ⟨l', q, hinv⟩
  | update now x u => exact ⟨l, q, h.step_update hen hstep⟩

end Steps

/-! ## Whole runs -/

section Runs

variable {getHash : Nat → Nat → Fin inodeHashSize} {d : Disk} {fs : FS}

/-- The table on disk holds every inode under its own number. -/
def Numbered (d : Disk) : Prop :=
  dataRegionStart ≤ d.backend.capacity ∧
    ∀ n < numOfInodes, (d.diskINode n).iNodeNumber = n ∧ (d.diskINode n).deviceNumber = 0

/-- At the mount nothing is cached. -/
theorem Inv.initial (hd : Numbered d) (h : FS.mount getHash d = .ok fs) :
    Inv ⟨fs, [], d.diskINode⟩ (List.finRange inodeBufferSize) fun _ => [] := by
  have hcache := CacheState.Inv.initial h
  obtain ⟨next, prev, head, hinit, -⟩ := Cache.initFreeInCoreINodeList_spec getHash
  obtain ⟨cache, hc, hfs⟩ := bind_eq_ok.mp h
  cases hfs
  cases hinit.symm.trans hc
  exact ⟨hcache, hd.1, hd.2, by simp, by simp, by simp, fun _ _ => ⟨rfl, rfl⟩, fun _ _ _ => rfl⟩

/-- **Transparency** of the cache, over runs in which no `iget` meets an inode
without links that is in use and modified. -/
theorem transparent_of_clean_run {st : HolderState} {n : Nat} (hd : Numbered d)
    (h0 : FS.mount getHash d = .ok fs)
    (hrun : Relation.ReflTransGen CleanStep ⟨fs, [], d.diskINode⟩ st)
    (hn : n < numOfInodes) (hclean : st.Clean (.iget n)) : Transparent st n := by
  suffices h : ∃ l q, Inv st l q by
    obtain ⟨l, q, h⟩ := h
    exact h.transparent hn hclean
  clear hclean
  induction hrun with
  | refl => exact ⟨_, _, .initial hd h0⟩
  | tail _ hstep ih =>
      obtain ⟨l, q, ih⟩ := ih
      exact ih.step hstep

/-- After formatting each inode has its own number. -/
theorem numbered_makeFileSystem (d : Disk) : Numbered d.makeFileSystem := by
  refine ⟨d.le_capacity_makeFileSystem, fun n hn => ?_⟩
  by_cases h0 : n = 0
  · obtain ⟨stale, hroot⟩ := d.diskINode_makeFileSystem_root
    rw [h0, hroot]
    exact ⟨rfl, rfl⟩
  · rw [d.diskINode_makeFileSystem h0 hn]
    exact ⟨if_neg (Nat.not_le.mpr hn), rfl⟩

/-- The first `iget` after the file system was mounted. -/
theorem exists_first_iget (hd : Numbered d) (h0 : FS.mount getHash d = .ok fs) {n : Nat}
    (hn : n < numOfInodes) : ∃ fs', CleanStep ⟨fs, [], d.diskINode⟩ ⟨fs', [0], d.diskINode⟩ ∧
      (fs'.inode 0).toINode = d.diskINode n ∧ Unmodified (fs'.inode 0) ∧
      (∃ events, fs'.disk = fs.noted events) ∧ ∃ l q i, Inv ⟨fs', [0], d.diskINode⟩ l q ∧ 0 ∈ q i := by
  have hinv := Inv.initial hd h0
  have hclean : Clean ⟨fs, [], d.diskINode⟩ (.iget n) := by
    intro x hx
    rw [hinv.cache.lists.hashLookup_none (by simp)] at hx
    cases hx
  have hcache := hinv.cache
  rw [List.finRange_succ] at hcache
  obtain ⟨fs', heq, hinode, hdisk, hcache'⟩ := hcache.miss (by simp) (hinv.identified hn)
  have hstep : CleanStep ⟨fs, [], d.diskINode⟩ ⟨fs', [0], d.diskINode⟩ := by
    refine ⟨.iget n, hn, hclean, ?_⟩
    simp only at heq
    simp [step, heq, bind, Except.bind]
  have hself : fs'.inode 0 = fs.opened n 0 := by rw [hinode, update_self]
  obtain ⟨l, q, hinv'⟩ := hinv.step hstep
  obtain ⟨i, hi⟩ := hinv'.cache.lists.hashed (x := 0) (by
    rw [show fs'.cache.inode 0 = fs.opened n 0 from hself]
    simp [FS.opened])
  refine ⟨fs', hstep, ?_, ?_, hdisk, l, q, i, hinv', hi⟩
  · rw [hself]
    exact (hinv.loaded hn).trans (hinv.synced n hn (by simp))
  · rw [hself]
    exact hinv.idle 0 ((hinv.cache.lists.mem_free 0).mp (List.mem_finRange 0))

/-- An update through the reference of the first `iget`, of the size and the links. -/
theorem update_first {st : HolderState} {l : List NodeId} {q : Fin inodeHashSize → List NodeId}
    (h : Inv st l q) (hheld : st.held = [0]) (size : Int) {links : Nat} (hlinks : links < 2 ^ 64) :
    ∃ st', CleanStep st st' ∧ st'.held = [0] ∧ Inv st' l q ∧
      st'.fs.inode 0 = (st.fs.inode 0).updateINodeMetadata 0 size links ∧
      st'.written = update st.written (st.fs.inode 0).iNodeNumber
        ((st.fs.inode 0).updateINodeMetadata 0 size links).toINode := by
  have hen : st.Enabled (.update 0 0 (.updateINodeMetadata size links)) := by
    refine ⟨by simp [hheld], hlinks, fun x d heq => ?_⟩
    cases heq
    exact ⟨rfl, fun _ _ => rfl⟩
  exact ⟨_, ⟨_, hen, trivial, rfl⟩, hheld, h.step_update hen rfl, FS.inode_setInode_self _, rfl⟩

/-- Inode 1 of a new file system is fetched, gets a size and a link in core, and is fetched a
second time. -/
theorem transparent_first : ∃ fs st, FS.mount (fun _ _ => 0) AllocState.smallDisk.makeFileSystem =
      .ok fs ∧ Relation.ReflTransGen CleanStep
        ⟨fs, [], AllocState.smallDisk.makeFileSystem.diskINode⟩ st ∧
      st.held = [0] ∧ (st.written 1).size = 64 ∧ Transparent st 1 := by
  have hd := numbered_makeFileSystem AllocState.smallDisk
  obtain ⟨fs, hfs, -⟩ := FS.exists_mount (fun _ _ => 0) AllocState.smallDisk.makeFileSystem
  obtain ⟨fs', hstep, hnode, -, -, l, q, i, hinv, hi⟩ := exists_first_iget hd hfs (n := 1) (by decide)
  have hnum : (fs'.inode 0).iNodeNumber = 1 := by
    rw [hnode]
    exact (hd.2 1 (by decide)).1
  obtain ⟨st, hupdate, hheld, hinv', hinode, hwritten⟩ :=
    update_first hinv rfl 64 (show 1 < 2 ^ 64 by decide)
  have hrun := (Relation.ReflTransGen.single hstep).tail hupdate
  refine ⟨fs, st, hfs, hrun, hheld, ?_, ?_⟩
  · have hsize : (fs'.inode 0).size = 0 := by
      have := AllocState.smallDisk.diskINode_makeFileSystem (n := 1) (by decide) (by decide)
      rw [this] at hnode
      exact congrArg (·.size) hnode
    rw [hwritten, show (fs'.inode 0).iNodeNumber = 1 from hnum, update_self]
    simp only [InCoreINode.updateINodeMetadata, hsize]
    decide
  · refine transparent_of_clean_run hd hfs hrun (by decide) fun x hx hlinks => ?_
    have hfound := hinv'.cache.lists.hashLookup_some hi
    rw [show (st.fs.cache.inode 0).iNodeNumber = 1 from (congrArg (·.iNodeNumber) hinode).trans hnum]
      at hfound
    cases hfound.symm.trans hx
    rw [hinode] at hlinks
    cases hlinks

/-- An inode without links that differs from its copy on disk is lost. -/
theorem Inv.not_transparent {st : HolderState} {l : List NodeId}
    {q : Fin inodeHashSize → List NodeId} {x : NodeId} {i : Fin inodeHashSize} (h : Inv st l q)
    (hx : x ∈ q i) (h0 : (st.fs.inode x).linksCount = 0)
    (hne : st.fs.disk.diskINode (st.fs.inode x).iNodeNumber ≠ (st.fs.inode x).toINode) :
    ¬ Transparent st (st.fs.inode x).iNodeNumber := by
  intro htrans
  have hn := h.number i x hx
  obtain ⟨fs', heq, hinode, -⟩ := h.cache.hit hx rfl fun _ => h.identified hn
  have hvalue := htrans.value x fs' heq
  rw [hinode, update_self, ← h.value i x hx] at hvalue
  simp only [FS.reopened, if_pos h0] at hvalue
  rw [h.loaded hn] at hvalue
  exact hne hvalue

/-- A change of the size of the root is lost when the root is fetched again. -/
theorem root_update_lost : ¬ ∀ (getHash : Nat → Nat → Fin inodeHashSize) (d : Disk) (fs : FS)
    (st : HolderState) (n : Nat), Numbered d → FS.mount getHash d = .ok fs →
      Relation.ReflTransGen AnyStep ⟨fs, [], d.diskINode⟩ st → n < numOfInodes →
        Transparent st n := by
  intro hall
  have hd := numbered_makeFileSystem AllocState.smallDisk
  obtain ⟨fs, hfs, -⟩ := FS.exists_mount (fun _ _ => 0) AllocState.smallDisk.makeFileSystem
  obtain ⟨fs', ⟨op, hen, -, hop⟩, hnode, hun, -, l, q, i, hinv, hi⟩ :=
    exists_first_iget hd hfs (n := 0) (by decide)
  -- the root grows by one directory entry
  obtain ⟨st', hst'⟩ : ∃ st', step ⟨fs', [0], AllocState.smallDisk.makeFileSystem.diskINode⟩
      (.update 0 0 (.updateINodeMetadata 64 0)) = .ok st' := ⟨_, rfl⟩
  have hen' : Enabled ⟨fs', [0], AllocState.smallDisk.makeFileSystem.diskINode⟩
      (.update 0 0 (.updateINodeMetadata 64 0)) := by
    refine ⟨by simp, by simp [INodeUpdate.Fits], fun x d h => ?_⟩
    cases h
    exact ⟨rfl, fun _ _ => rfl⟩
  have hinv' := hinv.step_update hen' hst'
  obtain ⟨stale, hroot⟩ := AllocState.smallDisk.diskINode_makeFileSystem_root
  rw [hroot] at hnode
  cases hst'
  have hself : ∀ d y, (({ fs' with disk := d } : FS).setInode 0 y).inode 0 = y := fun _ _ =>
    FS.inode_setInode_self _
  have hnum : (fs'.inode 0).iNodeNumber = 0 := by
    rw [hnode]
    rfl
  refine hinv'.not_transparent hi ?_ ?_ (hall _ _ _ _ _ hd hfs
    ((Relation.ReflTransGen.single ⟨op, hen, hop⟩).tail ⟨_, hen', rfl⟩) ?_)
  · simp only [hself]
    rfl
  · simp only [hself]
    intro hcon
    have hdisk := hinv.on_disk hi hun
    have hsize := congrArg (·.size) (hdisk.symm.trans hcon)
    have hsize0 : (fs'.inode 0).size = 0 := by
      rw [hnode]
      rfl
    simp only [InCoreINode.updateINodeMetadata, hsize0] at hsize
    exact absurd hsize (by decide)
  · simp only [hself]
    exact hnum.trans_lt (by decide)

end Runs

end HolderState

end Naofs
