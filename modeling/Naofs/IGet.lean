import Naofs.CacheLists
import Naofs.INodeAlloc
import Naofs.Release

/-!
# Naofs.IGet

The state of the file system while it runs, and `iget` and `iput` (`iget.c`,
`iput.c`), which hand out references to inodes in core and take them back.

Calls are made one at a time, so that a thread that locks a mutex which is held
already waits forever.

`Lists fs l q` says that the cache of `fs` has the free list `l` and the hash
queues `q`.  Each function is then one equation on these lists:

* `iget_hit`, `iget_miss`, `iget_full` — the three ways `iget` can go;
* `iput_last`, `iput_shared` — a reference given back, the last one or not.
-/

namespace Naofs

/-- `struct fileTableEntry`. -/
structure FileTableEntry where
  inode : Option NodeId
  pid : Int
  flags : Int
  offset : Nat
  validEntry : Bool

/-- The file system while it runs. -/
structure FS where
  disk : Disk
  cache : Cache
  fileTable : Nat → FileTableEntry

namespace FS

open Function (update update_self update_of_ne)

/-- What `main` sets up: `initFreeInCoreINodeList`, `initHashQueues` and
`initGlobalFileTable`. -/
def mount (getHash : Nat → Nat → Fin inodeHashSize) (disk : Disk) : Except Fault FS := do
  let cache ← Cache.initFreeInCoreINodeList getHash
  .ok ⟨disk, cache, fun _ => ⟨none, 0, 0, 0, false⟩⟩

/-- A mount does not fail, and leaves the disk alone. -/
theorem exists_mount (getHash : Nat → Nat → Fin inodeHashSize) (d : Disk) :
    ∃ fs, mount getHash d = .ok fs ∧ fs.disk = d := by
  obtain ⟨next, prev, head, hinit, -⟩ := Cache.initFreeInCoreINodeList_spec getHash
  exact ⟨_, bind_eq_ok.mpr ⟨_, hinit, rfl⟩, rfl⟩

/-! ## Inodes in core -/

def inode (fs : FS) (node : NodeId) : InCoreINode := fs.cache.inode node

def setInode (fs : FS) (node : NodeId) (x : InCoreINode) : FS :=
  { fs with cache := { fs.cache with inode := update fs.cache.inode node x } }

def log (fs : FS) (e : Event) : FS := { fs with disk := fs.disk.log e }

/-- `pthread_mutex_lock`. -/
def lock (fs : FS) (node : NodeId) : Except Fault FS :=
  if (fs.inode node).iNodeMutex then .error .deadlock
  else .ok (fs.setInode node { fs.inode node with iNodeMutex := true })

/-- `pthread_mutex_unlock`. -/
def unlock (fs : FS) (node : NodeId) : FS :=
  fs.setInode node { fs.inode node with iNodeMutex := false }

/-! ## `iget` -/

def fetchInodeFromDisk (fs : FS) (iNodeNumber : Nat) (node : NodeId) : FS :=
  fs.setInode node
    ((fs.inode node).insertDiskInodeData (fs.disk.getDiskInode iNodeNumber fs.disk.junkINode).2)

def updateAndGetINode (fs : FS) (node : NodeId) : NodeId × FS :=
  let fs := fs.setInode node
    { fs.inode node with referenceCount := (fs.inode node).referenceCount + 1 }
  (node, fs.unlock node)

/-- The branch of `iget` for an inode that is not in a hash queue. -/
def igetMiss (fs : FS) (iNodeNumber deviceNumber : Nat) : Except Fault (Option NodeId × FS) := do
  let (popped, cache) ← fs.cache.popFreeList
  let fs := { fs with cache }
  match popped with
  | none => .ok (none, fs)
  | some node =>
      let fs ← fs.lock node
      let fs := { fs with cache := fs.cache.updateInHashQ node iNodeNumber deviceNumber }
      let fs := fs.fetchInodeFromDisk iNodeNumber node
      let (node, fs) := fs.updateAndGetINode node
      .ok (some node, fs)

/-- A node without references leaves the free list. -/
def unlist (fs : FS) (node : NodeId) : Except Fault Cache :=
  if (fs.inode node).referenceCount = 0 then fs.cache.freeListRemove node else .ok fs.cache

/-- An inode without links is read from disk again. -/
def refresh (fs : FS) (iNodeNumber : Nat) (node : NodeId) : FS :=
  let x := fs.inode node
  if x.linksCount = 0 then
    (fs.fetchInodeFromDisk iNodeNumber node).log
      (.reread iNodeNumber ((x.inodeChanged || x.fileDataChanged) && x.referenceCount != 0))
  else fs

/-- The branch of `iget` for an inode that `hashLookup` found. -/
def igetHit (fs : FS) (iNodeNumber : Nat) (node : NodeId) : Except Fault (Option NodeId × FS) := do
  let fs ← fs.lock node
  let cache ← fs.unlist node
  let fs := { fs with cache }.refresh iNodeNumber node
  let (node, fs) := fs.updateAndGetINode node
  .ok (some node, fs)

def iget (iNodeNumber deviceNumber : Nat) (fs : FS) : Except Fault (Option NodeId × FS) := do
  let fs := fs.log (.fetch iNodeNumber)
  match ← fs.cache.hashLookup iNodeNumber deviceNumber with
  | none => fs.igetMiss iNodeNumber deviceNumber
  | some node => fs.igetHit iNodeNumber node

/-! ## `iput` -/

def writeINodeToDisk (d : Disk) (inode : InCoreINode) : Disk :=
  (d.writeDiskInode inode.iNodeNumber inode.getDiskINodeData).2

/-- A changed inode is written to disk. -/
def writeBack (d : Disk) (inode : InCoreINode) : InCoreINode × Disk :=
  if inode.inodeChanged ∨ inode.fileDataChanged then
    ({ inode with inodeChanged := false, fileDataChanged := false }, writeINodeToDisk d inode)
  else (inode, d)

/-- An inode without links gives up its blocks and its number. -/
def releaseUnlinked (now : UInt64) (s : InCoreINode × Disk) : Except Fault (InCoreINode × Disk) :=
  if s.1.linksCount = 0 ∧ s.1.iNodeNumber ≠ 0 then do
    let (inode, d) ← s.2.inodeBlocksFree s.1
    let d ← d.freeINode now inode.iNodeNumber
    .ok (inode, d)
  else .ok s

/-- The part of `iput` for the last reference. -/
def retire (fs : FS) (now : UInt64) (node : NodeId) : Except Fault (Int × FS) := do
  let (inode, disk) ← releaseUnlinked now (writeBack fs.disk (fs.inode node))
  let fs := { fs with disk }.setInode node inode
  match ← fs.cache.hashLookup inode.iNodeNumber inode.deviceNumber with
  | none => .ok (-1, fs.unlock node)
  | some found =>
      let cache ← fs.cache.freeListInsert found
      .ok (0, { fs with cache }.unlock node)

def iput (now : UInt64) (node : NodeId) (fs : FS) : Except Fault (Int × FS) := do
  let fs ← fs.lock node
  let x := fs.inode node
  if x.referenceCount = 0 then .ok (-1, fs.unlock node)
  else
    let fs := fs.setInode node { x with referenceCount := x.referenceCount - 1 }
    if (fs.inode node).referenceCount = 0 then fs.retire now node
    else .ok (0, fs.unlock node)

/-! ## What the calls do to the lists -/

section Lists

variable {fs : FS} {l : List NodeId} {q : Fin inodeHashSize → List NodeId} {x : NodeId} {n : Nat}

@[simp] theorem inode_setInode_self (y : InCoreINode) : (fs.setInode x y).inode x = y := by
  simp [inode, setInode]

theorem inode_setInode (y : InCoreINode) : (fs.setInode x y).inode = update fs.inode x y := rfl

/-- What the table on disk holds for an inode number. -/
def loaded (fs : FS) (n : Nat) : INode := (fs.disk.getDiskInode n fs.disk.junkINode).2

/-- The table on disk holds an inode of this number, on the device. -/
def Identified (fs : FS) (n : Nat) : Prop :=
  (fs.loaded n).iNodeNumber = n ∧ (fs.loaded n).deviceNumber = 0

/-- The node of a cached inode once `iget` has returned it. -/
def reopened (fs : FS) (n : Nat) (x : NodeId) : InCoreINode :=
  { fs.inode x with
    toINode := if (fs.inode x).linksCount = 0 then fs.loaded n else (fs.inode x).toINode
    referenceCount := (fs.inode x).referenceCount + 1 }

/-- The events of `iget` for a cached inode. -/
def hitEvents (fs : FS) (n : Nat) (x : NodeId) : List Event :=
  .fetch n :: if (fs.inode x).linksCount = 0 then
    [.reread n (((fs.inode x).inodeChanged || (fs.inode x).fileDataChanged) &&
      (fs.inode x).referenceCount != 0)] else []

theorem lock_of_free (h : (fs.inode x).iNodeMutex = false) :
    fs.lock x = .ok (fs.setInode x { fs.inode x with iNodeMutex := true }) := by
  simp [lock, h]

/-- The state that differs in an inode, the links of the free list and the disk. -/
def relisted (fs : FS) (x : NodeId) (y : InCoreINode) (next prev : NodeId → Option NodeId)
    (head : Option NodeId) (disk : Disk) : FS :=
  { fs with
    cache := { fs.cache with
      inode := update fs.cache.inode x y, next := next, prev := prev, freeList := head }
    disk := disk }

/-- The disk with more events in the trace. -/
def noted (fs : FS) (events : List Event) : Disk :=
  { fs.disk with trace := fs.disk.trace ++ events }

/-- `iget` of a cached inode. -/
theorem iget_hit (h : fs.cache.Lists l q) {i : Fin inodeHashSize} (hx : x ∈ q i)
    (hn : (fs.inode x).iNodeNumber = n) (hmutex : (fs.inode x).iNodeMutex = false)
    (hid : (fs.inode x).linksCount = 0 → fs.Identified n) :
    ∃ next prev head, fs.iget n 0 =
        .ok (some x, fs.relisted x (fs.reopened n x) next prev head (fs.noted (fs.hitEvents n x))) ∧
      (fs.relisted x (fs.reopened n x) next prev head (fs.noted (fs.hitEvents n x))).cache.Lists
        (l.erase x) q := by
  obtain ⟨locked, hlocked⟩ : ∃ c : Cache, c = { fs.cache with
    inode := update fs.cache.inode x { fs.inode x with iNodeMutex := true } } := ⟨_, rfl⟩
  obtain ⟨next, prev, head, hrem, hring⟩ : ∃ next prev head,
      (if (fs.inode x).referenceCount = 0 then locked.freeListRemove x else .ok locked) =
        .ok { locked with next := next, prev := prev, freeList := head } ∧
      Links.Ring next prev head (l.erase x) := by
    have hfree : locked.FreeNodes l := by
      rw [hlocked]
      exact h.free
    split
    · next href =>
        obtain ⟨l₁, l₂, rfl⟩ := List.append_of_mem ((h.mem_free x).mpr href)
        rw [List.erase_append_right _ fun hcon => ?_, List.erase_cons_head]
        · exact Cache.freeListRemove_spec hfree
        · have := (List.nodup_cons.mp (List.nodup_middle.mp h.free.nodup)).1
          exact this (List.mem_append_left _ hcon)
    · next href =>
        rw [List.erase_of_not_mem fun hcon => href ((h.mem_free x).mp hcon)]
        exact ⟨_, _, _, rfl, hfree⟩
  have hlookup : fs.cache.hashLookup n 0 = .ok (some x) := hn ▸ h.hashLookup_some hx
  refine ⟨next, prev, head, ?_, ?_⟩
  · have hlock : (fs.log (.fetch n)).lock x = .ok ⟨fs.disk.log (.fetch n), locked, fs.fileTable⟩ := by
      rw [hlocked]
      exact lock_of_free (show ((fs.log (.fetch n)).inode x).iNodeMutex = false from hmutex)
    have hself : locked.inode x = { fs.inode x with iNodeMutex := true } := by
      rw [hlocked]
      exact update_self ..
    have hunlist : FS.unlist ⟨fs.disk.log (.fetch n), locked, fs.fileTable⟩ x =
        .ok { locked with next := next, prev := prev, freeList := head } := by
      rw [← hrem, unlist, inode, hself]
    simp only [iget, log, hlookup, bind, Except.bind]
    simp only [log] at hlock
    simp only [igetHit, hlock, bind, Except.bind, hunlist]
    rw [hlocked]
    simp only [inode] at hmutex
    by_cases h0 : (fs.cache.inode x).linksCount = 0
    · simp [refresh, fetchInodeFromDisk, updateAndGetINode, unlock, setInode, inode, h0, log, loaded,
        InCoreINode.insertDiskInodeData, hmutex, relisted, noted, reopened, hitEvents]
      simp [Disk.log]
    · simp [refresh, updateAndGetINode, unlock, setInode, inode, h0, Disk.log, hmutex, relisted,
        noted, reopened, hitEvents]
  · have hnum : (fs.reopened n x).iNodeNumber = (fs.inode x).iNodeNumber := by
      unfold reopened
      split
      · next h0 => rw [hn, (hid h0).1]
      · rfl
    have hdev : (fs.reopened n x).deviceNumber = (fs.inode x).deviceNumber := by
      unfold reopened
      split
      · next h0 => exact (hid h0).2.trans (h.device hx).symm
      · rfl
    refine h.modify hring hnum hdev ?_ fun _ => ⟨i, hx⟩
    intro y
    rw [h.free.nodup.mem_erase_iff]
    by_cases hy : y = x
    · simp [hy, reopened]
    · simpa [hy] using h.mem_free y

/-- `iget` when the inode is not cached and no node is free. -/
theorem iget_full (h : fs.cache.Lists [] q)
    (hn : ∀ i, ∀ y ∈ q i, (fs.inode y).iNodeNumber ≠ n) :
    fs.iget n 0 = .ok (none, fs.log (.fetch n)) := by
  have hlookup : (fs.log (.fetch n)).cache.hashLookup n 0 = .ok none := h.hashLookup_none hn
  have hpop : (fs.log (.fetch n)).cache.popFreeList = .ok (none, fs.cache) :=
    Cache.popFreeList_nil h.free
  simp only [iget, hlookup, igetMiss, hpop, bind, Except.bind]
  rfl

/-- The node that takes an inode which was not cached. -/
def opened (fs : FS) (n : Nat) (x : NodeId) : InCoreINode :=
  { fs.inode x with toINode := fs.loaded n, referenceCount := 1 }

/-- `iget` of an inode that is not cached: the first free node takes it. -/
theorem iget_miss (h : fs.cache.Lists (x :: l) q)
    (hn : ∀ i, ∀ y ∈ q i, (fs.inode y).iNodeNumber ≠ n)
    (hmutex : (fs.inode x).iNodeMutex = false) (hid : fs.Identified n) :
    ∃ next prev head hashNext hashPrev heads, fs.iget n 0 =
        .ok (some x, { fs.relisted x (fs.opened n x) next prev head (fs.noted [.fetch n]) with
          cache := { (fs.relisted x (fs.opened n x) next prev head (fs.noted [.fetch n])).cache with
            hashNext := hashNext, hashPrev := hashPrev, hashQ := heads } }) ∧
      Cache.Lists { (fs.relisted x (fs.opened n x) next prev head (fs.noted [.fetch n])).cache with
        hashNext := hashNext, hashPrev := hashPrev, hashQ := heads } l
        (fun i => if i = fs.cache.getHash n 0 then x :: (q i).erase x else (q i).erase x) := by
  have href : (fs.cache.inode x).referenceCount = 0 := (h.mem_free x).mp (by simp)
  have hlookup : (fs.log (.fetch n)).cache.hashLookup n 0 = .ok none := h.hashLookup_none hn
  obtain ⟨next, prev, head, hpop, hring⟩ := Cache.popFreeList_cons h.free
  obtain ⟨locked, hlocked⟩ : ∃ c : Cache, c = { fs.cache with
    next := next, prev := prev, freeList := head
    inode := update fs.cache.inode x { fs.inode x with iNodeMutex := true } } := ⟨_, rfl⟩
  obtain ⟨hashNext, hashPrev, heads, hmove, hqueues⟩ :
      ∃ hashNext hashPrev heads, locked.updateInHashQ x n 0 =
          { locked with hashNext := hashNext, hashPrev := hashPrev, hashQ := heads } ∧
        Cache.Queues { fs.cache with hashNext := hashNext, hashPrev := hashPrev, hashQ := heads }
          (fun i => if i = fs.cache.getHash n 0 then x :: (q i).erase x else (q i).erase x) := by
    have hq : locked.Queues q := by
      rw [hlocked]
      exact ⟨h.queues.chain, h.queues.apart, h.queues.loose⟩
    obtain ⟨hashNext, hashPrev, heads, hmove, hqueues⟩ := Cache.updateInHashQ_spec (x := x) hq (by
      intro i hi
      rw [hlocked]
      simp only [update_self]
      exact (h.device hi).symm ▸ h.home hi) n 0
    rw [hlocked] at hqueues
    exact ⟨hashNext, hashPrev, heads, hmove, hqueues.chain, hqueues.apart, hqueues.loose⟩
  refine ⟨next, prev, head, hashNext, hashPrev, heads, ?_, ?_⟩
  · have hlock : FS.lock ⟨fs.disk.log (.fetch n),
        { fs.cache with next := next, prev := prev, freeList := head }, fs.fileTable⟩ x =
        .ok ⟨fs.disk.log (.fetch n), locked, fs.fileTable⟩ := by
      rw [hlocked]
      exact lock_of_free hmutex
    have hpop' : (fs.log (.fetch n)).cache.popFreeList = _ := hpop
    simp only [iget, hlookup, igetMiss, hpop', bind, Except.bind]
    simp only [log, hlock, hmove]
    rw [hlocked]
    simp only [inode] at hmutex
    simp [fetchInodeFromDisk, updateAndGetINode, unlock, setInode, inode, loaded,
      InCoreINode.insertDiskInodeData, hmutex, relisted, noted, opened, href]
    simp [Disk.log]
  · exact h.rekey hring hn hid.1 hid.2 (by simp [opened]) hqueues

/-- Releasing changes the block numbers of the inode at most. -/
theorem releaseUnlinked_inode {now : UInt64} {s t : InCoreINode × Disk}
    (h : releaseUnlinked now s = .ok t) : ∃ nums, t.1 = { s.1 with dataBlockNums := nums } := by
  unfold releaseUnlinked at h
  split at h
  · obtain ⟨⟨y, d⟩, hfree, h⟩ := bind_eq_ok.mp h
    obtain ⟨d', -, h⟩ := bind_eq_ok.mp h
    cases h
    simp only [Disk.inodeBlocksFree] at hfree
    split at hfree
    · cases hfree
    · cases hfree
      exact ⟨_, rfl⟩
  · cases h
    exact ⟨_, rfl⟩

/-- An inode that was written back has lost its flags only. -/
theorem writeBack_inode (d : Disk) (y : InCoreINode) :
    (writeBack d y).1 = { y with inodeChanged := false, fileDataChanged := false } := by
  unfold writeBack
  split
  · rfl
  · next h =>
      obtain ⟨x, mutex, ref, changed, data⟩ := y
      simp_all

/-- A reference given back while there are others. -/
theorem iput_shared (h : fs.cache.Lists l q) (now : UInt64) (href : 2 ≤ (fs.inode x).referenceCount)
    (hmutex : (fs.inode x).iNodeMutex = false) :
    fs.iput now x = .ok (0, fs.setInode x
        { fs.inode x with referenceCount := (fs.inode x).referenceCount - 1 }) ∧
      (fs.setInode x { fs.inode x with
        referenceCount := (fs.inode x).referenceCount - 1 }).cache.Lists l q := by
  simp only [inode] at href hmutex
  constructor
  · have h0 : (fs.cache.inode x).referenceCount ≠ 0 := by omega
    have h1 : (fs.cache.inode x).referenceCount - 1 ≠ 0 := by omega
    simp [iput, lock, inode, hmutex, bind, Except.bind, setInode, unlock, h0, h1]
  · refine h.modify h.free rfl rfl ?_ fun _ => h.hashed (by omega)
    intro y
    by_cases hy : y = x
    · have := h.mem_free x
      simp only [hy, this, update_self]
      simp only [inode]
      omega
    · simpa [hy] using h.mem_free y

/-- The node while its last reference is given back. -/
def retiring (y : InCoreINode) : InCoreINode := { y with referenceCount := 0, iNodeMutex := true }

/-- The node once its last reference was given back. -/
def closed (y : InCoreINode) (nums : Buffer Nat blocksInInode) : InCoreINode :=
  { y with
    dataBlockNums := nums, referenceCount := 0, iNodeMutex := false, inodeChanged := false
    fileDataChanged := false }

/-- A node that is given back has the fields it had, and no lock. -/
theorem retired_inode {now : UInt64} {d d' : Disk} {y z : InCoreINode}
    (h : releaseUnlinked now (writeBack d (retiring y)) = .ok (z, d')) :
    ∃ nums, { z with iNodeMutex := false } = closed y nums := by
  obtain ⟨nums, hz⟩ := releaseUnlinked_inode h
  rw [writeBack_inode] at hz
  simp only at hz
  exact ⟨nums, by rw [hz]; rfl⟩

section Last

variable {now : UInt64} (href : (fs.inode x).referenceCount = 1)
  (hmutex : (fs.inode x).iNodeMutex = false)

include href hmutex

/-- The last reference given back: what is left to do. -/
theorem iput_eq_retire : fs.iput now x = (fs.setInode x (retiring (fs.inode x))).retire now x := by
  simp only [inode] at href hmutex
  simp [iput, lock, inode, hmutex, bind, Except.bind, setInode, href, retiring]

/-- The last reference given back. -/
theorem iput_last (h : fs.cache.Lists l q) {y : InCoreINode} {d : Disk}
    (hrel : releaseUnlinked now (writeBack fs.disk (retiring (fs.inode x))) = .ok (y, d)) :
    ∃ nums next prev head, { y with iNodeMutex := false } = closed (fs.inode x) nums ∧
      fs.iput now x = .ok (0, fs.relisted x (closed (fs.inode x) nums) next prev head d) ∧
      (fs.relisted x (closed (fs.inode x) nums) next prev head d).cache.Lists (l ++ [x]) q := by
  obtain ⟨nums, hy⟩ := retired_inode hrel
  have hy0 : y.referenceCount = 0 := congrArg (·.referenceCount) hy
  have hnum : y.iNodeNumber = (fs.cache.inode x).iNodeNumber := congrArg (·.iNodeNumber) hy
  have hdev : y.deviceNumber = (fs.cache.inode x).deviceNumber := congrArg (·.deviceNumber) hy
  have hxl : x ∉ l := by
    rw [h.mem_free]
    simp only [inode] at href
    omega
  obtain ⟨i, hi⟩ := h.hashed (x := x) (by simp only [inode] at href; omega)
  obtain ⟨c, hc⟩ : ∃ c : Cache, c = { fs.cache with inode := update fs.cache.inode x y } := ⟨_, rfl⟩
  have hring : c.FreeNodes l := by
    rw [hc]
    exact h.free
  obtain ⟨next, prev, head, hins, hring'⟩ := Cache.freeListInsert_spec hring hxl
  have hlists : (fs.relisted x (closed (fs.inode x) nums) next prev head d).cache.Lists (l ++ [x]) q := by
    refine h.modify hring' rfl rfl ?_ fun hcon => absurd rfl hcon
    intro z
    rw [List.mem_append, List.mem_singleton]
    by_cases hz : z = x
    · simp [hz, closed]
    · simpa [hz] using h.mem_free z
  have hlookup : c.hashLookup y.iNodeNumber y.deviceNumber = .ok (some x) := by
    have hq : c.Queues q := by
      rw [hc]
      exact ⟨h.queues.chain, h.queues.apart, h.queues.loose⟩
    have hnum' : (fun z => decide ((c.inode z).iNodeNumber = y.iNodeNumber)) =
        fun z => decide ((fs.cache.inode z).iNodeNumber = (fs.cache.inode x).iNodeNumber) := by
      funext z
      by_cases hz : z = x <;> simp [hc, hz, hnum]
    have := h.hashLookup_some hi
    rw [Cache.hashLookup_spec h.queues] at this
    rw [Cache.hashLookup_spec hq, hnum', hnum, hdev, h.device hi, hc]
    exact this
  refine ⟨nums, next, prev, head, hy, ?_, hlists⟩
  rw [iput_eq_retire href hmutex, ← hy]
  have hself : (fs.setInode x (retiring (fs.inode x))).inode x = retiring (fs.inode x) :=
    inode_setInode_self _
  have hdisk : (fs.setInode x (retiring (fs.inode x))).disk = fs.disk := rfl
  simp only [retire, hself, hdisk, hrel, bind, Except.bind]
  have hcache : ({ fs.setInode x (retiring (fs.inode x)) with disk := d }.setInode x y).cache = c := by
    rw [hc]
    simp [setInode]
  simp only [hcache, hlookup, hins]
  simp [unlock, setInode, inode, hc, relisted]

/-- The disk after the last reference was given back, whatever the lists are. -/
theorem iput_disk {r : Int} {fs' : FS} (h : fs.iput now x = .ok (r, fs')) :
    ∃ y, releaseUnlinked now (writeBack fs.disk (retiring (fs.inode x))) = .ok (y, fs'.disk) := by
  rw [iput_eq_retire href hmutex, retire, inode_setInode_self] at h
  obtain ⟨⟨y, d⟩, hrel, h⟩ := bind_eq_ok.mp h
  obtain ⟨found, -, h⟩ := bind_eq_ok.mp h
  cases found with
  | none =>
      cases h
      exact ⟨y, hrel⟩
  | some found =>
      obtain ⟨cache, -, h⟩ := bind_eq_ok.mp h
      cases h
      exact ⟨y, hrel⟩

/-- A fault while the last reference is given back. -/
theorem iput_error {e : Fault} (hrel : releaseUnlinked now (writeBack fs.disk
    (retiring (fs.inode x))) = .error e) : fs.iput now x = .error e := by
  rw [iput_eq_retire href hmutex, retire, inode_setInode_self]
  have hdisk : (fs.setInode x (retiring (fs.inode x))).disk = fs.disk := rfl
  simp only [hdisk, hrel, bind, Except.bind]

end Last

end Lists

end FS

end Naofs
