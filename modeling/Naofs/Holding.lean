import Naofs.Emptying

/-!
# Naofs.Holding

References to other inodes while one inode is locked.

`unlinkFileFromINode` gets and puts the file that it removes while its directory is locked.
The lists of the cache do not depend on what is in the nodes, and the lock of one node does
not keep anybody from the others, so that each call does what it does without the lock
(`iget_hold`, `iput_hold`).
-/

namespace Naofs

open Function (update update_self update_of_ne)

/-! ## Lists and inodes -/

namespace Cache

/-- The same lists, with other inodes in the nodes. -/
def refill (c : Cache) (f : NodeId → InCoreINode) : Cache := { c with inode := f }

/-- The insertion reads the links of the free list alone. -/
theorem freeListInsert_refill (c : Cache) (node : NodeId) (f : NodeId → InCoreINode) :
    (c.refill f).freeListInsert node = (c.freeListInsert node).map (·.refill f) := by
  unfold freeListInsert
  dsimp only [refill]
  split
  · rfl
  · split <;> rfl

/-- So does the removal of the first node. -/
theorem popFreeList_refill (c : Cache) (f : NodeId → InCoreINode) :
    (c.refill f).popFreeList = c.popFreeList.map fun r => (r.1, r.2.refill f) := by
  unfold popFreeList
  dsimp only [refill]
  split
  · rfl
  · next first _ =>
      by_cases hone : c.next first = some first
      · simp only [hone, if_true]
        rfl
      · simp only [hone, if_false]
        split
        · rfl
        · split <;> rfl

/-- And so does the search for a node. -/
theorem onFreeList_refill (c : Cache) (node : NodeId) (f : NodeId → InCoreINode) : ∀ (fuel : Nat)
    (working : Option NodeId), (c.refill f).onFreeList node fuel working = c.onFreeList node fuel working := by
  intro fuel
  induction fuel with
  | zero => exact fun _ => rfl
  | succ fuel ih =>
      intro working
      cases working with
      | none => rfl
      | some working =>
          rw [onFreeList, onFreeList, ih]
          rfl

/-- And its removal. -/
theorem freeListRemove_refill (c : Cache) (node : NodeId) (f : NodeId → InCoreINode) :
    (c.refill f).freeListRemove node = (c.freeListRemove node).map (·.refill f) := by
  unfold freeListRemove
  rw [onFreeList_refill]
  dsimp only [refill]
  by_cases hone : c.freeList = some node ∧ c.next node = c.freeList
  · simp only [hone, and_self, if_true]
    rfl
  · simp only [hone, if_false]
    cases c.onFreeList node (inodeBufferSize + 1) c.freeList with
    | error e => rfl
    | ok found =>
        cases found with
        | false => rfl
        | true =>
            by_cases hhead : c.freeList = some node
            · simp only [bind, Except.bind, if_true, hhead]
              split
              · rfl
              · split <;> rfl
            · simp only [bind, Except.bind, if_true, hhead, if_false]
              split
              · rfl
              · split <;> rfl

/-- The queue is found from the numbers that are given. -/
theorem insertInHash_refill (c : Cache) (node : NodeId) (f : NodeId → InCoreINode) (n dev : Nat) :
    (c.refill f).insertInHash node n dev = (c.insertInHash node n dev).refill f := by
  unfold insertInHash
  dsimp only [refill]
  split <;> rfl

/-- The queue is found from the node that is removed. -/
theorem removeFromHashQ_refill (c : Cache) {node : NodeId} {f : NodeId → InCoreINode}
    (hf : f node = c.inode node) :
    (c.refill f).removeFromHashQ node = (c.removeFromHashQ node).refill f := by
  unfold removeFromHashQ
  dsimp only [refill]
  rw [hf]
  by_cases hhead : c.hashQ (c.getHash (c.inode node).iNodeNumber (c.inode node).deviceNumber) = some node
  · simp only [hhead, if_true]
    cases c.hashNext node with
    | none =>
        dsimp only
        split <;> rfl
    | some after =>
        dsimp only
        split <;> rfl
  · simp only [hhead, if_false]
    cases c.hashNext node with
    | none =>
        dsimp only
        cases c.hashPrev node <;> rfl
    | some after =>
        dsimp only
        split <;> rfl

/-- The node changes its queue. -/
theorem updateInHashQ_refill (c : Cache) {node : NodeId} {f : NodeId → InCoreINode}
    (hf : f node = c.inode node) (n dev : Nat) :
    (c.refill f).updateInHashQ node n dev = (c.updateInHashQ node n dev).refill f := by
  rw [updateInHashQ, removeFromHashQ_refill c hf, insertInHash_refill]
  rfl

end Cache

namespace FS

/-- The state in which a node is locked. -/
def hold (fs : FS) (x : NodeId) : FS := fs.setInode x { fs.inode x with iNodeMutex := true }

section Hold

variable {fs fs' : FS} {x y : NodeId} {n dev : Nat} (hne : y ≠ x)

theorem inode_hold_self (fs : FS) (x : NodeId) :
    (fs.hold x).inode x = { fs.inode x with iNodeMutex := true } := inode_setInode_self _

/-- A node that is free can be locked. -/
theorem mutexLock_hold (hfree : (fs.inode x).iNodeMutex = false) :
    mutexLock x fs = .ok ((), fs.hold x) := by
  rw [mutexLock, lock_of_free hfree]
  rfl

include hne

/-- Other nodes are as they were. -/
theorem inode_hold_of_ne (fs : FS) : (fs.hold x).inode y = fs.inode y := inode_setInode_of_ne hne _ _

/-- A change of another node. -/
theorem setInode_hold (fs : FS) (z : InCoreINode) : (fs.hold x).setInode y z = (fs.setInode y z).hold x := by
  rw [hold, hold, inode_setInode_of_ne hne.symm]
  simp only [setInode]
  rw [Function.update_comm hne]

/-- Another node can be locked. -/
theorem lock_hold (h : fs.lock y = .ok fs') : (fs.hold x).lock y = .ok (fs'.hold x) := by
  unfold lock at h ⊢
  rw [inode_hold_of_ne hne]
  split at h
  · cases h
  · next hfree =>
      cases h
      rw [if_neg hfree, setInode_hold hne]

/-- Another node can be unlocked. -/
theorem unlock_hold (fs : FS) : (fs.hold x).unlock y = (fs.unlock y).hold x := by
  rw [unlock, inode_hold_of_ne hne, setInode_hold hne, unlock]

/-- Another node gets a reference. -/
theorem updateAndGetINode_hold (fs : FS) :
    (fs.hold x).updateAndGetINode y = (y, (fs.updateAndGetINode y).2.hold x) := by
  rw [updateAndGetINode, inode_hold_of_ne hne, setInode_hold hne, unlock_hold hne]
  rfl

/-- Another node is filled from the disk. -/
theorem fetchInodeFromDisk_hold (fs : FS) (n : Nat) :
    (fs.hold x).fetchInodeFromDisk n y = (fs.fetchInodeFromDisk n y).hold x := by
  rw [fetchInodeFromDisk, inode_hold_of_ne hne]
  exact setInode_hold hne fs _

/-- Another node is read again if it has no links. -/
theorem refresh_hold (fs : FS) (n : Nat) : (fs.hold x).refresh n y = (fs.refresh n y).hold x := by
  unfold refresh
  rw [inode_hold_of_ne hne, fetchInodeFromDisk_hold hne]
  dsimp only
  split <;> rfl

omit hne in
/-- The lock of a node is not looked at. -/
theorem hashLookup_hold (fs : FS) (x : NodeId) (n dev : Nat) :
    (fs.hold x).cache.hashLookup n dev = fs.cache.hashLookup n dev := by
  refine @Cache.hashLookup_congr fs.cache (fs.hold x).cache (fun z => ?_) rfl rfl rfl n dev
  change ((fs.hold x).inode z).iNodeNumber = (fs.inode z).iNodeNumber
  by_cases hz : z = x
  · rw [hz, inode_hold_self]
  · rw [inode_hold_of_ne hz]

/-- Another node is taken from the free list. -/
theorem unlist_hold {cache : Cache} (h : fs.unlist y = .ok cache) :
    (fs.hold x).unlist y = .ok (cache.refill (fs.hold x).inode) := by
  unfold unlist at h ⊢
  rw [inode_hold_of_ne hne]
  split at h
  · next hidle =>
      rw [if_pos hidle]
      refine (Cache.freeListRemove_refill fs.cache y (fs.hold x).inode).trans ?_
      rw [h]
      rfl
  · next hused =>
      cases h
      rw [if_neg hused]
      rfl

omit hne in
/-- Other lists, while the node is locked. -/
theorem relist_hold {cache : Cache} (h : cache.inode = fs.cache.inode) :
    { fs.hold x with cache := cache.refill (fs.hold x).inode } = { fs with cache := cache }.hold x := by
  simp only [hold, setInode, inode, Cache.refill, h]
  rfl

/-- **`iget`** of another inode. -/
theorem iget_hold (h : fs.iget n dev = .ok (some y, fs')) :
    (fs.hold x).iget n dev = .ok (some y, fs'.hold x) := by
  obtain ⟨found, hfound, h⟩ := bind_eq_ok.mp h
  refine bind_eq_ok.mpr ⟨found, (hashLookup_hold (fs.log (.fetch n)) x n dev).trans hfound, ?_⟩
  cases found with
  | none =>
      obtain ⟨⟨popped, cache⟩, hpop, h⟩ := bind_eq_ok.mp h
      have hpop' := Cache.popFreeList_refill (fs.log (.fetch n)).cache ((fs.log (.fetch n)).hold x).inode
      rw [hpop] at hpop'
      refine bind_eq_ok.mpr ⟨_, hpop', ?_⟩
      cases popped with
      | none => cases h
      | some node =>
          obtain ⟨fs₁, hlock, h⟩ := bind_eq_ok.mp h
          cases h
          refine bind_eq_ok.mpr ⟨fs₁.hold x, ?_, ?_⟩
          · dsimp only
            exact (congrArg (lock · y) (relist_hold (Cache.popFreeList_inode hpop))).trans
              (lock_hold hne hlock)
          · have hqueue : { fs₁.hold x with cache := (fs₁.hold x).cache.updateInHashQ y n dev } =
                { fs₁ with cache := fs₁.cache.updateInHashQ y n dev }.hold x := by
              rw [← relist_hold (Cache.updateInHashQ_inode ..)]
              exact congrArg (fun cache => { fs₁.hold x with cache := cache })
                (Cache.updateInHashQ_refill fs₁.cache (inode_hold_of_ne hne fs₁) n dev)
            dsimp only
            rw [hqueue, fetchInodeFromDisk_hold hne, updateAndGetINode_hold hne]
            rfl
  | some node =>
      obtain ⟨fs₁, hlock, h⟩ := bind_eq_ok.mp h
      obtain ⟨cache, hunlist, h⟩ := bind_eq_ok.mp h
      cases h
      have hinode : cache.inode = fs₁.cache.inode := by
        unfold unlist at hunlist
        split at hunlist
        · exact Cache.freeListRemove_inode hunlist
        · cases hunlist
          rfl
      refine bind_eq_ok.mpr ⟨fs₁.hold x, lock_hold hne hlock, bind_eq_ok.mpr ⟨_, unlist_hold hne hunlist, ?_⟩⟩
      dsimp only
      rw [relist_hold hinode, refresh_hold hne, updateAndGetINode_hold hne]
      rfl

/-- The last reference of another node is given back. -/
theorem retire_hold {now : UInt64} {r : Int} (h : fs.retire now y = .ok (r, fs')) :
    (fs.hold x).retire now y = .ok (r, fs'.hold x) := by
  obtain ⟨⟨z, d⟩, hrel, h⟩ := bind_eq_ok.mp h
  have hset : { fs.hold x with disk := d }.setInode y z = ({ fs with disk := d }.setInode y z).hold x :=
    setInode_hold hne { fs with disk := d } z
  refine bind_eq_ok.mpr ⟨(z, d), by rw [inode_hold_of_ne hne]; exact hrel, ?_⟩
  dsimp only at h ⊢
  rw [hset]
  obtain ⟨found, hfound, h⟩ := bind_eq_ok.mp h
  refine bind_eq_ok.mpr ⟨found, (hashLookup_hold _ x _ _).trans hfound, ?_⟩
  cases found with
  | none =>
      cases h
      exact congrArg (fun fs => Except.ok (_, fs)) (unlock_hold hne _)
  | some found =>
      obtain ⟨cache, hins, h⟩ := bind_eq_ok.mp h
      cases h
      have hins' := Cache.freeListInsert_refill ({ fs with disk := d }.setInode y z).cache found
        (({ fs with disk := d }.setInode y z).hold x).inode
      rw [hins] at hins'
      refine bind_eq_ok.mpr ⟨_, hins', ?_⟩
      dsimp only
      rw [relist_hold (Cache.freeListInsert_inode hins), unlock_hold hne]

/-- **`iput`** of another inode. -/
theorem iput_hold {now : UInt64} {r : Int} (h : fs.iput now y = .ok (r, fs')) :
    (fs.hold x).iput now y = .ok (r, fs'.hold x) := by
  obtain ⟨fs₁, hlock, h⟩ := bind_eq_ok.mp h
  refine bind_eq_ok.mpr ⟨fs₁.hold x, lock_hold hne hlock, ?_⟩
  dsimp only at h ⊢
  rw [inode_hold_of_ne hne, setInode_hold hne, inode_hold_of_ne hne]
  split at h
  · next hidle =>
      cases h
      rw [if_pos hidle, unlock_hold hne]
  · next hused =>
      rw [if_neg hused]
      split at h
      · next hlast =>
          rw [if_pos hlast]
          exact retire_hold hne h
      · next hlast =>
          cases h
          rw [if_neg hlast, unlock_hold hne]

end Hold

end FS

end Naofs
