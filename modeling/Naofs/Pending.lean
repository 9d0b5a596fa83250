import Naofs.FileOps

/-!
# Naofs.Pending

The references and the locks that a call has taken and not given back.

`Pending fs held locked fs'` compares the state at the beginning of a call with a
later one: the counts have grown by the references in `held`, the mutexes of
`locked` are held, and all other counts and mutexes and the file table are what they
were.  Each of `iget`, `iput`, `lock` and `unlock` moves one node in or out of a list,
whatever the lists of the cache look like, so that the balance of a call is read off
its text.
-/

namespace Naofs

open Function (update update_self update_of_ne)

/-! ## Inodes and the lists of the cache -/

namespace Cache

variable {c c' : Cache} {node : NodeId}

/-- The free list is a chain beside the inodes. -/
theorem freeListInsert_inode (h : c.freeListInsert node = .ok c') : c'.inode = c.inode := by
  unfold freeListInsert at h
  split at h
  · cases h
    rfl
  · dsimp only at h
    split at h
    · cases h
    · cases h
      rfl

/-- Taking the first node leaves the inodes alone. -/
theorem popFreeList_inode {popped : Option NodeId} (h : c.popFreeList = .ok (popped, c')) :
    c'.inode = c.inode := by
  unfold popFreeList at h
  split at h
  · cases h
    rfl
  · split at h
    · cases h
      rfl
    · split at h
      · cases h
      · dsimp only at h
        split at h
        · cases h
        · cases h
          rfl

/-- Taking any node does so too. -/
theorem freeListRemove_inode (h : c.freeListRemove node = .ok c') : c'.inode = c.inode := by
  unfold freeListRemove at h
  split at h
  · cases h
    rfl
  · obtain ⟨found, -, h⟩ := bind_eq_ok.mp h
    split at h
    · -- taking the node out of the ring touches the links only
      have hhead : (if c.freeList = some node then { c with freeList := c.next node } else c).inode =
          c.inode := by
        split <;> rfl
      dsimp only at h
      split at h
      · cases h
      · split at h
        · cases h
        · cases h
          exact hhead
    · cases h
      rfl

/-- And so does moving a node to another queue. -/
theorem updateInHashQ_inode (c : Cache) (node : NodeId) (n dev : Nat) :
    (c.updateInHashQ node n dev).inode = c.inode := by
  unfold updateInHashQ insertInHash removeFromHashQ
  dsimp only
  split <;> split <;> split <;> split <;> rfl

end Cache

namespace FS

/-- `pthread_mutex_lock` as a call. -/
def mutexLock (node : NodeId) : NaoM Unit :=
  fun fs => do
    let fs ← fs.lock node
    .ok ((), fs)

/-- `pthread_mutex_unlock` as a call. -/
def mutexUnlock (node : NodeId) : NaoM Unit := fun fs => .ok ((), fs.unlock node)

/-- Locks are not in the table of descriptors. -/
theorem lock_fileTable {fs fs' : FS} {x : NodeId} (h : fs.lock x = .ok fs') :
    fs'.fileTable = fs.fileTable := by
  unfold lock at h
  split at h
  · cases h
  · cases h
    rfl

/-- `iput` closes no descriptor. -/
theorem iput_fileTable {fs fs' : FS} {now : UInt64} {x : NodeId} {r : Int}
    (h : fs.iput now x = .ok (r, fs')) : fs'.fileTable = fs.fileTable := by
  obtain ⟨fs₁, hlock, h⟩ := bind_eq_ok.mp h
  rw [← lock_fileTable hlock]
  dsimp only at h
  split at h
  · cases h
    rfl
  · split at h
    · obtain ⟨⟨y, d⟩, -, h⟩ := bind_eq_ok.mp h
      obtain ⟨found, -, h⟩ := bind_eq_ok.mp h
      cases found with
      | none =>
          cases h
          rfl
      | some found =>
          obtain ⟨cache, -, h⟩ := bind_eq_ok.mp h
          cases h
          rfl
    · cases h
      rfl

/-- Since `fs`, the references `held` were handed out and the mutexes `locked` taken. -/
structure Pending (fs : FS) (held locked : List NodeId) (fs' : FS) : Prop where
  counts : ∀ x, (fs'.inode x).referenceCount = (fs.inode x).referenceCount + held.count x
  mutexes : ∀ x, (fs'.inode x).iNodeMutex = if x ∈ locked then true else (fs.inode x).iNodeMutex
  unheld : ∀ x ∈ locked, (fs.inode x).iNodeMutex = false
  nodup : locked.Nodup
  table : fs'.fileTable = fs.fileTable

namespace Pending

variable {fs fs₁ fs₂ : FS} {held locked : List NodeId} {x : NodeId}

/-- Nothing is pending at first. -/
theorem refl (fs : FS) : Pending fs [] [] fs where
  counts := by simp
  mutexes := by simp
  unheld := by simp
  nodup := List.nodup_nil
  table := rfl

/-- A step that changes no count, no mutex and not the table. -/
theorem same (h : Pending fs held locked fs₁)
    (hcounts : ∀ x, (fs₂.inode x).referenceCount = (fs₁.inode x).referenceCount)
    (hmutexes : ∀ x, (fs₂.inode x).iNodeMutex = (fs₁.inode x).iNodeMutex)
    (htable : fs₂.fileTable = fs₁.fileTable) : Pending fs held locked fs₂ where
  counts x := (hcounts x).trans (h.counts x)
  mutexes x := (hmutexes x).trans (h.mutexes x)
  unheld := h.unheld
  nodup := h.nodup
  table := htable.trans h.table

/-- The order in which references were taken does not matter. -/
theorem perm (h : Pending fs held locked fs₁) {held' : List NodeId} (hp : held.Perm held') :
    Pending fs held' locked fs₁ :=
  { h with counts := fun x => hp.count_eq x ▸ h.counts x }

/-- References and locks are not on the disk. -/
theorem disk (h : Pending fs held locked fs₁) (d : Disk) :
    Pending fs held locked { fs₁ with disk := d } :=
  h.same (fun _ => rfl) (fun _ => rfl) rfl

/-- A node gets another inode with the same count and mutex. -/
theorem modify (h : Pending fs held locked fs₁) {y : InCoreINode}
    (hcount : y.referenceCount = (fs₁.inode x).referenceCount)
    (hmutex : y.iNodeMutex = (fs₁.inode x).iNodeMutex) :
    Pending fs held locked (fs₁.setInode x y) := by
  refine h.same (fun z => ?_) (fun z => ?_) rfl <;> rw [inode_setInode]
  · by_cases hz : z = x
    · simp [hz, hcount]
    · simp [hz]
  · by_cases hz : z = x
    · simp [hz, hmutex]
    · simp [hz]

/-- A node gets another inode; count and mutex are those of the new lists. -/
theorem change (h : Pending fs held locked fs₁) {y : InCoreINode} {held' locked' : List NodeId}
    (hcount : y.referenceCount = (fs.inode x).referenceCount + held'.count x)
    (hheld : ∀ z, z ≠ x → held'.count z = held.count z)
    (hmutex : y.iNodeMutex = if x ∈ locked' then true else (fs.inode x).iNodeMutex)
    (hlocked : ∀ z, z ≠ x → (z ∈ locked' ↔ z ∈ locked))
    (hx : x ∈ locked' → (fs.inode x).iNodeMutex = false) (hnodup : locked'.Nodup) :
    Pending fs held' locked' (fs₁.setInode x y) where
  counts z := by
    rw [inode_setInode]
    by_cases hz : z = x
    · simp [hz, hcount]
    · simp [hz, h.counts z, hheld z hz]
  mutexes z := by
    rw [inode_setInode]
    by_cases hz : z = x
    · simp [hz, hmutex]
    · simp [hz, h.mutexes z, hlocked z hz]
  unheld z hz := by
    by_cases hzx : z = x
    · rw [hzx] at hz ⊢
      exact hx hz
    · exact h.unheld z ((hlocked z hzx).mp hz)
  nodup := hnodup
  table := h.table

/-! ## Locks -/

/-- A mutex that is free now was free at the beginning. -/
theorem free (h : Pending fs held locked fs₁) (hx : (fs₁.inode x).iNodeMutex = false) :
    x ∉ locked ∧ (fs.inode x).iNodeMutex = false := by
  have hmutex := h.mutexes x
  rw [hx] at hmutex
  split at hmutex
  · cases hmutex
  · next hout => exact ⟨hout, hmutex.symm⟩

/-- One lock more is pending. -/
theorem lock (h : Pending fs held locked fs₁) (hlock : fs₁.lock x = .ok fs₂) :
    Pending fs held (x :: locked) fs₂ := by
  unfold FS.lock at hlock
  split at hlock
  · cases hlock
  · next hmutex =>
      cases hlock
      obtain ⟨hout, hfree⟩ := h.free (Bool.not_eq_true _ ▸ hmutex)
      exact h.change (h.counts x) (fun _ _ => rfl) (by simp) (by simp +contextual)
        (fun _ => hfree) (List.nodup_cons.mpr ⟨hout, h.nodup⟩)

/-- One lock less is pending. -/
theorem unlock (h : Pending fs held locked fs₁) (hx : x ∈ locked) :
    Pending fs held (locked.erase x) (fs₁.unlock x) := by
  have hout : x ∉ locked.erase x := h.nodup.not_mem_erase
  refine h.change (h.counts x) (fun _ _ => rfl) ?_ (fun z hz => List.mem_erase_of_ne hz)
    (fun hcon => absurd hcon hout) (h.nodup.erase x)
  rw [if_neg hout]
  exact (h.unheld x hx).symm

theorem mutexLock (h : Pending fs held locked fs₁) {u : Unit}
    (hlock : FS.mutexLock x fs₁ = .ok (u, fs₂)) : Pending fs held (x :: locked) fs₂ := by
  obtain ⟨fs₃, hlock, heq⟩ := bind_eq_ok.mp hlock
  cases heq
  exact h.lock hlock

theorem mutexUnlock (h : Pending fs held locked fs₁) (hx : x ∈ locked) {u : Unit}
    (hunlock : FS.mutexUnlock x fs₁ = .ok (u, fs₂)) : Pending fs held (locked.erase x) fs₂ := by
  cases hunlock
  exact h.unlock hx

/-! ## References -/

/-- The content of an inode is read, and its references and lock are kept. -/
theorem fetched (h : Pending fs held locked fs₁) (n : Nat) :
    Pending fs held locked (fs₁.fetchInodeFromDisk n x) :=
  h.modify rfl rfl

/-- One more reference to a node that is locked. -/
theorem updateAndGetINode (h : Pending fs held (x :: locked) fs₁) :
    Pending fs (x :: held) locked (fs₁.updateAndGetINode x).2 := by
  have hcounted : Pending fs (x :: held) (x :: locked) (fs₁.setInode x
      { fs₁.inode x with referenceCount := (fs₁.inode x).referenceCount + 1 }) := by
    refine h.change ?_ (fun z hz => List.count_cons_of_ne hz.symm) (h.mutexes x) (fun _ _ => Iff.rfl)
      (h.unheld x) h.nodup
    rw [List.count_cons_self, ← Nat.add_assoc, ← h.counts x]
  have hdone := hcounted.unlock (x := x) (by simp)
  rwa [List.erase_cons_head] at hdone

/-- **`iget`** hands out one reference, unless it answers a null pointer. -/
theorem iget (h : Pending fs held locked fs₁) {n dev : Nat} {r : Option NodeId}
    (hget : fs₁.iget n dev = .ok (r, fs₂)) : Pending fs (r.toList ++ held) locked fs₂ := by
  obtain ⟨found, -, hget⟩ := bind_eq_ok.mp hget
  replace h : Pending fs held locked (fs₁.log (.fetch n)) := h.disk _
  cases found with
  | none =>
      obtain ⟨⟨popped, cache⟩, hpop, hget⟩ := bind_eq_ok.mp hget
      have hinode := Cache.popFreeList_inode hpop
      replace h : Pending fs held locked { fs₁.log (.fetch n) with cache := cache } :=
        h.same (fun x => by simp only [inode, hinode]) (fun x => by simp only [inode, hinode]) rfl
      cases popped with
      | none =>
          cases hget
          exact h
      | some node =>
          obtain ⟨fs₃, hlock, hget⟩ := bind_eq_ok.mp hget
          cases hget
          have hqueued : Pending fs held (node :: locked)
              { fs₃ with cache := fs₃.cache.updateInHashQ node n dev } := by
            refine (h.lock hlock).same (fun x => ?_) (fun x => ?_) rfl <;>
              simp only [inode, Cache.updateInHashQ_inode]
          exact (hqueued.fetched n).updateAndGetINode
  | some node =>
      obtain ⟨fs₃, hlock, hget⟩ := bind_eq_ok.mp hget
      obtain ⟨cache, hunlist, hget⟩ := bind_eq_ok.mp hget
      cases hget
      have hinode : cache.inode = fs₃.cache.inode := by
        unfold unlist at hunlist
        split at hunlist
        · exact Cache.freeListRemove_inode hunlist
        · cases hunlist
          rfl
      have hout : Pending fs held (node :: locked) { fs₃ with cache := cache } :=
        (h.lock hlock).same (fun x => by simp only [inode, hinode])
          (fun x => by simp only [inode, hinode]) rfl
      have hfresh : Pending fs held (node :: locked)
          (refresh { fs₃ with cache := cache } n node) := by
        unfold refresh
        dsimp only
        split
        · exact (hout.fetched n).disk _
        · exact hout
      exact hfresh.updateAndGetINode

/-- A reference that is given back. -/
theorem iput (h : Pending fs held locked fs₁) (hx : x ∈ held) {now : UInt64} {r : Int}
    (hput : fs₁.iput now x = .ok (r, fs₂)) : Pending fs (held.erase x) locked fs₂ := by
  obtain ⟨fs₃, hlock, hput⟩ := bind_eq_ok.mp hput
  replace h := h.lock hlock
  have hpos : 0 < (fs₃.inode x).referenceCount := by
    have := List.count_pos_iff.mpr hx
    rw [h.counts x]
    omega
  dsimp only at hput
  rw [if_neg (by omega)] at hput
  have hless : Pending fs (held.erase x) (x :: locked) (fs₃.setInode x
      { fs₃.inode x with referenceCount := (fs₃.inode x).referenceCount - 1 }) := by
    refine h.change ?_ (fun z hz => List.count_erase_of_ne hz) (h.mutexes x) (fun _ _ => Iff.rfl)
      (h.unheld x) h.nodup
    have hheld := List.count_pos_iff.mpr hx
    have hcount := h.counts x
    rw [List.count_erase_self]
    change (fs₃.inode x).referenceCount - 1 = _
    omega
  have hunlock : ∀ {fs₄ : FS}, Pending fs (held.erase x) (x :: locked) fs₄ →
      Pending fs (held.erase x) locked (fs₄.unlock x) := by
    intro fs₄ h₄
    have hdone := h₄.unlock (x := x) (by simp)
    rwa [List.erase_cons_head] at hdone
  split at hput
  · obtain ⟨⟨y, d⟩, hrel, hput⟩ := bind_eq_ok.mp hput
    obtain ⟨found, -, hput⟩ := bind_eq_ok.mp hput
    obtain ⟨nums, hy⟩ := releaseUnlinked_inode hrel
    rw [writeBack_inode] at hy
    dsimp only at hy
    have hwritten := (hless.disk d).modify (x := x) (y := y) (by rw [hy]; rfl) (by rw [hy]; rfl)
    cases found with
    | none =>
        cases hput
        exact hunlock hwritten
    | some found =>
        obtain ⟨cache, hins, hput⟩ := bind_eq_ok.mp hput
        cases hput
        have hinode := Cache.freeListInsert_inode hins
        exact hunlock (hwritten.same (fun z => by simp only [inode, hinode])
          (fun z => by simp only [inode, hinode]) rfl)
  · cases hput
    exact hunlock hless

end Pending

end FS

end Naofs
