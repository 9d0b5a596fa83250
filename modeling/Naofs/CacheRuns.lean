import Naofs.IGet
import Naofs.Mkfs
import Mathlib.Logic.Relation
import Mathlib.Data.Fintype.Fin

/-!
# Naofs.CacheRuns

The cache of inodes over whole runs of `iget` and `iput`.

A run starts with the lists that `initFreeInCoreINodeList` builds, on any disk,
and only gives back references that it was given.  `structured_of_run` says that
both linked structures stay what they should be, with each node on the free list
as long as nobody refers to it.
-/

namespace Naofs

open Function (update update_self update_of_ne)

/-- The file system and the references that were handed out. -/
structure CacheState where
  fs : FS
  held : List NodeId

namespace CacheState

inductive CacheOp where
  | iget (iNodeNumber : Nat)
  | iput (now : UInt64) (node : NodeId)

def step (st : CacheState) : CacheOp → Except Fault CacheState
  | .iget iNodeNumber => do
      let (node, fs) ← st.fs.iget iNodeNumber 0
      .ok ⟨fs, node.toList ++ st.held⟩
  | .iput now node => do
      let (_, fs) ← st.fs.iput now node
      .ok ⟨fs, st.held.erase node⟩

/-- Inode numbers are those of the table, which holds each inode under its own
number; only references that are held are given back. -/
def Enabled (st : CacheState) : CacheOp → Prop
  | .iget iNodeNumber => iNodeNumber < numOfInodes ∧ st.fs.Identified iNodeNumber
  | .iput _ node => node ∈ st.held

def Step (st st' : CacheState) : Prop := ∃ op, st.Enabled op ∧ st.step op = .ok st'

/-- The lists of the cache are `l` and `q`, no mutex is held, and the counts are
those of the references handed out. -/
structure Inv (st : CacheState) (l : List NodeId) (q : Fin inodeHashSize → List NodeId) : Prop where
  lists : st.fs.cache.Lists l q
  unlocked : ∀ x, (st.fs.inode x).iNodeMutex = false
  counts : ∀ x, (st.fs.inode x).referenceCount = st.held.count x

section Steps

variable {st st' : CacheState} {l : List NodeId} {q : Fin inodeHashSize → List NodeId} {n : Nat}
  {x : NodeId} {i : Fin inodeHashSize} {now : UInt64}

/-- The counts and the mutexes when only the inode of `x` has changed. -/
theorem Inv.after (h : Inv st l q) {fs' : FS} {y : InCoreINode} {l' held' : List NodeId}
    {q' : Fin inodeHashSize → List NodeId} (hlists : fs'.cache.Lists l' q')
    (hinode : fs'.inode = update st.fs.inode x y) (hmutex : y.iNodeMutex = false)
    (href : y.referenceCount = held'.count x)
    (hothers : ∀ z, z ≠ x → held'.count z = st.held.count z) : Inv ⟨fs', held'⟩ l' q' := by
  refine ⟨hlists, fun z => ?_, fun z => ?_⟩
  · by_cases hz : z = x
    · simp [hinode, hz, hmutex]
    · simpa [hinode, hz] using h.unlocked z
  · by_cases hz : z = x
    · simp [hinode, hz, href]
    · simpa [hinode, hz, hothers z hz] using h.counts z

/-- One more reference to a cached inode. -/
theorem Inv.hit (h : Inv st l q) (hx : x ∈ q i) (hn : (st.fs.inode x).iNodeNumber = n)
    (hid : (st.fs.inode x).linksCount = 0 → st.fs.Identified n) :
    ∃ fs', st.fs.iget n 0 = .ok (some x, fs') ∧
      fs'.inode = update st.fs.inode x (st.fs.reopened n x) ∧
      (∃ events, fs'.disk = st.fs.noted events) ∧ Inv ⟨fs', x :: st.held⟩ (l.erase x) q := by
  obtain ⟨next, prev, head, heq, hlists⟩ := FS.iget_hit h.lists hx hn (h.unlocked x) hid
  refine ⟨_, heq, rfl, ⟨_, rfl⟩, h.after hlists rfl (h.unlocked x) ?_ fun z hz => ?_⟩
  · rw [List.count_cons_self, ← h.counts]
    rfl
  · exact List.count_cons_of_ne hz.symm

/-- The first reference to an inode that was not cached. -/
theorem Inv.miss (h : Inv st (x :: l) q) (hnew : ∀ i, ∀ y ∈ q i, (st.fs.inode y).iNodeNumber ≠ n)
    (hid : st.fs.Identified n) :
    ∃ fs', st.fs.iget n 0 = .ok (some x, fs') ∧
      fs'.inode = update st.fs.inode x (st.fs.opened n x) ∧
      (∃ events, fs'.disk = st.fs.noted events) ∧ Inv ⟨fs', x :: st.held⟩ l
        (fun i => if i = st.fs.cache.getHash n 0 then x :: (q i).erase x else (q i).erase x) := by
  obtain ⟨next, prev, head, hashNext, hashPrev, heads, heq, hlists⟩ :=
    FS.iget_miss h.lists hnew (h.unlocked x) hid
  have href : (st.fs.inode x).referenceCount = 0 := (h.lists.mem_free x).mp (by simp)
  refine ⟨_, heq, rfl, ⟨_, rfl⟩, h.after hlists rfl (h.unlocked x) ?_ fun z hz => ?_⟩
  · rw [List.count_cons_self, ← h.counts, href]
    rfl
  · exact List.count_cons_of_ne hz.symm

/-- One of several references given back. -/
theorem Inv.shared (h : Inv st l q) (now : UInt64) (href : 2 ≤ (st.fs.inode x).referenceCount) :
    ∃ fs', st.fs.iput now x = .ok (0, fs') ∧
      fs'.inode = update st.fs.inode x
        { st.fs.inode x with referenceCount := (st.fs.inode x).referenceCount - 1 } ∧
      fs'.disk = st.fs.disk ∧ Inv ⟨fs', st.held.erase x⟩ l q := by
  obtain ⟨heq, hlists⟩ := FS.iput_shared h.lists now href (h.unlocked x)
  refine ⟨_, heq, rfl, rfl, h.after hlists rfl (h.unlocked x) ?_ fun z hz => ?_⟩
  · rw [List.count_erase_self, ← h.counts]
  · exact List.count_erase_of_ne hz

/-- The last reference given back. -/
theorem Inv.last (h : Inv st l q) (href : (st.fs.inode x).referenceCount = 1)
    {y : InCoreINode} {d : Disk}
    (hrel : FS.releaseUnlinked now (FS.writeBack st.fs.disk (FS.retiring (st.fs.inode x))) =
      .ok (y, d)) :
    ∃ nums fs', { y with iNodeMutex := false } = FS.closed (st.fs.inode x) nums ∧
      st.fs.iput now x = .ok (0, fs') ∧
      fs'.inode = update st.fs.inode x (FS.closed (st.fs.inode x) nums) ∧
      fs'.disk = d ∧ Inv ⟨fs', st.held.erase x⟩ (l ++ [x]) q := by
  obtain ⟨nums, next, prev, head, hy, heq, hlists⟩ := FS.iput_last href (h.unlocked x) h.lists hrel
  refine ⟨nums, _, hy, heq, rfl, rfl, h.after hlists rfl rfl ?_ fun z hz => ?_⟩
  · rw [List.count_erase_self, ← h.counts, href]
    rfl
  · exact List.count_erase_of_ne hz

/-- `iget` returns: an inode that is cached, or the first free node, or nothing. -/
theorem Inv.step_iget (h : Inv st l q) (hid : st.fs.Identified n) :
    ∃ r fs', st.fs.iget n 0 = .ok (r, fs') ∧
      (r = none ↔ (∀ i, ∀ x ∈ q i, (st.fs.inode x).iNodeNumber ≠ n) ∧
        ∀ x, (st.fs.inode x).referenceCount ≠ 0) ∧
      ∃ l' q', Inv ⟨fs', r.toList ++ st.held⟩ l' q' := by
  by_cases hcached : ∃ i, ∃ x ∈ q i, (st.fs.inode x).iNodeNumber = n
  · obtain ⟨i, x, hx, hn⟩ := hcached
    obtain ⟨fs', heq, -, -, hinv⟩ := h.hit hx hn fun _ => hid
    refine ⟨some x, fs', heq, ?_, _, _, hinv⟩
    simp only [reduceCtorEq, false_iff, not_and]
    exact fun hcon => absurd hn (hcon i x hx)
  · have hnew : ∀ i, ∀ x ∈ q i, (st.fs.inode x).iNodeNumber ≠ n :=
      fun i x hx hn => hcached ⟨i, x, hx, hn⟩
    cases l with
    | nil =>
        have hall : ∀ x, (st.fs.inode x).referenceCount ≠ 0 := by
          intro x hcon
          have := (h.lists.mem_free x).mpr hcon
          simp at this
        exact ⟨none, _, FS.iget_full h.lists hnew, by simp only [true_iff]; exact ⟨hnew, hall⟩,
          [], q, h.lists, h.unlocked, h.counts⟩
    | cons x l =>
        obtain ⟨fs', heq, -, -, hinv⟩ := h.miss hnew hid
        refine ⟨some x, fs', heq, ?_, _, _, hinv⟩
        simp only [reduceCtorEq, false_iff, not_and, not_forall, not_not]
        exact fun _ => ⟨x, (h.lists.mem_free x).mp (by simp)⟩

/-- A reference that is held is given back. -/
theorem Inv.step_iput (h : Inv st l q) (hx : x ∈ st.held)
    (hstep : st.step (.iput now x) = .ok st') : ∃ l', Inv st' l' q := by
  have hpos := List.count_pos_iff.mpr hx
  rw [← h.counts] at hpos
  obtain ⟨⟨r, fs'⟩, heq, hst⟩ := bind_eq_ok.mp hstep
  cases hst
  by_cases hone : (st.fs.inode x).referenceCount = 1
  · cases hrel : FS.releaseUnlinked now (FS.writeBack st.fs.disk (FS.retiring (st.fs.inode x))) with
    | error e =>
        rw [FS.iput_error hone (h.unlocked x) hrel] at heq
        cases heq
    | ok s =>
        obtain ⟨nums, fs'', -, hok, -, -, hinv⟩ := h.last hone hrel
        cases hok.symm.trans heq
        exact ⟨_, hinv⟩
  · obtain ⟨fs'', hok, -, -, hinv⟩ := h.shared (x := x) now (by omega)
    cases hok.symm.trans heq
    exact ⟨_, hinv⟩

theorem Inv.step (h : Inv st l q) (hstep : Step st st') : ∃ l' q', Inv st' l' q' := by
  obtain ⟨op, hen, hstep⟩ := hstep
  cases op with
  | iget n =>
      obtain ⟨r, fs', heq, -, l', q', hinv⟩ := h.step_iget hen.2
      obtain ⟨⟨r', fs''⟩, heq', hst⟩ := bind_eq_ok.mp hstep
      cases heq.symm.trans heq'
      cases hst
      exact ⟨l', q', hinv⟩
  | iput now x =>
      obtain ⟨l', hinv⟩ := h.step_iput hen hstep
      exact ⟨l', q, hinv⟩

end Steps

/-! ## Whole runs -/

section Runs

variable {getHash : Nat → Nat → Fin inodeHashSize} {d : Disk}

/-- At the mount all nodes are free. -/
theorem Inv.initial {fs : FS} (h : FS.mount getHash d = .ok fs) :
    Inv ⟨fs, []⟩ (List.finRange inodeBufferSize) fun _ => [] := by
  obtain ⟨next, prev, head, hinit, hring⟩ := Cache.initFreeInCoreINodeList_spec getHash
  obtain ⟨cache, hcache, hfs⟩ := bind_eq_ok.mp h
  cases hfs
  cases hinit.symm.trans hcache
  refine ⟨?_, fun _ => rfl, fun _ => rfl⟩
  refine ⟨hring, ⟨fun i => ⟨rfl, List.nodup_nil, by simp, by simp⟩, by simp, fun _ => ⟨rfl, rfl⟩⟩,
    by simp, by simp, by simp, ?_, ?_⟩
  · intro x
    simp [Cache.blank, Cache.emptyINode]
  · intro x hx
    exact absurd rfl hx

/-- The free list `l` and the hash queues `q` of a cache are in order, `iget` gives up only
when it has to, and `iput` only where the release of an unlinked file does. -/
structure Structured (fs : FS) (l : List NodeId) (q : Fin inodeHashSize → List NodeId) : Prop where
  /-- Each queue is a doubly linked list without repetition. -/
  queue : ∀ i, Links.Chain fs.cache.hashNext fs.cache.hashPrev (fs.cache.hashQ i) (q i)
  /-- A node is in the queue of its own number, and in no other. -/
  home : ∀ i, ∀ x ∈ q i,
    i = fs.cache.getHash (fs.inode x).iNodeNumber (fs.inode x).deviceNumber
  unique : ∀ i j, ∀ x ∈ q i, ∀ y ∈ q j, (fs.inode x).iNodeNumber = (fs.inode y).iNodeNumber → x = y
  /-- The free list is a circular doubly linked list without repetition. -/
  free : Links.Ring fs.cache.next fs.cache.prev fs.cache.freeList l
  mem_free : ∀ x, x ∈ l ↔ (fs.inode x).referenceCount = 0
  total : l.length + (Finset.univ.filter fun x => (fs.inode x).referenceCount ≠ 0).card =
    inodeBufferSize
  iget_none : ∀ n < numOfInodes, fs.Identified n → ∃ r fs', fs.iget n 0 = .ok (r, fs') ∧
    (r = none ↔ (∀ i, ∀ x ∈ q i, (fs.inode x).iNodeNumber ≠ n) ∧
      ∀ x, (fs.inode x).referenceCount ≠ 0)
  iput_ok : ∀ now x, (fs.inode x).referenceCount ≠ 0 → (∃ fs', fs.iput now x = .ok (0, fs')) ∨
    (fs.inode x).referenceCount = 1 ∧
      ∃ e, FS.releaseUnlinked now (FS.writeBack fs.disk (FS.retiring (fs.inode x))) = .error e

/-- The invariant has all parts of the structure. -/
theorem Inv.structured {st : CacheState} {l : List NodeId} {q : Fin inodeHashSize → List NodeId}
    (h : Inv st l q) : Structured st.fs l q where
  queue := h.lists.queues.chain
  home := fun i x hx => by
    rw [FS.inode, h.lists.device hx]
    exact h.lists.home hx
  unique := fun i j x hx y hy => h.lists.unique hx hy
  free := h.lists.free
  mem_free := h.lists.mem_free
  total := by
    have hcard : l.length = (Finset.univ.filter fun x => (st.fs.inode x).referenceCount = 0).card := by
      rw [← List.toFinset_card_of_nodup h.lists.free.nodup]
      congr 1
      ext x
      rw [List.mem_toFinset, Finset.mem_filter_univ]
      exact h.lists.mem_free x
    rw [hcard, Finset.card_filter_add_card_filter_not, Finset.card_univ, Fintype.card_fin]
  iget_none := fun n _ hid => by
    obtain ⟨r, fs', heq, hnone, -⟩ := h.step_iget hid
    exact ⟨r, fs', heq, hnone⟩
  iput_ok := fun now x href => by
    by_cases hone : (st.fs.inode x).referenceCount = 1
    · cases hrel : FS.releaseUnlinked now (FS.writeBack st.fs.disk (FS.retiring (st.fs.inode x))) with
      | error e => exact .inr ⟨hone, e, rfl⟩
      | ok s =>
          obtain ⟨-, fs', -, heq, -⟩ := h.last hone hrel
          exact .inl ⟨fs', heq⟩
    · obtain ⟨fs', heq, -⟩ := h.shared (x := x) now (by omega)
      exact .inl ⟨fs', heq⟩

/-- **The structure of the cache** over whole runs. -/
theorem structured_of_run {fs : FS} {st : CacheState} (h0 : FS.mount getHash d = .ok fs)
    (hrun : Relation.ReflTransGen Step ⟨fs, []⟩ st) : ∃ l q, Structured st.fs l q := by
  suffices h : ∃ l q, Inv st l q by
    obtain ⟨l, q, h⟩ := h
    exact ⟨l, q, h.structured⟩
  induction hrun with
  | refl => exact ⟨_, _, .initial h0⟩
  | tail _ hstep ih =>
      obtain ⟨l, q, ih⟩ := ih
      exact ih.step hstep

/-- The cache after inode 1 of a new file system was fetched. -/
theorem structured_first : ∃ fs st, FS.mount (fun _ _ => 0) AllocState.smallDisk.makeFileSystem = .ok fs ∧
    Step ⟨fs, []⟩ st ∧ st.held.length = 1 ∧ ∃ l q, Structured st.fs l q := by
  obtain ⟨fs, hfs, hdisk⟩ := FS.exists_mount (fun _ _ => 0) AllocState.smallDisk.makeFileSystem
  have hloaded : fs.loaded 1 = initializeINode 1 := by
    rw [FS.loaded, hdisk, Disk.getDiskInode_of_lt _ (Disk.le_capacity_makeFileSystem _) (by decide),
      Disk.diskINode_makeFileSystem _ (by decide) (by decide)]
  have hid : fs.Identified 1 := by
    rw [FS.Identified, hloaded]
    decide
  obtain ⟨r, fs', heq, hnone, -⟩ := (Inv.initial hfs).step_iget hid
  have hstep : Step ⟨fs, []⟩ ⟨fs', r.toList ++ []⟩ :=
    ⟨.iget 1, ⟨by decide, hid⟩, by simp [step, heq, bind, Except.bind]⟩
  refine ⟨fs, _, hfs, hstep, ?_, structured_of_run hfs (.single hstep)⟩
  cases r with
  | none =>
      have := (hnone.mp rfl).2 0
      rw [(Inv.initial hfs).counts] at this
      exact absurd rfl this
  | some x => rfl

end Runs

end CacheState

end Naofs
