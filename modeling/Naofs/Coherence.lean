import Naofs.Isolation

/-!
# Naofs.Coherence

The inodes that `iget` returns.

`FS.seen` is what a call of `iget` would find under a number: the cached inode, or the one
on disk if there is none or if the cached one has no links.  In a `Coherent` state a node
without changes agrees with the disk, unless it is left over from a file that was deleted;
such a node is never seen.

* `Coherent.iget` — `iget` returns what is seen, and everything else is seen as before;
* `Coherent.iput` — `iput` writes the inode of the last reference and nothing else;
* `Coherent.update` — a change through a reference.
-/

namespace Naofs

open Function (update update_self update_of_ne)

/-- Two disks with the same blocks. -/
structure SameBlocks (d d' : Disk) : Prop where
  backend : d'.backend = d.backend
  blocks : d'.blocks = d.blocks

namespace SameBlocks

variable {d d' d'' : Disk}

/-- A disk has the blocks that it has. -/
theorem refl (d : Disk) : SameBlocks d d := ⟨rfl, rfl⟩

/-- Same blocks, and same again. -/
theorem trans (h : SameBlocks d d') (h' : SameBlocks d' d'') : SameBlocks d d'' :=
  ⟨h'.backend.trans h.backend, h'.blocks.trans h.blocks⟩

/-- The blocks of a file are found on both disks at the same places. -/
theorem fileBlock (h : SameBlocks d d') : d'.fileBlock = d.fileBlock := by
  funext nums k
  rw [Disk.fileBlock, Disk.fileBlock, show d'.child = d.child from
    funext fun b => Disk.child_congr (congrFun h.blocks b)]

theorem fileBlocks (h : SameBlocks d d') : d'.fileBlocks = d.fileBlocks := by
  funext nums n
  rw [Disk.fileBlocks, Disk.fileBlocks, h.fileBlock,
    Disk.indirectBlocks_frame fun b _ => congrFun h.blocks b]

/-- The inodes are the same on both disks. -/
theorem diskINode (h : SameBlocks d d') : d'.diskINode = d.diskINode :=
  funext fun _ => d.diskINode_congr (congrFun h.blocks _)

end SameBlocks

namespace FS

open HolderState (Unmodified)

/-- Notes in the trace change no block. -/
theorem sameBlocks_noted (fs : FS) (events : List Event) : SameBlocks fs.disk (fs.noted events) :=
  ⟨rfl, rfl⟩

/-- The node that the cache has for a number. -/
def Caches (fs : FS) (n : Nat) (x : NodeId) : Prop := fs.cache.hashLookup n 0 = .ok (some x)

/-- The inode that `iget` returns for a number. -/
def seen (fs : FS) (n : Nat) : INode :=
  match fs.cache.hashLookup n 0 with
  | .ok (some x) => if (fs.inode x).linksCount = 0 then fs.disk.diskINode n else (fs.inode x).toINode
  | _ => fs.disk.diskINode n

/-- The cache agrees with the disk wherever it is looked at, and `held` are the references
that were handed out. -/
structure Coherent (fs : FS) (held : List NodeId) : Prop where
  cache : ∃ l q, CacheState.Inv ⟨fs, held⟩ l q
  stored : dataRegionStart ≤ fs.disk.backend.capacity
  table : ∀ n < numOfInodes, (fs.disk.diskINode n).iNodeNumber = n ∧
    (fs.disk.diskINode n).deviceNumber = 0
  number : ∀ n x, fs.Caches n x → n < numOfInodes
  fits : ∀ n x, fs.Caches n x → (fs.inode x).Fits
  idle : ∀ x, (fs.inode x).referenceCount = 0 → Unmodified (fs.inode x)
  synced : ∀ n x, fs.Caches n x → Unmodified (fs.inode x) →
    (fs.inode x).linksCount ≠ 0 ∨ (fs.inode x).referenceCount ≠ 0 →
    (fs.inode x).toINode = fs.disk.diskINode n

section Caches

variable {fs fs' : FS} {l : List NodeId} {q : Fin inodeHashSize → List NodeId} {n : Nat} {x y : NodeId}

/-- A node is found for an inode exactly if it hangs in a queue and has the number. -/
theorem caches_iff (h : fs.cache.Lists l q) :
    fs.Caches n x ↔ (∃ i, x ∈ q i) ∧ (fs.inode x).iNodeNumber = n := by
  constructor
  · intro hx
    refine ⟨?_, Cache.hashLookup_number hx⟩
    rw [Caches, Cache.hashLookup_spec h.queues, Except.ok.injEq] at hx
    exact ⟨_, List.mem_of_find?_eq_some hx⟩
  · rintro ⟨⟨i, hi⟩, rfl⟩
    exact h.hashLookup_some hi

/-- An inode has one node at most. -/
theorem Caches.unique (h : fs.Caches n x) (h' : fs.Caches n y) : x = y := by
  cases h.symm.trans h'
  rfl

theorem Caches.number (h : fs.Caches n x) : (fs.inode x).iNodeNumber = n :=
  Cache.hashLookup_number h

/-- A cached inode is seen in its node, unless it is unlinked and will be read again. -/
theorem seen_of_caches (h : fs.Caches n x) : fs.seen n =
    if (fs.inode x).linksCount = 0 then fs.disk.diskINode n else (fs.inode x).toINode := by
  rw [seen, h]

/-- An inode that is not cached is seen on the disk. -/
theorem seen_of_uncached (h : ∀ x, ¬ fs.Caches n x) : fs.seen n = fs.disk.diskINode n := by
  rw [seen]
  split
  · next x hx => exact absurd hx (h x)
  · rfl

/-- What is seen depends on one node and on one inode on disk. -/
theorem seen_congr (hcaches : ∀ x, fs'.Caches n x ↔ fs.Caches n x)
    (hinode : ∀ x, fs.Caches n x → (fs'.inode x).toINode = (fs.inode x).toINode)
    (hdisk : fs'.disk.diskINode n = fs.disk.diskINode n) : fs'.seen n = fs.seen n := by
  by_cases hx : ∃ x, fs.Caches n x
  · obtain ⟨x, hx⟩ := hx
    rw [seen_of_caches hx, seen_of_caches ((hcaches x).mpr hx), hinode x hx, hdisk]
  · rw [not_exists] at hx
    rw [seen_of_uncached hx, seen_of_uncached fun x => mt (hcaches x).mp (hx x), hdisk]

end Caches

/-! ## References -/

namespace Coherent

variable {fs fs' : FS} {held : List NodeId} {n : Nat} {x : NodeId}

/-- Every number in range is known to the lookup. -/
theorem identified (h : Coherent fs held) (hn : n < numOfInodes) : fs.Identified n := by
  have hload : fs.loaded n = fs.disk.diskINode n := by
    rw [loaded, Disk.getDiskInode_of_lt _ h.stored hn]
  exact ⟨by rw [hload]; exact (h.table n hn).1, by rw [hload]; exact (h.table n hn).2⟩

/-- What `iget` loads is what is on the disk. -/
theorem loaded (h : Coherent fs held) (hn : n < numOfInodes) : fs.loaded n = fs.disk.diskINode n := by
  rw [FS.loaded, Disk.getDiskInode_of_lt _ h.stored hn]

/-- An inode is seen under its own number. -/
theorem seen_number (h : Coherent fs held) (hn : n < numOfInodes) : (fs.seen n).iNodeNumber = n := by
  by_cases hx : ∃ x, fs.Caches n x
  · obtain ⟨x, hx⟩ := hx
    rw [seen_of_caches hx]
    split
    · exact (h.table n hn).1
    · exact hx.number
  · rw [seen_of_uncached (not_exists.mp hx)]
    exact (h.table n hn).1

/-- A node without references is as the disk has it, if it is looked at. -/
theorem seen_of_idle (h : Coherent fs held) (hx : fs.Caches n x)
    (href : (fs.inode x).referenceCount = 0) : fs.seen n = fs.disk.diskINode n := by
  rw [seen_of_caches hx]
  split
  · rfl
  · next hlinks => exact h.synced n x hx (h.idle x href) (.inl hlinks)

/-- Between two calls no inode is locked. -/
theorem unlocked (h : Coherent fs held) (x : NodeId) : (fs.inode x).iNodeMutex = false := by
  obtain ⟨q, r, hinv⟩ := h.cache
  exact hinv.unlocked x

/-- The reference count is the number of references that are held. -/
theorem counts (h : Coherent fs held) (x : NodeId) : (fs.inode x).referenceCount = held.count x := by
  obtain ⟨l, q, hinv⟩ := h.cache
  exact hinv.counts x

/-- A node is idle exactly if nobody holds it. -/
theorem idle_iff (h : Coherent fs held) : (fs.inode x).referenceCount = 0 ↔ x ∉ held := by
  rw [h.counts, List.count_eq_zero]

/-- What `iget` does when it finds a node for the inode. -/
structure Fetched (fs : FS) (held : List NodeId) (n : Nat) (x : NodeId) (fs' : FS) : Prop where
  node : x ∉ held ∨ (fs.inode x).iNodeNumber = n
  coherent : Coherent fs' (x :: held)
  caches : fs'.Caches n x
  value : (fs'.inode x).toINode = fs.seen n
  disk : SameBlocks fs.disk fs'.disk
  seen : ∀ k < numOfInodes, fs'.seen k = fs.seen k
  others : ∀ z, z ≠ x → fs'.inode z = fs.inode z
  fresh : x ∉ held → Unmodified (fs'.inode x)

/-- What is seen of an inode is in range. -/
theorem fits_seen (h : Coherent fs held) (n : Nat) : (fs.seen n).Fits := by
  by_cases hx : ∃ x, fs.Caches n x
  · obtain ⟨x, hx⟩ := hx
    rw [seen_of_caches hx]
    split
    · exact fs.disk.fits_diskINode n
    · exact h.fits n x hx
  · rw [seen_of_uncached (not_exists.mp hx)]
    exact fs.disk.fits_diskINode n

/-- An inode without links is seen as the disk has it. -/
theorem seen_unlinked (fs : FS) (n : Nat) (h : (fs.seen n).linksCount = 0) :
    fs.seen n = fs.disk.diskINode n := by
  by_cases hx : ∃ x, fs.Caches n x
  · obtain ⟨x, hx⟩ := hx
    rw [seen_of_caches hx] at h ⊢
    split at h
    · next hlinks => rw [if_pos hlinks]
    · next hlinks => exact absurd h hlinks
  · exact seen_of_uncached (not_exists.mp hx)

/-- A node is the one for `n` now, whatever it was before; no other node has changed. -/
theorem fetched (h : Coherent fs held) (hn : n < numOfInodes) {l : List NodeId}
    {q : Fin inodeHashSize → List NodeId} (hinv : CacheState.Inv ⟨fs', x :: held⟩ l q)
    (hnode : x ∉ held ∨ (fs.inode x).iNodeNumber = n)
    (hcaches : ∀ k z, fs'.Caches k z ↔ k = n ∧ z = x ∨ z ≠ x ∧ fs.Caches k z)
    (hleft : ∀ k, k ≠ n → fs.Caches k x → fs.seen k = fs.disk.diskINode k)
    (hvalue : (fs'.inode x).toINode = fs.seen n) (hothers : ∀ z, z ≠ x → fs'.inode z = fs.inode z)
    (hsynced : Unmodified (fs'.inode x) → fs.seen n = fs.disk.diskINode n)
    (hfresh : x ∉ held → Unmodified (fs'.inode x)) (hdisk : SameBlocks fs.disk fs'.disk) :
    Fetched fs held n x fs' := by
  have hself : fs'.Caches n x := (hcaches n x).mpr (.inl ⟨rfl, rfl⟩)
  refine ⟨hnode, ⟨⟨l, q, hinv⟩, ?_, ?_, ?_, ?_, ?_, ?_⟩, hself, hvalue, hdisk, fun k hk => ?_, hothers,
    hfresh⟩
  · rw [hdisk.backend]
    exact h.stored
  · rw [hdisk.diskINode]
    exact h.table
  · intro k z hz
    obtain ⟨rfl, -⟩ | ⟨-, hz⟩ := (hcaches k z).mp hz
    · exact hn
    · exact h.number k z hz
  · intro k z hz
    obtain ⟨-, rfl⟩ | ⟨hzx, hz⟩ := (hcaches k z).mp hz
    · rw [hvalue]
      exact h.fits_seen n
    · rw [hothers z hzx]
      exact h.fits k z hz
  · intro z href
    by_cases hzx : z = x
    · have hcount := hinv.counts z
      rw [hzx, List.count_cons_self] at hcount
      rw [hzx] at href
      exact absurd (href.symm.trans hcount) (Nat.succ_ne_zero _).symm
    · rw [hothers z hzx] at href ⊢
      exact h.idle z href
  · intro k z hz hun hused
    rw [hdisk.diskINode]
    obtain ⟨rfl, rfl⟩ | ⟨hzx, hz⟩ := (hcaches k z).mp hz
    · rw [hvalue]
      exact hsynced hun
    · rw [hothers z hzx] at hun hused ⊢
      exact h.synced k z hz hun hused
  · by_cases hkn : k = n
    · subst hkn
      rw [seen_of_caches hself, hvalue, hdisk.diskINode]
      split
      · next hlinks => exact (seen_unlinked fs k hlinks).symm
      · rfl
    · by_cases hz : ∃ z, z ≠ x ∧ fs.Caches k z
      · obtain ⟨z, hzx, hz⟩ := hz
        rw [seen_of_caches hz, seen_of_caches ((hcaches k z).mpr (.inr ⟨hzx, hz⟩)), hothers z hzx,
          hdisk.diskINode]
      · have hno : ∀ z, ¬ fs'.Caches k z := fun z hcon =>
          ((hcaches k z).mp hcon).elim (fun hcon => hkn hcon.1) fun hcon => hz ⟨z, hcon⟩
        rw [seen_of_uncached hno, hdisk.diskINode]
        by_cases hx : fs.Caches k x
        · exact (hleft k hkn hx).symm
        · refine (seen_of_uncached fun z hcon => ?_).symm
          by_cases hzx : z = x
          · exact hx (hzx ▸ hcon)
          · exact hz ⟨z, hzx, hcon⟩

/-- A node that is cached gets one more reference. -/
theorem hit (h : Coherent fs held) (hx : fs.Caches n x) :
    ∃ fs', fs.iget n 0 = .ok (some x, fs') ∧ Fetched fs held n x fs' := by
  obtain ⟨l, q, hinv⟩ := h.cache
  have hn := h.number n x hx
  obtain ⟨⟨i, hi⟩, hnum⟩ := (caches_iff hinv.lists).mp hx
  obtain ⟨fs', heq, hinode, ⟨events, hdisk⟩, hinv'⟩ := hinv.hit hi hnum fun _ => h.identified hn
  have hself : fs'.inode x = fs.reopened n x := by rw [hinode, update_self]
  have hothers : ∀ z, z ≠ x → fs'.inode z = fs.inode z := fun z hz => by rw [hinode, update_of_ne hz]
  have hvalue : (fs'.inode x).toINode = fs.seen n := by
    rw [hself, seen_of_caches hx, ← h.loaded hn]
    rfl
  refine ⟨fs', heq, h.fetched hn hinv' (.inr hnum) (fun k z => ?_) (fun k hkn hk => ?_) hvalue hothers
    (fun hun => ?_) (fun hfree => ?_) (hdisk ▸ sameBlocks_noted fs events)⟩
  · rw [caches_iff hinv'.lists, caches_iff hinv.lists]
    by_cases hz : z = x
    · subst hz
      rw [hvalue, h.seen_number hn]
      simp only [ne_eq, not_true_eq_false, false_and, or_false, and_true]
      exact ⟨fun hk => hk.2.symm, fun hk => ⟨⟨i, hi⟩, hk.symm⟩⟩
    · rw [hothers z hz]
      simp [hz]
  · exact absurd ((hk.number).symm.trans hnum) hkn
  · rw [hself] at hun
    rw [seen_of_caches hx]
    split
    · rfl
    · next hlinks => exact h.synced n x hx hun (.inl hlinks)
  · rw [hself]
    exact h.idle x (h.idle_iff.mpr hfree)

/-- The first free node takes an inode that is not cached. -/
theorem miss (h : Coherent fs held) (hn : n < numOfInodes) (hno : ∀ z, ¬ fs.Caches n z) :
    (∃ x fs', fs.iget n 0 = .ok (some x, fs') ∧ Fetched fs held n x fs') ∨
      (∀ x, x ∈ held ∧ (fs.inode x).iNodeNumber ≠ n) ∧
        fs.iget n 0 = .ok (none, fs.log (.fetch n)) := by
  obtain ⟨l, q, hinv⟩ := h.cache
  have hnew : ∀ i, ∀ x ∈ q i, (fs.inode x).iNodeNumber ≠ n := fun i x hx hnum =>
    hno x ((caches_iff hinv.lists).mpr ⟨⟨i, hx⟩, hnum⟩)
  cases l with
  | nil =>
      refine .inr ⟨fun x => ?_, iget_full hinv.lists hnew⟩
      have hused : (fs.inode x).referenceCount ≠ 0 := fun h0 =>
        List.not_mem_nil ((hinv.lists.mem_free x).mpr h0)
      obtain ⟨i, hi⟩ := hinv.lists.hashed hused
      exact ⟨Decidable.not_not.mp (mt h.idle_iff.mpr hused), hnew i x hi⟩
  | cons x l =>
      have href : (fs.inode x).referenceCount = 0 := (hinv.lists.mem_free x).mp (by simp)
      have hfree := h.idle_iff.mp href
      obtain ⟨fs', heq, hinode, ⟨events, hdisk⟩, hinv'⟩ := hinv.miss hnew (h.identified hn)
      have hself : fs'.inode x = fs.opened n x := by rw [hinode, update_self]
      have hothers : ∀ z, z ≠ x → fs'.inode z = fs.inode z := fun z hz => by
        rw [hinode, update_of_ne hz]
      have hvalue : (fs'.inode x).toINode = fs.seen n := by
        rw [hself, seen_of_uncached hno, ← h.loaded hn]
        rfl
      refine .inl ⟨x, fs', heq, h.fetched hn hinv' (.inl hfree) (fun k z => ?_)
        (fun k hkn hk => h.seen_of_idle hk href) hvalue hothers (fun _ => seen_of_uncached hno)
        (fun _ => ?_) (hdisk ▸ sameBlocks_noted fs events)⟩
      · rw [caches_iff hinv'.lists, caches_iff hinv.lists]
        by_cases hz : z = x
        · subst hz
          rw [hvalue, h.seen_number hn]
          simp only [ne_eq, not_true_eq_false, false_and, or_false, and_true]
          refine ⟨fun hk => hk.2.symm, fun hk => ⟨⟨fs.cache.getHash n 0, ?_⟩, hk.symm⟩⟩
          rw [if_pos rfl]
          exact List.mem_cons_self
        · have hmem : ∀ i, (z ∈ if i = fs.cache.getHash n 0 then x :: (q i).erase x
              else (q i).erase x) ↔ z ∈ q i := by
            intro i
            split <;> simp [hz, List.mem_erase_of_ne]
          rw [hothers z hz]
          simp only [hmem, hz, and_false, false_or, ne_eq, not_false_eq_true, true_and]
      · rw [hself]
        exact h.idle x href

/-- **`iget`** returns the inode that is seen, in a node that has it or in one that is
free, or nothing. -/
theorem iget (h : Coherent fs held) (hn : n < numOfInodes) :
    (∃ x fs', fs.iget n 0 = .ok (some x, fs') ∧ Fetched fs held n x fs') ∨
      (∀ x, x ∈ held ∧ (fs.inode x).iNodeNumber ≠ n) ∧
        fs.iget n 0 = .ok (none, fs.log (.fetch n)) := by
  by_cases hx : ∃ x, fs.Caches n x
  · obtain ⟨x, hx⟩ := hx
    obtain ⟨fs', hfs'⟩ := h.hit hx
    exact .inl ⟨x, fs', hfs'⟩
  · exact h.miss hn (not_exists.mp hx)

/-- Notes in the trace keep the state coherent. -/
theorem log (h : Coherent fs held) (e : Event) : Coherent (fs.log e) held := by
  obtain ⟨l, q, hinv⟩ := h.cache
  exact ⟨⟨l, q, hinv.lists, hinv.unlocked, hinv.counts⟩, h.stored, h.table, h.number, h.fits, h.idle,
    h.synced⟩

/-- One node has changed, and the disk may have a new inode for it. -/
structure Touched (fs : FS) (held : List NodeId) (n : Nat) (y : InCoreINode) (fs' : FS) : Prop where
  coherent : Coherent fs' held
  caches : ∀ k z, fs'.Caches k z ↔ fs.Caches k z
  others : ∀ k < numOfInodes, k ≠ n → fs'.seen k = fs.seen k
  self : fs'.seen n = if y.linksCount = 0 then fs'.disk.diskINode n else y.toINode

/-- One node of the cache changes, and the disk at most where its inode is. -/
theorem touched (h : Coherent fs held) (hx : fs.Caches n x) {held' l l' : List NodeId}
    {q : Fin inodeHashSize → List NodeId} {y : InCoreINode} (hq : CacheState.Inv ⟨fs, held⟩ l q)
    (hq' : CacheState.Inv ⟨fs', held'⟩ l' q) (hinode : fs'.inode = update fs.inode x y)
    (hnum : y.iNodeNumber = n) (hfits : y.Fits) (hback : fs'.disk.backend = fs.disk.backend)
    (htable : ∀ k < numOfInodes, k ≠ n → fs'.disk.diskINode k = fs.disk.diskINode k)
    (hself : (fs'.disk.diskINode n).iNodeNumber = n ∧ (fs'.disk.diskINode n).deviceNumber = 0)
    (hidle : y.referenceCount = 0 → Unmodified y)
    (hsynced : Unmodified y → y.linksCount ≠ 0 ∨ y.referenceCount ≠ 0 →
      y.toINode = fs'.disk.diskINode n) : Touched fs held' n y fs' := by
  have hlt := h.number n x hx
  have hone : fs'.inode x = y := by rw [hinode, update_self]
  have hothers : ∀ z, z ≠ x → fs'.inode z = fs.inode z := fun z hz => by rw [hinode, update_of_ne hz]
  have hcaches : ∀ k z, fs'.Caches k z ↔ fs.Caches k z := by
    intro k z
    rw [caches_iff hq'.lists, caches_iff hq.lists]
    refine and_congr_right fun _ => ?_
    by_cases hz : z = x
    · rw [hz, hone, hnum]
      exact (Iff.of_eq (congrArg (· = k) hx.number)).symm
    · rw [hothers z hz]
  have hne : ∀ {k z}, fs.Caches k z → k ≠ n → z ≠ x := fun hz hkn hzx =>
    hkn ((hz.number).symm.trans (hzx ▸ hx.number))
  refine ⟨⟨⟨l', q, hq'⟩, ?_, ?_, ?_, ?_, ?_, ?_⟩, hcaches, ?_, ?_⟩
  · rw [hback]
    exact h.stored
  · intro k hk
    by_cases hkn : k = n
    · rw [hkn]
      exact hself
    · rw [htable k hk hkn]
      exact h.table k hk
  · exact fun k z hz => h.number k z ((hcaches k z).mp hz)
  · intro k z hz
    by_cases hzx : z = x
    · rw [hzx, hone]
      exact hfits
    · rw [hothers z hzx]
      exact h.fits k z ((hcaches k z).mp hz)
  · intro z href
    by_cases hzx : z = x
    · rw [hzx, hone] at href ⊢
      exact hidle href
    · rw [hothers z hzx] at href ⊢
      exact h.idle z href
  · intro k z hz hun hused
    rw [hcaches] at hz
    by_cases hkn : k = n
    · subst hkn
      obtain rfl := hz.unique hx
      rw [hone] at hun hused ⊢
      exact hsynced hun hused
    · rw [hothers z (hne hz hkn)] at hun hused ⊢
      rw [htable k (h.number k z hz) hkn]
      exact h.synced k z hz hun hused
  · intro k hk hkn
    refine seen_congr (hcaches k) (fun z hz => ?_) (htable k hk hkn)
    rw [hothers z (hne hz hkn)]
  · rw [seen_of_caches ((hcaches n x).mpr hx), hone]

/-- What `iput` does to a node that is not released. -/
structure Returned (fs : FS) (held : List NodeId) (n : Nat) (x : NodeId) (fs' : FS) : Prop where
  coherent : Coherent fs' held
  caches : ∀ k z, fs'.Caches k z ↔ fs.Caches k z
  backend : fs'.disk.backend = fs.disk.backend
  /-- Only the table is written. -/
  blocks : ∀ b, b ≠ n / 4 + 4 → fs'.disk.blocks b = fs.disk.blocks b
  others : ∀ k < numOfInodes, k ≠ n →
    fs'.seen k = fs.seen k ∧ fs'.disk.diskINode k = fs.disk.diskINode k
  value : ∀ z, (fs'.inode z).toINode = (fs.inode z).toINode
  /-- The last reference writes the inode back. -/
  last : x ∉ held → fs'.seen n = (fs.inode x).toINode ∧ fs'.disk.diskINode n = (fs.inode x).toINode
  shared : x ∈ held → fs'.seen n = fs.seen n ∧ SameBlocks fs.disk fs'.disk
  clean : Unmodified (fs.inode x) → SameBlocks fs.disk fs'.disk

/-- A node that is held stands for its inode. -/
theorem caches_of_held (h : Coherent fs held) (hx : x ∈ held) : fs.Caches (fs.inode x).iNodeNumber x := by
  obtain ⟨l, q, hinv⟩ := h.cache
  obtain ⟨i, hi⟩ := hinv.lists.hashed (x := x) fun h0 => h.idle_iff.mp h0 hx
  exact (caches_iff hinv.lists).mpr ⟨⟨i, hi⟩, rfl⟩

/-- There is one device. -/
theorem device (h : Coherent fs held) (hx : fs.Caches n x) : (fs.inode x).deviceNumber = 0 := by
  obtain ⟨l, q, hinv⟩ := h.cache
  obtain ⟨⟨i, hi⟩, -⟩ := (caches_iff hinv.lists).mp hx
  exact hinv.lists.device hi

/-- **`iput`** of a node that is linked, or in use elsewhere. -/
theorem iput (h : Coherent fs (x :: held)) (now : UInt64) (hn : fs.Caches n x)
    (hkept : x ∈ held ∨ (fs.inode x).linksCount ≠ 0 ∨ n = 0) :
    ∃ fs', fs.iput now x = .ok (0, fs') ∧ Returned fs held n x fs' := by
  obtain ⟨l, q, hinv⟩ := h.cache
  have hcount := h.counts x
  rw [List.count_cons_self] at hcount
  have hlt := h.number n x hn
  have hnum := hn.number
  by_cases hx : x ∈ held
  · -- other references are left
    have hpos := List.count_pos_iff.mpr hx
    obtain ⟨fs', heq, hinode, hdisk, hinv'⟩ := hinv.shared (x := x) now (by
      change 2 ≤ (fs.inode x).referenceCount
      omega)
    rw [List.erase_cons_head] at hinv'
    have ht := h.touched hn hinv hinv' hinode hnum (h.fits n x hn) (by rw [hdisk])
      (fun k _ _ => by rw [hdisk]) (by rw [hdisk]; exact h.table n hlt) (fun hcon => by
        simp only at hcon
        omega) (fun hun _ => by
        rw [hdisk]
        exact h.synced n x hn hun (.inr (by omega)))
    refine ⟨fs', heq, ht.coherent, ht.caches, by rw [hdisk], fun _ _ => by rw [hdisk],
      fun k hk hkn => ⟨ht.others k hk hkn, by rw [hdisk]⟩, fun z => ?_, fun hno => absurd hx hno,
      fun _ => ⟨?_, hdisk ▸ .refl _⟩, fun _ => hdisk ▸ .refl _⟩
    · rw [hinode]
      by_cases hzx : z = x
      · rw [hzx, update_self]
      · rw [update_of_ne hzx]
    · rw [ht.self, seen_of_caches hn, hdisk]
  · -- the last reference: what has changed is written
    have hone : (fs.inode x).referenceCount = 1 := by
      rw [hcount, List.count_eq_zero.mpr hx]
    have hrel : releaseUnlinked now (writeBack fs.disk (retiring (fs.inode x))) =
        .ok ((writeBack fs.disk (retiring (fs.inode x))).1,
          (writeBack fs.disk (retiring (fs.inode x))).2) := by
      rw [releaseUnlinked, writeBack_inode, if_neg]
      · rw [← writeBack_inode fs.disk]
      · rintro ⟨hlinks, hzero⟩
        obtain hcon | hcon | hcon := hkept
        · exact hx hcon
        · exact hcon hlinks
        · exact hzero (hnum.trans hcon)
    obtain ⟨nums, fs', hy, heq, hinode, hdisk, hinv'⟩ := hinv.last hone hrel
    obtain rfl : (fs.inode x).dataBlockNums = nums := by
      have := congrArg (·.dataBlockNums) hy
      rwa [writeBack_inode] at this
    rw [List.erase_cons_head] at hinv'
    have hself : (closed (fs.inode x) (fs.inode x).dataBlockNums).toINode = (fs.inode x).toINode := rfl
    obtain ⟨hback, hblocks, htable, hwritten, hclean⟩ : fs'.disk.backend = fs.disk.backend ∧
        (∀ b, b ≠ n / 4 + 4 → fs'.disk.blocks b = fs.disk.blocks b) ∧
        (∀ k < numOfInodes, k ≠ n → fs'.disk.diskINode k = fs.disk.diskINode k) ∧
        fs'.disk.diskINode n = (fs.inode x).toINode ∧
        (Unmodified (fs.inode x) → SameBlocks fs.disk fs'.disk) := by
      rw [hdisk, writeBack]
      split
      · next hflags =>
          rw [writeINodeToDisk, show (retiring (fs.inode x)).iNodeNumber = n from hnum]
          refine ⟨fs.disk.backend_writeDiskInode _ _, fun b hb => fs.disk.blocks_writeDiskInode _ hb,
            fun k _ hkn => fs.disk.diskINode_writeDiskInode_of_ne h.stored hlt _ hkn,
            fs.disk.diskINode_writeDiskInode_self h.stored hlt (h.fits n x hn), fun hun => ?_⟩
          simp [retiring, hun.1, hun.2] at hflags
      · next hflags =>
          simp only [retiring, not_or, Bool.not_eq_true] at hflags
          exact ⟨rfl, fun _ _ => rfl, fun _ _ _ => rfl,
            (h.synced n x hn hflags (.inr (by omega))).symm, fun _ => .refl _⟩
    have ht := h.touched hn hinv hinv' hinode hnum (h.fits n x hn) hback htable
      (by rw [hwritten]; exact ⟨hnum, h.device hn⟩) (fun _ => ⟨rfl, rfl⟩) (fun _ _ => hwritten.symm)
    refine ⟨fs', heq, ht.coherent, ht.caches, hback, hblocks,
      fun k hk hkn => ⟨ht.others k hk hkn, htable k hk hkn⟩, fun z => ?_,
      fun _ => ⟨?_, hwritten⟩, fun hcon => absurd hcon hx, hclean⟩
    · rw [hinode]
      by_cases hzx : z = x
      · rw [hzx, update_self, hself]
      · rw [update_of_ne hzx]
    · rw [ht.self, hwritten, hself]
      exact ite_self _

/-- **A change through a reference.**  The disk may have other data blocks after it. -/
theorem update {y : InCoreINode} {d : Disk} (h : Coherent fs held) (hheld : x ∈ held)
    (hx : fs.Caches n x) (hnum : y.iNodeNumber = n) (hdev : y.deviceNumber = 0)
    (hmutex : y.iNodeMutex = false) (href : y.referenceCount = (fs.inode x).referenceCount)
    (hfits : y.Fits) (hchanged : Unmodified y → y.toINode = d.diskINode n)
    (hback : d.backend = fs.disk.backend)
    (htable : ∀ k < numOfInodes, d.diskINode k = fs.disk.diskINode k) :
    Touched fs held n y ({ fs with disk := d }.setInode x y) := by
  obtain ⟨l, q, hinv⟩ := h.cache
  have hlists : ({ fs with disk := d }.setInode x y).cache.Lists l q := by
    refine hinv.lists.modify hinv.lists.free (hnum.trans hx.number.symm)
      (hdev.trans (h.device hx).symm) (fun z => ?_) fun _ => ?_
    · rw [hinv.lists.mem_free]
      by_cases hz : z = x
      · rw [hz, update_self, href]
        rfl
      · rw [update_of_ne hz]
    · obtain ⟨hi, -⟩ := (caches_iff hinv.lists).mp hx
      exact hi
  have hinv' : CacheState.Inv ⟨{ fs with disk := d }.setInode x y, held⟩ l q :=
    hinv.after hlists rfl hmutex (href.trans (h.counts x)) fun _ _ => rfl
  have hlt := h.number n x hx
  have hself := h.table n hlt
  rw [← htable n hlt] at hself
  exact h.touched hx hinv hinv' rfl hnum hfits hback (fun k hk _ => htable k hk) hself
    (fun h0 => absurd (href ▸ h0) fun hcon => h.idle_iff.mp hcon hheld) fun hun _ => hchanged hun

end Coherent

end FS

end Naofs
