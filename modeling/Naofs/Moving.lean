import Naofs.Completion

/-!
# Naofs.Moving

`rename` to a name that is free.

The directory of the new name gets an entry for the file, and the file one link more
(`Moved`).  No file is reached that was not, and every way leads where it led before, so that
the volume is `Housed` again (`Moved.housed`) and `unlinkFile` can take the old name out
(`Stocked.renameFile_returns`).
-/

namespace Naofs

open Function (update update_self update_of_ne)
open InCoreINode (wrapSize)

/-- Ways that lead somewhere lead there too in a tree that has the same steps. -/
theorem Tree.foldlM_follow_of_some {t t' : Tree} (h : ∀ k name m, t.Reached k → t.follow k name = some m →
      t'.follow k name = some m) :
    ∀ (names : List Name) {k m : Nat}, t.Reached k → names.foldlM t.follow k = some m →
      names.foldlM t'.follow k = some m := by
  intro names
  induction names with
  | nil => exact fun _ hm => hm
  | cons name names ih =>
      intro k m hk hm
      rw [List.foldlM_cons] at hm ⊢
      obtain ⟨i, hi, hm⟩ := Option.bind_eq_some_iff.mp hm
      exact Option.bind_eq_some_iff.mpr ⟨i, h k name i hk hi, ih (hk.follow hi) hm⟩

namespace FS

open Disk (blockCount endNeeds Uses)

/-! ## A file with one more name -/

/-- The directory `n` has the entry `e` behind the others, and the file `m` more links.  If
`n` is no directory, it stays as it is. -/
structure Moved (fs : FS) (held : List NodeId) (l : List Nat) (j n m : Nat) (e : DirectoryEntry)
    (fs' : FS) : Prop where
  coherent : Coherent fs' held
  others : ∀ i < numOfInodes, i ≠ n → i ≠ m → fs'.seen i = fs.seen i
  mode : (fs'.seen n).fileMode = (fs.seen n).fileMode
  links : (fs'.seen n).linksCount = (fs.seen n).linksCount
  size : (fs'.seen n).size ≤ maxFileSize
  whole : fs.tree.directory n → (fs'.seen n).size = (fs.seen n).size + 64
  entries : fs.tree.directory n →
    fs'.disk.entries (fs'.seen n).bare = fs.disk.entries (fs.seen n).bare ++ [e]
  modeFile : (fs'.seen m).fileMode = (fs.seen m).fileMode
  sizeFile : (fs'.seen m).size = (fs.seen m).size
  numsFile : (fs'.seen m).dataBlockNums = (fs.seen m).dataBlockNums
  linksFile : 1 < (fs'.seen m).linksCount
  list : fs'.disk.blocks 3 = fs.disk.blocks 3
  backend : fs'.disk.backend = fs.disk.backend
  free : FreeBlocks fs'.disk (l.drop j)
  owned : ∀ b, (fs'.blocksOf n).count b ≤ (l.take j ++ fs.blocksOf n).count b
  frame : ∀ b, dataRegionStart ≤ b → b ∉ l ++ fs.blocksOf n → fs'.disk.blocks b = fs.disk.blocks b

section Moved

variable {fs fs' : FS} {held held' : List NodeId} {l : List Nat} {j n m : Nat} {e : DirectoryEntry}
  (h : Housed fs held l) (hp : Moved fs held' l j n m e fs') (hn : fs.tree.Reached n)

include h hp hn

/-- Blocks of other files are as they were. -/
theorem Moved.blocks_same {i : Nat} (hi : fs.tree.Reached i) (hin : i ≠ n) :
    ∀ b ∈ fs.blocksOf i, fs'.disk.blocks b = fs.disk.blocks b := by
  intro b hb
  refine hp.frame b (h.data i hi b (List.mem_append_right _ hb)) fun hcon => ?_
  obtain hcon | hcon := List.mem_append.mp hcon
  · exact (List.nodup_append.mp (h.own i hi).nodup).2.2 b hcon b hb rfl
  · exact h.apart i n hi hn hin hb hcon

/-- The other files have the size, the mode and the blocks that they had. -/
theorem Moved.same {i : Nat} (hi : fs.tree.Reached i) (hin : i ≠ n) :
    (fs'.seen i).fileMode = (fs.seen i).fileMode ∧ (fs'.seen i).size = (fs.seen i).size ∧
      fs'.blocksOf i = fs.blocksOf i ∧
      fs'.disk.entries (fs'.seen i).bare = fs.disk.entries (fs.seen i).bare := by
  obtain ⟨hmode, hsize, hnums⟩ : (fs'.seen i).fileMode = (fs.seen i).fileMode ∧
      (fs'.seen i).size = (fs.seen i).size ∧ (fs'.seen i).dataBlockNums = (fs.seen i).dataBlockNums := by
    by_cases him : i = m
    · subst him
      exact ⟨hp.modeFile, hp.sizeFile, hp.numsFile⟩
    · rw [hp.others i (h.number i hi) hin him]
      exact ⟨rfl, rfl, rfl⟩
  have hsame := hp.blocks_same h hn hi hin
  refine ⟨hmode, hsize, ?_, ?_⟩
  · rw [blocksOf, hsize, hnums]
    exact Disk.fileBlocks_same (x := (fs.seen i).bare) (h.size i hi) hsame
  · rw [← Disk.entries_same (x := (fs.seen i).bare) (h.size i hi) hsame]
    simp only [Disk.entries, Disk.entryCount, INode.bare, hsize, hnums]

/-- Directories are directories still. -/
theorem Moved.directory_eq {i : Nat} (hi : fs.tree.Reached i) : fs'.tree.directory i = fs.tree.directory i := by
  change sIsdir (fs'.seen i).fileMode = sIsdir (fs.seen i).fileMode
  by_cases hin : i = n
  · rw [hin, hp.mode]
  · rw [(hp.same h hn hi hin).1]

/-- Other directories have the names that they had. -/
theorem Moved.entry_of_ne {i : Nat} (hi : fs.tree.Reached i) (hin : i ≠ n) :
    fs'.tree.entry i = fs.tree.entry i := by
  funext name
  change ((fs'.disk.entries (fs'.seen i).bare).find? _).map _ = _
  rw [(hp.same h hn hi hin).2.2.2]
  rfl

omit h hn in
/-- The directory has one name more, found behind those that it had. -/
theorem Moved.entry_eq (hdir : fs.tree.directory n) (name : Name) : fs'.tree.entry n name =
    (fs.tree.entry n name).or (if e.label = name then some e.iNodeNum else none) := by
  change ((fs'.disk.entries (fs'.seen n).bare).find? (·.label = name)).map (·.iNodeNum) =
    (((fs.disk.entries (fs.seen n).bare).find? (·.label = name)).map (·.iNodeNum)).or _
  rw [hp.entries hdir, find?_entries_append]
  cases (fs.disk.entries (fs.seen n).bare).find? (·.label = name) with
  | some _ => rfl
  | none =>
      by_cases hlabel : e.label = name
      · simp only [if_pos hlabel, Option.none_or, Option.map_none, Option.map_some]
      · simp only [if_neg hlabel, Option.or_none, Option.map_none]

variable (he : e.iNodeNum = m) (hm : fs.tree.Reached m)

include he

/-- A name of a directory was there before, or it is the new one. -/
theorem Moved.entry_cases {i k : Nat} {name : Name} (hi : fs.tree.Reached i) (hdir : fs.tree.directory i)
    (hk : fs'.tree.entry i name = some k) : fs.tree.entry i name = some k ∨ i = n ∧ k = m := by
  by_cases hin : i = n
  · subst hin
    rw [hp.entry_eq hdir] at hk
    cases hentry : fs.tree.entry i name with
    | some k' =>
        rw [hentry] at hk
        exact .inl hk
    | none =>
        rw [hentry, Option.none_or] at hk
        split at hk
        · exact .inr ⟨rfl, (Option.some.inj hk).symm.trans he⟩
        · cases hk
  · rw [hp.entry_of_ne h hn hi hin] at hk
    exact .inl hk

include hm in
/-- Nothing new is reached, since the new name stands for a file of the tree. -/
theorem Moved.reached {i : Nat} (hi : fs'.tree.Reached i) : fs.tree.Reached i := by
  induction hi with
  | refl => exact .refl
  | @tail i k _ hnext ih =>
      obtain ⟨hdir, name, hname⟩ := hnext
      rw [hp.directory_eq h hn ih] at hdir
      obtain hentry | ⟨-, rfl⟩ := hp.entry_cases h hn he ih hdir hname
      · exact ih.tail ⟨hdir, name, hentry⟩
      · exact hm

omit he in
/-- What was found is found. -/
theorem Moved.foldlM_of_some {names : List Name} {k : Nat} (hk : names.foldlM fs.tree.follow 0 = some k) :
    names.foldlM fs'.tree.follow 0 = some k := by
  refine Tree.foldlM_follow_of_some (fun i name k hi hk => ?_) names .refl hk
  rw [Tree.follow] at hk ⊢
  rw [hp.directory_eq h hn hi]
  by_cases hdir : fs.tree.directory i
  · rw [if_pos hdir] at hk ⊢
    by_cases hin : i = n
    · subst hin
      rw [hp.entry_eq hdir, hk]
      rfl
    · rw [hp.entry_of_ne h hn hi hin, hk]
  · rwa [if_neg hdir] at hk ⊢

omit he in
/-- The blocks of a file and the free list are different still. -/
theorem Moved.own {i : Nat} (hi : fs.tree.Reached i) : Own fs'.disk.backend (l.drop j ++ fs'.blocksOf i) := by
  rw [hp.backend]
  refine (h.own i hi).mono fun b => ?_
  have hsplit := Disk.count_take_add_drop l j b
  simp only [List.count_append]
  by_cases hin : i = n
  · subst hin
    have := hp.owned b
    rw [List.count_append] at this
    omega
  · rw [(hp.same h hn hi hin).2.2.1]
    omega

omit h hn he in
/-- The directory has blocks of its own or from the free list. -/
theorem Moved.mem {b : Nat} (hb : b ∈ fs'.blocksOf n) : b ∈ l ++ fs.blocksOf n := by
  have hle := hp.owned b
  have hpos := List.count_pos_iff.mpr hb
  have hsplit := Disk.count_take_add_drop l j b
  rw [List.count_append] at hle
  rw [← List.count_pos_iff, List.count_append]
  omega

omit he in
/-- The blocks of two files are still different. -/
theorem Moved.apart {i k : Nat} (hi : fs.tree.Reached i) (hk : fs.tree.Reached k) (hik : i ≠ k) :
    (fs'.blocksOf i).Disjoint (fs'.blocksOf k) := by
  have hfar : ∀ i, fs.tree.Reached i → i ≠ n → (fs'.blocksOf n).Disjoint (fs'.blocksOf i) := by
    intro i hi hin b hb hb'
    rw [(hp.same h hn hi hin).2.2.1] at hb'
    obtain hb | hb := List.mem_append.mp (hp.mem hb)
    · exact (List.nodup_append.mp (h.own i hi).nodup).2.2 b hb b hb' rfl
    · exact h.apart i n hi hn hin hb' hb
  by_cases hin : i = n
  · subst hin
    exact hfar k hk (Ne.symm hik)
  · by_cases hkn : k = n
    · subst hkn
      exact (hfar i hi hin).symm
    · rw [(hp.same h hn hi hin).2.2.1, (hp.same h hn hk hkn).2.2.1]
      exact h.apart i k hi hk hik

omit he in
/-- No file is too large. -/
theorem Moved.size_le {i : Nat} (hi : fs.tree.Reached i) : (fs'.seen i).size ≤ maxFileSize := by
  by_cases hin : i = n
  · rw [hin]
    exact hp.size
  · rw [(hp.same h hn hi hin).2.1]
    exact h.size i hi

variable (hterm : e.Terminated) (hfresh : fs.tree.directory n → fs.tree.entry n e.label = none)

omit he in
include hterm hfresh in
/-- The names are unique as they were. -/
theorem Moved.names {i : Nat} (hi : fs.tree.Reached i) (hdir : fs.tree.directory i) :
    NamesEnd fs'.disk (fs'.seen i).bare ∧ DistinctNames fs'.disk (fs'.seen i).bare := by
  rw [NamesEnd, DistinctNames]
  by_cases hin : i = n
  · subst hin
    rw [hp.entries hdir, List.map_append, List.map_singleton]
    constructor
    · intro e' he'
      obtain he' | he' := List.mem_append.mp he'
      · exact h.terminated i hi hdir e' he'
      · rwa [List.mem_singleton.mp he']
    · refine List.nodup_append.mpr ⟨h.distinct i hi hdir, List.nodup_singleton _, ?_⟩
      intro a ha c hc heq
      rw [List.mem_singleton.mp hc] at heq
      obtain ⟨e', he', rfl⟩ := List.mem_map.mp ha
      have hnone := List.find?_eq_none.mp (Option.map_eq_none_iff.mp (hfresh hdir)) e' he'
      exact hnone (by simpa using heq)
  · rw [(hp.same h hn hi hin).2.2.2]
    exact ⟨h.terminated i hi hdir, h.distinct i hi hdir⟩

include hm hterm hfresh

/-- **The volume is in order.** -/
theorem Moved.housed : Housed fs' held' (l.drop j) where
  coherent := hp.coherent
  number := fun i hi => h.number i (hp.reached h hn he hm hi)
  linked := by
    intro i hi hi0
    have hi := hp.reached h hn he hm hi
    by_cases him : i = m
    · subst him
      have := hp.linksFile
      omega
    · by_cases hin : i = n
      · subst hin
        rw [hp.links]
        exact h.linked i hi hi0
      · rw [hp.others i (h.number i hi) hin him]
        exact h.linked i hi hi0
  directory := by
    intro i hi hdir
    have hi := hp.reached h hn he hm hi
    rw [hp.directory_eq h hn hi] at hdir
    refine ⟨⟨(hp.own h hn hi).mono fun b => ?_, hp.size_le h hn hi⟩, (hp.directory_eq h hn hi).trans hdir, ?_⟩
    · change (fs'.blocksOf i).count b ≤ _
      rw [List.count_append]
      omega
    · change (fs'.seen i).size % 64 = 0
      have hwhole : (fs.seen i).size % 64 = 0 := (h.directory i hi hdir).whole
      by_cases hin : i = n
      · subst hin
        rw [hp.whole hdir]
        omega
      · rw [(hp.same h hn hi hin).2.1]
        exact hwhole
  terminated := by
    intro i hi hdir
    have hi := hp.reached h hn he hm hi
    rw [hp.directory_eq h hn hi] at hdir
    exact (hp.names h hn hterm hfresh hi hdir).1
  distinct := by
    intro i hi hdir
    have hi := hp.reached h hn he hm hi
    rw [hp.directory_eq h hn hi] at hdir
    exact (hp.names h hn hterm hfresh hi hdir).2
  free := hp.free
  size := fun i hi => hp.size_le h hn (hp.reached h hn he hm hi)
  own := fun i hi => hp.own h hn (hp.reached h hn he hm hi)
  data := by
    intro i hi b hb
    have hi := hp.reached h hn he hm hi
    obtain hb | hb := List.mem_append.mp hb
    · exact h.data i hi b (List.mem_append_left _ (List.mem_of_mem_drop hb))
    · by_cases hin : i = n
      · subst hin
        exact h.data i hi b (hp.mem hb)
      · rw [(hp.same h hn hi hin).2.2.1] at hb
        exact h.data i hi b (List.mem_append_right _ hb)
  apart := fun i k hi hk hik => hp.apart h hn (hp.reached h hn he hm hi) (hp.reached h hn he hm hk) hik

end Moved

/-! ## The new entry -/

/-- The directory `n` of the node `y` has taken the entry `e`, if it is one. -/
structure Appended (fs : FS) (held : List NodeId) (l : List Nat) (fs₁ : FS) (y : NodeId) (j n : Nat)
    (e : DirectoryEntry) (z : InCoreINode) (d : Disk) : Prop where
  touched : Coherent.Touched fs₁ (y :: held) n { z with iNodeMutex := false }
    ({ fs₁ with disk := d }.setInode y { z with iNodeMutex := false })
  mode : z.fileMode = (fs.seen n).fileMode
  links : z.linksCount = (fs.seen n).linksCount
  size : z.size ≤ maxFileSize
  whole : fs.tree.directory n → z.size = (fs.seen n).size + 64
  entries : fs.tree.directory n → d.entries z = fs.disk.entries (fs.seen n).bare ++ [e]
  backend : d.backend = fs.disk.backend
  free : FreeBlocks d (l.drop j)
  owned : ∀ b, (d.fileBlocks z.dataBlockNums (blockCount z.size)).count b ≤
    (l.take j ++ fs.blocksOf n).count b
  frame : ∀ b, b ≠ 2 → b ∉ l ++ fs.blocksOf n → d.blocks b = fs.disk.blocks b

section Append

variable {fs fs₁ : FS} {held : List NodeId} {l : List Nat} {x y : NodeId} {n m : Nat}

/-- The new entry, put into the locked directory; other inodes than directories are left alone. -/
theorem Standing.append (h : Stocked fs held l) (hy : Standing fs held fs₁ y n) (hn : fs.tree.Reached n)
    (hroom : fs.tree.directory n →
      (fs.seen n).size + 64 ≤ maxFileSize ∧ endNeeds (fs.seen n).size ≤ l.length)
    (env : Env) (num : Nat) (name : Name) :
    ∃ z d j, fs₁.disk.getAndUpdateDirectoryTable env (fs₁.locked y) num (Disk.bytesOf env name) = .ok (z, d) ∧
      j ≤ endNeeds (fs.seen n).size ∧
      Appended fs held l fs₁ y j n ⟨.tabulate (Disk.bytesOf env name), num % 65536⟩ z d := by
  have hvalue : (fs₁.locked y).toINode = fs.seen n := hy.value
  have hsz : (fs₁.locked y).size = (fs.seen n).size := by rw [← hvalue]
  have hapart : Apart fs₁.disk (fs₁.locked y) l := hy.apart h hn
  have hfits : (fs₁.locked y).Fits := hy.coherent.fits n y hy.caches
  have hblocks := hy.fileBlocks
  have hdata : ∀ b ∈ l ++ fs₁.nodeBlocks y, dataRegionStart ≤ b := hy.data h hn
  by_cases hdir : fs.tree.directory n
  · obtain ⟨hsize, hlen⟩ := hroom hdir
    have hfile := hy.directoryFile h.toTreeState hn hdir
    obtain ⟨z, d, hrun, hzfits, hchanged, huses, hgrown, hadded⟩ := Disk.getAndUpdateDirectoryTable_entries
      hfile hfits env num (Disk.bytesOf env name) (by rwa [hsz]) hapart.capacity hapart.free hapart.own
      (by rwa [hsz])
    rw [hsz] at huses hgrown
    have hframe : ∀ b, b ≠ 2 → b ∉ l ++ fs.blocksOf n → d.blocks b = fs₁.disk.blocks b := by
      intro b hb2 hb
      rw [← hblocks] at hb
      refine huses.frame b hb2 fun hcon => hb ?_
      exact (List.mem_append.mp hcon).elim (fun hcon => List.mem_append_left _ (List.mem_of_mem_take hcon))
        fun hcon => List.mem_append_right _ hcon
    refine ⟨z, d, _, hrun, le_rfl, ⟨?_, ?_, ?_, by omega, fun _ => hgrown, fun _ => ?_, ?_, huses.free, ?_, ?_⟩⟩
    · refine hy.coherent.update List.mem_cons_self hy.caches (huses.touched.number.trans hy.caches.number)
        (huses.touched.device.trans (hy.coherent.device hy.caches)) rfl huses.touched.references hzfits
        (fun hun => absurd (hun.1.symm.trans hchanged) (by decide)) huses.backend fun k hk => ?_
      refine diskINode_of_frame hdata (fun b hb2 hb => hframe b hb2 ?_) hk
      rw [← hblocks]
      exact hb
    · rw [huses.touched.mode, ← hvalue]
    · rw [huses.touched.links, ← hvalue]
    · rw [hadded, hy.entries]
    · rw [huses.backend, hy.disk.backend]
    · rw [← hblocks]
      exact huses.owned
    · intro b hb2 hb
      rw [hframe b hb2 hb, hy.disk.blocks]
  · have hrewrites : Disk.Rewrites (fs₁.locked y) fs₁.disk (fs₁.locked y) fs₁.disk l l :=
      Attributes.rewrites ⟨rfl, rfl, rfl, rfl, rfl, rfl, rfl, .inr ⟨rfl, rfl, rfl⟩⟩ hapart.free hfits
    refine ⟨fs₁.locked y, fs₁.disk, 0, ?_, Nat.zero_le _, ⟨?_, ?_, ?_, ?_, fun hcon => absurd hcon hdir,
      fun hcon => absurd hcon hdir, hy.disk.backend, hapart.free, fun b => ?_, fun b _ _ => ?_⟩⟩
    · rw [Disk.getAndUpdateDirectoryTable, if_pos]
      rw [validateSearch, hvalue]
      exact hdir
    · exact (hy.coherent.rewrite List.mem_cons_self hy.caches hrewrites hdata).1
    · rw [hvalue]
    · rw [hvalue]
    · rw [hsz]
      exact h.size n hn
    · rw [hblocks, List.count_append]
      exact Nat.le_add_left ..
    · rw [hy.disk.blocks]

end Append

/-- The inode of the file with one link more. -/
def linkedINode (fs : FS) (env : Env) (x : NodeId) : InCoreINode :=
  { (fs.inode x).updateINodeMetadata env.now 0 (wrapSize ((fs.inode x).linksCount + 1)) with
    iNodeMutex := false }

/-- The directory `n` and the file `m` are given back, with the inodes `z` and `w`. -/
structure GivenBack (fs : FS) (held : List NodeId) (n m : Nat) (z w : InCoreINode) (d : Disk) (fs' : FS) :
    Prop where
  coherent : Coherent fs' held
  parent : fs'.seen n = z.toINode
  file : fs'.seen m = w.toINode
  others : ∀ i < numOfInodes, i ≠ n → i ≠ m → fs'.seen i = fs.seen i
  data : SameData d fs'.disk
  list : fs'.disk.blocks 3 = d.blocks 3

section Moves

variable {fs fs₁ : FS} {held : List NodeId} {l : List Nat} {x y : NodeId} {n m : Nat}

/-- The calls, with the node `y` of the directory locked and then that of the file too. -/
theorem moves_run {fs₂ fs' : FS} {env : Env} {name : Name} {z w : InCoreINode} {d : Disk} (hyx : y ≠ x)
    (hunlocked : (fs₁.inode x).iNodeMutex = false) (hnumber : (fs₁.inode x).iNodeNumber = m)
    (hadd : fs₁.disk.getAndUpdateDirectoryTable env (fs₁.locked y) m (Disk.bytesOf env name) = .ok (z, d))
    (hw : w = fs₁.linkedINode env x)
    (hput : (({ fs₁ with disk := d }.setInode y { z with iNodeMutex := false }).setInode x w).iput env.now y =
      .ok (0, fs₂))
    (hunlocked' : (fs₂.inode x).iNodeMutex = false) (hput' : fs₂.iput env.now x = .ok (0, fs')) :
    ∃ s₁ s₂ s₃ s₄, mutexLock x (fs₁.hold y) = .ok ((), s₁) ∧
      getAndUpdateDirectoryTable env y (s₁.inode x).iNodeNumber name s₁ = .ok ((), s₂) ∧
      updateINodeMetadata env x 0 (wrapSize ((s₂.inode x).linksCount + 1)) s₂ = .ok ((), s₃) ∧
      (s₃.unlock y).iput env.now y = .ok (0, s₄) ∧ (s₄.unlock x).iput env.now x = .ok (0, fs') := by
  obtain ⟨fs₃, hfs₃⟩ : ∃ fs₃ : FS, fs₃ = { fs₁ with disk := d } := ⟨_, rfl⟩
  have hinode : (fs₃.setInode y z).inode x = fs₁.inode x := by
    rw [inode_setInode_of_ne hyx.symm, hfs₃]
    rfl
  have hlock : mutexLock x (fs₁.hold y) = .ok ((), (fs₁.hold y).hold x) :=
    mutexLock_hold (by rw [inode_hold_of_ne hyx.symm]; exact hunlocked)
  have hentry : getAndUpdateDirectoryTable env y (((fs₁.hold y).hold x).inode x).iNodeNumber name
      ((fs₁.hold y).hold x) = .ok ((), (fs₃.setInode y z).hold x) := by
    have hnode : ((fs₁.hold y).hold x).inode y = fs₁.locked y := by
      rw [inode_hold_of_ne hyx, inode_hold_self, locked]
    have hnum : (((fs₁.hold y).hold x).inode x).iNodeNumber = m := by
      rw [inode_hold_self, inode_hold_of_ne hyx.symm]
      exact hnumber
    rw [hnum, getAndUpdateDirectoryTable, onINode_ok (y := z) (d := d) (by rw [hnode]; exact hadd)]
    refine congrArg (fun fs' => Except.ok ((), fs')) ?_
    rw [← @setInode_setInode fs₃ y { fs₁.inode y with iNodeMutex := true } z, ← setInode_hold hyx, hfs₃]
    rfl
  have hmeta : updateINodeMetadata env x 0 (wrapSize ((((fs₃.setInode y z).hold x).inode x).linksCount + 1))
      ((fs₃.setInode y z).hold x) = .ok ((), ((fs₃.setInode y z).setInode x w).hold x) := by
    have hnode : ((fs₃.setInode y z).hold x).inode x = { fs₁.inode x with iNodeMutex := true } := by
      rw [inode_hold_self, hinode]
    rw [hnode, updateINodeMetadata, onINode_ok (y := { w with iNodeMutex := true })
      (d := ((fs₃.setInode y z).hold x).disk) (by rw [hnode, hw]; rfl)]
    refine congrArg (fun fs' => Except.ok ((), fs')) ?_
    rw [hold, hold, inode_setInode_self, setInode_setInode]
    exact (setInode_setInode _ _).symm
  refine ⟨_, _, _, fs₂.hold x, hlock, hentry, hmeta, ?_, ?_⟩
  · have hunlock : ((fs₃.setInode y z).setInode x w).unlock y =
        (fs₃.setInode y { z with iNodeMutex := false }).setInode x w := by
      rw [unlock, inode_setInode_of_ne hyx, inode_setInode_self]
      simp only [setInode]
      rw [Function.update_comm hyx, Function.update_idem, Function.update_comm hyx.symm]
    rw [unlock_hold hyx, hunlock, hfs₃]
    exact iput_hold hyx hput
  · rw [show (fs₂.hold x).unlock x = fs₂ from
      unlock_lock hunlocked' (lock_of_free hunlocked') fs₂.fileTable]
    exact hput'

/-- The file gets its link, and both references are given back. -/
theorem Appended.giveBack {j : Nat} {e : DirectoryEntry} {z w : InCoreINode} {d : Disk} {env : Env}
    (h : Stocked fs (x :: held) l) (hy : Standing fs (x :: held) fs₁ y n)
    (ha : Appended fs (x :: held) l fs₁ y j n e z d) (hn : fs.tree.Reached n) (hm : fs.tree.Reached m)
    (hnm : n ≠ m) (hyx : y ≠ x) (hx : fs₁.Caches m x) (hw : w = fs₁.linkedINode env x)
    (hlinks : w.linksCount ≠ 0) (hshared : y ∈ held → (fs.seen n).linksCount ≠ 0) :
    ∃ fs₂ fs₃, (({ fs₁ with disk := d }.setInode y { z with iNodeMutex := false }).setInode x w).iput
        env.now y = .ok (0, fs₂) ∧ (fs₂.inode x).iNodeMutex = false ∧ fs₂.iput env.now x = .ok (0, fs₃) ∧
      GivenBack fs held n m z w d fs₃ := by
  have hlt := h.number n hn
  have hltm := h.number m hm
  have hmem : x ∈ y :: x :: held := List.mem_cons_of_mem _ List.mem_cons_self
  have hfits := hy.coherent.fits m x hx
  obtain ⟨fs₃, hfs₃⟩ : ∃ fs₃, fs₃ = { fs₁ with disk := d }.setInode y { z with iNodeMutex := false } := ⟨_, rfl⟩
  have ht₃ := ha.touched
  rw [← hfs₃] at ht₃ ⊢
  have hdisk₃ : fs₃.disk = d := by rw [hfs₃]; rfl
  have hinode₃ : fs₃.inode x = fs₁.inode x := by
    rw [hfs₃, inode_setInode_of_ne hyx.symm]
    rfl
  have ht₄ := ht₃.coherent.update (y := w) (d := fs₃.disk) hmem ((ht₃.caches m x).mpr hx)
    (by rw [hw]; exact hx.number) (by rw [hw]; exact hy.coherent.device hx) (by rw [hw, linkedINode])
    (by rw [hw, hinode₃]; rfl)
    (by rw [hw]; exact InCoreINode.fits_updateINodeMetadata hfits _ _ (InCoreINode.wrapSize_lt _))
    (fun hun => by rw [hw] at hun; exact nomatch hun.1) rfl fun _ _ => rfl
  obtain ⟨fs₄, hfs₄⟩ : ∃ fs₄, fs₄ = fs₃.setInode x w := ⟨_, rfl⟩
  change Coherent.Touched fs₃ (y :: x :: held) m w (fs₃.setInode x w) at ht₄
  rw [← hfs₄] at ht₄ ⊢
  have hself₄ : fs₄.inode x = w := by rw [hfs₄, inode_setInode_self]
  have hother₄ : fs₄.inode y = { z with iNodeMutex := false } := by
    rw [hfs₄, inode_setInode_of_ne hyx, hfs₃, inode_setInode_self]
  have hdisk₄ : fs₄.disk = d := by rw [hfs₄]; exact hdisk₃
  obtain ⟨fs₅, hput, hret⟩ := ht₄.coherent.iput env.now ((ht₄.caches n y).mpr ((ht₃.caches n y).mpr hy.caches))
    (by
      rw [hother₄]
      change y ∈ x :: held ∨ z.linksCount ≠ 0 ∨ n = 0
      rw [ha.links]
      exact (Decidable.em (n = 0)).elim (.inr ∘ .inr) fun hn0 => .inr (.inl (h.linked n hn hn0)))
  obtain ⟨fs₆, hput', hret'⟩ := hret.coherent.iput env.now
    ((hret.caches m x).mpr ((ht₄.caches m x).mpr ((ht₃.caches m x).mpr hx)))
    (.inr (.inl (by rw [hret.value x, hself₄]; exact hlinks)))
  have hfirst := hret.sameData hlt
  have hsecond := hret'.sameData hltm
  rw [hdisk₄] at hfirst
  refine ⟨fs₅, fs₆, hput, hret.coherent.unlocked x, hput', hret'.coherent, ?_, ?_, fun i hi hin him => ?_,
    ⟨hsecond.backend.trans hfirst.backend, fun b hb => (hsecond.blocks b hb).trans (hfirst.blocks b hb)⟩, ?_⟩
  · -- The directory may be held by others, who see it as well.
    rw [(hret'.others n hlt hnm).1]
    by_cases hheld : y ∈ x :: held
    · rw [(hret.shared hheld).1, ht₄.others n hlt hnm, ht₃.self, if_neg]
      change z.linksCount ≠ 0
      rw [ha.links]
      exact hshared ((List.mem_cons.mp hheld).resolve_left hyx)
    · rw [(hret.last hheld).1, hother₄]
  · by_cases hheld : x ∈ held
    · rw [(hret'.shared hheld).1, (hret.others m hltm hnm.symm).1, ht₄.self, if_neg hlinks]
    · rw [(hret'.last hheld).1, hret.value x, hself₄]
  · rw [(hret'.others i hi him).1, (hret.others i hi hin).1, ht₄.others i hi him, ht₃.others i hi hin,
      hy.seen i hi]
  · simp only [numOfInodes] at hlt hltm
    rw [hret'.blocks 3 (by omega), hret.blocks 3 (by omega), hdisk₄]

/-- **The file gets its new name**, and both references are given back. -/
theorem Stocked.moves (h : Stocked fs (x :: held) l) (hx : fs.Caches m x) (hm : fs.tree.Reached m) (hm0 : m ≠ 0)
    (hvalue : (fs.inode x).toINode = fs.seen m) (hlinks : (fs.seen m).linksCount + 1 < 2 ^ 64)
    (hy : Standing fs (x :: held) fs₁ y n) (hkeeps : Keeps (x :: held) fs fs₁) (hn : fs.tree.Reached n)
    (hnm : n ≠ m) (hshared : y ∈ held → (fs.seen n).linksCount ≠ 0)
    (hroom : fs.tree.directory n →
      (fs.seen n).size + 64 ≤ maxFileSize ∧ endNeeds (fs.seen n).size ≤ l.length)
    (env : Env) (name : Name) :
    ∃ s₁ s₂ s₃ s₄ fs' j, mutexLock x (fs₁.hold y) = .ok ((), s₁) ∧
      getAndUpdateDirectoryTable env y (s₁.inode x).iNodeNumber name s₁ = .ok ((), s₂) ∧
      updateINodeMetadata env x 0 (wrapSize ((s₂.inode x).linksCount + 1)) s₂ = .ok ((), s₃) ∧
      (s₃.unlock y).iput env.now y = .ok (0, s₄) ∧ (s₄.unlock x).iput env.now x = .ok (0, fs') ∧
      j ≤ endNeeds (fs.seen n).size ∧
      Moved fs held l j n m ⟨.tabulate (Disk.bytesOf env name), m % 65536⟩ fs' := by
  have hl0 := h.linked m hm hm0
  have hnumber : (fs₁.inode x).iNodeNumber = m := (hy.kept x List.mem_cons_self).trans hx.number
  have hx₁ : fs₁.Caches m x :=
    hnumber ▸ hy.coherent.caches_of_held (List.mem_cons_of_mem _ List.mem_cons_self)
  have hyx : y ≠ x := by
    rintro rfl
    exact hnm (hy.caches.number.symm.trans hnumber)
  have hvalue₁ : (fs₁.inode x).toINode = fs.seen m := by
    rw [← hvalue]
    refine hkeeps x List.mem_cons_self ?_
    rw [hvalue]
    exact hl0
  obtain ⟨z, d, j, hadd, hj, ha⟩ := hy.append h hn hroom env m name
  obtain ⟨w, hw⟩ : ∃ w, w = fs₁.linkedINode env x := ⟨_, rfl⟩
  have hcount : w.linksCount = (fs.seen m).linksCount + 1 := by
    rw [hw]
    change wrapSize ((fs₁.inode x).linksCount + 1) = _
    rw [hvalue₁, InCoreINode.wrapSize_of_lt (by omega) (by omega)]
    omega
  obtain ⟨fs₂, fs₃, hput, hunlocked, hput', hback⟩ :=
    ha.giveBack h hy hn hm hnm hyx hx₁ hw (by omega) hshared
  have hregion : ∀ b ∈ d.fileBlocks z.dataBlockNums (blockCount z.size), dataRegionStart ≤ b := by
    intro b hb
    refine h.data n hn b ?_
    have hle := ha.owned b
    have hpos := List.count_pos_iff.mpr hb
    have hsplit := Disk.count_take_add_drop l j b
    rw [List.count_append] at hle
    rw [← List.count_pos_iff, List.count_append]
    omega
  have hlow : d.blocks 3 = fs.disk.blocks 3 := ha.frame 3 (by decide) fun hcon =>
    absurd (h.data n hn 3 hcon) (by decide)
  obtain ⟨s₁, s₂, s₃, s₄, hlock, hentry, hmeta, hreturn, hreturn'⟩ := moves_run hyx (hy.coherent.unlocked x)
    hnumber hadd hw hput hunlocked hput'
  refine ⟨s₁, s₂, s₃, s₄, fs₃, j, hlock, hentry, hmeta, hreturn, hreturn', hj, ?_⟩
  exact {
    coherent := hback.coherent
    others := hback.others
    mode := by rw [hback.parent, ha.mode]
    links := by rw [hback.parent, ha.links]
    size := by
      rw [hback.parent]
      exact ha.size
    whole := fun hdir => by rw [hback.parent, ha.whole hdir]
    entries := fun hdir => by
      rw [hback.parent, ← ha.entries hdir]
      exact Disk.entries_same (x := z.toINode.bare) ha.size fun b hb =>
        hback.data.blocks b (.inr (hregion b hb))
    modeFile := by
      rw [hback.file, ← hvalue₁, hw]
      rfl
    sizeFile := by
      rw [hback.file, ← hvalue₁, hw]
      exact InCoreINode.wrapSize_natCast (hy.coherent.fits m x hx₁).size
    numsFile := by
      rw [hback.file, ← hvalue₁, hw]
      rfl
    linksFile := by
      rw [hback.file, hcount]
      omega
    list := hback.list.trans hlow
    backend := by rw [hback.data.backend, ha.backend]
    free := hback.data.freeBlocks (fun b hb => h.data n hn b
      (List.mem_append_left _ (List.mem_of_mem_drop hb))) ha.free
    owned := fun b => by
      rw [blocksOf, hback.parent, hback.data.fileBlocks ha.size hregion]
      exact ha.owned b
    frame := fun b hb hmem => by
      rw [hback.data.blocks b (.inr hb), ha.frame b (by simp only [dataRegionStart] at hb; omega) hmem] }

end Moves

/-! ## The call -/

section Rename

variable {fs fs₁ : FS} {held : List NodeId} {l : List Nat} {env : Env} {path name : Name} {x : NodeId} {n : Nat}

/-- A state on the way is a stocked one too, in which the reference of the way is held. -/
theorem Stocked.stand (h : Stocked fs held l) (hx : Standing fs held fs₁ x n) (hn : fs.tree.Reached n) :
    Stocked fs₁ (x :: held) l ∧ ∀ i, fs.tree.Reached i → fs₁.seen i = fs.seen i ∧
      fs₁.tree.directory i = fs.tree.directory i ∧
      (fs.tree.directory i → fs₁.tree.entry i = fs.tree.entry i) := by
  obtain ⟨hrev, hshape⟩ := SameData.revised h ⟨hx.disk.backend, fun b _ => congrFun hx.disk.blocks b⟩ hx.seen
    (congrFun hx.disk.blocks 3)
  refine ⟨hrev.stocked h .refl hshape hx.coherent fun z hz => ?_, fun i hi =>
    ⟨hx.seen i (h.number i hi), hrev.tree_same h .refl hshape hi⟩⟩
  obtain rfl | hz := List.mem_cons.mp hz
  · rw [hx.caches.number]
    exact .inl hn
  · exact .inr ⟨z, hz, (hx.kept z hz).symm⟩

/-- The same files are found from there. -/
theorem Stocked.stand_leads (h : Stocked fs held l) (hx : Standing fs held fs₁ x n) (hn : fs.tree.Reached n)
    {k : Nat} : fs₁.leads path = some k ↔ fs.leads path = some k := by
  obtain ⟨-, hsame⟩ := h.stand hx hn
  have hsame : ∀ i, fs.tree.Reached i → fs₁.tree.directory i = fs.tree.directory i ∧
      (fs.tree.directory i → fs₁.tree.entry i = fs.tree.entry i) := fun i hi => (hsame i hi).2
  have hreached : ∀ i, fs₁.tree.Reached i → fs.tree.Reached i := fun i => (Tree.reached_congr hsame).mp
  have hfollow : ∀ i name, fs.tree.Reached i → fs₁.tree.follow i name = fs.tree.follow i name := by
    intro i name hi
    obtain ⟨hdirectory, hentry⟩ := hsame i hi
    rw [Tree.follow, Tree.follow, hdirectory]
    by_cases hdir : fs.tree.directory i
    · rw [if_pos hdir, if_pos hdir, hentry hdir]
    · rw [if_neg hdir, if_neg hdir]
  constructor
  · exact Tree.foldlM_follow_of_some (fun i name k hi hk => hfollow i name (hreached i hi) ▸ hk) _ .refl
  · exact Tree.foldlM_follow_of_some (fun i name k hi hk => (hfollow i name hi).trans hk) _ .refl

/-- The name is free: there is nothing to remove. -/
theorem Standing.remove_nothing (h : TreeState fs held) (hx : Standing fs held fs₁ x n) (hn : fs.tree.Reached n)
    (h0 : (0 : UInt8) ∉ name) (hnone : fs.tree.directory n → fs.tree.entry n name = none) (env : Env) :
    removeDestinationIfExists env x name (fs₁.hold x) = .ok (0, fs₁.hold x) := by
  have hnode : (fs₁.hold x).inode x = fs₁.locked x := inode_hold_self fs₁ x
  have hvalue : (fs₁.locked x).toINode = fs.seen n := hx.value
  obtain ⟨ret, hret, hsearch⟩ : ∃ ret : Int, ret ≠ 1 ∧ (fs₁.hold x).disk.searchINodeDirectoryEntries env
      (fs₁.locked x) (some name) 0 (fun _ => env.entry) 0 false =
        .ok (ret, (fun _ => env.entry), (fs₁.hold x).disk) := by
    by_cases hdir : fs.tree.directory n
    · have hfile : DirectoryFile fs₁.disk (fs₁.locked x) :=
        hx.disk.directoryFile (x := (fs.seen n).bare) hvalue (h.directory n hn hdir)
      exact ⟨0, by decide, Disk.search_absent hfile
        (hx.matchAt_absent h hn hdir h0 (hnone hdir)) env (fun _ => env.entry) 0⟩
    · refine ⟨-1, by decide, ?_⟩
      rw [Disk.searchINodeDirectoryEntries, if_pos]
      rw [validateSearch, hvalue]
      exact hdir
  rw [← hnode] at hsearch
  rw [removeDestinationIfExists_eq]
  refine NaoM.bind_eq_ok.mpr ⟨none, fs₁.hold x,
    NaoM.bind_eq_ok.mpr ⟨_, _, searchINodeDirectoryEntries_ok hsearch, ?_⟩, rfl⟩
  dsimp only
  rw [if_neg hret]
  rfl

/-- What `renameFile` needs of the file `m` and of the directory `n` of the new name.  It locks
both, so that they must be different, and it takes the old name out of a third directory that
must not be the file. -/
structure Movable (fs : FS) (held : List NodeId) (l : List Nat) (fromPath : Name) (name : Name)
    (n m : Nat) : Prop where
  file : m ≠ 0
  other : n ≠ m
  parent : ∀ q, fs.leads (parentPath fromPath) = some q → q ≠ m
  links : (fs.seen m).linksCount + 1 < 2 ^ 64
  root : n = 0 → ∀ z ∈ held, (fs.inode z).iNodeNumber ≠ 0
  blocks : 127 + endNeeds (fs.seen n).size < l.length
  size : fs.tree.directory n → (fs.seen n).size + 64 ≤ maxFileSize
  fits : name.length ≤ 61
  free : fs.tree.directory n → fs.tree.entry n name = none

end Rename

section Rename

variable {fs : FS} {held : List NodeId} {l : List Nat} {env : Env} {fromPath toPath : Name}

/-- The old name is still there, and the file has another link. -/
theorem Moved.unlinkable {fs₀ fs' : FS} {held' : List NodeId} {j n m q : Nat} {e : DirectoryEntry}
    (h : Housed fs₀ held l) (hp : Moved fs₀ held' l j n m e fs') (hn : fs₀.tree.Reached n)
    (hfrom : fs₀.leads (slash :: fromPath) = some m) (hlast : lastName (slash :: fromPath) ≠ [])
    (hparent : ∀ q, fs₀.leads (parentPath (slash :: fromPath)) = some q → q ≠ m)
    (hq : fs'.leads (parentPath (slash :: fromPath)) = some q) (hdir : fs'.tree.directory q) :
    fs'.Unlinkable held' q (lastName (slash :: fromPath)) := by
  rw [leads, components_lastName hlast, List.foldlM_append] at hfrom
  obtain ⟨q', hq', hstep⟩ := Option.bind_eq_some_iff.mp hfrom
  have hsame : q' = q := Option.some.inj ((hp.foldlM_of_some h hn hq').symm.trans hq)
  subst hsame
  have hreached : fs₀.tree.Reached q' := Tree.Reached.foldlM _ .refl hq'
  rw [hp.directory_eq h hn hreached] at hdir
  have hentry : fs₀.tree.entry q' (lastName (slash :: fromPath)) = some m := by
    rw [List.foldlM_cons, Tree.follow, if_pos hdir] at hstep
    cases hname : fs₀.tree.entry q' (lastName (slash :: fromPath)) with
    | none =>
        rw [hname] at hstep
        cases hstep
    | some k =>
        rw [hname] at hstep
        exact hstep
  have hentry' : fs'.tree.entry q' (lastName (slash :: fromPath)) = some m := by
    by_cases hqn : q' = n
    · subst hqn
      rw [hp.entry_eq hdir, hentry]
      rfl
    · rw [hp.entry_of_ne h hn hreached hqn, hentry]
  have hlinks := hp.linksFile
  refine ⟨fun hcon => ?_, fun hcon => ?_, fun k hk hone => ?_⟩
  · rw [hentry'] at hcon
    cases hcon
  · rw [hentry'] at hcon
    exact hparent q' hq' (Option.some.inj hcon).symm
  · cases hentry'.symm.trans hk
    have := hone.2.1
    omega

/-- **`renameFile`** to a name that is free. -/
theorem Stocked.renameFile_returns (h : Stocked fs held l) (hready : Ready env fs held)
    (hfrom : IsPath fromPath) (hlast : lastName fromPath ≠ []) (hto : IsPath toPath)
    (hmove : ∀ m n, fs.leads fromPath = some m → fs.leads (parentPath toPath) = some n →
      fs.Movable held l fromPath (lastName toPath) n m) : Returns (renameFile env fromPath toPath) fs := by
  obtain ⟨-, fs₁, hrun, -⟩ | ⟨x, m, fs₁, hm, hrun, hx, hreached⟩ :=
    h.lookup h.resting hready.room.idle env hfrom
  · exact .bind hrun (.pure _ _)
  obtain ⟨h₁, hsame⟩ := h.stand hx hreached
  obtain ⟨hparent, h0⟩ := hto.parent
  obtain ⟨rest, rfl, -⟩ := hto.eq_cons
  obtain ⟨rest', hrest⟩ := parentPath_slash rest
  have hslash : slash ∈ slash :: rest := List.mem_cons_self
  obtain ⟨-, fs₂, hrun', -⟩ | ⟨y, n, fs₂, hn, hrun', hy, hreached'⟩ :=
    h₁.lookup h₁.resting (hready.room.other x) env hparent
  · rw [← getParentINode_eq env hslash] at hrun'
    exact .bind hrun (.bind hrun' (.pure _ _))
  have hmove := hmove m n hm ((h.stand_leads hx hreached).mp hn)
  have hback : ∀ i, fs₁.tree.Reached i → fs.tree.Reached i := fun i =>
    (Tree.reached_congr fun i hi => (hsame i hi).2).mp
  obtain ⟨hseen, hdirectory, hentry⟩ := hsame n (hback n hreached')
  have hfile : fs₁.seen m = fs.seen m := hx.seen m (h.number m hreached)
  have hreached₁ : fs₁.tree.Reached m := (Tree.reached_congr fun i hi => (hsame i hi).2).mpr hreached
  have hfree : fs₁.tree.directory n → fs₁.tree.entry n (lastName (slash :: rest)) = none := by
    intro hdir
    rw [hdirectory] at hdir
    rw [hentry hdir]
    exact hmove.free hdir
  have hkeeps : Keeps (x :: held) fs₁ fs₂ := by
    rw [hrest] at hrun' hparent
    obtain ⟨z, hz⟩ := hready.room.other x
    exact h₁.getFileINode_keeps ⟨z, .inl hz⟩ (fun hmem => hparent.2 (List.mem_cons_of_mem _ hmem)) hrun'
  have hblocks := hmove.blocks
  rw [← hseen] at hblocks
  obtain ⟨s₁, s₂, s₃, s₄, fs', j, hlock, hadd, hmeta, hput, hput', hj, hmoved⟩ := h₁.moves hx.caches hreached₁
    hmove.file (hx.value.trans hfile.symm) (by rw [hfile]; exact hmove.links) hy hkeeps hreached' hmove.other
    (fun hmem => by
      by_cases hn0 : n = 0
      · refine absurd ?_ (hmove.root hn0 y hmem)
        rw [← hx.kept y hmem, ← hy.kept y (List.mem_cons_of_mem _ hmem), hy.caches.number, hn0]
      · exact h₁.linked n hreached' hn0)
    (fun hdir => ⟨by rw [hseen]; exact hmove.size (hdirectory ▸ hdir), by omega⟩) env (lastName (slash :: rest))
  -- The old name is taken out.
  have hlt := h.number m hreached
  obtain ⟨hterm, hlabel⟩ :=
    DirectoryEntry.label_bytesOf env (lastName (slash :: rest)) h0 hmove.fits (m % 65536)
  have hhoused : Housed fs' held (l.drop j) :=
    hmoved.housed h₁.housed hreached' (Nat.mod_eq_of_lt hlt) hreached₁ hterm (by rw [hlabel]; exact hfree)
  have hready' : Ready env fs' held := by
    refine ⟨hready.room, hhoused.free.linked (by rw [List.length_drop]; omega), hready.buffer, fun i hi => ?_⟩
    exact hready.number i (hback i (hmoved.reached h₁.housed hreached' (Nat.mod_eq_of_lt hlt) hreached₁ hi))
  have hunlink : Returns (unlinkFile env fromPath) fs' := by
    obtain ⟨rest₀, rfl, -⟩ := hfrom.eq_cons
    have hfound : fs₁.leads (slash :: rest₀) = some m := (h.stand_leads hx hreached).mpr hm
    refine hhoused.unlinkFile_returns hhoused.resting hready' hfrom fun q hq hdir => ?_
    exact hmoved.unlinkable h₁.housed hreached' hfound hlast
      (fun q hq => hmove.parent q ((h.stand_leads hx hreached).mp hq)) hq hdir
  obtain ⟨⟨ret, fs''⟩, hunlink⟩ := hunlink
  have hlast : Returns (do
      let retVal ← unlinkFile env fromPath
      if retVal ≠ 0 then pure (-1) else pure 0 : NaoM Int) fs' := by
    refine .bind hunlink ?_
    split
    · exact .pure _ _
    · exact .pure _ _
  have hname : NaoM.ofExcept (getFilenameFromPath (slash :: rest)) (fs₂.hold y) =
      .ok (lastName (slash :: rest), fs₂.hold y) := by
    rw [getFilenameFromPath_eq hslash]
    rfl
  have hremove := hy.remove_nothing h₁.toTreeState hreached' h0 hfree env
  rw [← getParentINode_eq env hslash] at hrun'
  refine .bind hrun (.bind hrun' (.bind (mutexLock_hold (hy.coherent.unlocked y)) (.bind hname
    (.bind hremove ?_))))
  rw [if_neg (by decide)]
  exact .bind hlock (.bind rfl (.bind hadd (.bind rfl (.bind hmeta (.bind rfl (.bind hput
    (.bind rfl (.bind hput' hlast))))))))

/-- The new parent is missing exactly if nothing is found there. -/
theorem Stocked.parentMissing_iff (h : Stocked fs held l) (hroom : Roomy held) (hfrom : IsPath fromPath)
    (hto : IsPath toPath) : ParentMissing env fromPath toPath fs ↔
      (fs.leads fromPath).isSome ∧ fs.leads (parentPath toPath) = none := by
  have hslash : slash ∈ toPath := by
    obtain ⟨rest, rfl, -⟩ := hto.eq_cons
    exact List.mem_cons_self
  rw [ParentMissing]
  obtain ⟨hnone, fs₁, hrun, -⟩ | ⟨x, m, fs₁, hm, hrun, hx, hreached⟩ :=
    h.lookup h.resting hroom.idle env hfrom
  · refine ⟨?_, fun hcon => ?_⟩
    · rintro ⟨node, fs₁', fs₂, hget, -⟩
      cases hrun.symm.trans hget
    · rw [hnone] at hcon
      cases hcon.1
  obtain ⟨h₁, -⟩ := h.stand hx hreached
  obtain ⟨hnone, fs₂, hrun', -⟩ | ⟨y, n, fs₂, hn, hrun', -, -⟩ :=
    h₁.lookup h₁.resting (hroom.other x) env hto.parent.1
  · rw [← getParentINode_eq env hslash] at hrun'
    refine ⟨fun _ => ⟨by rw [hm]; rfl, ?_⟩, fun _ => ⟨x, fs₁, fs₂, hrun, hrun'⟩⟩
    cases hfound : fs.leads (parentPath toPath) with
    | none => rfl
    | some k =>
        rw [(h.stand_leads hx hreached).mpr hfound] at hnone
        cases hnone
  · rw [← getParentINode_eq env hslash] at hrun'
    refine ⟨?_, fun hcon => ?_⟩
    · rintro ⟨node, fs₁', fs₂', hget, hget'⟩
      cases hrun.symm.trans hget
      cases hrun'.symm.trans hget'
    · rw [(h.stand_leads hx hreached).mp hn] at hcon
      cases hcon.2

/-- **`renameFile`** of a directory into itself. -/
theorem Stocked.renameFile_stuck (h : Stocked fs held l) (hroom : Roomy held) (hfrom : IsPath fromPath)
    (hto : IsPath toPath) {n : Nat} (hn : fs.leads fromPath = some n)
    (hparent : fs.leads (parentPath toPath) = some n)
    (hfree : fs.tree.directory n → fs.tree.entry n (lastName toPath) = none) :
    renameFile env fromPath toPath fs = .error .deadlock := by
  obtain ⟨hnone, -⟩ | ⟨x, m, fs₁, hm, hrun, hx, hreached⟩ := h.lookup h.resting hroom.idle env hfrom
  · cases hn.symm.trans hnone
  cases hn.symm.trans hm
  obtain ⟨h₁, hsame⟩ := h.stand hx hreached
  have hslash : slash ∈ toPath := by
    obtain ⟨rest, rfl, -⟩ := hto.eq_cons
    exact List.mem_cons_self
  obtain ⟨hto, h0⟩ := hto.parent
  obtain ⟨hnone, -⟩ | ⟨y, m, fs₂, hm, hrun', hy, hreached'⟩ := h₁.lookup h₁.resting (hroom.other x) env hto
  · rw [(h.stand_leads hx hreached).mpr hparent] at hnone
    cases hnone
  cases hm.symm.trans ((h.stand_leads hx hreached).mpr hparent)
  have hyx : y = x := by
    have hcaches := hy.coherent.caches_of_held
      (List.mem_cons_of_mem y (List.mem_cons_self (a := x) (l := held)))
    rw [hy.kept x List.mem_cons_self, hx.caches.number] at hcaches
    exact hy.caches.unique hcaches
  subst hyx
  obtain ⟨-, hdirectory, hentry⟩ := hsame n hreached
  have hname : NaoM.ofExcept (getFilenameFromPath toPath) (fs₂.hold y) = .ok (lastName toPath, fs₂.hold y) := by
    rw [getFilenameFromPath_eq hslash]
    rfl
  have hremove := hy.remove_nothing h₁.toTreeState hreached' h0 (fun hdir => by
    rw [hdirectory] at hdir
    rw [hentry hdir]
    exact hfree hdir) env
  rw [← getParentINode_eq env hslash] at hrun'
  refine (NaoM.bind_of_ok hrun).trans ((NaoM.bind_of_ok hrun').trans ((NaoM.bind_of_ok
    (mutexLock_hold (hy.coherent.unlocked y))).trans ((NaoM.bind_of_ok hname).trans
      ((NaoM.bind_of_ok hremove).trans ?_))))
  rw [if_neg (by decide)]
  refine NaoM.bind_of_error ?_
  rw [mutexLock, lock, if_pos (by rw [inode_hold_self])]
  rfl

end Rename

end FS

end Naofs
