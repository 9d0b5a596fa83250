import Naofs.Serving
import Naofs.VolumeUnlink

/-!
# Naofs.Pruning

One file of a tree is gone.

Whoever takes a name out of a directory and gives up the file that had it leaves a state
that is `Pruned`: the directory has one entry less, and the number and the blocks of the
file are free, with those that the directory does not need any more.  The other files are
reached as before, so that the state serves (`Pruned.serving`), and the volume has lost
the name (`Pruned.agrees`).
-/

namespace Naofs

open Function (update update_self update_of_ne)

namespace FS

/-- The file `m` is gone, with its name in the directory `n`.  Its number is in slot `k`
of the inode list, and the free list is `l'`. -/
structure Pruned (fs : FS) (l l' : List Nat) (n : Nat) (name : Name) (m k : Nat) (fs' : FS) : Prop where
  coherent : Coherent fs' fs.openNodes
  keeps : Keeps fs.openNodes fs fs'
  table : fs'.fileTable = fs.fileTable
  others : ∀ i < numOfInodes, i ≠ n → i ≠ m → fs'.seen i = fs.seen i
  parent : (fs.seen n).SameOwner (fs'.seen n)
  links : (fs'.seen n).linksCount = (fs.seen n).linksCount
  size : (fs'.seen n).size + 64 = (fs.seen n).size
  entries : fs'.disk.entries (fs'.seen n).bare = swapRemove (fs.disk.entries (fs.seen n).bare)
    ((fs.disk.entries (fs.seen n).bare).findIdx (·.label = name))
  type : (fs'.seen m).type = .free
  unlinked : (fs'.seen m).linksCount = 0
  slot : ∀ i < 512, i ≤ k → listed (fs.disk.blocks 3) i = 0
  next : k + 1 < 512 → listed (fs.disk.blocks 3) (k + 1) ≠ 0
  list : ∀ i < 512, listed (fs'.disk.blocks 3) i = if i = k then m else listed (fs.disk.blocks 3) i
  backend : fs'.disk.backend = fs.disk.backend
  free : FreeBlocks fs'.disk l'
  owned : ∀ b, (fs'.blocksOf n).count b + l'.count b =
    l.count b + (fs.blocksOf n).count b + (fs.blocksOf m).count b
  frame : ∀ b, dataRegionStart ≤ b → b ∉ l ++ fs.blocksOf n ++ fs.blocksOf m →
    fs'.disk.blocks b = fs.disk.blocks b

/-- The blocks of three files and of the free list are different. -/
theorem Stocked.own_three {fs : FS} {held : List NodeId} {l : List Nat} (h : Stocked fs held l)
    {n m i : Nat} (hn : fs.tree.Reached n) (hm : fs.tree.Reached m) (hi : fs.tree.Reached i)
    (hmn : m ≠ n) (hin : i ≠ n) (him : i ≠ m) :
    Own fs.disk.backend (l ++ fs.blocksOf n ++ fs.blocksOf m ++ fs.blocksOf i) := by
  have htwo := h.own_two hn hm hmn
  have hi' := h.own_two hn hi hin
  refine ⟨List.nodup_append.mpr ⟨htwo.nodup, (List.nodup_append.mp hi'.nodup).2.1, ?_⟩, fun b hb => ?_⟩
  · rintro b hb c hc rfl
    obtain hb | hb := List.mem_append.mp hb
    · exact (List.nodup_append.mp hi'.nodup).2.2 b hb b hc rfl
    · exact h.apart i m hi hm him hc hb
  · obtain hb | hb := List.mem_append.mp hb
    · exact htwo.data b hb
    · exact hi'.data b (List.mem_append_right _ hb)

section Pruned

variable {fs fs' : FS} {l l' : List Nat} {n m k i j : Nat} {name : Name} (h : Serving fs l)
  (hv : fs.volume.Named n name m) (hp : Pruned fs l l' n name m k fs')

include h hv hp

/-! ## The files that are left -/

/-- A third file is as it was, with its blocks. -/
theorem Pruned.same (hi : fs.tree.Reached i) (hin : i ≠ n) (him : i ≠ m) :
    fs'.seen i = fs.seen i ∧ ∀ b ∈ fs.blocksOf i, fs'.disk.blocks b = fs.disk.blocks b := by
  have hown := h.own_three (reached_volume.mp hv.parent) (reached_volume.mp hv.reached) hi hv.ne.symm hin him
  refine ⟨hp.others i (h.number i hi) hin him, fun b hb => ?_⟩
  refine hp.frame b (h.data i hi b (List.mem_append_right _ hb)) fun hcon => ?_
  exact (List.nodup_append.mp hown.nodup).2.2 b hcon b hb rfl

/-- It has the blocks that it had. -/
theorem Pruned.blocksOf_same (hi : fs.tree.Reached i) (hin : i ≠ n) (him : i ≠ m) :
    fs'.blocksOf i = fs.blocksOf i := by
  obtain ⟨hseen, hsame⟩ := hp.same h hv hi hin him
  rw [blocksOf, hseen]
  exact Disk.fileBlocks_same (x := (fs.seen i).bare) (h.size i hi) hsame

omit h in
/-- The directory that had the name. -/
theorem Pruned.file_parent : fs'.file n = (fs.file n).unlink name := by
  have hdir : fs.tree.directory n := (fs.directory_volume n).symm.trans hv.directory
  have hdir' : sIsdir (fs'.seen n).fileMode := by
    rw [hp.parent.mode]
    exact hdir
  have hentries := Disk.entries_fileOf (d := fs.disk) (x := fs.seen n) hdir
  rw [file, Disk.fileOf, if_pos hdir', hp.entries, File.unlink, file, hentries, List.findIdx_map,
    map_swapRemove, hp.parent.mode, hp.parent.uid, hp.parent.gid]
  rfl

/-- **The files that are left** have not changed, but for the name. -/
theorem Pruned.file_eq (hi : fs.volume.tree.Reached i) (him : i ≠ m) :
    fs'.volume.file i = (fs.volume.modify n (·.unlink name)).file i := by
  by_cases hin : i = n
  · rw [hin, Volume.file_modify_self]
    exact hp.file_parent hv
  · rw [Volume.file_modify_of_ne hin]
    obtain ⟨hseen, hsame⟩ := hp.same h hv (reached_volume.mp hi) hin him
    change fs'.disk.fileOf (fs'.seen i) = fs.disk.fileOf (fs.seen i)
    rw [hseen]
    exact Disk.fileOf_same (h.size i (reached_volume.mp hi)) hsame

/-- All files but the removed one are reached. -/
theorem Pruned.reached : fs'.tree.Reached i ↔ fs.tree.Reached i ∧ i ≠ m := by
  rw [← reached_volume, ← reached_volume]
  exact Volume.reached_unlink h.sound hv fun i hi him => hp.file_eq h hv hi him

omit h hv in
/-- The attributes of the files that are left. -/
theorem Pruned.attributes (hi : i < numOfInodes) (him : i ≠ m) :
    (fs'.seen i).fileMode = (fs.seen i).fileMode ∧ (fs'.seen i).type = (fs.seen i).type ∧
      (fs'.seen i).linksCount = (fs.seen i).linksCount ∧ (fs'.seen i).size ≤ (fs.seen i).size := by
  by_cases hin : i = n
  · have hsize := hp.size
    rw [hin]
    exact ⟨hp.parent.mode, hp.parent.type, hp.links, by omega⟩
  · rw [hp.others i hi hin him]
    exact ⟨rfl, rfl, rfl, Nat.le_refl _⟩

omit h hv in
/-- The other directories are directories still. -/
theorem Pruned.directory_eq (hi : i < numOfInodes) (him : i ≠ m) :
    fs'.tree.directory i = fs.tree.directory i := by
  change sIsdir (fs'.seen i).fileMode = sIsdir (fs.seen i).fileMode
  rw [(hp.attributes hi him).1]

/-! ## Their blocks -/

/-- The blocks of a file that is left, and of the free list, are different. -/
theorem Pruned.own (hi : fs'.tree.Reached i) : Own fs'.disk.backend (l' ++ fs'.blocksOf i) := by
  obtain ⟨hi, him⟩ := (hp.reached h hv).mp hi
  have hn := reached_volume.mp hv.parent
  have hm := reached_volume.mp hv.reached
  rw [hp.backend]
  by_cases hin : i = n
  · subst hin
    refine (h.own_two hi hm hv.ne.symm).mono fun b => ?_
    have := hp.owned b
    simp only [List.count_append]
    omega
  · rw [hp.blocksOf_same h hv hi hin him]
    refine (h.own_three hn hm hi hv.ne.symm hin him).mono fun b => ?_
    have := hp.owned b
    simp only [List.count_append]
    omega

omit h hv in
/-- Blocks of the directory and free blocks come from the three. -/
theorem Pruned.mem {b : Nat} (hb : b ∈ l' ++ fs'.blocksOf n) :
    b ∈ l ++ fs.blocksOf n ++ fs.blocksOf m := by
  have hle := hp.owned b
  have hpos := List.count_pos_iff.mpr hb
  rw [List.count_append] at hpos
  rw [← List.count_pos_iff, List.count_append, List.count_append]
  omega

/-- They are in the data region. -/
theorem Pruned.data (hi : fs'.tree.Reached i) : ∀ b ∈ l' ++ fs'.blocksOf i, dataRegionStart ≤ b := by
  obtain ⟨hi, him⟩ := (hp.reached h hv).mp hi
  have hold : ∀ b ∈ l ++ fs.blocksOf n ++ fs.blocksOf m, dataRegionStart ≤ b := by
    intro b hb
    obtain hb | hb := List.mem_append.mp hb
    · exact h.data n (reached_volume.mp hv.parent) b hb
    · exact h.data m (reached_volume.mp hv.reached) b (List.mem_append_right _ hb)
  intro b hb
  by_cases hin : i = n
  · subst hin
    exact hold b (hp.mem hb)
  · rw [hp.blocksOf_same h hv hi hin him] at hb
    obtain hb | hb := List.mem_append.mp hb
    · exact hold b (hp.mem (List.mem_append_left _ hb))
    · exact h.data i hi b (List.mem_append_right _ hb)

/-- The blocks of two files are still different. -/
theorem Pruned.apart (hi : fs'.tree.Reached i) (hj : fs'.tree.Reached j) (hij : i ≠ j) :
    (fs'.blocksOf i).Disjoint (fs'.blocksOf j) := by
  obtain ⟨hi, him⟩ := (hp.reached h hv).mp hi
  obtain ⟨hj, hjm⟩ := (hp.reached h hv).mp hj
  have hn := reached_volume.mp hv.parent
  have hm := reached_volume.mp hv.reached
  have hfar : ∀ k, fs.tree.Reached k → k ≠ n → k ≠ m → (fs'.blocksOf n).Disjoint (fs'.blocksOf k) := by
    intro k hk hkn hkm b hb hb'
    rw [hp.blocksOf_same h hv hk hkn hkm] at hb'
    have hmem := hp.mem (List.mem_append_right _ hb)
    exact (List.nodup_append.mp (h.own_three hn hm hk hv.ne.symm hkn hkm).nodup).2.2 b hmem b hb' rfl
  by_cases hin : i = n
  · subst hin
    exact hfar j hj (Ne.symm hij) hjm
  · by_cases hjn : j = n
    · subst hjn
      exact (hfar i hi hij him).symm
    · rw [hp.blocksOf_same h hv hi hin him, hp.blocksOf_same h hv hj hjn hjm]
      exact h.apart i j hi hj hij

/-! ## The state -/

/-- The entries that a directory has are some of those that it had. -/
theorem Pruned.names (hi : fs'.tree.Reached i) (hdir : fs.tree.directory i) :
    NamesEnd fs'.disk (fs'.seen i).bare ∧ DistinctNames fs'.disk (fs'.seen i).bare := by
  obtain ⟨hi, him⟩ := (hp.reached h hv).mp hi
  rw [NamesEnd, DistinctNames]
  by_cases hin : i = n
  · subst hin
    have hmem := (find?_key_iff (h.sound.names i hv.parent)).mp hv.entry
    have hlt : (fs.disk.entries (fs.seen i).bare).findIdx (·.label = name) <
        (fs.disk.entries (fs.seen i).bare).length := by
      rw [show (fs.volume.file i).entries = _ from Disk.entries_fileOf hdir] at hmem
      obtain ⟨e, he, heq⟩ := List.mem_map.mp hmem
      exact List.findIdx_lt_length_of_exists ⟨e, he, by simpa using congrArg Prod.fst heq⟩
    rw [hp.entries]
    refine ⟨fun e he => h.terminated i hi hdir e (mem_of_mem_swapRemove hlt he), ?_⟩
    rw [map_swapRemove]
    exact (swapRemove_perm (by simpa using hlt)).nodup_iff.mpr ((h.distinct i hi hdir).sublist
      (List.eraseIdx_sublist ..))
  · obtain ⟨hseen, hsame⟩ := hp.same h hv hi hin him
    rw [hseen, Disk.entries_same (x := (fs.seen i).bare) (h.size i hi) hsame]
    exact ⟨h.terminated i hi hdir, h.distinct i hi hdir⟩

/-- The tree is sound without the file. -/
theorem Pruned.treeState : TreeState fs' fs.openNodes where
  coherent := hp.coherent
  number := fun i hi => h.number i ((hp.reached h hv).mp hi).1
  linked := by
    intro i hi hi0
    obtain ⟨hi, him⟩ := (hp.reached h hv).mp hi
    rw [(hp.attributes (h.number i hi) him).2.2.1]
    exact h.linked i hi hi0
  directory := by
    intro i hi hdir
    obtain ⟨hi', him⟩ := (hp.reached h hv).mp hi
    have hlt := h.number i hi'
    rw [hp.directory_eq hlt him] at hdir
    refine ⟨⟨(hp.own h hv hi).mono fun b => ?_, ?_⟩, ?_, ?_⟩
    · change (fs'.blocksOf i).count b ≤ _
      rw [List.count_append]
      omega
    · exact (hp.attributes hlt him).2.2.2.trans (h.size i hi')
    · exact (hp.directory_eq hlt him).trans hdir
    · change (fs'.seen i).size % 64 = 0
      have hwhole : (fs.seen i).size % 64 = 0 := (h.directory i hi' hdir).whole
      by_cases hin : i = n
      · subst hin
        have := hp.size
        omega
      · rwa [hp.others i hlt hin him]
  terminated := by
    intro i hi hdir
    obtain ⟨hi', him⟩ := (hp.reached h hv).mp hi
    rw [hp.directory_eq (h.number i hi') him] at hdir
    exact (hp.names h hv hi hdir).1
  distinct := by
    intro i hi hdir
    obtain ⟨hi', him⟩ := (hp.reached h hv).mp hi
    rw [hp.directory_eq (h.number i hi') him] at hdir
    exact (hp.names h hv hi hdir).2

variable (hclosed : ∀ fd, fs.volume.opened fd ≠ some m)

include hclosed

omit h hv hp in
/-- No descriptor is open for a file that nobody holds. -/
theorem number_ne_of_closed {x : NodeId} (hx : x ∈ fs.openNodes) : (fs.inode x).iNodeNumber ≠ m := by
  obtain ⟨fd, hfd⟩ := mem_openNodes.mp hx
  refine fun hcon => hclosed fd ?_
  change (fs.nodeAt fd).map _ = _
  rw [nodeAt_eq_some.mpr hfd]
  exact congrArg some hcon

omit hv hclosed in
/-- What is open is as it was. -/
theorem Pruned.kept {x : NodeId} (hx : x ∈ fs.openNodes) : (fs'.inode x).toINode = (fs.inode x).toINode :=
  hp.keeps x hx (h.live x hx)

/-- The inodes on the list are unused, the removed one with them. -/
theorem Pruned.unused (hi : i < 512) (hne : listed (fs'.disk.blocks 3) i ≠ 0) :
    fs'.Unused fs.openNodes (listed (fs'.disk.blocks 3) i) := by
  rw [hp.list i hi] at hne ⊢
  split
  · refine ⟨hp.type, hp.unlinked, fun x hx => ?_⟩
    rw [hp.kept h hx]
    exact number_ne_of_closed hclosed hx
  · next hik =>
      rw [if_neg hik] at hne
      have hunused := h.unused i hi hne
      have hunreached := hunused.unreached h.toTreeState hne
      have hseen := hp.others _ (listed_lt (fs.disk.blocks 3) i)
        (fun hcon => hunreached (hcon ▸ reached_volume.mp hv.parent))
        fun hcon => hunreached (hcon ▸ reached_volume.mp hv.reached)
      refine ⟨by rw [hseen]; exact hunused.type, by rw [hseen]; exact hunused.links, fun x hx => ?_⟩
      rw [hp.kept h hx]
      exact hunused.notHeld x hx

omit hclosed in
/-- The removed inode was in use, so it is not on the list twice. -/
theorem Pruned.once (hi : i < 512) (hj : j < 512) (hne : listed (fs'.disk.blocks 3) i ≠ 0)
    (heq : listed (fs'.disk.blocks 3) i = listed (fs'.disk.blocks 3) j) : i = j := by
  -- The number of the file that is gone was not on the list.
  have hnew : ∀ i < 512, listed (fs.disk.blocks 3) i ≠ m := by
    intro i hi hcon
    have h0 : m ≠ 0 := (hv.ne_root h.sound).symm
    have hne : listed (fs.disk.blocks 3) i ≠ 0 := hcon ▸ h0
    exact (h.unused i hi hne).unreached h.toTreeState hne (hcon ▸ reached_volume.mp hv.reached)
  rw [hp.list i hi, hp.list j hj] at heq
  rw [hp.list i hi] at hne
  split at heq
  · next hik =>
      split at heq
      · next hjk => rw [hik, hjk]
      · exact absurd heq.symm (hnew j hj)
  · next hik =>
      rw [if_neg hik] at hne
      split at heq
      · exact absurd heq (hnew i hi)
      · exact h.once i hi j hj hne heq

/-- The volume is in order without the file. -/
theorem Pruned.stocked : Stocked fs' fs.openNodes l' where
  toTreeState := hp.treeState h hv
  free := hp.free
  size := by
    intro i hi
    obtain ⟨hi, him⟩ := (hp.reached h hv).mp hi
    exact (hp.attributes (h.number i hi) him).2.2.2.trans (h.size i hi)
  own := fun _ hi => hp.own h hv hi
  data := fun _ hi => hp.data h hv hi
  apart := fun _ _ hi hj hij => hp.apart h hv hi hj hij
  unused := fun _ hi hne => hp.unused h hv hclosed hi hne
  once := fun _ hi _ hj hne heq => hp.once h hv hi hj hne heq

omit hclosed in
/-- No block is lost. -/
theorem Pruned.complete {b : Nat} (hb : dataRegionStart ≤ b) (hcap : b < fs.disk.backend.capacity) :
    b ∈ l' ∨ ∃ i, fs'.tree.Reached i ∧ b ∈ fs'.blocksOf i := by
  have hn : fs'.tree.Reached n := (hp.reached h hv).mpr ⟨reached_volume.mp hv.parent, hv.ne⟩
  have howned := hp.owned b
  by_cases hmem : b ∈ l ++ fs.blocksOf n ++ fs.blocksOf m
  · rw [← List.count_pos_iff, List.count_append, List.count_append, ← howned] at hmem
    by_cases hfree : b ∈ l'
    · exact .inl hfree
    · rw [List.count_eq_zero.mpr hfree] at hmem
      exact .inr ⟨n, hn, List.count_pos_iff.mp hmem⟩
  · obtain hcon | ⟨i, hi, hbi⟩ := h.complete b hb hcap
    · exact absurd (List.mem_append_left _ (List.mem_append_left _ hcon)) hmem
    · have hin : i ≠ n := fun hcon =>
        hmem (List.mem_append_left _ (List.mem_append_right _ (hcon ▸ hbi)))
      have him : i ≠ m := fun hcon => hmem (List.mem_append_right _ (hcon ▸ hbi))
      refine .inr ⟨i, (hp.reached h hv).mpr ⟨hi, him⟩, ?_⟩
      rwa [hp.blocksOf_same h hv hi hin him]

omit hv hclosed in
/-- The number has a place on the list. -/
theorem Pruned.saved : k < 512 := by
  by_contra hcon
  exact h.last (hp.slot 511 (by decide) (by omega))

omit hclosed in
/-- The place before the first used one is used now. -/
theorem Pruned.places : ∃ k' ≤ 512, (∀ i < k', listed (fs'.disk.blocks 3) i = 0) ∧
    {i | fs'.tree.Reached i}.ncard ≤ k' + 1 := by
  obtain ⟨k₀, hk₀, hz, hcard⟩ := h.places
  have hle : k₀ ≤ k + 1 := by
    by_contra hcon
    exact hp.next (by omega) (hz (k + 1) (by omega))
  have hreached : {i | fs'.tree.Reached i} = {i | fs.tree.Reached i} \ {m} :=
    Set.ext fun i => hp.reached h hv
  have hless := Set.ncard_sdiff_singleton_add_one (show m ∈ {i | fs.tree.Reached i} from
    reached_volume.mp hv.reached) h.finite_reached
  rw [← hreached] at hless
  have hk := hp.saved h
  refine ⟨k, hk.le, fun i hi => ?_, by omega⟩
  rw [hp.list i (by omega), if_neg (by omega)]
  exact hp.slot i (by omega) (by omega)

/-- **The state without the file.** -/
theorem Pruned.serving : Serving fs' l' := by
  have hopen : fs'.openNodes = fs.openNodes := (SameTable.of_eq hp.table).openNodes
  have hmode : ∀ {i : Nat}, fs'.tree.Reached i → fs.tree.Reached i ∧ i ≠ m ∧
      fs'.tree.directory i = fs.tree.directory i := by
    intro i hi
    obtain ⟨hi, him⟩ := (hp.reached h hv).mp hi
    exact ⟨hi, him, hp.directory_eq (h.number i hi) him⟩
  refine ⟨by rw [hopen]; exact hp.stocked h hv hclosed, ?_, fun i hi => ?_, ?_, fun x hx => ?_,
    fun x hx => ?_, ?_, fun i hi hregular => ?_, fun i hi => ?_, fun b hb hcap => ?_,
    hp.places h hv, fun i hi => ?_, fun i hi => ?_, fun i h0 hi => ?_, ?_, ?_⟩
  · exact (hmode .refl).2.2.trans h.root
  · obtain ⟨hi, him, hdir⟩ := hmode hi
    rw [hdir, (hp.attributes (h.number i hi) him).2.1]
    exact h.typed i hi
  · rw [hp.table]
    exact h.node
  · rw [hopen] at hx
    obtain ⟨hreached, hregular⟩ := h.regular x hx
    have him := number_ne_of_closed hclosed hx
    rw [hp.kept h hx, hp.directory_eq (h.number _ hreached) him]
    exact ⟨(hp.reached h hv).mpr ⟨hreached, him⟩, hregular⟩
  · rw [hopen] at hx
    rw [hp.kept h hx]
    exact h.live x hx
  · rw [← singleNamed_volume]
    exact Volume.singleNamed_unlink h.sound hv fun i hi him => hp.file_eq h hv hi him
  · obtain ⟨hi, him, hdir⟩ := hmode hi
    rw [(hp.attributes (h.number i hi) him).2.2.1]
    exact h.link i hi (hdir.symm.trans hregular)
  · rw [hp.reached h hv, ← h.used i hi]
    by_cases him : i = m
    · rw [him, hp.type]
      exact ⟨fun hcon => absurd rfl hcon, fun hcon => absurd rfl hcon.2⟩
    · rw [(hp.attributes hi him).2.1]
      exact (and_iff_left him).symm
  · rw [hp.backend] at hcap
    exact hp.complete h hv hb hcap
  · exact h.reached_le i ((hp.reached h hv).mp hi).1
  · rw [hp.list i hi]
    split
    · exact h.reached_le m (reached_volume.mp hv.reached)
    · exact h.offered_le i hi
  · obtain hreached | ⟨j, hj, rfl⟩ := h.kept i h0 hi
    · by_cases him : i = m
      · have hk := hp.saved h
        exact .inr ⟨k, hk, by rw [hp.list k hk, if_pos rfl, him]⟩
      · exact .inl ((hp.reached h hv).mpr ⟨hreached, him⟩)
    · have hjk : j ≠ k := by
        rintro rfl
        exact absurd (hp.slot j hj le_rfl) (by omega)
      exact .inr ⟨j, hj, by rw [hp.list j hj, if_neg hjk]⟩
  · rw [hp.list 511 (by decide)]
    split
    · exact (hv.ne_root h.sound).symm
    · exact h.last
  · rw [hp.backend]
    exact h.device

omit hclosed in
/-- **The volume without the file.** -/
theorem Pruned.agrees : (fs.volume.modify n (·.unlink name)).Agrees fs'.volume := by
  refine Volume.agrees_unlink h.sound hv (fun i hi him => hp.file_eq h hv hi him) ?_
  refine opened_volume (.of_eq hp.table) fun x hx => ?_
  rw [hp.kept h hx]

end Pruned

end FS

end Naofs
