import Mathlib.Data.Set.Card
import Naofs.Revision

/-!
# Naofs.Serving

A mounted file system between two operations.

The references that are out are those of the open descriptors, and each of these has a
regular file of the tree (`Serving`).  An operation that only looks something up leaves
such a state (`Serving.rest`), and so does one that changes a file (`Serving.rewritten`).
-/

namespace Naofs

open Function (update update_self update_of_ne)

namespace FS

/-! ## Nodes that are held -/

/-- The inodes of the nodes are not read from disk again. -/
def Keeps (held : List NodeId) (fs fs' : FS) : Prop :=
  ∀ z ∈ held, (fs.inode z).linksCount ≠ 0 → (fs'.inode z).toINode = (fs.inode z).toINode

section Keeps

variable {fs fs₁ fs₂ : FS} {held : List NodeId} {x : NodeId} {n : Nat} {env : Env} {name : Name}
  {r : Option NodeId}

theorem Keeps.refl (held : List NodeId) (fs : FS) : Keeps held fs fs := fun _ _ _ => rfl

/-- What is kept over two steps. -/
theorem Keeps.trans (h : Keeps held fs fs₁) (h' : Keeps held fs₁ fs₂) : Keeps held fs fs₂ := by
  intro z hz hlinks
  have hsame := h z hz hlinks
  exact (h' z hz (by rwa [hsame])).trans hsame

/-- A node that is not held may change. -/
theorem Keeps.setInode (d : Disk) {y : InCoreINode} (hx : x ∉ held) :
    Keeps held fs ({ fs with disk := d }.setInode x y) := by
  intro z hz _
  have hzx : z ≠ x := fun hcon => hx (hcon ▸ hz)
  rw [inode_setInode, update_of_ne hzx]
  rfl

/-- Fetching an inode changes no node that is held. -/
theorem Coherent.Fetched.keeps {held' : List NodeId} (h : Coherent fs held')
    (hf : Coherent.Fetched fs held' n x fs₁) (hsub : ∀ z ∈ held, z ∈ held') : Keeps held fs fs₁ := by
  intro z hz hlinks
  by_cases hzx : z = x
  · subst hzx
    have hnum := hf.node.resolve_left fun hcon => hcon (hsub z hz)
    rw [hf.value, ← hnum, seen_of_caches (h.caches_of_held (hsub z hz)), if_neg hlinks]
  · rw [hf.others z hzx]

/-- So `iget` keeps what is held, whatever it answers. -/
theorem Coherent.iget_keeps {held' : List NodeId} (h : Coherent fs held') (hn : n < numOfInodes)
    (hsub : ∀ z ∈ held, z ∈ held') (hget : fs.iget n 0 = .ok (r, fs₁)) : Keeps held fs fs₁ := by
  obtain ⟨x, fs', hget', hf⟩ | ⟨-, hget'⟩ := h.iget hn
  · cases hget.symm.trans hget'
    exact hf.keeps h hsub
  · cases hget.symm.trans hget'
    exact .refl _ _

/-- `iput` keeps the nodes that are still held. -/
theorem Coherent.Returned.keeps {held' : List NodeId} (h : Coherent.Returned fs held' n x fs₁) :
    Keeps held fs fs₁ := fun z _ _ => h.value z

/-- One name on the way. -/
theorem TreeState.operate_keeps (h : TreeState fs held) (hx : Standing fs held fs₁ x n)
    (hn : fs.tree.Reached n) (hname : name ≠ []) (h0 : (0 : UInt8) ∉ name)
    (hop : operate env name (some x) fs₁ = .ok (r, fs₂)) : Keeps held fs₁ fs₂ := by
  obtain ⟨entry, hentry, hfollow⟩ := h.operateEntry_eq hx hn hname h0 env
  obtain ⟨fs₃, hput, hret⟩ := hx.coherent.iput env.now hx.caches (by
    rw [hx.value]
    by_cases hn0 : n = 0
    · exact .inr (.inr hn0)
    · exact .inr (.inl (h.linked n hn hn0)))
  rw [operate_eq env hname] at hop
  obtain ⟨_, _, hentry', hop⟩ := NaoM.bind_eq_ok.mp hop
  cases hentry.symm.trans hentry'
  obtain ⟨_, _, hput', hop⟩ := NaoM.bind_eq_ok.mp hop
  cases hput.symm.trans hput'
  cases entry with
  | none =>
      cases hop
      exact hret.keeps
  | some entry =>
      have hm := hn.follow hfollow.symm
      exact hret.keeps.trans (hret.coherent.iget_keeps (h.number _ hm) (fun _ hz => hz) hop)

/-- The loop over the names that are left. -/
theorem TreeState.getFileINodeLoop_keeps (h : TreeState fs held) : ∀ (fuel : Nat) (path : Name)
    {fs₁ : FS} {x : NodeId} {n : Nat}, Standing fs held fs₁ x n → fs.tree.Reached n →
    (0 : UInt8) ∉ path → getFileINodeLoop env fuel path (some x) fs₁ = .ok (r, fs₂) →
    Keeps held fs₁ fs₂ := by
  intro fuel
  induction fuel with
  | zero =>
      intro path fs₁ x n _ _ _ heq
      cases heq
  | succ fuel ih =>
      intro path fs₁ x n hx hn h0 heq
      rw [getFileINodeLoop] at heq
      split at heq
      · cases heq
        exact .refl _ _
      · obtain ⟨⟨r', rest⟩, fs₃, hnext, heq⟩ := NaoM.bind_eq_ok.mp heq
        obtain ⟨r'', fs₄, hop, hnext⟩ := NaoM.bind_eq_ok.mp hnext
        cases hnext
        have h0name : (0 : UInt8) ∉ path.takeWhile (· ≠ slash) := fun hmem =>
          h0 (List.takeWhile_sublist _ |>.subset hmem)
        have h0rest : (0 : UInt8) ∉ path.drop ((path.takeWhile (· ≠ slash)).length + 1) := fun hmem =>
          h0 (List.mem_of_mem_drop hmem)
        by_cases hempty : path.takeWhile (· ≠ slash) = []
        · rw [operate, if_pos hempty] at hop
          cases hop
          exact ih _ hx hn h0rest heq
        · have hkeep := h.operate_keeps hx hn hempty h0name hop
          obtain ⟨_, _, hop', harr⟩ := h.operate_arrives hx hn hempty h0name env
          cases hop.symm.trans hop'
          generalize fs.advance held n (path.takeWhile (· ≠ slash)) = m at harr
          cases harr with
          | nowhere _ =>
              cases heq
              exact hkeep
          | found hy hm => exact hkeep.trans (ih _ hy hm h0rest heq)

/-- So does a lookup, with all that it fetches and gives back. -/
theorem TreeState.getFileINode_keeps (h : TreeState fs held) (hroot : fs.Available held 0) {path : Name}
    (h0 : (0 : UInt8) ∉ path) (heq : getFileINode env (slash :: path) fs = .ok (r, fs₁)) :
    Keeps held fs fs₁ := by
  obtain ⟨w, fs₂, hget, heq⟩ := NaoM.bind_eq_ok.mp heq
  have hkeep := h.coherent.iget_keeps (by decide) (fun _ hz => hz) hget
  obtain ⟨x, fs₃, hget', hx⟩ := h.resting.iget (show 0 < numOfInodes by decide) hroot
  cases hget.symm.trans hget'
  exact hkeep.trans (h.getFileINodeLoop_keeps _ _ hx .refl h0 heq)

end Keeps

/-! ## Open descriptors -/

/-- The nodes of the open descriptors. -/
def openNodes (fs : FS) : List NodeId := (List.range maxFileDescriptors).filterMap fs.nodeAt

/-- The entries of the file table differ in their offsets only. -/
def SameTable (fs fs' : FS) : Prop :=
  ∀ fd, (fs'.fileTable fd).validEntry = (fs.fileTable fd).validEntry ∧
    (fs'.fileTable fd).inode = (fs.fileTable fd).inode

section OpenNodes

variable {fs fs' : FS} {x : NodeId} {fd : Nat}

theorem SameTable.of_eq (h : fs'.fileTable = fs.fileTable) : SameTable fs fs' := by
  intro fd
  rw [h]
  exact ⟨rfl, rfl⟩

/-- The descriptors stand for the same nodes. -/
theorem SameTable.nodeAt (h : SameTable fs fs') : fs'.nodeAt = fs.nodeAt := by
  funext fd
  rw [FS.nodeAt, FS.nodeAt, (h fd).1, (h fd).2]

/-- The same nodes are open. -/
theorem SameTable.openNodes (h : SameTable fs fs') : fs'.openNodes = fs.openNodes := by
  rw [FS.openNodes, FS.openNodes, h.nodeAt]

/-- A descriptor stands for a node exactly if it is open for it. -/
theorem nodeAt_eq_some : fs.nodeAt fd = some x ↔ fs.Open fd x := by
  rw [nodeAt]
  constructor
  · intro h
    split at h
    · next hvalid => exact ⟨hvalid.1, hvalid.2, h⟩
    · cases h
  · intro h
    rw [if_pos ⟨h.lt, h.valid⟩, h.inode]

/-- The open nodes are those of the descriptors. -/
theorem mem_openNodes : x ∈ fs.openNodes ↔ ∃ fd, fs.Open fd x := by
  rw [openNodes, List.mem_filterMap]
  constructor
  · rintro ⟨fd, -, hfd⟩
    exact ⟨fd, nodeAt_eq_some.mp hfd⟩
  · rintro ⟨fd, hfd⟩
    exact ⟨fd, List.mem_range.mpr hfd.lt, nodeAt_eq_some.mpr hfd⟩

/-- One more value of a function on a range. -/
theorem filterMap_update_perm {α : Type} {f : Nat → Option α} {i N : Nat} (hi : i < N)
    (hf : f i = none) (a : α) :
    ((List.range N).filterMap (update f i (some a))).Perm (a :: (List.range N).filterMap f) := by
  obtain ⟨pre, post, hrange⟩ := List.append_of_mem (List.mem_range.mpr hi)
  have hnodup := hrange ▸ List.nodup_range (n := N)
  have hpre : ∀ j ∈ pre, update f i (some a) j = f j := fun j hj =>
    update_of_ne (fun hcon => (List.nodup_append.mp hnodup).2.2 j hj i List.mem_cons_self hcon) ..
  have hpost : ∀ j ∈ post, update f i (some a) j = f j := fun j hj =>
    update_of_ne (fun hcon : j = i =>
      (List.nodup_cons.mp (List.nodup_append.mp hnodup).2.1).1 (hcon ▸ hj)) ..
  rw [hrange, List.filterMap_append, List.filterMap_append, List.filterMap_cons_some (update_self ..),
    List.filterMap_cons_none hf, List.filterMap_congr hpre, List.filterMap_congr hpost]
  exact List.perm_middle

/-- A free descriptor is opened: one reference more. -/
theorem openNodes_open (hfd : fd < maxFileDescriptors) (hfree : fs.nodeAt fd = none)
    (h : fs'.nodeAt = update fs.nodeAt fd (some x)) : fs'.openNodes.Perm (x :: fs.openNodes) := by
  rw [openNodes, h]
  exact filterMap_update_perm hfd hfree x

/-- A descriptor is closed: one reference less. -/
theorem openNodes_close (hopen : fs.Open fd x) (h : fs'.nodeAt = update fs.nodeAt fd none) :
    fs.openNodes.Perm (x :: fs'.openNodes) := by
  refine openNodes_open hopen.lt (by rw [h, update_self]) ?_
  rw [h, Function.update_idem, ← nodeAt_eq_some.mpr hopen, Function.update_eq_self]

end OpenNodes

/-! ## The state between two operations -/

structure Serving (fs : FS) (l : List Nat) : Prop extends Stocked fs fs.openNodes l where
  root : fs.tree.directory 0
  typed : ∀ n, fs.tree.Reached n → ((fs.seen n).type = .directory ↔ fs.tree.directory n)
  node : ∀ fd < maxFileDescriptors, (fs.fileTable fd).validEntry = true →
    (fs.fileTable fd).inode.isSome
  /-- Descriptors are open for regular files. -/
  regular : ∀ x ∈ fs.openNodes, fs.tree.Reached (fs.inode x).iNodeNumber ∧
    fs.tree.directory (fs.inode x).iNodeNumber = false
  live : ∀ x ∈ fs.openNodes, (fs.inode x).linksCount ≠ 0
  /-- A regular file has one name, and one link. -/
  single : fs.tree.SingleNamed
  link : ∀ n, fs.tree.Reached n → fs.tree.directory n = false → (fs.seen n).linksCount = 1
  /-- The inodes that are in use are those of the tree. -/
  used : ∀ i < numOfInodes, (fs.seen i).type ≠ .free ↔ fs.tree.Reached i
  /-- No block is lost. -/
  complete : ∀ b, dataRegionStart ≤ b → b < fs.disk.backend.capacity →
    b ∈ l ∨ ∃ i, fs.tree.Reached i ∧ b ∈ fs.blocksOf i
  /-- There is a place on the inode list for each file but the root. -/
  places : ∃ k ≤ 512, (∀ i < k, listed (fs.disk.blocks 3) i = 0) ∧ {i | fs.tree.Reached i}.ncard ≤ k + 1
  /-- The numbers are those that the inode list had at first. -/
  reached_le : ∀ i, fs.tree.Reached i → i ≤ 512
  offered_le : ∀ i < 512, listed (fs.disk.blocks 3) i ≤ 512
  /-- No number is lost. -/
  kept : ∀ n, 0 < n → n ≤ 512 → fs.tree.Reached n ∨ ∃ i < 512, listed (fs.disk.blocks 3) i = n
  /-- The last place of the list is not used for a new file. -/
  last : listed (fs.disk.blocks 3) 511 ≠ 0
  device : fs.disk.backend.isDiskAvailable

section Stays

variable {fs fs' : FS} {held held' : List NodeId} {l l' : List Nat} {n : Nat} {x : NodeId}

/-- A descriptor has the inode that is seen. -/
theorem Serving.value (h : Serving fs l) (hx : x ∈ fs.openNodes) :
    (fs.inode x).toINode = fs.seen (fs.inode x).iNodeNumber := by
  rw [seen_of_caches (h.coherent.caches_of_held hx), if_neg (h.live x hx)]

/-- Files of the volume have single names if those of the state do. -/
theorem singleNamed_volume : fs.volume.tree.SingleNamed ↔ fs.tree.SingleNamed :=
  ⟨fun h => h.congr fun n _ => ⟨(fs.directory_volume n).symm, fun hdir => funext fun name =>
    (entry_volume ((fs.directory_volume n).symm.trans hdir) name).symm⟩,
  fun h => h.congr fun n _ => ⟨fs.directory_volume n, fun hdir => funext (entry_volume hdir)⟩⟩

/-- **The volume of the state is sound.** -/
theorem Serving.sound (h : Serving fs l) : fs.volume.Sound where
  root := (fs.directory_volume 0).trans h.root
  names := by
    intro n hn
    rw [reached_volume] at hn
    change ((fs.file n).entries.map Prod.fst).Nodup
    cases hdir : fs.tree.directory n with
    | true =>
        rw [file, Disk.entries_fileOf hdir, List.map_map]
        exact h.distinct n hn hdir
    | false =>
        rw [File.entries_eq_nil (show (fs.file n).isDirectory = false from (fs.directory_volume n).trans hdir)]
        exact List.nodup_nil
  single := singleNamed_volume.mpr h.single
  opened := by
    intro fd n hfd
    obtain ⟨x, hx, rfl⟩ := Option.map_eq_some_iff.mp hfd
    exact reached_volume.mpr (h.regular x (mem_openNodes.mpr ⟨fd, nodeAt_eq_some.mp hx⟩)).1

/-- There are as many files as inodes at most. -/
theorem TreeState.finite_reached {held : List NodeId} (h : TreeState fs held) :
    {i | fs.tree.Reached i}.Finite :=
  (Set.finite_lt_nat numOfInodes).subset fun i hi => h.number i hi

/-- A freed number can go on the list. -/
theorem Serving.place (h : Serving fs l) (hn : fs.tree.Reached n) (hn0 : n ≠ 0) :
    listed (fs.disk.blocks 3) 0 = 0 := by
  obtain ⟨k, -, hz, hcard⟩ := h.places
  refine hz 0 ?_
  have htwo := Set.ncard_le_ncard (show {n, 0} ⊆ {i | fs.tree.Reached i} from
    Set.insert_subset hn (Set.singleton_subset_iff.mpr .refl)) h.finite_reached
  rw [Set.ncard_pair hn0] at htwo
  omega

/-- A directory is not open. -/
theorem Serving.notMem (h : Serving fs l) (hdir : fs.tree.directory (fs.inode x).iNodeNumber) :
    x ∉ fs.openNodes := by
  intro hx
  rw [(h.regular x hx).2] at hdir
  cases hdir

/-- A file has changed, or the descriptors have. -/
theorem Serving.revised (h : Serving fs l) (hn : fs.tree.Reached n) (hr : Revised fs l l' n fs')
    (hs : SameShape fs fs' n) (htype : (fs'.seen n).type = (fs.seen n).type)
    (hc : Coherent fs' fs'.openNodes)
    (hnode : ∀ fd < maxFileDescriptors, (fs'.fileTable fd).validEntry = true →
      (fs'.fileTable fd).inode.isSome)
    (hopen : ∀ x ∈ fs'.openNodes, fs.tree.Reached (fs'.inode x).iNodeNumber ∧
      fs.tree.directory (fs'.inode x).iNodeNumber = false ∧ (fs'.inode x).linksCount ≠ 0) :
    Serving fs' l' where
  toStocked := hr.stocked h.toStocked hn hs hc fun z hz => .inl (hopen z hz).1
  root := (hr.tree_same h.toStocked hn hs .refl).1.trans h.root
  typed := by
    intro i hi
    rw [hr.reached h.toStocked hn hs] at hi
    rw [(hr.tree_same h.toStocked hn hs hi).1, ← h.typed i hi]
    by_cases hin : i = n
    · rw [hin, htype]
    · rw [(hr.same h.toStocked hn hi hin).1]
  node := hnode
  regular := by
    intro x hx
    obtain ⟨hreached, hdir, -⟩ := hopen x hx
    rw [hr.reached h.toStocked hn hs, (hr.tree_same h.toStocked hn hs hreached).1]
    exact ⟨hreached, hdir⟩
  live := fun x hx => (hopen x hx).2.2
  single := h.single.congr fun i hi => hr.tree_same h.toStocked hn hs hi
  link := by
    intro i hi hdir
    rw [hr.reached h.toStocked hn hs] at hi
    rw [(hr.tree_same h.toStocked hn hs hi).1] at hdir
    rw [← h.link i hi hdir]
    by_cases hin : i = n
    · rw [hin, hs.links]
    · rw [(hr.same h.toStocked hn hi hin).1]
  used := by
    intro i hi
    rw [hr.reached h.toStocked hn hs, ← h.used i hi]
    by_cases hin : i = n
    · rw [hin, htype]
    · rw [hr.others i hi hin]
  complete := by
    intro b hb hcap
    rw [hr.backend] at hcap
    by_cases hmem : b ∈ l ++ fs.blocksOf n
    · have howned := hr.owned b
      rw [← List.count_pos_iff, List.count_append, ← howned] at hmem
      by_cases hfree : b ∈ l'
      · exact .inl hfree
      · rw [List.count_eq_zero.mpr hfree] at hmem
        exact .inr ⟨n, (hr.reached h.toStocked hn hs).mpr hn, List.count_pos_iff.mp hmem⟩
    · obtain hcon | ⟨i, hi, hbi⟩ := h.complete b hb hcap
      · exact absurd (List.mem_append_left _ hcon) hmem
      · have hin : i ≠ n := fun hcon => hmem (List.mem_append_right _ (hcon ▸ hbi))
        refine .inr ⟨i, (hr.reached h.toStocked hn hs).mpr hi, ?_⟩
        rwa [hr.blocksOf_same h.toStocked hn hi hin]
  places := by
    have hreached : {i | fs'.tree.Reached i} = {i | fs.tree.Reached i} :=
      Set.ext fun _ => hr.reached h.toStocked hn hs
    rw [hr.list, hreached]
    exact h.places
  reached_le := fun i hi => h.reached_le i ((hr.reached h.toStocked hn hs).mp hi)
  offered_le := by
    rw [hr.list]
    exact h.offered_le
  kept := by
    intro i h0 hi
    rw [hr.list, hr.reached h.toStocked hn hs]
    exact h.kept i h0 hi
  last := by
    rw [hr.list]
    exact h.last
  device := by
    rw [hr.backend]
    exact h.device

/-- The descriptors stand for the same files if the nodes that are open are kept. -/
theorem opened_volume (htable : SameTable fs fs')
    (hkept : ∀ z ∈ fs.openNodes, (fs'.inode z).iNodeNumber = (fs.inode z).iNodeNumber) :
    fs'.volume.opened = fs.volume.opened := by
  funext fd
  change (fs'.nodeAt fd).map _ = (fs.nodeAt fd).map _
  rw [htable.nodeAt]
  cases hfd : fs.nodeAt fd with
  | none => rfl
  | some x => exact congrArg some (hkept x (mem_openNodes.mpr ⟨fd, nodeAt_eq_some.mp hfd⟩))

/-- The contents of a file are those of its inode and its blocks. -/
theorem Same.file (hr : Same fs held fs') (hn : n < numOfInodes) : fs'.file n = fs.file n := by
  rw [FS.file, hr.seen n hn, FS.file]
  have hbytes : fs'.disk.byteAt = fs.disk.byteAt := by
    funext nums i
    rw [Disk.byteAt, Disk.byteAt, hr.disk.fileBlock, hr.disk.blocks]
  rw [Disk.fileOf, Disk.fileOf, hbytes, hr.disk.entries (y := (fs.seen n).bare) rfl]

/-- No file has changed. -/
theorem SameData.revised (h : Stocked fs held l) (hd : SameData fs.disk fs'.disk)
    (hseen : ∀ i < numOfInodes, fs'.seen i = fs.seen i)
    (hlist : fs'.disk.blocks 3 = fs.disk.blocks 3) : Revised fs l l 0 fs' ∧ SameShape fs fs' 0 := by
  have hroot : fs'.seen 0 = fs.seen 0 := hseen 0 (by decide)
  have hdata := h.data 0 .refl
  have hblocks : fs'.blocksOf 0 = fs.blocksOf 0 := by
    rw [blocksOf, hroot]
    exact hd.fileBlocks (x := (fs.seen 0).bare) (h.size 0 .refl) fun b hb =>
      hdata b (List.mem_append_right _ hb)
  refine ⟨⟨fun i hi _ => hseen i hi, hlist, hd.backend, ?_, fun b => ?_, fun b hb _ => hd.blocks b (.inr hb)⟩,
    ⟨?_, fun _ => ?_, fun _ => ?_, ?_, ?_⟩⟩
  · exact hd.freeBlocks (fun b hb => hdata b (List.mem_append_left _ hb)) h.free
  · rw [hblocks, Nat.add_comm]
  · change sIsdir (fs'.seen 0).fileMode = sIsdir (fs.seen 0).fileMode
    rw [hroot]
  · rw [hroot]
    exact Disk.entries_same (x := (fs.seen 0).bare) (h.size 0 .refl) fun b hb =>
      hd.blocks b (.inr (hdata b (List.mem_append_right _ hb)))
  · rw [hroot]
  · rw [hroot]
    exact h.size 0 .refl
  · rw [hroot]

/-- **The files stay**, and maybe the descriptors do not. -/
theorem Serving.stays (h : Serving fs l) (hd : SameData fs.disk fs'.disk)
    (hseen : ∀ i < numOfInodes, fs'.seen i = fs.seen i) (hlist : fs'.disk.blocks 3 = fs.disk.blocks 3)
    (hc : Coherent fs' fs'.openNodes)
    (hnode : ∀ fd < maxFileDescriptors, (fs'.fileTable fd).validEntry = true →
      (fs'.fileTable fd).inode.isSome)
    (hopen : ∀ x ∈ fs'.openNodes, fs.tree.Reached (fs'.inode x).iNodeNumber ∧
      fs.tree.directory (fs'.inode x).iNodeNumber = false ∧ (fs'.inode x).linksCount ≠ 0) :
    Serving fs' l ∧ ∀ i, fs.tree.Reached i → fs'.file i = fs.file i := by
  obtain ⟨hrev, hshape⟩ := SameData.revised h.toStocked hd hseen hlist
  refine ⟨h.revised .refl hrev hshape (by rw [hseen 0 (by decide)]) hc hnode hopen, fun i hi => ?_⟩
  rw [file, hseen i (h.number i hi)]
  exact Disk.fileOf_same (h.size i hi) fun b hb =>
    hd.blocks b (.inr (h.data i hi b (List.mem_append_right _ hb)))

/-- **A lookup** leaves the state as it is, for its users. -/
theorem Serving.rest (h : Serving fs l) (hr : Resting fs fs.openNodes fs')
    (hkeeps : Keeps fs.openNodes fs fs') (htable : SameTable fs fs') :
    Serving fs' l ∧ fs.volume.Agrees fs'.volume := by
  obtain ⟨hserving, hfile⟩ := h.stays ⟨hr.disk.backend, fun b _ => congrFun hr.disk.blocks b⟩ hr.seen
    (congrFun hr.disk.blocks 3) (by rw [htable.openNodes]; exact hr.coherent) (fun fd hfd hvalid => by
      rw [(htable fd).2]
      exact h.node fd hfd ((htable fd).1.symm.trans hvalid)) fun x hx => by
      rw [htable.openNodes] at hx
      rw [hkeeps x hx (h.live x hx)]
      exact ⟨(h.regular x hx).1, (h.regular x hx).2, h.live x hx⟩
  exact ⟨hserving, fun i hi => hfile i (reached_volume.mp hi), opened_volume htable hr.kept⟩

/-- **A file has changed**, and the descriptors have not. -/
theorem Serving.rewritten (h : Serving fs l) (hn : fs.tree.Reached n) {y : INode} {d : Disk}
    (hw : Rewritten fs fs.openNodes l l' n y d fs') (hy : Reshapes fs n y d)
    (hlinks : y.linksCount = (fs.seen n).linksCount) (htable : SameTable fs fs')
    (hlive : ∀ x ∈ fs.openNodes, (fs'.inode x).linksCount ≠ 0) {f : File → File}
    (hf : d.fileOf y = f (fs.file n)) :
    Serving fs' l' ∧ (fs.volume.modify n f).Agrees fs'.volume := by
  have hshape := hw.shape hy hlinks
  refine ⟨h.revised hn hw.toRevised hshape (by rw [hw.self, hy.type])
    (by rw [htable.openNodes]; exact hw.coherent) (fun fd hfd hvalid => ?_) (fun x hx => ?_), ?_⟩
  · rw [(htable fd).2]
    exact h.node fd hfd ((htable fd).1.symm.trans hvalid)
  · rw [htable.openNodes] at hx
    rw [hw.kept x hx]
    exact ⟨(h.regular x hx).1, (h.regular x hx).2, hlive x hx⟩
  · exact hw.agrees h.toStocked hn hshape ((hw.file_eq hy.size).trans hf) (opened_volume htable hw.kept)

end Stays

end FS

end Naofs
