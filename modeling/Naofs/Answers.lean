import Naofs.Serving
import Naofs.Rewriting

/-!
# Naofs.Answers

The operations that take the path of a file: `getattr`, `readdir`, `chmod`, `chown` and
`truncate`.

With a node of the cache that is not held, a path leads where it leads in the volume
(`Serving.lookup`).  What is then done to the inode under its lock is a `Rewrites`, so
that each operation is a step of the volume.
-/

namespace Naofs

open Function (update update_self update_of_ne)

/-- An absolute path, as FUSE hands it over. -/
def IsPath (path : Name) : Prop := path.head? = some slash ∧ (0 : UInt8) ∉ path

instance (path : Name) : Decidable (IsPath path) := inferInstanceAs (Decidable (_ ∧ _))

/-- A path begins with a slash. -/
theorem IsPath.eq_cons {path : Name} (h : IsPath path) : ∃ rest, path = slash :: rest ∧ (0 : UInt8) ∉ rest := by
  obtain ⟨hhead, h0⟩ := h
  cases path with
  | nil => cases hhead
  | cons c rest =>
      cases hhead
      exact ⟨rest, rfl, fun hmem => h0 (List.mem_cons_of_mem _ hmem)⟩

/-- The blocks that an operation takes from the free list, at most. -/
def Volume.takes (v : Volume) : FS.Operation → Nat
  | .mkdir path _ => (v.leads (parentPath path)).elim 0 fun n =>
      Disk.endNeeds (v.file n).size + FS.firstNeeds .directory
  | .create path _ _ => (v.leads (parentPath path)).elim 0 fun n =>
      Disk.endNeeds (v.file n).size + FS.firstNeeds .regular
  | .truncate path size => (v.leads path).elim 0 fun n =>
      Disk.growNeeds (size - (v.file n).size + 1) (v.file n).size (size - (v.file n).size)
  | .write fi _ size offset => (v.opened fi.fh).elim 0 fun n =>
      Disk.writeNeeds size (size + 1) (v.file n).size 0 offset
  | _ => 0

namespace FS

open Disk (blockCount Rewrites)

/-! ## Paths -/

section Lookup

variable {fs fs₁ : FS} {l : List Nat} {env : Env} {path : Name} {x : NodeId} {n : Nat}

/-- A reference to the file that a path leads to. -/
structure Reaches (fs : FS) (x : NodeId) (n : Nat) (fs₁ : FS) : Prop
    extends Standing fs fs.openNodes fs₁ x n where
  reached : fs.tree.Reached n
  keeps : Keeps fs.openNodes fs fs₁
  table : fs₁.fileTable = fs.fileTable

/-- **Where a path leads.** -/
theorem Serving.lookup (h : Serving fs l) (hfree : ∃ z, z ∉ fs.openNodes) (env : Env) (hpath : IsPath path) :
    (fs.volume.leads path = none ∧ ∃ fs', getFileINode env path fs = .ok (none, fs') ∧
      Serving fs' l ∧ fs.volume.Agrees fs'.volume) ∨
    ∃ x n fs₁, fs.volume.leads path = some n ∧ getFileINode env path fs = .ok (some x, fs₁) ∧
      Reaches fs x n fs₁ := by
  obtain ⟨rest, rfl, h0⟩ := hpath.eq_cons
  obtain ⟨z, hz⟩ := hfree
  have hidle : ∃ z, (fs.inode z).referenceCount = 0 := ⟨z, h.coherent.idle_iff.mpr hz⟩
  have hroot := h.available hidle 0
  obtain ⟨r, fs', hrun, harr⟩ := h.getFileINode_arrives env h0 hroot
  have hkeeps := h.getFileINode_keeps hroot h0 hrun
  have htable := ((Pending.refl fs).getFileINode hrun).table
  rw [h.advance_eq hidle, ← components_slash] at harr
  rw [leads_volume]
  generalize (components (slash :: rest)).foldlM fs.tree.follow 0 = followed at harr ⊢
  cases harr with
  | nowhere hrest => exact .inl ⟨rfl, fs', hrun, h.rest hrest hkeeps (.of_eq htable)⟩
  | found hx hn => exact .inr ⟨_, _, fs', rfl, hrun, hx, hn, hkeeps, htable⟩

/-- The reference is given back. -/
theorem Reaches.put (h : Serving fs l) (hx : Reaches fs x n fs₁) (now : UInt64) :
    ∃ fs', fs₁.iput now x = .ok (0, fs') ∧ Serving fs' l ∧ fs.volume.Agrees fs'.volume := by
  obtain ⟨fs', hput, hrest⟩ := hx.iput now (h.linked n hx.reached)
  obtain ⟨fs'', hput', hret⟩ := hx.coherent.iput now hx.caches (by
    rw [hx.value]
    by_cases hn0 : n = 0
    · exact .inr (.inr hn0)
    · exact .inr (.inl (h.linked n hx.reached hn0)))
  cases hput.symm.trans hput'
  refine ⟨fs', hput, h.rest hrest (hx.keeps.trans hret.keeps) (.of_eq ?_)⟩
  rw [iput_fileTable hput, hx.table]

/-- The volume has the size of the inode. -/
theorem Serving.size_file (h : Serving fs l) (hn : fs.tree.Reached n) :
    (fs.file n).size = (fs.seen n).size := by
  rw [File.size, file, Disk.fileOf]
  dsimp only
  cases hdir : sIsdir (fs.seen n).fileMode with
  | true =>
      have hwhole : (fs.seen n).size % 64 = 0 := (h.directory n hn hdir).whole
      rw [if_pos rfl]
      dsimp only
      rw [List.length_map, Disk.length_entries, Disk.entryCount]
      change 64 * ((fs.seen n).size / 64) = (fs.seen n).size
      omega
  | false =>
      rw [if_neg (by decide)]
      dsimp only
      rw [List.length_map, List.length_range]

/-- The operation returns, and it is a step of the volume. -/
def Answered (env : Env) (context : FuseContext) (fs : FS) (l : List Nat) (op : Operation) : Prop :=
  ∃ reply fs' l' v', op.run env context fs = .ok (reply, fs') ∧
    (Serving fs' l' ∧ l.length ≤ l'.length + fs.volume.takes op) ∧
    fs.volume.Step context op reply v' ∧ v'.Agrees fs'.volume

/-- The attributes of the inode are those of the file in the volume. -/
theorem Reaches.shows (h : Serving fs l) (hx : Reaches fs x n fs₁) :
    (fs.file n).Shows ⟨(fs₁.inode x).access, (fs₁.inode x).modification, (fs₁.inode x).statusChange,
      (fs₁.inode x).fileMode, (fs₁.inode x).size, (fs₁.inode x).ownerUid, (fs₁.inode x).groupUid⟩ := by
  rw [hx.value]
  exact ⟨rfl, (h.size_file hx.reached).symm, rfl, rfl⟩

/-- **`getattr`** is a step of the volume. -/
theorem Serving.getattr (h : Serving fs l) (hfree : ∃ z, z ∉ fs.openNodes) (env : Env)
    (context : FuseContext) (hpath : IsPath path) : Answered env context fs l (.getattr path) := by
  obtain ⟨hnone, fs', hrun, hserving, hagrees⟩ | ⟨x, n, fs₁, hleads, hrun, hx⟩ := h.lookup hfree env hpath
  · refine ⟨_, fs', l, _, ?_, ⟨hserving, Nat.le_add_right ..⟩, .getattr_none hnone, hagrees⟩
    exact NaoM.bind_eq_ok.mpr ⟨_, _, NaoM.bind_eq_ok.mpr ⟨_, _, hrun, rfl⟩, rfl⟩
  · obtain ⟨fs', hput, hserving, hagrees⟩ := hx.put h env.now
    refine ⟨_, fs', l, _, ?_, ⟨hserving, Nat.le_add_right ..⟩, .getattr hleads (hx.shows h), hagrees⟩
    exact NaoM.bind_eq_ok.mpr ⟨_, _, NaoM.bind_eq_ok.mpr ⟨_, _, hrun,
      NaoM.bind_eq_ok.mpr ⟨_, _, rfl, NaoM.bind_eq_ok.mpr ⟨_, _, hput, rfl⟩⟩⟩, rfl⟩

/-- **`readdir`** of a directory. -/
theorem Serving.readdir (h : Serving fs l) (hfree : ∃ z, z ∉ fs.openNodes) (env : Env)
    (context : FuseContext) (hpath : IsPath path)
    (hdir : ∀ n, fs.volume.leads path = some n → (fs.volume.file n).isDirectory) :
    Answered env context fs l (.readdir path) := by
  obtain ⟨hnone, fs', hrun, hserving, hagrees⟩ | ⟨x, n, fs₁, hleads, hrun, hx⟩ := h.lookup hfree env hpath
  · refine ⟨_, fs', l, _, ?_, ⟨hserving, Nat.le_add_right ..⟩, .readdir_none hnone, hagrees⟩
    exact NaoM.bind_eq_ok.mpr ⟨_, _, NaoM.bind_eq_ok.mpr ⟨_, _, hrun, rfl⟩, rfl⟩
  · obtain ⟨fs', hput, hserving, hagrees⟩ := hx.put h env.now
    have hdir' : fs.tree.directory n := (fs.directory_volume n).symm.trans (hdir n hleads)
    have hfile := hx.disk.directoryFile (y := fs₁.inode x) hx.value (h.directory n hx.reached hdir')
    have hfill : fillDirectoryEntries env x fs₁ =
        .ok ([] ++ (List.range (Disk.entryCount (fs₁.inode x) - 0)).map fun i =>
          fs₁.disk.entryAt (fs₁.inode x).dataBlockNums (0 + i), fs₁) :=
      fillDirectoryLoop_eq hfile _ 0 [] (.inl rfl) (Nat.lt_succ_self _)
    have hentries : [] ++ (List.range (Disk.entryCount (fs₁.inode x) - 0)).map (fun i =>
        fs₁.disk.entryAt (fs₁.inode x).dataBlockNums (0 + i)) = fs.disk.entries (fs.seen n).bare := by
      simp only [List.nil_append, Nat.sub_zero, Nat.zero_add]
      exact hx.disk.entries hx.value
    rw [hentries] at hfill
    refine ⟨_, fs', l, _, ?_, ⟨hserving, Nat.le_add_right ..⟩,
      .readdir hleads (hdir n hleads) (Disk.entries_fileOf hdir').symm,
      hagrees⟩
    exact NaoM.bind_eq_ok.mpr ⟨_, _, NaoM.bind_eq_ok.mpr ⟨_, _, hrun,
      NaoM.bind_eq_ok.mpr ⟨_, _, hfill, NaoM.bind_eq_ok.mpr ⟨_, _, hput, rfl⟩⟩⟩, rfl⟩

end Lookup

/-! ## Attributes -/

section Change

variable {fs fs₁ fs' : FS} {l l' : List Nat} {env : Env} {path : Name} {x : NodeId} {n : Nat}
  {y : InCoreINode} {d : Disk}

/-- Of two changes to one inode the last one counts. -/
theorem setInode_setInode (y z : InCoreINode) : (fs.setInode x y).setInode x z = fs.setInode x z := by
  simp only [setInode, Function.update_idem]

/-- One change while the inode is locked. -/
theorem locked_onINode {f : InCoreINode → Disk → Except Fault (InCoreINode × Disk)}
    (hmutex : (fs.inode x).iNodeMutex = false)
    (hf : f { fs.inode x with iNodeMutex := true } fs.disk = .ok (y, d)) :
    ∃ fs₂ fs₃, mutexLock x fs = .ok ((), fs₂) ∧
      fs₂.inode x = { fs.inode x with iNodeMutex := true } ∧ onINode x f fs₂ = .ok ((), fs₃) ∧
      mutexUnlock x fs₃ = .ok ((), { fs with disk := d }.setInode x { y with iNodeMutex := false }) := by
  have hnode : (fs.setInode x { fs.inode x with iNodeMutex := true }).inode x =
      { fs.inode x with iNodeMutex := true } := inode_setInode_self ..
  rw [← hnode] at hf
  refine ⟨fs.setInode x { fs.inode x with iNodeMutex := true }, _, ?_, hnode, onINode_ok hf, ?_⟩
  · rw [mutexLock, lock_of_free hmutex]
    rfl
  · rw [mutexUnlock, unlock, inode_setInode_self]
    exact congrArg (fun fs' => Except.ok ((), fs'))
      ((setInode_setInode _ _).trans (@setInode_setInode { fs with disk := d } _ _ _))

theorem underLock_onINode {f : InCoreINode → Disk → Except Fault (InCoreINode × Disk)}
    (hmutex : (fs.inode x).iNodeMutex = false)
    (hf : f { fs.inode x with iNodeMutex := true } fs.disk = .ok (y, d))
    (hput : ({ fs with disk := d }.setInode x { y with iNodeMutex := false }).iput env.now x =
      .ok (0, fs')) :
    underLock env x (do onINode x f; pure 0) fs = .ok (0, fs') := by
  obtain ⟨fs₂, fs₃, hlock, -, hon, hunlock⟩ := locked_onINode hmutex hf
  exact NaoM.bind_eq_ok.mpr ⟨_, _, hlock, NaoM.bind_eq_ok.mpr ⟨_, _,
    NaoM.bind_eq_ok.mpr ⟨_, _, hon, rfl⟩, NaoM.bind_eq_ok.mpr ⟨_, _, hunlock,
      NaoM.bind_eq_ok.mpr ⟨_, _, hput, rfl⟩⟩⟩⟩

/-- An open file has links. -/
theorem Reaches.linksCount_ne (h : Serving fs l) (hx : Reaches fs x n fs₁) (hmem : x ∈ fs.openNodes) :
    (fs.seen n).linksCount ≠ 0 := by
  have hnum : (fs.inode x).iNodeNumber = n := (hx.kept x hmem).symm.trans hx.caches.number
  refine h.linked n hx.reached fun h0 => ?_
  have hdir := (h.regular x hmem).2
  rw [hnum, h0, h.root] at hdir
  cases hdir

/-- **A file that a path leads to has changed.** -/
theorem Reaches.change (h : Serving fs l) (hx : Reaches fs x n fs₁)
    (hw : Rewrites { fs₁.inode x with iNodeMutex := true } fs₁.disk y d l l')
    (hy : Reshapes fs n y.toINode d) {f : File → File} (hf : d.fileOf y.toINode = f (fs.file n))
    (now : UInt64) :
    ∃ fs', ({ fs₁ with disk := d }.setInode x { y with iNodeMutex := false }).iput now x = .ok (0, fs') ∧
      Serving fs' l' ∧ (fs.volume.modify n f).Agrees fs'.volume := by
  obtain ⟨fs', hput, hrev, hlinks⟩ := hx.toStanding.revise h.toStocked hx.reached
    (hx.linksCount_ne h) hw hy.size now
  refine ⟨fs', hput, h.rewritten hx.reached hrev hy (by rw [hw.links, ← hx.value])
    (.of_eq ((iput_fileTable hput).trans hx.table)) (fun z hz => ?_) hf⟩
  rw [hlinks z, hx.keeps z hz (h.live z hz)]
  exact h.live z hz

/-- Other attributes of a file. -/
structure Attributes (x y : InCoreINode) : Prop where
  number : y.iNodeNumber = x.iNodeNumber
  device : y.deviceNumber = x.deviceNumber
  references : y.referenceCount = x.referenceCount
  links : y.linksCount = x.linksCount
  nums : y.dataBlockNums = x.dataBlockNums
  size : y.size = x.size
  type : y.type = x.type
  noted : y.inodeChanged = true ∨ y.toINode = x.toINode ∧ y.inodeChanged = x.inodeChanged ∧
    y.fileDataChanged = x.fileDataChanged

/-- `assignMode` changes the mode and nothing that the tree depends on. -/
theorem attributes_assignMode (x : InCoreINode) (mode : UInt32) : Attributes x (x.assignMode mode) :=
  ⟨rfl, rfl, rfl, rfl, rfl, rfl, rfl, .inl rfl⟩

/-- `assignOwner` changes the owner and nothing that the tree depends on. -/
theorem attributes_assignOwner (x : InCoreINode) (uid gid : UInt32) :
    Attributes x (x.assignOwner uid gid) := by
  rw [InCoreINode.assignOwner]
  split
  · exact ⟨rfl, rfl, rfl, rfl, rfl, rfl, rfl, .inl rfl⟩
  · split
    · exact ⟨rfl, rfl, rfl, rfl, rfl, rfl, rfl, .inl rfl⟩
    · exact ⟨rfl, rfl, rfl, rfl, rfl, rfl, rfl, .inr ⟨rfl, rfl, rfl⟩⟩

theorem Attributes.rewrites {x : InCoreINode} (ha : Attributes x y) (hfree : FreeBlocks d l)
    (hfits : x.Fits) : Rewrites x d y d l l where
  number := ha.number
  device := ha.device
  references := ha.references
  links := ha.links
  fits := by
    refine ⟨?_, ?_, ?_, ?_, ?_⟩
    · rw [ha.device]
      exact hfits.deviceNumber
    · rw [ha.number]
      exact hfits.iNodeNumber
    · rw [ha.links]
      exact hfits.linksCount
    · rw [ha.nums]
      exact hfits.dataBlockNums
    · rw [ha.size]
      exact hfits.size
  noted := ha.noted
  backend := rfl
  free := hfree
  owned := fun b => by rw [ha.nums, ha.size, Nat.add_comm]
  frame := fun _ _ _ => rfl

/-- **`chmod` and `chown`.** -/
theorem Reaches.assign (h : Serving fs l) (hx : Reaches fs x n fs₁) {assign : InCoreINode → InCoreINode}
    (ha : ∀ x, Attributes x (assign x))
    (hkind : sIsdir (assign { fs₁.inode x with iNodeMutex := true }).fileMode = fs.tree.directory n)
    (env : Env) {f : File → File}
    (hf : f (fs.file n) = ⟨(assign { fs₁.inode x with iNodeMutex := true }).fileMode,
      (assign { fs₁.inode x with iNodeMutex := true }).ownerUid,
      (assign { fs₁.inode x with iNodeMutex := true }).groupUid, (fs.file n).content⟩) :
    ∃ fs', underLock env x (do onINode x (fun iNode d => .ok (assign iNode, d)); pure 0) fs₁ = .ok (0, fs') ∧
      Serving fs' l ∧ (fs.volume.modify n f).Agrees fs'.volume := by
  have ha := ha { fs₁.inode x with iNodeMutex := true }
  generalize hassign : assign { fs₁.inode x with iNodeMutex := true } = y at ha hkind hf
  have hfree : FreeBlocks fs₁.disk l :=
    h.free.frame hx.disk.backend (congrFun hx.disk.blocks 2) fun b _ => congrFun hx.disk.blocks b
  have hw : Rewrites { fs₁.inode x with iNodeMutex := true } fs₁.disk y fs₁.disk l l :=
    ha.rewrites hfree (hx.coherent.fits n x hx.caches)
  have hsize : y.size = (fs.seen n).size := by rw [ha.size, ← hx.value]
  have hnums : y.dataBlockNums = (fs.seen n).dataBlockNums := by rw [ha.nums, ← hx.value]
  have hentries : fs₁.disk.entries y.toINode.bare = fs.disk.entries (fs.seen n).bare := by
    rw [← hx.disk.entries (x := (fs.seen n).bare) rfl]
    simp only [Disk.entries, Disk.entryCount, INode.bare, hsize, hnums]
  have hbytes : fs₁.disk.byteAt = fs.disk.byteAt := by
    funext nums i
    rw [Disk.byteAt, Disk.byteAt, hx.disk.fileBlock, hx.disk.blocks]
  have hfile : fs₁.disk.fileOf y.toINode = f (fs.file n) := by
    rw [hf, file, Disk.fileOf, Disk.fileOf, hkind, hentries, hbytes, hsize, hnums]
    rfl
  have hy : Reshapes fs n y.toINode fs₁.disk := by
    refine ⟨?_, ?_, hkind, fun _ => ⟨hsize, hentries⟩⟩
    · rw [hsize]
      exact h.size n hx.reached
    · rw [ha.type, ← hx.value]
  obtain ⟨fs', hput, hserving, hagrees⟩ := hx.change h hw hy hfile env.now
  refine ⟨fs', underLock_onINode (hx.coherent.unlocked x) ?_ hput, hserving, hagrees⟩
  rw [hassign]

/-- **`chmod`** to a mode that does not say another kind of file. -/
theorem Serving.chmod (h : Serving fs l) (hfree : ∃ z, z ∉ fs.openNodes) (env : Env)
    (context : FuseContext) (hpath : IsPath path) {mode : UInt32}
    (hkind : ∀ n, fs.volume.leads path = some n →
      sIsdir ((fs.volume.file n).chmod mode).mode = (fs.volume.file n).isDirectory) :
    Answered env context fs l (.chmod path mode) := by
  obtain ⟨hnone, fs', hrun, hserving, hagrees⟩ | ⟨x, n, fs₁, hleads, hrun, hx⟩ := h.lookup hfree env hpath
  · refine ⟨_, fs', l, _, ?_, ⟨hserving, Nat.le_add_right ..⟩, .chmod_none hnone, hagrees⟩
    exact NaoM.bind_eq_ok.mpr ⟨_, _, NaoM.bind_eq_ok.mpr ⟨_, _, NaoM.bind_eq_ok.mpr ⟨_, _, hrun, rfl⟩, rfl⟩,
      rfl⟩
  · have hdir : (fs.file n).isDirectory = fs.tree.directory n := fs.directory_volume n
    have hmode : (InCoreINode.assignMode { fs₁.inode x with iNodeMutex := true } mode).fileMode =
        ((fs.file n).chmod mode).mode := by
      change (if (fs₁.inode x).type = .directory then InCoreINode.sIfdir ||| mode else mode) =
        if (fs.file n).isDirectory then InCoreINode.sIfdir ||| mode else mode
      rw [hdir, hx.value, ite_cond_congr (propext (h.typed n hx.reached))]
    obtain ⟨fs', hlock, hserving, hagrees⟩ := hx.assign h
      (fun x => attributes_assignMode x mode)
      (by rw [hmode, ← hdir]; exact hkind n hleads) env (f := (·.chmod mode)) (by
        rw [hmode]
        change _ = File.mk _ (fs₁.inode x).ownerUid (fs₁.inode x).groupUid _
        rw [hx.value]
        rfl)
    refine ⟨_, fs', l, _, ?_, ⟨hserving, Nat.le_add_right ..⟩, .chmod hleads, hagrees⟩
    exact NaoM.bind_eq_ok.mpr ⟨_, _, NaoM.bind_eq_ok.mpr ⟨_, _, NaoM.bind_eq_ok.mpr ⟨_, _, hrun, hlock⟩,
      rfl⟩, rfl⟩

/-- **`chown`.** -/
theorem Serving.chown (h : Serving fs l) (hfree : ∃ z, z ∉ fs.openNodes) (env : Env)
    (context : FuseContext) (hpath : IsPath path) (uid gid : UInt32) :
    Answered env context fs l (.chown path uid gid) := by
  obtain ⟨hnone, fs', hrun, hserving, hagrees⟩ | ⟨x, n, fs₁, hleads, hrun, hx⟩ := h.lookup hfree env hpath
  · refine ⟨_, fs', l, _, ?_, ⟨hserving, Nat.le_add_right ..⟩, .chown_none hnone, hagrees⟩
    exact NaoM.bind_eq_ok.mpr ⟨_, _, NaoM.bind_eq_ok.mpr ⟨_, _, NaoM.bind_eq_ok.mpr ⟨_, _, hrun, rfl⟩, rfl⟩,
      rfl⟩
  · have howner : ∀ y : InCoreINode, (y.assignOwner uid gid).fileMode = y.fileMode ∧
        (y.assignOwner uid gid).ownerUid = (if uid = InCoreINode.noId then y.ownerUid else uid) ∧
        (y.assignOwner uid gid).groupUid = (if gid = InCoreINode.noId then y.groupUid else gid) := by
      intro y
      rw [InCoreINode.assignOwner]
      split <;> split <;> simp_all
    obtain ⟨hmode, huid, hgid⟩ := howner { fs₁.inode x with iNodeMutex := true }
    obtain ⟨fs', hlock, hserving, hagrees⟩ := hx.assign h
      (fun x => attributes_assignOwner x uid gid)
      (by rw [hmode]; change sIsdir (fs₁.inode x).fileMode = _; rw [hx.value]; rfl) env
      (f := (·.chown uid gid)) (by
        rw [hmode, huid, hgid]
        change _ = File.mk (fs₁.inode x).fileMode (if _ then (fs₁.inode x).ownerUid else _)
          (if _ then (fs₁.inode x).groupUid else _) _
        rw [hx.value]
        rfl)
    refine ⟨_, fs', l, _, ?_, ⟨hserving, Nat.le_add_right ..⟩, .chown hleads, hagrees⟩
    exact NaoM.bind_eq_ok.mpr ⟨_, _, NaoM.bind_eq_ok.mpr ⟨_, _, NaoM.bind_eq_ok.mpr ⟨_, _, hrun, hlock⟩,
      rfl⟩, rfl⟩

/-! ## Lengths -/

/-- The inode of a path has the blocks of its file. -/
theorem Standing.apart {held : List NodeId} (h : Stocked fs held l) (hx : Standing fs held fs₁ x n)
    (hn : fs.tree.Reached n) : Apart fs₁.disk { fs₁.inode x with iNodeMutex := true } l where
  capacity := by
    have hstored : dataRegionStart ≤ fs₁.disk.backend.capacity := hx.coherent.stored
    simp only [dataRegionStart] at hstored
    omega
  free := h.free.frame hx.disk.backend (congrFun hx.disk.blocks 2) fun b _ => congrFun hx.disk.blocks b
  own := by
    change Own _ (l ++ fs₁.disk.fileBlocks (fs₁.inode x).dataBlockNums (blockCount (fs₁.inode x).size))
    rw [hx.value, hx.disk.fileBlocks, hx.disk.backend]
    exact h.own n hn
  size := by
    change (fs₁.inode x).size ≤ _
    rw [hx.value]
    exact h.size n hn

/-- **`truncate`** of a regular file. -/
theorem Serving.truncate (h : Serving fs l) (hfree : ∃ z, z ∉ fs.openNodes) (env : Env)
    (context : FuseContext) (hpath : IsPath path) {size : Nat}
    (hresizes : ∀ n, fs.volume.leads path = some n → (fs.volume.file n).isDirectory = false ∧
      fs.disk.Resizes l.length (fs.volume.file n).size size) :
    Answered env context fs l (.truncate path size) := by
  obtain ⟨hnone, fs', hrun, hserving, hagrees⟩ | ⟨x, n, fs₁, hleads, hrun, hx⟩ := h.lookup hfree env hpath
  · refine ⟨_, fs', l, _, ?_, ⟨hserving, Nat.le_add_right ..⟩, .truncate_none hnone, hagrees⟩
    exact NaoM.bind_eq_ok.mpr ⟨_, _, NaoM.bind_eq_ok.mpr ⟨_, _, hrun, rfl⟩, rfl⟩
  · obtain ⟨hregular, hresizes⟩ := hresizes n hleads
    have hdir : fs.tree.directory n = false := (fs.directory_volume n).symm.trans hregular
    have hmode : sIsdir (fs₁.inode x).fileMode = false := by
      rw [hx.value]
      exact hdir
    have hsize : (fs₁.inode x).size = (fs.volume.file n).size := by
      rw [hx.value]
      exact (h.size_file hx.reached).symm
    have hfile : fs₁.disk.fileOf (fs₁.inode x).toINode = fs.file n := by
      have hsame := hx.toSame.file (h.number n hx.reached)
      rw [file, hx.seen n (h.number n hx.reached)] at hsame
      rw [hx.value, hsame]
    obtain ⟨y, d, l', htrunc, hroom, hbecomes⟩ := Disk.truncateINode_becomes
      (hx.toStanding.apart h.toStocked hx.reached)
      (hx.coherent.fits n x hx.caches) hmode env (by
        change fs₁.disk.Resizes _ (fs₁.inode x).size size
        rw [hsize, Disk.Resizes, hx.disk.blocks]
        exact hresizes)
    obtain ⟨fs₂, fs₃, hlock, hnode, hon, hunlock⟩ := locked_onINode
      (f := fun iNode d => d.truncateINode env iNode size) (hx.coherent.unlocked x) htrunc
    obtain ⟨fs', hput, hserving, hagrees⟩ := hx.change h hbecomes.rewrites
      (hbecomes.reshapes hx.value hdir) (f := (·.truncate size))
      (hbecomes.file.trans (congrArg (File.truncate · size) hfile)) env.now
    have htype : (fs₂.inode x).type ≠ .directory := by
      rw [hnode]
      change (fs₁.inode x).type ≠ _
      rw [hx.value]
      exact fun hcon => absurd (hdir.symm.trans ((h.typed n hx.reached).mp hcon)) (by decide)
    change l.length ≤ l'.length + Disk.growNeeds (size - (fs₁.inode x).size + 1) (fs₁.inode x).size
      (size - (fs₁.inode x).size) at hroom
    refine ⟨_, fs', l', _, ?_, ⟨hserving, ?_⟩, .truncate hleads hregular, hagrees⟩
    swap
    · rwa [Volume.takes, hleads, Option.elim, ← hsize]
    refine NaoM.bind_eq_ok.mpr ⟨_, _, NaoM.bind_eq_ok.mpr ⟨_, _, hrun, NaoM.bind_eq_ok.mpr ⟨_, _, hlock,
      NaoM.bind_eq_ok.mpr ⟨_, _, rfl, ?_⟩⟩⟩, rfl⟩
    rw [if_neg htype]
    exact NaoM.bind_eq_ok.mpr ⟨_, _, hon, NaoM.bind_eq_ok.mpr ⟨_, _, hunlock,
      NaoM.bind_eq_ok.mpr ⟨_, _, hput, rfl⟩⟩⟩

end Change

end FS

end Naofs
