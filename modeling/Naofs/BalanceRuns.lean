import Naofs.Mounting
import Naofs.Moving

/-!
# Naofs.BalanceRuns

Reference counts and mutexes over whole runs of the interface.

Between two calls no mutex is held, and the count of an inode covers the descriptors
that are open for it, so that `closeFile` finds a reference to give back.  Three calls
return without giving something back (`Call.Forgets`).  Others do not return at all: they
lock an inode twice, follow a null pointer or read behind a buffer, and what they have taken is
never given back (`Call.Stuck`).  `balanced_of_run` says of a call that is neither, in a volume that is in order
and has what the call needs (`Call.Meets`), that it returns with the counts as they should be.
-/

namespace Naofs

open Function (update update_self update_of_ne)
open InCoreINode (toCInt)

namespace FS

/-- No mutex is held. -/
def Unlocked (fs : FS) : Prop := ∀ x, (fs.inode x).iNodeMutex = false

/-- The counts of `fs'` are those of `fs` and the references in `held`. -/
def Counts (fs : FS) (held : List NodeId) (fs' : FS) : Prop :=
  ∀ x, (fs'.inode x).referenceCount = (fs.inode x).referenceCount + held.count x

/-- The same descriptors are open, for the same inodes. -/
def SameEntries (fs fs' : FS) : Prop := ∀ i,
  (fs'.fileTable i).validEntry = (fs.fileTable i).validEntry ∧
    (fs'.fileTable i).inode = (fs.fileTable i).inode

/-! ## Calls through a descriptor -/

section Descriptors

variable {env : Env} {fs fs' : FS} {fh size offset : Nat} {buf : Nat → UInt8} {node : NodeId}

/-- A call with nothing pending leaves no lock behind. -/
theorem Pending.unlocked (h : Pending fs [] [] fs') (hfree : fs.Unlocked) : fs'.Unlocked := fun x => by
  rw [h.mutexes x, if_neg (by simp)]
  exact hfree x

theorem Pending.even (h : Pending fs [] [] fs') : Counts fs [] fs' := h.counts

/-- A write that passes the end of the file updates the metadata. -/
theorem resize_handle (s : Disk.WriteState) (now : UInt64) (size k : Nat) :
    s.iNode.SameHandle (s.resize now size k) := by
  unfold Disk.WriteState.resize
  split
  · exact s.iNode.sameHandle_updateINodeMetadata _ _ _
  · split
    · exact s.iNode.sameHandle_updateINodeMetadata _ _ _
    · exact .refl _

/-- The inode of a write has the count and the mutex it had. -/
theorem writeLoop_handle {now : UInt64} : ∀ (fuel : Nat) {s t : Disk.WriteState},
    Disk.writeLoop now buf size fuel s = .ok t → s.iNode.SameHandle t.iNode := by
  intro fuel
  induction fuel with
  | zero =>
      intro s t h
      cases h
  | succ fuel ih =>
      intro s t h
      rw [Disk.writeLoop] at h
      split at h
      · obtain ⟨⟨ret, resp, y, d⟩, hbmap, h⟩ := bind_eq_ok.mp h
        dsimp only at h
        split at h
        · cases h
          exact Disk.bmap_handle hbmap
        · have hresize := resize_handle ⟨y, d, resp, s.bytesWritten, s.offset, s.moved⟩ now size
            (min resp.bytesLeftInBlock (InCoreINode.wrapSize (size - s.bytesWritten)))
          exact ((Disk.bmap_handle hbmap).trans hresize).trans (ih h)
      · cases h
        exact .refl _

/-- A call that locks the inode of a descriptor and changes it. -/
theorem descriptor_call {fs₁ : FS} {y : InCoreINode} (hlock : fs.lock node = .ok fs₁)
    (hy : (fs₁.inode node).SameHandle y)
    (hinode : fs'.inode = ((fs₁.setInode node y).unlock node).inode) (htable : fs₁.SameEntries fs') :
    Counts fs [] fs' ∧ (fs.Unlocked → fs'.Unlocked) ∧ fs.SameEntries fs' := by
  have hpend := (Pending.refl fs).lock hlock
  have hdone := (hpend.modify (x := node) (y := y) hy.1 hy.2).unlock (x := node) (by simp)
  rw [List.erase_cons_head] at hdone
  refine ⟨fun x => ?_, fun hfree x => ?_, fun i => ?_⟩
  · rw [hinode]
    exact hdone.counts x
  · rw [hinode]
    exact hdone.unlocked hfree x
  · rw [← hpend.table]
    exact htable i

/-- The offset of an entry does not matter. -/
theorem sameEntries_update (fs : FS) {table : Nat → FileTableEntry} {fd pos : Nat}
    (h : fs'.fileTable = update table fd { table fd with offset := pos })
    (htable : table = fs.fileTable) : fs.SameEntries fs' := fun i => by
  rw [h, htable]
  by_cases hi : i = fd
  · simp [hi]
  · simp [hi]

/-- A write locks and unlocks the inode of the descriptor, on both ways out. -/
theorem even_writeToFile {ret : Int} (h : writeToFile env fh buf size offset fs = .ok (ret, fs')) :
    Counts fs [] fs' ∧ (fs.Unlocked → fs'.Unlocked) ∧ fs.SameEntries fs' := by
  obtain ⟨⟨e, found⟩, -, h⟩ := bind_eq_ok.mp h
  cases found with
  | none =>
      cases h
      exact ⟨fun _ => rfl, id, fun _ => ⟨rfl, rfl⟩⟩
  | some fd =>
      dsimp only at h
      split at h
      · cases h
      · next node hnode =>
          obtain ⟨fs₁, hlock, h⟩ := bind_eq_ok.mp h
          unfold writeLocked at h
          split at h
          · cases h
            refine descriptor_call hlock (.refl _) ?_ fun _ => ⟨rfl, rfl⟩
            simp [unlock, inode_setInode]
          · obtain ⟨s, hloop, h⟩ := bind_eq_ok.mp h
            cases h
            exact descriptor_call hlock (writeLoop_handle _ hloop) rfl (sameEntries_update fs₁ rfl rfl)

/-- So does a read. -/
theorem even_readFile {r : Int × (Nat → UInt8)}
    (h : readFile env fh buf size offset fs = .ok (r, fs')) :
    Counts fs [] fs' ∧ (fs.Unlocked → fs'.Unlocked) ∧ fs.SameEntries fs' := by
  obtain ⟨⟨e, found⟩, -, h⟩ := bind_eq_ok.mp h
  cases found with
  | none =>
      cases h
      exact ⟨fun _ => rfl, id, fun _ => ⟨rfl, rfl⟩⟩
  | some fd =>
      dsimp only at h
      split at h
      · cases h
      · next node hnode =>
          obtain ⟨fs₁, hlock, h⟩ := bind_eq_ok.mp h
          obtain ⟨s, hread, h⟩ := bind_eq_ok.mp h
          simp only [Except.ok.injEq, Prod.mk.injEq] at h
          obtain ⟨-, rfl⟩ := h
          refine descriptor_call hlock (.refl _) ?_ (sameEntries_update fs₁ rfl rfl)
          funext x
          simp [unlock, inode, setInode]

end Descriptors

/-! ## References of open descriptors -/

/-- The descriptor is open for the inode. -/
def Opened (fs : FS) (fd : Int) (node : NodeId) : Prop :=
  ∃ i : Nat, fd = i ∧ i < maxFileDescriptors ∧ (fs.fileTable i).validEntry = true ∧
    (fs.fileTable i).inode = some node

/-- The descriptors that are open for an inode. -/
def openFor (fs : FS) (node : NodeId) : Finset Nat :=
  (Finset.range maxFileDescriptors).filter fun i =>
    (fs.fileTable i).validEntry = true ∧ (fs.fileTable i).inode = some node

theorem mem_openFor {fs : FS} {node : NodeId} {i : Nat} : i ∈ fs.openFor node ↔
    i < maxFileDescriptors ∧ (fs.fileTable i).validEntry = true ∧
      (fs.fileTable i).inode = some node := by
  rw [openFor, Finset.mem_filter, Finset.mem_range]

/-- The same descriptors are open for an inode. -/
theorem SameEntries.openFor {fs fs' : FS} (h : fs.SameEntries fs') (x : NodeId) :
    fs'.openFor x = fs.openFor x := by
  ext i
  rw [mem_openFor, mem_openFor, (h i).1, (h i).2]

/-- No mutex is held, each open descriptor has an inode, and there is a reference for it. -/
structure Settled (fs : FS) : Prop where
  unlocked : fs.Unlocked
  node : ∀ i, (fs.fileTable i).validEntry = true → (fs.fileTable i).inode.isSome
  covered : ∀ x, (fs.openFor x).card ≤ (fs.inode x).referenceCount

section Settled

variable {env : Env} {fs fs' : FS}

/-- A call that gives back what it takes leaves things settled. -/
theorem Settled.even (h : fs.Settled) (hcounts : Counts fs [] fs') (hfree : fs'.Unlocked)
    (htable : fs.SameEntries fs') : fs'.Settled where
  unlocked := hfree
  node i hi := by
    rw [(htable i).2]
    exact h.node i ((htable i).1.symm.trans hi)
  covered x := by
    rw [htable.openFor x, hcounts x]
    exact h.covered x

/-- An entry is filled, with a reference for it. -/
theorem Settled.fill (h : fs.Settled) {node : NodeId} {fd : Nat} {entry : FileTableEntry}
    (hentry : entry.inode = some node) (hcounts : Counts fs [node] fs') (hfree : fs'.Unlocked)
    (htable : fs'.fileTable = update fs.fileTable fd entry) : fs'.Settled where
  unlocked := hfree
  node i hi := by
    rw [htable] at hi ⊢
    by_cases hfd : i = fd
    · rw [hfd, update_self, hentry]
      rfl
    · rw [update_of_ne hfd] at hi ⊢
      exact h.node i hi
  covered x := by
    have hcard : (fs'.openFor x).card ≤ (fs.openFor x).card + [node].count x := by
      by_cases hx : x = node
      · have hsub : fs'.openFor x ⊆ insert fd (fs.openFor x) := by
          intro i hi
          rw [mem_openFor, htable] at hi
          by_cases hfd : i = fd
          · exact hfd ▸ Finset.mem_insert_self _ _
          · rw [update_of_ne hfd] at hi
            exact Finset.mem_insert_of_mem (mem_openFor.mpr hi)
        rw [hx] at hsub ⊢
        rw [List.count_singleton_self]
        exact (Finset.card_le_card hsub).trans (Finset.card_insert_le _ _)
      · have hsub : fs'.openFor x ⊆ fs.openFor x := by
          intro i hi
          rw [mem_openFor, htable] at hi
          by_cases hfd : i = fd
          · rw [hfd, update_self, hentry] at hi
            exact absurd (Option.some.inj hi.2.2).symm hx
          · rw [update_of_ne hfd] at hi
            exact mem_openFor.mpr hi
        exact (Finset.card_le_card hsub).trans (Nat.le_add_right _ _)
    rw [hcounts x]
    have := h.covered x
    omega

/-- An entry is closed and its reference given back. -/
theorem Settled.close (h : fs.Settled) {node : NodeId} {fd : Nat}
    (hopen : fd ∈ fs.openFor node) (hcounts : Counts fs' [node] fs) (hfree : fs'.Unlocked)
    (htable : fs'.fileTable = update fs.fileTable fd { fs.fileTable fd with validEntry := false }) :
    fs'.Settled where
  unlocked := hfree
  node i hi := by
    rw [htable] at hi ⊢
    by_cases hfd : i = fd
    · rw [hfd, update_self] at hi
      cases hi
    · rw [update_of_ne hfd] at hi ⊢
      exact h.node i hi
  covered x := by
    have hsub : fs'.openFor x ⊆ (fs.openFor x).erase fd := by
      intro i hi
      rw [mem_openFor, htable] at hi
      by_cases hfd : i = fd
      · rw [hfd, update_self] at hi
        cases hi.2.1
      · rw [update_of_ne hfd] at hi
        exact Finset.mem_erase.mpr ⟨hfd, mem_openFor.mpr hi⟩
    have hcard := Finset.card_le_card hsub
    have hcovered := h.covered x
    rw [hcounts x] at hcovered
    by_cases hx : x = node
    · rw [hx] at hcard hcovered ⊢
      rw [Finset.card_erase_of_mem hopen] at hcard
      rw [List.count_singleton_self] at hcovered
      omega
    · rw [List.count_singleton, if_neg (by simpa using Ne.symm hx)] at hcovered
      have := Finset.card_erase_le (s := fs.openFor x) (a := fd)
      omega

/-- `iput` of an inode that has a reference. -/
theorem counts_iput {now : UInt64} {node : NodeId} {r : Int} (hfree : fs.Unlocked)
    (hcount : 0 < (fs.inode node).referenceCount) (h : fs.iput now node = .ok (r, fs')) :
    Counts fs' [node] fs ∧ fs'.Unlocked := by
  -- seen from the state without this reference, the reference was handed out
  obtain ⟨fs₀, hfs₀⟩ : ∃ fs₀, fs₀ = fs.setInode node
      { fs.inode node with referenceCount := (fs.inode node).referenceCount - 1 } := ⟨_, rfl⟩
  have hback : ∀ x, (fs.inode x).referenceCount =
      (fs₀.inode x).referenceCount + [node].count x := by
    intro x
    rw [hfs₀, inode_setInode]
    by_cases hx : x = node
    · simp [hx]
      omega
    · simp [hx, Ne.symm hx]
  have hmutex : ∀ x, (fs.inode x).iNodeMutex = (fs₀.inode x).iNodeMutex := by
    intro x
    rw [hfs₀, inode_setInode]
    by_cases hx : x = node
    · simp [hx]
    · simp [hx]
  have hpend : Pending fs₀ [node] [] fs :=
    ⟨hback, by simpa using hmutex, by simp, List.nodup_nil, by rw [hfs₀]; rfl⟩
  have hdone := hpend.put h
  refine ⟨fun x => ?_, hdone.unlocked fun x => (hmutex x).symm.trans (hfree x)⟩
  have heq : (fs'.inode x).referenceCount = (fs₀.inode x).referenceCount := hdone.counts x
  rw [hback x, heq]

/-- A file without a name whose blocks can be freed, and its number put on the inode list. -/
structure Discardable (fs : FS) (l : List Nat) (x : NodeId) : Prop where
  changed : (fs.inode x).inodeChanged = true
  size : (fs.inode x).size ≤ maxFileSize
  own : Own fs.disk.backend (l ++ fs.nodeBlocks x)
  data : ∀ b ∈ l ++ fs.nodeBlocks x, dataRegionStart ≤ b
  link : fs.nodeBlocks x = [] ∨ slot (fs.disk.blocks 2) 127 ≠ 0
  list : listed (fs.disk.blocks 3) 0 = 0

/-- A reference can be given back: it is not the last one, or the file has a name, or it can be
discarded. -/
def Closable (fs : FS) (held : List NodeId) (l : List Nat) (x : NodeId) : Prop :=
  1 < held.count x ∨ (fs.inode x).linksCount ≠ 0 ∨ (fs.inode x).iNodeNumber = 0 ∨ fs.Discardable l x

/-- **`closeFile`**, also of the last reference to a file that has lost its name. -/
theorem Settled.closeFile_returns {held : List NodeId} {l : List Nat} (h : fs.Settled) (hc : Coherent fs held)
    (hfree : FreeBlocks fs.disk l) {fi : FuseFileInfo} (hpos : 0 ≤ toCInt fi.fh)
    (hclosable : ∀ x, fs.Opened (toCInt fi.fh) x → fs.Closable held l x) : Returns (FS.closeFile env fi) fs := by
  obtain ⟨i, hi⟩ := Int.eq_ofNat_of_zero_le hpos
  have hfd := getFileDescriptor_natCast fs i
  rw [← hi] at hfd
  by_cases hvalid : i < maxFileDescriptors ∧ (fs.fileTable i).validEntry = true
  · rw [if_pos hvalid] at hfd
    obtain ⟨x, hx⟩ := Option.isSome_iff_exists.mp (h.node i hvalid.2)
    have hheld : x ∈ held := by
      rw [← List.count_pos_iff, ← hc.counts x]
      exact (Finset.card_pos.mpr ⟨i, mem_openFor.mpr ⟨hvalid.1, hvalid.2, hx⟩⟩).trans_le (h.covered x)
    have hcoherent : Coherent { fs with
        fileTable := update fs.fileTable i { fs.fileTable i with validEntry := false } } (x :: held.erase x) :=
      (hc.retable _).perm (List.perm_cons_erase hheld).symm
    have hcaches := hcoherent.caches_of_held (x := x) List.mem_cons_self
    obtain ⟨fs', hput⟩ : ∃ fs', { fs with
        fileTable := update fs.fileTable i { fs.fileTable i with validEntry := false } }.iput env.now x =
        .ok (0, fs') := by
      by_cases hshared : x ∈ held.erase x ∨ (fs.inode x).linksCount ≠ 0 ∨ (fs.inode x).iNodeNumber = 0
      · obtain ⟨fs', hput, -⟩ := hcoherent.iput env.now hcaches hshared
        exact ⟨fs', hput⟩
      · simp only [not_or, not_not] at hshared
        obtain ⟨hlast, hlinks, h0⟩ := hshared
        obtain hcount | hlive | hroot | hdiscard := hclosable x ⟨i, hi, hvalid.1, hvalid.2, hx⟩
        · refine absurd ?_ hlast
          rw [← List.count_pos_iff, List.count_erase_self]
          omega
        · exact absurd hlinks hlive
        · exact absurd hroot h0
        · obtain ⟨fs', l', k, hput, -⟩ := hcoherent.release hlast hcaches h0 hlinks hdiscard.changed
            hdiscard.size hfree hdiscard.own hdiscard.data hdiscard.link hdiscard.list env.now
          exact ⟨fs', hput⟩
    refine ⟨(0, fs'), bind_eq_ok.mpr ⟨_, hfd, ?_⟩⟩
    dsimp only
    split
    · next hnone =>
        rw [update_self] at hnone
        cases hnone.symm.trans hx
    · next node hnode =>
        rw [update_self] at hnode
        cases hnode.symm.trans hx
        exact hput
  · rw [if_neg hvalid] at hfd
    exact ⟨(0, fs), bind_eq_ok.mpr ⟨_, hfd, rfl⟩⟩

end Settled

/-! ## Runs of the interface -/

/-- The calls of the interface. -/
inductive Call where
  | attrPopulate (path : Name)
  | changeMode (path : Name) (mode : UInt32)
  | changeOwner (path : Name) (uid gid : UInt32)
  | createFile (path : Name) (fileType : INodeType) (mode uid gid : UInt32)
  | readDirectory (path : Name)
  | truncateFile (path : Name) (size : Nat)
  | unlinkFile (path : Name)
  | unlinkDir (path : Name) (force : Bool)
  | renameFile (fromPath toPath : Name)
  | openFile (path : Name) (fi : FuseFileInfo) (pid : Int)
  | closeFile (fi : FuseFileInfo)
  | writeToFile (fh : Nat) (buf : Nat → UInt8) (size offset : Nat)
  | readFile (fh : Nat) (buf : Nat → UInt8) (size offset : Nat)

namespace Call

/-- The return value of a call, and its handle if it opens a file. -/
def run (env : Env) : Call → NaoM (Int × Option Nat)
  | .attrPopulate path => do
      let (retVal, _) ← FS.attrPopulate env path
      pure (retVal, none)
  | .changeMode path mode => do pure (← FS.changeMode env path mode, none)
  | .changeOwner path uid gid => do pure (← FS.changeOwner env path uid gid, none)
  | .createFile path fileType mode uid gid => do
      pure (← FS.createFile env path fileType mode uid gid, none)
  | .readDirectory path => do
      let (retVal, _) ← FS.readDirectory env path
      pure (retVal, none)
  | .truncateFile path size => do pure (← FS.truncateFile env path size, none)
  | .unlinkFile path => do pure (← FS.unlinkFile env path, none)
  | .unlinkDir path force => do pure (← FS.unlinkDir env path force, none)
  | .renameFile fromPath toPath => do pure (← FS.renameFile env fromPath toPath, none)
  | .openFile path fi pid => do
      let (retVal, fi) ← FS.openFile env path fi pid
      pure (retVal, some fi.fh)
  | .closeFile fi => do pure (← FS.closeFile env fi, none)
  | .writeToFile fh buf size offset => do pure (← FS.writeToFile env fh buf size offset, none)
  | .readFile fh buf size offset => do
      let (retVal, _) ← FS.readFile env fh buf size offset
      pure (retVal, none)

/-- What a call should do to the counts and the mutexes. -/
def Law (fs : FS) (call : Call) (ret : Int) (fh : Option Nat) (fs' : FS) : Prop :=
  fs'.Unlocked ∧
    match call with
    | .openFile .. =>
        -- the reference is that of the descriptor
        (ret = 0 → ∃ node, Counts fs [node] fs' ∧
          ∀ i ∈ fh, 0 ≤ toCInt i → fs'.Opened (toCInt i) node) ∧
        (ret ≠ 0 → Counts fs [] fs')
    | .closeFile fi => ∀ node, fs.Opened (toCInt fi.fh) node → Counts fs' [node] fs
    | _ => Counts fs [] fs'

/-- What has been taken is not given back: a file is created under a name that its directory
has, a directory truncated, or a file moved to a directory that does not exist. -/
def Forgets (env : Env) (fs : FS) : Call → Prop
  | .createFile path fileType _ _ _ => fileType ≠ .free ∧ NameTaken env path fs
  | .truncateFile path _ => NamesDirectory env path fs
  | .renameFile fromPath toPath => ParentMissing env fromPath toPath fs
  | _ => False

/-- The call does not come to its end: `unlinkFile` locks its directory again, as a file of that
directory, `renameFile` the directory to which it moves that directory itself, `unlinkDir`
locks the inode of a null pointer, and `readDirectory` reads behind its buffer, since it takes the
answer -1 of the search for a count. -/
def Stuck (fs : FS) (held : List NodeId) (env : Env) : Call → Prop
  | .readDirectory path => IsPath path ∧ (∃ z, z ∉ held) ∧
      ∃ n, fs.leads path = some n ∧ fs.tree.directory n = false ∧ 64 ≤ (fs.seen n).size
  | .unlinkFile path => IsPath path ∧ (∃ z, z ∉ held) ∧ env.entry.iNodeNum < 65536 ∧
      ∃ n, fs.leads (parentPath path) = some n ∧ fs.tree.directory n ∧
        fs.tree.entry n (lastName path) = some n
  | .unlinkDir path _ => IsPath path ∧ (∃ z, z ∉ held) ∧ fs.leads path = none
  | .renameFile fromPath toPath => IsPath fromPath ∧ IsPath toPath ∧ Roomy held ∧
      ∃ n, fs.leads fromPath = some n ∧ fs.leads (parentPath toPath) = some n ∧
        (fs.tree.directory n → fs.tree.entry n (lastName toPath) = none)
  | _ => False

/-- What a call needs to come to its end, if `held` are the references of the open descriptors
and `l` is the free list.  Nothing is said of calls that read or write through a descriptor. -/
def Finds (fs : FS) (held : List NodeId) (l : List Nat) (env : Env) : Call → Prop
  | .attrPopulate path => IsPath path ∧ ∃ z, z ∉ held
  | .changeMode path _ => IsPath path ∧ ∃ z, z ∉ held
  | .changeOwner path _ _ => IsPath path ∧ ∃ z, z ∉ held
  | .createFile path fileType _ _ _ => IsPath path ∧ Roomy held ∧ Sustains fs l fileType path
  | .readDirectory path => IsPath path ∧ (∃ z, z ∉ held) ∧
      ∀ n, fs.leads path = some n → fs.tree.directory n ∨ (fs.seen n).size < 64
  | .truncateFile path size => IsPath path ∧ (∃ z, z ∉ held) ∧ ∀ n, fs.leads path = some n →
      (fs.seen n).type ≠ .directory ∧ fs.tree.directory n = false ∧
        fs.disk.Resizes l.length (fs.seen n).size size
  | .unlinkFile path => IsPath path ∧ Ready env fs held ∧
      ∀ n, fs.leads (parentPath path) = some n → fs.tree.directory n → fs.Unlinkable held n (lastName path)
  | .unlinkDir path force => IsPath path ∧ Ready env fs held ∧
      (∃ n, fs.leads path = some n ∧
        (force = true → n ≠ 0 → (fs.seen n).type = .directory → (fs.seen n).size ≤ 128 * 64)) ∧
      ∀ n, fs.leads (parentPath path) = some n → fs.tree.directory n → fs.Unlinkable held n (lastName path)
  | .renameFile fromPath toPath => IsPath fromPath ∧ IsPath toPath ∧ lastName fromPath ≠ [] ∧
      Ready env fs held ∧ ∀ m n, fs.leads fromPath = some m → fs.leads (parentPath toPath) = some n →
        fs.Movable held l fromPath (lastName toPath) n m
  | .openFile path _ _ => IsPath path ∧ ∃ z, z ∉ held
  | .closeFile fi => 0 ≤ toCInt fi.fh ∧ ∀ x, fs.Opened (toCInt fi.fh) x → fs.Closable held l x
  | .writeToFile .. => False
  | .readFile .. => False

/-- The call gives back what it takes, and finds what it needs in a volume that is in order. -/
def Meets (env : Env) (fs : FS) (call : Call) : Prop :=
  ¬ call.Forgets env fs ∧ ∃ held l, Stocked fs held l ∧ call.Finds fs held l env

def AnyStep (fs fs' : FS) : Prop := ∃ (env : Env) (call : Call) (r : Int × Option Nat),
  call.run env fs = .ok (r, fs')

/-- A call has returned, and gives back what it takes. -/
def KeepingStep (fs fs' : FS) : Prop := ∃ (env : Env) (call : Call) (r : Int × Option Nat),
  ¬ call.Forgets env fs ∧ call.run env fs = .ok (r, fs')

section Steps

variable {env : Env} {fs fs' : FS} {call : Call} {ret : Int} {fh : Option Nat}

/-- A reference that is kept shows in the counts. -/
theorem not_counts_of_kept {node : NodeId} {locked : List NodeId}
    (h : Pending fs [node] locked fs') : ¬ Counts fs [] fs' := by
  intro heven
  have hnode := heven node
  rw [h.counts node, List.count_singleton_self, List.count_nil] at hnode
  omega

/-- A call that gives back what it takes. -/
theorem settled_of_pending (h : fs.Settled) (hp : Pending fs [] [] fs') :
    (fs'.Unlocked ∧ Counts fs [] fs') ∧ fs'.Settled := by
  have hfree := hp.unlocked h.unlocked
  exact ⟨⟨hfree, hp.even⟩, h.even hp.even hfree fun i => by rw [hp.table]; exact ⟨rfl, rfl⟩⟩

/-- **`openFile`** keeps one reference if it succeeds, whether a descriptor was free or not. -/
theorem settled_openFile (h : fs.Settled) {path : Name} {fi fi' : FuseFileInfo} {pid : Int}
    (heq : FS.openFile env path fi pid fs = .ok ((ret, fi'), fs')) :
    Law fs (.openFile path fi pid) ret (some fi'.fh) fs' ∧ fs'.Settled := by
  obtain ⟨hget, rfl, rfl⟩ | ⟨node, fs₁, fs₂, hget, hlock, rfl, hcases⟩ := openFile_cases heq
  · obtain ⟨⟨hfree, heven⟩, hsettled⟩ := settled_of_pending h ((Pending.refl fs).getFileINode hget)
    exact ⟨⟨hfree, fun hcon => absurd hcon (by decide), fun _ => heven⟩, hsettled⟩
  · have hlocked := ((Pending.refl fs).getFileINode hget).lock hlock
    have hdone := hlocked.unlock (x := node) (by simp)
    rw [List.erase_cons_head] at hdone
    have hfree : ∀ x, ((fs₂.unlock node).inode x).iNodeMutex = false := fun x => by
      rw [hdone.mutexes x, if_neg (by simp)]
      exact h.unlocked x
    obtain ⟨fd, hfd, -, hfh, offset, rfl⟩ | ⟨-, hfh, rfl⟩ := hcases
    · refine ⟨⟨hfree, fun _ => ⟨node, hdone.counts, ?_⟩, fun hcon => absurd rfl hcon⟩, ?_⟩
      · intro i hi _
        cases hi
        rw [hfh, InCoreINode.toCInt_of_lt (by omega)
          (by simp only [maxFileDescriptors] at hfd; omega)]
        exact ⟨fd, rfl, hfd, by simp [unlock, setInode]⟩
      · obtain ⟨entry, hentry⟩ : ∃ entry : FileTableEntry,
            entry = ⟨some node, pid, fi.flags, offset, true⟩ := ⟨_, rfl⟩
        have htable : (FS.unlock { fs₂ with fileTable := update fs₂.fileTable fd entry }
            node).fileTable = update fs.fileTable fd entry := by
          rw [← hlocked.table]
          rfl
        rw [← hentry]
        exact h.fill (by rw [hentry]) hdone.counts hfree htable
    · refine ⟨⟨hfree, fun _ => ⟨node, hdone.counts, ?_⟩, fun hcon => absurd rfl hcon⟩, ?_⟩
      · intro i hi hpos
        cases hi
        rw [hfh, InCoreINode.toCInt_wrapSize (by decide) (by decide)] at hpos
        cases hpos
      · refine ⟨hfree, fun i hi => ?_, fun x => ?_⟩
        · rw [hdone.table] at hi ⊢
          exact h.node i hi
        have hopen : (fs₂.unlock node).openFor x = fs.openFor x :=
          SameEntries.openFor (fun i => by rw [hdone.table]; exact ⟨rfl, rfl⟩) x
        rw [hopen, hdone.counts x]
        exact (h.covered x).trans (Nat.le_add_right _ _)

/-- A descriptor that is found is open. -/
theorem getFileDescriptor_some {fd e : Int} {i : Nat}
    (h : fs.getFileDescriptor fd = .ok (e, some i)) :
    fd = i ∧ i < maxFileDescriptors ∧ (fs.fileTable i).validEntry = true := by
  unfold getFileDescriptor at h
  split at h
  · cases h
  · split at h
    · cases h
    · split at h
      · cases h
      · next hvalid =>
          cases h
          exact ⟨by omega, by omega, by simpa using hvalid⟩

/-- **`closeFile`** gives back the reference of the descriptor. -/
theorem settled_closeFile (h : fs.Settled) {fi : FuseFileInfo}
    (heq : FS.closeFile env fi fs = .ok (ret, fs')) :
    Law fs (.closeFile fi) ret fh fs' ∧ fs'.Settled := by
  obtain ⟨⟨e, found⟩, hfd, heq⟩ := bind_eq_ok.mp heq
  cases found with
  | none =>
      cases heq
      refine ⟨⟨h.unlocked, ?_⟩, h⟩
      rintro node ⟨i, hi, hlt, hvalid, -⟩
      rw [hi, getFileDescriptor_natCast, if_pos ⟨hlt, hvalid⟩] at hfd
      cases hfd
  | some fd =>
      obtain ⟨hfh, hlt, hvalid⟩ := getFileDescriptor_some hfd
      dsimp only at heq
      split at heq
      · cases heq
      · next node hnode =>
          rw [update_self] at hnode
          have hopen : fd ∈ fs.openFor node := mem_openFor.mpr ⟨hlt, hvalid, hnode⟩
          have hcount : 0 < (fs.inode node).referenceCount :=
            (Finset.card_pos.mpr ⟨fd, hopen⟩).trans_le (h.covered node)
          obtain ⟨hcounts, hfree⟩ := counts_iput (by exact h.unlocked) (by exact hcount) heq
          refine ⟨⟨hfree, ?_⟩, h.close hopen hcounts hfree (iput_fileTable heq)⟩
          rintro node' ⟨i, hi, -, -, hnode'⟩
          cases Int.ofNat_inj.mp (hfh.symm.trans hi)
          cases hnode.symm.trans hnode'
          exact hcounts

/-- A call that returns either gives back what it takes, as it should, or neither. -/
theorem run_cases (h : fs.Settled) (hrun : call.run env fs = .ok ((ret, fh), fs')) :
    (¬ call.Forgets env fs ∧ call.Law fs ret fh fs' ∧ fs'.Settled) ∨
      call.Forgets env fs ∧ ¬ call.Law fs ret fh fs' := by
  have hbalanced {α : Type} {m : NaoM α} {a : α} (hm : Balanced m) (heq : m fs = .ok (a, fs')) :=
    settled_of_pending h (hm (.refl fs) heq)
  cases call with
  | attrPopulate path =>
      obtain ⟨a, fs₁, hcall, hret⟩ := NaoM.bind_eq_ok.mp hrun
      cases hret
      exact .inl ⟨id, hbalanced balanced_attrPopulate hcall⟩
  | changeMode path mode =>
      obtain ⟨a, fs₁, hcall, hret⟩ := NaoM.bind_eq_ok.mp hrun
      cases hret
      exact .inl ⟨id, hbalanced balanced_changeMode hcall⟩
  | changeOwner path uid gid =>
      obtain ⟨a, fs₁, hcall, hret⟩ := NaoM.bind_eq_ok.mp hrun
      cases hret
      exact .inl ⟨id, hbalanced balanced_changeOwner hcall⟩
  | createFile path fileType mode uid gid =>
      obtain ⟨a, fs₁, hcall, hret⟩ := NaoM.bind_eq_ok.mp hrun
      cases hret
      obtain ⟨htype, htaken, node, hkept⟩ | ⟨hmeets, hdone⟩ := createFile_cases (.refl fs) hcall
      · exact .inr ⟨⟨htype, htaken⟩, fun hlaw => not_counts_of_kept hkept hlaw.2⟩
      · exact .inl ⟨fun hcon => hmeets.elim hcon.1 fun hnot => hnot hcon.2, settled_of_pending h hdone⟩
  | readDirectory path =>
      obtain ⟨a, fs₁, hcall, hret⟩ := NaoM.bind_eq_ok.mp hrun
      cases hret
      exact .inl ⟨id, hbalanced balanced_readDirectory hcall⟩
  | truncateFile path size =>
      obtain ⟨a, fs₁, hcall, hret⟩ := NaoM.bind_eq_ok.mp hrun
      cases hret
      obtain ⟨hdir, node, hkept⟩ | ⟨hmeets, hdone⟩ := truncateFile_cases (.refl fs) hcall
      · exact .inr ⟨hdir, fun hlaw => not_counts_of_kept hkept hlaw.2⟩
      · exact .inl ⟨hmeets, settled_of_pending h hdone⟩
  | unlinkFile path =>
      obtain ⟨a, fs₁, hcall, hret⟩ := NaoM.bind_eq_ok.mp hrun
      cases hret
      exact .inl ⟨id, hbalanced balanced_unlinkFile hcall⟩
  | unlinkDir path force =>
      obtain ⟨a, fs₁, hcall, hret⟩ := NaoM.bind_eq_ok.mp hrun
      cases hret
      exact .inl ⟨id, hbalanced balanced_unlinkDir hcall⟩
  | renameFile fromPath toPath =>
      obtain ⟨a, fs₁, hcall, hret⟩ := NaoM.bind_eq_ok.mp hrun
      cases hret
      obtain ⟨hmissing, node, hkept⟩ | ⟨hmeets, hdone⟩ := renameFile_cases (.refl fs) hcall
      · exact .inr ⟨hmissing, fun hlaw => not_counts_of_kept hkept hlaw.2⟩
      · exact .inl ⟨hmeets, settled_of_pending h hdone⟩
  | openFile path fi pid =>
      obtain ⟨a, fs₁, hcall, hret⟩ := NaoM.bind_eq_ok.mp hrun
      cases hret
      exact .inl ⟨id, settled_openFile h hcall⟩
  | closeFile fi =>
      obtain ⟨a, fs₁, hcall, hret⟩ := NaoM.bind_eq_ok.mp hrun
      cases hret
      exact .inl ⟨id, settled_closeFile h hcall⟩
  | writeToFile fh buf size offset =>
      obtain ⟨a, fs₁, hcall, hret⟩ := NaoM.bind_eq_ok.mp hrun
      cases hret
      obtain ⟨heven, hfree, htable⟩ := even_writeToFile hcall
      exact .inl ⟨id, ⟨hfree h.unlocked, heven⟩, h.even heven (hfree h.unlocked) htable⟩
  | readFile fh buf size offset =>
      obtain ⟨a, fs₁, hcall, hret⟩ := NaoM.bind_eq_ok.mp hrun
      cases hret
      obtain ⟨heven, hfree, htable⟩ := even_readFile hcall
      exact .inl ⟨id, ⟨hfree h.unlocked, heven⟩, h.even heven (hfree h.unlocked) htable⟩

end Steps

section Runs

variable {getHash : Nat → Nat → Fin inodeHashSize} {d : Disk} {env : Env} {fs fs₁ fs₂ : FS}
  {call : Call} {ret : Int} {fh : Option Nat}

/-- At the mount no descriptor is open. -/
theorem settled_initial (h0 : FS.mount getHash d = .ok fs) : fs.Settled := by
  have hcache := CacheState.Inv.initial h0
  obtain ⟨cache, -, hfs⟩ := bind_eq_ok.mp h0
  refine ⟨hcache.unlocked, fun i hi => ?_, fun x => ?_⟩
  · cases hfs
    cases hi
  have hnone : fs.openFor x = ∅ := by
    cases hfs
    exact Finset.filter_false_of_mem fun i _ hcon => by cases hcon.1
  rw [hnone, Finset.card_empty]
  exact Nat.zero_le _

/-- Each call of the run leaves things settled. -/
theorem settled_of_run (h0 : FS.mount getHash d = .ok fs) (hrun : Relation.ReflTransGen KeepingStep fs fs₁) :
    fs₁.Settled := by
  induction hrun with
  | refl => exact settled_initial h0
  | tail _ hstep ih =>
      obtain ⟨env, call, r, hkeeps, hstep⟩ := hstep
      obtain ⟨-, -, hnext⟩ | ⟨hforgets, -⟩ := run_cases ih hstep
      · exact hnext
      · exact absurd hforgets hkeeps

/-- A call that finds what it needs returns. -/
theorem Finds.returns {held : List NodeId} {l : List Nat} (hsettled : fs.Settled) (h : Stocked fs held l)
    (hfinds : call.Finds fs held l env) : Returns (call.run env) fs := by
  have hbind {α : Type} {m : NaoM α} (f : α → Int × Option Nat) (hm : Returns m fs) :
      Returns (m >>= fun a => Pure.pure (f a)) fs := by
    obtain ⟨⟨a, fs'⟩, ha⟩ := hm
    exact .bind ha (.pure _ _)
  cases call with
  | attrPopulate path => exact hbind _ (h.attrPopulate_returns hfinds.2 hfinds.1 env)
  | changeMode path mode =>
      exact hbind _ (h.changeINode_returns hfinds.2 hfinds.1 env fun x => attributes_assignMode x mode)
  | changeOwner path uid gid =>
      exact hbind _ (h.changeINode_returns hfinds.2 hfinds.1 env fun x => attributes_assignOwner x uid gid)
  | createFile path fileType mode uid gid =>
      exact hbind _ (h.createFile_returns hfinds.2.1 hfinds.1 fileType mode uid gid hfinds.2.2)
  | readDirectory path => exact hbind _ (h.readDirectory_returns hfinds.2.1 hfinds.1 env hfinds.2.2)
  | truncateFile path size => exact hbind _ (h.truncateFile_returns hfinds.2.1 hfinds.1 env hfinds.2.2)
  | unlinkFile path =>
      exact hbind _ (h.housed.unlinkFile_returns h.resting hfinds.2.1 hfinds.1 hfinds.2.2)
  | unlinkDir path force => exact hbind _ (h.unlinkDir_returns hfinds.2.1 hfinds.1 hfinds.2.2.1 hfinds.2.2.2)
  | renameFile fromPath toPath =>
      obtain ⟨hfrom, hto, hlast, hready, hmove⟩ := hfinds
      exact hbind _ (h.renameFile_returns hready hfrom hlast hto hmove)
  | openFile path fi pid => exact hbind _ (h.openFile_returns hfinds.2 hfinds.1 env fi pid)
  | closeFile fi => exact hbind _ (hsettled.closeFile_returns h.coherent h.free hfinds.1 hfinds.2)
  | writeToFile fh buf size offset => exact hfinds.elim
  | readFile fh buf size offset => exact hfinds.elim

/-- A call that is stuck waits for its own lock, follows a null pointer, or reads behind a
buffer. -/
theorem Stuck.fault {held : List NodeId} {l : List Nat} (h : Stocked fs held l)
    (hstuck : call.Stuck fs held env) :
    ∃ e ∈ [Fault.deadlock, .nullPointer, .outOfBounds], call.run env fs = .error e := by
  cases call with
  | readDirectory path =>
      obtain ⟨hpath, hidle, n, hleads, hdir, hsize⟩ := hstuck
      exact ⟨.outOfBounds, by simp,
        NaoM.bind_of_error (h.readDirectory_stuck hidle hpath env hleads hdir hsize)⟩
  | unlinkFile path =>
      obtain ⟨hpath, hidle, hbuffer, n, hleads, hdir, hentry⟩ := hstuck
      exact ⟨.deadlock, by simp,
        NaoM.bind_of_error (h.unlinkFile_stuck hidle hpath hleads hdir hentry hbuffer)⟩
  | unlinkDir path force =>
      obtain ⟨hpath, hidle, hnone⟩ := hstuck
      exact ⟨.nullPointer, by simp, NaoM.bind_of_error (h.unlinkDir_stuck hidle hpath hnone)⟩
  | renameFile fromPath toPath =>
      obtain ⟨hfrom, hto, hroom, n, hn, hparent, hfree⟩ := hstuck
      exact ⟨.deadlock, by simp, NaoM.bind_of_error (h.renameFile_stuck hroom hfrom hto hn hparent hfree)⟩
  | _ => exact hstuck.elim

/-- **Reference counts and mutexes**, in every state that calls lead to which return and give
back what they take.  A call that meets the condition returns, and they are as they should be.
A call that is stuck does not return; and of the calls that return, those that forget something
are all that do not do as they should. -/
theorem balanced_of_run (h0 : FS.mount getHash d = .ok fs)
    (hrun : Relation.ReflTransGen KeepingStep fs fs₁) (env : Env) (call : Call) :
    (call.Meets env fs₁ →
      ∃ ret fh fs₂, call.run env fs₁ = .ok ((ret, fh), fs₂) ∧ call.Law fs₁ ret fh fs₂) ∧
    (∀ held l, Stocked fs₁ held l → call.Stuck fs₁ held env →
      ∃ e ∈ [Fault.deadlock, .nullPointer, .outOfBounds], call.run env fs₁ = .error e) ∧
    ∀ ret fh fs₂, call.run env fs₁ = .ok ((ret, fh), fs₂) →
      (call.Law fs₁ ret fh fs₂ ↔ ¬ call.Forgets env fs₁) := by
  have hsettled := settled_of_run h0 hrun
  have hlaw : ∀ ret fh fs₂, call.run env fs₁ = .ok ((ret, fh), fs₂) →
      (call.Law fs₁ ret fh fs₂ ↔ ¬ call.Forgets env fs₁) := by
    intro ret fh fs₂ hcall
    obtain ⟨hkeeps, hlaw, -⟩ | ⟨hforgets, hlaw⟩ := run_cases hsettled hcall
    · exact ⟨fun _ => hkeeps, fun _ => hlaw⟩
    · exact ⟨fun hcon => absurd hcon hlaw, fun hcon => absurd hforgets hcon⟩
  refine ⟨fun hmeets => ?_, fun held l h hstuck => hstuck.fault h, hlaw⟩
  obtain ⟨hkeeps, held, l, h, hfinds⟩ := hmeets
  obtain ⟨⟨⟨ret, fh⟩, fs₂⟩, hcall⟩ := hfinds.returns hsettled h
  exact ⟨ret, fh, fs₂, hcall, (hlaw ret fh fs₂ hcall).mpr hkeeps⟩

/-- A file is created in a new file system. -/
theorem exists_createdFile : ∃ fs fs₁ l m,
    FS.mount (fun _ _ => 0) AllocState.smallDisk.makeFileSystem = .ok fs ∧ KeepingStep fs fs₁ ∧ Serving fs₁ l ∧ l.length = 31440891 ∧ fs₁.openNodes = [] ∧
    fs₁.leads [slash, 0x66] = some m ∧ fs₁.tree.directory m = false ∧
    fs₁.volume.file 0 = (emptyVolume.file 0).link [0x66] m := by
  obtain ⟨fs, hmount, hdisk⟩ := exists_mount (fun _ _ => 0) AllocState.smallDisk.makeFileSystem
  obtain ⟨hserving, hempty⟩ := serving_new (d := AllocState.smallDisk) rfl hmount
  obtain ⟨l, hl⟩ : ∃ l, l = List.range' 16388 (31457280 - 16388) := ⟨_, rfl⟩
  have hlen : l.length = 31440892 := by rw [hl, List.length_range']
  rw [← hl] at hserving
  have hnil := openNodes_mount hmount
  have hfile : fs.volume.file 0 = emptyVolume.file 0 := hempty.file 0 .refl
  have hroot : fs.volume.leads (parentPath [slash, 0x66]) = some 0 := by
    rw [show parentPath [slash, 0x66] = [slash] by decide]
    rfl
  obtain ⟨hnone, -⟩ | ⟨n, m, fs₁, hn, hcreate, hmade⟩ := hserving.createFile (spare_of_nil hnil) blankEnv
    (show INodeType.regular ≠ .free by decide) 0o100644 0 0 (by decide : IsPath [slash, 0x66]) fun n hn => by
      cases hroot.symm.trans hn
      refine ⟨by rw [hfile]; rfl, by rw [Volume.entry_congr hfile]; rfl, by decide, by decide, ?_, ?_, ?_⟩
      · refine ⟨0, by decide, ?_⟩
        rw [hdisk, AllocState.smallDisk.listed_makeFileSystem (by decide)]
        decide
      · rw [hfile, hlen]
        decide
      · rw [hfile]
        decide
  · cases hroot.symm.trans hnone
  cases hroot.symm.trans hn
  have hname : ¬ (Call.createFile [slash, 0x66] .regular 0o100644 0 0).Forgets blankEnv fs := by
    rintro ⟨-, parent, fs', name, fs'', hget, hpath, hexists⟩
    have hvalidate : validateThenGetParentINode blankEnv .regular [slash, 0x66] fs = .ok (none, fs'') := by
      rw [validateThenGetParentINode, if_neg (by decide)]
      refine (NaoM.bind_of_ok hget).trans ((NaoM.bind_of_ok ?_).trans (NaoM.bind_of_ok hexists))
      rw [NaoM.ofExcept, hpath]
      rfl
    have hfails : FS.createFile blankEnv [slash, 0x66] .regular 0o100644 0 0 fs = .ok (-1, fs'') :=
      NaoM.bind_of_ok hvalidate
    cases hcreate.symm.trans hfails
  have hserving₁ := hmade.serving
  have hregular : fs₁.tree.directory m = false := by
    rw [← fs₁.directory_volume m]
    change (fs₁.volume.file m).isDirectory = false
    rw [hmade.content]
    rfl
  have hm0 : 0 ≠ m := by
    rintro rfl
    rw [hserving₁.root] at hregular
    cases hregular
  have hlinked : fs₁.volume.file 0 = (fs.volume.file 0).link (lastName [slash, 0x66]) m := by
    rw [hmade.agrees.file 0 .refl]
    exact (update_of_ne hm0 ..).trans (update_self ..)
  refine ⟨fs, fs₁, _, m, hmount, ⟨blankEnv, .createFile [slash, 0x66] .regular 0o100644 0 0, (0, none), hname,
    NaoM.bind_eq_ok.mpr ⟨_, _, hcreate, rfl⟩⟩, hserving₁, ?_,
    (SameTable.openNodes (.of_eq hmade.table)).trans hnil,
    (fs₁.leads_volume _).symm.trans hmade.leads, hregular, ?_⟩
  · rw [List.length_drop, hlen, hfile]
    decide
  · rw [hlinked, hfile, show lastName [slash, 0x66] = [0x66] by decide]

/-- A file is created, and gets another name. -/
theorem balanced_rename : ∃ fs fs₁ fs₂ ret fh, FS.mount (fun _ _ => 0)
      AllocState.smallDisk.makeFileSystem = .ok fs ∧ KeepingStep fs fs₁ ∧
      (Call.renameFile [slash, 0x66] [slash, 0x67]).run blankEnv fs₁ = .ok ((ret, fh), fs₂) ∧
      (Call.renameFile [slash, 0x66] [slash, 0x67]).Law fs₁ ret fh fs₂ := by
  obtain ⟨fs, fs₁, l, m, hmount, hstep, hserving, hlen, hnil, hm, hregular, hfile⟩ := exists_createdFile
  have hpath : IsPath [slash, 0x66] := by decide
  have hpath' : IsPath [slash, 0x67] := by decide
  have hreached : fs₁.tree.Reached m := Tree.Reached.foldlM _ .refl hm
  have hm0 : m ≠ 0 := by
    rintro rfl
    rw [hserving.root] at hregular
    cases hregular
  have hsize : (fs₁.seen 0).size = 64 := by
    rw [← hserving.size_file .refl]
    change (fs₁.volume.file 0).size = 64
    rw [hfile]
    rfl
  have hentry : fs₁.tree.entry 0 [0x67] = none := by
    rw [← entry_volume hserving.root]
    change ((fs₁.volume.file 0).entries.find? (·.1 = [0x67])).map (·.2) = none
    rw [hfile]
    rfl
  have hparent : fs₁.leads (parentPath [slash, 0x67]) = some 0 := by
    rw [show parentPath [slash, 0x67] = [slash] by decide]
    rfl
  have hroomy : FS.Roomy fs₁.openNodes := spare_of_nil hnil
  have hmeets : (Call.renameFile [slash, 0x66] [slash, 0x67]).Meets blankEnv fs₁ := by
    refine ⟨fun hmissing => ?_, fs₁.openNodes, l, hserving.toStocked, hpath, hpath', by decide, ?_, ?_⟩
    · have hcon := ((hserving.toStocked.parentMissing_iff hroomy hpath hpath').mp hmissing).2
      cases hcon.symm.trans hparent
    · exact ⟨hroomy, hserving.free.linked (by omega), by decide, fun i hi =>
        (hserving.reached_le i hi).trans_lt (by decide)⟩
    · intro m' n' hm' hn'
      cases hm.symm.trans hm'
      cases hparent.symm.trans hn'
      refine ⟨hm0, hm0.symm, fun q hq => ?_, ?_, fun _ z hz => ?_, ?_, fun _ => ?_, by decide, fun _ => ?_⟩
      · rw [show parentPath [slash, 0x66] = [slash] by decide] at hq
        cases hq
        exact hm0.symm
      · rw [hserving.link m hreached hregular]
        decide
      · rw [hnil] at hz
        cases hz
      · rw [hlen, hsize]
        decide
      · rw [hsize]
        decide
      · rw [show lastName [slash, 0x67] = [0x67] by decide]
        exact hentry
  obtain ⟨ret, fh, fs₂, hrun, hlaw⟩ := (balanced_of_run hmount (.single hstep) blankEnv
    (.renameFile [slash, 0x66] [slash, 0x67])).1 hmeets
  exact ⟨fs, fs₁, fs₂, ret, fh, hmount, hstep, hrun, hlaw⟩

/-- The root of a new file system is truncated. -/
theorem truncated_root_locked : ¬ ∀ (getHash : Nat → Nat → Fin inodeHashSize) (d : Disk)
    (fs fs₁ fs₂ : FS) (env : Env) (call : Call) (ret : Int) (fh : Option Nat),
      FS.mount getHash d = .ok fs → Relation.ReflTransGen AnyStep fs fs₁ →
      call.run env fs₁ = .ok ((ret, fh), fs₂) → call.Law fs₁ ret fh fs₂ := by
  intro hall
  obtain ⟨env⟩ : Nonempty Env := ⟨0, ⟨0, 0, 0⟩, emptyEntry, fun _ => 0⟩
  obtain ⟨fs, fs₀, hfs, hpath, hmutex, hdir⟩ := TableState.exists_root env
  obtain ⟨fs₁, hlock⟩ : ∃ fs₁, fs₀.lock 0 = .ok fs₁ := ⟨_, lock_of_free hmutex⟩
  have htype : (fs₁.inode 0).type = .directory := by
    rw [lock_of_free hmutex] at hlock
    cases hlock
    rw [inode_setInode_self]
    exact hdir
  have hcall : (Call.truncateFile [slash] 0).run env fs = .ok ((eIsdir, none), fs₁) := by
    refine NaoM.bind_eq_ok.mpr ⟨_, _, NaoM.bind_eq_ok.mpr ⟨_, _, hpath, NaoM.bind_eq_ok.mpr
      ⟨(), fs₁, bind_eq_ok.mpr ⟨_, hlock, rfl⟩, NaoM.bind_eq_ok.mpr ⟨fs₁, fs₁, rfl, ?_⟩⟩⟩, rfl⟩
    rw [if_pos htype]
    rfl
  have hlaw := hall _ _ fs fs fs₁ _ _ _ _ hfs .refl hcall
  have hmutex₁ := hlaw.1 0
  rw [(((Pending.refl fs).getFileINode hpath).lock hlock).mutexes 0, if_pos (by simp)] at hmutex₁
  cases hmutex₁

end Runs

end Call

end FS

end Naofs
