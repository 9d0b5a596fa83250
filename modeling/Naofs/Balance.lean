import Naofs.Interface

/-!
# Naofs.Balance

What the calls of the interface do to the reference counts and the mutexes.

Most calls give back what they take, on each of their paths.  Three returns do not:
`createFile` of a name that exists keeps the parent, `truncateFile` of a directory
keeps the directory, locked, and `renameFile` into a directory that does not exist
keeps the file.  `balanced_of_run` says that, of the calls that return, these are all.
-/

namespace Naofs

/-- The reference count and the mutex are the same. -/
def InCoreINode.SameHandle (x y : InCoreINode) : Prop :=
  y.referenceCount = x.referenceCount ∧ y.iNodeMutex = x.iNodeMutex

theorem InCoreINode.SameHandle.refl (x : InCoreINode) : x.SameHandle x := ⟨rfl, rfl⟩

theorem InCoreINode.SameHandle.trans {x y z : InCoreINode} (h : x.SameHandle y) (h' : y.SameHandle z) :
    x.SameHandle z := ⟨h'.1.trans h.1, h'.2.trans h.2⟩

/-- The metadata of a file are its times, its size and its links; the handle is not among them. -/
theorem InCoreINode.sameHandle_updateINodeMetadata (x : InCoreINode) (now : UInt64) (k : Int)
    (links : Nat) : x.SameHandle (x.updateINodeMetadata now k links) := ⟨rfl, rfl⟩

theorem InCoreINode.sameHandle_assignMode (x : InCoreINode) (mode : UInt32) :
    x.SameHandle (x.assignMode mode) := ⟨rfl, rfl⟩

/-- Whether one of the numbers is the missing one or not, the owner alone changes. -/
theorem InCoreINode.sameHandle_assignOwner (x : InCoreINode) (uid gid : UInt32) :
    x.SameHandle (x.assignOwner uid gid) := by
  unfold assignOwner
  split
  · exact ⟨rfl, rfl⟩
  · split
    · exact ⟨rfl, rfl⟩
    · exact .refl x

/-! ## Changes to the inode of a file -/

namespace Disk

variable {d d' : Disk} {x y : InCoreINode}

/-- A new block goes into the block numbers of the inode. -/
theorem insertDataBlockInINode_handle {blk : Nat} (h : d.insertDataBlockInINode x blk = .ok (y, d')) :
    x.SameHandle y := by
  unfold insertDataBlockInINode at h
  split at h
  · cases h
    exact .refl x
  · split at h
    · cases h
    · unfold updateIndex at h
      split at h
      · cases h
        exact ⟨rfl, rfl⟩
      · split at h
        · cases h
        · simp only [Except.ok.injEq, Prod.mk.injEq] at h
          obtain ⟨rfl, -⟩ := h
          exact ⟨rfl, rfl⟩

/-- `bmap` changes the inode only where it inserts a block. -/
theorem bmap_handle {offset : Nat} {resp resp' : BmapResponse} {mode : BmapMode} {ret : Int}
    (h : d.bmap x offset resp mode = .ok (ret, resp', y, d')) : x.SameHandle y := by
  unfold bmap at h
  split at h
  · cases h
    exact .refl x
  · split at h
    · obtain ⟨⟨z, d₁⟩, hins, h⟩ := bind_eq_ok.mp h
      cases h
      exact insertDataBlockInINode_handle hins
    · obtain ⟨blk, -, h⟩ := bind_eq_ok.mp h
      cases h
      exact .refl x

/-- Each round of growing looks up a block and updates the metadata. -/
theorem increaseLoop_handle {now : UInt64} {size : Nat} : ∀ (fuel : Nat) {x : InCoreINode} {d : Disk}
    {offset bytes : Nat} {resp : BmapResponse},
    increaseLoop now size fuel x d offset bytes resp = .ok (y, d') → x.SameHandle y := by
  intro fuel
  induction fuel with
  | zero =>
      intro x d offset bytes resp h
      cases h
  | succ fuel ih =>
      intro x d offset bytes resp h
      rw [increaseLoop] at h
      split at h
      · obtain ⟨⟨ret, resp', z, d₁⟩, hbmap, h⟩ := bind_eq_ok.mp h
        have hround := (bmap_handle hbmap).trans (z.sameHandle_updateINodeMetadata now
          (InCoreINode.toCInt (min resp'.bytesLeftInBlock (size - bytes) : Nat)) z.linksCount)
        exact hround.trans (ih h)
      · cases h
        exact .refl _

/-- Each round of shrinking frees a block and updates the metadata. -/
theorem decreaseLoop_handle {now : UInt64} {size : Nat} : ∀ (fuel : Nat) {x : InCoreINode} {d : Disk}
    {offset bytes : Nat} {resp : BmapResponse},
    decreaseLoop now size fuel x d offset bytes resp = .ok (y, d') → x.SameHandle y := by
  intro fuel
  induction fuel with
  | zero =>
      intro x d offset bytes resp h
      cases h
  | succ fuel ih =>
      intro x d offset bytes resp h
      rw [decreaseLoop] at h
      split at h
      · obtain ⟨⟨ret, resp', z, d₁⟩, hbmap, h⟩ := bind_eq_ok.mp h
        dsimp only at h
        split at h
        · cases h
          exact (bmap_handle hbmap).trans (z.sameHandle_updateINodeMetadata _ _ _)
        · obtain ⟨d₂, -, h⟩ := bind_eq_ok.mp h
          exact ((bmap_handle hbmap).trans (z.sameHandle_updateINodeMetadata _ _ _)).trans (ih h)
      · cases h
        exact .refl _

/-- `truncateINode` is one of the two loops, or leaves the inode alone. -/
theorem truncateINode_handle {env : Env} {size : Nat} (h : d.truncateINode env x size = .ok (y, d')) :
    x.SameHandle y := by
  unfold truncateINode at h
  split at h
  · cases h
    exact .refl x
  · split at h
    · exact decreaseLoop_handle _ h
    · exact increaseLoop_handle _ h

/-- A new entry is an append to the directory, with its metadata. -/
theorem getAndUpdateDirectoryTable_handle {env : Env} {num : Nat} {name : Nat → UInt8}
    (h : d.getAndUpdateDirectoryTable env x num name = .ok (y, d')) : x.SameHandle y := by
  unfold getAndUpdateDirectoryTable at h
  split at h
  · cases h
    exact .refl x
  · obtain ⟨⟨ret, resp, z, d₁⟩, hbmap, h⟩ := bind_eq_ok.mp h
    dsimp only at h
    split at h
    · cases h
      exact bmap_handle hbmap
    · obtain ⟨d₂, -, h⟩ := bind_eq_ok.mp h
      cases h
      exact (bmap_handle hbmap).trans (z.sameHandle_updateINodeMetadata _ _ _)

/-- The first entries of a new directory are two appends. -/
theorem updateNewDirMetaData_handle {env : Env} {num : Nat}
    (h : d.updateNewDirMetaData env x num = .ok (y, d')) : x.SameHandle y := by
  obtain ⟨⟨ret, resp, z, d₁⟩, hbmap, h⟩ := bind_eq_ok.mp h
  dsimp only at h
  split at h
  · cases h
    exact bmap_handle hbmap
  · obtain ⟨d₂, -, h⟩ := bind_eq_ok.mp h
    obtain ⟨d₃, -, h⟩ := bind_eq_ok.mp h
    cases h
    exact (bmap_handle hbmap).trans (z.sameHandle_updateINodeMetadata _ _ _)

end Disk

namespace FS

namespace Pending

variable {env : Env} {fs fs₁ fs₂ : FS} {held locked : List NodeId} {node : NodeId} {u : Unit}

/-- A change to one inode that keeps its handle is none for the references and the mutexes. -/
theorem onINode (h : Pending fs held locked fs₁)
    {f : InCoreINode → Disk → Except Fault (InCoreINode × Disk)}
    (hf : ∀ {d : Disk} {x y : InCoreINode} {d' : Disk}, f x d = .ok (y, d') → x.SameHandle y)
    (heq : FS.onINode node f fs₁ = .ok (u, fs₂)) : Pending fs held locked fs₂ := by
  obtain ⟨⟨y, d⟩, hy, heq⟩ := bind_eq_ok.mp heq
  cases heq
  have hsame := hf hy
  exact (h.disk d).modify hsame.1 hsame.2

theorem updateINodeMetadata (h : Pending fs held locked fs₁) {k : Int} {links : Nat}
    (heq : FS.updateINodeMetadata env node k links fs₁ = .ok (u, fs₂)) :
    Pending fs held locked fs₂ := by
  refine h.onINode (fun hx => ?_) heq
  cases hx
  exact ⟨rfl, rfl⟩

theorem truncateINode (h : Pending fs held locked fs₁) {size : Nat}
    (heq : FS.truncateINode env node size fs₁ = .ok (u, fs₂)) : Pending fs held locked fs₂ :=
  h.onINode Disk.truncateINode_handle heq

theorem getAndUpdateDirectoryTable (h : Pending fs held locked fs₁) {num : Nat} {name : Name}
    (heq : FS.getAndUpdateDirectoryTable env node num name fs₁ = .ok (u, fs₂)) :
    Pending fs held locked fs₂ :=
  h.onINode Disk.getAndUpdateDirectoryTable_handle heq

theorem updateNewDirMetaData (h : Pending fs held locked fs₁) {num : Nat}
    (heq : FS.updateNewDirMetaData env node num fs₁ = .ok (u, fs₂)) : Pending fs held locked fs₂ :=
  h.onINode Disk.updateNewDirMetaData_handle heq

/-- Computations without the file system change none of it. -/
theorem ofExcept (h : Pending fs held locked fs₁) {α : Type} {x : Except Fault α} {a : α}
    (heq : NaoM.ofExcept x fs₁ = .ok (a, fs₂)) : Pending fs held locked fs₂ := by
  obtain ⟨b, -, heq⟩ := bind_eq_ok.mp heq
  cases heq
  exact h

/-- The reference that was taken last is given back. -/
theorem put (h : Pending fs (node :: held) locked fs₁) {now : UInt64} {r : Int}
    (heq : FS.iput now node fs₁ = .ok (r, fs₂)) : Pending fs held locked fs₂ := by
  have hput := h.iput (by simp) heq
  rwa [List.erase_cons_head] at hput

/-- The mutex that was taken last is given back. -/
theorem release (h : Pending fs held (node :: locked) fs₁)
    (heq : FS.mutexUnlock node fs₁ = .ok (u, fs₂)) : Pending fs held locked fs₂ := by
  have hunlock := h.mutexUnlock (by simp) heq
  rwa [List.erase_cons_head] at hunlock

/-- The parent is found with a reference, as any other path is. -/
theorem getParentINode (h : Pending fs held locked fs₁) {path : Name} {r : Option NodeId}
    (heq : FS.getParentINode env path fs₁ = .ok (r, fs₂)) : Pending fs (r.toList ++ held) locked fs₂ := by
  obtain ⟨parent, fs₃, hpath, heq⟩ := NaoM.bind_eq_ok.mp heq
  exact (h.ofExcept hpath).getFileINode heq

end Pending

/-! ## Calls that give back what they take -/

/-- The call gives back what it takes. -/
def Balanced {α : Type} (m : NaoM α) : Prop :=
  ∀ ⦃fs : FS⦄ ⦃held locked : List NodeId⦄ ⦃fs₁ fs₂ : FS⦄ ⦃a : α⦄, Pending fs held locked fs₁ →
    m fs₁ = .ok (a, fs₂) → Pending fs held locked fs₂

section Calls

variable {env : Env} {path : Name} {node : NodeId}

/-- A computation that touches nothing. -/
theorem balanced_pure {α : Type} (a : α) : Balanced (pure a) := by
  intro fs held locked fs₁ fs₂ b h heq
  cases heq
  exact h

/-- A reference that is used under the lock of its inode is given back. -/
theorem Balanced.underLock {body : NaoM Int} (hbody : Balanced body) {fs fs₁ fs₂ : FS}
    {held locked : List NodeId} {ret : Int} (h : Pending fs (node :: held) locked fs₁)
    (heq : underLock env node body fs₁ = .ok (ret, fs₂)) : Pending fs held locked fs₂ := by
  obtain ⟨u, fs₃, hlock, heq⟩ := NaoM.bind_eq_ok.mp heq
  obtain ⟨r, fs₄, hrun, heq⟩ := NaoM.bind_eq_ok.mp heq
  obtain ⟨u, fs₅, hunlock, heq⟩ := NaoM.bind_eq_ok.mp heq
  obtain ⟨r', fs₆, hput, heq⟩ := NaoM.bind_eq_ok.mp heq
  cases heq
  exact ((hbody (h.mutexLock hlock) hrun).release hunlock).put hput

/-- The reference of the lookup is given back after the attributes are copied. -/
theorem balanced_attrPopulate : Balanced (attrPopulate env path) := by
  intro fs held locked fs₁ fs₂ a h heq
  obtain ⟨r, fs₃, hget, heq⟩ := NaoM.bind_eq_ok.mp heq
  replace h := h.getFileINode hget
  cases r with
  | none =>
      cases heq
      exact h
  | some node =>
      obtain ⟨fs₄, fs₅, hget, heq⟩ := NaoM.bind_eq_ok.mp heq
      cases hget
      obtain ⟨r, fs₆, hput, heq⟩ := NaoM.bind_eq_ok.mp heq
      cases heq
      exact h.put hput

/-- The inode of a path is locked, changed, unlocked and given back. -/
theorem balanced_changeINode {assign : InCoreINode → InCoreINode}
    (hassign : ∀ x : InCoreINode, x.SameHandle (assign x)) :
    Balanced (changeINode env path assign) := by
  intro fs held locked fs₁ fs₂ a h heq
  obtain ⟨r, fs₃, hget, heq⟩ := NaoM.bind_eq_ok.mp heq
  replace h := h.getFileINode hget
  cases r with
  | none =>
      cases heq
      exact h
  | some node =>
      refine Balanced.underLock ?_ h heq
      intro fs held locked fs₁ fs₂ a h heq
      obtain ⟨u, fs₄, hset, heq⟩ := NaoM.bind_eq_ok.mp heq
      cases heq
      refine h.onINode (fun hx => ?_) hset
      cases hx
      exact hassign _

theorem balanced_changeMode {mode : UInt32} : Balanced (changeMode env path mode) :=
  balanced_changeINode fun x => x.sameHandle_assignMode mode

theorem balanced_changeOwner {uid gid : UInt32} : Balanced (changeOwner env path uid gid) :=
  balanced_changeINode fun x => x.sameHandle_assignOwner uid gid

/-- Entries are fetched through the reference that the caller holds. -/
theorem balanced_fillDirectoryLoop {n : Nat} : ∀ (fuel offset : Nat) (filled : List DirectoryEntry),
    Balanced (fillDirectoryLoop env node n fuel offset filled) := by
  intro fuel
  induction fuel with
  | zero =>
      intro offset filled fs held locked fs₁ fs₂ a h heq
      cases heq
  | succ fuel ih =>
      intro offset filled fs held locked fs₁ fs₂ a h heq
      rw [fillDirectoryLoop] at heq
      split at heq
      · obtain ⟨⟨ret, buf⟩, fs₃, hsearch, heq⟩ := NaoM.bind_eq_ok.mp heq
        replace h := h.searchINodeDirectoryEntries hsearch
        dsimp only at heq
        split at heq
        · cases heq
        · exact ih _ _ h heq
      · cases heq
        exact h

/-- The directory is given back on both ways out. -/
theorem balanced_readDirectory : Balanced (readDirectory env path) := by
  intro fs held locked fs₁ fs₂ a h heq
  obtain ⟨r, fs₃, hget, heq⟩ := NaoM.bind_eq_ok.mp heq
  replace h := h.getFileINode hget
  cases r with
  | none =>
      cases heq
      exact h
  | some node =>
      obtain ⟨filled, fs₄, hfill, heq⟩ := NaoM.bind_eq_ok.mp heq
      obtain ⟨fs₅, fs₆, hget, hfill⟩ := NaoM.bind_eq_ok.mp hfill
      cases hget
      obtain ⟨r, fs₇, hput, heq⟩ := NaoM.bind_eq_ok.mp heq
      cases heq
      exact (balanced_fillDirectoryLoop _ _ _ h hfill).put hput

/-- The file that loses its name is fetched and given back; the directory is the caller's. -/
theorem balanced_unlinkFileFromINode {name : Name} :
    Balanced (unlinkFileFromINode env node name) := by
  intro fs held locked fs₁ fs₂ a h heq
  obtain ⟨⟨ret, buf⟩, fs₃, hsearch, heq⟩ := NaoM.bind_eq_ok.mp heq
  replace h := h.searchINodeDirectoryEntries hsearch
  dsimp only at heq
  split at heq
  · cases heq
    exact h
  · obtain ⟨r, fs₄, hget, heq⟩ := NaoM.bind_eq_ok.mp heq
    replace h := h.iget hget
    cases r with
    | none => cases heq
    | some deleted =>
        obtain ⟨u, fs₅, hlock, heq⟩ := NaoM.bind_eq_ok.mp heq
        obtain ⟨fs₆, fs₇, hread, heq⟩ := NaoM.bind_eq_ok.mp heq
        cases hread
        obtain ⟨u, fs₇, hmeta, heq⟩ := NaoM.bind_eq_ok.mp heq
        obtain ⟨u, fs₈, hunlock, heq⟩ := NaoM.bind_eq_ok.mp heq
        obtain ⟨r, fs₉, hput, heq⟩ := NaoM.bind_eq_ok.mp heq
        replace h := (((h.mutexLock hlock).updateINodeMetadata hmeta).release hunlock).put hput
        obtain ⟨fs₁₀, fs₁₁, hread, heq⟩ := NaoM.bind_eq_ok.mp heq
        cases hread
        obtain ⟨u, fs₁₂, htrunc, heq⟩ := NaoM.bind_eq_ok.mp heq
        cases heq
        exact h.truncateINode htrunc

/-- The parent is locked only while its entry is removed. -/
theorem balanced_unlinkFile : Balanced (unlinkFile env path) := by
  intro fs held locked fs₁ fs₂ a h heq
  obtain ⟨r, fs₃, hget, heq⟩ := NaoM.bind_eq_ok.mp heq
  replace h := h.getParentINode hget
  cases r with
  | none =>
      cases heq
      exact h
  | some parent =>
      refine Balanced.underLock ?_ h heq
      intro fs held locked fs₁ fs₂ a h heq
      obtain ⟨name, fs₄, hname, heq⟩ := NaoM.bind_eq_ok.mp heq
      exact balanced_unlinkFileFromINode (h.ofExcept hname) heq

/-- Reading the last entry takes no reference. -/
theorem balanced_getLastEntry : Balanced (getLastEntry env node) := by
  intro fs held locked fs₁ fs₂ a h heq
  obtain ⟨entry, -, heq⟩ := bind_eq_ok.mp heq
  cases heq
  exact h

/-- Files that are no directories are not looked into. -/
theorem Balanced.validateIfDirectory {validate : NodeId → NaoM Int} (hval : Balanced (validate node)) :
    Balanced (validateIfDirectory validate node) := by
  intro fs held locked fs₁ fs₂ a h heq
  unfold FS.validateIfDirectory at heq
  split at heq
  · exact hval h heq
  · cases heq
    exact h

/-- The induction is on the rounds: each fetches the inode of an entry, validates it, and gives it
back. -/
theorem balanced_emptyDirLoop {validate : NodeId → NaoM Int} (hval : ∀ node, Balanced (validate node))
    {n : Nat} : ∀ (fuel offset : Nat), Balanced (emptyDirLoop env validate node n fuel offset) := by
  intro fuel
  induction fuel with
  | zero =>
      intro offset fs held locked fs₁ fs₂ a h heq
      cases heq
  | succ fuel ih =>
      intro offset fs held locked fs₁ fs₂ a h heq
      rw [emptyDirLoop] at heq
      split at heq
      · obtain ⟨entry, fs₃, hlast, heq⟩ := NaoM.bind_eq_ok.mp heq
        obtain ⟨r, fs₄, hget, heq⟩ := NaoM.bind_eq_ok.mp heq
        replace h := (balanced_getLastEntry h hlast).iget hget
        cases r with
        | none => cases heq
        | some fileEntry =>
            obtain ⟨ret, fs₅, hcheck, heq⟩ := NaoM.bind_eq_ok.mp heq
            replace h := Balanced.underLock (hval fileEntry).validateIfDirectory h hcheck
            split at heq
            · cases heq
              exact h
            · obtain ⟨name, fs₆, hname, heq⟩ := NaoM.bind_eq_ok.mp heq
              obtain ⟨ret', fs₇, hunlink, heq⟩ := NaoM.bind_eq_ok.mp heq
              exact ih _ (balanced_unlinkFileFromINode (h.ofExcept hname) hunlink) heq
      · cases heq
        exact h

/-- The induction is on the depth of the recursion, whose calls are those of the loop. -/
theorem balanced_validateAndEmptyDirectory : ∀ (depth : Nat) (force : Bool) (node : NodeId),
    Balanced (validateAndEmptyDirectory env depth force node) := by
  intro depth
  induction depth with
  | zero =>
      intro force node fs held locked fs₁ fs₂ a h heq
      cases heq
  | succ depth ih =>
      intro force node fs held locked fs₁ fs₂ a h heq
      obtain ⟨fs₃, fs₄, hread, heq⟩ := NaoM.bind_eq_ok.mp heq
      cases hread
      split at heq
      · exact balanced_pure _ h heq
      · split at heq
        · exact balanced_pure _ h heq
        · split at heq
          · exact balanced_pure _ h heq
          · split at heq
            · obtain ⟨fs₅, fs₆, hread, heq⟩ := NaoM.bind_eq_ok.mp heq
              cases hread
              exact balanced_emptyDirLoop (ih true) _ _ h heq
            · exact balanced_pure _ h heq

/-- The directory is validated under its lock, and given back before its name is removed. -/
theorem balanced_unlinkDir {force : Bool} : Balanced (unlinkDir env path force) := by
  intro fs held locked fs₁ fs₂ a h heq
  obtain ⟨r, fs₃, hget, heq⟩ := NaoM.bind_eq_ok.mp heq
  replace h := h.getFileINode hget
  cases r with
  | none => cases heq
  | some node =>
      obtain ⟨ret, fs₄, hcheck, heq⟩ := NaoM.bind_eq_ok.mp heq
      replace h := Balanced.underLock (balanced_validateAndEmptyDirectory _ _ _) h hcheck
      split at heq
      · cases heq
        exact h
      · exact balanced_unlinkFile h heq

/-- What has the name is looked up and given back, and the name is removed. -/
theorem balanced_removeDestinationIfExists {name : Name} :
    Balanced (removeDestinationIfExists env node name) := by
  intro fs held locked fs₁ fs₂ a h heq
  obtain ⟨⟨ret, buf⟩, fs₃, hsearch, heq⟩ := NaoM.bind_eq_ok.mp heq
  replace h := h.searchINodeDirectoryEntries hsearch
  dsimp only at heq
  split at heq
  · obtain ⟨r, fs₄, hget, heq⟩ := NaoM.bind_eq_ok.mp heq
    replace h := h.iget hget
    cases r with
    | none => cases heq
    | some destination =>
        obtain ⟨ret', fs₅, hcheck, heq⟩ := NaoM.bind_eq_ok.mp heq
        replace h := Balanced.underLock
          (Balanced.validateIfDirectory (balanced_validateAndEmptyDirectory _ _ _)) h hcheck
        split at heq
        · cases heq
          exact h
        · obtain ⟨name', fs₆, hname, heq⟩ := NaoM.bind_eq_ok.mp heq
          obtain ⟨ret'', fs₇, hunlink, heq⟩ := NaoM.bind_eq_ok.mp heq
          replace h := balanced_unlinkFileFromINode (h.ofExcept hname) hunlink
          split at heq
          · cases heq
            exact h
          · cases heq
            exact h
  · cases heq
    exact h

/-! ## Calls that may keep something -/

variable {fs fs₁ fs₂ : FS} {held locked : List NodeId} {ret : Int}

/-- The parent directory of a path has an entry for its last name. -/
def NameTaken (env : Env) (path : Name) (fs : FS) : Prop :=
  ∃ parent fs₁ name fs₂, getParentINode env path fs = .ok (some parent, fs₁) ∧
    getFilenameFromPath path = .ok name ∧ doesFileExistIn env name parent fs₁ = .ok (true, fs₂)

/-- A search in the directory, on a copy of its inode. -/
theorem Pending.doesFileExistIn (h : Pending fs held locked fs₁) {name : Name} {b : Bool}
    (heq : FS.doesFileExistIn env name node fs₁ = .ok (b, fs₂)) : Pending fs held locked fs₂ := by
  obtain ⟨⟨ret, buf⟩, fs₃, hsearch, heq⟩ := NaoM.bind_eq_ok.mp heq
  cases heq
  exact h.searchINodeDirectoryEntries hsearch

/-- The parent is kept if it has the name already. -/
theorem validateThenGetParentINode_cases (h : Pending fs held locked fs₁) {fileType : INodeType}
    {r : Option (NodeId × Name)}
    (heq : validateThenGetParentINode env fileType path fs₁ = .ok (r, fs₂)) :
    (fileType ≠ .free ∧ NameTaken env path fs₁ ∧ r = none ∧ ∃ node, Pending fs (node :: held) locked fs₂) ∨
    (fileType = .free ∨ ¬ NameTaken env path fs₁) ∧
      Pending fs ((r.map Prod.fst).toList ++ held) locked fs₂ := by
  unfold validateThenGetParentINode at heq
  split at heq
  · next htype =>
      cases heq
      refine .inr ⟨.inl ?_, h⟩
      cases fileType <;> simp_all
  · next htype =>
      have hfree : fileType ≠ .free := by
        rintro rfl
        exact htype ⟨by decide, by decide⟩
      obtain ⟨r', fs₃, hget, heq⟩ := NaoM.bind_eq_ok.mp heq
      replace h := h.getParentINode hget
      cases r' with
      | none =>
          cases heq
          refine .inr ⟨.inr ?_, h⟩
          rintro ⟨parent, fs', name, fs'', hget', -⟩
          cases hget.symm.trans hget'
      | some parent =>
          obtain ⟨name, fs₄, hname, heq⟩ := NaoM.bind_eq_ok.mp heq
          obtain ⟨name', hpath, hname⟩ := bind_eq_ok.mp hname
          cases hname
          obtain ⟨b, fs₅, hexists, heq⟩ := NaoM.bind_eq_ok.mp heq
          replace h := h.doesFileExistIn hexists
          cases b with
          | true =>
              cases heq
              exact .inl ⟨hfree, ⟨parent, _, name, _, hget, hpath, hexists⟩, rfl, parent, h⟩
          | false =>
              cases heq
              refine .inr ⟨.inr ?_, h⟩
              rintro ⟨parent', fs', name', fs'', hget', hpath', hexists'⟩
              cases hget.symm.trans hget'
              cases hpath.symm.trans hpath'
              cases hexists.symm.trans hexists'

/-- The new inode is given back when its first entries are written. -/
theorem balanced_initNewINode {fileType : INodeType} {parent : NodeId} :
    Balanced (initNewINode env fileType node parent) := by
  intro fs held locked fs₁ fs₂ a h heq
  cases fileType with
  | free =>
      cases heq
      exact h
  | regular => exact h.updateINodeMetadata heq
  | directory => exact h.updateNewDirMetaData heq

/-- `createFile` keeps the parent exactly if it has the name already. -/
theorem createFile_cases (h : Pending fs held locked fs₁) {fileType : INodeType}
    {mode uid gid : UInt32} (heq : createFile env path fileType mode uid gid fs₁ = .ok (ret, fs₂)) :
    (fileType ≠ .free ∧ NameTaken env path fs₁ ∧ ∃ node, Pending fs (node :: held) locked fs₂) ∨
    (fileType = .free ∨ ¬ NameTaken env path fs₁) ∧ Pending fs held locked fs₂ := by
  obtain ⟨r, fs₃, hval, heq⟩ := NaoM.bind_eq_ok.mp heq
  obtain ⟨hfree, htaken, rfl, hkept⟩ | ⟨hfree, h⟩ := validateThenGetParentINode_cases h hval
  · cases heq
    exact .inl ⟨hfree, htaken, hkept⟩
  · refine .inr ⟨hfree, ?_⟩
    cases r with
    | none =>
        cases heq
        exact h
    | some r =>
        obtain ⟨parent, name⟩ := r
        obtain ⟨num, fs₄, hnew, heq⟩ := NaoM.bind_eq_ok.mp heq
        cases hnew
        obtain ⟨u, fs₅, hentry, heq⟩ := NaoM.bind_eq_ok.mp heq
        obtain ⟨r, fs₆, hget, heq⟩ := NaoM.bind_eq_ok.mp heq
        replace h := ((h.disk _).getAndUpdateDirectoryTable hentry).iget hget
        cases r with
        | none => cases heq
        | some new =>
            obtain ⟨u, fs₇, hinit, heq⟩ := NaoM.bind_eq_ok.mp heq
            obtain ⟨r, fs₈, hput, heq⟩ := NaoM.bind_eq_ok.mp heq
            obtain ⟨r', fs₉, hput', heq⟩ := NaoM.bind_eq_ok.mp heq
            cases heq
            replace h := (balanced_initNewINode h hinit).perm (List.Perm.swap parent new held)
            exact (h.put hput).put hput'

/-- The path names a directory. -/
def NamesDirectory (env : Env) (path : Name) (fs : FS) : Prop :=
  ∃ node fs₁, getFileINode env path fs = .ok (some node, fs₁) ∧
    (fs₁.inode node).type = .directory

/-- `truncateFile` keeps a directory, with its mutex. -/
theorem truncateFile_cases (h : Pending fs held locked fs₁) {size : Nat}
    (heq : truncateFile env path size fs₁ = .ok (ret, fs₂)) :
    (NamesDirectory env path fs₁ ∧ ∃ node, Pending fs (node :: held) (node :: locked) fs₂) ∨
    ¬ NamesDirectory env path fs₁ ∧ Pending fs held locked fs₂ := by
  obtain ⟨r, fs₃, hget, heq⟩ := NaoM.bind_eq_ok.mp heq
  replace h := h.getFileINode hget
  cases r with
  | none =>
      cases heq
      refine .inr ⟨?_, h⟩
      rintro ⟨node, fs', hget', -⟩
      cases hget.symm.trans hget'
  | some node =>
      obtain ⟨u, fs₄, hlock, heq⟩ := NaoM.bind_eq_ok.mp heq
      have htype : (fs₄.inode node).type = (fs₃.inode node).type := by
        obtain ⟨fs₅, hlock, hfs⟩ := bind_eq_ok.mp hlock
        cases hfs
        unfold FS.lock at hlock
        split at hlock
        · cases hlock
        · cases hlock
          rw [inode_setInode_self]
      replace h := h.mutexLock hlock
      obtain ⟨fs₅, fs₆, hread, heq⟩ := NaoM.bind_eq_ok.mp heq
      cases hread
      split at heq
      · next hdir =>
          cases heq
          exact .inl ⟨⟨node, fs₃, hget, htype ▸ hdir⟩, node, h⟩
      · next hdir =>
          obtain ⟨u, fs₇, htrunc, heq⟩ := NaoM.bind_eq_ok.mp heq
          obtain ⟨u, fs₈, hunlock, heq⟩ := NaoM.bind_eq_ok.mp heq
          obtain ⟨r, fs₉, hput, heq⟩ := NaoM.bind_eq_ok.mp heq
          cases heq
          refine .inr ⟨?_, ((h.truncateINode htrunc).release hunlock).put hput⟩
          rintro ⟨node', fs', hget', hdir'⟩
          cases hget.symm.trans hget'
          exact hdir (htype.trans hdir')

/-- The file exists, but not the directory it is to be moved to. -/
def ParentMissing (env : Env) (fromPath toPath : Name) (fs : FS) : Prop :=
  ∃ node fs₁ fs₂, getFileINode env fromPath fs = .ok (some node, fs₁) ∧
    getParentINode env toPath fs₁ = .ok (none, fs₂)

/-- `renameFile` keeps the file exactly if its new parent does not exist. -/
theorem renameFile_cases (h : Pending fs held locked fs₁) {fromPath toPath : Name}
    (heq : renameFile env fromPath toPath fs₁ = .ok (ret, fs₂)) :
    (ParentMissing env fromPath toPath fs₁ ∧ ∃ node, Pending fs (node :: held) locked fs₂) ∨
    ¬ ParentMissing env fromPath toPath fs₁ ∧ Pending fs held locked fs₂ := by
  obtain ⟨r, fs₃, hget, heq⟩ := NaoM.bind_eq_ok.mp heq
  replace h := h.getFileINode hget
  cases r with
  | none =>
      cases heq
      refine .inr ⟨?_, h⟩
      rintro ⟨node, fs', fs'', hget', -⟩
      cases hget.symm.trans hget'
  | some file =>
      obtain ⟨r, fs₄, hparent, heq⟩ := NaoM.bind_eq_ok.mp heq
      replace h := h.getParentINode hparent
      cases r with
      | none =>
          cases heq
          exact .inl ⟨⟨file, fs₃, _, hget, hparent⟩, file, h⟩
      | some parent =>
          have hnot : ¬ ParentMissing env fromPath toPath fs₁ := by
            rintro ⟨node, fs', fs'', hget', hparent'⟩
            cases hget.symm.trans hget'
            cases hparent.symm.trans hparent'
          refine .inr ⟨hnot, ?_⟩
          obtain ⟨u, fs₅, hlock, heq⟩ := NaoM.bind_eq_ok.mp heq
          obtain ⟨name, fs₆, hname, heq⟩ := NaoM.bind_eq_ok.mp heq
          obtain ⟨ret', fs₇, hremove, heq⟩ := NaoM.bind_eq_ok.mp heq
          replace h := balanced_removeDestinationIfExists ((h.mutexLock hlock).ofExcept hname) hremove
          split at heq
          · obtain ⟨r, fs₈, hput, heq⟩ := NaoM.bind_eq_ok.mp heq
            obtain ⟨u, fs₉, hunlock, heq⟩ := NaoM.bind_eq_ok.mp heq
            obtain ⟨r', fs₁₀, hput', heq⟩ := NaoM.bind_eq_ok.mp heq
            cases heq
            replace h := (h.perm (List.Perm.swap file parent held)).put hput
            exact (h.release hunlock).put hput'
          · obtain ⟨u, fs₈, hlock', heq⟩ := NaoM.bind_eq_ok.mp heq
            obtain ⟨fs₉, fs₁₀, hread, heq⟩ := NaoM.bind_eq_ok.mp heq
            cases hread
            obtain ⟨u, fs₁₁, hentry, heq⟩ := NaoM.bind_eq_ok.mp heq
            obtain ⟨fs₁₂, fs₁₃, hread, heq⟩ := NaoM.bind_eq_ok.mp heq
            cases hread
            obtain ⟨u, fs₁₄, hmeta, heq⟩ := NaoM.bind_eq_ok.mp heq
            obtain ⟨u, fs₁₅, hunlock, heq⟩ := NaoM.bind_eq_ok.mp heq
            obtain ⟨r, fs₁₆, hput, heq⟩ := NaoM.bind_eq_ok.mp heq
            obtain ⟨u, fs₁₇, hunlock', heq⟩ := NaoM.bind_eq_ok.mp heq
            obtain ⟨r', fs₁₈, hput', heq⟩ := NaoM.bind_eq_ok.mp heq
            obtain ⟨ret'', fs₁₉, hunlink, heq⟩ := NaoM.bind_eq_ok.mp heq
            replace h := ((h.mutexLock hlock').getAndUpdateDirectoryTable hentry).updateINodeMetadata
              hmeta
            -- the mutexes are given back in the order in which they were taken
            have hne : parent ≠ file := by
              rintro rfl
              exact (List.nodup_cons.mp h.nodup).1 (by simp)
            replace h := h.mutexUnlock (x := parent) (by simp) hunlock
            rw [List.erase_cons_tail (by simpa using hne.symm), List.erase_cons_head] at h
            replace h := ((h.put hput).release hunlock').put hput'
            replace h := balanced_unlinkFile h hunlink
            split at heq
            · cases heq
              exact h
            · cases heq
              exact h

end Calls

end FS

end Naofs
