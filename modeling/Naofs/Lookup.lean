import Naofs.Removal

/-!
# Naofs.Lookup

The number that a call passes to `iget` for a name in a directory.

`unlinkFileFromINode`, `removeDestinationIfExists` and `operate` all search for the name
first.  Only two bytes of the number are stored, and only these are copied into the entry
of the caller: `operate` has cleared it, the others have not.  Each call is split here at
its `iget` (`unlinkFileFromINode_eq`, `removeDestinationIfExists_eq`, `operate_eq`), and
`fetchLaw_iff` says when the number does not depend on what `malloc` returned.
-/

namespace Naofs

namespace FS

open InCoreINode (wrapSize)

/-! ## Up to `iget` -/

/-- The entry that `unlinkFileFromINode` finds, with the number for `iget`. -/
def unlinkEntry (env : Env) (parentINode : NodeId) (filename : Name) :
    NaoM (Option DirectoryEntry) := do
  let (retVal, entry) ← searchINodeDirectoryEntries env parentINode (some filename) 0
    (fun _ => env.entry) 0 true
  pure (if retVal ≠ 1 then none else some (entry 0))

/-- What `unlinkFileFromINode` does with the inode that it gets. -/
def unlinkFetched (env : Env) (parentINode : NodeId) : Option NodeId → NaoM Int
  | none => throw .nullPointer
  | some deletedFile => do
      mutexLock deletedFile
      updateINodeMetadata env deletedFile 0
        (wrapSize (((← get).inode deletedFile).linksCount - 1))
      mutexUnlock deletedFile
      let _ ← iput env.now deletedFile
      truncateINode env parentINode
        (wrapSize (((← get).inode parentINode).size - directoryEntrySize))
      pure 0

/-- `unlinkFileFromINode`: the entry is found, and then its inode fetched. -/
theorem unlinkFileFromINode_eq (env : Env) (parentINode : NodeId) (filename : Name) :
    unlinkFileFromINode env parentINode filename = (do
      match ← unlinkEntry env parentINode filename with
      | none => pure (-1)
      | some entry =>
          let deletedFile ← iget entry.iNodeNum 0
          unlinkFetched env parentINode deletedFile) := by
  rw [unlinkFileFromINode, unlinkEntry, bind_assoc]
  refine congrArg _ (funext fun ⟨retVal, entry⟩ => ?_)
  rw [pure_bind]
  by_cases h : retVal ≠ 1
  · simp only [if_pos h]
  · simp only [if_neg h]
    refine congrArg _ (funext fun r => ?_)
    cases r with
    | none => rfl
    | some deletedFile => rfl

/-- The entry that `removeDestinationIfExists` finds. -/
def removeEntry (env : Env) (parentINode : NodeId) (filename : Name) :
    NaoM (Option DirectoryEntry) := do
  let (retVal, entry) ← searchINodeDirectoryEntries env parentINode (some filename) 0
    (fun _ => env.entry) 0 false
  pure (if retVal = 1 then some (entry 0) else none)

/-- What `removeDestinationIfExists` does with the inode that it gets. -/
def removeFetched (env : Env) (parentINode : NodeId) (entry : DirectoryEntry) :
    Option NodeId → NaoM Int
  | none => throw .nullPointer
  | some destination => do
      let retVal ← underLock env destination
        (validateIfDirectory (validateAndEmptyDirectoryIfNeeded env · true) destination)
      if retVal < 0 then pure retVal
      else
        let name ← NaoM.ofExcept entry.string
        let retVal ← unlinkFileFromINode env parentINode name
        if retVal < 0 then pure retVal else pure 0

/-- `removeDestinationIfExists` in the same two parts. -/
theorem removeDestinationIfExists_eq (env : Env) (parentINode : NodeId) (filename : Name) :
    removeDestinationIfExists env parentINode filename = (do
      match ← removeEntry env parentINode filename with
      | none => pure 0
      | some entry =>
          let destination ← iget entry.iNodeNum 0
          removeFetched env parentINode entry destination) := by
  rw [removeDestinationIfExists, removeEntry, bind_assoc]
  refine congrArg _ (funext fun ⟨retVal, entry⟩ => ?_)
  rw [pure_bind]
  by_cases h : retVal = 1
  · simp only [if_pos h]
    refine congrArg _ (funext fun r => ?_)
    cases r with
    | none => rfl
    | some destination => rfl
  · simp only [if_neg h]

/-- The entry that `operate` finds; an empty name is not looked for. -/
def operateEntry (env : Env) (name : Name) (node : NodeId) : NaoM (Option DirectoryEntry) :=
  if name = [] then pure none
  else do
    let (retValue, entryBuffer) ← searchINodeDirectoryEntries env node (some name) 0
      (fun _ => emptyEntry) 0 false
    pure (if wrapSize retValue = 0 then none else some (entryBuffer 0))

/-- `operate` in the same two parts. -/
theorem operate_eq (env : Env) {name : Name} (hname : name ≠ []) (node : NodeId) :
    operate env name (some node) = (do
      let entry ← operateEntry env name node
      let _ ← iput env.now node
      match entry with
      | none => pure none
      | some entry => iget entry.iNodeNum 0) := by
  rw [operate, operateEntry, if_neg hname, if_neg hname, bind_assoc]
  refine congrArg _ (funext fun ⟨retValue, entryBuffer⟩ => ?_)
  rw [pure_bind]
  by_cases h : wrapSize retValue = 0
  · simp only [if_pos h]
  · simp only [if_neg h]

/-! ## Two runs -/

/-- The number that goes to `iget` is `n`. -/
def Fetches (fetched : NaoM (Option DirectoryEntry)) (fs : FS) (n : Nat) : Prop :=
  ∃ entry fs', fetched fs = .ok (some entry, fs') ∧ entry.iNodeNum = n

/-- The three calls agree on the number `n` for a name, whether `malloc` returns `entry` or
`entry'`. -/
structure FetchLaw (env : Env) (entry entry' : DirectoryEntry) (fs : FS) (node : NodeId) (name : Name)
    (n : Nat) : Prop where
  unlink : Fetches (unlinkEntry { env with entry } node name) fs n
  unlink' : Fetches (unlinkEntry { env with entry := entry' } node name) fs n
  remove : Fetches (removeEntry { env with entry } node name) fs n
  remove' : Fetches (removeEntry { env with entry := entry' } node name) fs n
  resolve : Fetches (operateEntry env name node) fs n

section Law

variable {env : Env} {fs : FS} {node : NodeId} {name : Name} {n p : Nat}

/-- The number that is fetched is that of the entry. -/
theorem fetches_of_eq {fetched : NaoM (Option DirectoryEntry)} {entry : DirectoryEntry} {fs' : FS}
    (h : fetched fs = .ok (some entry, fs')) : Fetches fetched fs n ↔ entry.iNodeNum = n := by
  refine ⟨fun ⟨e, fs₁, heq, hn⟩ => ?_, fun hn => ⟨entry, fs', h, hn⟩⟩
  rw [h] at heq
  cases heq
  exact hn

/-- The upper bytes of the number are those of the buffer. -/
theorem iNodeNum_overlay_eq (entry e : DirectoryEntry) :
    (entry.overlay e).iNodeNum = e.iNodeNum ↔ entry.iNodeNum < 65536 := by
  simp only [DirectoryEntry.overlay]
  omega

variable (h : DirectoryFile fs.disk (fs.inode node))
  (hp : Disk.FirstMatch fs.disk (fs.inode node) name p)

include h hp

/-- The entry is copied over the buffer, which keeps its upper bytes of the number. -/
theorem unlinkEntry_eq (env : Env) : ∃ fs', unlinkEntry env node name fs =
    .ok (some (env.entry.overlay (fs.disk.entryAt (fs.inode node).dataBlockNums p)), fs') :=
  ⟨_, NaoM.bind_eq_ok.mpr ⟨_, _, searchINodeDirectoryEntries_ok (Disk.searchUnlink_eq h hp env _ 0), rfl⟩⟩

/-- The same in `removeDestinationIfExists`. -/
theorem removeEntry_eq (env : Env) : removeEntry env node name fs =
    .ok (some (env.entry.overlay (fs.disk.entryAt (fs.inode node).dataBlockNums p)), fs) :=
  NaoM.bind_eq_ok.mpr ⟨_, _, searchINodeDirectoryEntries_ok (Disk.search_found h hp env _ 0), rfl⟩

/-- `operate` clears its buffer first. -/
theorem operateEntry_eq (env : Env) (hname : name ≠ []) : operateEntry env name node fs =
    .ok (some (fs.disk.entryAt (fs.inode node).dataBlockNums p), fs) := by
  rw [operateEntry, if_neg hname]
  refine NaoM.bind_eq_ok.mpr ⟨_, _, searchINodeDirectoryEntries_ok (Disk.search_found h hp env _ 0), ?_⟩
  rw [DirectoryEntry.overlay_of_lt (show emptyEntry.iNodeNum < 65536 by decide)]
  rfl

/-- The inode of the entry is fetched exactly if the upper bytes of the buffer are zero. -/
theorem unlinkEntry_fetches (env : Env) :
    Fetches (unlinkEntry env node name) fs (fs.disk.entryAt (fs.inode node).dataBlockNums p).iNodeNum ↔
      env.entry.iNodeNum < 65536 := by
  obtain ⟨fs', heq⟩ := unlinkEntry_eq h hp env
  rw [fetches_of_eq heq, iNodeNum_overlay_eq]

/-- The same in `removeDestinationIfExists`. -/
theorem removeEntry_fetches (env : Env) :
    Fetches (removeEntry env node name) fs (fs.disk.entryAt (fs.inode node).dataBlockNums p).iNodeNum ↔
      env.entry.iNodeNum < 65536 := by
  rw [fetches_of_eq (removeEntry_eq h hp env), iNodeNum_overlay_eq]

/-- In `operate` they are zero. -/
theorem operateEntry_fetches (env : Env) :
    Fetches (operateEntry env name node) fs (fs.disk.entryAt (fs.inode node).dataBlockNums p).iNodeNum ↔
      name ≠ [] := by
  refine ⟨fun ⟨e, fs', heq, _⟩ hname => ?_, fun hname => ⟨_, _, operateEntry_eq h hp env hname, rfl⟩⟩
  rw [operateEntry, if_pos hname] at heq
  cases heq

/-- **When the number does not depend on what was in memory**: the calls agree on the stored
number if both buffers are zero in the bytes that no entry fills. -/
theorem fetchLaw_iff (env : Env) (entry entry' : DirectoryEntry) :
    FetchLaw env entry entry' fs node name (fs.disk.entryAt (fs.inode node).dataBlockNums p).iNodeNum ↔
      name ≠ [] ∧ entry.iNodeNum < 65536 ∧ entry'.iNodeNum < 65536 := by
  have hunlink := fun e => unlinkEntry_fetches h hp { env with entry := e }
  have hremove := fun e => removeEntry_fetches h hp { env with entry := e }
  have hresolve := operateEntry_fetches h hp env
  constructor
  · intro hlaw
    exact ⟨hresolve.mp hlaw.resolve, (hunlink entry).mp hlaw.unlink, (hunlink entry').mp hlaw.unlink'⟩
  · rintro ⟨hname, he, he'⟩
    exact ⟨(hunlink entry).mpr he, (hunlink entry').mpr he', (hremove entry).mpr he,
      (hremove entry').mpr he', hresolve.mpr hname⟩

end Law

/-- A directory with one entry, `a`. -/
theorem exists_oneEntry : ∃ fs : FS, DirectoryFile fs.disk (fs.inode 0) ∧
    Disk.FirstMatch fs.disk (fs.inode 0) [0x61] 0 := by
  obtain ⟨fs, hdisk, hinode, -⟩ := exists_open (oneBlockDirectory 64 16388) Disk.oneEntryDisk
  have h := Disk.directoryFile_oneEntryDisk (show 0 < 64 by decide) (by decide) (by decide)
  have hlabel : (Disk.oneEntryDisk.entryAt (oneBlockDirectory 64 16388).dataBlockNums 0).label =
      [0x61] := by
    rw [← Disk.getElem_entries (x := oneBlockDirectory 64 16388)
      (by rw [Disk.entries_oneEntryDisk]; decide)]
    simp only [Disk.entries_oneEntryDisk]
    decide
  have hp : Disk.FirstNamed Disk.oneEntryDisk (oneBlockDirectory 64 16388) [0x61] 0 :=
    ⟨by decide, hlabel, fun i hi => absurd hi (Nat.not_lt_zero i)⟩
  refine ⟨fs, ?_, ?_⟩
  · rw [hdisk, hinode]
    exact h
  · rw [hdisk, hinode]
    exact hp.firstMatch (by decide) Disk.namesEnd_oneEntryDisk

/-- Two buffers with other bytes in them, which are zero behind the number. -/
theorem fetchLaw_cleared : ∃ fs : FS, ∃ n, FetchLaw blankEnv ⟨.tabulate fun _ => 0x41, 7⟩
    ⟨.tabulate fun _ => 0, 40000⟩ fs 0 [0x61] n := by
  obtain ⟨fs, h, hp⟩ := exists_oneEntry
  exact ⟨fs, _, (fetchLaw_iff h hp blankEnv _ _).mpr (by decide)⟩

/-- A buffer that holds the number 65536 makes another number of the stored one. -/
theorem fetch_uncleared : ¬ ∀ (env : Env) (entry entry' : DirectoryEntry) (fs : FS) (node : NodeId)
    (name : Name) (p : Nat), name ≠ [] → DirectoryFile fs.disk (fs.inode node) →
    Disk.FirstMatch fs.disk (fs.inode node) name p →
    FetchLaw env entry entry' fs node name
      (fs.disk.entryAt (fs.inode node).dataBlockNums p).iNodeNum := by
  intro hall
  obtain ⟨fs, h, hp⟩ := exists_oneEntry
  have hlaw := hall blankEnv ⟨.tabulate fun _ => 0, 65536⟩ emptyEntry fs 0 [0x61] 0 (by decide) h hp
  have hlt := (unlinkEntry_fetches h hp _).mp hlaw.unlink
  exact absurd hlt (by decide)

end FS

end Naofs
