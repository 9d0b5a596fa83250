import Naofs.Descriptors
import Naofs.Read

/-!
# Naofs.Interface

The calls that take a path: `getAttr.c`, `create.c`, `truncate.c`, `unlink.c`,
`rename.c` and `readDirectory` of `read.c`.

A pointer that a call uses without a check is a fault where it is null.  `entry` of
`Env` is what `malloc` returns for a `directoryEntry` that is not cleared.
-/

namespace Naofs

/-! ## Paths -/

/-- `getParentDirectory`: the path up to its last slash, which is kept. -/
def getParentDirectory (path : Name) : Except Fault Name :=
  if slash ∈ path then .ok (path.reverse.dropWhile (· ≠ slash)).reverse else .error .nullPointer

/-- `getFilenameFromPath`: what follows the last slash. -/
def getFilenameFromPath (path : Name) : Except Fault Name :=
  if slash ∈ path then .ok (path.reverse.takeWhile (· ≠ slash)).reverse else .error .nullPointer

/-- The name of an entry as a string; without a zero byte it would go on behind the array. -/
def DirectoryEntry.string (entry : DirectoryEntry) : Except Fault Name :=
  let bytes := (List.range filenameSize).map entry.name.peek
  if 0 ∈ bytes then .ok (bytes.takeWhile (· ≠ 0)) else .error .outOfBounds

/-- A computation that does not depend on the state. -/
def NaoM.ofExcept {α : Type} (x : Except Fault α) : NaoM α :=
  fun fs => do
    let a ← x
    .ok (a, fs)

namespace FS

open InCoreINode (wrapSize)

/-- The common frame of many calls: the inode is locked while `body` runs, and then it is
unlocked and given back. -/
def underLock (env : Env) (node : NodeId) (body : NaoM Int) : NaoM Int := do
  mutexLock node
  let retVal ← body
  mutexUnlock node
  let _ ← iput env.now node
  pure retVal

/-! ## Attributes -/

/-- The fields of `struct stat` that are set. -/
structure Stat where
  atime : UInt64
  mtime : UInt64
  ctime : UInt64
  mode : UInt32
  size : Nat
  uid : UInt32
  gid : UInt32

def attrPopulate (env : Env) (path : Name) : NaoM (Int × Option Stat) := do
  match ← getFileINode env path with
  | none => pure (eNoent, none)
  | some node =>
      let inode := (← get).inode node
      let _ ← iput env.now node
      pure (0, some ⟨inode.access, inode.modification, inode.statusChange, inode.fileMode, inode.size,
        inode.ownerUid, inode.groupUid⟩)

/-- `changeMode` and `changeOwner`: the inode of the path is changed while it is locked. -/
def changeINode (env : Env) (path : Name) (assign : InCoreINode → InCoreINode) : NaoM Int := do
  match ← getFileINode env path with
  | none => pure eNoent
  | some node =>
      underLock env node do
        onINode node fun iNode d => .ok (assign iNode, d)
        pure 0

def changeMode (env : Env) (path : Name) (mode : UInt32) : NaoM Int :=
  changeINode env path (·.assignMode mode)

def changeOwner (env : Env) (path : Name) (uid gid : UInt32) : NaoM Int :=
  changeINode env path (·.assignOwner uid gid)

/-! ## Reading a directory -/

/-- The loop of `fillDirectoryEntries`, with the entries that were passed to the filler. -/
def fillDirectoryLoop (env : Env) (node : NodeId) (entriesInDirectory : Nat) : (fuel : Nat) →
    (entriesOffset : Nat) → List DirectoryEntry → NaoM (List DirectoryEntry)
  | 0, _, _ => throw .diverges
  | fuel + 1, entriesOffset, filled =>
      if entriesOffset < entriesInDirectory then do
        let (retValue, entryBuffer) ← searchINodeDirectoryEntries env node none entriesOffset
          (fun _ => emptyEntry) directoryEntriesInBlock false
        let entriesRead := wrapSize retValue
        if entriesRead > directoryEntriesInBlock then throw .outOfBounds
        else
          fillDirectoryLoop env node entriesInDirectory fuel (entriesOffset + entriesRead)
            (filled ++ (List.range entriesRead).map entryBuffer)
      else pure filled

def fillDirectoryEntries (env : Env) (node : NodeId) : NaoM (List DirectoryEntry) := do
  let entriesInDirectory := ((← get).inode node).size / directoryEntrySize
  fillDirectoryLoop env node entriesInDirectory (entriesInDirectory + 1) 0 []

def readDirectory (env : Env) (path : Name) : NaoM (Int × List DirectoryEntry) := do
  match ← getFileINode env path with
  | none => pure (-1, [])
  | some node =>
      let filled ← fillDirectoryEntries env node
      let _ ← iput env.now node
      pure (0, filled)

/-! ## Creating and truncating files -/

def updateINodeMetadata (env : Env) (node : NodeId) (sizeDifference : Int) (linkCount : Nat) :
    NaoM Unit :=
  onINode node fun iNode d => .ok (iNode.updateINodeMetadata env.now sizeDifference linkCount, d)

def getAndUpdateDirectoryTable (env : Env) (parentINode : NodeId) (newInodeNumber : Nat)
    (filename : Name) : NaoM Unit :=
  onINode parentINode fun iNode d =>
    d.getAndUpdateDirectoryTable env iNode newInodeNumber (Disk.bytesOf env filename)

def updateNewDirMetaData (env : Env) (node : NodeId) (parentINodeNumber : Nat) : NaoM Unit :=
  onINode node fun iNode d => d.updateNewDirMetaData env iNode parentINodeNumber

def getNewINode (env : Env) (fileType : INodeType) (mode uid gid : UInt32) : NaoM Nat :=
  fun fs =>
    let (iNodeNum, disk) := fs.disk.getNewINode env.now fileType mode uid gid
    .ok (iNodeNum, { fs with disk })

def getParentINode (env : Env) (path : Name) : NaoM (Option NodeId) := do
  let parentDirPath ← NaoM.ofExcept (getParentDirectory path)
  getFileINode env parentDirPath

def doesFileExistIn (env : Env) (filename : Name) (parentINode : NodeId) : NaoM Bool := do
  let (retValue, _) ← searchINodeDirectoryEntries env parentINode (some filename) 0
    (fun _ => env.entry) 0 false
  pure (decide (retValue > 0))

/-- `validateThenGetParentINode`: the parent and the name of the file.  The reference to a
parent that has the name already is not given back. -/
def validateThenGetParentINode (env : Env) (fileType : INodeType) (path : Name) :
    NaoM (Option (NodeId × Name)) :=
  if fileType ≠ .directory ∧ fileType ≠ .regular then pure none
  else do
    match ← getParentINode env path with
    | none => pure none
    | some parentINode =>
        let filename ← NaoM.ofExcept (getFilenameFromPath path)
        if ← doesFileExistIn env filename parentINode then pure none
        else pure (some (parentINode, filename))

/-- The links of a new file, or the first two entries of a new directory. -/
def initNewINode (env : Env) (fileType : INodeType) (newINode parentINode : NodeId) : NaoM Unit :=
  fun fs =>
    match fileType with
    | .regular => updateINodeMetadata env newINode 0 1 fs
    | .directory => updateNewDirMetaData env newINode (fs.inode parentINode).iNodeNumber fs
    | .free => .ok ((), fs)

def createFile (env : Env) (path : Name) (fileType : INodeType) (mode uid gid : UInt32) :
    NaoM Int := do
  match ← validateThenGetParentINode env fileType path with
  | none => pure (-1)
  | some (parentINode, filename) =>
      let mode := if fileType = .directory then InCoreINode.sIfdir ||| mode else mode
      let iNodeNum ← getNewINode env fileType mode uid gid
      getAndUpdateDirectoryTable env parentINode iNodeNum filename
      match ← iget iNodeNum 0 with
      | none => throw .nullPointer
      | some newINode =>
          initNewINode env fileType newINode parentINode
          let _ ← iput env.now parentINode
          let _ ← iput env.now newINode
          pure 0

/-- `truncateFile`, which returns from a directory without giving anything back. -/
def truncateFile (env : Env) (path : Name) (size : Nat) : NaoM Int := do
  match ← getFileINode env path with
  | none => pure eNoent
  | some fileINode =>
      mutexLock fileINode
      if ((← get).inode fileINode).type = .directory then pure eIsdir
      else
        truncateINode env fileINode size
        mutexUnlock fileINode
        let _ ← iput env.now fileINode
        pure 0

/-! ## Removing files -/

def unlinkFileFromINode (env : Env) (parentINode : NodeId) (filename : Name) : NaoM Int := do
  let (retVal, entry) ← searchINodeDirectoryEntries env parentINode (some filename) 0
    (fun _ => env.entry) 0 true
  if retVal ≠ 1 then pure (-1)
  else
    match ← iget (entry 0).iNodeNum 0 with
    | none => throw .nullPointer
    | some deletedFile =>
        mutexLock deletedFile
        updateINodeMetadata env deletedFile 0
          (wrapSize (((← get).inode deletedFile).linksCount - 1))
        mutexUnlock deletedFile
        let _ ← iput env.now deletedFile
        truncateINode env parentINode
          (wrapSize (((← get).inode parentINode).size - directoryEntrySize))
        pure 0

def unlinkFile (env : Env) (path : Name) : NaoM Int := do
  match ← getParentINode env path with
  | none => pure eNoent
  | some parentINode =>
      underLock env parentINode do
        let filename ← NaoM.ofExcept (getFilenameFromPath path)
        unlinkFileFromINode env parentINode filename

/-- `-EACCES`, `-ENOTDIR` and `-ENOTEMPTY`. -/
@[simp] abbrev eAcces : Int := -13
@[simp] abbrev eNotdir : Int := -20
@[simp] abbrev eNotempty : Int := -39

def getLastEntry (env : Env) (node : NodeId) : NaoM DirectoryEntry :=
  fun fs => do
    let entry ← fs.disk.getLastEntry env (fs.inode node) emptyEntry
    .ok (entry, fs)

/-- Only directories are validated. -/
def validateIfDirectory (validate : NodeId → NaoM Int) (node : NodeId) : NaoM Int :=
  fun fs => if (fs.inode node).type = .directory then validate node fs else .ok (0, fs)

/-- The loop of `emptyDir`, which counts bytes against entries. -/
def emptyDirLoop (env : Env) (validate : NodeId → NaoM Int) (fileINode : NodeId)
    (entriesInDirectory : Nat) : (fuel : Nat) → (entriesOffset : Nat) → NaoM Int
  | 0, _ => throw .diverges
  | fuel + 1, entriesOffset =>
      if entriesOffset < entriesInDirectory then do
        let entry ← getLastEntry env fileINode
        match ← iget entry.iNodeNum 0 with
        | none => throw .nullPointer
        | some fileEntry =>
            let retVal ← underLock env fileEntry (validateIfDirectory validate fileEntry)
            if retVal < 0 then pure retVal
            else
              let name ← NaoM.ofExcept entry.string
              let _ ← unlinkFileFromINode env fileINode name
              emptyDirLoop env validate fileINode entriesInDirectory fuel
                (entriesOffset + directoryEntrySize)
      else pure 0

def emptyDir (env : Env) (validate : NodeId → NaoM Int) (fileINode : NodeId) : NaoM Int := do
  let entriesInDirectory := ((← get).inode fileINode).size / directoryEntrySize
  emptyDirLoop env validate fileINode entriesInDirectory (entriesInDirectory + 1)
    (2 * directoryEntrySize)

/-- `validateAndEmptyDirectoryIfNeeded`, with the number of calls that may be nested: each
of them keeps a node of the cache locked. -/
def validateAndEmptyDirectory (env : Env) : (depth : Nat) → (force : Bool) → NodeId → NaoM Int
  | 0, _, _ => throw .diverges
  | depth + 1, force, fileINode => do
      let inode := (← get).inode fileINode
      if inode.iNodeNumber = 0 then pure eAcces
      else if inode.size > 2 * directoryEntrySize ∧ ¬ force then pure eNotempty
      else if inode.type ≠ .directory then pure eNotdir
      else if force ∧ inode.size > 2 * directoryEntrySize then
        emptyDir env (validateAndEmptyDirectory env depth true) fileINode
      else pure 0

def validateAndEmptyDirectoryIfNeeded (env : Env) (fileINode : NodeId) (force : Bool) : NaoM Int :=
  validateAndEmptyDirectory env (inodeBufferSize + 1) force fileINode

def unlinkDir (env : Env) (path : Name) (force : Bool) : NaoM Int := do
  match ← getFileINode env path with
  | none => throw .nullPointer
  | some fileINode =>
      let retVal ← underLock env fileINode (validateAndEmptyDirectoryIfNeeded env fileINode force)
      if retVal < 0 then pure retVal else unlinkFile env path

/-! ## Renaming files -/

def removeDestinationIfExists (env : Env) (parentINode : NodeId) (filename : Name) : NaoM Int := do
  let (retVal, entry) ← searchINodeDirectoryEntries env parentINode (some filename) 0
    (fun _ => env.entry) 0 false
  if retVal = 1 then
    match ← iget (entry 0).iNodeNum 0 with
    | none => throw .nullPointer
    | some destination =>
        let retVal ← underLock env destination
          (validateIfDirectory (validateAndEmptyDirectoryIfNeeded env · true) destination)
        if retVal < 0 then pure retVal
        else
          let name ← NaoM.ofExcept (entry 0).string
          let retVal ← unlinkFileFromINode env parentINode name
          if retVal < 0 then pure retVal else pure 0
  else pure 0

/-- `renameFile`.  The reference to the file is not given back where the new parent does not
exist. -/
def renameFile (env : Env) (fromPath toPath : Name) : NaoM Int := do
  match ← getFileINode env fromPath with
  | none => pure eNoent
  | some fileINode =>
      match ← getParentINode env toPath with
      | none => pure eNoent
      | some toParentINode =>
          mutexLock toParentINode
          let newFilename ← NaoM.ofExcept (getFilenameFromPath toPath)
          let retVal ← removeDestinationIfExists env toParentINode newFilename
          if retVal < 0 then
            let _ ← iput env.now fileINode
            mutexUnlock toParentINode
            let _ ← iput env.now toParentINode
            pure retVal
          else
            mutexLock fileINode
            getAndUpdateDirectoryTable env toParentINode ((← get).inode fileINode).iNodeNumber
              newFilename
            updateINodeMetadata env fileINode 0
              (wrapSize (((← get).inode fileINode).linksCount + 1))
            mutexUnlock toParentINode
            let _ ← iput env.now toParentINode
            mutexUnlock fileINode
            let _ ← iput env.now fileINode
            let retVal ← unlinkFile env fromPath
            if retVal ≠ 0 then pure (-1) else pure 0

end FS

end Naofs
