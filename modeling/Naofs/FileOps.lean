import Naofs.IGet
import Naofs.Write

/-!
# Naofs.FileOps

Files through their descriptors: the global file table (`globalFileTable.c`),
`writeToFile` (`write.c`) and `truncateINode` (`truncate.c`).

A call is a function on the state of the file system that may fault.  `Env` is
what it finds outside of that state.
-/

namespace Naofs

/-- `struct directoryEntry`.  The number is an `ssize_t`, kept as its 64 bits. -/
structure DirectoryEntry where
  name : Buffer UInt8 filenameSize
  iNodeNum : Nat

/-- The time, what the structs hold that `malloc` returns, and the bytes behind a string. -/
structure Env where
  now : UInt64
  response : BmapResponse
  entry : DirectoryEntry
  memory : Nat → UInt8

/-- A call that may change the file system, or fault. -/
abbrev NaoM := StateT FS (Except Fault)

/-! ## Shrinking a file -/

namespace Disk

open InCoreINode (wrapSize toCInt)

/-- The loop of `decreaseFileSizeBy`; the result of `bmap` is not looked at. -/
def decreaseLoop (now : UInt64) (size : Nat) : (fuel : Nat) → (iNode : InCoreINode) → Disk →
    (offset bytesReduced : Nat) → BmapResponse → Except Fault (InCoreINode × Disk)
  | 0, _, _, _, _, _ => .error .diverges
  | fuel + 1, iNode, d, offset, bytesReduced, bmapResp =>
      if bytesReduced < size then do
        let (_, bmapResp, iNode, d) ← d.bmap iNode offset bmapResp .read
        if size - bytesReduced < bmapResp.byteOffsetInBlock + 1 then
          .ok (iNode.updateINodeMetadata now
            (toCInt (wrapSize (-(size - bytesReduced : Nat)))) iNode.linksCount, d)
        else
          let d ← d.freeDataBlockInINode iNode bmapResp.blockNumber
          decreaseLoop now size fuel
            (iNode.updateINodeMetadata now
              (toCInt (wrapSize (-(bmapResp.byteOffsetInBlock + 1 : Nat)))) iNode.linksCount) d
            (wrapSize (offset - (bmapResp.byteOffsetInBlock + 1 : Nat)))
            (bytesReduced + (bmapResp.byteOffsetInBlock + 1)) bmapResp
      else .ok (iNode, d)

def decreaseFileSizeBy (d : Disk) (now : UInt64) (bmapResp : BmapResponse) (iNode : InCoreINode)
    (size : Nat) : Except Fault (InCoreINode × Disk) :=
  decreaseLoop now size (size + 1) iNode d (wrapSize (iNode.size - 1)) 0 bmapResp

def truncateINode (d : Disk) (env : Env) (iNode : InCoreINode) (size : Nat) :
    Except Fault (InCoreINode × Disk) :=
  if iNode.size = size then .ok (iNode, d)
  else if iNode.size > size then
    d.decreaseFileSizeBy env.now env.response iNode (iNode.size - size)
  else d.increaseFileSizeBy env.now env.response iNode (size - iNode.size)

end Disk

namespace FS

open InCoreINode (toCInt)

/-- A function on an inode and the disk, applied to the inode of a node. -/
def onINode (node : NodeId) (f : InCoreINode → Disk → Except Fault (InCoreINode × Disk)) : NaoM Unit :=
  fun fs => do
    let (iNode, disk) ← f (fs.inode node) fs.disk
    .ok ((), { fs with disk }.setInode node iNode)

theorem onINode_ok {node : NodeId} {f : InCoreINode → Disk → Except Fault (InCoreINode × Disk)}
    {fs : FS} {y : InCoreINode} {d : Disk} (h : f (fs.inode node) fs.disk = .ok (y, d)) :
    onINode node f fs = .ok ((), { fs with disk := d }.setInode node y) := by
  simp only [onINode, h, bind, Except.bind]

def truncateINode (env : Env) (node : NodeId) (size : Nat) : NaoM Unit :=
  onINode node fun iNode d => d.truncateINode env iNode size

/-! ## The file table -/

/-- `-EBADF`. -/
@[simp] abbrev eBadf : Int := -9

/-- `getFileDescriptor`: the error and the index of the entry.  A negative
descriptor is an index before the table. -/
def getFileDescriptor (fs : FS) (fd : Int) : Except Fault (Int × Option Nat) :=
  if fd ≥ maxFileDescriptors then .ok (eBadf, none)
  else if fd < 0 then .error .outOfBounds
  else if ¬ (fs.fileTable fd.toNat).validEntry then .ok (eBadf, none)
  else .ok (0, some fd.toNat)

/-- `-ENFILE`. -/
@[simp] abbrev eNfile : Int := -23

def createAndGetFileDescriptor (fs : FS) (pid : Int) (inode : NodeId) (flags : Int) (offset : Nat) :
    Int × FS :=
  match (List.range maxFileDescriptors).find? fun i => ¬ (fs.fileTable i).validEntry with
  | some counter =>
      (counter, { fs with
        fileTable := Function.update fs.fileTable counter ⟨some inode, pid, flags, offset, true⟩ })
  | none => (eNfile, fs)

/-- `writeToFile` once the entry `fd` is found and its inode is locked. -/
def writeLocked (env : Env) (fd : Nat) (node : NodeId) (buf : Nat → UInt8) (size offset : Nat) :
    NaoM Int :=
  fun fs =>
    if offset > (fs.inode node).size then .ok (-1, fs.unlock node)
    else do
      let s ← Disk.writeLoop env.now buf size (size + 1)
        ⟨fs.inode node, fs.disk, env.response, 0, offset, 0⟩
      let entry := fs.fileTable fd
      let fs := { fs with
        disk := s.disk
        fileTable := Function.update fs.fileTable fd
          { entry with offset := InCoreINode.wrapSize (entry.offset + s.moved) } }
      .ok (s.bytesWritten, (fs.setInode node s.iNode).unlock node)

/-- `writeToFile` of `size` bytes; the offset is kept as its 64 bits. -/
def writeToFile (env : Env) (fh : Nat) (buf : Nat → UInt8) (size offset : Nat) : NaoM Int :=
  fun fs => do
    let (_, entry) ← fs.getFileDescriptor (toCInt fh)
    match entry with
    | none => .ok (-1, fs)
    | some fd =>
        match (fs.fileTable fd).inode with
        | none => .error .nullPointer
        | some node =>
            let fs ← fs.lock node
            writeLocked env fd node buf size offset fs

section Calls

variable {fs : FS} {node : NodeId} {fd : Nat}

/-- An open descriptor of a node. -/
structure Open (fs : FS) (fd : Nat) (node : NodeId) : Prop where
  lt : fd < maxFileDescriptors
  valid : (fs.fileTable fd).validEntry = true
  inode : (fs.fileTable fd).inode = some node

theorem Open.getFileDescriptor (h : fs.Open fd node) :
    fs.getFileDescriptor (toCInt fd) = .ok (0, some fd) := by
  have hlt := h.lt
  simp only [maxFileDescriptors] at hlt
  rw [InCoreINode.toCInt_of_lt (z := fd) (by omega) (by omega)]
  unfold FS.getFileDescriptor
  rw [if_neg (by simp; omega), if_neg (by omega), if_neg (by simp [h.valid])]
  rfl

/-- The state after a write that left the loop in `s`. -/
def written (fs : FS) (fd : Nat) (node : NodeId) (s : Disk.WriteState) : FS :=
  { fs with
    disk := s.disk
    cache := { fs.cache with
      inode := Function.update fs.cache.inode node { s.iNode with iNodeMutex := false } }
    fileTable := Function.update fs.fileTable fd
      { fs.fileTable fd with
        offset := InCoreINode.wrapSize ((fs.fileTable fd).offset + s.moved) } }

theorem inode_written (s : Disk.WriteState) : (fs.written fd node s).inode =
    Function.update fs.inode node { s.iNode with iNodeMutex := false } := rfl

/-- A call through an open descriptor locks the inode. -/
theorem writeToFile_open (h : fs.Open fd node) (hmutex : (fs.inode node).iNodeMutex = false)
    (env : Env) (buf : Nat → UInt8) (size offset : Nat) :
    fs.writeToFile env fd buf size offset = writeLocked env fd node buf size offset
      (fs.setInode node { fs.inode node with iNodeMutex := true }) := by
  unfold writeToFile
  rw [h.getFileDescriptor]
  simp only [bind, Except.bind, h.inode, lock_of_free hmutex]

/-- A write past the end of the file is refused. -/
theorem writeToFile_past (h : fs.Open fd node) (hmutex : (fs.inode node).iNodeMutex = false)
    (env : Env) (buf : Nat → UInt8) (size : Nat) {offset : Nat} (hoff : (fs.inode node).size < offset) :
    fs.writeToFile env fd buf size offset =
      .ok (-1, fs.setInode node { fs.inode node with iNodeMutex := false }) := by
  rw [writeToFile_open h hmutex, writeLocked, inode_setInode_self, if_pos hoff]
  simp [unlock, setInode, inode]

/-- A write through an open descriptor runs the loop on the inode and the disk. -/
theorem writeToFile_eq (h : fs.Open fd node) (hmutex : (fs.inode node).iNodeMutex = false)
    (env : Env) (buf : Nat → UInt8) (size : Nat) {offset : Nat}
    (hoff : offset ≤ (fs.inode node).size) :
    fs.writeToFile env fd buf size offset =
      (Disk.writeLoop env.now buf size (size + 1)
        ⟨{ fs.inode node with iNodeMutex := true }, fs.disk, env.response, 0, offset, 0⟩).map
        fun s => (s.bytesWritten, fs.written fd node s) := by
  rw [writeToFile_open h hmutex, writeLocked, inode_setInode_self, if_neg (Nat.not_lt.mpr hoff)]
  have hdisk : (fs.setInode node { fs.inode node with iNodeMutex := true }).disk = fs.disk := rfl
  rw [hdisk]
  cases Disk.writeLoop env.now buf size (size + 1)
      ⟨{ fs.inode node with iNodeMutex := true }, fs.disk, env.response, 0, offset, 0⟩ with
  | error e => rfl
  | ok s => simp [Except.map, bind, Except.bind, unlock, setInode, inode, written]

/-- Appending to a file. -/
theorem writeToFile_grows (h : fs.Open fd node) (hmutex : (fs.inode node).iNodeMutex = false)
    (env : Env) (buf : Nat → UInt8) {size : Nat}
    (hmax : (fs.inode node).size + size ≤ maxFileSize) :
    ∃ s new, fs.writeToFile env fd buf size (fs.inode node).size =
        .ok (s.bytesWritten, fs.written fd node s) ∧
      s.iNode.size ≤ (fs.inode node).size + size ∧
      Disk.Grows { fs.inode node with iNodeMutex := true } fs.disk s.iNode s.disk new := by
  have hsize : size ≤ maxFileSize := by omega
  obtain ⟨s, new, hloop, hs, hg⟩ := Disk.writeLoop_grows env.now buf hsize (size + 1)
    ⟨{ fs.inode node with iNodeMutex := true }, fs.disk, env.response, 0, (fs.inode node).size, 0⟩
    rfl (Int.le_refl 0) (by simp only; omega) (by simp) (by simpa using hmax)
  refine ⟨s, new, ?_, by simpa using hs, hg⟩
  rw [writeToFile_eq h hmutex env buf size (Nat.le_refl _), hloop]
  rfl

end Calls

end FS

end Naofs
