import Naofs.Supply

/-!
# Naofs.Directory

Directories (`directory.c`): files whose contents are entries of 64 bytes, a name
of 62 bytes and an inode number of 2 bytes.

A name in core is a list of bytes without the zero byte at its end.  Reading or
writing an entry past the end of the block it is in is a fault.
-/

namespace Naofs

/-- The name of a file, without the zero byte at its end. -/
abbrev Name := List UInt8

/-- `S_ISDIR`. -/
def sIsdir (mode : UInt32) : Bool := mode &&& 0o170000 == InCoreINode.sIfdir

/-- Whether `validateSearch` returns 0; the mask for `S_IXUSR` is compared with itself. -/
def validateSearch (iNodePtr : InCoreINode) : Bool := sIsdir iNodePtr.fileMode

/-! ## Entries in a block -/

namespace DirectoryEntry

/-- The number of an entry that is not one, `-1`. -/
@[simp] abbrev noINode : Nat := 2 ^ 64 - 1

/-- Copy the entry at an offset of a block; of the number only two bytes are stored. -/
def read (entry : DirectoryEntry) (blockPtr : DiskBlock) (offset : Nat) :
    Except Fault DirectoryEntry :=
  if offset + directoryEntrySize > blockSize then .error .outOfBounds
  else .ok
    { name := .tabulate fun i => blockPtr.peek (offset + i)
      iNodeNum := entry.iNodeNum / 65536 * 65536 +
        blockPtr.readNat (offset + filenameSize) inodeAddressSize }

/-- Store a name and a number at an offset of a block. -/
def write (blockPtr : DiskBlock) (offset : Nat) (name : Nat → UInt8) (iNodeNum : Nat) :
    Except Fault DiskBlock :=
  if offset + directoryEntrySize > blockSize then .error .outOfBounds
  else .ok ((blockPtr.copyIn offset filenameSize name).writeNat (offset + filenameSize)
    inodeAddressSize iNodeNum)

end DirectoryEntry

/-- `strcmp` of the string at an offset of a block and a name. -/
def strcmp (blockPtr : DiskBlock) : (offset : Nat) → Name → Except Fault Bool
  | offset, [] => if offset ≥ blockSize then .error .outOfBounds else .ok (blockPtr.peek offset == 0)
  | offset, c :: name =>
      if offset ≥ blockSize then .error .outOfBounds
      else if blockPtr.peek offset = c then strcmp blockPtr (offset + 1) name
      else .ok false

/-- The loop of `searchBlockDirectoryEntries` with `left` entries to go.  Returns the
number of entries found, the buffer and the block. -/
def searchBlockLoop (entryName : Option Name) (lastEntry : Option DirectoryEntry) :
    (left offset counter : Nat) → DiskBlock → (Nat → DirectoryEntry) →
    Except Fault (Nat × (Nat → DirectoryEntry) × DiskBlock)
  | 0, _, counter, blockPtr, entryBuffer =>
      .ok (if entryName.isNone then counter else 0, entryBuffer, blockPtr)
  | left + 1, offset, counter, blockPtr, entryBuffer =>
      match entryName with
      | some name => do
          if ← strcmp blockPtr offset name then
            let entry ← (entryBuffer 0).read blockPtr offset
            let entryBuffer := Function.update entryBuffer 0 entry
            match lastEntry with
            | none => .ok (1, entryBuffer, blockPtr)
            | some lastEntry =>
                if lastEntry.iNodeNum = DirectoryEntry.noINode then .ok (1, entryBuffer, blockPtr)
                else
                  let blockPtr ← DirectoryEntry.write blockPtr offset lastEntry.name.peek
                    lastEntry.iNodeNum
                  .ok (1, entryBuffer, blockPtr)
          else
            searchBlockLoop (some name) lastEntry left (offset + directoryEntrySize) (counter + 1)
              blockPtr entryBuffer
      | none => do
          let entry ← (entryBuffer counter).read blockPtr offset
          searchBlockLoop none lastEntry left (offset + directoryEntrySize) (counter + 1) blockPtr
            (Function.update entryBuffer counter entry)

def searchBlockDirectoryEntries (blockPtr : DiskBlock) (entryName : Option Name) (offset : Nat)
    (entryBuffer : Nat → DirectoryEntry) (numOfEntries : Nat) (lastEntry : Option DirectoryEntry) :
    Except Fault (Nat × (Nat → DirectoryEntry) × DiskBlock) :=
  searchBlockLoop entryName lastEntry numOfEntries offset 0 blockPtr entryBuffer

namespace Disk

/-! ## Searching a directory -/

def checkInBlock (d : Disk) (tillEndOfFile : Nat) (bmapResp : BmapResponse)
    (entryName : Option Name) (entryBuffer : Nat → DirectoryEntry)
    (lastEntry : Option DirectoryEntry) : Except Fault (Nat × (Nat → DirectoryEntry) × Disk) := do
  let blockPtr := d.load bmapResp.blockNumber d.backend.junk
  let entriesInBlock :=
    if bmapResp.bytesLeftInBlock > tillEndOfFile then tillEndOfFile / directoryEntrySize
    else bmapResp.bytesLeftInBlock / directoryEntrySize
  let (retValue, entryBuffer, blockPtr) ← searchBlockDirectoryEntries blockPtr entryName
    bmapResp.byteOffsetInBlock entryBuffer entriesInBlock lastEntry
  match lastEntry with
  | none => .ok (retValue, entryBuffer, d)
  | some lastEntry =>
      if lastEntry.iNodeNum ≠ DirectoryEntry.noINode ∧ retValue = 1 then
        .ok (retValue, entryBuffer, d.store bmapResp.blockNumber blockPtr)
      else .ok (retValue, entryBuffer, d)

/-- `getLastEntry`.  The entry of a directory with no more than two entries is reset
and then read all the same; the result of `bmap` is not looked at. -/
def getLastEntry (d : Disk) (env : Env) (iNodePtr : InCoreINode) (entry : DirectoryEntry) :
    Except Fault DirectoryEntry := do
  let entry := if iNodePtr.size ≤ 2 * directoryEntrySize then
    { name := .tabulate fun _ => 0, iNodeNum := DirectoryEntry.noINode } else entry
  let (_, bmapResp, _, d) ← d.bmap iNodePtr
    (InCoreINode.wrapSize (iNodePtr.size - directoryEntrySize)) env.response .read
  entry.read (d.load bmapResp.blockNumber d.backend.junk) bmapResp.byteOffsetInBlock

/-- The loop of `searchINodeDirectoryEntries`; an offset of the directory is passed in
each round. -/
def searchINodeLoop (iNodePtr : InCoreINode) (entryName : Option Name)
    (numOfEntries : Nat) (lastEntry : Option DirectoryEntry) : (fuel : Nat) → Disk →
    (directoryOffset entriesReadTillNow : Nat) → BmapResponse → (Nat → DirectoryEntry) →
    Except Fault (Nat × (Nat → DirectoryEntry) × Disk)
  | 0, _, _, _, _, _ => .error .diverges
  | fuel + 1, d, directoryOffset, entriesReadTillNow, bmapResp, entryBuffer =>
      if entryName.isSome ∨ entriesReadTillNow < numOfEntries then do
        let (retValue, bmapResp, _, d) ← d.bmap iNodePtr directoryOffset bmapResp .read
        if retValue = -1 then .ok (entriesReadTillNow, entryBuffer, d)
        else
          let (entriesRead, shifted, d) ← d.checkInBlock (iNodePtr.size - directoryOffset) bmapResp
            entryName (fun i => entryBuffer (entriesReadTillNow + i)) lastEntry
          let entryBuffer := fun i =>
            if i < entriesReadTillNow then entryBuffer i else shifted (i - entriesReadTillNow)
          let entriesReadTillNow := entriesReadTillNow + entriesRead
          if entryName.isSome ∧ entriesRead = 1 then .ok (entriesReadTillNow, entryBuffer, d)
          else
            searchINodeLoop iNodePtr entryName numOfEntries lastEntry fuel d
              (directoryOffset + directoryEntriesInBlock * directoryEntrySize) entriesReadTillNow
              bmapResp entryBuffer
      else .ok (entriesReadTillNow, entryBuffer, d)

/-- `searchINodeDirectoryEntries`; every round passes 1024 bytes of the directory. -/
def searchINodeDirectoryEntries (d : Disk) (env : Env) (iNodePtr : InCoreINode)
    (entryName : Option Name) (offset : Nat) (entryBuffer : Nat → DirectoryEntry)
    (numOfEntries : Nat) (forUnlink : Bool) :
    Except Fault (Int × (Nat → DirectoryEntry) × Disk) :=
  if ¬ validateSearch iNodePtr then .ok (-1, entryBuffer, d)
  else do
    let lastEntry ← if forUnlink then (d.getLastEntry env iNodePtr env.entry).map some else .ok none
    let (found, entryBuffer, d) ← searchINodeLoop iNodePtr entryName numOfEntries lastEntry
      (iNodePtr.size + 2) d (InCoreINode.wrapSize (offset * directoryEntrySize)) 0 env.response
      entryBuffer
    .ok (found, entryBuffer, d)

/-! ## Adding entries -/

def addDirectoryEntry (d : Disk) (blockNum blockOffset : Nat) (filename : Nat → UInt8)
    (iNodeNum : Nat) : Except Fault Disk := do
  let blockPtr ← DirectoryEntry.write (d.load blockNum d.backend.junk) blockOffset filename iNodeNum
  .ok (d.store blockNum blockPtr)

/-- `getAndUpdateDirectoryTable`.  It returns nothing when it succeeds, and no caller looks
at its result. -/
def getAndUpdateDirectoryTable (d : Disk) (env : Env) (parentINode : InCoreINode)
    (newInodeNumber : Nat) (filename : Nat → UInt8) : Except Fault (InCoreINode × Disk) :=
  if ¬ validateSearch parentINode then .ok (parentINode, d)
  else do
    let (retValue, bmapResp, parentINode, d) ← d.bmap parentINode parentINode.size env.response
      .append
    if retValue = -1 then .ok (parentINode, d)
    else
      let d ← d.addDirectoryEntry bmapResp.blockNumber bmapResp.byteOffsetInBlock filename
        newInodeNumber
      .ok (parentINode.updateINodeMetadata env.now directoryEntrySize parentINode.linksCount, d)

/-- A string in memory, with its zero byte and what follows. -/
def bytesOf (env : Env) (name : Name) : Nat → UInt8 := fun i =>
  if i ≤ name.length then name[i]?.getD 0 else env.memory i

/-- `updateNewDirMetaData`; no caller looks at its result. -/
def updateNewDirMetaData (d : Disk) (env : Env) (iNode : InCoreINode) (parentINodeNumber : Nat) :
    Except Fault (InCoreINode × Disk) := do
  let (retValue, bmapResp, iNode, d) ← d.bmap iNode iNode.size env.response .append
  if retValue = -1 then .ok (iNode, d)
  else
    let d ← d.addDirectoryEntry bmapResp.blockNumber bmapResp.byteOffsetInBlock
      (bytesOf env [0x2e]) iNode.iNodeNumber
    let d ← d.addDirectoryEntry bmapResp.blockNumber
      (bmapResp.byteOffsetInBlock + directoryEntrySize) (bytesOf env [0x2e, 0x2e]) parentINodeNumber
    .ok (iNode.updateINodeMetadata env.now (2 * directoryEntrySize) 2, d)

/-! ## Adding an entry while the free list can supply the block -/

section Uses

variable {d : Disk} {x : InCoreINode} {l : List Nat}

theorem addDirectoryEntry_ok (d : Disk) (blk : Nat) {offset : Nat} (h : offset + 64 ≤ 1024)
    (name : Nat → UInt8) (num : Nat) :
    d.addDirectoryEntry blk offset name num = .ok (d.store blk
      (((d.load blk d.backend.junk).copyIn offset 62 name).writeNat (offset + 62) 2 num)) := by
  simp only [addDirectoryEntry, DirectoryEntry.write, if_neg (show ¬ (offset + directoryEntrySize >
    blockSize) by simp; omega)]
  rfl

/-- An entry that fits into its block is added to the end of the directory. -/
theorem getAndUpdateDirectoryTable_uses (env : Env) (num : Nat) (name : Nat → UInt8)
    (hdir : validateSearch x) (hfit : x.size % 1024 + 64 ≤ 1024) (hx : x.size + 64 ≤ maxFileSize)
    (hcap : 2 < d.backend.capacity) (hfree : FreeBlocks d l)
    (hown : Own d.backend (l ++ d.fileBlocks x.dataBlockNums (blockCount x.size)))
    (hlen : endNeeds x.size ≤ l.length) :
    ∃ y d', d.getAndUpdateDirectoryTable env x num name = .ok (y, d') ∧ y.size = x.size + 64 ∧
      Uses x d y d' l (endNeeds x.size) := by
  obtain ⟨blk, y, d₁, heq, hys, hlinks, hsz, huses, -⟩ := uses_end (n := 64) env.response env.now
    (by omega) (by omega) hx hcap hfree hown hlen
  have h64 : InCoreINode.toCInt (64 : Nat) = 64 :=
    InCoreINode.toCInt_of_lt (by omega) (by omega)
  rw [h64] at hsz huses
  have hadd := addDirectoryEntry_ok d₁ blk hfit name num
  refine ⟨_, _, ?_, hsz, huses (((d₁.load blk d₁.backend.junk).copyIn (x.size % 1024) 62
    name).writeNat (x.size % 1024 + 62) 2 num)⟩
  rw [getAndUpdateDirectoryTable, if_neg (by simpa using hdir)]
  refine bind_eq_ok.mpr ⟨_, heq, ?_⟩
  dsimp only
  rw [if_neg (by omega)]
  exact bind_eq_ok.mpr ⟨_, hadd, rfl⟩

end Uses

end Disk

end Naofs
