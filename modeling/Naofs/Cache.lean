import Naofs.INode
import Naofs.Links

/-!
# Naofs.Cache

The cache of inodes: its nodes and the two linked structures they are in
(`node.h`, `freeList.c`, `hashQ.c`).

Every node has an inode in core.  Nodes without references are on the free
list, a circular list in the order in which they are to be reused; a node that
has held an inode since the start is in the hash queue of that inode's number,
referenced or not.

`getHash` shifts by more than the width of its operand for most inode numbers,
which leaves its value open, so that here it is any function.
-/

namespace Naofs

/-- One of the `INODE_BUFFER_SIZE` nodes. -/
abbrev NodeId := Fin inodeBufferSize

/-- The nodes and the heads of the lists. -/
structure Cache where
  inode : NodeId → InCoreINode
  next : NodeId → Option NodeId
  prev : NodeId → Option NodeId
  hashNext : NodeId → Option NodeId
  hashPrev : NodeId → Option NodeId
  freeList : Option NodeId
  hashQ : Fin inodeHashSize → Option NodeId
  getHash : (iNodeNumber deviceNumber : Nat) → Fin inodeHashSize

namespace Cache

open Function (update)

/-! ## The free list -/

def freeListInsert (c : Cache) (node : NodeId) : Except Fault Cache :=
  match c.freeList with
  | none => .ok { c with
      freeList := some node
      next := update c.next node (some node)
      prev := update c.prev node (some node) }
  | some head =>
      let c := { c with
        next := update c.next node (some head)
        prev := update c.prev node (c.prev head) }
      match c.prev head with
      | none => .error .nullPointer
      | some last => .ok { c with
          next := update c.next last (some node)
          prev := update c.prev head (some node) }

def popFreeList (c : Cache) : Except Fault (Option NodeId × Cache) :=
  match c.freeList with
  | none => .ok (none, c)
  | some toReturn =>
      if c.next toReturn = some toReturn then .ok (some toReturn, { c with freeList := none })
      else
        match c.prev toReturn with
        | none => .error .nullPointer
        | some last =>
            let c := { c with next := update c.next last (c.next toReturn) }
            match c.next toReturn with
            | none => .error .nullPointer
            | some second =>
                let c := { c with prev := update c.prev second (c.prev toReturn) }
                .ok (some toReturn, { c with
                  freeList := c.next toReturn
                  next := update c.next toReturn none
                  prev := update c.prev toReturn none })

/-- The search loop of `freeListRemove`. -/
def onFreeList (c : Cache) (node : NodeId) : (fuel : Nat) → (workingNode : Option NodeId) →
    Except Fault Bool
  | 0, _ => .error .diverges
  | _ + 1, none => .ok false
  | fuel + 1, some workingNode =>
      if node = workingNode then .ok true
      else if c.next workingNode = c.freeList then .ok false
      else c.onFreeList node fuel (c.next workingNode)

def freeListRemove (c : Cache) (node : NodeId) : Except Fault Cache := do
  if c.freeList = some node ∧ c.next node = c.freeList then
    .ok { c with
      freeList := none
      next := update c.next node none
      prev := update c.prev node none }
  else if ← c.onFreeList node (inodeBufferSize + 1) c.freeList then
    let c := if c.freeList = some node then { c with freeList := c.next node } else c
    match c.next node with
    | none => .error .nullPointer
    | some after =>
        let c := { c with prev := update c.prev after (c.prev node) }
        match c.prev node with
        | none => .error .nullPointer
        | some before =>
            let c := { c with next := update c.next before (c.next node) }
            .ok { c with
              next := update c.next node none
              prev := update c.prev node none }
  else .ok c

/-! ## The hash queues -/

def removeFromHashQ (c : Cache) (node : NodeId) : Cache :=
  let hashIndex := c.getHash (c.inode node).iNodeNumber (c.inode node).deviceNumber
  let c := if c.hashQ hashIndex = some node then
    { c with hashQ := update c.hashQ hashIndex (c.hashNext node) } else c
  let c := match c.hashNext node with
    | some after => { c with hashPrev := update c.hashPrev after (c.hashPrev node) }
    | none => c
  let c := match c.hashPrev node with
    | some before => { c with hashNext := update c.hashNext before (c.hashNext node) }
    | none => c
  { c with
    hashNext := update c.hashNext node none
    hashPrev := update c.hashPrev node none }

def insertInHash (c : Cache) (node : NodeId) (iNodeNumber deviceNumber : Nat) : Cache :=
  let hashIndex := c.getHash iNodeNumber deviceNumber
  let head := c.hashQ hashIndex
  let c := { c with hashNext := update c.hashNext node head }
  let c := match head with
    | some head => { c with hashPrev := update c.hashPrev head (some node) }
    | none => c
  { c with
    hashPrev := update c.hashPrev node none
    hashQ := update c.hashQ hashIndex (some node) }

def updateInHashQ (c : Cache) (node : NodeId) (iNodeNumber deviceNumber : Nat) : Cache :=
  (c.removeFromHashQ node).insertInHash node iNodeNumber deviceNumber

/-- The loop of `hashLookup`. -/
def hashLookupFrom (c : Cache) (iNodeNumber : Nat) : (fuel : Nat) → (head : Option NodeId) →
    Except Fault (Option NodeId)
  | 0, _ => .error .diverges
  | _ + 1, none => .ok none
  | fuel + 1, some head =>
      if (c.inode head).iNodeNumber = iNodeNumber then .ok (some head)
      else c.hashLookupFrom iNodeNumber fuel (c.hashNext head)

def hashLookup (c : Cache) (iNodeNumber deviceNumber : Nat) : Except Fault (Option NodeId) :=
  c.hashLookupFrom iNodeNumber (inodeBufferSize + 1) (c.hashQ (c.getHash iNodeNumber deviceNumber))

/-- An `inCoreiNode` that `memset` has cleared. -/
def emptyINode : InCoreINode where
  deviceNumber := 0
  iNodeNumber := 0
  access := 0
  modification := 0
  statusChange := 0
  linksCount := 0
  type := .free
  fileMode := 0
  ownerUid := 0
  groupUid := 0
  dataBlockNums := .tabulate fun _ => 0
  size := 0
  iNodeMutex := false
  referenceCount := 0
  inodeChanged := false
  fileDataChanged := false

/-- Static storage before the lists are set up. -/
def blank (getHash : Nat → Nat → Fin inodeHashSize) : Cache where
  inode := fun _ => emptyINode
  next := fun _ => none
  prev := fun _ => none
  hashNext := fun _ => none
  hashPrev := fun _ => none
  freeList := none
  hashQ := fun _ => none
  getHash := getHash

def initFreeInCoreINodeList (getHash : Nat → Nat → Fin inodeHashSize) : Except Fault Cache :=
  (List.finRange inodeBufferSize).foldlM freeListInsert (blank getHash)

end Cache

end Naofs
