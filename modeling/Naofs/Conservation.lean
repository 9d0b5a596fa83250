import Naofs.Supply
import Naofs.Transparency

/-!
# Naofs.Conservation

A file that grows and is then deleted gives back what it took.

A run appends to one inode through its descriptors, and grows it with
`truncateINode`; its link count may change.  `conserved_of_grow_run` says that when
the last reference is dropped, `inodeBlocksFree` frees exactly the blocks which the
allocator handed out in the run, each once, provided they were fresh.
-/

namespace Naofs

namespace FS

open Disk (blockCount Grows)

/-- The blocks that were handed out. -/
def handedOut (events : List Event) : List Nat :=
  events.filterMap fun e => match e with
    | .alloc b => some b
    | _ => none

/-- The blocks that were freed. -/
def freed (events : List Event) : List Nat :=
  events.filterMap fun e => match e with
    | .free b _ => some b
    | _ => none

theorem handedOut_alloc (new : List Nat) : handedOut (new.map Event.alloc) = new := by
  simp [handedOut, List.filterMap_map]

/-- The blocks of `blockFree` events, in their order. -/
theorem freed_free {l : List Nat} {flags : List Bool} (h : flags.length = l.length) :
    freed ((l.zip flags).map fun p => .free p.1 p.2) = l := by
  have : freed ((l.zip flags).map fun p => .free p.1 p.2) = (l.zip flags).map Prod.fst := by
    simp [freed, List.filterMap_map]
  rw [this, List.map_fst_zip (by omega)]

/-- Distinct blocks of the data region. -/
def Fresh (k : Backend) (l : List Nat) : Prop :=
  l.Nodup ∧ ∀ b ∈ l, dataRegionStart ≤ b ∧ b < k.capacity

theorem Fresh.own {k : Backend} {l : List Nat} (h : Fresh k l) : Own k l :=
  ⟨h.1, fun b hb => by
    have := h.2 b hb
    simp only [dataRegionStart] at this
    omega⟩

/-- Calls that let the file of a node grow, or change its link count. -/
inductive GrowOp where
  /-- `writeToFile` at the end of the file. -/
  | write (env : Env) (fd : Nat) (buf : Nat → UInt8) (size : Nat)
  | truncate (env : Env) (size : Nat)
  | relink (now : UInt64) (linkCount : Nat)

def growStep (node : NodeId) : GrowOp → NaoM Unit
  | .write env fd buf size => fun fs => do
      let (_, fs) ← writeToFile env fd buf size (fs.inode node).size fs
      .ok ((), fs)
  | .truncate env size => truncateINode env node size
  | .relink now linkCount => onINode node fun iNode d =>
      .ok (iNode.updateINodeMetadata now 0 linkCount, d)

/-- The descriptor is one of the file, and the file stays within the largest size. -/
def GrowEnabled (node : NodeId) (fs : FS) : GrowOp → Prop
  | .write _ fd _ size => fs.Open fd node ∧ (fs.inode node).size + size ≤ maxFileSize
  | .truncate _ size => (fs.inode node).size ≤ size ∧ size ≤ maxFileSize
  | .relink _ _ => True

def GrowStep (node : NodeId) (fs fs' : FS) : Prop :=
  ∃ op, GrowEnabled node fs op ∧ growStep node op fs = .ok ((), fs')

/-- The state of a run that began with the trace `start`: the blocks handed out
since then are those of the file. -/
structure GrowInv (node : NodeId) (start : List Event) (k : Backend) (fs : FS) (new : List Nat) :
    Prop where
  unlocked : (fs.inode node).iNodeMutex = false
  size : (fs.inode node).size ≤ maxFileSize
  backend : fs.disk.backend = k
  trace : fs.disk.trace = start ++ new.map Event.alloc
  blocks : Fresh k new → (fs.disk.fileBlocks (fs.inode node).dataBlockNums
    (blockCount (fs.inode node).size)).Perm new

section Steps

variable {node : NodeId} {start : List Event} {k : Backend} {fs fs' : FS} {new : List Nat}

/-- Appending to the file. -/
theorem GrowInv.grows (h : GrowInv node start k fs new) {x y : InCoreINode} {d' : Disk}
    {new' : List Nat} (hx : x.toINode = (fs.inode node).toINode) (hg : Grows x fs.disk y d' new')
    (hinode : (fs'.inode node).toINode = y.toINode) (hdisk : fs'.disk = d')
    (hmutex : (fs'.inode node).iNodeMutex = false) (hsize : y.size ≤ maxFileSize) :
    GrowInv node start k fs' (new ++ new') := by
  subst hdisk
  refine ⟨hmutex, by rw [hinode]; exact hsize, hg.backend.trans h.backend, ?_, fun hfresh => ?_⟩
  · rw [hg.allocates, h.trace, List.map_append, List.append_assoc]
  · have hperm := h.blocks ⟨(List.nodup_append.mp hfresh.1).1, fun b hb =>
      hfresh.2 b (List.mem_append_left _ hb)⟩
    rw [hinode]
    rw [← hx] at hperm
    have hown : Own fs.disk.backend (new' ++ fs.disk.fileBlocks x.dataBlockNums (blockCount x.size)) := by
      rw [h.backend]
      refine hfresh.own.perm ?_
      exact (hperm.append_left new').trans List.perm_append_comm
    exact (hg.extends_of_own hown).blocks.trans
      ((hperm.append_left new').trans List.perm_append_comm)

/-- Every call returns, and keeps the invariant. -/
theorem GrowInv.step (h : GrowInv node start k fs new) {op : GrowOp} (hen : GrowEnabled node fs op) :
    ∃ fs' new', growStep node op fs = .ok ((), fs') ∧ GrowInv node start k fs' new' := by
  cases op with
  | write env fd buf size =>
      obtain ⟨hopen, hmax⟩ := hen
      obtain ⟨s, new', hcall, hsize, hg⟩ := writeToFile_grows hopen h.unlocked env buf hmax
      have hstep : growStep node (.write env fd buf size) fs = .ok ((), fs.written fd node s) :=
        bind_eq_ok.mpr ⟨_, hcall, rfl⟩
      refine ⟨_, new ++ new', hstep, h.grows (x := { fs.inode node with iNodeMutex := true }) rfl hg
        ?_ rfl ?_ (hsize.trans hmax)⟩
      · rw [inode_written, Function.update_self]
      · rw [inode_written, Function.update_self]
  | truncate env size =>
      obtain ⟨hle, hmax⟩ := hen
      by_cases heq : (fs.inode node).size = size
      · have hstep : growStep node (.truncate env size) fs = .ok ((), { fs with
            disk := fs.disk }.setInode node (fs.inode node)) :=
          onINode_ok (f := fun iNode d => d.truncateINode env iNode size)
            (by rw [Disk.truncateINode, if_pos heq])
        refine ⟨_, new ++ [], hstep, h.grows rfl (.refl _ _) ?_ rfl ?_ h.size⟩
        · rw [inode_setInode_self]
        · rw [inode_setInode_self]
          exact h.unlocked
      · obtain ⟨y, d', new', hrun, hsize, hg⟩ := Disk.increaseFileSizeBy_grows fs.disk env.now
          env.response (fs.inode node) (show (fs.inode node).size + (size - (fs.inode node).size) ≤
            maxFileSize by omega)
        have hstep : growStep node (.truncate env size) fs = .ok ((), { fs with
            disk := d' }.setInode node y) :=
          onINode_ok (f := fun iNode d => d.truncateINode env iNode size)
            (by rw [Disk.truncateINode, if_neg heq, if_neg (by omega), hrun])
        refine ⟨_, new ++ new', hstep, h.grows rfl hg ?_ rfl ?_ (by omega)⟩
        · rw [inode_setInode_self]
        · rw [inode_setInode_self]
          obtain ⟨_, _, _, _, _, rfl⟩ := hg.touched
          exact h.unlocked
  | relink now linkCount =>
      have hstep : growStep node (.relink now linkCount) fs = .ok ((), { fs with
          disk := fs.disk }.setInode node ((fs.inode node).updateINodeMetadata now 0 linkCount)) :=
        onINode_ok (f := fun iNode d => .ok (iNode.updateINodeMetadata now 0 linkCount, d)) rfl
      refine ⟨_, new, hstep, ?_⟩
      have hsize : ((fs.inode node).updateINodeMetadata now 0 linkCount).size = (fs.inode node).size := by
        have := h.size
        simp only [maxFileSize] at this
        simp only [InCoreINode.updateINodeMetadata, Int.add_zero]
        exact InCoreINode.wrapSize_natCast (by omega)
      refine ⟨?_, ?_, h.backend, h.trace, fun hfresh => ?_⟩
      · rw [inode_setInode_self]
        exact h.unlocked
      · rw [inode_setInode_self, hsize]
        exact h.size
      · rw [inode_setInode_self, hsize]
        exact h.blocks hfresh

/-- Dropping the file frees its blocks, which are those handed out. -/
theorem GrowInv.inodeBlocksFree (h : GrowInv node start k fs new) (hfresh : Fresh k new) :
    ∃ y d' l, (writeBack fs.disk (retiring (fs.inode node))).2.inodeBlocksFree
        (writeBack fs.disk (retiring (fs.inode node))).1 = .ok (y, d') ∧
      d'.trace = fs.disk.trace ++ l ∧ (freed l).Perm new := by
  have hsize := h.size
  have hperm := h.blocks hfresh
  obtain ⟨x, hx⟩ : ∃ x, x = (writeBack fs.disk (retiring (fs.inode node))).1 := ⟨_, rfl⟩
  obtain ⟨d, hd⟩ : ∃ d, d = (writeBack fs.disk (retiring (fs.inode node))).2 := ⟨_, rfl⟩
  rw [← hx, ← hd]
  rw [writeBack_inode] at hx
  have hnums : x.dataBlockNums = (fs.inode node).dataBlockNums := by rw [hx]; rfl
  have hxs : x.size = (fs.inode node).size := by rw [hx]; rfl
  have hn : blockCount x.size ≤ maxBlocks := by
    rw [hxs]
    simp only [maxFileSize] at hsize
    simp only [maxBlocks, blockCount]
    omega
  -- only the inode table was written, and the file has no block there
  have hdisk : d.backend = fs.disk.backend ∧ d.trace = fs.disk.trace ∧
      ∀ b, dataRegionStart ≤ b → d.blocks b = fs.disk.blocks b := by
    rw [hd, writeBack]
    split
    · exact ⟨Disk.backend_writeDiskInode _ _ _, Disk.trace_writeDiskInode _ _ _, fun b hb =>
        Disk.blocks_writeDiskInode_data _ _ hb⟩
    · exact ⟨rfl, rfl, fun _ _ => rfl⟩
  have hblocks : d.fileBlocks x.dataBlockNums (blockCount x.size) =
      fs.disk.fileBlocks (fs.inode node).dataBlockNums (blockCount (fs.inode node).size) := by
    rw [hnums, hxs]
    rw [hxs] at hn
    refine Disk.fileBlocks_frame hn fun b hb => hdisk.2.2 b (hfresh.2 b ?_).1
    exact hperm.mem_iff.mp (Disk.indirectBlocks_subset hb)
  obtain ⟨nums, d', l, heq, hl, hfrees⟩ := Disk.inodeBlocksFree_spec (d := d) (x := x) hn (by
    rw [hblocks, hdisk.1, h.backend]
    exact hfresh.own.perm hperm)
  obtain ⟨flags, htrace, hflags⟩ := hfrees.trace
  refine ⟨_, d', _, heq, by rw [htrace, hdisk.2.1], ?_⟩
  rw [freed_free hflags]
  exact hl.trans (hblocks ▸ hperm)

end Steps

/-! ## Whole runs -/

/-- Blocks that the file of `node` took in a run with these events are given back
when its last reference is dropped. -/
structure Conserved (node : NodeId) (fs : FS) (events : List Event) : Prop where
  /-- `inodeBlocksFree` returns, and frees what was handed out. -/
  freed_eq : ∃ x d' l, (writeBack fs.disk (retiring (fs.inode node))).2.inodeBlocksFree
      (writeBack fs.disk (retiring (fs.inode node))).1 = .ok (x, d') ∧
    d'.trace = fs.disk.trace ++ l ∧ (freed l).Perm (handedOut events)
  /-- A call of `iput` that returns has freed the same. -/
  iput_eq : ∀ now r fs', iput now node fs = .ok (r, fs') →
    ∃ l, fs'.disk.trace = fs.disk.trace ++ l ∧ (freed l).Perm (handedOut events)

/-- What a growing run has handed out is what the last `iput` frees. -/
theorem GrowInv.conserved {node : NodeId} {start : List Event} {k : Backend} {fs : FS}
    {new : List Nat} (h : GrowInv node start k fs new) (hfresh : Fresh k new)
    (href : (fs.inode node).referenceCount = 1) (hlinks : (fs.inode node).linksCount = 0)
    (hnum : (fs.inode node).iNodeNumber ≠ 0) : Conserved node fs (new.map Event.alloc) := by
  obtain ⟨x, d', l, heq, htrace, hl⟩ := h.inodeBlocksFree hfresh
  rw [← handedOut_alloc new] at hl
  refine ⟨⟨x, d', l, heq, htrace, hl⟩, fun now r fs' hput => ⟨l, ?_, hl⟩⟩
  obtain ⟨y, hrel⟩ := iput_disk href h.unlocked hput
  rw [releaseUnlinked, if_pos] at hrel
  · obtain ⟨s, hfree, hrel⟩ := bind_eq_ok.mp hrel
    cases heq.symm.trans hfree
    obtain ⟨d'', hinode, hrel⟩ := bind_eq_ok.mp hrel
    cases hrel
    rw [Disk.trace_freeINode hinode, htrace]
  · rw [writeBack_inode]
    exact ⟨hlinks, hnum⟩

/-- **Growing and deleting** a file: every call of the run returns, and if the
blocks handed out were fresh, they are what dropping the file frees. -/
theorem conserved_of_grow_run {node : NodeId} {fs fs' : FS} (hempty : (fs.inode node).size = 0)
    (hunlocked : (fs.inode node).iNodeMutex = false)
    (hrun : Relation.ReflTransGen (GrowStep node) fs fs') :
    (∀ op, GrowEnabled node fs' op → ∃ fs'', growStep node op fs' = .ok ((), fs'')) ∧
    ∃ events, fs'.disk.trace = fs.disk.trace ++ events ∧
      (Fresh fs.disk.backend (handedOut events) → (fs'.inode node).referenceCount = 1 →
        (fs'.inode node).linksCount = 0 → (fs'.inode node).iNodeNumber ≠ 0 →
        Conserved node fs' events) := by
  have hinv : ∃ new, GrowInv node fs.disk.trace fs.disk.backend fs' new := by
    induction hrun with
    | refl =>
        refine ⟨[], hunlocked, by simp [hempty], rfl, by simp, fun _ => ?_⟩
        rw [hempty, show blockCount 0 = 0 from rfl, Disk.fileBlocks_zero]
    | tail _ hstep ih =>
        obtain ⟨new, ih⟩ := ih
        obtain ⟨op, hen, hop⟩ := hstep
        obtain ⟨fs'', new', hop', hinv⟩ := ih.step hen
        cases hop.symm.trans hop'
        exact ⟨new', hinv⟩
  obtain ⟨new, hinv⟩ := hinv
  refine ⟨fun op hen => ?_, new.map Event.alloc, hinv.trace, fun hfresh href hlinks hnum => ?_⟩
  · obtain ⟨fs'', -, hop, -⟩ := hinv.step hen
    exact ⟨fs'', hop⟩
  · rw [handedOut_alloc] at hfresh
    exact hinv.conserved hfresh href hlinks hnum

/-- Inode 1 of a new file system grows to one byte: it takes block 16388 and gives it
back. -/
theorem conserved_first : ∃ fs fs' events, GrowStep 0 fs fs' ∧ (fs'.inode 0).iNodeNumber = 1 ∧
    handedOut events = [16388] ∧ Conserved 0 fs' events := by
  have hd := HolderState.numbered_makeFileSystem AllocState.smallDisk
  obtain ⟨fs₀, hfs₀, hdisk₀⟩ := exists_mount (fun _ _ => 0) AllocState.smallDisk.makeFileSystem
  obtain ⟨fs, -, hnode, -, ⟨events₀, hnoted⟩, l, q, i, hinv, -⟩ := HolderState.exists_first_iget hd
    hfs₀ (n := 1) (by decide)
  rw [Disk.diskINode_makeFileSystem _ (by omega) (by omega)] at hnode
  have hsize : (fs.inode 0).size = 0 := by rw [hnode]; rfl
  have hunlocked := hinv.cache.unlocked 0
  -- the free list of a new file system
  obtain ⟨n, hn⟩ : ∃ n, 31457280 - 16388 = n + 1 := ⟨_, rfl⟩
  have hown := AllocState.smallDisk.own_makeFileSystem rfl
  have hfree := AllocState.smallDisk.freeBlocks_makeFileSystem rfl
  rw [hn, List.range'_succ, ← hdisk₀] at hown hfree
  have hback : fs.disk.backend = fs₀.disk.backend := by rw [hnoted]; rfl
  have hfree' : FreeBlocks fs.disk (16388 :: List.range' (16388 + 1) n) :=
    hfree.frame hback (by rw [hnoted]; rfl) fun b _ => by rw [hnoted]; rfl
  have hcap : dataRegionStart ≤ fs.disk.backend.capacity := by
    rw [hback, hdisk₀]
    exact hd.1
  have hneeds : Disk.growNeeds 2 (fs.inode 0).size (1 - 0) = 1 := by
    rw [hsize]
    decide
  obtain ⟨y, d', hloop, hys, huses, -⟩ := Disk.increaseLoop_uses 0 1 2 (fs.inode 0) fs.disk 0
    ⟨0, 0, 0⟩ (16388 :: List.range' (16388 + 1) n) (by decide) (by rw [hsize]; decide)
    (by simp at hcap; omega) hfree'
    (by rwa [hsize, show blockCount 0 = 0 from rfl, Disk.fileBlocks_zero, List.append_nil, hback])
    (by rw [hneeds]; simp)
  rw [hneeds] at huses
  have hstep : GrowStep 0 fs ({ fs with disk := d' }.setInode 0 y) := by
    refine ⟨.truncate ⟨0, ⟨0, 0, 0⟩, ⟨.tabulate fun _ => 0, 0⟩, fun _ => 0⟩ 1, by simp [GrowEnabled, hsize],
      onINode_ok (f := fun iNode d => d.truncateINode _ iNode 1) ?_⟩
    rw [Disk.truncateINode, if_neg (by omega), if_neg (by omega), Disk.increaseFileSizeBy, hsize]
    rw [hsize] at hloop
    exact hloop
  obtain ⟨-, events, hevents, hcons⟩ := conserved_of_grow_run hsize hunlocked (.single hstep)
  have hnew : events = [Event.alloc 16388] := List.append_cancel_left (hevents.symm.trans huses.allocates)
  rw [hnew] at hcons
  refine ⟨fs, _, _, hstep, ?_, rfl, hcons ⟨by simp [handedOut], ?_⟩ ?_ ?_ ?_⟩
  · rw [inode_setInode_self, huses.touched.number, hnode]
    rfl
  · intro b hb
    obtain rfl : b = 16388 := by simpa [handedOut] using hb
    exact ⟨le_rfl, hback ▸ (hown.data 16388 (by simp)).2.2⟩
  · rw [inode_setInode_self, huses.touched.references, hinv.cache.counts]
    rfl
  · rw [inode_setInode_self, huses.touched.links, hnode]
    rfl
  · rw [inode_setInode_self, huses.touched.number, hnode]
    decide

end FS

end Naofs
