import Naofs.Growth
import Naofs.Pruning
import Naofs.Reclaim

/-!
# Naofs.Unlinking

`unlink` of a regular file that is not open.

The search puts the last entry of the directory in the place of the name
(`entries_filled`), the file is given up while the directory is locked
(`Coherent.giveUp`), and the last entry is cut off (`truncateINode_cuts`).  The state after
it is `Pruned`, so that `unlink` is a step of the volume (`Serving.unlink`).
-/

namespace Naofs

open Function (update update_self update_of_ne)
open InCoreINode (wrapSize)

/-! ## The entries of the directory -/

namespace Disk

section Entries

variable {d d' : Disk} {x y : InCoreINode} {l : List Nat} {p : Nat}

/-- The last entry is copied over that of the name. -/
theorem entries_filled (h : DirectoryFile d x) (hp : p < entryCount x) :
    (d.filled x p).entries x = (d.entries x).set p (d.entryAt x.dataBlockNums (entryCount x - 1)) := by
  refine List.ext_getElem (by simp [entries]) fun i hi _ => ?_
  rw [length_entries] at hi
  rw [List.getElem_set]
  simp only [entries, List.getElem_map, List.getElem_range]
  rw [entryAt_filled h hp hi]
  by_cases hip : i = p
  · rw [if_pos hip, if_pos hip.symm]
  · rw [if_neg hip, if_neg fun hcon => hip hcon.symm]

/-- All entries but the last one. -/
theorem dropLast_entries (d : Disk) (x : InCoreINode) :
    (d.entries x).dropLast = (List.range (entryCount x - 1)).map (d.entryAt x.dataBlockNums) := by
  rw [entries, List.dropLast_eq_take, List.length_map, List.length_range, ← List.map_take, List.take_range,
    Nat.min_eq_left (Nat.sub_le ..)]

/-- The last entry in the place of another one. -/
theorem swapRemove_entries (h : DirectoryFile d x) (hp : p < entryCount x) :
    swapRemove (d.entries x) p = ((d.filled x p).entries x).dropLast := by
  rw [swapRemove, List.getLast?_eq_getElem?, length_entries, entries_filled h hp,
    List.getElem?_eq_getElem (by rw [length_entries]; omega)]
  simp only [entries, List.getElem_map, List.getElem_range]

/-- The place of a name is that of the first entry that has it. -/
theorem findIdx_of_firstNamed {name : Name} (hp : FirstNamed d x name p) :
    (d.entries x).findIdx (·.label = name) = p := by
  have hlt : p < (d.entries x).length := by
    rw [length_entries]
    exact hp.lt
  rw [List.findIdx_eq hlt]
  simp only [entries, List.getElem_map, List.getElem_range, decide_eq_true_eq, decide_eq_false_iff_not]
  exact ⟨hp.label, fun i hi => hp.first i hi⟩

/-- The last entry of the directory `x` is cut off. -/
structure Cuts (x : InCoreINode) (d : Disk) (y : InCoreINode) (d' : Disk) (l l' : List Nat) : Prop where
  rewrites : Rewrites x d y d' l l'
  touched : x.Touched y
  size : y.size + 64 = x.size
  entries : d'.entries y = (d.entries x).dropLast

/-- **The last entry is cut off**, with its block if it was alone there. -/
theorem truncateINode_cuts (h : Apart d x l) (hdir : DirectoryFile d x) (hfits : x.Fits)
    (h0 : 0 < entryCount x) (env : Env) (hlink : entryCount x % 16 ≠ 1 ∨ slot (d.blocks 2) 127 ≠ 0) :
    ∃ y d' l', d.truncateINode env x (x.size - 64) = .ok (y, d') ∧ l.length ≤ l'.length ∧
      Cuts x d y d' l l' := by
  have hsize := size_eq hdir
  obtain ⟨y, d', hrun, hy, hnums, hdrops⟩ := truncateINode_entry hdir h0 env
  obtain ⟨l', hlen, htouched, -, -, hrewrites⟩ := shrink_rewrites h hfits (by omega) hrun hy hdrops
    (lastBlocks_perm hdir) (hlink.imp_left fun hone => by rw [blockCount_cut hdir, if_neg hone])
  obtain ⟨-, hcount, -, hentries⟩ := directoryFile_cut hdir hy hnums
    (by rw [validateSearch, htouched.mode]; exact hdir.searchable) hdrops
  refine ⟨y, d', l', hrun, hlen, hrewrites, htouched, by omega, ?_⟩
  rw [dropLast_entries, entries, hcount]
  exact List.map_congr_left fun i hi => hentries i (List.mem_range.mp hi)

end Entries

/-- The disk before is only looked at. -/
theorem Reclaims.congr {d₀ d d' : Disk} {n k : Nat} {bs l l' : List Nat} (h : d.Reclaims n k bs l l' d')
    (hsame : SameBlocks d₀ d) : d₀.Reclaims n k bs l l' d' where
  backend := h.backend.trans hsame.backend
  type := h.type
  links := h.links
  identified := h.identified
  others := fun i hi hin => by rw [h.others i hi hin, hsame.diskINode]
  slot := by
    rw [← hsame.blocks]
    exact h.slot
  next := by
    rw [← hsame.blocks]
    exact h.next
  list := by
    rw [← hsame.blocks]
    exact h.list
  free := h.free
  perm := h.perm
  linked := by
    rw [← hsame.blocks]
    exact h.linked
  frame := by
    rw [← hsame.blocks]
    exact h.frame

end Disk

/-! ## The file -/

namespace FS

open Disk (blockCount Rewrites)

/-- The file `m` is given up, and the nodes that are held stay as they are. -/
structure GivenUp (fs : FS) (held : List NodeId) (m k : Nat) (l l' : List Nat) (fs' : FS) : Prop where
  coherent : Coherent fs' held
  inode : ∀ z ∈ held, fs'.inode z = fs.inode z
  others : ∀ i < numOfInodes, i ≠ m → fs'.seen i = fs.seen i
  self : fs'.seen m = fs'.disk.diskINode m
  reclaims : fs.disk.Reclaims m k (fs.blocksOf m) l l' fs'.disk

section GiveUp

variable {fs : FS} {held : List NodeId} {x : NodeId} {m : Nat} {l : List Nat}

/-- Other data on the disk. -/
theorem Coherent.redisk {d : Disk} (h : Coherent fs held) (hx : x ∈ held)
    (hback : d.backend = fs.disk.backend)
    (htable : ∀ k < numOfInodes, d.diskINode k = fs.disk.diskINode k) :
    Coherent.Touched fs held (fs.inode x).iNodeNumber (fs.inode x) { fs with disk := d } := by
  have hcaches := h.caches_of_held hx
  have ht := h.update (d := d) hx hcaches rfl (h.device hcaches) (h.unlocked x) rfl
    (h.fits _ x hcaches) (fun hun => ?_) hback htable
  · have heq : { fs with disk := d }.setInode x (fs.inode x) = { fs with disk := d } := by
      simp only [setInode, inode, Function.update_eq_self]
    rwa [heq] at ht
  · rw [htable _ (h.number _ x hcaches)]
    exact h.synced _ x hcaches hun (.inr fun hcon => h.idle_iff.mp hcon hx)

/-- **One link is taken from a file**, while the node `x` of another one is locked.  What is
left to do is to give its node back. -/
theorem Coherent.dropLink (h : Coherent fs held) (hx : x ∈ held) (hm : m < numOfInodes)
    (hav : fs.Available held m) (hxm : (fs.inode x).iNodeNumber ≠ m) (env : Env) :
    ∃ y fs₁ w, (fs.hold x).iget m 0 = .ok (some y, fs₁.hold x) ∧ Coherent.Fetched fs held m y fs₁ ∧ y ≠ x ∧
      w = { InCoreINode.updateINodeMetadata (fs₁.inode y) env.now 0
        (wrapSize (((fs₁.inode y).linksCount : Int) - 1)) with iNodeMutex := false } ∧
      Coherent.Touched fs₁ (y :: held) m w (fs₁.setInode y w) ∧
      ∀ fs' fs'', (fs₁.setInode y w).iput env.now y = .ok (0, fs') →
        truncateINode env x (wrapSize (((fs'.hold x).inode x).size - directoryEntrySize)) (fs'.hold x) =
          .ok ((), fs'') → unlinkFetched env x (some y) (fs₁.hold x) = .ok (0, fs'') := by
  obtain ⟨y, fs₁, hget, hf⟩ | ⟨hnone, -⟩ := h.iget hm
  swap
  · obtain ⟨z, hz⟩ := hav
    exact absurd (hnone z) fun hcon => hz.elim (fun hno => hno hcon.1) hcon.2
  -- A node that is held has kept its number.
  have hyx : y ≠ x := by
    rintro rfl
    exact hxm (hf.node.resolve_left fun hno => hno hx)
  obtain ⟨q, r, hinv⟩ := hf.coherent.cache
  obtain ⟨links, hlinks⟩ : ∃ links, links = wrapSize (((fs₁.inode y).linksCount : Int) - 1) := ⟨_, rfl⟩
  obtain ⟨w, hw⟩ : ∃ w, w = { InCoreINode.updateINodeMetadata (fs₁.inode y) env.now 0 links with
    iNodeMutex := false } := ⟨_, rfl⟩
  have hfits₁ := hf.coherent.fits m y hf.caches
  have hmutex : ((fs₁.hold x).inode y).iNodeMutex = false := by
    rw [inode_hold_of_ne hyx]
    exact hinv.unlocked y
  obtain ⟨fs₂, fs₃, hlock, hnode, hon, hunlock⟩ := locked_onINode
    (y := { InCoreINode.updateINodeMetadata (fs₁.inode y) env.now 0 links with iNodeMutex := true })
    (d := fs₁.disk) (f := fun iNode d => .ok (iNode.updateINodeMetadata env.now 0 links, d))
    hmutex (by rw [inode_hold_of_ne hyx]; rfl)
  have ht := hf.coherent.update (y := w) (d := fs₁.disk) List.mem_cons_self
    hf.caches (by rw [hw]; exact hf.caches.number) (by rw [hw]; exact hf.coherent.device hf.caches)
    (by rw [hw]) (by rw [hw]; rfl)
    (by rw [hw, hlinks]; exact InCoreINode.fits_updateINodeMetadata hfits₁ _ _ (InCoreINode.wrapSize_lt _))
    (fun hun => by rw [hw] at hun; exact nomatch hun.1) rfl fun _ _ => rfl
  refine ⟨y, fs₁, w, iget_hold hyx hget, hf, hyx, by rw [hw, hlinks], ht, fun fs' fs'' hput htrunc => ?_⟩
  have hmeta : updateINodeMetadata env y 0 (wrapSize (((fs₂.inode y).linksCount : Int) - 1)) fs₂ =
      .ok ((), fs₃) := by
    rw [hnode, inode_hold_of_ne hyx, ← hlinks]
    exact hon
  have hheld : { fs₁.hold x with disk := fs₁.disk }.setInode y w = (fs₁.setInode y w).hold x :=
    setInode_hold hyx fs₁ w
  rw [show { InCoreINode.updateINodeMetadata (fs₁.inode y) env.now 0 links with iNodeMutex := false } = w from
    hw.symm, hheld] at hunlock
  exact NaoM.bind_eq_ok.mpr ⟨_, _, hlock, NaoM.bind_eq_ok.mpr ⟨_, _, rfl, NaoM.bind_eq_ok.mpr ⟨_, _, hmeta,
    NaoM.bind_eq_ok.mpr ⟨_, _, hunlock, NaoM.bind_eq_ok.mpr ⟨_, _, iput_hold hyx hput,
      NaoM.bind_eq_ok.mpr ⟨_, _, rfl, NaoM.bind_eq_ok.mpr ⟨_, _, htrunc, rfl⟩⟩⟩⟩⟩⟩⟩

variable (h : Coherent fs held) (hx : x ∈ held) (hm : m < numOfInodes) (h0 : m ≠ 0)
  (hfree : ∃ z, z ∉ held) (hunheld : ∀ z ∈ held, (fs.inode z).iNodeNumber ≠ m)
  (hone : (fs.seen m).linksCount = 1) (hsize : (fs.seen m).size ≤ maxFileSize)
  (hblocks : FreeBlocks fs.disk l) (hown : Own fs.disk.backend (l ++ fs.blocksOf m))
  (hdata : ∀ b ∈ l ++ fs.blocksOf m, dataRegionStart ≤ b)
  (hlink : fs.blocksOf m = [] ∨ slot (fs.disk.blocks 2) 127 ≠ 0) (hlist : listed (fs.disk.blocks 3) 0 = 0)

include h hx hm h0 hfree hunheld hone hsize hblocks hown hdata hlink hlist

/-- **The last link is taken from a file that nobody holds**, while the node `x` is locked. -/
theorem Coherent.giveUp (env : Env) : ∃ y fs₁ fs' l' k, (fs.hold x).iget m 0 = .ok (some y, fs₁) ∧
    GivenUp fs held m k l l' fs' ∧ ∀ fs'',
      truncateINode env x (wrapSize (((fs'.hold x).inode x).size - directoryEntrySize)) (fs'.hold x) =
        .ok ((), fs'') → unlinkFetched env x (some y) fs₁ = .ok (0, fs'') := by
  obtain ⟨y, fs₁, w, hget, hf, hyx, hw, ht, hrun⟩ := h.dropLink hx hm (hfree.imp fun _ => .inl)
    (hunheld x hx) env
  have hy : y ∉ held := fun hmem => hf.node.elim (fun hcon => hcon hmem) (hunheld y hmem)
  have hone₁ : (fs₁.inode y).linksCount = 1 := by rw [hf.value, hone]
  have hlinks : w.linksCount = 0 := by
    rw [hw, hone₁]
    rfl
  have hwsize : w.size = (fs.seen m).size := by
    rw [hw, ← hf.value]
    exact InCoreINode.wrapSize_natCast (hf.coherent.fits m y hf.caches).size
  have hwnums : w.dataBlockNums = (fs.seen m).dataBlockNums := by
    rw [hw, ← hf.value]
    rfl
  obtain ⟨fs₄, hfs₄⟩ : ∃ fs₄, fs₄ = fs₁.setInode y w := ⟨_, rfl⟩
  rw [← hfs₄] at ht hrun
  have hself : fs₄.inode y = w := by rw [hfs₄, inode_setInode_self]
  have hdisk : SameBlocks fs.disk fs₄.disk := by
    rw [hfs₄]
    exact hf.disk
  have hnodeBlocks : fs₄.nodeBlocks y = fs.blocksOf m := by
    rw [nodeBlocks, hself, hwsize, hwnums, hdisk.fileBlocks]
    rfl
  rw [← hnodeBlocks] at hown hdata hlink
  -- Its last reference is given back.
  obtain ⟨fs₅, l', k, hput, hrel⟩ := ht.coherent.release hy ((ht.caches m y).mpr hf.caches) h0
    (by rw [hself]; exact hlinks) (by rw [hself, hw]; rfl) (by rw [hself, hwsize]; exact hsize)
    (hblocks.frame hdisk.backend (congrFun hdisk.blocks 2) fun b _ => congrFun hdisk.blocks b)
    (by rw [hdisk.backend]; exact hown) hdata (by rw [hdisk.blocks]; exact hlink)
    (by rw [hdisk.blocks]; exact hlist) env.now
  have hreclaims := hrel.reclaims.congr hdisk
  rw [hnodeBlocks] at hreclaims
  refine ⟨y, fs₁.hold x, fs₅, l', k, hget, ⟨hrel.coherent, fun z hz => ?_, fun i hi him => ?_,
    hrel.self, hreclaims⟩, fun fs'' => hrun fs₅ fs'' hput⟩
  · have hzy : z ≠ y := fun hcon => hy (hcon ▸ hz)
    rw [hrel.inode z hzy, hfs₄, inode_setInode_of_ne hzy, hf.others z hzy]
  · rw [hrel.others i hi him, ht.others i hi him, hf.seen i hi]

end GiveUp

/-! ## The directory without the name -/

/-- The inode of a node that is locked. -/
def locked (fs : FS) (x : NodeId) : InCoreINode := { fs.inode x with iNodeMutex := true }

/-- The last entry of the directory `n` is in place `p` too, and the file `m` is given up.
The directory is held by the node `x`. -/
structure Drained (fs : FS) (l l' : List Nat) (fs₁ : FS) (x : NodeId) (n m p k : Nat) (fs' : FS) : Prop where
  coherent : Coherent fs' (x :: fs.openNodes)
  inode : ∀ z ∈ x :: fs.openNodes, fs'.inode z = fs₁.inode z
  others : ∀ i < numOfInodes, i ≠ n → i ≠ m → fs'.seen i = fs.seen i
  self : fs'.seen m = fs'.disk.diskINode m
  reclaims : (fs₁.disk.filled (fs₁.locked x) p).Reclaims m k (fs.blocksOf m) l l' fs'.disk

/-- The run of `truncateINode` while the node is locked. -/
theorem truncate_locked {fs : FS} {x : NodeId} {env : Env} {z : InCoreINode} {d : Disk}
    (hnum : (fs.locked x).size < 2 ^ 64) (hle : 64 ≤ (fs.locked x).size)
    (hrun : fs.disk.truncateINode env (fs.locked x) ((fs.locked x).size - 64) = .ok (z, d)) :
    ∃ fs₁, truncateINode env x (wrapSize (((fs.hold x).inode x).size - directoryEntrySize)) (fs.hold x) =
        .ok ((), fs₁) ∧
      fs₁.unlock x = { fs with disk := d }.setInode x { z with iNodeMutex := false } := by
  have hnode : (fs.hold x).inode x = fs.locked x := inode_hold_self fs x
  have hsize : wrapSize (((fs.hold x).inode x).size - directoryEntrySize) = (fs.locked x).size - 64 := by
    rw [hnode, directoryEntrySize, InCoreINode.wrapSize_of_lt (by omega) (by omega)]
    omega
  refine ⟨{ fs.hold x with disk := d }.setInode x z, ?_, ?_⟩
  · rw [hsize]
    refine onINode_ok ?_
    rw [hnode]
    exact hrun
  · rw [unlock, inode_setInode_self]
    exact (setInode_setInode _ _).trans (@setInode_setInode { fs with disk := d } _ _ _)

/-- The last entry of the directory `n`, which the node `x` holds, is in place `p` too.  Nothing
else has changed, in particular not the file `m`. -/
structure Refilled (fs : FS) (held : List NodeId) (l : List Nat) (fs₁ : FS) (x : NodeId) (n m p : Nat)
    (fs₂ : FS) : Prop where
  coherent : Coherent fs₂ (x :: held)
  inode : fs₂.inode = fs₁.inode
  disk : fs₂.disk = fs₁.disk.filled (fs₁.locked x) p
  backend : fs₂.disk.backend = fs.disk.backend
  low : ∀ b < dataRegionStart, fs₂.disk.blocks b = fs.disk.blocks b
  seen : ∀ i < numOfInodes, i ≠ n → fs₂.seen i = fs.seen i
  blocksOf : fs₂.blocksOf m = fs.blocksOf m
  free : FreeBlocks fs₂.disk l

section Standing

variable {fs fs₁ : FS} {held : List NodeId} {l : List Nat} {x : NodeId} {n m p : Nat} {name : Name}
  (hx : Standing fs held fs₁ x n)

include hx

/-- The directory at hand has the blocks that are seen. -/
theorem Standing.fileBlocks : fs₁.disk.fileBlocks (fs₁.locked x).dataBlockNums
    (blockCount (fs₁.locked x).size) = fs.blocksOf n := by
  change fs₁.disk.fileBlocks (fs₁.inode x).dataBlockNums (blockCount (fs₁.inode x).size) = _
  rw [hx.value, hx.disk.fileBlocks]
  rfl

/-- It has the entries that are seen. -/
theorem Standing.entries : fs₁.disk.entries (fs₁.locked x) = fs.disk.entries (fs.seen n).bare :=
  hx.disk.entries (x := (fs.seen n).bare) hx.value

/-- What is only locked in between is as it was. -/
theorem Standing.unlock_hold : (fs₁.hold x).unlock x = fs₁ :=
  unlock_lock (hx.coherent.unlocked x) (lock_of_free (hx.coherent.unlocked x)) fs₁.fileTable

section Tree

variable (h : TreeState fs held) (hn : fs.tree.Reached n) (hdir : fs.tree.directory n)

include h hn hdir

/-- The names of the directory at hand end. -/
theorem Standing.namesEnd : NamesEnd fs₁.disk (fs₁.locked x) := by
  rw [NamesEnd, hx.entries]
  exact h.terminated n hn hdir

/-- The directory at hand is well formed. -/
theorem Standing.directoryFile : DirectoryFile fs₁.disk (fs₁.locked x) :=
  hx.disk.directoryFile (x := (fs.seen n).bare) hx.value (h.directory n hn hdir)

end Tree

variable (h : Housed fs held l) (hn : fs.tree.Reached n) (hdir : fs.tree.directory n)
  (hp : p < Disk.entryCount (fs₁.locked x))

include h hn hdir hp

/-- The entry that is filled is in a block of the directory. -/
theorem Standing.blocks_filled {b : Nat} (hb : b ∉ fs.blocksOf n) :
    (fs₁.disk.filled (fs₁.locked x) p).blocks b = fs.disk.blocks b := by
  rw [← hx.disk.blocks]
  refine Disk.blocks_store_of_ne _ (fun hcon => hb ?_) _
  rw [hcon, ← hx.fileBlocks]
  exact Disk.mem_fileBlocks (Disk.lt_blockCount (hx.directoryFile h.toTreeState hn hdir) hp)

/-- It does not write below the data region. -/
theorem Standing.blocks_low {b : Nat} (hb : b < dataRegionStart) :
    (fs₁.disk.filled (fs₁.locked x) p).blocks b = fs.disk.blocks b :=
  hx.blocks_filled h hn hdir hp fun hcon =>
    absurd (h.data n hn b (List.mem_append_right _ hcon)) (by omega)

/-- **The state after the search.** -/
theorem Standing.refilled (hm : fs.tree.Reached m) (hnm : n ≠ m) :
    Refilled fs held l fs₁ x n m p { fs₁ with disk := fs₁.disk.filled (fs₁.locked x) p } := by
  obtain ⟨d, hd⟩ : ∃ d, d = fs₁.disk.filled (fs₁.locked x) p := ⟨_, rfl⟩
  have hback : d.backend = fs.disk.backend := by rw [hd, Disk.filled, Disk.backend_store, hx.disk.backend]
  have hlow : ∀ b < dataRegionStart, d.blocks b = fs.disk.blocks b := fun b hb => by
    rw [hd, hx.blocks_low h hn hdir hp hb]
  have hapart : ∀ b ∈ l ++ fs.blocksOf m, d.blocks b = fs.disk.blocks b := by
    intro b hb
    rw [hd]
    refine hx.blocks_filled h hn hdir hp fun hcon => ?_
    obtain hb | hb := List.mem_append.mp hb
    · exact (List.nodup_append.mp (h.own n hn).nodup).2.2 b hb b hcon rfl
    · exact h.apart m n hm hn hnm.symm hb hcon
  have ht := hx.coherent.redisk (d := d) List.mem_cons_self (hback.trans hx.disk.backend.symm)
    fun i hi => by
      rw [hx.disk.diskINode]
      refine Disk.diskINode_congr _ (hlow _ ?_)
      simp only [numOfInodes] at hi
      simp only [dataRegionStart]
      omega
  rw [show (fs₁.inode x).iNodeNumber = n from hx.caches.number] at ht
  have hseen : ∀ i < numOfInodes, i ≠ n → { fs₁ with disk := d }.seen i = fs.seen i := fun i hi hin => by
    rw [ht.others i hi hin, hx.seen i hi]
  rw [← hd]
  refine ⟨ht.coherent, rfl, hd, hback, hlow, hseen, ?_, ?_⟩
  · rw [blocksOf, hseen m (h.number m hm) hnm.symm]
    exact Disk.fileBlocks_same (x := (fs.seen m).bare) (h.size m hm) fun b hb =>
      hapart b (List.mem_append_right _ hb)
  · exact h.free.frame hback (hlow 2 (by decide)) fun b hb => hapart b (List.mem_append_left _ hb)

/-- The directory is as it was after the search, where its blocks are. -/
theorem Standing.directory_filled {d : Disk} (hback : d.backend = fs.disk.backend)
    (hsame : ∀ b ∈ fs.blocksOf n, d.blocks b = (fs₁.disk.filled (fs₁.locked x) p).blocks b) :
    DirectoryFile d (fs₁.locked x) ∧
      d.fileBlocks (fs₁.locked x).dataBlockNums (blockCount (fs₁.locked x).size) = fs.blocksOf n ∧
      (d.entries (fs₁.locked x)).dropLast = swapRemove (fs.disk.entries (fs.seen n).bare) p := by
  have hfile := hx.directoryFile h.toTreeState hn hdir
  have hfilled := Disk.directoryFile_filled hfile hp
  have hblocks := (Disk.fileBlocks_filled hfile hp).1
  rw [hx.fileBlocks] at hblocks
  rw [← hblocks] at hsame
  have hblocks' := Disk.fileBlocks_same hfilled.size hsame
  refine ⟨⟨⟨?_, hfilled.size⟩, hfilled.searchable, hfilled.whole⟩, hblocks'.trans hblocks, ?_⟩
  · rw [hblocks', hback, ← hx.disk.backend, ← Disk.backend_store]
    exact hfilled.own
  · rw [Disk.entries_same hfilled.size hsame, ← Disk.swapRemove_entries hfile hp, ← hx.entries]

end Standing

section Parent

variable {fs fs₁ : FS} {l : List Nat} {x : NodeId} {n m p : Nat} {name : Name} (h : Serving fs l)
  (hx : Reaches fs x n fs₁)

include hx

/-- The names and numbers of the volume are those of the directory at hand. -/
theorem Reaches.entries_volume (hdir : fs.tree.directory n) : (fs.volume.file n).entries =
    (fs₁.disk.entries (fs₁.locked x)).map fun e => (e.label, e.iNodeNum) := by
  rw [hx.entries]
  exact Disk.entries_fileOf hdir

/-- A name of the volume is looked up in the directory at hand. -/
theorem Reaches.entry_volume (hdir : fs.tree.directory n) : fs.volume.tree.entry n name =
    ((fs₁.disk.entries (fs₁.locked x)).find? (·.label = name)).map (·.iNodeNum) := by
  rw [FS.entry_volume hdir, hx.entries]
  rfl

include h

/-- No entry has the number that stands for a search without success. -/
theorem Reaches.number_lt (hdir : fs.tree.directory n) {e : DirectoryEntry}
    (he : e ∈ fs₁.disk.entries (fs₁.locked x)) : e.iNodeNum < 65535 := by
  have hn := reached_volume.mpr hx.reached
  have hname : fs.volume.tree.entry n e.label = some e.iNodeNum := by
    refine (find?_key_iff (h.sound.names n hn)).mpr ?_
    rw [hx.entries_volume hdir]
    exact List.mem_map_of_mem he
  have hle := h.reached_le _ (reached_volume.mp (hn.entry ((fs.directory_volume n).trans hdir) hname))
  omega

variable (hv : fs.volume.Named n name m) (hclosed : ∀ fd, fs.volume.opened fd ≠ some m)
  (hspare : fs.Spare) (hp : p < Disk.entryCount (fs₁.locked x))
  (hlink : (fs.seen m).size = 0 ∨ slot (fs.disk.blocks 2) 127 ≠ 0) (hlist : listed (fs.disk.blocks 3) 0 = 0)

include hv hclosed hspare hp hlink hlist

/-- **The file is given up.** -/
theorem Reaches.drain (env : Env) : ∃ y fs₂ fs₃ l' k,
    ({ fs₁ with disk := fs₁.disk.filled (fs₁.locked x) p }.hold x).iget m 0 = .ok (some y, fs₂) ∧
      Drained fs l l' fs₁ x n m p k fs₃ ∧ ∀ fs₄,
        truncateINode env x (wrapSize (((fs₃.hold x).inode x).size - directoryEntrySize)) (fs₃.hold x) =
          .ok ((), fs₄) → unlinkFetched env x (some y) fs₂ = .ok (0, fs₄) := by
  have hdir : fs.tree.directory n := (fs.directory_volume n).symm.trans hv.directory
  have hm := reached_volume.mp hv.reached
  have hlt := h.number m hm
  have hregular : fs.tree.directory m = false := (fs.directory_volume m).symm.trans hv.regular
  have hr := hx.refilled h.housed hx.reached hdir hp hm hv.ne
  obtain ⟨fs₀, hfs₀⟩ : ∃ fs₀ : FS, fs₀ = { fs₁ with disk := fs₁.disk.filled (fs₁.locked x) p } := ⟨_, rfl⟩
  rw [← hfs₀] at hr ⊢
  have hmseen := hr.seen m hlt hv.ne.symm
  have hown : Own fs.disk.backend (l ++ fs.blocksOf m) :=
    (h.own_two hx.reached hm hv.ne.symm).mono fun b => by
      simp only [List.count_append]
      omega
  have hunheld : ∀ z ∈ x :: fs.openNodes, (fs₀.inode z).iNodeNumber ≠ m := by
    intro z hz
    rw [hr.inode]
    obtain rfl | hz := List.mem_cons.mp hz
    · rw [show (fs₁.inode z).iNodeNumber = n from hx.caches.number]
      exact hv.ne
    · rw [hx.kept z hz]
      exact number_ne_of_closed hclosed hz
  obtain ⟨y, fs₂, fs₃, l', k, hget, hgiven, hrun⟩ := hr.coherent.giveUp (l := l) List.mem_cons_self hlt
    (hv.ne_root h.sound).symm (hspare.other x) hunheld
    (by rw [hmseen]; exact h.link m hm hregular) (by rw [hmseen]; exact h.size m hm) hr.free
    (by rw [hr.blocksOf, hr.backend]; exact hown) (by rw [hr.blocksOf]; exact h.data m hm)
    (by
      rw [hr.blocksOf, hr.low 2 (by decide)]
      refine hlink.imp_left fun hsize => ?_
      rw [blocksOf, hsize]
      exact Disk.fileBlocks_zero _ _)
    (by rw [hr.low 3 (by decide)]; exact hlist) env
  have hreclaims := hgiven.reclaims
  rw [hr.blocksOf, hr.disk] at hreclaims
  refine ⟨y, fs₂, fs₃, l', k, hget, ⟨hgiven.coherent, fun z hz => ?_, fun i hi hin him => ?_, hgiven.self,
    hreclaims⟩, hrun⟩
  · rw [hgiven.inode z hz, hr.inode]
  · rw [hgiven.others i hi him, hr.seen i hi hin]

end Parent

/-- The directory is given back after the cut. -/
structure Trimmed (fs fs₁ fs₂ : FS) (x : NodeId) (n : Nat) (l₁ l' : List Nat) (z : InCoreINode) (d : Disk)
    (fs' : FS) : Prop where
  cut : Disk.Cuts (fs₁.locked x) fs₂.disk z d l₁ l'
  touched : Coherent.Touched fs₂ (x :: fs.openNodes) n { z with iNodeMutex := false }
    ({ fs₂ with disk := d }.setInode x { z with iNodeMutex := false })
  low : ∀ b < dataRegionStart, b ≠ 2 → d.blocks b = fs₂.disk.blocks b
  returned : Coherent.Returned ({ fs₂ with disk := d }.setInode x { z with iNodeMutex := false })
    fs.openNodes n x fs'

section Cut

variable {fs fs₁ fs₂ : FS} {l l₁ : List Nat} {x : NodeId} {n m p k : Nat} {name : Name}
  (h : Serving fs l) (hx : Reaches fs x n fs₁) (hv : fs.volume.Named n name m)
  (hp : Disk.FirstNamed fs₁.disk (fs₁.locked x) name p) (hd : Drained fs l l₁ fs₁ x n m p k fs₂)

include h hx hv hp hd

/-- The directory is as it was after the search. -/
theorem Drained.directory : DirectoryFile fs₂.disk (fs₁.locked x) ∧
    fs₂.disk.fileBlocks (fs₁.locked x).dataBlockNums (blockCount (fs₁.locked x).size) = fs.blocksOf n ∧
    (fs₂.disk.entries (fs₁.locked x)).dropLast = swapRemove (fs.disk.entries (fs.seen n).bare)
      ((fs.disk.entries (fs.seen n).bare).findIdx (·.label = name)) := by
  have hdir : fs.tree.directory n := (fs.directory_volume n).symm.trans hv.directory
  rw [← hx.entries, Disk.findIdx_of_firstNamed hp, hx.entries]
  refine hx.directory_filled h.housed hx.reached hdir hp.lt ?_ fun b hb => ?_
  · rw [hd.reclaims.backend, Disk.filled, Disk.backend_store, hx.disk.backend]
  · refine hd.reclaims.frame b (h.data n hx.reached b (List.mem_append_right _ hb)) fun hcon => ?_
    exact h.apart m n (reached_volume.mp hv.reached) hx.reached hv.ne.symm hcon hb

/-- The directory is still apart from the blocks that are free now. -/
theorem Drained.apart : Apart fs₂.disk (fs₁.locked x) l₁ := by
  obtain ⟨hfile, hblocks, -⟩ := hd.directory h hx hv hp
  have hstored : dataRegionStart ≤ fs₂.disk.backend.capacity := hd.coherent.stored
  refine ⟨?_, hd.reclaims.free, ?_, hfile.size⟩
  · simp only [dataRegionStart] at hstored
    omega
  · rw [hblocks, hd.reclaims.backend, Disk.filled, Disk.backend_store, hx.disk.backend]
    refine (h.own_two hx.reached (reached_volume.mp hv.reached) hv.ne.symm).mono fun b => ?_
    simp only [List.count_append, hd.reclaims.perm.count_eq]
    omega

omit hx hp hd in
/-- The blocks of the directory, of the file and of the free list are in the data region. -/
theorem Serving.le_of_mem {b : Nat} (hb : b ∈ l ++ fs.blocksOf n ++ fs.blocksOf m) : dataRegionStart ≤ b := by
  obtain hb | hb := List.mem_append.mp hb
  · exact h.data n (reached_volume.mp hv.parent) b hb
  · exact h.data m (reached_volume.mp hv.reached) b (List.mem_append_right _ hb)

omit h hx hv hp in
/-- The blocks come from the free list, the directory and the file. -/
theorem Drained.mem {b : Nat} (hb : b ∈ l₁ ++ fs.blocksOf n) : b ∈ l ++ fs.blocksOf n ++ fs.blocksOf m := by
  simp only [List.mem_append, hd.reclaims.perm.mem_iff] at hb ⊢
  tauto

/-- **The last entry is cut off**, and the directory is given back. -/
theorem Drained.trim
    (hlink : (fs.disk.entries (fs.seen n).bare).length % 16 ≠ 1 ∨ slot (fs.disk.blocks 2) 127 ≠ 0) (env : Env) :
    ∃ fs₃ fs' z d l', l₁.length ≤ l'.length ∧
      truncateINode env x (wrapSize (((fs₂.hold x).inode x).size - directoryEntrySize)) (fs₂.hold x) =
        .ok ((), fs₃) ∧ (fs₃.unlock x).iput env.now x = .ok (0, fs') ∧
      Trimmed fs fs₁ fs₂ x n l₁ l' z d fs' := by
  have hn := hx.reached
  have hdir : fs.tree.directory n := (fs.directory_volume n).symm.trans hv.directory
  obtain ⟨hfile, hblocks, -⟩ := hd.directory h hx hv hp
  have hnode : fs₂.inode x = fs₁.inode x := hd.inode x List.mem_cons_self
  have hlocked : fs₂.locked x = fs₁.locked x := by rw [FS.locked, hnode, FS.locked]
  have hcaches : fs₂.Caches n x := by
    have hcaches := hd.coherent.caches_of_held (x := x) List.mem_cons_self
    rwa [hnode, hx.caches.number] at hcaches
  have hfits : (fs₁.locked x).Fits := by
    have := hd.coherent.fits n x hcaches
    rwa [hnode] at this
  have hcount : Disk.entryCount (fs₁.locked x) = (fs.disk.entries (fs.seen n).bare).length := by
    rw [← hx.entries, Disk.length_entries]
  have h0 : 0 < Disk.entryCount (fs₁.locked x) := Nat.zero_lt_of_lt hp.lt
  obtain ⟨z, d, l', htrunc, hlen, hcut⟩ := Disk.truncateINode_cuts (hd.apart h hx hv hp) hfile hfits
    h0 env (by
      rw [hcount]
      refine hlink.imp_right fun hslot => hd.reclaims.linked ?_
      rw [hx.blocks_low h.housed hn hdir hp.lt (by decide)]
      exact hslot)
  rw [← hlocked] at htrunc
  obtain ⟨fs₃, hrun, hunlock⟩ := truncate_locked (by rw [hlocked]; exact hfits.size)
    (by rw [hlocked]; have := Disk.size_eq hfile; omega) htrunc
  have hrewrites : Rewrites { fs₂.inode x with iNodeMutex := true } fs₂.disk z d l₁ l' := by
    rw [hnode]
    exact hcut.rewrites
  have hnodeBlocks : fs₂.nodeBlocks x = fs.blocksOf n := by
    rw [nodeBlocks, hnode]
    exact hblocks
  obtain ⟨ht, hlow⟩ := hd.coherent.rewrite List.mem_cons_self hcaches hrewrites fun b hb =>
    h.le_of_mem hv (hd.mem (hnodeBlocks ▸ hb))
  -- The directory has its links, so that its inode is kept.
  obtain ⟨fs', hput, hret⟩ := ht.coherent.iput env.now ((ht.caches n x).mpr hcaches) (by
    rw [inode_setInode_self]
    by_cases hn0 : n = 0
    · exact .inr (.inr hn0)
    · refine .inr (.inl ?_)
      change z.linksCount ≠ 0
      rw [hcut.touched.links]
      exact fun hcon => h.linked n hn hn0 (hx.value ▸ hcon))
  rw [← hunlock] at hput
  exact ⟨fs₃, fs', z, d, l', hlen, hrun, hput, hcut, ht, hlow, hret⟩

variable {fs' : FS} {l' : List Nat} {z : InCoreINode} {d : Disk} (ht : Trimmed fs fs₁ fs₂ x n l₁ l' z d fs')
  (hclosed : x ∉ fs.openNodes)

include ht hclosed

/-- **What has become of the files** then. -/
theorem Drained.pruned (htable : fs'.fileTable = fs.fileTable) : Pruned fs l l' n name m k fs' := by
  have hn := hx.reached
  have hm := h.number m (reached_volume.mp hv.reached)
  have hcut := ht.cut
  obtain ⟨hfile, hblocks, hentries⟩ := hd.directory h hx hv hp
  have hseen : fs'.seen n = z.toINode := by
    rw [(ht.returned.last hclosed).1, inode_setInode_self]
  have hsame : SameData d fs'.disk := ht.returned.sameData (h.number n hn)
  have hzsize : z.size ≤ maxFileSize := by
    have := hcut.size
    have := hfile.size
    omega
  have hvalue : (fs₁.locked x).toINode = fs.seen n := hx.value
  have hmseen : fs'.seen m = fs₂.disk.diskINode m := by
    rw [(ht.returned.others m hm hv.ne.symm).1, ht.touched.others m hm hv.ne.symm, hd.self]
  have hbackend : d.backend = fs.disk.backend := by
    rw [hcut.rewrites.backend, hd.reclaims.backend, Disk.filled, Disk.backend_store, hx.disk.backend]
  have hlist : fs'.disk.blocks 3 = fs₂.disk.blocks 3 :=
    (ht.returned.blocks 3 (by omega)).trans (ht.low 3 (by decide) (by decide))
  have hdir : fs.tree.directory n := (fs.directory_volume n).symm.trans hv.directory
  have hlow := hx.blocks_low h.housed hn hdir hp.lt (show 3 < dataRegionStart by decide)
  have howned : ∀ b, (d.fileBlocks z.dataBlockNums (blockCount z.size)).count b + l'.count b =
      l₁.count b + (fs.blocksOf n).count b := by
    rw [← hblocks]
    exact hcut.rewrites.owned
  have hnew : ∀ b ∈ d.fileBlocks z.dataBlockNums (blockCount z.size) ++ l', dataRegionStart ≤ b := by
    intro b hb
    refine h.le_of_mem hv (hd.mem ?_)
    have := howned b
    have hpos := List.count_pos_iff.mpr hb
    rw [List.count_append] at hpos
    rw [← List.count_pos_iff, List.count_append]
    omega
  exact {
    coherent := ht.returned.coherent
    keeps := fun v hvx hlinks => by
      have hvx' : v ≠ x := fun hcon => hclosed (hcon ▸ hvx)
      rw [ht.returned.value v, ← hx.keeps v hvx hlinks, ← hd.inode v (List.mem_cons_of_mem _ hvx)]
      exact congrArg InCoreINode.toINode (update_of_ne hvx' ..)
    table := htable
    others := fun i hi hin him => by
      rw [(ht.returned.others i hi hin).1, ht.touched.others i hi hin, hd.others i hi hin him]
    parent := by
      rw [hseen, ← hvalue]
      exact hcut.touched.sameOwner
    links := by
      rw [hseen, ← hvalue]
      exact hcut.touched.links
    size := by
      rw [hseen, hcut.size, ← hvalue]
    entries := by
      rw [← hentries, ← hcut.entries, hseen]
      exact Disk.entries_same (x := z.toINode.bare) hzsize fun b hb =>
        hsame.blocks b (.inr (hnew b (List.mem_append_left _ hb)))
    type := by rw [hmseen, hd.reclaims.type]
    unlinked := by rw [hmseen, hd.reclaims.links]
    slot := by
      rw [← hlow]
      exact hd.reclaims.slot
    next := by
      rw [← hlow]
      exact hd.reclaims.next
    list := by
      rw [hlist, ← hlow]
      exact hd.reclaims.list
    backend := hsame.backend.trans hbackend
    free := hsame.freeBlocks (fun b hb => hnew b (List.mem_append_right _ hb)) hcut.rewrites.free
    owned := fun b => by
      have hblocks' : fs'.blocksOf n = d.fileBlocks z.dataBlockNums (blockCount z.size) := by
        rw [blocksOf, hseen]
        exact hsame.fileBlocks hzsize fun b hb => hnew b (List.mem_append_left _ hb)
      have := howned b
      rw [hd.reclaims.perm.count_eq, List.count_append] at this
      rw [hblocks']
      omega
    frame := fun b hb hmem => by
      have hb2 : b ≠ 2 := by
        simp only [dataRegionStart] at hb
        omega
      rw [hsame.blocks b (.inr hb), hcut.rewrites.frame b hb2 fun hcon => hmem (hd.mem (hblocks ▸ hcon)),
        hd.reclaims.frame b hb fun hcon => hmem (List.mem_append_right _ hcon),
        hx.blocks_filled h.housed hn hdir hp.lt fun hcon =>
          hmem (List.mem_append_left _ (List.mem_append_right _ hcon))] }

end Cut

/-! ## The operation -/

/-- What a directory `n` must have for a name to be taken out of it, and the file of the
name for it to be given up. -/
structure CanUnlink (env : Env) (fs : FS) (name : Name) (n : Nat) : Prop where
  directory : (fs.volume.file n).isDirectory
  nonempty : (fs.volume.file n).entries ≠ []
  buffer : env.entry.iNodeNum < 65536
  regular : ∀ m, fs.volume.tree.entry n name = some m →
    (fs.volume.file m).isDirectory = false ∧ ∀ fd, fs.volume.opened fd ≠ some m
  /-- Blocks that are given up come to a list block that has a link. -/
  link : ∀ m, fs.volume.tree.entry n name = some m →
    (fs.volume.file m).size = 0 ∧ (fs.volume.file n).entries.length % 16 ≠ 1 ∨
      slot (fs.disk.blocks 2) 127 ≠ 0

section Operation

variable {fs fs₁ : FS} {l : List Nat} {env : Env} {path name : Name} {x : NodeId} {n : Nat}

/-- The name is not there. -/
theorem Reaches.unlink_absent (h : Serving fs l) (hx : Reaches fs x n fs₁) (h0 : (0 : UInt8) ∉ name)
    (hcan : CanUnlink env fs name n)
    (hnone : ∀ e ∈ fs₁.disk.entries (fs₁.locked x), e.label ≠ name) :
    fs.volume.tree.entry n name = none ∧
      unlinkFileFromINode env x name (fs₁.hold x) = .ok (-1, fs₁.hold x) := by
  have hdir : fs.tree.directory n := (fs.directory_volume n).symm.trans hcan.directory
  have hpos : 0 < Disk.entryCount (fs₁.locked x) := by
    rw [← Disk.length_entries (d := fs₁.disk), List.length_pos_iff]
    refine fun hnil => hcan.nonempty ?_
    rw [hx.entries_volume hdir, hnil]
    rfl
  have hsearch := Disk.searchUnlink_absent (hx.directoryFile h.toTreeState hx.reached hdir) hpos
    (Disk.matchAt_absent h0 (hx.namesEnd h.toTreeState hx.reached hdir) hnone) env (fun _ => env.entry) 0
  refine ⟨?_, ?_⟩
  · rw [hx.entry_volume hdir, List.find?_eq_none.mpr fun e he => by simpa using hnone e he]
    rfl
  · rw [← show (fs₁.hold x).inode x = fs₁.locked x from inode_hold_self fs₁ x] at hsearch
    rw [unlinkFileFromINode_eq]
    exact NaoM.bind_eq_ok.mpr ⟨none, fs₁.hold x,
      NaoM.bind_eq_ok.mpr ⟨_, _, searchINodeDirectoryEntries_ok hsearch, rfl⟩, rfl⟩

/-- The name is there. -/
theorem Reaches.unlink_found (h : Serving fs l) (hx : Reaches fs x n fs₁) (hspare : fs.Spare)
    (h0 : (0 : UInt8) ∉ name) (hcan : CanUnlink env fs name n) {p : Nat}
    (hp : Disk.FirstNamed fs₁.disk (fs₁.locked x) name p) :
    ∃ m k fs₂ fs' l', fs.volume.Named n name m ∧
      unlinkFileFromINode env x name (fs₁.hold x) = .ok (0, fs₂) ∧
      (fs₂.unlock x).iput env.now x = .ok (0, fs') ∧ l.length ≤ l'.length ∧
      (fs'.fileTable = fs.fileTable → Pruned fs l l' n name m k fs') := by
  have hdir : fs.tree.directory n := (fs.directory_volume n).symm.trans hcan.directory
  have hnode : (fs₁.hold x).inode x = fs₁.locked x := inode_hold_self fs₁ x
  obtain ⟨e, he⟩ : ∃ e, e = fs₁.disk.entryAt (fs₁.locked x).dataBlockNums p := ⟨_, rfl⟩
  have hentry : fs.volume.tree.entry n name = some e.iNodeNum := by
    rw [hx.entry_volume hdir, find?_of_firstNamed hp, he]
    rfl
  obtain ⟨hregular, hclosed⟩ := hcan.regular _ hentry
  have hv : fs.volume.Named n name e.iNodeNum :=
    ⟨reached_volume.mpr hx.reached, hcan.directory, hentry, hregular⟩
  have hm := reached_volume.mp hv.reached
  have hlink := hcan.link _ hentry
  rw [show (fs.volume.file e.iNodeNum).size = _ from h.size_file hm, hx.entries_volume hdir, hx.entries,
    List.length_map] at hlink
  have hxopen : x ∉ fs.openNodes := fun hmem => h.notMem
    ((hx.kept x hmem).symm.trans hx.caches.number ▸ hdir) hmem
  obtain ⟨y, fs₂, fs₃, l₁, k, hget, hdrained, hfetched⟩ := hx.drain h hv hclosed hspare hp.lt
    (hlink.imp_left And.left) (h.place hm (hv.ne_root h.sound).symm) env
  obtain ⟨fs₄, fs', z, d, l', hlen, htrunc, hput, htrimmed⟩ :=
    hdrained.trim h hx hv hp (hlink.imp_left And.right) env
  refine ⟨e.iNodeNum, k, fs₄, fs', l', hv, ?_, hput, ?_, hdrained.pruned h hx hv hp htrimmed hxopen⟩
  · have hsearch := Disk.searchUnlink_found (hx.directoryFile h.toTreeState hx.reached hdir)
      (fun _ => hx.number_lt h hdir) (hp.firstMatch h0 (hx.namesEnd h.toTreeState hx.reached hdir))
      env (fun _ => env.entry) 0
    rw [← hnode] at hsearch
    rw [unlinkFileFromINode_eq]
    refine NaoM.bind_eq_ok.mpr ⟨some e, { fs₁.hold x with disk := fs₁.disk.filled (fs₁.locked x) p },
      NaoM.bind_eq_ok.mpr ⟨_, _, searchINodeDirectoryEntries_ok hsearch, ?_⟩,
      NaoM.bind_eq_ok.mpr ⟨_, _, hget, hfetched _ htrunc⟩⟩
    rw [hnode]
    simp only [update_self, ne_eq, not_true_eq_false, if_false, ← he,
      DirectoryEntry.overlay_of_lt hcan.buffer]
    rfl
  · refine Nat.le_trans ?_ hlen
    rw [hdrained.reclaims.perm.length_eq, List.length_append]
    omega

/-- **`unlink`** of a regular file that is not open. -/
theorem Serving.unlink (h : Serving fs l) (hspare : fs.Spare) (env : Env) (context : FuseContext)
    (hpath : IsPath path) (hcan : ∀ n, fs.volume.leads (parentPath path) = some n →
      CanUnlink env fs (lastName path) n) : Answered env context fs l (.unlink path) := by
  obtain ⟨hparent, h0⟩ := hpath.parent
  obtain ⟨rest, rfl, -⟩ := hpath.eq_cons
  have hslash : slash ∈ slash :: rest := List.mem_cons_self
  obtain ⟨hnone, fs', hrun, hserving, hagrees⟩ | ⟨x, n, fs₁, hleads, hrun, hx⟩ :=
    h.lookup hspare.free env hparent
  · refine ⟨_, fs', l, _, ?_, ⟨hserving, Nat.le_add_right ..⟩, .unlink_none hnone, hagrees⟩
    refine NaoM.bind_eq_ok.mpr ⟨_, _, NaoM.bind_eq_ok.mpr ⟨none, fs', ?_, rfl⟩, rfl⟩
    rw [getParentINode_eq env hslash, hrun]
  · have hlock := mutexLock_hold (hx.coherent.unlocked x)
    have hget : getParentINode env (slash :: rest) fs = .ok (some x, fs₁) := by
      rw [getParentINode_eq env hslash, hrun]
    have hname : NaoM.ofExcept (getFilenameFromPath (slash :: rest)) (fs₁.hold x) =
        .ok (lastName (slash :: rest), fs₁.hold x) := by
      rw [getFilenameFromPath_eq hslash]
      rfl
    -- The lock is held around the call.
    have hcall : ∀ {ret : Int} {fs₂ fs' : FS},
        unlinkFileFromINode env x (lastName (slash :: rest)) (fs₁.hold x) = .ok (ret, fs₂) →
        (fs₂.unlock x).iput env.now x = .ok (0, fs') →
        unlinkFile env (slash :: rest) fs = .ok (ret, fs') := fun hcall hput =>
      NaoM.bind_eq_ok.mpr ⟨_, _, hget, NaoM.bind_eq_ok.mpr ⟨_, _, hlock, NaoM.bind_eq_ok.mpr ⟨_, _,
        NaoM.bind_eq_ok.mpr ⟨_, _, hname, hcall⟩, NaoM.bind_eq_ok.mpr ⟨_, _, rfl,
          NaoM.bind_eq_ok.mpr ⟨_, _, hput, rfl⟩⟩⟩⟩⟩
    have hcan := hcan n hleads
    obtain ⟨p, hp⟩ | hnone := Disk.exists_firstNamed fs₁.disk (fs₁.locked x) (lastName (slash :: rest))
    swap
    · obtain ⟨habsent, hsearch⟩ := hx.unlink_absent h h0 hcan hnone
      obtain ⟨fs', hput, hserving, hagrees⟩ := hx.put h env.now
      refine ⟨_, fs', l, _, NaoM.bind_eq_ok.mpr ⟨_, _, hcall hsearch ?_, rfl⟩,
        ⟨hserving, Nat.le_add_right ..⟩, .unlink_absent hleads habsent, hagrees⟩
      rw [hx.unlock_hold]
      exact hput
    · obtain ⟨m, k, fs₂, fs', l', hv, hsearch, hput, hlen, hpruned⟩ := hx.unlink_found h hspare h0 hcan hp
      obtain ⟨hregular, hclosed⟩ := hcan.regular m hv.entry
      have hunlink := hcall hsearch hput
      have hp := hpruned (balanced_unlinkFile (.refl fs) hunlink).table
      exact ⟨_, fs', l', _, NaoM.bind_eq_ok.mpr ⟨_, _, hunlink, rfl⟩,
        ⟨hp.serving h hv hclosed, hlen.trans (Nat.le_add_right ..)⟩,
        .unlink hleads hcan.directory hv.entry hregular hclosed, hp.agrees h hv⟩

end Operation

end FS

end Naofs
