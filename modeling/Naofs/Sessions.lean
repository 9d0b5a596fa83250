import Naofs.Answers

/-!
# Naofs.Sessions

The operations that take a handle: `open`, `release`, `read` and `write`.

A handle is the index of an entry of the file table, and the entry keeps a reference to
its inode.  The offsets in the table are written and never read; what else is in a state
does not depend on the table (`Coherent.retable`).
-/

namespace Naofs

open Function (update update_self update_of_ne)

namespace FS

open Disk (blockCount)
open InCoreINode (wrapSize toCInt)

/-! ## The file table -/

section Retable

variable {fs fs₁ fs₂ : FS} {held : List NodeId} {l : List Nat} {x : NodeId} {fd : Nat}

/-- The cache does not depend on the descriptors. -/
theorem Coherent.retable (h : Coherent fs held) (table : Nat → FileTableEntry) :
    Coherent { fs with fileTable := table } held := by
  obtain ⟨q, r, hinv⟩ := h.cache
  exact ⟨⟨q, r, hinv.lists, hinv.unlocked, hinv.counts⟩, h.stored, h.table, h.number, h.fits, h.idle,
    h.synced⟩

/-- So other descriptors leave it at rest. -/
theorem Resting.retable (h : Coherent fs held) (table : Nat → FileTableEntry) :
    Resting fs held { fs with fileTable := table } :=
  ⟨⟨.refl _, fun _ _ => rfl, fun _ _ => rfl⟩, h.retable table⟩

/-- Unlocking an inode that is not locked does nothing. -/
theorem update_mutex (hmutex : (fs.inode x).iNodeMutex = false) :
    update fs.cache.inode x { fs.cache.inode x with iNodeMutex := false } = fs.cache.inode := by
  rw [Function.update_eq_self_iff, ← hmutex]
  rfl

theorem setInode_unlocked (hmutex : (fs.inode x).iNodeMutex = false) :
    fs.setInode x { fs.inode x with iNodeMutex := false } = fs := by
  simp only [setInode, inode]
  rw [update_mutex hmutex]

/-- The lock is taken and given back around a change of the table. -/
theorem unlock_lock (hmutex : (fs.inode x).iNodeMutex = false) (hlock : fs.lock x = .ok fs₁)
    (table : Nat → FileTableEntry) :
    { fs₁ with fileTable := table }.unlock x = { fs with fileTable := table } := by
  rw [lock_of_free hmutex] at hlock
  cases hlock
  simp only [unlock, setInode, inode, update_self, Function.update_idem]
  rw [update_mutex hmutex]

/-- A descriptor that is not valid stands for nothing. -/
theorem nodeAt_of_invalid (h : (fs.fileTable fd).validEntry = false) : fs.nodeAt fd = none := by
  rw [nodeAt, if_neg]
  rintro ⟨-, hvalid⟩
  rw [h] at hvalid
  cases hvalid

/-- Another entry of the table. -/
theorem nodeAt_update (hfd : fd < maxFileDescriptors) (entry : FileTableEntry) :
    ({ fs with fileTable := update fs.fileTable fd entry } : FS).nodeAt =
      update fs.nodeAt fd (if entry.validEntry = true then entry.inode else none) := by
  funext i
  rw [nodeAt]
  by_cases hi : i = fd
  · subst hi
    simp only [update_self, hfd, true_and]
  · simp only [update_of_ne hi]
    rfl

/-- A descriptor without a node is closed in the volume. -/
theorem opened_eq_none (h : fs.nodeAt fd = none) : fs.volume.opened fd = none := by
  change (fs.nodeAt fd).map _ = none
  rw [h]
  rfl

end Retable

/-! ## Opening and closing -/

section Open

variable {fs fs₁ fs' : FS} {l : List Nat} {x : NodeId} {n fd : Nat} {path : Name} {entry : FileTableEntry}

/-- A file that a path leads to gets a descriptor, which keeps the reference. -/
theorem Reaches.opens (h : Serving fs l) (hx : Reaches fs x n fs₁) (hdir : fs.tree.directory n = false)
    (hfd : fd < maxFileDescriptors) (hfree : (fs.fileTable fd).validEntry = false)
    (hinode : entry.inode = some x) (hvalid : entry.validEntry = true)
    (hfs' : fs' = { fs₁ with fileTable := update fs₁.fileTable fd entry }) :
    Serving fs' l ∧ (fs.volume.openAt fd n).Agrees fs'.volume := by
  have hnode : fs'.nodeAt = update fs.nodeAt fd (some x) := by
    rw [hfs', nodeAt_update hfd, if_pos hvalid, hinode, (SameTable.of_eq hx.table).nodeAt]
  have hperm := openNodes_open hfd (nodeAt_of_invalid hfree) hnode
  have hnumber : (fs₁.inode x).iNodeNumber = n := hx.caches.number
  have hcoherent : Coherent fs' fs'.openNodes := by
    refine Coherent.perm ?_ hperm
    rw [hfs']
    exact hx.coherent.retable _
  have hsome : ∀ i < maxFileDescriptors, (fs'.fileTable i).validEntry = true →
      (fs'.fileTable i).inode.isSome := by
    intro i hi hi'
    rw [hfs'] at hi' ⊢
    dsimp only at hi' ⊢
    by_cases hifd : i = fd
    · rw [hifd, update_self, hinode]
      rfl
    · rw [update_of_ne hifd, hx.table] at hi' ⊢
      exact h.node i hi hi'
  have hopen : ∀ z ∈ fs'.openNodes, fs.tree.Reached (fs'.inode z).iNodeNumber ∧
      fs.tree.directory (fs'.inode z).iNodeNumber = false ∧ (fs'.inode z).linksCount ≠ 0 := by
    intro z hz
    rw [show fs'.inode = fs₁.inode by rw [hfs']; rfl]
    obtain rfl | hz := List.mem_cons.mp (hperm.mem_iff.mp hz)
    · rw [hnumber, hx.value]
      refine ⟨hx.reached, hdir, h.linked n hx.reached fun h0 => ?_⟩
      rw [h0, h.root] at hdir
      cases hdir
    · rw [hx.keeps z hz (h.live z hz)]
      exact ⟨(h.regular z hz).1, (h.regular z hz).2, h.live z hz⟩
  have hdisk : SameBlocks fs.disk fs'.disk := hfs' ▸ hx.disk
  obtain ⟨hserving, hfile⟩ := h.stays ⟨hdisk.backend, fun b _ => congrFun hdisk.blocks b⟩
    (hfs' ▸ hx.seen) (congrFun hdisk.blocks 3) hcoherent hsome hopen
  refine ⟨hserving, fun i hi => hfile i (reached_volume.mp hi), funext fun i => ?_⟩
  change (fs'.nodeAt i).map (fun z => (fs'.inode z).iNodeNumber) = update fs.volume.opened fd (some n) i
  rw [hnode, show fs'.inode = fs₁.inode by rw [hfs']; rfl]
  by_cases hi : i = fd
  · rw [hi, update_self, update_self]
    exact congrArg some hnumber
  · rw [update_of_ne hi, update_of_ne hi]
    change _ = (fs.nodeAt i).map _
    cases hi' : fs.nodeAt i with
    | none => rfl
    | some z => exact congrArg some (hx.kept z (mem_openNodes.mpr ⟨i, nodeAt_eq_some.mp hi'⟩))

/-- **`open`** of a regular file, with an entry of the table that is not used. -/
theorem Serving.openFile (h : Serving fs l) (hfree : ∃ z, z ∉ fs.openNodes) (hfull : ¬ fs.TableFull)
    (env : Env) (context : FuseContext) (fi : FuseFileInfo) (hpath : IsPath path)
    (hregular : ∀ n, fs.volume.leads path = some n → (fs.volume.file n).isDirectory = false) :
    Answered env context fs l (.open path fi) := by
  obtain ⟨hnone, fs', hrun, hserving, hagrees⟩ | ⟨x, n, fs₁, hleads, hrun, hx⟩ := h.lookup hfree env hpath
  · refine ⟨_, fs', l, _, ?_, ⟨hserving, Nat.le_add_right ..⟩, .openFile_none hnone, hagrees⟩
    exact NaoM.bind_eq_ok.mpr ⟨_, _, NaoM.bind_eq_ok.mpr ⟨_, _, hrun, rfl⟩, rfl⟩
  · obtain ⟨fi', fs', hopen⟩ := openFile_found hrun (hx.coherent.unlocked x) fi context.pid
    obtain ⟨hcon, -, -⟩ | ⟨_, _, fs₂, hrun', hlock, -, ⟨fd, hfd, hunused, hfh, offset, hfs'⟩ | ⟨hcon, -⟩⟩ :=
      openFile_cases hopen
    · cases hrun.symm.trans hcon
    · cases hrun.symm.trans hrun'
      have htable : fs₂.fileTable = fs₁.fileTable := lock_fileTable hlock
      rw [unlock_lock (hx.coherent.unlocked x) hlock, htable] at hfs'
      have hdir : fs.tree.directory n = false := (fs.directory_volume n).symm.trans (hregular n hleads)
      obtain ⟨hserving, hagrees⟩ := hx.opens h hdir hfd hunused rfl rfl hfs'
      rw [← hfh] at hagrees hunused
      refine ⟨_, fs', l, _, NaoM.bind_eq_ok.mpr ⟨_, _, hopen, rfl⟩, ⟨hserving, Nat.le_add_right ..⟩,
        .openFile hleads (hregular n hleads) (opened_eq_none (nodeAt_of_invalid hunused)), hagrees⟩
    · exact absurd hcon hfull

/-- The entry of a handle. -/
theorem getFileDescriptor_handle {fh : Nat} (hfh : fh < 2147483648) :
    fs.getFileDescriptor (toCInt fh) = if fh < maxFileDescriptors ∧ (fs.fileTable fh).validEntry = true
      then .ok (0, some fh) else .ok (eBadf, none) := by
  rw [InCoreINode.toCInt_of_lt (by omega) (by omega), getFileDescriptor_natCast]

/-- A handle without an entry. -/
theorem Serving.getFileDescriptor_none (h : Serving fs l) {fh : Nat} (hfh : fh < 2147483648)
    (hnone : fs.nodeAt fh = none) : fs.getFileDescriptor (toCInt fh) = .ok (eBadf, none) := by
  rw [getFileDescriptor_handle hfh, if_neg]
  intro hvalid
  have hsome := h.node fh hvalid.1 hvalid.2
  rw [nodeAt, if_pos hvalid] at hnone
  rw [hnone] at hsome
  cases hsome

/-- The reference of a descriptor is given back. -/
theorem Serving.closes (h : Serving fs l) (hopen : fs.Open fd x) (hinvalid : entry.validEntry = false)
    (hfs₁ : fs₁ = { fs with fileTable := update fs.fileTable fd entry }) (now : UInt64) :
    ∃ fs', fs₁.iput now x = .ok (0, fs') ∧ Serving fs' l ∧ (fs.volume.close fd).Agrees fs'.volume := by
  have hnode₁ : fs₁.nodeAt = update fs.nodeAt fd none := by
    rw [hfs₁, nodeAt_update hopen.lt, if_neg (by rw [hinvalid]; decide)]
  have hmem : x ∈ fs.openNodes := mem_openNodes.mpr ⟨fd, hopen⟩
  have hinode₁ : fs₁.inode = fs.inode := by
    rw [hfs₁]
    rfl
  have hperm := openNodes_close hopen hnode₁
  have hcoherent₁ : Coherent fs₁ (x :: fs₁.openNodes) := by
    refine Coherent.perm ?_ hperm.symm
    rw [hfs₁]
    exact h.coherent.retable _
  have hcaches := hcoherent₁.caches_of_held List.mem_cons_self
  obtain ⟨fs', hput, hret⟩ := hcoherent₁.iput now hcaches (.inr (.inl (by
    rw [hinode₁]
    exact h.live x hmem)))
  have htable : fs'.fileTable = fs₁.fileTable := iput_fileTable hput
  have hnode : fs'.nodeAt = fs₁.nodeAt := (SameTable.of_eq htable).nodeAt
  have hopened : fs'.openNodes = fs₁.openNodes := (SameTable.of_eq htable).openNodes
  have hsub : ∀ z ∈ fs'.openNodes, z ∈ fs.openNodes := fun z hz =>
    hperm.mem_iff.mpr (List.mem_cons_of_mem _ (hopened ▸ hz))
  have hvalue : ∀ z, (fs'.inode z).toINode = (fs.inode z).toINode := by
    intro z
    rw [hret.value z, hinode₁]
  have hnumber := h.number _ (h.regular x hmem).1
  have hseen₁ : fs₁.seen = fs.seen := by
    rw [hfs₁]
    rfl
  have hseen : ∀ i < numOfInodes, fs'.seen i = fs.seen i := by
    intro i hi
    by_cases hin : i = (fs₁.inode x).iNodeNumber
    · rw [hin]
      by_cases hshared : x ∈ fs₁.openNodes
      · rw [(hret.shared hshared).1, hseen₁]
      · rw [(hret.last hshared).1, hinode₁]
        exact h.value hmem
    · rw [(hret.others i hi hin).1, hseen₁]
  have hdisk₁ : fs₁.disk = fs.disk := by rw [hfs₁]
  have hdata : SameData fs.disk fs'.disk := hdisk₁ ▸ hret.sameData (by rw [hinode₁]; exact hnumber)
  have hsome : ∀ i < maxFileDescriptors, (fs'.fileTable i).validEntry = true →
      (fs'.fileTable i).inode.isSome := by
    intro i hi hi'
    rw [htable, hfs₁] at hi' ⊢
    dsimp only at hi' ⊢
    by_cases hifd : i = fd
    · rw [hifd, update_self, hinvalid] at hi'
      cases hi'
    · rw [update_of_ne hifd] at hi' ⊢
      exact h.node i hi hi'
  obtain ⟨hserving, hfile⟩ := h.stays hdata hseen (by rw [hret.blocks 3 (by omega), hdisk₁])
    (by rw [hopened]; exact hret.coherent) hsome fun z hz => by
      rw [hvalue z]
      exact ⟨(h.regular z (hsub z hz)).1, (h.regular z (hsub z hz)).2, h.live z (hsub z hz)⟩
  refine ⟨fs', hput, hserving, fun i hi => hfile i (reached_volume.mp hi), funext fun i => ?_⟩
  change (fs'.nodeAt i).map (fun z => (fs'.inode z).iNodeNumber) = update fs.volume.opened fd none i
  rw [hnode, hnode₁]
  by_cases hi : i = fd
  · rw [hi, update_self, update_self]
    rfl
  · rw [update_of_ne hi, update_of_ne hi]
    change _ = (fs.nodeAt i).map _
    simp only [hvalue]

/-- **`release`.** -/
theorem Serving.release (h : Serving fs l) (env : Env) (context : FuseContext) {fi : FuseFileInfo}
    (hfh : fi.fh < 2147483648) : Answered env context fs l (.release fi) := by
  cases hnode : fs.nodeAt fi.fh with
  | none =>
      refine ⟨_, fs, l, _, ?_, ⟨h, Nat.le_add_right ..⟩, .release_none (opened_eq_none hnode), .refl _⟩
      refine NaoM.bind_eq_ok.mpr ⟨_, _, NaoM.bind_eq_ok.mpr ⟨0, fs, ?_, rfl⟩, rfl⟩
      rw [closeFile, h.getFileDescriptor_none hfh hnode]
      rfl
  | some x =>
      have hopen := nodeAt_eq_some.mp hnode
      obtain ⟨entry, hentry⟩ : ∃ entry : FileTableEntry,
          entry = { fs.fileTable fi.fh with validEntry := false } := ⟨_, rfl⟩
      have hinode : (update fs.fileTable fi.fh entry fi.fh).inode = some x := by
        rw [update_self, hentry]
        exact hopen.inode
      obtain ⟨fs', hput, hserving, hagrees⟩ := h.closes hopen
        (show entry.validEntry = false by rw [hentry]) rfl env.now
      refine ⟨_, fs', l, _, ?_, ⟨hserving, Nat.le_add_right ..⟩, .release (congrArg (Option.map _) hnode),
        hagrees⟩
      refine NaoM.bind_eq_ok.mpr ⟨_, _, NaoM.bind_eq_ok.mpr ⟨0, fs', ?_, rfl⟩, rfl⟩
      rw [closeFile, getFileDescriptor_handle hfh, if_pos ⟨hopen.lt, hopen.valid⟩]
      simp only [bind, Except.bind, ← hentry, hinode]
      exact hput

end Open

end FS

/-! ## Reading -/

namespace Disk

/-- Offset and size of a read that `readFile` does as it should. -/
def ReadsWhole (fileSize size offset : Nat) : Prop :=
  fileSize ≤ offset ∨ size = 0 ∨ offset = 0 ∨ min fileSize (offset + size) % blockSize = 0

instance (fileSize size offset : Nat) : Decidable (ReadsWhole fileSize size offset) :=
  inferInstanceAs (Decidable (_ ∨ _ ∨ _ ∨ _))

section Slice

variable {d : Disk} {x : InCoreINode} {size offset : Nat}

/-- The bytes that are read from a file are those of its blocks. -/
theorem slice_fileOf (hregular : sIsdir x.fileMode = false) (size offset : Nat) :
    (d.fileOf x.toINode).slice size offset =
      (List.range (min size (x.size - offset))).map fun i => d.byteAt x.dataBlockNums (offset + i) := by
  rw [File.slice, bytes_fileOf hregular]
  refine List.ext_getElem (by simp) fun i hi hi' => ?_
  simp

/-- **`readFile`** reads the bytes of the file. -/
theorem readBytes_slice (h : WellFormed d x) (hregular : sIsdir x.fileMode = false) (env : Env)
    (buf : Nat → UInt8) (hsize : size < 2147483648) (hwhole : ReadsWhole x.size size offset) :
    ∃ s, d.readBytes env x buf size offset = .ok s ∧
      s.bytesRead = ((d.fileOf x.toINode).slice size offset).length ∧
      (List.range ((d.fileOf x.toINode).slice size offset).length).map s.buf =
        (d.fileOf x.toINode).slice size offset ∧ ∀ i, size ≤ i → s.buf i = buf i := by
  rw [slice_fileOf hregular, List.length_map, List.length_range]
  obtain ⟨k, hk⟩ : ∃ k, k = min size (x.size - offset) := ⟨_, rfl⟩
  rw [← hk]
  obtain rfl | hpos := Nat.eq_zero_or_pos k
  · have hnone : toSSize size ≤ 0 ∨ x.size ≤ offset := by
      by_cases hle : x.size ≤ offset
      · exact .inr hle
      · exact .inl (toSSize_nonpos (.inl (by omega)) (by omega))
    obtain ⟨s, hrun, hread, hbuf⟩ := readBytes_none d env buf hnone
    exact ⟨s, hrun, hread, rfl, fun i _ => by rw [hbuf]⟩
  · obtain ⟨s, hrun, hspec, -⟩ := readBytes_spec h env buf (by omega) (by omega) hk hpos
    have haligned : offset = 0 ∨ (offset + k) % 1024 = 0 := by
      obtain hcon | hcon | hzero | hmod := hwhole
      · omega
      · omega
      · exact .inl hzero
      · have hend : min x.size (offset + size) = offset + k := by omega
        rw [hend] at hmod
        exact .inr hmod
    obtain ⟨hread, hbuf⟩ := hspec haligned
    refine ⟨s, hrun, hread, List.map_congr_left fun i hi => ?_, fun i hi => ?_⟩
    · rw [hbuf i, if_pos (List.mem_range.mp hi)]
    · rw [hbuf i, if_neg (by omega)]

end Slice

end Disk

namespace FS

open InCoreINode (wrapSize toCInt)

section Descriptor

variable {fs fs₁ : FS} {l : List Nat} {x : NodeId} {n fd : Nat}

/-- The inode of a descriptor has the blocks of its file. -/
theorem Serving.apartOf (h : Serving fs l) (hx : x ∈ fs.openNodes) :
    Apart fs.disk { fs.inode x with iNodeMutex := true } l where
  capacity := by
    have hstored : dataRegionStart ≤ fs.disk.backend.capacity := h.coherent.stored
    simp only [dataRegionStart] at hstored
    omega
  free := h.free
  own := by
    have hown := h.own _ (h.regular x hx).1
    rw [blocksOf, ← h.value hx] at hown
    exact hown
  size := by
    have hsize := h.size _ (h.regular x hx).1
    rw [← h.value hx] at hsize
    exact hsize

/-- What is open is no directory. -/
theorem Serving.regularOf (h : Serving fs l) (hx : x ∈ fs.openNodes) :
    sIsdir (fs.inode x).fileMode = false := by
  have hdir := (h.regular x hx).2
  change sIsdir (fs.seen _).fileMode = false at hdir
  rwa [← h.value hx] at hdir

/-- The contents of an open file are those of its node. -/
theorem Serving.fileOf (h : Serving fs l) (hx : x ∈ fs.openNodes) :
    fs.disk.fileOf (fs.inode x).toINode = fs.file (fs.inode x).iNodeNumber := by
  rw [file, ← h.value hx]

/-- The offset of a descriptor is moved. -/
def moveOffset (fs : FS) (fd moved : Nat) : FS :=
  { fs with
    fileTable := update fs.fileTable fd
      { fs.fileTable fd with offset := wrapSize ((fs.fileTable fd).offset + moved) } }

theorem sameTable_moveOffset (fs : FS) (fd moved : Nat) : SameTable fs (fs.moveOffset fd moved) := by
  intro i
  rw [moveOffset]
  dsimp only
  by_cases hi : i = fd
  · rw [hi, update_self]
    exact ⟨rfl, rfl⟩
  · rw [update_of_ne hi]
    exact ⟨rfl, rfl⟩

/-- A read through an open descriptor. -/
theorem readFile_eq (h : fs.Open fd x) (hmutex : (fs.inode x).iNodeMutex = false) {env : Env}
    {buf : Nat → UInt8} {size offset : Nat} {s : Disk.ReadState}
    (hs : fs.disk.readBytes env { fs.inode x with iNodeMutex := true } buf size offset = .ok s) :
    fs.readFile env fd buf size offset =
      .ok ((toCInt s.bytesRead, s.buf), fs.moveOffset fd s.moved) := by
  have hlock := lock_of_free hmutex
  have hunlock := unlock_lock hmutex hlock
  have hnode : (fs.setInode x { fs.inode x with iNodeMutex := true }).inode x =
      { fs.inode x with iNodeMutex := true } := inode_setInode_self ..
  generalize hfs₁ : fs.setInode x { fs.inode x with iNodeMutex := true } = fs₁ at hlock hunlock hnode
  have hdisk : fs₁.disk = fs.disk := by rw [← hfs₁]; rfl
  rw [← hdisk, ← hnode] at hs
  unfold readFile
  refine bind_eq_ok.mpr ⟨_, h.getFileDescriptor, ?_⟩
  dsimp only
  rw [h.inode]
  refine bind_eq_ok.mpr ⟨_, hlock, bind_eq_ok.mpr ⟨_, hs, ?_⟩⟩
  rw [hunlock, lock_fileTable hlock, moveOffset]

/-- **`read`**. -/
theorem Serving.read (h : Serving fs l) (env : Env) (context : FuseContext) {fi : FuseFileInfo}
    (buf : Nat → UInt8) {size offset : Nat} (hfh : fi.fh < 2147483648) (hsize : size < 2147483648)
    (hwhole : ∀ n, fs.volume.opened fi.fh = some n →
      Disk.ReadsWhole (fs.volume.file n).size size offset) :
    Answered env context fs l (.read fi buf size offset) := by
  cases hnode : fs.nodeAt fi.fh with
  | none =>
      refine ⟨_, fs, l, _, ?_, ⟨h, Nat.le_add_right ..⟩, .read_none (opened_eq_none hnode), .refl _⟩
      refine NaoM.bind_eq_ok.mpr ⟨(eBadf, buf), fs, ?_, rfl⟩
      rw [readFile, h.getFileDescriptor_none hfh hnode]
      rfl
  | some x =>
      have hopen := nodeAt_eq_some.mp hnode
      have hmem : x ∈ fs.openNodes := mem_openNodes.mpr ⟨_, hopen⟩
      have hopened : fs.volume.opened fi.fh = some (fs.inode x).iNodeNumber :=
        congrArg (Option.map fun z => (fs.inode z).iNodeNumber) hnode
      have hregular : (fs.volume.file (fs.inode x).iNodeNumber).isDirectory = false :=
        (fs.directory_volume _).trans (h.regular x hmem).2
      have hwhole := hwhole _ hopened
      have hsz : (fs.volume.file (fs.inode x).iNodeNumber).size = (fs.inode x).size :=
        (h.size_file (h.regular x hmem).1).trans (by rw [← h.value hmem])
      rw [hsz] at hwhole
      obtain ⟨s, hrun, hread, hbuf, hbehind⟩ := Disk.readBytes_slice (h.apartOf hmem).wellFormed
        (h.regularOf hmem) env buf hsize hwhole
      have hfile := readFile_eq hopen (h.coherent.unlocked x) hrun
      have hrest : Resting fs fs.openNodes (fs.moveOffset fi.fh s.moved) := .retable h.coherent _
      obtain ⟨hserving, hagrees⟩ := h.rest hrest (fun _ _ _ => rfl)
        (fs.sameTable_moveOffset fi.fh s.moved)
      rw [h.fileOf hmem] at hread hbuf
      have hlen : toCInt s.bytesRead =
          ((fs.volume.file (fs.inode x).iNodeNumber).slice size offset).length := by
        rw [hread]
        refine InCoreINode.toCInt_of_lt (by omega) ?_
        have hle : ((fs.file (fs.inode x).iNodeNumber).slice size offset).length ≤ size :=
          List.length_take_le _ _
        omega
      rw [hlen] at hfile
      exact ⟨_, _, l, _, NaoM.bind_eq_ok.mpr ⟨_, _, hfile, rfl⟩, ⟨hserving, Nat.le_add_right ..⟩,
        .read hopened hregular hbuf hbehind, hagrees⟩

/-! ## Writing -/

/-- The offset of a descriptor is no part of a file. -/
theorem Rewritten.moveOffset {y : INode} {d : Disk} {l' : List Nat} {held : List NodeId}
    (hw : Rewritten fs held l l' n y d fs₁) (fd moved : Nat) :
    Rewritten fs held l l' n y d (fs₁.moveOffset fd moved) :=
  ⟨⟨hw.others, hw.list, hw.backend, hw.free, hw.owned, hw.frame⟩, hw.coherent.retable _, hw.kept,
    hw.self, hw.blocks⟩

/-- **`write`**. -/
theorem Serving.write (h : Serving fs l) (env : Env) (context : FuseContext) {fi : FuseFileInfo}
    (buf : Nat → UInt8) {size offset : Nat} (hfh : fi.fh < 2147483648) (hsize : size < 2147483648)
    (hwhole : ∀ n, fs.volume.opened fi.fh = some n → offset ≤ (fs.volume.file n).size →
      Disk.WritesWhole (fs.volume.file n).size size offset ∧ offset + size ≤ maxFileSize ∧
      Disk.writeNeeds size (size + 1) (fs.volume.file n).size 0 offset ≤ l.length) :
    Answered env context fs l (.write fi buf size offset) := by
  cases hnode : fs.nodeAt fi.fh with
  | none =>
      refine ⟨_, fs, l, _, ?_, ⟨h, Nat.le_add_right ..⟩, .write_none (opened_eq_none hnode), .refl _⟩
      refine NaoM.bind_eq_ok.mpr ⟨-1, fs, ?_, rfl⟩
      rw [writeToFile, h.getFileDescriptor_none hfh hnode]
      rfl
  | some x =>
      have hopen := nodeAt_eq_some.mp hnode
      have hmem : x ∈ fs.openNodes := mem_openNodes.mpr ⟨_, hopen⟩
      have hopened : fs.volume.opened fi.fh = some (fs.inode x).iNodeNumber :=
        congrArg (Option.map fun z => (fs.inode z).iNodeNumber) hnode
      have hregular : (fs.volume.file (fs.inode x).iNodeNumber).isDirectory = false :=
        (fs.directory_volume _).trans (h.regular x hmem).2
      have hsz : (fs.volume.file (fs.inode x).iNodeNumber).size = (fs.inode x).size :=
        (h.size_file (h.regular x hmem).1).trans (by rw [← h.value hmem])
      have hfree := h.coherent.unlocked x
      by_cases hoff : offset ≤ (fs.inode x).size
      · obtain ⟨hwhole, hmax, hneeds⟩ := hwhole _ hopened (by rwa [hsz])
        rw [hsz] at hwhole hneeds
        obtain ⟨s, hrun, hwritten, hbecomes⟩ := Disk.writeLoop_becomes (h.apartOf hmem)
          (h.coherent.fits _ x (h.coherent.caches_of_held hmem)) (h.regularOf hmem) env.now buf env.response
          hoff hsize hmax hneeds hwhole
        have hfile := writeToFile_eq hopen hfree env buf size hoff
        rw [hrun] at hfile
        have hreached := (h.regular x hmem).1
        have hw := (h.toStocked.revise hmem rfl hreached (h.live x hmem) hbecomes.rewrites
          hbecomes.size).moveOffset fi.fh s.moved
        have hlinks : s.iNode.linksCount = (fs.inode x).linksCount := hbecomes.rewrites.links
        have hlive : ∀ z ∈ fs.openNodes, ((FS.setInode { fs with disk := s.disk } x
            { s.iNode with iNodeMutex := false }).inode z).linksCount ≠ 0 := by
          intro z hz
          rw [field_setInode (·.linksCount) s.disk (y := { s.iNode with iNodeMutex := false }) hlinks z]
          exact h.live z hz
        obtain ⟨hserving, hagrees⟩ := h.rewritten hreached hw
          (hbecomes.reshapes (h.value hmem) (h.regular x hmem).2) (by rw [hlinks, ← h.value hmem])
          (sameTable_moveOffset (FS.setInode { fs with disk := s.disk } x _) fi.fh s.moved) hlive
          (f := (·.write offset ((List.range size).map buf)))
          (hbecomes.file.trans (congrArg (File.write · offset _) (h.fileOf hmem)))
        replace hfile : writeToFile env fi.fh buf size offset fs =
            .ok ((size : Int), (FS.setInode { fs with disk := s.disk } x
              { s.iNode with iNodeMutex := false }).moveOffset fi.fh s.moved) := by
          rw [hfile, Except.map, hwritten]
          rfl
        refine ⟨_, _, _, _, NaoM.bind_eq_ok.mpr ⟨_, _, hfile, rfl⟩, ⟨hserving, ?_⟩,
          .write hopened hregular (by rwa [hsz]), hagrees⟩
        rw [Volume.takes, hopened, Option.elim, hsz, List.length_drop]
        exact le_tsub_add
      · have hpast := writeToFile_past hopen hfree env buf size (Nat.lt_of_not_le hoff)
        rw [setInode_unlocked hfree] at hpast
        exact ⟨_, _, l, _, NaoM.bind_eq_ok.mpr ⟨_, _, hpast, rfl⟩, ⟨h, Nat.le_add_right ..⟩,
          .write_past hopened (by rw [hsz]; exact Nat.lt_of_not_le hoff), .refl _⟩

end Descriptor

end FS

end Naofs
