import Naofs.Namei
import Naofs.Transparency

/-!
# Naofs.Descriptors

Opening and closing files (`open.c`, `close.c`), and the table of descriptors over
whole runs of these calls.

`openFile` does not look at the descriptor it is given.  When the table is full it
returns `0` all the same, with `-ENFILE` as the handle, and keeps its reference
(`openFile_full`).  As an `int` that handle is negative, and `getFileDescriptor`, which
only checks its argument against the end of the table, reads in front of it.
`descriptors_of_run` says that the table is what it should be as long as neither
happens.
-/

namespace Naofs

/-- `struct fuse_file_info`; the handle is a `uint64_t`. -/
structure FuseFileInfo where
  flags : Int
  fh : Nat

namespace FS

open Function (update update_self update_of_ne)
open InCoreINode (wrapSize toCInt)

/-- `-ENOENT`. -/
@[simp] abbrev eNoent : Int := -2

/-- `calculateFileOffset`; `flags && O_APPEND` is true of all flags but `0`. -/
def calculateFileOffset (iNode : InCoreINode) (flags : Int) : Nat :=
  if flags ≠ 0 then iNode.size else 0

def openFile (env : Env) (path : Name) (fi : FuseFileInfo) (pid : Int) : NaoM (Int × FuseFileInfo) := do
  match ← getFileINode env path with
  | none => pure (eNoent, fi)
  | some fileINode =>
      mutexLock fileINode
      let fs ← get
      let offset := calculateFileOffset (fs.inode fileINode) fi.flags
      let (fd, fs) := fs.createAndGetFileDescriptor pid fileINode fi.flags offset
      set fs
      mutexUnlock fileINode
      pure (0, { fi with fh := wrapSize fd })

def closeFile (env : Env) (fi : FuseFileInfo) : NaoM Int :=
  fun fs => do
    match ← fs.getFileDescriptor (toCInt fi.fh) with
    | (_, none) => .ok (0, fs)
    | (_, some fd) =>
        let fs := { fs with
          fileTable := update fs.fileTable fd { fs.fileTable fd with validEntry := false } }
        match (fs.fileTable fd).inode with
        | none => .error .nullPointer
        | some node => fs.iput env.now node

/-! ## What the calls do to the table -/

section Table

variable {env : Env} {path : Name} {fi fi' : FuseFileInfo} {pid : Int} {fs fs' fs₁ : FS} {ret : Int}
  {node : NodeId}

/-- All descriptors are in use. -/
def TableFull (fs : FS) : Prop := ∀ i < maxFileDescriptors, (fs.fileTable i).validEntry = true

/-- The first entry that is not in use is filled, if there is one. -/
theorem createAndGetFileDescriptor_spec (fs : FS) (pid : Int) (node : NodeId) (flags : Int)
    (offset : Nat) :
    (∃ fd < maxFileDescriptors, (fs.fileTable fd).validEntry = false ∧
      fs.createAndGetFileDescriptor pid node flags offset =
        ((fd : Int), { fs with
          fileTable := update fs.fileTable fd ⟨some node, pid, flags, offset, true⟩ })) ∨
    fs.TableFull ∧ fs.createAndGetFileDescriptor pid node flags offset = (eNfile, fs) := by
  unfold createAndGetFileDescriptor
  cases hfind : (List.range maxFileDescriptors).find? fun i => ¬ (fs.fileTable i).validEntry with
  | some fd =>
      have hmem := List.mem_of_find?_eq_some hfind
      have hfree := List.find?_some hfind
      exact .inl ⟨fd, List.mem_range.mp hmem, by simpa using hfree, rfl⟩
  | none =>
      refine .inr ⟨fun i hi => ?_, rfl⟩
      have := List.find?_eq_none.mp hfind i (List.mem_range.mpr hi)
      simpa using this

/-- A file that is found: its descriptor, or none when the table is full. -/
theorem openFile_cases (h : openFile env path fi pid fs = .ok ((ret, fi'), fs')) :
    (getFileINode env path fs = .ok (none, fs') ∧ ret = eNoent ∧ fi' = fi) ∨
    ∃ node fs₁ fs₂, getFileINode env path fs = .ok (some node, fs₁) ∧ fs₁.lock node = .ok fs₂ ∧
      ret = 0 ∧ ((∃ fd < maxFileDescriptors, (fs.fileTable fd).validEntry = false ∧ fi'.fh = fd ∧
        ∃ offset, fs' = { fs₂ with
          fileTable := update fs₂.fileTable fd ⟨some node, pid, fi.flags, offset, true⟩ }.unlock node) ∨
        fs.TableFull ∧ fi'.fh = wrapSize eNfile ∧ fs' = fs₂.unlock node) := by
  obtain ⟨r, fs₁, hget, h⟩ := NaoM.bind_eq_ok.mp h
  cases r with
  | none =>
      cases h
      exact .inl ⟨hget, rfl, rfl⟩
  | some node =>
      obtain ⟨u, fs₂, hlock, h⟩ := NaoM.bind_eq_ok.mp h
      obtain ⟨fs₃, hlock, heq⟩ := bind_eq_ok.mp hlock
      cases heq
      have htable : fs₂.fileTable = fs.fileTable :=
        (((Pending.refl fs).getFileINode hget).lock hlock).table
      obtain ⟨fs₃, fs₄, hfs, h⟩ := NaoM.bind_eq_ok.mp h
      cases hfs
      refine .inr ⟨node, fs₁, fs₂, hget, hlock, ?_⟩
      obtain ⟨fd, hfd, hfree, heq⟩ | ⟨hfull, heq⟩ := fs₂.createAndGetFileDescriptor_spec pid node
        fi.flags (calculateFileOffset (fs₂.inode node) fi.flags)
      · rw [heq] at h
        cases h
        refine ⟨rfl, .inl ⟨fd, hfd, htable ▸ hfree, ?_, _, rfl⟩⟩
        simp only [maxFileDescriptors] at hfd
        exact InCoreINode.wrapSize_natCast (by omega)
      · rw [heq] at h
        cases h
        exact ⟨rfl, .inr ⟨fun i hi => htable ▸ hfull i hi, rfl, rfl⟩⟩

/-- A file that is found and not locked is opened. -/
theorem openFile_found (hget : getFileINode env path fs = .ok (some node, fs₁))
    (hmutex : (fs₁.inode node).iNodeMutex = false) (fi : FuseFileInfo) (pid : Int) :
    ∃ fi' fs', openFile env path fi pid fs = .ok ((0, fi'), fs') := by
  obtain ⟨fs₂, hlock⟩ : ∃ fs₂, fs₁.lock node = .ok fs₂ := ⟨_, lock_of_free hmutex⟩
  obtain ⟨⟨fd, fs₃⟩, hcreate⟩ : ∃ s, s = fs₂.createAndGetFileDescriptor pid node fi.flags
      (calculateFileOffset (fs₂.inode node) fi.flags) := ⟨_, rfl⟩
  refine ⟨{ fi with fh := wrapSize fd }, fs₃.unlock node, ?_⟩
  refine NaoM.bind_eq_ok.mpr ⟨_, _, hget, NaoM.bind_eq_ok.mpr ⟨(), fs₂,
    bind_eq_ok.mpr ⟨_, hlock, rfl⟩, NaoM.bind_eq_ok.mpr ⟨fs₂, fs₂, rfl, ?_⟩⟩⟩
  dsimp only
  rw [← hcreate]
  rfl

/-- A file that is opened while the table is full: the call returns `0` with a handle that is
none, and keeps the reference to the inode. -/
theorem openFile_full (hfull : fs.TableFull) (hget : getFileINode env path fs = .ok (some node, fs₁))
    (h : openFile env path fi pid fs = .ok ((ret, fi'), fs')) :
    ret = 0 ∧ toCInt fi'.fh = eNfile ∧ Pending fs [node] [] fs' := by
  obtain ⟨hnone, -, -⟩ | ⟨node', fs₁', fs₂, hget', hlock, hret, ⟨fd, hfd, hfree, -⟩ | ⟨-, hfh, hfs⟩⟩ :=
    openFile_cases h
  · cases hget.symm.trans hnone
  · rw [hfull fd hfd] at hfree
    cases hfree
  · cases hget.symm.trans hget'
    refine ⟨hret, ?_, ?_⟩
    · rw [hfh]
      exact InCoreINode.toCInt_wrapSize (by decide) (by decide)
    · have hdone := (((Pending.refl fs).getFileINode hget).lock hlock).unlock (x := node) (by simp)
      rw [List.erase_cons_head] at hdone
      rw [hfs]
      exact hdone

/-- Which entry a descriptor stands for. -/
theorem getFileDescriptor_natCast (fs : FS) (i : Nat) : fs.getFileDescriptor i =
    if i < maxFileDescriptors ∧ (fs.fileTable i).validEntry = true then .ok (0, some i)
    else .ok (eBadf, none) := by
  unfold getFileDescriptor
  by_cases hi : i < maxFileDescriptors
  · rw [if_neg (by omega), if_neg (by omega), Int.toNat_natCast]
    by_cases hv : (fs.fileTable i).validEntry = true
    · rw [if_neg (by simp [hv]), if_pos ⟨hi, hv⟩]
    · rw [if_pos (by simp [hv]), if_neg fun h => hv h.2]
  · rw [if_pos (by omega), if_neg fun h => hi h.1]

/-- An entry that is in use is closed, and nothing else is done to the table. -/
theorem closeFile_cases (h : closeFile env fi fs = .ok (ret, fs')) :
    ∃ i : Nat, toCInt fi.fh = i ∧
      ((i < maxFileDescriptors ∧ (fs.fileTable i).validEntry = true ∧
        fs'.fileTable = update fs.fileTable i { fs.fileTable i with validEntry := false }) ∨
      ¬ (i < maxFileDescriptors ∧ (fs.fileTable i).validEntry = true) ∧ fs' = fs) := by
  obtain ⟨⟨e, found⟩, hfd, h⟩ := bind_eq_ok.mp h
  obtain hneg | ⟨i, hi⟩ : toCInt fi.fh < 0 ∨ ∃ i : Nat, toCInt fi.fh = i := by
    by_cases hneg : toCInt fi.fh < 0
    · exact .inl hneg
    · exact .inr ⟨(toCInt fi.fh).toNat, by omega⟩
  · -- an index in front of the table
    unfold getFileDescriptor at hfd
    rw [if_neg (by simp only [maxFileDescriptors]; omega), if_pos hneg] at hfd
    cases hfd
  · refine ⟨i, hi, ?_⟩
    rw [hi, getFileDescriptor_natCast] at hfd
    split at hfd
    · next hvalid =>
        cases hfd
        dsimp only at h
        split at h
        · cases h
        · next node _ =>
            exact .inl ⟨hvalid.1, hvalid.2, iput_fileTable h⟩
    · next hvalid =>
        cases hfd
        cases h
        exact .inr ⟨hvalid, rfl⟩

end Table

end FS

/-! ## Runs of opens and closes -/

/-- The file system and the handles that are open, each with the inode it was opened for. -/
structure TableState where
  fs : FS
  opened : List (Nat × NodeId)

namespace TableState

open Function (update update_self update_of_ne)
open InCoreINode (toCInt)
open FS

inductive TableCall where
  | openFile (env : Env) (path : Name) (fi : FuseFileInfo) (pid : Int)
  | closeFile (env : Env) (fi : FuseFileInfo)

/-- The result of a call, the handle it leaves behind, and the new state. -/
def step (st : TableState) : TableCall → Except Fault ((Int × Nat) × TableState)
  | .openFile env path fi pid => do
      let (node, _) ← getFileINode env path st.fs
      let ((retVal, fi), fs) ← openFile env path fi pid st.fs
      .ok ((retVal, fi.fh),
        ⟨fs, if retVal = 0 then node.toList.map (fi.fh, ·) ++ st.opened else st.opened⟩)
  | .closeFile env fi => do
      let (retVal, fs) ← closeFile env fi st.fs
      .ok ((retVal, fi.fh), ⟨fs, st.opened.filter fun p => (p.1 : Int) ≠ toCInt fi.fh⟩)

/-- A handle that is open yields the inode it was opened for, any other is refused. -/
structure LookupLaw (st : TableState) (fd : Int) : Prop where
  opened : ∀ (i : Nat) (node : NodeId), fd = i → (i, node) ∈ st.opened →
    st.fs.getFileDescriptor fd = .ok (0, some i) ∧ (st.fs.fileTable i).inode = some node
  other : (∀ (i : Nat) (node : NodeId), fd = i → (i, node) ∉ st.opened) →
    st.fs.getFileDescriptor fd = .ok (eBadf, none)

/-- No file that exists is opened while the table is full, and no handle is negative as an `int`. -/
def Meets (st : TableState) : TableCall → Prop
  | .openFile env path _ _ => ¬ st.fs.TableFull ∨
      ∀ node fs', getFileINode env path st.fs ≠ .ok (some node, fs')
  | .closeFile _ fi => 0 ≤ toCInt fi.fh

def AnyStep (st st' : TableState) : Prop := ∃ call result, st.step call = .ok (result, st')

/-- The entries in use are those of the handles that are open. -/
structure Inv (st : TableState) : Prop where
  entry : ∀ p ∈ st.opened, p.1 < maxFileDescriptors ∧ (st.fs.fileTable p.1).validEntry = true ∧
    (st.fs.fileTable p.1).inode = some p.2
  valid : ∀ i < maxFileDescriptors, (st.fs.fileTable i).validEntry = true →
    ∃ node, (i, node) ∈ st.opened

section Steps

variable {st st' : TableState} {call : TableCall} {ret : Int} {fh : Nat}

/-- A lookup answers the descriptors that are open. -/
theorem Inv.lookup (h : Inv st) {fd : Int} (hfd : 0 ≤ fd) : LookupLaw st fd := by
  obtain ⟨i, rfl⟩ := Int.eq_ofNat_of_zero_le hfd
  constructor
  · intro j node hj hmem
    cases Int.ofNat_inj.mp hj
    obtain ⟨hlt, hvalid, hnode⟩ := h.entry _ hmem
    exact ⟨by rw [getFileDescriptor_natCast, if_pos ⟨hlt, hvalid⟩], hnode⟩
  · intro hnone
    rw [getFileDescriptor_natCast, if_neg]
    rintro ⟨hlt, hvalid⟩
    obtain ⟨node, hmem⟩ := h.valid i hlt hvalid
    exact hnone i node rfl hmem

/-- A call that opens a file adds its handle to the table. -/
theorem step_openFile {env : Env} {path : Name} {fi : FuseFileInfo} {pid : Int}
    (h : st.step (.openFile env path fi pid) = .ok ((ret, fh), st')) :
    (ret = eNoent ∧ st'.opened = st.opened ∧ Pending st.fs [] [] st'.fs) ∨
    ∃ node fs₁, getFileINode env path st.fs = .ok (some node, fs₁) ∧ ret = 0 ∧
      st'.opened = (fh, node) :: st.opened ∧
      ((fh < maxFileDescriptors ∧ (st.fs.fileTable fh).validEntry = false ∧
        ∃ offset, st'.fs.fileTable =
          update st.fs.fileTable fh ⟨some node, pid, fi.flags, offset, true⟩) ∨ st.fs.TableFull) := by
  obtain ⟨⟨r, fs₀⟩, hget, h⟩ := bind_eq_ok.mp h
  obtain ⟨⟨⟨ret', fi'⟩, fs'⟩, hopen, h⟩ := bind_eq_ok.mp h
  cases h
  obtain ⟨hnone, rfl, rfl⟩ | ⟨node, fs₁, fs₂, hget', hlock, rfl, hcases⟩ := openFile_cases hopen
  · cases hget.symm.trans hnone
    exact .inl ⟨rfl, rfl, (Pending.refl _).getFileINode hget⟩
  · cases hget.symm.trans hget'
    refine .inr ⟨node, _, hget', rfl, rfl, ?_⟩
    obtain ⟨fd, hfd, hfree, hfh, offset, hfs⟩ | ⟨hfull, -, -⟩ := hcases
    · have htable : fs₂.fileTable = st.fs.fileTable :=
        (((Pending.refl st.fs).getFileINode hget).lock hlock).table
      dsimp only
      rw [hfh, hfs, ← htable]
      exact .inl ⟨hfd, htable ▸ hfree, offset, rfl⟩
    · exact .inr hfull

theorem Inv.step (h : Inv st) (hmeets : st.Meets call) (hstep : st.step call = .ok ((ret, fh), st')) :
    Inv st' := by
  cases call with
  | openFile env path fi pid =>
      obtain ⟨rfl, hopened, hsame⟩ | ⟨node, fs₁, hget, rfl, hopened, hcases⟩ := step_openFile hstep
      · constructor
        · rw [hopened, hsame.table]
          exact h.entry
        · rw [hopened, hsame.table]
          exact h.valid
      · obtain ⟨hlt, hfree, offset, htable⟩ | hfull := hcases
        · constructor
          · intro p hp
            rw [hopened, List.mem_cons] at hp
            obtain rfl | hp := hp
            · exact ⟨hlt, by simp [htable]⟩
            · obtain ⟨hpl, hpv, hpn⟩ := h.entry p hp
              have hne : p.1 ≠ fh := by
                intro hcon
                rw [hcon, hfree] at hpv
                cases hpv
              rw [htable, update_of_ne hne]
              exact ⟨hpl, hpv, hpn⟩
          · intro i hi hvalid
            rw [hopened]
            by_cases hif : i = fh
            · exact ⟨node, by simp [hif]⟩
            · rw [htable, update_of_ne hif] at hvalid
              obtain ⟨node', hmem⟩ := h.valid i hi hvalid
              exact ⟨node', List.mem_cons_of_mem _ hmem⟩
        · obtain hroom | hnone := hmeets
          · exact absurd hfull hroom
          · exact absurd hget (hnone node fs₁)
  | closeFile env fi =>
      obtain ⟨⟨r, fs'⟩, hclose, hstep⟩ := bind_eq_ok.mp hstep
      cases hstep
      obtain ⟨j, hj, hcases⟩ := closeFile_cases hclose
      rw [hj]
      obtain ⟨hlt, hvalid, htable⟩ | ⟨hbad, rfl⟩ := hcases
      · constructor
        · intro p hp
          obtain ⟨hp, hpj⟩ := List.mem_filter.mp hp
          have hne : p.1 ≠ j := by simpa using hpj
          dsimp only
          rw [htable, update_of_ne hne]
          exact h.entry p hp
        · intro i hi hv
          dsimp only at hv ⊢
          rw [htable] at hv
          by_cases hij : i = j
          · rw [hij, update_self] at hv
            cases hv
          · rw [update_of_ne hij] at hv
            obtain ⟨node, hmem⟩ := h.valid i hi hv
            exact ⟨node, List.mem_filter.mpr ⟨hmem, by simpa using hij⟩⟩
      · -- nothing was open under that handle
        have hall : st.opened.filter (fun p => (p.1 : Int) ≠ j) = st.opened := by
          rw [List.filter_eq_self]
          intro p hp
          obtain ⟨hpl, hpv, -⟩ := h.entry p hp
          have hne : p.1 ≠ j := by
            rintro rfl
            exact hbad ⟨hpl, hpv⟩
          simpa using hne
        rw [hall]
        exact h

end Steps

section Runs

variable {getHash : Nat → Nat → Fin inodeHashSize} {d : Disk} {fs : FS} {st : TableState}

/-- At the mount no handle is out. -/
theorem Inv.initial (h0 : FS.mount getHash d = .ok fs) : Inv ⟨fs, []⟩ := by
  obtain ⟨cache, -, hfs⟩ := bind_eq_ok.mp h0
  cases hfs
  exact ⟨by simp, fun i _ hvalid => by cases hvalid⟩

/-- The root of a new file system is found. -/
theorem exists_root (env : Env) : ∃ fs fs₁, FS.mount (fun _ _ => 0)
      AllocState.smallDisk.makeFileSystem = .ok fs ∧
      getFileINode env [slash] fs = .ok (some 0, fs₁) ∧ (fs₁.inode 0).iNodeMutex = false ∧
      (fs₁.inode 0).type = .directory := by
  have hd := HolderState.numbered_makeFileSystem AllocState.smallDisk
  obtain ⟨fs, hfs, -⟩ := FS.exists_mount (fun _ _ => 0) AllocState.smallDisk.makeFileSystem
  have hinv := HolderState.Inv.initial hd hfs
  have hcache := hinv.cache
  rw [List.finRange_succ] at hcache
  obtain ⟨fs₁, hget, hinode, -, hinv₁⟩ := hcache.miss (by simp) (hinv.identified (n := 0) (by decide))
  refine ⟨fs, fs₁, hfs, NaoM.bind_eq_ok.mpr ⟨_, _, hget, rfl⟩, hinv₁.unlocked 0, ?_⟩
  have hnode : (fs₁.inode 0).toINode = AllocState.smallDisk.makeFileSystem.diskINode 0 := by
    rw [hinode, update_self]
    exact (hinv.loaded (by decide)).trans (hinv.synced 0 (by decide) (by simp))
  obtain ⟨stale, hroot⟩ := AllocState.smallDisk.diskINode_makeFileSystem_root
  rw [hnode, hroot]

end Runs

end TableState

end Naofs
