import Naofs.Interface
import Naofs.Resolve

/-!
# Naofs.Creation

When `createFile` fails.

The only failures that `createFile` reports are those of `validateThenGetParentINode`:
an unsupported type, a parent that `getFileINode` does not find, a name that is there
already.  Nothing was written then.  After it, what `getNewINode` and
`getAndUpdateDirectoryTable` return is not looked at: `createFile` returns 0 if it returns.
-/

namespace Naofs

/-- The path up to its last slash. -/
def parentPath (path : Name) : Name := (path.reverse.dropWhile (· ≠ slash)).reverse

/-- What follows the last slash. -/
def lastName (path : Name) : Name := (path.reverse.takeWhile (· ≠ slash)).reverse

section Paths

variable {path : Name}

theorem getParentDirectory_eq (h : slash ∈ path) : getParentDirectory path = .ok (parentPath path) :=
  if_pos h

theorem getFilenameFromPath_eq (h : slash ∈ path) : getFilenameFromPath path = .ok (lastName path) :=
  if_pos h

/-- A path is put together from its two parts. -/
theorem parentPath_append_lastName (path : Name) : parentPath path ++ lastName path = path := by
  rw [parentPath, lastName, ← List.reverse_append, List.takeWhile_append_dropWhile,
    List.reverse_reverse]

/-- The last name begins behind the last slash. -/
theorem slash_notMem_lastName (path : Name) : slash ∉ lastName path := fun hmem => by
  rw [lastName, List.mem_reverse] at hmem
  simpa using List.all_eq_true.mp List.all_takeWhile slash hmem

/-- The parent of an absolute path is one. -/
theorem parentPath_slash (path : Name) : ∃ rest, parentPath (slash :: path) = slash :: rest := by
  have happ := parentPath_append_lastName (slash :: path)
  have hno := slash_notMem_lastName (slash :: path)
  cases hp : parentPath (slash :: path) with
  | nil =>
      rw [hp, List.nil_append] at happ
      rw [happ] at hno
      exact absurd List.mem_cons_self hno
  | cons c rest =>
      rw [hp, List.cons_append, List.cons.injEq] at happ
      exact ⟨rest, by rw [happ.1]⟩

end Paths

namespace FS

open InCoreINode (wrapSize)

/-- Whether the code finds no inode for an absolute path. -/
def Nowhere (fs : FS) (held : List NodeId) (path : Name) : Prop :=
  if fs.Available held 0 then (components path).foldlM (fs.advance held) 0 = none
  else ∀ c ∈ path.tail.head?, c = slash

/-- What makes `validateThenGetParentINode` return `NULL`. -/
inductive Refused (fs : FS) (held : List NodeId) (fileType : INodeType) (path : Name) : Prop
  | fileType : fileType = .free → Refused fs held fileType path
  | parent : fs.Nowhere held (parentPath path) → Refused fs held fileType path
  | name {n m : Nat} : fs.Available held 0 →
      (components (parentPath path)).foldlM (fs.advance held) 0 = some n → fs.tree.directory n →
      fs.tree.entry n (lastName path) = some m → Refused fs held fileType path

/-- The blocks on disk and all inodes are as they were. -/
structure Unchanged (fs fs' : FS) : Prop where
  disk : SameBlocks fs.disk fs'.disk
  inodes : ∀ n < numOfInodes, fs'.seen n = fs.seen n

/-- `createFile` returns a negative value and changes nothing. -/
def Fails (env : Env) (fs : FS) (path : Name) (fileType : INodeType) (mode uid gid : UInt32) : Prop :=
  ∃ r fs', createFile env path fileType mode uid gid fs = .ok (r, fs') ∧ r < 0 ∧ Unchanged fs fs'

section Parent

variable {fs fs' : FS} {held : List NodeId} {x : NodeId} {n : Nat} {path : Name}

/-- Where the disk and the inodes are the same, nothing has changed. -/
theorem Same.unchanged (h : Same fs held fs') : Unchanged fs fs' := ⟨h.disk, h.seen⟩

/-- `getFileINode` without a node for the root. -/
theorem TreeState.getFileINode_full (h : TreeState fs held) (env : Env) (path : Name)
    (hroot : ¬ fs.Available held 0) :
    ((∀ c ∈ path.head?, c = slash) ∧
      ∃ fs', getFileINode env (slash :: path) fs = .ok (none, fs') ∧ Resting fs held fs') ∨
    (¬ (∀ c ∈ path.head?, c = slash) ∧ getFileINode env (slash :: path) fs = .error .nullPointer) := by
  obtain ⟨fs₁, hget, hrest⟩ := h.resting.iget_none (show 0 < numOfInodes by decide) hroot
  cases path with
  | nil => exact .inl ⟨nofun, fs₁, NaoM.bind_eq_ok.mpr ⟨_, _, hget, rfl⟩, hrest⟩
  | cons c path =>
      have hrun : getFileINode env (slash :: c :: path) fs =
          getFileINodeLoop env ((c :: path).length + 1) (c :: path) none fs₁ := by
        change (do let s ← iget 0 0 fs; getFileINodeLoop env _ (c :: path) s.1 s.2) = _
        rw [hget]
        rfl
      rw [hrun, getFileINodeLoop, if_neg (List.cons_ne_nil c path), List.head?_cons]
      by_cases hc : c = slash
      · have hname : (c :: path).takeWhile (· ≠ slash) = [] :=
          List.takeWhile_cons_of_neg (by simpa using hc)
        refine .inl ⟨by simpa using hc, fs₁, ?_, hrest⟩
        rw [processNextLevel, operate, if_pos hname]
        rfl
      · have hname : (c :: path).takeWhile (· ≠ slash) ≠ [] := by
          rw [List.takeWhile_cons_of_pos (by simpa using hc)]
          exact List.cons_ne_nil _ _
        refine .inr ⟨by simpa using hc, ?_⟩
        rw [processNextLevel, operate, if_neg hname]
        rfl

/-- What `getFileINode` returns. -/
theorem TreeState.getFileINode_cases (h : TreeState fs held) (env : Env) (h0 : (0 : UInt8) ∉ path) :
    (fs.Nowhere held (slash :: path) ∧
      ∃ fs', getFileINode env (slash :: path) fs = .ok (none, fs') ∧ Resting fs held fs') ∨
    (¬ fs.Nowhere held (slash :: path) ∧ fs.Available held 0 ∧ ∃ x n fs',
      (components (slash :: path)).foldlM (fs.advance held) 0 = some n ∧
      getFileINode env (slash :: path) fs = .ok (some x, fs') ∧ Standing fs held fs' x n ∧
      fs.tree.Reached n) ∨
    (¬ fs.Nowhere held (slash :: path) ∧ ¬ fs.Available held 0 ∧
      getFileINode env (slash :: path) fs = .error .nullPointer) := by
  rw [Nowhere]
  by_cases hroot : fs.Available held 0
  · obtain ⟨r, fs', hrun, harr⟩ := h.getFileINode_arrives env h0 hroot
    rw [if_pos hroot]
    rw [← components_slash] at harr
    generalize (components (slash :: path)).foldlM (fs.advance held) 0 = followed at harr ⊢
    cases harr with
    | nowhere hrest => exact .inl ⟨rfl, fs', hrun, hrest⟩
    | found hx hn => exact .inr (.inl ⟨nofun, hroot, _, _, fs', rfl, hrun, hx, hn⟩)
  · rw [if_neg hroot]
    obtain ⟨hc, hrun⟩ | ⟨hc, hrun⟩ := h.getFileINode_full env path hroot
    · exact .inl ⟨hc, hrun⟩
    · exact .inr (.inr ⟨hc, hroot, hrun⟩)

/-- `doesFileExistIn`, in a parent that was found. -/
theorem TreeState.doesFileExistIn_eq (h : TreeState fs held) (hx : Standing fs held fs' x n)
    (hn : fs.tree.Reached n) {filename : Name} (h0 : (0 : UInt8) ∉ filename) (env : Env) :
    doesFileExistIn env filename x fs' =
      .ok (fs.tree.directory n && (fs.tree.entry n filename).isSome, fs') := by
  obtain ⟨ret, buf, hsearch, hcases⟩ := h.search_eq hx hn h0 env fun _ => env.entry
  refine NaoM.bind_eq_ok.mpr ⟨_, _, hsearch, ?_⟩
  obtain ⟨hdir, hentry, rfl⟩ | ⟨hdir, e, hentry, rfl, -⟩ | ⟨hdir, rfl, -⟩ := hcases
  · rw [hdir, hentry]
    rfl
  · rw [hdir, hentry]
    rfl
  · rw [Bool.not_eq_true] at hdir
    rw [hdir]
    rfl

/-- The parent is looked up like any other path. -/
theorem getParentINode_eq (env : Env) (h : slash ∈ path) :
    getParentINode env path = getFileINode env (parentPath path) := by
  rw [getParentINode, getParentDirectory_eq h]
  rfl

/-- `validateThenGetParentINode` returns `NULL` in the cases of `Refused`, and has changed
nothing then. -/
theorem TreeState.validate_cases (h : TreeState fs held) (env : Env) (fileType : INodeType)
    (h0 : (0 : UInt8) ∉ path) :
    (Refused fs held fileType (slash :: path) ∧ ∃ fs',
      validateThenGetParentINode env fileType (slash :: path) fs = .ok (none, fs') ∧
      Unchanged fs fs') ∨
    (¬ Refused fs held fileType (slash :: path) ∧ ∀ fs',
      validateThenGetParentINode env fileType (slash :: path) fs ≠ .ok (none, fs')) := by
  have hslash : slash ∈ slash :: path := List.mem_cons_self
  have hbytes : (0 : UInt8) ∉ slash :: path := by simpa using h0
  rw [← parentPath_append_lastName (slash :: path), List.mem_append, not_or] at hbytes
  rw [validateThenGetParentINode]
  by_cases htype : fileType = .free
  · rw [if_pos (by rw [htype]; decide)]
    exact .inl ⟨.fileType htype, fs, rfl, .refl _, fun _ _ => rfl⟩
  · rw [if_neg (by cases fileType <;> simp_all)]
    obtain ⟨rest, hparent⟩ := parentPath_slash path
    have hrest : (0 : UInt8) ∉ rest := by
      have := hbytes.1
      rw [hparent] at this
      exact fun hmem => this (List.mem_cons_of_mem _ hmem)
    have hget := getParentINode_eq env hslash
    rw [hparent] at hget
    rw [hget]
    obtain ⟨hno, fs', hrun, hfs'⟩ | ⟨hno, hroot, x, n, fs', hway, hrun, hx, hn⟩ | ⟨hno, hroot, hrun⟩ :=
      h.getFileINode_cases env hrest
    · exact .inl ⟨.parent (hparent ▸ hno), fs', NaoM.bind_eq_ok.mpr ⟨_, _, hrun, rfl⟩,
        hfs'.toSame.unchanged⟩
    · have hexists := h.doesFileExistIn_eq hx hn hbytes.2 env
      have hname : NaoM.ofExcept (getFilenameFromPath (slash :: path)) fs' =
          .ok (lastName (slash :: path), fs') := by
        rw [getFilenameFromPath_eq hslash]
        rfl
      by_cases hthere : (fs.tree.directory n && (fs.tree.entry n (lastName (slash :: path))).isSome) = true
      · rw [hthere] at hexists
        obtain ⟨hdir, hentry⟩ := Bool.and_eq_true_iff.mp hthere
        obtain ⟨m, hm⟩ := Option.isSome_iff_exists.mp hentry
        refine .inl ⟨.name hroot (hparent ▸ hway) hdir hm, fs', ?_, hx.toSame.unchanged⟩
        exact NaoM.bind_eq_ok.mpr ⟨_, _, hrun, NaoM.bind_eq_ok.mpr ⟨_, _, hname,
          NaoM.bind_eq_ok.mpr ⟨_, _, hexists, rfl⟩⟩⟩
      · refine .inr ⟨?_, fun fs'' heq => ?_⟩
        · rintro (hfree | hno' | ⟨-, hway', hdir, hm⟩)
          · exact htype hfree
          · exact hno (hparent ▸ hno')
          · rw [hparent, hway] at hway'
            cases hway'
            exact hthere (by rw [hdir, hm]; rfl)
        · obtain ⟨r, fs₁, hrun', heq⟩ := NaoM.bind_eq_ok.mp heq
          cases hrun.symm.trans hrun'
          obtain ⟨r, fs₂, hname', heq⟩ := NaoM.bind_eq_ok.mp heq
          cases hname.symm.trans hname'
          obtain ⟨r, fs₃, hexists', heq⟩ := NaoM.bind_eq_ok.mp heq
          cases hexists.symm.trans hexists'
          rw [if_neg hthere] at heq
          cases heq
    · refine .inr ⟨?_, fun fs' heq => ?_⟩
      · rintro (hfree | hno' | ⟨hroot', -⟩)
        · exact htype hfree
        · exact hno (hparent ▸ hno')
        · exact hroot hroot'
      · obtain ⟨r, fs₁, hrun', -⟩ := NaoM.bind_eq_ok.mp heq
        cases hrun.symm.trans hrun'

/-- `createFile` reports no failure but that of `validateThenGetParentINode`. -/
theorem createFile_result {env : Env} {fileType : INodeType} {mode uid gid : UInt32} {r : Int}
    (heq : createFile env path fileType mode uid gid fs = .ok (r, fs')) :
    r = 0 ∨ r = -1 ∧ validateThenGetParentINode env fileType path fs = .ok (none, fs') := by
  obtain ⟨parent, fs₁, hvalidate, heq⟩ := NaoM.bind_eq_ok.mp heq
  cases parent with
  | none =>
      cases heq
      exact .inr ⟨rfl, hvalidate⟩
  | some parent =>
      obtain ⟨iNodeNum, fs₂, -, heq⟩ := NaoM.bind_eq_ok.mp heq
      obtain ⟨-, fs₃, -, heq⟩ := NaoM.bind_eq_ok.mp heq
      obtain ⟨newINode, fs₄, -, heq⟩ := NaoM.bind_eq_ok.mp heq
      cases newINode with
      | none => cases heq
      | some newINode =>
          obtain ⟨-, fs₅, -, heq⟩ := NaoM.bind_eq_ok.mp heq
          obtain ⟨-, fs₆, -, heq⟩ := NaoM.bind_eq_ok.mp heq
          obtain ⟨-, fs₇, -, heq⟩ := NaoM.bind_eq_ok.mp heq
          cases heq
          exact .inl rfl

theorem TreeState.fails_iff_refused (h : TreeState fs held) (env : Env) (fileType : INodeType)
    (mode uid gid : UInt32) (h0 : (0 : UInt8) ∉ path) :
    Fails env fs (slash :: path) fileType mode uid gid ↔ Refused fs held fileType (slash :: path) := by
  obtain ⟨hrefused, fs', hvalidate, hsame⟩ | ⟨hno, hvalidate⟩ := h.validate_cases env fileType h0
  · refine ⟨fun _ => hrefused, fun _ => ⟨-1, fs', ?_, by decide, hsame⟩⟩
    exact NaoM.bind_eq_ok.mpr ⟨_, _, hvalidate, rfl⟩
  · refine ⟨?_, fun hrefused => absurd hrefused hno⟩
    rintro ⟨r, fs', heq, hneg, -⟩
    obtain rfl | ⟨-, hnone⟩ := createFile_result heq
    · exact absurd hneg (by decide)
    · exact absurd hnone (hvalidate fs')

end Parent

/-! ## The law -/

/-- The blocks that the first entries of a new file take. -/
def firstNeeds (fileType : INodeType) : Nat := if fileType = .directory then 1 else 0

/-- Why a file cannot be created. -/
inductive CannotComplete (env : Env) (fs : FS) (path : Name) (fileType : INodeType)
    (mode uid gid : UInt32) : Prop
  | noParent : fs.tree.resolve (parentPath path) = none →
      CannotComplete env fs path fileType mode uid gid
  | notDirectory {n : Nat} : fs.tree.resolve (parentPath path) = some n → ¬ fs.tree.directory n →
      CannotComplete env fs path fileType mode uid gid
  | nameTaken {n m : Nat} : fs.tree.resolve (parentPath path) = some n →
      fs.tree.entry n (lastName path) = some m → CannotComplete env fs path fileType mode uid gid
  | noINode : (fs.disk.getNewINode env.now fileType mode uid gid).1 = 0 ∨
      (fs.disk.getNewINode env.now fileType mode uid gid).1 = noINode →
      CannotComplete env fs path fileType mode uid gid
  | noBlock {n : Nat} {l : List Nat} : fs.tree.resolve (parentPath path) = some n →
      FreeBlocks fs.disk l → l.length < Disk.endNeeds (fs.seen n).size + firstNeeds fileType →
      CannotComplete env fs path fileType mode uid gid

/-- **When a creation that cannot complete fails as it should.**  A creation fails, with
nothing changed, exactly if it is refused before anything is written. -/
theorem failed_creation_iff {fs : FS} {held : List NodeId} (h : TreeState fs held) (env : Env)
    (fileType : INodeType) (mode uid gid : UInt32) {path : Name} (h0 : (0 : UInt8) ∉ path) :
    (Fails env fs (slash :: path) fileType mode uid gid ↔
      Refused fs held fileType (slash :: path)) ∧
    ((CannotComplete env fs (slash :: path) fileType mode uid gid →
      Fails env fs (slash :: path) fileType mode uid gid) ↔
    (CannotComplete env fs (slash :: path) fileType mode uid gid →
      Refused fs held fileType (slash :: path))) :=
  have hiff := h.fails_iff_refused env fileType mode uid gid h0
  ⟨hiff, imp_congr_right fun _ => hiff⟩

/-- The file `f` is there already. -/
theorem creation_refused : ∃ fs : FS, CannotComplete blankEnv fs [slash, 0x66] .regular 0o644 0 0 ∧
    Fails blankEnv fs [slash, 0x66] .regular 0o644 0 0 := by
  obtain ⟨fs, htree, hidle, h0, h1, hentry⟩ := exists_fileTree
  have hcannot : CannotComplete blankEnv fs [slash, 0x66] .regular 0o644 0 0 :=
    .nameTaken (n := 0) rfl hentry
  refine ⟨fs, hcannot, (failed_creation_iff htree blankEnv .regular 0o644 0 0 (by decide)).2.mpr ?_ hcannot⟩
  exact fun _ => .name (n := 0) (htree.available ⟨0, hidle 0⟩ 0) rfl
    (by simp only [tree, h0]; decide) hentry

/-- With a file for its parent, `/f/x` is created. -/
theorem creation_below_file : ¬ ∀ (env : Env) (fs : FS) (held : List NodeId) (path : Name)
    (fileType : INodeType) (mode uid gid : UInt32), TreeState fs held → (0 : UInt8) ∉ path →
    CannotComplete env fs (slash :: path) fileType mode uid gid →
    Fails env fs (slash :: path) fileType mode uid gid := by
  intro hall
  obtain ⟨fs, htree, hidle, h0, h1, hentry⟩ := exists_fileTree
  have hlookup := lookup_file h0 hentry
  have hfile := file_not_directory h1
  have hcomponents : components (parentPath [slash, 0x66, slash, 0x78]) = [[0x66]] := by decide
  have hresolve : fs.tree.resolve (parentPath [slash, 0x66, slash, 0x78]) = some 1 := by
    rw [Tree.resolve, hcomponents, List.foldlM_cons, hlookup]
    rfl
  have hway : (components (parentPath [slash, 0x66, slash, 0x78])).foldlM (fs.advance []) 0 = some 1 := by
    rw [htree.advance_eq ⟨0, hidle 0⟩, hcomponents, List.foldlM_cons, Tree.follow_of_lookup hlookup]
    rfl
  have hfails := hall blankEnv fs [] [0x66, slash, 0x78] .regular 0o644 0 0 htree (by decide)
    (.notDirectory hresolve hfile)
  rw [htree.fails_iff_refused blankEnv .regular 0o644 0 0 (by decide)] at hfails
  obtain hfree | hno | ⟨-, hway', hdir, -⟩ := hfails
  · cases hfree
  · rw [Nowhere, if_pos (htree.available ⟨0, hidle 0⟩ 0), hway] at hno
    cases hno
  · rw [hway] at hway'
    cases hway'
    exact hfile hdir

end FS

end Naofs
