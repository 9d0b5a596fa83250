import Naofs.Insertion
import Mathlib.Data.List.TakeWhile

/-!
# Naofs.Visibility

What a creation that succeeds makes visible.

In a `Stocked` state a successful `createFile` leaves a tree with one more entry, if the
name fits its field, an inode is listed before the last slot, and the free list has the
blocks that the parent and the new file need.  Beside the new path nothing changes just if
there are directories only (`creation_visible`): a path that goes on behind another file
comes back to the root.  A longer name is cut off: what is stored is not found again.
-/

namespace Naofs

section Paths

variable {path : Name}

/-- A slash divides the components. -/
theorem components_append_slash (path rest : Name) :
    components (path ++ slash :: rest) = components path ++ components rest := by
  rw [components, List.splitOn_append_cons_self, List.filter_append]
  rfl

/-- The parent of an absolute path ends with a slash. -/
theorem exists_parentPath (path : Name) : ∃ rest, parentPath (slash :: path) = rest ++ [slash] := by
  have hne : (slash :: path).reverse.dropWhile (· ≠ slash) ≠ [] := by
    obtain ⟨rest, hrest⟩ := parentPath_slash path
    intro hnil
    rw [parentPath, hnil] at hrest
    cases hrest
  have hhead := List.head_dropWhile_not (· ≠ slash) hne
  refine ⟨((slash :: path).reverse.dropWhile (· ≠ slash)).tail.reverse, ?_⟩
  rw [parentPath, ← List.reverse_cons, List.reverse_inj]
  nth_rewrite 1 [← List.cons_head_tail hne]
  congr 1
  simpa using hhead

/-- A name without a slash is one component. -/
theorem components_of_slash_notMem (hslash : slash ∉ path) (hne : path ≠ []) :
    components path = [path] := by
  rw [components, List.splitOn_eq_singleton hslash]
  simp [hne]

/-- The last name is the last component. -/
theorem components_lastName (hne : lastName (slash :: path) ≠ []) :
    components (slash :: path) =
      components (parentPath (slash :: path)) ++ [lastName (slash :: path)] := by
  obtain ⟨rest, hrest⟩ := exists_parentPath path
  have hlast := components_of_slash_notMem (slash_notMem_lastName (slash :: path)) hne
  have hpath : slash :: path = rest ++ slash :: lastName (slash :: path) := by
    conv_lhs => rw [← parentPath_append_lastName (slash :: path), hrest]
    simp
  conv_lhs => rw [hpath, components_append_slash, hlast]
  rw [hrest, components_append_slash, components_nil, List.append_nil]

/-- What comes first among the names of a path are the names of a path. -/
theorem exists_prefix_components {pre : List Name} (hpre : pre <+: components path) :
    ∃ p, p <+: path ∧ components p = pre := by
  induction hlen : path.length using Nat.strong_induction_on generalizing path pre with
  | _ len ih =>
      by_cases hslash : slash ∈ path
      · obtain ⟨name, rest, rfl, hname⟩ := List.eq_append_cons_of_mem hslash
        rw [List.length_append, List.length_cons] at hlen
        rw [components_append_slash] at hpre
        by_cases hnil : name = []
        · subst hnil
          obtain ⟨p, hp, heq⟩ := ih rest.length (by omega) hpre rfl
          exact ⟨slash :: p, List.cons_prefix_cons.mpr ⟨rfl, hp⟩, (FS.components_slash p).trans heq⟩
        · have hone := components_of_slash_notMem hname hnil
          rw [hone] at hpre
          cases pre with
          | nil => exact ⟨[], List.nil_prefix, rfl⟩
          | cons first pre =>
              obtain ⟨rfl, hbehind⟩ := List.cons_prefix_cons.mp hpre
              obtain ⟨p, hp, rfl⟩ := ih rest.length (by omega) hbehind rfl
              refine ⟨first ++ slash :: p, ?_, by rw [components_append_slash, hone]; rfl⟩
              exact (List.prefix_append_right_inj first).mpr (List.cons_prefix_cons.mpr ⟨rfl, hp⟩)
      · by_cases hnil : path = []
        · subst hnil
          exact ⟨[], List.nil_prefix, (List.prefix_nil.mp hpre).symm⟩
        · have hone := components_of_slash_notMem hslash hnil
          rw [hone] at hpre
          cases pre with
          | nil => exact ⟨[], List.nil_prefix, rfl⟩
          | cons first pre =>
              obtain ⟨rfl, hbehind⟩ := List.cons_prefix_cons.mp hpre
              rw [List.prefix_nil.mp hbehind]
              exact ⟨first, List.prefix_rfl, hone⟩

end Paths

namespace FS

open Disk (endNeeds)

/-! ## The run -/

/-- What `createFile` needs of the state: an inode, blocks, and room in the parent.  A
parent without links is read from disk again if it is held elsewhere. -/
structure Supplied (fs : FS) (held : List NodeId) (l : List Nat) (fileType : INodeType) (n : Nat) :
    Prop where
  inode : ∃ k < 511, listed (fs.disk.blocks 3) k ≠ 0
  blocks : endNeeds (fs.seen n).size + firstNeeds fileType ≤ l.length
  size : (fs.seen n).size + 64 ≤ maxFileSize
  root : (fs.seen n).linksCount = 0 → ∀ x ∈ held, (fs.inode x).iNodeNumber ≠ n

/-- The state after a creation: the first number of the inode list is `Planted`. -/
def Creates (env : Env) (fs : FS) (held : List NodeId) (l : List Nat) (fileType : INodeType)
    (n : Nat) (name : Name) (fs' : FS) : Prop :=
  ∃ m k, k < 511 ∧ (∀ i < k, listed (fs.disk.blocks 3) i = 0) ∧
    listed (fs.disk.blocks 3) k = m ∧ m ≠ 0 ∧
    Planted fs held l n m k (endNeeds (fs.seen n).size + firstNeeds fileType) fileType
      ⟨.tabulate (Disk.bytesOf env name), m % 65536⟩ (firstEntries env fileType m n) fs'

section Run

variable {fs fs₁ : FS} {held : List NodeId} {l : List Nat} {n : Nat} {x : NodeId} {path : Name}
  {env : Env} {fileType : INodeType}

/-- The first number of the list. -/
theorem exists_firstSlot (h : ∃ k < 511, listed (fs.disk.blocks 3) k ≠ 0) :
    ∃ k < 511, listed (fs.disk.blocks 3) k ≠ 0 ∧ ∀ i < k, listed (fs.disk.blocks 3) i = 0 := by
  obtain ⟨hlt, hne⟩ := Nat.find_spec h
  refine ⟨Nat.find h, hlt, hne, fun i hi => ?_⟩
  by_contra hcon
  exact Nat.find_min h hi ⟨hi.trans hlt, hcon⟩

/-- A creation whose steps all return. -/
theorem createFile_eq_ok {fs₂ fs₃ fs₄ fs₅ fs₆ fs₇ : FS} {z : NodeId} {name : Name} {m : Nat}
    {mode uid gid : UInt32}
    (hvalidate : validateThenGetParentINode env fileType path fs = .ok (some (x, name), fs₁))
    (hget : getNewINode env fileType (if fileType = .directory then InCoreINode.sIfdir ||| mode else mode)
      uid gid fs₁ = .ok (m, fs₂))
    (hadd : getAndUpdateDirectoryTable env x m name fs₂ = .ok ((), fs₃))
    (higet : fs₃.iget m 0 = .ok (some z, fs₄))
    (hinit : initNewINode env fileType z x fs₄ = .ok ((), fs₅))
    (hput : fs₅.iput env.now x = .ok (0, fs₆)) (hput' : fs₆.iput env.now z = .ok (0, fs₇)) :
    createFile env path fileType mode uid gid fs = .ok (0, fs₇) :=
  NaoM.bind_eq_ok.mpr ⟨_, _, hvalidate, NaoM.bind_eq_ok.mpr ⟨_, _, hget,
    NaoM.bind_eq_ok.mpr ⟨_, _, hadd, NaoM.bind_eq_ok.mpr ⟨_, _, higet,
      NaoM.bind_eq_ok.mpr ⟨_, _, hinit, NaoM.bind_eq_ok.mpr ⟨_, _, hput,
        NaoM.bind_eq_ok.mpr ⟨_, _, hput', rfl⟩⟩⟩⟩⟩⟩⟩

/-- A creation that finds no node for the new inode. -/
theorem createFile_ne_ok {fs₂ fs₃ fs₄ : FS} {name : Name} {m : Nat} {mode uid gid : UInt32}
    (hvalidate : validateThenGetParentINode env fileType path fs = .ok (some (x, name), fs₁))
    (hget : getNewINode env fileType (if fileType = .directory then InCoreINode.sIfdir ||| mode else mode)
      uid gid fs₁ = .ok (m, fs₂))
    (hadd : getAndUpdateDirectoryTable env x m name fs₂ = .ok ((), fs₃))
    (higet : fs₃.iget m 0 = .ok (none, fs₄)) (r : Int × FS) :
    createFile env path fileType mode uid gid fs ≠ .ok r := by
  intro heq
  obtain ⟨_, _, hvalidate', heq⟩ := NaoM.bind_eq_ok.mp heq
  cases hvalidate.symm.trans hvalidate'
  obtain ⟨_, _, hget', heq⟩ := NaoM.bind_eq_ok.mp heq
  cases hget.symm.trans hget'
  obtain ⟨_, _, hadd', heq⟩ := NaoM.bind_eq_ok.mp heq
  cases hadd.symm.trans hadd'
  obtain ⟨_, _, higet', heq⟩ := NaoM.bind_eq_ok.mp heq
  cases higet.symm.trans higet'
  cases heq

/-- **The rest of `createFile`**, with a reference to the parent. -/
theorem Stocked.creates (h : Stocked fs held l) (hx : Standing fs held fs₁ x n)
    (hn : fs.tree.Reached n) (hdir : fs.tree.directory n) (htype : fileType ≠ .free)
    (mode uid gid : UInt32) (hsup : Supplied fs held l fileType n) {name : Name}
    (hvalidate : validateThenGetParentINode env fileType path fs = .ok (some (x, name), fs₁)) :
    (∃ fs', createFile env path fileType mode uid gid fs = .ok (0, fs') ∧
      Creates env fs held l fileType n name fs') ∨
    (∀ z, z ∈ x :: held) ∧ ∀ r, createFile env path fileType mode uid gid fs ≠ .ok r := by
  obtain ⟨k, hk, hne, hz⟩ := exists_firstSlot hsup.inode
  have hlen := hsup.blocks
  have hunused := h.unused k (by omega) hne
  have hlt : listed (fs.disk.blocks 3) k < numOfInodes := listed_lt _ _
  have hnm : n ≠ listed (fs.disk.blocks 3) k := fun hcon =>
    hunused.unreached h.toTreeState hne (hcon ▸ hn)
  obtain ⟨fs₂, hget, halloc⟩ := h.allocate hx hn env fileType
    (if fileType = .directory then InCoreINode.sIfdir ||| mode else mode) uid gid hk hz rfl hne
  obtain ⟨y, fs₃, hadd, hentered⟩ := h.enter halloc hn hnm hlt hdir env name hsup.size (by omega)
  obtain ⟨z, fs₄, higet, hfetched⟩ | ⟨hnone, higet⟩ := hentered.coherent.iget hlt
  · obtain ⟨w, fs₅, hinit, hwtype, hstarted⟩ := hentered.start h hn hnm hunused hfetched env htype rfl hlen
    have hroot : (fs.seen n).linksCount = 0 → x ∉ held := fun hlinks hmem =>
      hsup.root hlinks x hmem ((hx.kept x hmem).symm.trans hx.caches.number)
    obtain ⟨fs₆, fs₇, hput, hput', hplanted⟩ :=
      hstarted.finish h hn hnm env.now hentered.bounded hroot
    rw [hwtype] at hplanted
    exact .inl ⟨fs₇, createFile_eq_ok hvalidate hget hadd higet hinit hput hput', _, k, hk, hz, rfl, hne,
      hplanted⟩
  · exact .inr ⟨fun z => (hnone z).1, createFile_ne_ok hvalidate hget hadd higet⟩

/-- A step that `operate` takes is one of the tree. -/
theorem follow_of_advance {i j : Nat} {name : Name} (h : fs.advance held i name = some j) :
    fs.tree.follow i name = some j := by
  rw [advance, Option.filter_eq_some_iff] at h
  exact h.1

/-- `validateThenGetParentINode` of a parent that was found and does not have the name. -/
theorem TreeState.validate_ok (h : TreeState fs held) (hx : Standing fs held fs₁ x n)
    (hn : fs.tree.Reached n) (htype : fileType ≠ .free) (h0 : (0 : UInt8) ∉ lastName path)
    (hslash : slash ∈ path) (hrun : getFileINode env (parentPath path) fs = .ok (some x, fs₁))
    (habsent : (fs.tree.directory n && (fs.tree.entry n (lastName path)).isSome) = false) :
    validateThenGetParentINode env fileType path fs = .ok (some (x, lastName path), fs₁) := by
  have hexists := h.doesFileExistIn_eq hx hn h0 env
  rw [habsent] at hexists
  have hname : NaoM.ofExcept (getFilenameFromPath path) fs₁ = .ok (lastName path, fs₁) := by
    rw [getFilenameFromPath_eq hslash]
    rfl
  rw [validateThenGetParentINode, if_neg (by cases fileType <;> simp_all), getParentINode_eq env hslash]
  exact NaoM.bind_eq_ok.mpr ⟨_, _, hrun, NaoM.bind_eq_ok.mpr ⟨_, _, hname,
    NaoM.bind_eq_ok.mpr ⟨_, _, hexists, rfl⟩⟩⟩

/-- **The run of `createFile`**, with two free nodes or if it returns 0. -/
theorem Stocked.createFile_run (h : Stocked fs held l) (env : Env) (htype : fileType ≠ .free)
    (mode uid gid : UInt32) (h0 : (0 : UInt8) ∉ path)
    (hparent : (components (parentPath (slash :: path))).foldlM fs.tree.follow 0 = some n)
    (hdir : fs.tree.directory n) (habsent : fs.tree.entry n (lastName (slash :: path)) = none)
    (hsup : Supplied fs held l fileType n) :
    (∃ fs', createFile env (slash :: path) fileType mode uid gid fs = .ok (0, fs') ∧
      Creates env fs held l fileType n (lastName (slash :: path)) fs') ∨
    (∀ z z', z ∉ held → z' ∉ held → z = z') ∧
      ∀ fs', createFile env (slash :: path) fileType mode uid gid fs ≠ .ok (0, fs') := by
  have hslash : slash ∈ slash :: path := List.mem_cons_self
  have hbytes : (0 : UInt8) ∉ slash :: path := by simpa using h0
  rw [← parentPath_append_lastName (slash :: path), List.mem_append, not_or] at hbytes
  obtain ⟨rest, hpath⟩ := parentPath_slash path
  have hrest : (0 : UInt8) ∉ rest := by
    have := hbytes.1
    rw [hpath] at this
    exact fun hmem => this (List.mem_cons_of_mem _ hmem)
  rw [hpath] at hparent
  -- a free node is enough for the way to the parent
  have hway : ∀ z, z ∉ held → fs.Available held 0 ∧
      (components (slash :: rest)).foldlM (fs.advance held) 0 = some n := by
    intro z hz
    have hfree : ∃ z, (fs.inode z).referenceCount = 0 := ⟨z, h.coherent.idle_iff.mpr hz⟩
    exact ⟨h.available hfree 0, by rw [h.advance_eq hfree, hparent]⟩
  obtain ⟨hno, fs', hrun, -⟩ | ⟨-, -, x, n', fs₁, hadv, hrun, hx, hn⟩ | ⟨-, hroot, hrun⟩ :=
    h.getFileINode_cases env hrest
  · refine .inr ⟨fun z z' hz _ => ?_, fun fs'' heq => ?_⟩
    · obtain ⟨hroot, hadv⟩ := hway z hz
      rw [Nowhere, if_pos hroot, hadv] at hno
      cases hno
    · have hvalidate : validateThenGetParentINode env fileType (slash :: path) fs = .ok (none, fs') := by
        rw [validateThenGetParentINode, if_neg (by cases fileType <;> simp_all),
          getParentINode_eq env hslash, hpath]
        exact NaoM.bind_eq_ok.mpr ⟨_, _, hrun, rfl⟩
      obtain ⟨_, _, hvalidate', heq⟩ := NaoM.bind_eq_ok.mp heq
      cases hvalidate.symm.trans hvalidate'
      cases heq
  · obtain rfl : n' = n := by
      have := foldlM_of_some (fun _ _ _ => follow_of_advance) _ hadv
      rw [hparent] at this
      exact (Option.some.inj this).symm
    have hvalidate := h.validate_ok hx hn htype hbytes.2 hslash (by rw [hpath]; exact hrun)
      (by rw [habsent, Option.isSome_none, Bool.and_false])
    obtain hdone | ⟨hall, hno⟩ := h.creates hx hn hdir htype mode uid gid hsup hvalidate
    · exact .inl hdone
    · refine .inr ⟨fun z z' hz hz' => ?_, fun fs' => hno (0, fs')⟩
      have hzx := (List.mem_cons.mp (hall z)).resolve_right hz
      have hzx' := (List.mem_cons.mp (hall z')).resolve_right hz'
      exact hzx.trans hzx'.symm
  · refine .inr ⟨fun z z' hz _ => absurd (hway z hz).1 hroot, fun fs'' heq => ?_⟩
    obtain ⟨parent, fs', hvalidate, heq⟩ := NaoM.bind_eq_ok.mp heq
    rw [validateThenGetParentINode, if_neg (by cases fileType <;> simp_all),
      getParentINode_eq env hslash, hpath] at hvalidate
    obtain ⟨_, _, hrun', -⟩ := NaoM.bind_eq_ok.mp hvalidate
    cases hrun.symm.trans hrun'

end Run

/-! ## The law -/

/-- Where `getFileINode` leads. -/
def LeadsTo (env : Env) (fs : FS) (path : Name) : Option Nat → Prop
  | none => ∃ fs', getFileINode env path fs = .ok (none, fs')
  | some m => ∃ x fs', getFileINode env path fs = .ok (some x, fs') ∧ (fs'.inode x).iNodeNumber = m

/-- A path leads to one inode at most. -/
theorem LeadsTo.unique {env : Env} {fs : FS} {path : Name} {r r' : Option Nat}
    (h : LeadsTo env fs path r) (h' : LeadsTo env fs path r') : r = r' := by
  cases r with
  | none =>
      obtain ⟨fs₁, hrun⟩ := h
      cases r' with
      | none => rfl
      | some m =>
          obtain ⟨x, fs₂, hrun', -⟩ := h'
          cases hrun.symm.trans hrun'
  | some n =>
      obtain ⟨x, fs₁, hrun, rfl⟩ := h
      cases r' with
      | none =>
          obtain ⟨fs₂, hrun'⟩ := h'
          cases hrun.symm.trans hrun'
      | some m =>
          obtain ⟨y, fs₂, hrun', rfl⟩ := h'
          cases hrun.symm.trans hrun'
          rfl

/-- No path comes to a file that is no directory.  The code goes on at the root behind such
a file (`Tree.follow`), so that a path that goes through one may come to the new entry. -/
def OnlyDirectories (fs : FS) : Prop :=
  ∀ path n, (0 : UInt8) ∉ path → (components path).foldlM fs.tree.walk 0 = some n → fs.tree.directory n

/-- The path leads to a new inode of the type, every path that is not at the new entry of
`n` or below it leads where it led before, and names are unique in every directory. -/
structure Visible (fs fs' : FS) (path : Name) (fileType : INodeType) (n : Nat) : Prop where
  new : ∃ m, ¬ fs.tree.Reached m ∧ (fs.seen m).type = .free ∧ ∀ env, ∃ x fs'',
    getFileINode env path fs' = .ok (some x, fs'') ∧ (fs''.inode x).iNodeNumber = m ∧
      (fs''.inode x).type = fileType
  others : ∀ env p, (0 : UInt8) ∉ p →
    ¬ fs.tree.Enters n (lastName path) (components (slash :: p)) →
    ∃ r, LeadsTo env fs (slash :: p) r ∧ LeadsTo env fs' (slash :: p) r
  distinct : ∀ i, fs'.tree.Reached i → fs'.tree.directory i → DistinctNames fs'.disk (fs'.seen i).bare

section Law

variable {fs fs' : FS} {held : List NodeId} {l : List Nat} {n : Nat} {path name : Name} {env : Env}
  {fileType : INodeType}

/-- With a node to spare, a path leads where the steps of the code lead. -/
theorem TreeState.leadsTo (h : TreeState fs held) (hfree : ∃ z, z ∉ held) (env : Env)
    (h0 : (0 : UInt8) ∉ path) :
    LeadsTo env fs (slash :: path) ((components (slash :: path)).foldlM fs.tree.follow 0) := by
  obtain ⟨z, hz⟩ := hfree
  have hidle : ∃ z, (fs.inode z).referenceCount = 0 := ⟨z, h.coherent.idle_iff.mpr hz⟩
  obtain ⟨r, fs', hrun, harr⟩ := h.getFileINode_arrives env h0 (h.available hidle 0)
  rw [h.advance_eq hidle, ← components_slash] at harr
  generalize (components (slash :: path)).foldlM fs.tree.follow 0 = followed at harr ⊢
  cases harr with
  | nowhere _ => exact ⟨fs', hrun⟩
  | found hx _ => exact ⟨_, fs', hrun, hx.caches.number⟩

/-- Among directories only, the code's way comes to an entry just along a walk. -/
theorem enters_of_passes (hdirs : OnlyDirectories fs) (h0 : (0 : UInt8) ∉ path)
    (hpass : fs.tree.Passes n name (components path)) : fs.tree.Enters n name (components path) := by
  obtain ⟨pre, post, heq, hpre⟩ := hpass
  refine ⟨pre, post, heq, Tree.foldlM_walk_of_follow pre (fun pre' j hpre' hwalk => ?_) hpre⟩
  have hprefix : pre' <+: components path := hpre'.trans (heq ▸ List.prefix_append pre (name :: post))
  obtain ⟨p, hp, rfl⟩ := exists_prefix_components hprefix
  exact hdirs p j (fun hmem => h0 (hp.subset hmem)) hwalk

/-- A path that comes to a file and goes on behind it does not enter anything that is new. -/
theorem not_enters_of_file {names post : List Name} {i : Nat} (hdir : fs.tree.directory n)
    (habsent : fs.tree.entry n name = none) (hwalk : names.foldlM fs.tree.walk 0 = some i)
    (hfile : ¬ fs.tree.directory i) : ¬ fs.tree.Enters n name (names ++ post) := by
  rintro ⟨pre, rest, heq, hpre⟩
  obtain ⟨tail, rfl, htail⟩ | ⟨tail, rfl, htail⟩ := List.append_eq_append_iff.mp heq
  · -- the walk would go on behind the file
    rw [List.foldlM_append, hwalk] at hpre
    cases tail with
    | nil =>
        cases hpre
        exact hfile hdir
    | cons first tail =>
        change (first :: tail).foldlM fs.tree.walk i = some n at hpre
        exact hfile (Tree.directory_of_walk (Option.isSome_of_eq_some hpre) (List.cons_ne_nil first tail))
  · rw [List.foldlM_append, hpre] at hwalk
    cases tail with
    | nil =>
        cases hwalk
        exact hfile hdir
    | cons first tail =>
        -- the walk to the file would go through the entry that is missing
        obtain ⟨rfl, -⟩ := List.cons_eq_cons.mp htail
        change (name :: tail).foldlM fs.tree.walk n = some i at hwalk
        rw [List.foldlM_cons, Tree.walk, if_pos hdir, habsent] at hwalk
        cases hwalk

/-- A creation of a name that fits, in a directory that does not have it: beside the new
path nothing changes just if no path comes to a file. -/
theorem Creates.visible_iff (h : Stocked fs held l) (hc : Creates env fs held l fileType n name fs')
    (hn : fs.tree.Reached n) (hdir : fs.tree.directory n) (h0 : (0 : UInt8) ∉ path)
    (hparent : (components (parentPath (slash :: path))).foldlM fs.tree.follow 0 = some n)
    (hlast : lastName (slash :: path) = name) (hname : name ≠ []) (hlen : name.length ≤ 61)
    (h0' : (0 : UInt8) ∉ name) (habsent : fs.tree.entry n name = none)
    (hsize : (fs.seen n).size + 64 ≤ maxFileSize) :
    Visible fs fs' (slash :: path) fileType n ↔ OnlyDirectories fs := by
  obtain ⟨m, k, hk, -, hlisted, hm0, hplanted⟩ := hc
  have hunused := h.unused k (by omega) (by rwa [hlisted])
  rw [hlisted] at hunused
  have hlt : m < numOfInodes := hlisted ▸ listed_lt _ _
  have hnew := hunused.unreached h.toTreeState hm0
  have hgrown := hplanted.grown h hlt hnew h0' hlen hn hdir habsent
  have hstocked := hplanted.stocked h hlt hnew h0' hlen hgrown hsize (by omega) hlisted
  have hnames : components (slash :: path) = components (parentPath (slash :: path)) ++ [name] := by
    rw [← hlast]
    exact components_lastName (by rwa [hlast])
  have hway : (components (slash :: path)).foldlM fs'.tree.follow 0 = some m := by
    rw [hnames]
    exact hgrown.foldlM_append hparent
  constructor
  · intro hvisible p i hp hwalk
    by_contra hfile
    -- the path goes on behind the file, and so comes back to the root
    have hthrough : components (slash :: (p ++ slash :: 0x71 :: slash :: path)) =
        components p ++ [0x71] :: components (slash :: path) := by
      rw [components_slash, components_append_slash, ← List.singleton_append (x := 0x71),
        components_append_slash, components_slash]
      rfl
    have hbefore : ∀ t : Tree, (components p).foldlM t.follow 0 = some i → ¬ t.directory i →
        (components p ++ [0x71] :: components (slash :: path)).foldlM t.follow 0 =
          (components (slash :: path)).foldlM t.follow 0 := by
      intro t hi hno
      rw [List.foldlM_append, hi]
      change ([0x71] :: components (slash :: path)).foldlM t.follow i = _
      rw [List.foldlM_cons, Tree.follow, if_neg hno]
      rfl
    have hfollow := foldlM_of_some (fun _ _ _ => Tree.follow_of_walk) _ hwalk
    have hnone : (components (slash :: path)).foldlM fs.tree.follow 0 = none :=
      hgrown.foldlM_of_passes ⟨_, [], hnames, hparent⟩
    obtain ⟨r, hr, hr'⟩ := hvisible.others env (p ++ slash :: 0x71 :: slash :: path)
      (by simpa using ⟨hp, h0⟩) (by
        rw [hlast, hthrough]
        exact not_enters_of_file hdir habsent hwalk hfile)
    have hp' : (0 : UInt8) ∉ p ++ slash :: 0x71 :: slash :: path := by simpa using ⟨hp, h0⟩
    have hold := h.leadsTo hplanted.available env hp'
    have hafter := hstocked.leadsTo hplanted.available env hp'
    rw [hthrough] at hold hafter
    rw [hbefore _ hfollow hfile, hnone] at hold
    rw [hbefore _ (hgrown.foldlM_of_some hfollow), hway] at hafter
    · cases (hr.unique hold).symm.trans (hr'.unique hafter)
    · rwa [hgrown.directory i (Tree.Reached.foldlM _ .refl hfollow)]
  · refine fun hdirs => ⟨⟨m, hnew, hunused.type, fun env => ?_⟩, fun env p hp henter => ?_,
      hstocked.distinct⟩
    · obtain ⟨z, hz⟩ := hplanted.available
      have hidle : ∃ z, (fs'.inode z).referenceCount = 0 := ⟨z, hstocked.coherent.idle_iff.mpr hz⟩
      obtain ⟨r, fs'', hrun, harr⟩ :=
        hstocked.getFileINode_arrives env h0 (hstocked.available hidle 0)
      rw [hstocked.advance_eq hidle, ← components_slash, hway] at harr
      cases harr with
      | found hx _ =>
          refine ⟨_, fs'', hrun, hx.caches.number, ?_⟩
          rw [hx.value, hplanted.type]
    · rw [hlast] at henter
      refine ⟨_, h.leadsTo hplanted.available env hp, ?_⟩
      rw [← hgrown.foldlM_of_not_passes fun hpass => henter (enters_of_passes hdirs (by simpa using hp) hpass)]
      exact hstocked.leadsTo hplanted.available env hp

/-- A file that is made has a type. -/
theorem createFile_type {mode uid gid : UInt32}
    (hrun : createFile env path fileType mode uid gid fs = .ok (0, fs')) : fileType ≠ .free := by
  rintro rfl
  obtain ⟨_, _, hvalidate, heq⟩ := NaoM.bind_eq_ok.mp hrun
  rw [validateThenGetParentINode, if_pos (by decide)] at hvalidate
  cases hvalidate
  cases heq

/-- **A creation that returns 0 is visible and local**, if the name fits its field, the
state can supply what the file needs, and no path comes to a file: a path that goes on behind
a file starts at the root again, so that the new entry is met there too. -/
theorem creation_visible (h : Stocked fs held l) (env : Env) (fileType : INodeType)
    (mode uid gid : UInt32) (h0 : (0 : UInt8) ∉ path)
    (hparent : fs.tree.resolve (parentPath (slash :: path)) = some n) (hdir : fs.tree.directory n)
    (hname : lastName (slash :: path) ≠ [])
    (habsent : fs.tree.entry n (lastName (slash :: path)) = none)
    (hfits : (lastName (slash :: path)).length ≤ 61) (hsup : Supplied fs held l fileType n)
    (hrun : createFile env (slash :: path) fileType mode uid gid fs = .ok (0, fs')) :
    Visible fs fs' (slash :: path) fileType n ↔ OnlyDirectories fs := by
  have hfollow : (components (parentPath (slash :: path))).foldlM fs.tree.follow 0 = some n :=
    foldlM_of_some (fun _ _ _ => Tree.follow_of_lookup) _ hparent
  have hbytes : (0 : UInt8) ∉ slash :: path := by simpa using h0
  rw [← parentPath_append_lastName (slash :: path), List.mem_append, not_or] at hbytes
  obtain ⟨fs'', hrun', hcreates⟩ | ⟨-, hno⟩ := h.createFile_run env (createFile_type hrun) mode uid gid
    h0 hfollow hdir habsent hsup
  · cases hrun.symm.trans hrun'
    exact hcreates.visible_iff h (reached_of_lookup _ .refl hparent) hdir h0 hfollow rfl hname hfits
      hbytes.2 habsent hsup.size
  · exact absurd hrun (hno fs')

end Law

/-! ## A new file system -/

/-- A new file system, mounted: an empty root, and everything else is free. -/
theorem stocked_mount {getHash : Nat → Nat → Fin inodeHashSize} {d : Disk} {l : List Nat} {fs : FS}
    (hd : HolderState.Numbered d) (hmount : mount getHash d = .ok fs) (hdisk : fs.disk = d)
    (hsize : (d.diskINode 0).size = 0)
    (htable : ∀ n, n ≠ 0 → n < numOfInodes → d.diskINode n = initializeINode n)
    (hlist : ∀ i < 512, listed (d.blocks 3) i = i + 1) (hfree : FreeBlocks d l)
    (hown : Own d.backend l) (hdata : ∀ b ∈ l, dataRegionStart ≤ b) :
    Stocked fs [] l ∧ fs.seen = d.diskINode := by
  obtain ⟨hcoherent, hseen⟩ := coherent_mount hd hmount
  have hempty : fs.disk.entries (fs.seen 0).bare = [] := by
    rw [hseen, Disk.entries, Disk.entryCount, show (d.diskINode 0).bare.size = 0 from hsize]
    rfl
  have hreached : ∀ n, fs.tree.Reached n → n = 0 := by
    intro n hn
    induction hn with
    | refl => rfl
    | tail _ hnext ih =>
        subst ih
        obtain ⟨-, name, hname⟩ := hnext
        obtain ⟨e, he, -⟩ := Option.map_eq_some_iff.mp hname
        rw [hempty] at he
        cases he
  have hblocks : fs.blocksOf 0 = [] := by
    rw [blocksOf, hseen, hsize]
    exact Disk.fileBlocks_zero _ _
  have hrootSize : (fs.seen 0).size = 0 := by rw [hseen, hsize]
  refine ⟨⟨⟨hcoherent, ?_, ?_, ?_, ?_, ?_⟩, by rwa [hdisk], ?_, ?_, ?_, ?_, ?_, ?_⟩, hseen⟩
  · intro n hn
    rw [hreached n hn]
    decide
  · exact fun n hn hne => absurd (hreached n hn) hne
  · intro n hn hdir
    obtain rfl := hreached n hn
    refine ⟨⟨?_, ?_⟩, hdir, ?_⟩
    · change Own _ (fs.blocksOf 0)
      rw [hblocks]
      exact ⟨List.nodup_nil, fun b hb => absurd hb List.not_mem_nil⟩
    · change (fs.seen 0).size ≤ _
      rw [hrootSize]
      decide
    · change (fs.seen 0).size % _ = 0
      rw [hrootSize]
      rfl
  · intro n hn _ e he
    obtain rfl := hreached n hn
    rw [hempty] at he
    cases he
  · intro n hn _
    obtain rfl := hreached n hn
    rw [DistinctNames, hempty]
    exact List.nodup_nil
  · intro n hn
    rw [hreached n hn, hrootSize]
    decide
  · intro n hn
    rw [hreached n hn, hblocks, List.append_nil, hdisk]
    exact hown
  · intro n hn
    rw [hreached n hn, hblocks, List.append_nil]
    exact hdata
  · exact fun n k hn hk hne => absurd ((hreached n hn).trans (hreached k hk).symm) hne
  · intro i hi _
    rw [hdisk, hlist i hi]
    have hinode := htable (i + 1) (Nat.succ_ne_zero i) (by simp only [numOfInodes]; omega)
    refine ⟨?_, ?_, fun x hx => absurd hx List.not_mem_nil⟩
    · rw [hseen, hinode]
      rfl
    · rw [hseen, hinode]
      rfl
  · intro i hi j hj _ heq
    rw [hdisk, hlist i hi, hlist j hj] at heq
    exact Nat.succ.inj heq

/-- Without entries in the root, no path comes to anything else. -/
theorem onlyDirectories_of_empty {fs : FS} (hdir : fs.tree.directory 0)
    (hempty : ∀ name, fs.tree.entry 0 name = none) : OnlyDirectories fs := by
  intro path n _ hwalk
  cases hnames : components path with
  | nil =>
      rw [hnames] at hwalk
      cases hwalk
      exact hdir
  | cons name names =>
      rw [hnames, List.foldlM_cons, Tree.walk, if_pos hdir, hempty] at hwalk
      cases hwalk

/-- A new file system, mounted. -/
theorem exists_newVolume : ∃ (fs : FS) (l : List Nat), Stocked fs [] l ∧
    (fs.seen 0).fileMode = rootMode ∧ (fs.seen 0).size = 0 ∧ (fs.seen 0).linksCount = 0 ∧
    listed (fs.disk.blocks 3) 0 = 1 ∧ 2 ≤ l.length := by
  obtain ⟨d, l, hd, ⟨stale, hroot⟩, htable, hlist, hfree, hown, hdata, hlen⟩ :
      ∃ (d : Disk) (l : List Nat), HolderState.Numbered d ∧ (∃ stale, d.diskINode 0 =
        { initializeINode 0 with
          type := .directory, fileMode := rootMode,
          dataBlockNums := (initializeINode 0).dataBlockNums.poke 0 stale }) ∧
      (∀ n, n ≠ 0 → n < numOfInodes → d.diskINode n = initializeINode n) ∧
      (∀ i < 512, listed (d.blocks 3) i = i + 1) ∧ FreeBlocks d l ∧ Own d.backend l ∧
      (∀ b ∈ l, dataRegionStart ≤ b) ∧ 2 ≤ l.length := by
    refine ⟨AllocState.smallDisk.makeFileSystem, List.range' 16388 (31457280 - 16388),
      HolderState.numbered_makeFileSystem _, AllocState.smallDisk.diskINode_makeFileSystem_root,
      fun n h0 hn => AllocState.smallDisk.diskINode_makeFileSystem h0 hn,
      fun i hi => AllocState.smallDisk.listed_makeFileSystem hi,
      AllocState.smallDisk.freeBlocks_makeFileSystem rfl, Disk.own_makeFileSystem _ rfl, ?_, ?_⟩
    · intro b hb
      exact (List.mem_range'_1.mp hb).1
    · rw [List.length_range']
      omega
  obtain ⟨fs, hmount, hdisk⟩ := exists_mount (fun _ _ => 0) d
  obtain ⟨hstocked, hseen⟩ := stocked_mount hd hmount hdisk (by rw [hroot]; rfl) htable hlist hfree hown
    hdata
  refine ⟨fs, l, hstocked, ?_, ?_, ?_, ?_, hlen⟩
  · rw [hseen, hroot]
  · rw [hseen, hroot]
    rfl
  · rw [hseen, hroot]
    rfl
  · rw [hdisk, hlist 0 (by decide)]

section NewVolume

variable {fs : FS} {l : List Nat} (h : Stocked fs [] l)
  (hmode : (fs.seen 0).fileMode = rootMode) (hsize : (fs.seen 0).size = 0)
  (hlisted : listed (fs.disk.blocks 3) 0 = 1) (hlen : 2 ≤ l.length)

include hmode in
/-- Its root is a directory. -/
theorem newVolume_directory : fs.tree.directory 0 := by
  change sIsdir (fs.seen 0).fileMode
  rw [hmode]
  decide

include hsize in
/-- The root has no entry. -/
theorem newVolume_empty (name : Name) : fs.tree.entry 0 name = none := by
  change Option.map _ (List.find? _ (fs.disk.entries (fs.seen 0).bare)) = none
  rw [Disk.entries, Disk.entryCount, show (fs.seen 0).bare.size = 0 from hsize]
  rfl

include hsize hlisted hlen in
/-- It has the blocks and the inode for a first file. -/
theorem newVolume_supplied (fileType : INodeType) : Supplied fs [] l fileType 0 := by
  refine ⟨⟨0, by decide, by rw [hlisted]; decide⟩, ?_, ?_, fun _ x hx => absurd hx List.not_mem_nil⟩
  · rw [hsize]
    refine le_trans ?_ hlen
    cases fileType <;> decide
  · rw [hsize]
    decide

include h hmode hsize hlisted hlen in
/-- Any file can be created in the root. -/
theorem newVolume_creates (env : Env) {fileType : INodeType} (htype : fileType ≠ .free)
    (mode uid gid : UInt32) (path : Name) (hpath : parentPath (slash :: path) = [slash])
    (h0 : (0 : UInt8) ∉ path) :
    ∃ fs', createFile env (slash :: path) fileType mode uid gid fs = .ok (0, fs') ∧
      Creates env fs [] l fileType 0 (lastName (slash :: path)) fs' := by
  obtain hdone | ⟨hone, -⟩ := h.createFile_run env htype mode uid gid (n := 0) h0 (by rw [hpath]; rfl)
    (newVolume_directory hmode) (newVolume_empty hsize _) (newVolume_supplied hsize hlisted hlen fileType)
  · exact hdone
  · exact absurd (hone 0 1 List.not_mem_nil List.not_mem_nil) (by decide)

end NewVolume

/-- The directory `d` is created in a new file system. -/
theorem creation_visible_first : ∃ fs fs' : FS,
    createFile blankEnv [slash, 0x64] .directory 0o755 0 0 fs = .ok (0, fs') ∧
      Visible fs fs' [slash, 0x64] .directory 0 := by
  obtain ⟨fs, l, h, hmode, hsize, -, hlisted, hlen⟩ := exists_newVolume
  obtain ⟨fs', hrun, -⟩ := newVolume_creates h hmode hsize hlisted hlen blankEnv
    (show INodeType.directory ≠ .free by decide) 0o755 0 0 [0x64] (by decide) (by decide)
  exact ⟨fs, fs', hrun, (creation_visible h blankEnv .directory 0o755 0 0 (by decide) rfl
    (newVolume_directory hmode) (by decide) (newVolume_empty hsize _) (by decide)
    (newVolume_supplied hsize hlisted hlen .directory) hrun).mpr
      (onlyDirectories_of_empty (newVolume_directory hmode) (newVolume_empty hsize))⟩

/-! ## A name that does not fit -/

section LongName

variable {fs : FS} {held : List NodeId} {name : Name}

/-- `getFileINode` of one name that no entry of the root matches. -/
theorem getFileINode_absent (h : Coherent fs held) (hfree : ∃ z, z ∉ held)
    (hroot : DirectoryFile fs.disk (fs.seen 0).bare)
    (hno : ∀ i < Disk.entryCount (fs.seen 0).bare,
      fs.disk.matchAt (fs.seen 0).dataBlockNums name i = .ok false)
    (hname : name ≠ []) (hslash : slash ∉ name) (env : Env) :
    ∃ fs', getFileINode env (slash :: name) fs = .ok (none, fs') := by
  have hrest : Resting fs held fs := ⟨⟨.refl _, fun _ _ => rfl, fun _ _ => rfl⟩, h⟩
  obtain ⟨z, hz⟩ := hfree
  obtain ⟨x, fs₁, hget, hx⟩ := hrest.iget (show 0 < numOfInodes by decide) ⟨z, .inl hz⟩
  have hval : (fs₁.inode x).toINode = (fs.seen 0).bare.toINode := hx.value
  have hfile := hx.disk.directoryFile hval hroot
  have hmatch : ∀ i < Disk.entryCount (fs₁.inode x),
      fs₁.disk.matchAt (fs₁.inode x).dataBlockNums name i = .ok false := by
    intro i hi
    rw [Disk.entryCount, hval] at hi
    rw [Disk.matchAt, hval, hx.disk.fileBlock, hx.disk.blocks]
    exact hno i hi
  have hsearch := searchINodeDirectoryEntries_ok
    (Disk.search_absent hfile hmatch env (fun _ => emptyEntry) 0)
  obtain ⟨fs₂, hput, -⟩ := hx.iput env.now fun hcon => absurd rfl hcon
  have hentry : operateEntry env name x fs₁ = .ok (none, fs₁) := by
    rw [operateEntry, if_neg hname]
    exact NaoM.bind_eq_ok.mpr ⟨_, _, hsearch, rfl⟩
  have hop : operate env name (some x) fs₁ = .ok (none, fs₂) := by
    rw [operate_eq env hname]
    exact NaoM.bind_eq_ok.mpr ⟨_, _, hentry, NaoM.bind_eq_ok.mpr ⟨_, _, hput, rfl⟩⟩
  have htake : name.takeWhile (· ≠ slash) = name :=
    List.takeWhile_eq_self_iff.mpr fun c hc => by
      simpa using fun hcon : c = slash => hslash (hcon ▸ hc)
  refine ⟨fs₂, NaoM.bind_eq_ok.mpr ⟨_, _, hget, ?_⟩⟩
  change getFileINodeLoop env (name.length + 1) name (some x) fs₁ = _
  rw [getFileINodeLoop, if_neg hname]
  refine NaoM.bind_eq_ok.mpr ⟨(none, name.drop (name.length + 1)), fs₂, ?_, rfl⟩
  rw [processNextLevel, htake]
  exact NaoM.bind_eq_ok.mpr ⟨_, _, hop, rfl⟩

/-- 62 letters `a`. -/
def longName : Name := List.replicate 62 0x61

/-- The bytes behind the name are those of the inode number. -/
theorem strcmp_longName {b : DiskBlock}
    (h : DirectoryEntry.decode b 0 = ⟨.tabulate (Disk.bytesOf blankEnv longName), 1⟩) :
    strcmp b 0 longName = .ok false := by
  have hname : ∀ j < 62, b.peek (0 + j) = 0x61 := by
    intro j hj
    have hpeek := congrArg (fun e : DirectoryEntry => e.name.peek j) h
    simp only [DirectoryEntry.decode, Buffer.peek_tabulate, filenameSize, if_pos hj] at hpeek
    rw [hpeek, Disk.bytesOf, if_pos (by rw [longName, List.length_replicate]; omega), longName,
      List.getElem?_replicate, if_pos hj]
    rfl
  have hnum : b.readNat 62 2 = 1 := congrArg (fun e : DirectoryEntry => e.iNodeNum) h
  have hlow : b.peek 62 = 1 := by
    rw [← @Buffer.leByte_readNat _ b 62 2 0 (by omega), hnum]
    rfl
  have hhigh : b.peek 63 = 0 := by
    rw [← @Buffer.leByte_readNat _ b 62 2 1 (by omega), hnum]
    rfl
  rw [strcmp_string b longName 0 63 (by decide) hhigh (fun j hj => ?_) (by decide)]
  · refine congrArg Except.ok (decide_eq_false fun heq => ?_)
    exact absurd (congrArg List.length heq) (by rw [List.length_map]; decide)
  · by_cases hj' : j < 62
    · rw [hname j hj']
      decide
    · obtain rfl : j = 62 := by omega
      rw [Nat.zero_add, hlow]
      decide

/-- A file whose name has 62 bytes is created and not found. -/
theorem creation_long_name : ¬ ∀ (env : Env) (fs fs' : FS) (held : List NodeId) (l : List Nat) (n : Nat)
    (path : Name) (fileType : INodeType) (mode uid gid : UInt32), Stocked fs held l →
    (0 : UInt8) ∉ path → fs.tree.resolve (parentPath (slash :: path)) = some n →
    fs.tree.directory n → lastName (slash :: path) ≠ [] →
    fs.tree.entry n (lastName (slash :: path)) = none →
    createFile env (slash :: path) fileType mode uid gid fs = .ok (0, fs') →
    Visible fs fs' (slash :: path) fileType n := by
  intro hall
  obtain ⟨fs, l, h, hmode, hsize, -, hlisted, hlen⟩ := exists_newVolume
  obtain ⟨fs', hrun, m, k, -, hfirst, hm, -, hplanted⟩ := newVolume_creates h hmode hsize hlisted hlen
    blankEnv (show INodeType.regular ≠ .free by decide) 0o644 0 0 longName (by decide) (by decide)
  have hlast : lastName (slash :: longName) = longName := by decide
  rw [hlast] at hplanted
  have hvisible := hall blankEnv fs fs' [] l 0 longName .regular 0o644 0 0 h (by decide) rfl
    (newVolume_directory hmode) (by decide) (newVolume_empty hsize _) hrun
  obtain rfl : k = 0 := by
    refine Nat.eq_zero_of_not_pos fun hpos => ?_
    rw [hfirst 0 hpos] at hlisted
    cases hlisted
  obtain rfl : m = 1 := hm.symm.trans hlisted
  have hsize' : (fs'.seen 0).size = 64 := by rw [hplanted.size, hsize]
  have hentries : fs'.disk.entries (fs'.seen 0).bare =
      [⟨.tabulate (Disk.bytesOf blankEnv longName), 1⟩] := by
    rw [hplanted.entries, Disk.entries, Disk.entryCount, show (fs.seen 0).bare.size = 0 from hsize]
    rfl
  have hroot : DirectoryFile fs'.disk (fs'.seen 0).bare := by
    refine ⟨⟨?_, ?_⟩, ?_, ?_⟩
    · rw [hplanted.backend]
      refine (h.own 0 .refl).mono fun b => ?_
      have hle := hplanted.owned b
      rw [List.count_append]
      change (fs'.blocksOf 0).count b ≤ _
      omega
    · change (fs'.seen 0).size ≤ _
      rw [hsize']
      decide
    · change sIsdir (fs'.seen 0).fileMode = true
      rw [hplanted.mode, hmode]
      decide
    · change (fs'.seen 0).size % _ = 0
      rw [hsize']
      rfl
  have hno : ∀ i < Disk.entryCount (fs'.seen 0).bare,
      fs'.disk.matchAt (fs'.seen 0).dataBlockNums longName i = .ok false := by
    intro i hi
    rw [← Disk.length_entries fs'.disk, hentries, List.length_singleton] at hi
    obtain rfl := Nat.lt_one_iff.mp hi
    refine strcmp_longName ?_
    have hmem : fs'.disk.entryAt (fs'.seen 0).dataBlockNums 0 ∈ fs'.disk.entries (fs'.seen 0).bare :=
      Disk.mem_entries.mpr ⟨0, by rw [← Disk.length_entries fs'.disk, hentries]; decide, rfl⟩
    rw [hentries, List.mem_singleton] at hmem
    exact hmem
  obtain ⟨fs'', habsent⟩ := getFileINode_absent hplanted.coherent hplanted.available hroot hno
    (by decide) (by decide) blankEnv
  obtain ⟨m', -, -, hnew⟩ := hvisible.new
  obtain ⟨x, fs₂, hfound, -⟩ := hnew blankEnv
  cases habsent.symm.trans hfound

end LongName

end FS

end Naofs
