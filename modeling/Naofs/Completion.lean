import Naofs.FullDisk
import Naofs.Listing
import Naofs.Unlinking

/-!
# Naofs.Completion

Calls that return.

Between two calls a sound volume is a `Stocked` state, in which no inode is locked.  A call
that finds a node of the cache for each reference it takes, and that does not take the
lock of an inode twice, comes to its end: it does not wait for a lock that it holds itself
and does not follow a null pointer.  Each lemma here is about one call from such a state.
-/

namespace Naofs

open Function (update update_self update_of_ne)

/-- The computation comes to an end without a fault. -/
def Returns {α : Type} (m : NaoM α) (fs : FS) : Prop := ∃ r, m fs = .ok r

/-- A computation that is done leaves the rest, which must come to an end as well. -/
theorem Returns.bind {α β : Type} {m : NaoM α} {f : α → NaoM β} {a : α} {fs fs' : FS}
    (hm : m fs = .ok (a, fs')) (hf : Returns (f a) fs') : Returns (m >>= f) fs := by
  obtain ⟨⟨b, fs''⟩, hb⟩ := hf
  exact ⟨(b, fs''), NaoM.bind_eq_ok.mpr ⟨a, fs', hm, hb⟩⟩

/-- What is known of the first part carries the whole on. -/
theorem NaoM.bind_of_ok {α β : Type} {m : NaoM α} {f : α → NaoM β} {a : α} {fs fs' : FS}
    (hm : m fs = .ok (a, fs')) : (m >>= f) fs = f a fs' := by
  change (m fs >>= fun s => f s.1 s.2) = _
  rw [hm]
  rfl

/-- A fault in the first part is one of the whole. -/
theorem NaoM.bind_of_error {α β : Type} {m : NaoM α} {f : α → NaoM β} {e : Fault} {fs : FS}
    (hm : m fs = .error e) : (m >>= f) fs = .error e := by
  change (m fs >>= fun s => f s.1 s.2) = _
  rw [hm]
  rfl

theorem Returns.pure {α : Type} (a : α) (fs : FS) : Returns (Pure.pure a : NaoM α) fs := ⟨(a, fs), rfl⟩

namespace FS

open Disk (blockCount Rewrites)
open InCoreINode (wrapSize)

/-- Where the code comes to on a path. -/
def leads (fs : FS) (path : Name) : Option Nat := (components path).foldlM fs.tree.follow 0

/-! ## Paths -/

section Lookup

variable {fs fs₁ : FS} {held : List NodeId} {l : List Nat} {env : Env} {path : Name} {x : NodeId} {n : Nat}

/-- **Where a path leads**, from a state on the way. -/
theorem TreeState.lookup (h : TreeState fs held) (hr : Resting fs held fs₁) (hidle : ∃ z, z ∉ held) (env : Env)
    (hpath : IsPath path) :
    (fs.leads path = none ∧ ∃ fs₂, getFileINode env path fs₁ = .ok (none, fs₂) ∧ Resting fs held fs₂) ∨
    ∃ x n fs₂, fs.leads path = some n ∧ getFileINode env path fs₁ = .ok (some x, fs₂) ∧
      Standing fs held fs₂ x n ∧ fs.tree.Reached n := by
  obtain ⟨rest, rfl, h0⟩ := hpath.eq_cons
  obtain ⟨z, hz⟩ := hidle
  have hfree : ∃ z, (fs.inode z).referenceCount = 0 := ⟨z, h.coherent.idle_iff.mpr hz⟩
  obtain ⟨x, fs₂, hget, hx⟩ := hr.iget (show 0 < numOfInodes by decide) (h.available hfree 0)
  obtain ⟨r, fs₃, hloop, harr⟩ := h.getFileINodeLoop_arrives env (rest.length + 1) rest hx .refl h0
    (Nat.lt_succ_self _)
  have hrun : getFileINode env (slash :: rest) fs₁ = .ok (r, fs₃) := NaoM.bind_eq_ok.mpr ⟨_, _, hget, hloop⟩
  rw [h.advance_eq hfree, ← components_slash] at harr
  rw [leads]
  generalize (components (slash :: rest)).foldlM fs.tree.follow 0 = followed at harr ⊢
  cases harr with
  | nowhere hrest => exact .inl ⟨rfl, fs₃, hrun, hrest⟩
  | found hx hn => exact .inr ⟨_, _, fs₃, rfl, hrun, hx, hn⟩

end Lookup

/-! ## One inode -/

section Simple

variable {fs fs₁ : FS} {held : List NodeId} {l : List Nat} {env : Env} {path : Name} {x : NodeId} {n : Nat}
  (h : Stocked fs held l) (hidle : ∃ z, z ∉ held) (hpath : IsPath path)

include h hidle hpath

/-- The attributes are copied without a lock. -/
theorem Stocked.attrPopulate_returns (env : Env) : Returns (attrPopulate env path) fs := by
  obtain ⟨-, fs₁, hrun, -⟩ | ⟨x, n, fs₁, -, hrun, hx, hn⟩ := h.lookup h.resting hidle env hpath
  · exact .bind hrun (.pure _ _)
  · obtain ⟨fs₂, hput, -⟩ := hx.iput env.now (h.linked n hn)
    exact .bind hrun (.bind rfl (.bind hput (.pure _ _)))

/-- **`changeMode` and `changeOwner`**, which lock the one inode of the path. -/
theorem Stocked.changeINode_returns (env : Env) {assign : InCoreINode → InCoreINode}
    (ha : ∀ x, Attributes x (assign x)) : Returns (changeINode env path assign) fs := by
  obtain ⟨-, fs₁, hrun, -⟩ | ⟨x, n, fs₁, -, hrun, hx, hn⟩ := h.lookup h.resting hidle env hpath
  · exact .bind hrun (.pure _ _)
  · have hfree : FreeBlocks fs₁.disk l :=
      h.free.frame hx.disk.backend (congrFun hx.disk.blocks 2) fun b _ => congrFun hx.disk.blocks b
    obtain ⟨-, -, fs₂, hput, -⟩ := hx.rewrite h hn
      ((ha { fs₁.inode x with iNodeMutex := true }).rewrites hfree (hx.coherent.fits n x hx.caches)) env.now
    exact .bind hrun ⟨_, underLock_onINode (hx.coherent.unlocked x) rfl hput⟩

/-- **`readDirectory`** of a directory, or of a file that is shorter than an entry. -/
theorem Stocked.readDirectory_returns (env : Env)
    (hdir : ∀ n, fs.leads path = some n → fs.tree.directory n ∨ (fs.seen n).size < 64) :
    Returns (readDirectory env path) fs := by
  obtain ⟨-, fs₁, hrun, -⟩ | ⟨x, n, fs₁, hleads, hrun, hx, hn⟩ := h.lookup h.resting hidle env hpath
  · exact .bind hrun (.pure _ _)
  · obtain ⟨fs₂, hput, -⟩ := hx.iput env.now (h.linked n hn)
    have hfill : ∃ filled, fillDirectoryEntries env x fs₁ = .ok (filled, fs₁) := by
      obtain hdir | hsmall := hdir n hleads
      · exact ⟨_, fillDirectoryEntries_exact (hx.disk.directoryFile hx.value (h.directory n hn hdir)) env⟩
      · have hnone : (fs₁.inode x).size / directoryEntrySize = 0 := by
          rw [hx.value]
          exact Nat.div_eq_of_lt hsmall
        refine ⟨[], NaoM.bind_eq_ok.mpr ⟨fs₁, fs₁, rfl, ?_⟩⟩
        rw [hnone]
        rfl
    obtain ⟨filled, hfill⟩ := hfill
    exact .bind hrun (.bind hfill (.bind hput (.pure _ _)))

/-- **`readDirectory`** of another file: the search answers -1, which is taken for a count. -/
theorem Stocked.readDirectory_stuck (env : Env) (hleads : fs.leads path = some n)
    (hdir : fs.tree.directory n = false) (hsize : 64 ≤ (fs.seen n).size) :
    readDirectory env path fs = .error .outOfBounds := by
  obtain ⟨hnone, -⟩ | ⟨x, m, fs₁, hm, hrun, hx, -⟩ := h.lookup h.resting hidle env hpath
  · cases hleads.symm.trans hnone
  cases hleads.symm.trans hm
  have hpos : 0 < (fs₁.inode x).size / directoryEntrySize := by
    rw [hx.value]
    exact Nat.div_pos hsize (by decide)
  have hsearch : fs₁.disk.searchINodeDirectoryEntries env (fs₁.inode x) none 0 (fun _ => emptyEntry)
      directoryEntriesInBlock false = .ok (-1, (fun _ => emptyEntry), fs₁.disk) := by
    rw [Disk.searchINodeDirectoryEntries, if_pos]
    rw [validateSearch, hx.value]
    exact Bool.eq_false_iff.mp hdir
  refine (NaoM.bind_of_ok hrun).trans (NaoM.bind_of_error ?_)
  refine (NaoM.bind_of_ok (show (get : NaoM FS) fs₁ = .ok (fs₁, fs₁) from rfl)).trans ?_
  rw [fillDirectoryLoop, if_pos hpos]
  exact NaoM.bind_of_ok (searchINodeDirectoryEntries_ok hsearch)

/-- A regular file is truncated. -/
theorem Stocked.truncateFile_returns (env : Env) {size : Nat}
    (hregular : ∀ n, fs.leads path = some n → (fs.seen n).type ≠ .directory ∧ fs.tree.directory n = false ∧
      fs.disk.Resizes l.length (fs.seen n).size size) : Returns (truncateFile env path size) fs := by
  obtain ⟨-, fs₁, hrun, -⟩ | ⟨x, n, fs₁, hleads, hrun, hx, hn⟩ := h.lookup h.resting hidle env hpath
  · exact .bind hrun (.pure _ _)
  · obtain ⟨htype, hdir, hresizes⟩ := hregular n hleads
    obtain ⟨y, d, l', htrunc, -, hbecomes⟩ := Disk.truncateINode_becomes (hx.apart h hn)
      (hx.coherent.fits n x hx.caches) (by
        change sIsdir (fs₁.inode x).fileMode = false
        rw [hx.value]
        exact hdir) env (by
        change fs₁.disk.Resizes _ (fs₁.inode x).size size
        rw [hx.value, Disk.Resizes, hx.disk.blocks]
        exact hresizes)
    obtain ⟨-, -, fs₂, hput, -⟩ := hx.rewrite h hn hbecomes.rewrites env.now
    obtain ⟨fs₃, fs₄, hlock, hnode, hon, hunlock⟩ := locked_onINode
      (f := fun iNode d => d.truncateINode env iNode size) (hx.coherent.unlocked x) htrunc
    refine .bind hrun (.bind hlock (.bind rfl ?_))
    rw [if_neg (by
      rw [hnode]
      change (fs₁.inode x).type ≠ _
      rw [hx.value]
      exact htype)]
    exact .bind hon (.bind hunlock (.bind hput (.pure _ _)))

/-- **`openFile`**, whether the table has a free entry or not. -/
theorem Stocked.openFile_returns (env : Env) (fi : FuseFileInfo) (pid : Int) :
    Returns (FS.openFile env path fi pid) fs := by
  obtain ⟨-, fs₁, hrun, -⟩ | ⟨x, n, fs₁, -, hrun, hx, -⟩ := h.lookup h.resting hidle env hpath
  · exact .bind hrun (.pure _ _)
  · obtain ⟨fi', fs', hopen⟩ := openFile_found hrun (hx.coherent.unlocked x) fi pid
    exact ⟨_, hopen⟩

end Simple

/-! ## A file that loses a link -/

/-- The inode of the file is given up with the link that is taken from it. -/
def LastLink (fs : FS) (held : List NodeId) (m : Nat) : Prop :=
  m ≠ 0 ∧ (fs.seen m).linksCount = 1 ∧ ∀ z ∈ held, (fs.inode z).iNodeNumber ≠ m

/-- The file `m` has one link less.  If it was `LastLink`, its number and its blocks are free. -/
structure Dropped (fs : FS) (held : List NodeId) (m : Nat) (l l' : List Nat) (fs' : FS) : Prop where
  coherent : Coherent fs' held
  value : ∀ z ∈ held, (fs.inode z).iNodeNumber ≠ m → (fs'.inode z).toINode = (fs.inode z).toINode
  number : ∀ z ∈ held, (fs'.inode z).iNodeNumber = (fs.inode z).iNodeNumber
  backend : fs'.disk.backend = fs.disk.backend
  free : FreeBlocks fs'.disk l'
  owned : ∀ b, l'.count b ≤ l.count b + (fs.blocksOf m).count b
  link : slot (fs.disk.blocks 2) 127 ≠ 0 → slot (fs'.disk.blocks 2) 127 ≠ 0
  frame : ∀ b, dataRegionStart ≤ b → b ∉ fs.blocksOf m → fs'.disk.blocks b = fs.disk.blocks b

section Drop

variable {fs : FS} {held : List NodeId} {x : NodeId} {m : Nat} {l : List Nat}

/-- **A file loses a link** while the node `x` of another one is locked. -/
theorem Coherent.drop (h : Coherent fs held) (hx : x ∈ held) (hm : m < numOfInodes)
    (hav : fs.Available held m) (hxm : (fs.inode x).iNodeNumber ≠ m)
    (hsize : (fs.seen m).size ≤ maxFileSize) (hblocks : FreeBlocks fs.disk l)
    (hown : Own fs.disk.backend (l ++ fs.blocksOf m)) (hdata : ∀ b ∈ l ++ fs.blocksOf m, dataRegionStart ≤ b)
    (hlink : slot (fs.disk.blocks 2) 127 ≠ 0)
    (hlist : fs.LastLink held m → listed (fs.disk.blocks 3) 0 = 0) (env : Env) :
    ∃ y fs₁ fs' l', (fs.hold x).iget m 0 = .ok (some y, fs₁) ∧ Dropped fs held m l l' fs' ∧ ∀ fs'',
      truncateINode env x (wrapSize (((fs'.hold x).inode x).size - directoryEntrySize)) (fs'.hold x) =
        .ok ((), fs'') → unlinkFetched env x (some y) fs₁ = .ok (0, fs'') := by
  by_cases hlast : fs.LastLink held m
  · obtain ⟨h0, hone, hunheld⟩ := hlast
    have hfree : ∃ z, z ∉ held := by
      obtain ⟨z, hz | hz⟩ := hav
      · exact ⟨z, hz⟩
      · exact ⟨z, fun hmem => hunheld z hmem hz⟩
    obtain ⟨y, fs₁, fs', l', k, hget, hgiven, hrun⟩ := h.giveUp hx hm h0 hfree hunheld hone hsize hblocks
      hown hdata (.inr hlink) (hlist ⟨h0, hone, hunheld⟩) env
    refine ⟨y, fs₁, fs', l', hget, ⟨hgiven.coherent, fun z hz _ => by rw [hgiven.inode z hz],
      fun z hz => by rw [hgiven.inode z hz], hgiven.reclaims.backend, hgiven.reclaims.free, fun b => ?_,
      hgiven.reclaims.linked, hgiven.reclaims.frame⟩, hrun⟩
    rw [hgiven.reclaims.perm.count_eq, List.count_append]
    omega
  · obtain ⟨y, fs₁, w, hget, hf, -, hw, ht, hrun⟩ := h.dropLink hx hm hav hxm env
    have hself : (fs₁.setInode y w).inode y = w := inode_setInode_self ..
    -- The inode is in use elsewhere, or it has links.
    obtain ⟨fs', hput, hret⟩ := ht.coherent.iput env.now ((ht.caches m y).mpr hf.caches) (by
      rw [hself]
      by_contra hcon
      obtain ⟨hy, hlinks, h0⟩ : y ∉ held ∧ w.linksCount = 0 ∧ m ≠ 0 := by
        simpa only [not_or, not_not] using hcon
      refine hlast ⟨h0, ?_, fun z hz hzm => hy ?_⟩
      · have hlt := (hf.coherent.fits m y hf.caches).linksCount
        rw [hw] at hlinks
        change wrapSize _ = 0 at hlinks
        rw [← hf.value]
        by_contra hne
        by_cases hzero : (fs₁.inode y).linksCount = 0
        · rw [hzero] at hlinks
          exact absurd hlinks (by decide)
        · rw [InCoreINode.wrapSize_of_lt (by omega) (by omega)] at hlinks
          omega
      · have hcaches := h.caches_of_held hz
        rw [hzm] at hcaches
        by_cases hzy : z = y
        · exact hzy ▸ hz
        · have hcaches₁ := hf.coherent.caches_of_held (List.mem_cons_of_mem y hz)
          rw [hf.others z hzy, hzm] at hcaches₁
          exact absurd (hcaches₁.unique hf.caches) hzy)
    have hdisk : SameBlocks fs.disk (fs₁.setInode y w).disk := hf.disk
    have hblock : ∀ b, b ≠ m / 4 + 4 → fs'.disk.blocks b = fs.disk.blocks b := fun b hb => by
      rw [hret.blocks b hb, hdisk.blocks]
    have hlow : m / 4 + 4 < dataRegionStart := by
      simp only [numOfInodes] at hm
      simp only [dataRegionStart]
      omega
    have hstay : ∀ b, dataRegionStart ≤ b → fs'.disk.blocks b = fs.disk.blocks b := fun b hb =>
      hblock b (by omega)
    have hback : fs'.disk.backend = fs.disk.backend := by rw [hret.backend, hdisk.backend]
    refine ⟨y, fs₁.hold x, fs', l, hget, ⟨hret.coherent, fun z hz hzm => ?_, fun z hz => ?_, hback, ?_,
      fun b => Nat.le_add_right .., fun hslot => ?_, fun b hb _ => hstay b hb⟩,
      fun fs'' => hrun fs' fs'' hput⟩
    · have hzy : z ≠ y := by
        rintro rfl
        exact hzm (hf.node.resolve_left fun hno => hno hz)
      rw [hret.value, inode_setInode_of_ne hzy, hf.others z hzy]
    · rw [hret.value]
      by_cases hzy : z = y
      · subst hzy
        rw [hself, hw, hf.node.resolve_left fun hno => hno hz]
        exact hf.caches.number
      · rw [inode_setInode_of_ne hzy, hf.others z hzy]
    · exact hblocks.frame hback (hblock 2 (by omega)) fun b hb => hstay b (hdata b (List.mem_append_left _ hb))
    · rwa [hblock 2 (by omega)]

end Drop

/-! ## A name that is taken out -/

/-- A name has been taken out of the directory `n`, and the node `x` that holds it can be given
back. -/
structure Removed (fs : FS) (held : List NodeId) (x : NodeId) (n : Nat) (fs' : FS) : Prop where
  coherent : Coherent fs' (x :: held)
  caches : fs'.Caches n x
  links : (fs'.inode x).linksCount = (fs.seen n).linksCount

section Remove

variable {fs fs₁ : FS} {held : List NodeId} {l : List Nat} {x : NodeId} {n m : Nat} {name : Name}

/-- The entries of a directory are what its names stand for. -/
theorem TreeState.entry_of_mem (h : TreeState fs held) (hn : fs.tree.Reached n) (hdir : fs.tree.directory n)
    {e : DirectoryEntry} (he : e ∈ fs.disk.entries (fs.seen n).bare) :
    fs.tree.entry n e.label = some e.iNodeNum := by
  change Option.map _ (List.find? _ _) = _
  cases hfind : (fs.disk.entries (fs.seen n).bare).find? (·.label = e.label) with
  | none => exact absurd (List.find?_eq_none.mp hfind e he) (by simp)
  | some e' =>
      have hlabel : e'.label = e.label := by simpa using List.find?_some hfind
      rw [List.inj_on_of_nodup_map (h.distinct n hn hdir) (List.mem_of_find?_eq_some hfind) he hlabel]
      rfl

section Locked

variable (hx : Standing fs held fs₁ x n)

include hx

/-- A name is that of a first entry. -/
theorem Standing.exists_firstNamed (hentry : fs.tree.entry n name = some m) :
    ∃ p, Disk.FirstNamed fs₁.disk (fs₁.locked x) name p ∧
      (fs₁.disk.entryAt (fs₁.locked x).dataBlockNums p).iNodeNum = m := by
  obtain ⟨p, hp⟩ | hno := Disk.exists_firstNamed fs₁.disk (fs₁.locked x) name
  · refine ⟨p, hp, ?_⟩
    have hfind := find?_of_firstNamed hp
    rw [hx.entries] at hfind
    change Option.map _ (List.find? _ _) = _ at hentry
    rw [hfind] at hentry
    exact Option.some.inj hentry
  · obtain ⟨e, he, -⟩ := Option.map_eq_some_iff.mp hentry
    have hmem := List.mem_of_find?_eq_some he
    rw [← hx.entries] at hmem
    exact absurd (by simpa using List.find?_some he) (hno e hmem)

/-- No entry has a name that the directory does not have. -/
theorem Standing.matchAt_absent (h : TreeState fs held) (hn : fs.tree.Reached n) (hdir : fs.tree.directory n)
    (h0 : (0 : UInt8) ∉ name) (hnone : fs.tree.entry n name = none) :
    ∀ i < Disk.entryCount (fs₁.locked x), fs₁.disk.matchAt (fs₁.locked x).dataBlockNums name i = .ok false := by
  refine Disk.matchAt_absent h0 (hx.namesEnd h hn hdir) fun e he hlabel => ?_
  rw [hx.entries] at he
  have hsome := h.entry_of_mem hn hdir he
  rw [hlabel, hnone] at hsome
  cases hsome

/-- **There is nothing to take out**: the inode is no directory, or it has other names only. -/
theorem Standing.unlink_nothing (h : TreeState fs held) (hn : fs.tree.Reached n) (h0 : (0 : UInt8) ∉ name)
    (hnone : fs.tree.directory n → fs.tree.entry n name = none ∧ (fs.seen n).size ≠ 0) (env : Env) :
    unlinkFileFromINode env x name (fs₁.hold x) = .ok (-1, fs₁.hold x) := by
  have hnode : (fs₁.hold x).inode x = fs₁.locked x := inode_hold_self fs₁ x
  obtain ⟨ret, hret, hsearch⟩ : ∃ ret : Int, ret ≠ 1 ∧ (fs₁.hold x).disk.searchINodeDirectoryEntries env
      (fs₁.locked x) (some name) 0 (fun _ => env.entry) 0 true =
        .ok (ret, (fun _ => env.entry), (fs₁.hold x).disk) := by
    by_cases hdir : fs.tree.directory n
    · obtain ⟨hentry, hsize⟩ := hnone hdir
      have hfile := hx.directoryFile h hn hdir
      have hpos : 0 < Disk.entryCount (fs₁.locked x) := by
        have hcount := Disk.size_eq hfile
        rw [show (fs₁.locked x).size = (fs.seen n).size by rw [← hx.value]; rfl] at hcount
        omega
      exact ⟨0, by decide, Disk.searchUnlink_absent hfile hpos (hx.matchAt_absent h hn hdir h0 hentry) env
        (fun _ => env.entry) 0⟩
    · refine ⟨-1, by decide, ?_⟩
      rw [Disk.searchINodeDirectoryEntries, if_pos]
      rw [validateSearch, show (fs₁.locked x).fileMode = (fs.seen n).fileMode by rw [← hx.value]; rfl]
      exact hdir
  rw [← hnode] at hsearch
  rw [unlinkFileFromINode_eq]
  refine NaoM.bind_eq_ok.mpr ⟨none, fs₁.hold x,
    NaoM.bind_eq_ok.mpr ⟨_, _, searchINodeDirectoryEntries_ok hsearch, ?_⟩, rfl⟩
  dsimp only
  rw [if_pos hret]
  rfl

end Locked

section Taken

variable {fs₂ : FS} {p : Nat} (h : Housed fs held l) (hx : Standing fs held fs₁ x n)
  (hr : Refilled fs held l fs₁ x n m p fs₂) (hn : fs.tree.Reached n) (hm : fs.tree.Reached m) (hnm : n ≠ m)
  (hlink : slot (fs.disk.blocks 2) 127 ≠ 0)

include h hx hr hm hnm hlink

/-- The file of the name loses a link. -/
theorem Refilled.drop (hfree : ∃ z, z ∉ x :: held)
    (hlist : fs.LastLink held m → listed (fs.disk.blocks 3) 0 = 0) (env : Env) :
    ∃ y fs₃ fs₄ l₁, (fs₂.hold x).iget m 0 = .ok (some y, fs₃) ∧ Dropped fs₂ (x :: held) m l l₁ fs₄ ∧ ∀ fs',
      truncateINode env x (wrapSize (((fs₄.hold x).inode x).size - directoryEntrySize)) (fs₄.hold x) =
        .ok ((), fs') → unlinkFetched env x (some y) fs₃ = .ok (0, fs') := by
  have hmseen := hr.seen m (h.number m hm) hnm.symm
  refine hr.coherent.drop List.mem_cons_self (h.number m hm) (hfree.imp fun _ => .inl) ?_ ?_ hr.free ?_ ?_ ?_
    (fun hlast => ?_) env
  · rw [hr.inode, hx.caches.number]
    exact hnm
  · rw [hmseen]
    exact h.size m hm
  · rw [hr.blocksOf, hr.backend]
    exact h.own m hm
  · rw [hr.blocksOf]
    exact h.data m hm
  · rw [hr.low 2 (by decide)]
    exact hlink
  · rw [hr.low 3 (by decide)]
    refine hlist ⟨hlast.1, hmseen ▸ hlast.2.1, fun z hz => ?_⟩
    rw [← hx.kept z hz, ← hr.inode]
    exact hlast.2.2 z (List.mem_cons_of_mem _ hz)

include hn

/-- The last entry is cut off. -/
theorem Refilled.cut {fs₄ : FS} {l₁ : List Nat} (hdropped : Dropped fs₂ (x :: held) m l l₁ fs₄)
    (hdir : fs.tree.directory n) (hp : p < Disk.entryCount (fs₁.locked x)) (env : Env) :
    ∃ fs₅, truncateINode env x (wrapSize (((fs₄.hold x).inode x).size - directoryEntrySize)) (fs₄.hold x) =
      .ok ((), fs₅) ∧ Removed fs held x n (fs₅.unlock x) := by
  have hself : (fs₂.inode x).iNodeNumber = n := by rw [hr.inode]; exact hx.caches.number
  have hvalue : (fs₄.locked x).toINode = fs.seen n := by
    change (fs₄.inode x).toINode = _
    rw [hdropped.value x List.mem_cons_self (by rw [hself]; exact hnm), hr.inode, hx.value]
  have hlocked : (fs₄.locked x).toINode = (fs₁.locked x).toINode := hvalue.trans hx.value.symm
  have hback : fs₄.disk.backend = fs.disk.backend := hdropped.backend.trans hr.backend
  -- The directory has the blocks that it had after the search.
  obtain ⟨hfile, hblocks, -⟩ := hx.directory_filled h hn hdir hp hback fun b hb => by
    rw [← hr.disk]
    refine hdropped.frame b (h.data n hn b (List.mem_append_right _ hb)) fun hcon => ?_
    rw [hr.blocksOf] at hcon
    exact h.apart m n hm hn hnm.symm hcon hb
  replace hfile : DirectoryFile fs₄.disk (fs₄.locked x) := (SameBlocks.refl _).directoryFile hlocked hfile
  rw [← hlocked] at hblocks
  have hl₁ : ∀ b, l₁.count b ≤ l.count b + (fs.blocksOf m).count b := by
    rw [← hr.blocksOf]
    exact hdropped.owned
  have hapart : Apart fs₄.disk (fs₄.locked x) l₁ := by
    have hstored := hdropped.coherent.stored
    simp only [dataRegionStart] at hstored
    refine ⟨by omega, hdropped.free, ?_, hfile.size⟩
    rw [hblocks, hback]
    refine (h.own_two hn hm hnm.symm).mono fun b => ?_
    have := hl₁ b
    simp only [List.count_append]
    omega
  have hcaches : fs₄.Caches n x := by
    have hcaches := hdropped.coherent.caches_of_held (x := x) List.mem_cons_self
    rwa [hdropped.number x List.mem_cons_self, hself] at hcaches
  have hfits : (fs₄.locked x).Fits := hdropped.coherent.fits n x hcaches
  have hpos : 0 < Disk.entryCount (fs₄.locked x) := by
    rw [Disk.entryCount, hlocked]
    exact Nat.zero_lt_of_lt hp
  obtain ⟨z, d, l', htrunc, -, hcut⟩ := Disk.truncateINode_cuts hapart hfile hfits hpos env
    (.inr (hdropped.link (by rw [hr.low 2 (by decide)]; exact hlink)))
  obtain ⟨fs₅, htruncate, hunlock⟩ := truncate_locked hfits.size (by have := Disk.size_eq hfile; omega) htrunc
  have hregion : ∀ b ∈ l₁ ++ fs₄.nodeBlocks x, dataRegionStart ≤ b := by
    intro b hb
    change b ∈ l₁ ++ fs₄.disk.fileBlocks (fs₄.locked x).dataBlockNums (blockCount (fs₄.locked x).size) at hb
    rw [hblocks] at hb
    obtain hb | hb := List.mem_append.mp hb
    · refine h.data m hm b ?_
      have := hl₁ b
      have := List.count_pos_iff.mpr hb
      rw [← List.count_pos_iff, List.count_append]
      omega
    · exact h.data n hn b (List.mem_append_right _ hb)
  obtain ⟨ht, -⟩ := hdropped.coherent.rewrite List.mem_cons_self hcaches hcut.rewrites hregion
  rw [← hunlock] at ht
  refine ⟨fs₅, htruncate, ht.coherent, (ht.caches n x).mpr hcaches, ?_⟩
  rw [hunlock, inode_setInode_self, ← hvalue]
  exact hcut.touched.links

end Taken

/-- **The name is taken out**, and its file loses a link. -/
theorem Standing.unlink_removes (h : Housed fs held l) (hx : Standing fs held fs₁ x n) (hn : fs.tree.Reached n)
    (hdir : fs.tree.directory n) (h0 : (0 : UInt8) ∉ name) (hentry : fs.tree.entry n name = some m)
    (hnm : n ≠ m) (hfree : ∃ z, z ∉ x :: held) (hlink : slot (fs.disk.blocks 2) 127 ≠ 0)
    (hnum : ∀ i, fs.tree.Reached i → i < 65535)
    (hlist : fs.LastLink held m → listed (fs.disk.blocks 3) 0 = 0) {env : Env}
    (hbuffer : env.entry.iNodeNum < 65536) :
    ∃ fs₂, unlinkFileFromINode env x name (fs₁.hold x) = .ok (0, fs₂) ∧
      Removed fs held x n (fs₂.unlock x) := by
  have hm : fs.tree.Reached m := hn.tail ⟨hdir, name, hentry⟩
  have hfile := hx.directoryFile h.toTreeState hn hdir
  have hnode : (fs₁.hold x).inode x = fs₁.locked x := inode_hold_self fs₁ x
  have hnumbers : ∀ e ∈ fs₁.disk.entries (fs₁.locked x), e.iNodeNum < 65535 := by
    intro e he
    rw [hx.entries] at he
    exact hnum _ (hn.tail ⟨hdir, _, h.entry_of_mem hn hdir he⟩)
  obtain ⟨p, hp, hfirst⟩ := hx.exists_firstNamed hentry
  have hr := hx.refilled h hn hdir hp.lt hm hnm
  obtain ⟨y, fs₃, fs₄, l₁, hget, hdropped, hrun⟩ := hr.drop h hx hm hnm hlink hfree hlist env
  obtain ⟨fs₅, htruncate, hremoved⟩ := hr.cut h hx hn hm hnm hlink hdropped hdir hp.lt env
  refine ⟨fs₅, ?_, hremoved⟩
  have hsearch := Disk.searchUnlink_found hfile (fun _ => hnumbers _)
    (hp.firstMatch h0 (hx.namesEnd h.toTreeState hn hdir)) env (fun _ => env.entry) 0
  rw [← hnode] at hsearch
  rw [unlinkFileFromINode_eq]
  refine NaoM.bind_eq_ok.mpr ⟨some (fs₁.disk.entryAt (fs₁.locked x).dataBlockNums p),
    { fs₁ with disk := fs₁.disk.filled (fs₁.locked x) p }.hold x,
    NaoM.bind_eq_ok.mpr ⟨_, _, searchINodeDirectoryEntries_ok hsearch, ?_⟩,
    NaoM.bind_eq_ok.mpr ⟨_, _, by rw [hfirst]; exact hget, hrun _ htruncate⟩⟩
  rw [hnode]
  simp only [update_self, ne_eq, not_true_eq_false, if_false, DirectoryEntry.overlay_of_lt hbuffer]
  rfl

end Remove

/-! ## Calls that take a name out -/

/-- A name can be taken out of the directory `n`: it is not the name of `n` itself, which is
locked, and if its file is given up, there is a place for its number on the inode list. -/
structure Unlinkable (fs : FS) (held : List NodeId) (n : Nat) (name : Name) : Prop where
  nonempty : fs.tree.entry n name = none → (fs.seen n).size ≠ 0
  other : fs.tree.entry n name ≠ some n
  place : ∀ m, fs.tree.entry n name = some m → fs.LastLink held m → listed (fs.disk.blocks 3) 0 = 0

/-- What `unlink` needs: nodes of the cache, a list block that has a link, and an entry from
`malloc` whose number the two bytes on the disk fill.  65535 is not the number of a file, since
it stands for a search without success. -/
structure Ready (env : Env) (fs : FS) (held : List NodeId) : Prop where
  room : Roomy held
  link : slot (fs.disk.blocks 2) 127 ≠ 0
  buffer : env.entry.iNodeNum < 65536
  number : ∀ i, fs.tree.Reached i → i < 65535

section Unlink

variable {fs fs₁ : FS} {held : List NodeId} {l : List Nat} {env : Env} {path name : Name} {x : NodeId} {n : Nat}

/-- A directory has links, so that its reference can be given back. -/
theorem Removed.iput {fs' : FS} (hrem : Removed fs held x n fs') (h : TreeState fs held)
    (hn : fs.tree.Reached n) (now : UInt64) : ∃ fs'', fs'.iput now x = .ok (0, fs'') := by
  obtain ⟨fs'', hput, -⟩ := hrem.coherent.iput now hrem.caches (by
    rw [hrem.links]
    exact (Decidable.em (n = 0)).elim (.inr ∘ .inr) fun hn0 => .inr (.inl (h.linked n hn hn0)))
  exact ⟨fs'', hput⟩

/-- **A name of a locked inode**: the call returns, and the lock and the reference are given
back. -/
theorem Standing.unlink_returns (h : Housed fs held l) (hx : Standing fs held fs₁ x n) (hn : fs.tree.Reached n)
    (hready : Ready env fs held) (h0 : (0 : UInt8) ∉ name)
    (hname : fs.tree.directory n → fs.Unlinkable held n name) :
    ∃ ret fs₂ fs₃, unlinkFileFromINode env x name (fs₁.hold x) = .ok (ret, fs₂) ∧
      (fs₂.unlock x).iput env.now x = .ok (0, fs₃) := by
  have hnothing (hnone : fs.tree.directory n → fs.tree.entry n name = none ∧ (fs.seen n).size ≠ 0) :
      ∃ ret fs₂ fs₃, unlinkFileFromINode env x name (fs₁.hold x) = .ok (ret, fs₂) ∧
        (fs₂.unlock x).iput env.now x = .ok (0, fs₃) := by
    obtain ⟨fs₃, hput, -⟩ := hx.iput env.now (h.linked n hn)
    refine ⟨-1, fs₁.hold x, fs₃, hx.unlink_nothing h.toTreeState hn h0 hnone env, ?_⟩
    rw [hx.unlock_hold]
    exact hput
  by_cases hdir : fs.tree.directory n
  · have hname := hname hdir
    cases hentry : fs.tree.entry n name with
    | none => exact hnothing fun _ => ⟨hentry, hname.nonempty hentry⟩
    | some m =>
        have hnm : n ≠ m := by
          rintro rfl
          exact hname.other hentry
        obtain ⟨fs₂, hunlink, hremoved⟩ := hx.unlink_removes h hn hdir h0 hentry hnm
          (hready.room.other x) hready.link hready.number (hname.place m hentry) hready.buffer
        obtain ⟨fs₃, hput⟩ := hremoved.iput h.toTreeState hn env.now
        exact ⟨0, fs₂, fs₃, hunlink, hput⟩
  · exact hnothing fun hcon => absurd hcon hdir

/-- **`unlinkFile`**, from a state on the way. -/
theorem Housed.unlinkFile_returns (h : Housed fs held l) (hr : Resting fs held fs₁) (hready : Ready env fs held)
    (hpath : IsPath path) (hname : ∀ n, fs.leads (parentPath path) = some n → fs.tree.directory n →
      fs.Unlinkable held n (lastName path)) : Returns (unlinkFile env path) fs₁ := by
  obtain ⟨hparent, h0⟩ := hpath.parent
  obtain ⟨rest, rfl, -⟩ := hpath.eq_cons
  have hslash : slash ∈ slash :: rest := List.mem_cons_self
  obtain ⟨-, fs₂, hrun, -⟩ | ⟨x, n, fs₂, hleads, hrun, hx, hn⟩ := h.lookup hr hready.room.idle env hparent
  · rw [← getParentINode_eq env hslash] at hrun
    exact .bind hrun (.pure _ _)
  · rw [← getParentINode_eq env hslash] at hrun
    obtain ⟨ret, fs₃, fs₄, hunlink, hput⟩ := hx.unlink_returns h hn hready h0 (hname n hleads)
    have hfilename : NaoM.ofExcept (getFilenameFromPath (slash :: rest)) (fs₂.hold x) =
        .ok (lastName (slash :: rest), fs₂.hold x) := by
      rw [getFilenameFromPath_eq hslash]
      rfl
    exact .bind hrun (.bind (mutexLock_hold (hx.coherent.unlocked x))
      (.bind (NaoM.bind_eq_ok.mpr ⟨_, _, hfilename, hunlink⟩) (.bind rfl (.bind hput (.pure _ _)))))

/-- A directory that `validateAndEmptyDirectoryIfNeeded` leaves as it is: its loop starts at
128 and counts entries. -/
theorem validate_leaves {force : Bool} (hsmall : force = true → (fs.inode x).iNodeNumber ≠ 0 →
      (fs.inode x).type = .directory → (fs.inode x).size ≤ 128 * 64) :
    ∃ ret, validateAndEmptyDirectoryIfNeeded env x force fs = .ok (ret, fs) := by
  have hloop : (fs.inode x).size ≤ 128 * 64 →
      emptyDir env (validateAndEmptyDirectory env inodeBufferSize true) x fs = .ok (0, fs) := by
    intro hle
    refine NaoM.bind_eq_ok.mpr ⟨fs, fs, rfl, ?_⟩
    rw [emptyDirLoop, if_neg (by simp only [directoryEntrySize]; omega)]
    rfl
  rw [validateAndEmptyDirectoryIfNeeded]
  by_cases h0 : (fs.inode x).iNodeNumber = 0
  · refine ⟨eAcces, NaoM.bind_eq_ok.mpr ⟨fs, fs, rfl, ?_⟩⟩
    rw [if_pos h0]
    rfl
  by_cases hfull : (fs.inode x).size > 2 * directoryEntrySize ∧ ¬ force
  · refine ⟨eNotempty, NaoM.bind_eq_ok.mpr ⟨fs, fs, rfl, ?_⟩⟩
    rw [if_neg h0, if_pos hfull]
    rfl
  by_cases htype : (fs.inode x).type ≠ .directory
  · refine ⟨eNotdir, NaoM.bind_eq_ok.mpr ⟨fs, fs, rfl, ?_⟩⟩
    rw [if_neg h0, if_neg hfull, if_pos htype]
    rfl
  refine ⟨0, NaoM.bind_eq_ok.mpr ⟨fs, fs, rfl, ?_⟩⟩
  rw [if_neg h0, if_neg hfull, if_neg htype]
  split
  · next hforce => exact hloop (hsmall hforce.1 h0 (not_not.mp htype))
  · rfl

/-- **`unlinkDir`** of a path that leads to something. -/
theorem Stocked.unlinkDir_returns (h : Stocked fs held l) (hready : Ready env fs held) (hpath : IsPath path)
    {force : Bool} (hfound : ∃ n, fs.leads path = some n ∧
      (force = true → n ≠ 0 → (fs.seen n).type = .directory → (fs.seen n).size ≤ 128 * 64))
    (hname : ∀ n, fs.leads (parentPath path) = some n → fs.tree.directory n →
      fs.Unlinkable held n (lastName path)) : Returns (unlinkDir env path force) fs := by
  obtain ⟨k, hleads, hsmall⟩ := hfound
  obtain ⟨hnone, -⟩ | ⟨x, n, fs₁, hn, hrun, hx, hreached⟩ := h.lookup h.resting hready.room.idle env hpath
  · rw [hleads] at hnone
    cases hnone
  · cases hleads.symm.trans hn
    have hsmall' : force = true → ((fs₁.hold x).inode x).iNodeNumber ≠ 0 →
        ((fs₁.hold x).inode x).type = .directory → ((fs₁.hold x).inode x).size ≤ 128 * 64 := by
      rw [inode_hold_self]
      change force = true → (fs₁.inode x).iNodeNumber ≠ 0 → (fs₁.inode x).type = _ → (fs₁.inode x).size ≤ _
      rw [hx.caches.number, hx.value]
      exact hsmall
    obtain ⟨ret, hvalidate⟩ : ∃ ret, validateAndEmptyDirectoryIfNeeded env x force (fs₁.hold x) =
        .ok (ret, fs₁.hold x) := validate_leaves hsmall'
    obtain ⟨fs₂, hput, hrest⟩ := hx.iput env.now (h.linked _ hreached)
    refine .bind hrun (.bind (NaoM.bind_eq_ok.mpr ⟨_, _, mutexLock_hold (hx.coherent.unlocked x),
      NaoM.bind_eq_ok.mpr ⟨_, _, hvalidate, NaoM.bind_eq_ok.mpr ⟨(), fs₁, ?_,
        NaoM.bind_eq_ok.mpr ⟨_, _, hput, rfl⟩⟩⟩⟩) ?_)
    · exact congrArg (fun fs' => Except.ok ((), fs')) hx.unlock_hold
    · split
      · exact .pure _ _
      · exact h.housed.unlinkFile_returns hrest hready hpath hname

end Unlink

/-! ## Calls that make or close a file -/

section Create

variable {fs : FS} {held : List NodeId} {l : List Nat} {env : Env} {path : Name}

/-- **`createFile`** of a type that can be made or not, of a name that is taken or free. -/
theorem Stocked.createFile_returns (h : Stocked fs held l) (hroom : Roomy held) (hpath : IsPath path)
    (fileType : INodeType) (mode uid gid : UInt32) (hsup : Sustains fs l fileType path) :
    Returns (createFile env path fileType mode uid gid) fs := by
  obtain ⟨rest, rfl, h0⟩ := hpath.eq_cons
  obtain ⟨r, fs', -, -, hrun, -⟩ | ⟨hone, -⟩ := h.createFile_safe env fileType mode uid gid h0 hsup
  · exact ⟨(r, fs'), hrun⟩
  · obtain ⟨z, z', hne, hz, hz'⟩ := hroom
    exact absurd (hone z z' hz hz') hne

end Create

/-! ## Calls that do not come to their end -/

section Stuck

variable {fs fs₁ : FS} {held : List NodeId} {l : List Nat} {env : Env} {path name : Name} {x : NodeId} {n : Nat}

/-- The inode of a locked node cannot be had: `iget` waits for the lock. -/
theorem iget_hold_self (hx : fs.Caches n x) : iget n 0 (fs.hold x) = .error .deadlock := by
  have hfound : ((fs.hold x).log (.fetch n)).cache.hashLookup n 0 = .ok (some x) :=
    (hashLookup_hold (fs.log (.fetch n)) x n 0).trans hx
  have hlock : ((fs.hold x).log (.fetch n)).lock x = .error .deadlock := by
    rw [lock, if_pos]
    change ((fs.hold x).inode x).iNodeMutex = true
    rw [inode_hold_self]
  rw [FS.iget, hfound]
  change igetHit _ n x = _
  rw [igetHit, hlock]
  rfl

/-- A file that is its own directory is looked for while it is locked. -/
theorem Standing.unlink_stuck (h : TreeState fs held) (hx : Standing fs held fs₁ x n) (hn : fs.tree.Reached n)
    (hdir : fs.tree.directory n) (h0 : (0 : UInt8) ∉ name) (hentry : fs.tree.entry n name = some n)
    (hbuffer : env.entry.iNodeNum < 65536) :
    unlinkFileFromINode env x name (fs₁.hold x) = .error .deadlock := by
  obtain ⟨p, hp, hnum⟩ := hx.exists_firstNamed hentry
  have hsearch := Disk.searchUnlink_eq (hx.directoryFile h hn hdir)
    (hp.firstMatch h0 (hx.namesEnd h hn hdir)) env (fun _ => env.entry) 0
  rw [← show (fs₁.hold x).inode x = fs₁.locked x from inode_hold_self fs₁ x] at hsearch
  rw [unlinkFileFromINode_eq]
  have hsearched := @searchINodeDirectoryEntries_ok env (fs₁.hold x) x _ _ _ _ _ _ hsearch
  refine (NaoM.bind_of_ok (NaoM.bind_eq_ok.mpr ⟨_, _, hsearched, rfl⟩)).trans ?_
  simp only [update_self, ne_eq, not_true_eq_false, if_false, DirectoryEntry.overlay_of_lt hbuffer]
  rw [show (fs₁.hold x).inode x = fs₁.locked x from inode_hold_self fs₁ x, hnum]
  exact NaoM.bind_of_error (@iget_hold_self { fs₁ with disk := _ } x n hx.caches)

/-- **`unlinkFile`** of a directory by a name of its own. -/
theorem Stocked.unlinkFile_stuck (h : Stocked fs held l) (hidle : ∃ z, z ∉ held) (hpath : IsPath path)
    (hleads : fs.leads (parentPath path) = some n) (hdir : fs.tree.directory n)
    (hentry : fs.tree.entry n (lastName path) = some n) (hbuffer : env.entry.iNodeNum < 65536) :
    unlinkFile env path fs = .error .deadlock := by
  obtain ⟨hparent, h0⟩ := hpath.parent
  obtain ⟨rest, rfl, -⟩ := hpath.eq_cons
  have hslash : slash ∈ slash :: rest := List.mem_cons_self
  obtain ⟨hnone, -⟩ | ⟨x, m, fs₁, hm, hrun, hx, hn⟩ := h.lookup h.resting hidle env hparent
  · cases hleads.symm.trans hnone
  · cases hleads.symm.trans hm
    rw [← getParentINode_eq env hslash] at hrun
    have hname : NaoM.ofExcept (getFilenameFromPath (slash :: rest)) (fs₁.hold x) =
        .ok (lastName (slash :: rest), fs₁.hold x) := by
      rw [getFilenameFromPath_eq hslash]
      rfl
    refine (NaoM.bind_of_ok hrun).trans ((NaoM.bind_of_ok (mutexLock_hold (hx.coherent.unlocked x))).trans ?_)
    exact NaoM.bind_of_error ((NaoM.bind_of_ok hname).trans
      (hx.unlink_stuck h.toTreeState hn hdir h0 hentry hbuffer))

/-- **`unlinkDir`** of a path that leads nowhere. -/
theorem Stocked.unlinkDir_stuck (h : Stocked fs held l) (hidle : ∃ z, z ∉ held) (hpath : IsPath path)
    {force : Bool} (hnone : fs.leads path = none) : unlinkDir env path force fs = .error .nullPointer := by
  obtain ⟨-, fs₁, hrun, -⟩ | ⟨x, m, fs₁, hm, -⟩ := h.lookup h.resting hidle env hpath
  · exact NaoM.bind_of_ok hrun
  · cases hnone.symm.trans hm

end Stuck

end FS

end Naofs
