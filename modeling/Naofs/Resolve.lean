import Naofs.Coherence
import Naofs.INodeRuns
import Naofs.Lookup

/-!
# Naofs.Resolve

What `getFileINode` makes of a path.

A `Tree` is what the inodes and the blocks of the directories say together: which
numbers are directories, which of them may be searched, and what their entries name.  A
path is resolved by one `Tree.lookup` for each of its `components`.  The code follows the
path by another step, `Tree.follow`:

* `validateSearch` does not look at the execute bit, and
* the error of a search in an inode that is no directory, a `size_t` in `operate`, is
  taken for a success, and the cleared entry names the root.

`TreeState.getFileINode_arrives` is the run of the code; `resolves_iff` says when the two
agree.
-/

namespace Naofs

open Function (update update_self update_of_ne)

/-! ## Two ways along a list -/

section Steps

variable {α β : Type} {f g : β → α → Option β}

/-- Two partial steps, of which the second goes wherever the first does, lead to different
ends when the second goes on to an end from where the first stops. -/
theorem foldlM_eq_iff (h : ∀ b a c, f b a = some c → g b a = some c) : ∀ (l : List α) (b : β),
    l.foldlM g b = l.foldlM f b ↔ ¬ ∃ pre a post m, l = pre ++ a :: post ∧
      pre.foldlM f b = some m ∧ f m a = none ∧ ((a :: post).foldlM g m).isSome := by
  intro l
  induction l with
  | nil => simp
  | cons a l ih =>
      intro b
      cases hf : f b a with
      | none =>
          have hstop : (a :: l).foldlM f b = none := by
            rw [List.foldlM_cons, hf]
            rfl
          rw [hstop, not_exists]
          constructor
          · rintro hg pre ⟨a', post, m, hl, hpre, -, hsome⟩
            cases pre with
            | nil =>
                cases hl
                cases hpre
                rw [hg] at hsome
                cases hsome
            | cons c pre =>
                cases hl
                rw [List.foldlM_cons, hf] at hpre
                cases hpre
          · intro hno
            have := hno []
            simp only [List.nil_append, not_exists, not_and] at this
            simpa using this a l b rfl rfl hf
      | some c =>
          rw [List.foldlM_cons, List.foldlM_cons, hf, h b a c hf]
          refine (ih c).trans (not_congr ⟨?_, ?_⟩)
          · rintro ⟨pre, a', post, m, rfl, hpre, hm⟩
            refine ⟨a :: pre, a', post, m, rfl, ?_, hm⟩
            rw [List.foldlM_cons, hf]
            exact hpre
          · rintro ⟨pre, a', post, m, hl, hpre, hm, hsome⟩
            cases pre with
            | nil =>
                cases hl
                cases hpre
                rw [hf] at hm
                cases hm
            | cons c' pre =>
                cases hl
                rw [List.foldlM_cons, hf] at hpre
                exact ⟨pre, a', post, m, rfl, hpre, hm, hsome⟩

/-- A fold that succeeds is the same for steps that succeed more often. -/
theorem foldlM_of_some (h : ∀ b a c, f b a = some c → g b a = some c) : ∀ (l : List α) {b c : β},
    l.foldlM f b = some c → l.foldlM g b = some c := by
  intro l
  induction l with
  | nil => exact fun hf => hf
  | cons a l ih =>
      intro b c hf
      rw [List.foldlM_cons] at hf ⊢
      obtain ⟨b', hb', hc⟩ := Option.bind_eq_some_iff.mp hf
      exact Option.bind_eq_some_iff.mpr ⟨b', h b a b' hb', ih hc⟩

end Steps

/-! ## Trees -/

/-- The names of a path; empty ones are skipped. -/
def components (path : Name) : List Name := (path.splitOn slash).filter (· ≠ [])

/-- What a file system looks like to a path. -/
structure Tree where
  directory : Nat → Bool
  /-- The owner's execute bit. -/
  executable : Nat → Bool
  entry : Nat → Name → Option Nat

namespace Tree

/-- One name of a path, in a directory that may be searched. -/
def lookup (t : Tree) (n : Nat) (name : Name) : Option Nat :=
  if t.directory n ∧ t.executable n then t.entry n name else none

def resolve (t : Tree) (path : Name) : Option Nat := (components path).foldlM t.lookup 0

/-- The step that the code takes. -/
def follow (t : Tree) (n : Nat) (name : Name) : Option Nat :=
  if t.directory n then t.entry n name else some 0

/-- All the names are found from `n`, if any name of a file that is no directory counts
as one of the root. -/
inductive Found (t : Tree) : Nat → List Name → Prop
  | nil (n : Nat) : Found t n []
  | entry {n m : Nat} {name : Name} {names : List Name} : t.directory n → t.entry n name = some m →
      Found t m names → Found t n (name :: names)
  | file {n : Nat} {name : Name} {names : List Name} : ¬ t.directory n → Found t 0 names →
      Found t n (name :: names)

/-- Some name of the path is met at an inode that may not be searched, and from there all
the names that are left are `Found`. -/
def Strays (t : Tree) (path : Name) : Prop :=
  ∃ pre name post n, components path = pre ++ name :: post ∧ pre.foldlM t.lookup 0 = some n ∧
    ¬ (t.directory n ∧ t.executable n) ∧ t.Found n (name :: post)

/-- The numbers that some path leads to. -/
def Reached (t : Tree) : Nat → Prop :=
  Relation.ReflTransGen (fun n m => t.directory n ∧ ∃ name, t.entry n name = some m) 0

section Follow

variable {t : Tree} {n m : Nat} {name : Name}

/-- Where the lookup finds a name, the code finds the same. -/
theorem follow_of_lookup (h : t.lookup n name = some m) : t.follow n name = some m := by
  rw [lookup] at h
  split at h
  · next hdir => rw [follow, if_pos hdir.1, h]
  · cases h

/-- All the names are found exactly if the code gets to the end of the path. -/
theorem found_iff (t : Tree) : ∀ (names : List Name) (n : Nat),
    t.Found n names ↔ (names.foldlM t.follow n).isSome := by
  intro names
  induction names with
  | nil => exact fun n => ⟨fun _ => rfl, fun _ => .nil n⟩
  | cons name names ih =>
      intro n
      rw [List.foldlM_cons, follow]
      by_cases hdir : t.directory n
      · rw [if_pos hdir]
        constructor
        · rintro (_ | ⟨-, hentry, hfound⟩ | ⟨hfile, -⟩)
          · rw [hentry]
            exact (ih _).mp hfound
          · exact absurd hdir hfile
        · intro hsome
          cases hentry : t.entry n name with
          | none =>
              rw [hentry] at hsome
              cases hsome
          | some m =>
              rw [hentry] at hsome
              exact .entry hdir hentry ((ih m).mpr hsome)
      · rw [if_neg hdir]
        constructor
        · rintro (_ | ⟨hdir', -, -⟩ | ⟨-, hfound⟩)
          · exact absurd hdir' hdir
          · exact (ih 0).mp hfound
        · exact fun hsome => .file hdir ((ih 0).mpr hsome)

/-- The code's way leads elsewhere just when it strays. -/
theorem follow_eq_resolve_iff (t : Tree) (path : Name) :
    (components path).foldlM t.follow 0 = t.resolve path ↔ ¬ t.Strays path := by
  refine (foldlM_eq_iff (fun n name m => follow_of_lookup) _ _).trans (not_congr ?_)
  constructor
  · rintro ⟨pre, name, post, n, hl, hpre, hstop, hsome⟩
    refine ⟨pre, name, post, n, hl, hpre, fun hdir => ?_, (t.found_iff _ n).mpr hsome⟩
    rw [lookup, if_pos hdir] at hstop
    rw [List.foldlM_cons, follow, if_pos hdir.1, hstop] at hsome
    cases hsome
  · rintro ⟨pre, name, post, n, hl, hpre, hdir, hfound⟩
    exact ⟨pre, name, post, n, hl, hpre, if_neg hdir, (t.found_iff _ n).mp hfound⟩

/-- The code stays in the tree: it comes to an entry or back to the root. -/
theorem Reached.follow (h : t.Reached n) (hm : t.follow n name = some m) : t.Reached m := by
  rw [Tree.follow] at hm
  split at hm
  · next hdir => exact h.tail ⟨hdir, name, hm⟩
  · cases hm
    exact .refl

/-- The code's way stays among the inodes that are reached. -/
theorem Reached.foldlM : ∀ (names : List Name) {k : Nat}, t.Reached k →
    names.foldlM t.follow k = some m → t.Reached m := by
  intro names
  induction names with
  | nil =>
      intro k hk h
      cases h
      exact hk
  | cons name names ih =>
      intro k hk h
      obtain ⟨j, hj, h⟩ := Option.bind_eq_some_iff.mp h
      exact ih (hk.follow hj) h

end Follow

end Tree

/-! ## The names of a path -/

@[simp] theorem components_nil : components [] = [] := rfl

/-- The first name of a path, and what is left behind the `'/'` at its end. -/
theorem components_eq (path : Name) :
    components path = (if path.takeWhile (· ≠ slash) = [] then [] else [path.takeWhile (· ≠ slash)]) ++
      components (path.drop ((path.takeWhile (· ≠ slash)).length + 1)) := by
  have hnot : slash ∉ path.takeWhile (· ≠ slash) := fun hmem => by
    simpa using List.all_eq_true.mp List.all_takeWhile slash hmem
  have hpath := List.takeWhile_append_dropWhile (p := (· ≠ slash)) (l := path)
  generalize hname : path.takeWhile (· ≠ slash) = name at *
  cases hrest : path.dropWhile (· ≠ slash) with
  | nil =>
      rw [hrest, List.append_nil] at hpath
      subst hpath
      rw [List.drop_eq_nil_of_le (by simp), components, List.splitOn_eq_singleton hnot]
      by_cases hnil : name = [] <;> simp [hnil]
  | cons c rest =>
      have hc : c = slash := by
        have := List.head_dropWhile_not (· ≠ slash) (l := path) (by rw [hrest]; simp)
        simp only [hrest, List.head_cons] at this
        simpa using this
      subst hc
      rw [hrest] at hpath
      subst hpath
      rw [show (name ++ slash :: rest).drop (name.length + 1) = rest by simp, components,
        List.splitOn_append_cons_self_of_not_mem hnot]
      by_cases hnil : name = [] <;> simp [hnil, components]

/-! ## The tree of a file system -/

/-- An inode as it is without references. -/
def INode.bare (x : INode) : InCoreINode := { Cache.emptyINode with toINode := x }

namespace FS

/-- The tree that the inodes and the directories on disk are. -/
def tree (fs : FS) : Tree where
  directory n := sIsdir (fs.seen n).fileMode
  executable n := (fs.seen n).fileMode &&& 0o100 ≠ 0
  entry n name := ((fs.disk.entries (fs.seen n).bare).find? (·.label = name)).map (·.iNodeNum)

/-- No two entries of a directory have one name. -/
def DistinctNames (d : Disk) (x : InCoreINode) : Prop := ((d.entries x).map (·.label)).Nodup

/-- A file system whose directories are a tree, with references `held` to its inodes.  The
root needs no link. -/
structure TreeState (fs : FS) (held : List NodeId) : Prop where
  coherent : Coherent fs held
  number : ∀ n, fs.tree.Reached n → n < numOfInodes
  linked : ∀ n, fs.tree.Reached n → n ≠ 0 → (fs.seen n).linksCount ≠ 0
  directory : ∀ n, fs.tree.Reached n → fs.tree.directory n → DirectoryFile fs.disk (fs.seen n).bare
  terminated : ∀ n, fs.tree.Reached n → fs.tree.directory n → NamesEnd fs.disk (fs.seen n).bare
  distinct : ∀ n, fs.tree.Reached n → fs.tree.directory n → DistinctNames fs.disk (fs.seen n).bare

/-- A reference to the inode can be had. -/
def Available (fs : FS) (held : List NodeId) (n : Nat) : Prop :=
  ∃ x : NodeId, x ∉ held ∨ (fs.inode x).iNodeNumber = n

instance (fs : FS) (held : List NodeId) (n : Nat) : Decidable (fs.Available held n) :=
  inferInstanceAs (Decidable (∃ x : NodeId, x ∉ held ∨ (fs.inode x).iNodeNumber = n))

/-! ## References on the way -/

end FS

namespace SameBlocks

variable {d d' : Disk} {x y : InCoreINode}

/-- An entry is read from the blocks of the directory alone. -/
theorem entries (h : SameBlocks d d') (heq : y.toINode = x.toINode) :
    d'.entries y = d.entries x := by
  have hat : d'.entryAt = d.entryAt := by
    funext nums i
    rw [Disk.entryAt, Disk.entryAt, h.fileBlock, h.blocks]
  rw [Disk.entries, Disk.entries, hat, Disk.entryCount, Disk.entryCount, heq]

/-- A directory that is well formed on one disk is so on the other. -/
theorem directoryFile (h : SameBlocks d d') (heq : y.toINode = x.toINode) (hx : DirectoryFile d x) :
    DirectoryFile d' y where
  own := by
    rw [h.fileBlocks, h.backend, heq]
    exact hx.own
  size := heq ▸ hx.size
  searchable := by
    rw [validateSearch, heq]
    exact hx.searchable
  whole := heq ▸ hx.whole

/-- Its names end on the other disk too. -/
theorem namesEnd (h : SameBlocks d d') (heq : y.toINode = x.toINode) (hx : NamesEnd d x) :
    NamesEnd d' y := by
  rw [NamesEnd, h.entries heq]
  exact hx

end SameBlocks

namespace FS

/-- What a path and the holders of references see is as it was. -/
structure Same (fs : FS) (held : List NodeId) (fs' : FS) : Prop where
  disk : SameBlocks fs.disk fs'.disk
  seen : ∀ n < numOfInodes, fs'.seen n = fs.seen n
  kept : ∀ x ∈ held, (fs'.inode x).iNodeNumber = (fs.inode x).iNodeNumber

/-- A state on the way from `fs`, without the reference of the way. -/
structure Resting (fs : FS) (held : List NodeId) (fs' : FS) : Prop extends Same fs held fs' where
  coherent : Coherent fs' held

/-- A state on the way from `fs`, with a reference `x` to inode `n`. -/
structure Standing (fs : FS) (held : List NodeId) (fs' : FS) (x : NodeId) (n : Nat) : Prop
    extends Same fs held fs' where
  coherent : Coherent fs' (x :: held)
  caches : fs'.Caches n x
  value : (fs'.inode x).toINode = fs.seen n
  fresh : x ∉ held → HolderState.Unmodified (fs'.inode x)

section Way

variable {fs fs' fs'' : FS} {held : List NodeId} {x : NodeId} {n : Nat}

/-- What stays the same over two steps. -/
theorem Same.trans (h : Same fs held fs') (h' : Same fs' held fs'') : Same fs held fs'' where
  disk := h.disk.trans h'.disk
  seen := fun n hn => (h'.seen n hn).trans (h.seen n hn)
  kept := fun x hx => (h'.kept x hx).trans (h.kept x hx)

/-- `iget` on the way. -/
theorem Resting.iget (h : Resting fs held fs') (hn : n < numOfInodes) (hav : fs.Available held n) :
    ∃ x fs'', fs'.iget n 0 = .ok (some x, fs'') ∧ Standing fs held fs'' x n := by
  obtain ⟨x, fs'', heq, hget⟩ | ⟨hnone, -⟩ := h.coherent.iget hn
  · have hkept : ∀ z ∈ held, (fs''.inode z).iNodeNumber = (fs'.inode z).iNodeNumber := by
      intro z hz
      by_cases hzx : z = x
      · subst hzx
        rw [hget.caches.number, hget.node.resolve_left fun hno => hno hz]
      · rw [hget.others z hzx]
    exact ⟨x, fs'', heq, h.toSame.trans ⟨hget.disk, hget.seen, hkept⟩, hget.coherent, hget.caches,
      hget.value.trans (h.seen n hn), hget.fresh⟩
  · obtain ⟨x, hx⟩ := hav
    obtain ⟨hheld, hne⟩ := hnone x
    rw [h.kept x hheld] at hne
    exact (hx.elim (fun hno => hno hheld) hne).elim

/-- Without a node for the inode, `iget` answers a null pointer and leaves the rest alone. -/
theorem Resting.iget_none (h : Resting fs held fs') (hn : n < numOfInodes)
    (hav : ¬ fs.Available held n) : ∃ fs'', fs'.iget n 0 = .ok (none, fs'') ∧ Resting fs held fs'' := by
  obtain ⟨x, fs'', -, hget⟩ | ⟨-, heq⟩ := h.coherent.iget hn
  · refine absurd ⟨x, ?_⟩ hav
    by_cases hx : x ∈ held
    · rw [← h.kept x hx]
      exact hget.node
    · exact .inl hx
  · exact ⟨_, heq, h.toSame.trans ⟨⟨rfl, rfl⟩, fun _ _ => rfl, fun _ _ => rfl⟩, h.coherent.log _⟩

/-- `iput` on the way frees nothing and writes nothing. -/
theorem Standing.iput (h : Standing fs held fs' x n) (now : UInt64)
    (hlinks : n ≠ 0 → (fs.seen n).linksCount ≠ 0) :
    ∃ fs'', fs'.iput now x = .ok (0, fs'') ∧ Resting fs held fs'' := by
  have hkept : x ∈ held ∨ (fs'.inode x).linksCount ≠ 0 ∨ n = 0 := by
    rw [h.value]
    by_cases hn : n = 0
    · exact .inr (.inr hn)
    · exact .inr (.inl (hlinks hn))
  have hlt := h.coherent.number n x h.caches
  obtain ⟨fs'', heq, hput⟩ := h.coherent.iput now h.caches hkept
  have hdisk : SameBlocks fs'.disk fs''.disk := by
    by_cases hx : x ∈ held
    · exact (hput.shared hx).2
    · exact hput.clean (h.fresh hx)
  have hseen : fs''.seen n = fs'.seen n := by
    by_cases hx : x ∈ held
    · exact (hput.shared hx).1
    · rw [(hput.last hx).1, h.value, h.seen n hlt]
  refine ⟨fs'', heq, h.toSame.trans ⟨hdisk, fun k hk => ?_, fun z _ => ?_⟩, hput.coherent⟩
  · by_cases hkn : k = n
    · rw [hkn, hseen]
    · exact (hput.others k hk hkn).1
  · rw [hput.value]

end Way

/-! ## One name -/

/-- The first entry of a name is what a search in the list of entries finds. -/
theorem find?_of_firstNamed {d : Disk} {x : InCoreINode} {name : Name} {p : Nat}
    (hp : Disk.FirstNamed d x name p) :
    (d.entries x).find? (·.label = name) = some (d.entryAt x.dataBlockNums p) := by
  have hlt : p < (d.entries x).length := by
    rw [Disk.length_entries]
    exact hp.lt
  refine List.find?_eq_some_iff_getElem.mpr ⟨by simpa using hp.label, p, hlt, Disk.getElem_entries hlt, ?_⟩
  intro j hj
  rw [Disk.getElem_entries]
  simpa using hp.first j hj

/-- Where the code goes from `n`, if there is a node for it. -/
def advance (fs : FS) (held : List NodeId) (n : Nat) (name : Name) : Option Nat :=
  (fs.tree.follow n name).filter fun m => decide (fs.Available held m)

/-- A way from `fs` that has come to a number, or to none. -/
inductive Arrives (fs : FS) (held : List NodeId) (fs' : FS) : Option NodeId → Option Nat → Prop
  | nowhere : Resting fs held fs' → Arrives fs held fs' none none
  | found {x : NodeId} {n : Nat} : Standing fs held fs' x n → fs.tree.Reached n →
      Arrives fs held fs' (some x) (some n)

namespace TreeState

variable {fs fs' : FS} {held : List NodeId} {x : NodeId} {n : Nat} {env : Env} {name : Name}

/-- A coherent state is at rest. -/
theorem resting (h : TreeState fs held) : Resting fs held fs where
  disk := .refl _
  seen := fun _ _ => rfl
  kept := fun _ _ => rfl
  coherent := h.coherent

/-- An inode of the tree has its own number. -/
theorem iNodeNumber (h : TreeState fs held) (hn : fs.tree.Reached n) : (fs.seen n).iNodeNumber = n :=
  h.coherent.seen_number (h.number n hn)

/-- A search on the way: the name is not there, or is there, or the inode is no
directory. -/
theorem search_eq (h : TreeState fs held) (hx : Standing fs held fs' x n) (hn : fs.tree.Reached n)
    (h0 : (0 : UInt8) ∉ name) (env : Env) (buf : Nat → DirectoryEntry) :
    ∃ ret buf', searchINodeDirectoryEntries env x (some name) 0 buf 0 false fs' =
        .ok ((ret, buf'), fs') ∧
      (fs.tree.directory n ∧ fs.tree.entry n name = none ∧ ret = 0 ∨
        (fs.tree.directory n ∧ ∃ e : DirectoryEntry, fs.tree.entry n name = some e.iNodeNum ∧ ret = 1 ∧
          buf' 0 = (buf 0).overlay e) ∨
        ¬ fs.tree.directory n ∧ ret = -1 ∧ buf' = buf) := by
  have hval : (fs'.inode x).toINode = (fs.seen n).bare.toINode := hx.value
  by_cases hdir : fs.tree.directory n
  · have hfile := hx.disk.directoryFile hval (h.directory n hn hdir)
    have hends := hx.disk.namesEnd hval (h.terminated n hn hdir)
    have hentry : fs.tree.entry n name =
        ((fs'.disk.entries (fs'.inode x)).find? (·.label = name)).map (·.iNodeNum) := by
      rw [hx.disk.entries hval]
      rfl
    obtain ⟨p, hp⟩ | hno := Disk.exists_firstNamed fs'.disk (fs'.inode x) name
    · refine ⟨_, _, searchINodeDirectoryEntries_ok
        (Disk.search_found hfile (hp.firstMatch h0 hends) env buf 0), .inr (.inl ⟨hdir, _, ?_, rfl, rfl⟩)⟩
      rw [hentry, find?_of_firstNamed hp]
      rfl
    · refine ⟨_, _, searchINodeDirectoryEntries_ok
        (Disk.search_absent hfile (Disk.matchAt_absent h0 hends hno) env buf 0), .inl ⟨hdir, ?_, rfl⟩⟩
      rw [hentry, List.find?_eq_none.mpr fun e he => by simpa using hno e he]
      rfl
  · have hsearch : fs'.disk.searchINodeDirectoryEntries env (fs'.inode x) (some name) 0 buf 0 false =
        .ok (-1, buf, fs'.disk) := by
      rw [Disk.searchINodeDirectoryEntries, if_pos]
      rw [validateSearch, hval]
      exact hdir
    exact ⟨_, _, searchINodeDirectoryEntries_ok hsearch, .inr (.inr ⟨hdir, rfl, rfl⟩)⟩

/-- What `operate` takes for the entry. -/
theorem operateEntry_eq (h : TreeState fs held) (hx : Standing fs held fs' x n)
    (hn : fs.tree.Reached n) (hname : name ≠ []) (h0 : (0 : UInt8) ∉ name) (env : Env) :
    ∃ entry, operateEntry env name x fs' = .ok (entry, fs') ∧
      entry.map (·.iNodeNum) = fs.tree.follow n name := by
  obtain ⟨ret, buf, hsearch, hcases⟩ := h.search_eq hx hn h0 env fun _ => emptyEntry
  rw [operateEntry, if_neg hname]
  refine ⟨_, NaoM.bind_eq_ok.mpr ⟨_, _, hsearch, rfl⟩, ?_⟩
  rw [Tree.follow]
  obtain ⟨hdir, hentry, rfl⟩ | ⟨hdir, e, hentry, rfl, hbuf⟩ | ⟨hdir, rfl, rfl⟩ := hcases
  · rw [if_pos hdir, hentry]
    rfl
  · rw [if_pos hdir, hentry, hbuf,
      DirectoryEntry.overlay_of_lt (show emptyEntry.iNodeNum < 65536 by decide)]
    rfl
  · rw [if_neg hdir]
    rfl

/-- **One name on the way.** -/
theorem operate_arrives (h : TreeState fs held) (hx : Standing fs held fs' x n)
    (hn : fs.tree.Reached n) (hname : name ≠ []) (h0 : (0 : UInt8) ∉ name) (env : Env) :
    ∃ r fs'', operate env name (some x) fs' = .ok (r, fs'') ∧
      Arrives fs held fs'' r (fs.advance held n name) := by
  obtain ⟨entry, hentry, hfollow⟩ := h.operateEntry_eq hx hn hname h0 env
  obtain ⟨fs₁, hput, hrest⟩ := hx.iput env.now (h.linked n hn)
  rw [operate_eq env hname, advance, ← hfollow]
  cases entry with
  | none =>
      refine ⟨none, fs₁, ?_, .nowhere hrest⟩
      exact NaoM.bind_eq_ok.mpr ⟨_, _, hentry, NaoM.bind_eq_ok.mpr ⟨_, _, hput, rfl⟩⟩
  | some entry =>
      have hm : fs.tree.Reached entry.iNodeNum := hn.follow hfollow.symm
      have hlt := h.number _ hm
      simp only [Option.map_some, Option.filter_some, decide_eq_true_eq]
      by_cases hav : fs.Available held entry.iNodeNum
      · obtain ⟨y, fs₂, hget, hstand⟩ := hrest.iget hlt hav
        rw [if_pos hav]
        refine ⟨some y, fs₂, ?_, .found hstand hm⟩
        exact NaoM.bind_eq_ok.mpr ⟨_, _, hentry, NaoM.bind_eq_ok.mpr ⟨_, _, hput, hget⟩⟩
      · obtain ⟨fs₂, hget, hrest'⟩ := hrest.iget_none hlt hav
        rw [if_neg hav]
        refine ⟨none, fs₂, ?_, .nowhere hrest'⟩
        exact NaoM.bind_eq_ok.mpr ⟨_, _, hentry, NaoM.bind_eq_ok.mpr ⟨_, _, hput, hget⟩⟩

/-! ## A whole path -/

/-- The loop over the names that are left. -/
theorem getFileINodeLoop_arrives (h : TreeState fs held) (env : Env) : ∀ (fuel : Nat) (path : Name)
    {fs' : FS} {x : NodeId} {n : Nat}, Standing fs held fs' x n → fs.tree.Reached n →
    (0 : UInt8) ∉ path → path.length < fuel →
    ∃ r fs'', getFileINodeLoop env fuel path (some x) fs' = .ok (r, fs'') ∧
      Arrives fs held fs'' r ((components path).foldlM (fs.advance held) n) := by
  intro fuel
  induction fuel with
  | zero => exact fun path _ _ _ _ _ _ hlen => absurd hlen (Nat.not_lt_zero _)
  | succ fuel ih =>
      intro path fs' x n hx hn h0 hlen
      rw [getFileINodeLoop]
      by_cases hnil : path = []
      · rw [if_pos hnil, hnil]
        exact ⟨some x, fs', rfl, .found hx hn⟩
      rw [if_neg hnil, components_eq]
      have hpos := List.length_pos_iff.mpr hnil
      generalize hname : path.takeWhile (· ≠ slash) = name
      have h0name : (0 : UInt8) ∉ name := fun hmem =>
        h0 (List.takeWhile_sublist _ |>.subset (hname ▸ hmem))
      have h0rest : (0 : UInt8) ∉ path.drop (name.length + 1) := fun hmem =>
        h0 (List.mem_of_mem_drop hmem)
      have hrest : (path.drop (name.length + 1)).length < fuel := by
        rw [List.length_drop]
        omega
      have hnext : ∀ {r : Option NodeId} {fs₁ : FS}, operate env name (some x) fs' = .ok (r, fs₁) →
          processNextLevel env path (some x) fs' = .ok ((r, path.drop (name.length + 1)), fs₁) := by
        intro r fs₁ hop
        rw [← hname] at hop ⊢
        exact NaoM.bind_eq_ok.mpr ⟨_, _, hop, rfl⟩
      by_cases hempty : name = []
      · have hstay : operate env name (some x) fs' = .ok (some x, fs') := by
          rw [operate, if_pos hempty]
          rfl
        obtain ⟨r, fs'', hloop, harr⟩ := ih _ hx hn h0rest hrest
        rw [if_pos hempty, List.nil_append]
        exact ⟨r, fs'', NaoM.bind_eq_ok.mpr ⟨_, _, hnext hstay, hloop⟩, harr⟩
      · obtain ⟨r, fs₁, hop, harr⟩ := h.operate_arrives hx hn hempty h0name env
        rw [if_neg hempty, List.singleton_append, List.foldlM_cons]
        generalize hadv : fs.advance held n name = m at harr ⊢
        cases harr with
        | nowhere hrest => exact ⟨none, fs₁, NaoM.bind_eq_ok.mpr ⟨_, _, hnext hop, rfl⟩, .nowhere hrest⟩
        | found hy hm =>
            obtain ⟨r, fs'', hloop, harr'⟩ := ih _ hy hm h0rest hrest
            exact ⟨r, fs'', NaoM.bind_eq_ok.mpr ⟨_, _, hnext hop, hloop⟩, harr'⟩

/-- **The run of `getFileINode`.** -/
theorem getFileINode_arrives (h : TreeState fs held) (env : Env) {path : Name}
    (h0 : (0 : UInt8) ∉ path) (hroot : fs.Available held 0) :
    ∃ r fs', getFileINode env (slash :: path) fs = .ok (r, fs') ∧
      Arrives fs held fs' r ((components path).foldlM (fs.advance held) 0) := by
  obtain ⟨x, fs₁, hget, hx⟩ := h.resting.iget (show 0 < numOfInodes by decide) hroot
  obtain ⟨r, fs', hloop, harr⟩ := h.getFileINodeLoop_arrives env (path.length + 1) path hx .refl h0
    (Nat.lt_succ_self _)
  exact ⟨r, fs', NaoM.bind_eq_ok.mpr ⟨_, _, hget, hloop⟩, harr⟩

end TreeState

/-! ## The law -/

/-- `getFileINode` returns a reference to the inode that the path names, and `NULL` if it
names none. -/
def Resolves (env : Env) (fs : FS) (path : Name) : Prop :=
  match fs.tree.resolve path with
  | none => ∃ fs', getFileINode env path fs = .ok (none, fs')
  | some n => ∃ x fs', getFileINode env path fs = .ok (some x, fs') ∧
      (fs'.inode x).toINode = fs.seen n

section Law

variable {fs : FS} {held : List NodeId} {path : Name}

/-- A slash in front adds no component. -/
theorem components_slash (path : Name) : components (slash :: path) = components path :=
  components_eq (slash :: path)

/-- What a lookup finds is in the tree. -/
theorem reached_of_lookup {t : Tree} (names : List Name) {n m : Nat} (hn : t.Reached n)
    (h : names.foldlM t.lookup n = some m) : t.Reached m :=
  hn.foldlM names (foldlM_of_some (fun _ _ _ => Tree.follow_of_lookup) names h)

/-- One node that is idle is enough for any inode. -/
theorem TreeState.available (h : TreeState fs held) (hfree : ∃ x, (fs.inode x).referenceCount = 0)
    (n : Nat) : fs.Available held n := by
  obtain ⟨x, hx⟩ := hfree
  exact ⟨x, .inl (h.coherent.idle_iff.mp hx)⟩

/-- With a free node the code is only held up by the tree. -/
theorem TreeState.advance_eq (h : TreeState fs held)
    (hfree : ∃ x, (fs.inode x).referenceCount = 0) : fs.advance held = fs.tree.follow := by
  funext n name
  have hall : (fun m => decide (fs.Available held m)) = fun _ => true :=
    funext fun m => decide_eq_true (h.available hfree m)
  rw [advance, hall]
  cases fs.tree.follow n name <;> rfl

/-- With a node to spare, the code finds what the path means exactly if its steps lead there. -/
theorem resolves_iff_followed (h : TreeState fs held)
    (hfree : ∃ x, (fs.inode x).referenceCount = 0) (env : Env) (h0 : (0 : UInt8) ∉ path) :
    Resolves env fs (slash :: path) ↔
      (components (slash :: path)).foldlM fs.tree.follow 0 = fs.tree.resolve (slash :: path) := by
  obtain ⟨r, fs', hrun, harr⟩ := h.getFileINode_arrives env h0 (h.available hfree 0)
  rw [h.advance_eq hfree, ← components_slash] at harr
  rw [Resolves, hrun]
  generalize (components (slash :: path)).foldlM fs.tree.follow 0 = followed at harr ⊢
  cases hres : fs.tree.resolve (slash :: path) with
  | none => cases harr <;> simp
  | some m =>
      have hm := h.iNodeNumber (reached_of_lookup _ .refl hres)
      cases harr with
      | nowhere hrest => simp
      | found hx hn =>
          next x n =>
          have hn := h.iNodeNumber hn
          constructor
          · rintro ⟨y, fs'', heq, hval⟩
            cases heq
            rw [hx.value] at hval
            rw [← hn, ← hm, hval]
          · rintro ⟨⟩
            exact ⟨x, fs', rfl, hx.value⟩

/-- **When `getFileINode` resolves a path.**  It does unless the path goes on behind an
inode that may not be searched and all the names that are left are found by the code. -/
theorem resolves_iff (h : TreeState fs held) (hfree : ∃ x, (fs.inode x).referenceCount = 0)
    (env : Env) (h0 : (0 : UInt8) ∉ path) :
    Resolves env fs (slash :: path) ↔ ¬ fs.tree.Strays (slash :: path) :=
  (resolves_iff_followed h hfree env h0).trans (fs.tree.follow_eq_resolve_iff _)

end Law

/-! ## A name behind a file -/

/-- After the mount no node is in use, and the inodes are those on disk. -/
theorem coherent_mount {getHash : Nat → Nat → Fin inodeHashSize} {d : Disk} {fs : FS}
    (hd : HolderState.Numbered d)
    (hmount : mount getHash d = .ok fs) : Coherent fs [] ∧ fs.seen = d.diskINode := by
  have hinv := HolderState.Inv.initial hd hmount
  have hno : ∀ n x, ¬ fs.Caches n x := fun n x hx => by
    obtain ⟨⟨i, hi⟩, -⟩ := (caches_iff hinv.cache.lists).mp hx
    cases hi
  have hdisk : fs.disk = d := by
    obtain ⟨c, -, heq⟩ := bind_eq_ok.mp hmount
    cases heq
    rfl
  refine ⟨⟨⟨_, _, hinv.cache⟩, hinv.stored, hinv.table, fun n x hx => absurd hx (hno n x),
    fun n x hx => absurd hx (hno n x), hinv.idle, fun n x hx => absurd hx (hno n x)⟩, ?_⟩
  funext n
  rw [seen_of_uncached (hno n), hdisk]

/-- A root with one block. -/
def smallRoot : INode :=
  { initializeINode 0 with
    type := .directory, fileMode := rootMode, linksCount := 2, size := 64
    dataBlockNums := (Buffer.tabulate fun _ => 0 : Buffer Nat blocksInInode).poke 0 16388 }

/-- A regular file, of mode 0644. -/
def smallFile : INode :=
  { initializeINode 1 with type := .regular, fileMode := 0o100644, linksCount := 1 }

/-- The file `f`. -/
def smallBlock : DiskBlock :=
  DirectoryEntry.put (.tabulate fun _ => 0) 0 (fun i => if i = 0 then 0x66 else 0) 1

/-- A file is added to an empty file system. -/
def withFile (d : Disk) : Disk :=
  ((((d.getNewINode 0 .regular 0o100644 0 0).2.blockAlloc.2.store 16388 smallBlock).writeDiskInode 0
    smallRoot).2.writeDiskInode 1 smallFile).2

section FileTree

/-- The fields of the root that `createFile` leaves are in range. -/
theorem fits_smallRoot : smallRoot.Fits where
  deviceNumber := by decide
  iNodeNumber := by decide
  linksCount := by decide
  dataBlockNums := by
    intro i hi
    change (Buffer.poke _ 0 16388).peek i < 2 ^ 64
    rw [Buffer.peek_poke, Buffer.peek_tabulate]
    split
    · decide
    · decide
  size := by decide

/-- The fields of the new file are in range. -/
theorem fits_smallFile : smallFile.Fits where
  deviceNumber := by decide
  iNodeNumber := by decide
  linksCount := by decide
  dataBlockNums := (fits_initializeINode 1).dataBlockNums
  size := by decide

section Disk

variable {d : Disk} (hcap : dataRegionStart < d.backend.capacity)
  (hlisted : listed (d.blocks 3) 0 = 1)

include hcap hlisted

/-- Only inode 1 is taken from the list, and written. -/
theorem getNewINode_first :
    (d.getNewINode 0 .regular 0o100644 0 0).2.backend = d.backend ∧
      ∀ n, n ≠ 1 → (d.getNewINode 0 .regular 0o100644 0 0).2.diskINode n = d.diskINode n := by
  have hne : listed (d.blocks 3) 0 ≠ 0 := by
    rw [hlisted]
    exact Nat.one_ne_zero
  obtain ⟨-, hback, -, hothers⟩ := Disk.getNewINode_take hcap.le (k := 0)
    (fun i hi => absurd hi (Nat.not_lt_zero i)) 0 .regular 0o100644 0 0 (by decide) hne
  rw [hlisted] at hothers
  exact ⟨hback, hothers⟩

/-- Making the file does not change where blocks are stored. -/
theorem backend_withFile : (withFile d).backend = d.backend := by
  simp [withFile, (getNewINode_first hcap hlisted).1]

/-- The inodes of that disk: the root, the file, and the rest as they were made. -/
theorem diskINode_withFile (htable : ∀ n, n ≠ 0 → n < numOfInodes → d.diskINode n = initializeINode n)
    {n : Nat} (hn : n < numOfInodes) : (withFile d).diskINode n =
      if n = 0 then smallRoot else if n = 1 then smallFile else initializeINode n := by
  obtain ⟨hback, hothers⟩ := getNewINode_first hcap hlisted
  have hcap' : dataRegionStart ≤ (d.getNewINode 0 .regular 0o100644 0 0).2.backend.capacity := by
    rw [hback]
    exact hcap.le
  rw [withFile]
  by_cases h1 : n = 1
  · subst h1
    rw [Disk.diskINode_writeDiskInode_self _ (by simpa using hcap') hn fits_smallFile]
    rfl
  rw [Disk.diskINode_writeDiskInode_of_ne _ (by simpa using hcap') (by decide) _ h1, if_neg h1]
  by_cases h0 : n = 0
  · subst h0
    rw [Disk.diskINode_writeDiskInode_self _ (by simpa using hcap') hn fits_smallRoot]
    rfl
  rw [Disk.diskINode_writeDiskInode_of_ne _ (by simpa using hcap') (by decide) _ h0, if_neg h0,
    ← htable n h0 hn, ← hothers n h1]
  refine Disk.diskINode_congr _ ?_
  have hblock : n / 4 + 4 < 16388 := by
    simp only [numOfInodes] at hn
    omega
  rw [Disk.blocks_store_of_ne _ (by omega), Disk.blocks_blockAlloc_of_ne _ (by omega)]

/-- The root has the one entry `f`. -/
theorem entries_withFile : (withFile d).entries smallRoot.bare =
    [⟨.tabulate fun i => if i = 0 then 0x66 else 0, 1⟩] := by
  have hback := (getNewINode_first hcap hlisted).1
  have hfile : (withFile d).fileBlock smallRoot.dataBlockNums 0 = 16388 := by
    rw [Disk.fileBlock, if_pos (by decide)]
    exact Buffer.peek_poke_self _ (by decide) _
  have hblock : (withFile d).blocks 16388 = smallBlock := by
    rw [withFile, Disk.blocks_writeDiskInode_data _ _ (by decide),
      Disk.blocks_writeDiskInode_data _ _ (by decide),
      Disk.blocks_store_self _ (by simpa [hback] using hcap)]
  have hentry : (withFile d).entryAt smallRoot.dataBlockNums 0 =
      ⟨.tabulate fun i => if i = 0 then 0x66 else 0, 1⟩ := by
    rw [Disk.entryAt, Nat.zero_div, hfile, hblock]
    exact DirectoryEntry.decode_put_self _ (show 0 + 64 ≤ 1024 by decide) _ 1
  exact congrArg (fun e => [e]) hentry

end Disk

/-- Each inode of that disk has its own number. -/
theorem numbered_withFile {d : Disk} (hcap : dataRegionStart < d.backend.capacity)
    (hlisted : listed (d.blocks 3) 0 = 1)
    (htable : ∀ n, n ≠ 0 → n < numOfInodes → d.diskINode n = initializeINode n) :
    HolderState.Numbered (withFile d) := by
  refine ⟨by rw [backend_withFile hcap hlisted]; exact hcap.le, fun n hn => ?_⟩
  rw [diskINode_withFile hcap hlisted htable hn]
  split
  · next h0 => exact ⟨h0.symm, rfl⟩
  · split
    · next h1 => exact ⟨h1.symm, rfl⟩
    · exact ⟨if_neg (Nat.not_le.mpr hn), rfl⟩

/-- **A file system with one file**, mounted. -/
theorem exists_fileTree : ∃ fs : FS, TreeState fs [] ∧ (∀ x, (fs.inode x).referenceCount = 0) ∧
    fs.seen 0 = smallRoot ∧ fs.seen 1 = smallFile ∧ fs.tree.entry 0 [0x66] = some 1 := by
  obtain ⟨d, hcap, hlisted, htable⟩ : ∃ d : Disk, dataRegionStart < d.backend.capacity ∧
      listed (d.blocks 3) 0 = 1 ∧
      ∀ n, n ≠ 0 → n < numOfInodes → d.diskINode n = initializeINode n := by
    refine ⟨AllocState.smallDisk.makeFileSystem, ?_, AllocState.smallDisk.listed_makeFileSystem (by decide),
      fun n h0 hn => AllocState.smallDisk.diskINode_makeFileSystem h0 hn⟩
    rw [Disk.backend_makeFileSystem]
    decide
  obtain ⟨fs, hmount, hdisk⟩ := exists_mount (fun _ _ => 0) (withFile d)
  obtain ⟨hcoherent, hseen⟩ := coherent_mount (numbered_withFile hcap hlisted htable) hmount
  have h0 : fs.seen 0 = smallRoot := by
    rw [hseen, diskINode_withFile hcap hlisted htable (by decide)]
    rfl
  have h1 : fs.seen 1 = smallFile := by
    rw [hseen, diskINode_withFile hcap hlisted htable (by decide)]
    rfl
  have hentries : fs.disk.entries (fs.seen 0).bare =
      [⟨.tabulate fun i => if i = 0 then 0x66 else 0, 1⟩] := by
    rw [hdisk, h0, entries_withFile hcap hlisted]
  have hentry : ∀ {name m}, fs.tree.entry 0 name = some m → m = 1 := by
    intro name m hm
    obtain ⟨e, he, rfl⟩ := Option.map_eq_some_iff.mp hm
    have hmem := List.mem_of_find?_eq_some he
    rw [hentries, List.mem_singleton] at hmem
    rw [hmem]
  have hfile : ¬ fs.tree.directory 1 := by
    change ¬ sIsdir (fs.seen 1).fileMode
    rw [h1]
    decide
  have hreached : ∀ n, fs.tree.Reached n → n = 0 ∨ n = 1 := by
    intro n hn
    induction hn with
    | refl => exact .inl rfl
    | tail _ hnext ih =>
        obtain ⟨hdir, name, hname⟩ := hnext
        obtain rfl | rfl := ih
        · exact .inr (hentry hname)
        · exact absurd hdir hfile
  have hdir : ∀ n, fs.tree.Reached n → fs.tree.directory n → n = 0 := fun n hn hdir =>
    (hreached n hn).resolve_right fun h => hfile (h ▸ hdir)
  refine ⟨fs, ⟨hcoherent, ?_, ?_, ?_, ?_, ?_⟩, ?_, h0, h1, ?_⟩
  · rintro n hn
    obtain rfl | rfl := hreached n hn <;> decide
  · rintro n hn hne
    obtain rfl | rfl := hreached n hn
    · exact absurd rfl hne
    · rw [h1]
      decide
  · intro n hn hd
    obtain rfl := hdir n hn hd
    rw [h0, hdisk]
    have hfile := Disk.directoryFile_oneBlock (d := withFile d) (by rwa [backend_withFile hcap hlisted])
      (show 0 < 64 by decide) (by decide) (by decide)
    exact ⟨⟨hfile.own, hfile.size⟩, by decide, hfile.whole⟩
  · intro n hn hd e he
    obtain rfl := hdir n hn hd
    rw [hentries, List.mem_singleton] at he
    subst he
    exact ⟨1, by decide, rfl⟩
  · intro n hn hd
    obtain rfl := hdir n hn hd
    rw [DistinctNames, hentries]
    exact List.nodup_singleton _
  · exact fun x => hcoherent.counts x
  · change Option.map _ (List.find? _ (fs.disk.entries (fs.seen 0).bare)) = _
    rw [hentries]
    decide

section Steps

variable {fs : FS} (h0 : fs.seen 0 = smallRoot) (h1 : fs.seen 1 = smallFile)
  (hentry : fs.tree.entry 0 [0x66] = some 1)

include h0 hentry in
/-- The file has the name `f` in the root. -/
theorem lookup_file : fs.tree.lookup 0 [0x66] = some 1 := by
  rw [Tree.lookup, if_pos, hentry]
  simp only [tree, h0]
  decide

include h1 in
/-- The file is a regular one. -/
theorem file_not_directory : ¬ fs.tree.directory 1 := by
  simp only [tree, h1]
  decide

end Steps

/-- A path on which the code and the meaning agree. -/
theorem resolves_file : ∃ fs : FS, fs.tree.resolve [slash, 0x66] = some 1 ∧
    Resolves blankEnv fs [slash, 0x66] := by
  obtain ⟨fs, htree, hidle, h0, h1, hentry⟩ := exists_fileTree
  refine ⟨fs, ?_, (resolves_iff htree ⟨0, hidle 0⟩ blankEnv (by decide)).mpr ?_⟩
  · rw [Tree.resolve, show components [slash, 0x66] = [[0x66]] by decide, List.foldlM_cons,
      lookup_file h0 hentry]
    rfl
  · rintro ⟨pre, name, post, n, hl, hpre, hdir, -⟩
    rw [show components [slash, 0x66] = [[0x66]] by decide] at hl
    cases pre with
    | nil =>
        cases hl
        cases hpre
        exact hdir (by simp only [tree, h0]; decide)
    | cons a pre => simp at hl

/-- The path `/f/x` leads to the root. -/
theorem resolves_behind_file : ¬ ∀ (env : Env) (fs : FS) (held : List NodeId) (path : Name),
    TreeState fs held → (∃ x, (fs.inode x).referenceCount = 0) → (0 : UInt8) ∉ path →
    Resolves env fs (slash :: path) := by
  intro hall
  obtain ⟨fs, htree, hidle, h0, h1, hentry⟩ := exists_fileTree
  have hlookup := lookup_file h0 hentry
  have hres := hall blankEnv fs [] [0x66, slash, 0x78] htree ⟨0, hidle 0⟩ (by decide)
  rw [resolves_iff_followed htree ⟨0, hidle 0⟩ blankEnv (by decide), Tree.resolve,
    show components [slash, 0x66, slash, 0x78] = [[0x66], [0x78]] by decide, List.foldlM_cons,
    List.foldlM_cons, hlookup, Tree.follow_of_lookup hlookup] at hres
  have hfile := file_not_directory h1
  simp [Tree.follow, Tree.lookup, hfile] at hres

end FileTree

end FS

end Naofs
