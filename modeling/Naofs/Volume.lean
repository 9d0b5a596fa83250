import Naofs.Callbacks
import Naofs.SwapRemove
import Naofs.Visibility

/-!
# Naofs.Volume

What a file system is for its users.

A `Volume` has files by number and descriptors that are open.  A file has the entries of a
directory or bytes; blocks, inodes, the cache and the free lists do not occur.  `Step` is
one operation on a volume: its reply, and the volume after it.  Files that no way from the
root leads to are not seen, so that volumes are compared on the others (`Agrees`).
-/

namespace Naofs

open Function (update update_self update_of_ne)

/-! ## Files -/

/-- What is in a file. -/
inductive Content where
  | entries (entries : List (Name × Nat))
  | bytes (bytes : List UInt8)

structure File where
  mode : UInt32
  uid : UInt32
  gid : UInt32
  content : Content

namespace File

variable (f : File)

def isDirectory : Bool :=
  match f.content with
  | .entries _ => true
  | .bytes _ => false

def entries : List (Name × Nat) :=
  match f.content with
  | .entries entries => entries
  | .bytes _ => []

def bytes : List UInt8 :=
  match f.content with
  | .entries _ => []
  | .bytes bytes => bytes

/-- The size of a directory is that of its entries. -/
def size : Nat :=
  match f.content with
  | .entries entries => directoryEntrySize * entries.length
  | .bytes bytes => bytes.length

/-- A directory stays one. -/
def chmod (mode : UInt32) : File :=
  { f with mode := if f.isDirectory then InCoreINode.sIfdir ||| mode else mode }

def chown (uid gid : UInt32) : File :=
  { f with
    uid := if uid = InCoreINode.noId then f.uid else uid
    gid := if gid = InCoreINode.noId then f.gid else gid }

/-- One more entry. -/
def link (name : Name) (n : Nat) : File := { f with content := .entries (f.entries ++ [(name, n)]) }

/-- The last entry takes the place of the one with the name. -/
def unlink (name : Name) : File :=
  { f with content := .entries (swapRemove f.entries (f.entries.findIdx (·.1 = name))) }

/-- Bytes are written over those from `offset` on. -/
def write (offset : Nat) (data : List UInt8) : File :=
  { f with content := .bytes (f.bytes.take offset ++ data ++ f.bytes.drop (offset + data.length)) }

/-- The file is cut off, or filled up with zeros. -/
def truncate (size : Nat) : File :=
  { f with content := .bytes (f.bytes.take size ++ List.replicate (size - f.bytes.length) 0) }

/-- A regular file has no entries. -/
theorem entries_eq_nil {f : File} (h : f.isDirectory = false) : f.entries = [] := by
  obtain ⟨_, _, _, entries | bytes⟩ := f
  · cases h
  · rfl

end File

/-- A new file `m` in the directory `n`. -/
def newFile (fileType : INodeType) (mode uid gid : UInt32) (n m : Nat) : File :=
  if fileType = .directory then
    ⟨InCoreINode.sIfdir ||| mode, uid, gid, .entries [([0x2e], m), ([0x2e, 0x2e], n)]⟩
  else ⟨mode, uid, gid, .bytes []⟩

/-! ## Trees that agree where they are reached -/

namespace Tree

variable {t t' : Tree}

/-- A path in one tree is a path in a tree that agrees on it. -/
theorem Reached.of_agrees (h : ∀ n, t.Reached n →
      t'.directory n = t.directory n ∧ (t.directory n → t'.entry n = t.entry n)) {n : Nat}
    (hn : t.Reached n) : t'.Reached n := by
  induction hn with
  | refl => exact .refl
  | @tail k _ hk hnext ih =>
      obtain ⟨hdir, name, hname⟩ := hnext
      obtain ⟨hdir', hentry⟩ := h k hk
      exact ih.tail ⟨hdir'.trans hdir, name, by rw [hentry hdir, hname]⟩

/-- Trees that agree on what one reaches reach the same. -/
theorem reached_congr (h : ∀ n, t.Reached n →
      t'.directory n = t.directory n ∧ (t.directory n → t'.entry n = t.entry n)) {n : Nat} :
    t'.Reached n ↔ t.Reached n := by
  refine ⟨fun hn => ?_, .of_agrees h⟩
  induction hn with
  | refl => exact .refl
  | tail _ hnext ih =>
      obtain ⟨hdir, name, hname⟩ := hnext
      obtain ⟨hdir', hentry⟩ := h _ ih
      have hdir'' := hdir'.symm.trans hdir
      exact ih.tail ⟨hdir'', name, by rw [← hentry hdir'', hname]⟩

/-- A file that is no directory has one name. -/
def SingleNamed (t : Tree) : Prop :=
  ∀ ⦃i j m : Nat⦄ ⦃name name' : Name⦄, t.Reached i → t.directory i → t.entry i name = some m →
    t.Reached j → t.directory j → t.entry j name' = some m → t.directory m = false → i = j ∧ name = name'

/-- A name that leads on from a file leads to one that is reached. -/
theorem Reached.entry {n m : Nat} {name : Name} (hn : t.Reached n) (hdir : t.directory n)
    (hname : t.entry n name = some m) : t.Reached m := hn.tail ⟨hdir, name, hname⟩

/-- Single names in the one tree are single names in the other. -/
theorem SingleNamed.congr (hs : t.SingleNamed) (h : ∀ n, t.Reached n →
      t'.directory n = t.directory n ∧ (t.directory n → t'.entry n = t.entry n)) : t'.SingleNamed := by
  intro i j m name name' hi hdiri hname hj hdirj hname' hm
  rw [reached_congr h] at hi hj
  rw [(h i hi).1] at hdiri
  rw [(h j hj).1] at hdirj
  rw [(h i hi).2 hdiri] at hname
  rw [(h j hj).2 hdirj] at hname'
  rw [(h m (hi.entry hdiri hname)).1] at hm
  exact hs hi hdiri hname hj hdirj hname' hm

end Tree

/-! ## Volumes -/

structure Volume where
  file : Nat → File
  /-- The file of a descriptor. -/
  opened : Nat → Option Nat

namespace Volume

def tree (v : Volume) : Tree where
  directory n := (v.file n).isDirectory
  executable n := (v.file n).mode &&& 0o100 ≠ 0
  entry n name := ((v.file n).entries.find? (·.1 = name)).map (·.2)

/-- Where a path leads.  A name behind a regular file leads back to the root. -/
def leads (v : Volume) (path : Name) : Option Nat := (components path).foldlM v.tree.follow 0

/-- The volumes do not differ in what can be seen. -/
structure Agrees (v w : Volume) : Prop where
  file : ∀ n, v.tree.Reached n → w.file n = v.file n
  opened : w.opened = v.opened

/-- A file has changed. -/
def modify (v : Volume) (n : Nat) (f : File → File) : Volume :=
  { v with file := update v.file n (f (v.file n)) }

/-- A directory has a new file. -/
def insert (v : Volume) (n : Nat) (name : Name) (m : Nat) (f : File) : Volume :=
  { v with file := update (update v.file n ((v.file n).link name m)) m f }

def openAt (v : Volume) (fd n : Nat) : Volume := { v with opened := update v.opened fd (some n) }

def close (v : Volume) (fd : Nat) : Volume := { v with opened := update v.opened fd none }

/-- The names of a directory are different, a regular file has one of them, and what is open
is there. -/
structure Sound (v : Volume) : Prop where
  root : (v.file 0).isDirectory
  names : ∀ n, v.tree.Reached n → ((v.file n).entries.map Prod.fst).Nodup
  single : v.tree.SingleNamed
  opened : ∀ fd n, v.opened fd = some n → v.tree.Reached n

section Agrees

variable {v w u : Volume}

theorem Agrees.refl (v : Volume) : v.Agrees v := ⟨fun _ _ => rfl, rfl⟩

section File

variable {n : Nat} (h : w.file n = v.file n)

include h

theorem directory_congr : w.tree.directory n = v.tree.directory n := congrArg File.isDirectory h

/-- A directory of the same contents has the same entries. -/
theorem entry_congr : w.tree.entry n = v.tree.entry n := by
  funext name
  simp only [tree, h]

/-- The same file leads on to the same files. -/
theorem follow_congr : w.tree.follow n = v.tree.follow n := by
  funext name
  rw [Tree.follow, Tree.follow, directory_congr h, entry_congr h]

end File

/-- Volumes that agree reach the same files. -/
theorem Agrees.reached (h : v.Agrees w) {n : Nat} : w.tree.Reached n ↔ v.tree.Reached n :=
  Tree.reached_congr fun n hn => ⟨directory_congr (h.file n hn), fun _ => entry_congr (h.file n hn)⟩

/-- They agree both ways. -/
theorem Agrees.symm (h : v.Agrees w) : w.Agrees v :=
  ⟨fun n hn => (h.file n (h.reached.mp hn)).symm, h.opened.symm⟩

/-- Agreement is passed on. -/
theorem Agrees.trans (h : v.Agrees w) (h' : w.Agrees u) : v.Agrees u :=
  ⟨fun n hn => (h'.file n (h.reached.mpr hn)).trans (h.file n hn), h'.opened.trans h.opened⟩

/-- On the files that are reached, the code goes the same way in both. -/
theorem Agrees.foldlM_eq (h : v.Agrees w) : ∀ (names : List Name) {n : Nat}, v.tree.Reached n →
    names.foldlM w.tree.follow n = names.foldlM v.tree.follow n := by
  intro names
  induction names with
  | nil => exact fun _ => rfl
  | cons name names ih =>
      intro n hn
      rw [List.foldlM_cons, List.foldlM_cons, follow_congr (h.file n hn)]
      cases hnext : v.tree.follow n name with
      | none => rfl
      | some m => exact ih (hn.follow hnext)

/-- Every path leads to the same file. -/
theorem Agrees.leads (h : v.Agrees w) (path : Name) : w.leads path = v.leads path :=
  h.foldlM_eq _ .refl

/-- A volume that agrees with a sound one is sound. -/
theorem Agrees.sound (h : v.Agrees w) (hs : w.Sound) : v.Sound where
  root := by
    rw [← h.file 0 .refl]
    exact hs.root
  names := by
    intro n hn
    rw [← h.file n hn]
    exact hs.names n (h.reached.mpr hn)
  single := by
    refine hs.single.congr fun n hn => ?_
    have hfile := h.symm.file n hn
    exact ⟨directory_congr hfile, fun _ => entry_congr hfile⟩
  opened := by
    intro fd n hfd
    rw [← h.opened] at hfd
    exact h.reached.mp (hs.opened fd n hfd)

/-- A file is opened in both. -/
theorem Agrees.openAt (h : v.Agrees w) (fd n : Nat) : (v.openAt fd n).Agrees (w.openAt fd n) := by
  refine ⟨h.file, ?_⟩
  change update w.opened fd (some n) = update v.opened fd (some n)
  rw [h.opened]

end Agrees

end Volume

/-! ## Operations -/

/-- What `getattr` tells about a file.  The times are not those of a volume. -/
structure File.Shows (f : File) (stbuf : FS.Stat) : Prop where
  mode : stbuf.mode = f.mode
  size : stbuf.size = f.size
  uid : stbuf.uid = f.uid
  gid : stbuf.gid = f.gid

/-- The bytes of a file from `offset` on, at most `size` of them. -/
def File.slice (f : File) (size offset : Nat) : List UInt8 := (f.bytes.drop offset).take size

namespace Volume

open FS (Operation Reply eNoent eBadf)

/-- **One operation** that does not remove or rename directories. -/
inductive Step (context : FuseContext) (v : Volume) : Operation → Reply → Volume → Prop
  | getattr {path : Name} {n : Nat} {stbuf : FS.Stat} : v.leads path = some n →
      (v.file n).Shows stbuf → Step context v (.getattr path) (.attributes 0 (some stbuf)) v
  | getattr_none {path : Name} : v.leads path = none →
      Step context v (.getattr path) (.attributes eNoent none) v
  | mkdir {path : Name} {mode : UInt32} {n m : Nat} : v.leads (parentPath path) = some n →
      (v.file n).isDirectory → v.tree.entry n (lastName path) = none → ¬ v.tree.Reached m →
      Step context v (.mkdir path mode) (.status 0)
        (v.insert n (lastName path) m (newFile .directory mode context.uid context.gid n m))
  | mkdir_none {path : Name} {mode : UInt32} : v.leads (parentPath path) = none →
      Step context v (.mkdir path mode) (.status (-1)) v
  | readdir {path : Name} {n : Nat} {filled : List DirectoryEntry} : v.leads path = some n →
      (v.file n).isDirectory → filled.map (fun e => (e.label, e.iNodeNum)) = (v.file n).entries →
      Step context v (.readdir path) (.listing 0 filled) v
  | readdir_none {path : Name} : v.leads path = none →
      Step context v (.readdir path) (.listing (-1) []) v
  | create {path : Name} {mode : UInt32} {fi fi' : FuseFileInfo} {n m : Nat} :
      v.leads (parentPath path) = some n → (v.file n).isDirectory →
      v.tree.entry n (lastName path) = none → ¬ v.tree.Reached m → v.opened fi'.fh = none →
      Step context v (.create path mode fi) (.handle 0 fi')
        ((v.insert n (lastName path) m (newFile .regular mode context.uid context.gid n m)).openAt
          fi'.fh m)
  | create_none {path : Name} {mode : UInt32} {fi : FuseFileInfo} : v.leads (parentPath path) = none →
      Step context v (.create path mode fi) (.handle (-1) fi) v
  | openFile {path : Name} {fi fi' : FuseFileInfo} {n : Nat} : v.leads path = some n →
      (v.file n).isDirectory = false → v.opened fi'.fh = none →
      Step context v (.open path fi) (.handle 0 fi') (v.openAt fi'.fh n)
  | openFile_none {path : Name} {fi : FuseFileInfo} : v.leads path = none →
      Step context v (.open path fi) (.handle eNoent fi) v
  | read {fi : FuseFileInfo} {buf buf' : Nat → UInt8} {size offset n : Nat} :
      v.opened fi.fh = some n → (v.file n).isDirectory = false →
      (List.range ((v.file n).slice size offset).length).map buf' = (v.file n).slice size offset →
      (∀ i, size ≤ i → buf' i = buf i) → Step context v (.read fi buf size offset)
        (.data ((v.file n).slice size offset).length buf') v
  | read_none {fi : FuseFileInfo} {buf : Nat → UInt8} {size offset : Nat} : v.opened fi.fh = none →
      Step context v (.read fi buf size offset) (.data eBadf buf) v
  | truncate {path : Name} {size n : Nat} : v.leads path = some n → (v.file n).isDirectory = false →
      Step context v (.truncate path size) (.status 0) (v.modify n (·.truncate size))
  | truncate_none {path : Name} {size : Nat} : v.leads path = none →
      Step context v (.truncate path size) (.status eNoent) v
  | utimens : Step context v .utimens (.status 0) v
  | chown {path : Name} {uid gid : UInt32} {n : Nat} : v.leads path = some n →
      Step context v (.chown path uid gid) (.status 0) (v.modify n (·.chown uid gid))
  | chown_none {path : Name} {uid gid : UInt32} : v.leads path = none →
      Step context v (.chown path uid gid) (.status 0) v
  | chmod {path : Name} {mode : UInt32} {n : Nat} : v.leads path = some n →
      Step context v (.chmod path mode) (.status 0) (v.modify n (·.chmod mode))
  | chmod_none {path : Name} {mode : UInt32} : v.leads path = none →
      Step context v (.chmod path mode) (.status 0) v
  | write {fi : FuseFileInfo} {buf : Nat → UInt8} {size offset n : Nat} : v.opened fi.fh = some n →
      (v.file n).isDirectory = false → offset ≤ (v.file n).size →
      Step context v (.write fi buf size offset) (.status size)
        (v.modify n (·.write offset ((List.range size).map buf)))
  | write_past {fi : FuseFileInfo} {buf : Nat → UInt8} {size offset n : Nat} :
      v.opened fi.fh = some n → (v.file n).size < offset →
      Step context v (.write fi buf size offset) (.status (-1)) v
  | write_none {fi : FuseFileInfo} {buf : Nat → UInt8} {size offset : Nat} : v.opened fi.fh = none →
      Step context v (.write fi buf size offset) (.status (-1)) v
  | unlink {path : Name} {n m : Nat} : v.leads (parentPath path) = some n → (v.file n).isDirectory →
      v.tree.entry n (lastName path) = some m → (v.file m).isDirectory = false →
      (∀ fd, v.opened fd ≠ some m) →
      Step context v (.unlink path) (.status 0) (v.modify n (·.unlink (lastName path)))
  | unlink_absent {path : Name} {n : Nat} : v.leads (parentPath path) = some n →
      v.tree.entry n (lastName path) = none → Step context v (.unlink path) (.status (-1)) v
  | unlink_none {path : Name} : v.leads (parentPath path) = none →
      Step context v (.unlink path) (.status eNoent) v
  | release {fi : FuseFileInfo} {n : Nat} : v.opened fi.fh = some n →
      Step context v (.release fi) (.status 0) (v.close fi.fh)
  | release_none {fi : FuseFileInfo} : v.opened fi.fh = none →
      Step context v (.release fi) (.status 0) v

end Volume

/-! ## The volume of a state -/

/-- The file of an inode. -/
def Disk.fileOf (d : Disk) (x : INode) : File where
  mode := x.fileMode
  uid := x.ownerUid
  gid := x.groupUid
  content :=
    if sIsdir x.fileMode then .entries ((d.entries x.bare).map fun e => (e.label, e.iNodeNum))
    else .bytes ((List.range x.size).map (d.byteAt x.dataBlockNums))

section File

variable {d : Disk} {x : INode}

/-- The mode says whether a file is a directory. -/
theorem Disk.isDirectory_fileOf (d : Disk) (x : INode) : (d.fileOf x).isDirectory = sIsdir x.fileMode := by
  rw [File.isDirectory, fileOf]
  cases sIsdir x.fileMode <;> rfl

/-- The entries of a directory are those on the disk. -/
theorem Disk.entries_fileOf (h : sIsdir x.fileMode) :
    (d.fileOf x).entries = (d.entries x.bare).map fun e => (e.label, e.iNodeNum) := by
  rw [File.entries, fileOf]
  dsimp only
  rw [if_pos h]

/-- The bytes of a file are those of its blocks. -/
theorem Disk.bytes_fileOf (h : sIsdir x.fileMode = false) :
    (d.fileOf x).bytes = (List.range x.size).map (d.byteAt x.dataBlockNums) := by
  rw [File.bytes, fileOf]
  dsimp only
  rw [if_neg (by rw [h]; decide)]

end File

namespace FS

/-- The file that is seen under a number. -/
def file (fs : FS) (n : Nat) : File := fs.disk.fileOf (fs.seen n)

/-- The inode of a descriptor. -/
def nodeAt (fs : FS) (fd : Nat) : Option NodeId :=
  if fd < maxFileDescriptors ∧ (fs.fileTable fd).validEntry = true then (fs.fileTable fd).inode else none

def volume (fs : FS) : Volume where
  file := fs.file
  opened fd := (fs.nodeAt fd).map fun x => (fs.inode x).iNodeNumber

section Volume

variable {fs : FS} {n : Nat} {held : List NodeId}

/-- The volume has the directories of the state. -/
theorem directory_volume (fs : FS) (n : Nat) : fs.volume.tree.directory n = fs.tree.directory n :=
  fs.disk.isDirectory_fileOf (fs.seen n)

/-- A directory of the volume has the entries of the state. -/
theorem entry_volume (h : fs.tree.directory n) (name : Name) :
    fs.volume.tree.entry n name = fs.tree.entry n name := by
  change ((fs.file n).entries.find? (·.1 = name)).map (·.2) =
    ((fs.disk.entries (fs.seen n).bare).find? (·.label = name)).map (·.iNodeNum)
  rw [file, Disk.entries_fileOf h, List.find?_map, Option.map_map]
  rfl

/-- A step of the code is the same in the volume and in the state. -/
theorem follow_volume (fs : FS) (n : Nat) : fs.volume.tree.follow n = fs.tree.follow n := by
  funext name
  rw [Tree.follow, Tree.follow, directory_volume]
  split
  · next h => exact entry_volume h name
  · rfl

/-- A path leads to the same file in both. -/
theorem leads_volume (fs : FS) (path : Name) :
    fs.volume.leads path = (components path).foldlM fs.tree.follow 0 := by
  rw [Volume.leads, show fs.volume.tree.follow = fs.tree.follow from funext fs.follow_volume]

/-- The same files are reached in both. -/
theorem reached_volume : fs.volume.tree.Reached n ↔ fs.tree.Reached n := by
  rw [Tree.Reached, Tree.Reached]
  have hstep : (fun n m => fs.volume.tree.directory n ∧ ∃ name, fs.volume.tree.entry n name = some m) =
      fun n m => fs.tree.directory n ∧ ∃ name, fs.tree.entry n name = some m := by
    funext n m
    rw [directory_volume]
    refine propext (and_congr_right fun h => ?_)
    simp only [entry_volume h]
  rw [hstep]

end Volume

end FS

end Naofs
