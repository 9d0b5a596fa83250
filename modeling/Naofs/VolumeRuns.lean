import Naofs.Machine
import Naofs.VolumeUnlink

/-!
# Naofs.VolumeRuns

What holds of a volume over any sequence of operations.

* `Step.congr` — volumes that agree take the same steps.
* `Step.leads` — a path leads where it led, unless a name on it is taken away.
* `Step.file_eq` — an operation changes the files that it is about and no others.
* `Step.opened_eq` — a handle stands for its file until it is released.
-/

namespace Naofs

open Function (update update_self update_of_ne)

namespace Volume

open FS (Operation Reply)

/-! ## Volumes that agree -/

/-- A change that adds no entries. -/
def Tame (f : File → File) : Prop :=
  ∀ file, (f file).isDirectory = true → file.isDirectory = true ∧ (f file).entries = file.entries

theorem tame_chmod (mode : UInt32) : Tame (·.chmod mode) := fun _ h => ⟨h, rfl⟩

theorem tame_chown (uid gid : UInt32) : Tame (·.chown uid gid) := fun _ h => ⟨h, rfl⟩

theorem tame_truncate (size : Nat) : Tame (·.truncate size) := fun _ h => nomatch h

theorem tame_write (offset : Nat) (data : List UInt8) : Tame (·.write offset data) := fun _ h => nomatch h

section Congr

variable {v w : Volume} {n m i : Nat} {f : File → File} {name : Name} {file : File}

/-- What a path leads to is a file of the tree. -/
theorem reached_of_leads {path : Name} (h : v.leads path = some n) : v.tree.Reached n :=
  Tree.Reached.foldlM _ .refl h

/-- A change that adds no entries leads to no new files. -/
theorem reached_of_modify (hf : Tame f) (hi : (v.modify n f).tree.Reached i) : v.tree.Reached i := by
  induction hi with
  | refl => exact .refl
  | @tail k _ _ hnext ih =>
      obtain ⟨hdir, name, hname⟩ := hnext
      by_cases hkn : k = n
      · subst hkn
        have hfile : (v.modify k f).file k = f (v.file k) := file_modify_self
        change ((v.modify k f).file k).isDirectory = true at hdir
        rw [hfile] at hdir
        obtain ⟨hdir', hentries⟩ := hf _ hdir
        refine ih.tail ⟨hdir', name, ?_⟩
        change ((v.file k).entries.find? _).map _ = _
        rw [← hentries, ← hfile]
        exact hname
      · have hfile : (v.modify n f).file k = v.file k := file_modify_of_ne hkn
        exact ih.tail ⟨(directory_congr hfile).symm.trans hdir, name, by rw [← entry_congr hfile, hname]⟩

/-- A change that adds no entries, made in both volumes. -/
theorem Agrees.modify (h : v.Agrees w) (hf : Tame f) : (v.modify n f).Agrees (w.modify n f) := by
  refine ⟨fun i hi => ?_, h.opened⟩
  replace hi := reached_of_modify hf hi
  by_cases hin : i = n
  · rw [hin, file_modify_self, file_modify_self, h.file n (hin ▸ hi)]
  · rw [file_modify_of_ne hin, file_modify_of_ne hin, h.file i hi]

theorem file_insert_self : (v.insert n name m file).file m = file := update_self ..

/-- The new name is in the directory. -/
theorem file_insert_parent (hnm : n ≠ m) : (v.insert n name m file).file n = (v.file n).link name m := by
  rw [insert]
  exact (update_of_ne hnm ..).trans (update_self ..)

/-- Other files are as they were. -/
theorem file_insert_of_ne (hin : i ≠ n) (him : i ≠ m) : (v.insert n name m file).file i = v.file i := by
  rw [insert]
  exact (update_of_ne him ..).trans (update_of_ne hin ..)

/-- The first entries of a new directory name it and its parent. -/
theorem entries_newFile {fileType : INodeType} {mode uid gid : UInt32} {e : Name × Nat}
    (he : e ∈ (newFile fileType mode uid gid n m).entries) : e.2 = m ∨ e.2 = n := by
  rw [newFile] at he
  split at he
  · simp only [File.entries, List.mem_cons, List.not_mem_nil, or_false] at he
    obtain rfl | rfl := he
    · exact .inl rfl
    · exact .inr rfl
  · cases he

/-- An entry that is found is one of the directory. -/
theorem mem_of_entry (h : v.tree.entry n name = some m) : ∃ e ∈ (v.file n).entries, e.1 = name ∧ e.2 = m := by
  obtain ⟨e, he, rfl⟩ := Option.map_eq_some_iff.mp h
  exact ⟨e, List.mem_of_find?_eq_some he, by simpa using List.find?_some he, rfl⟩

/-- A new name leads to the new file. -/
theorem entry_link (file : File) (name name' : Name) (m : Nat) :
    ((file.link name m).entries.find? (·.1 = name')).map (·.2) =
      ((file.entries.find? (·.1 = name')).map (·.2)).or (if name = name' then some m else none) := by
  change ((file.entries ++ [(name, m)]).find? _).map _ = _
  rw [List.find?_append]
  cases hfind : file.entries.find? (·.1 = name') with
  | some e => rfl
  | none =>
      by_cases hname : name = name'
      · simp [List.find?, hname]
      · simp [List.find?, hname]

variable {fileType : INodeType} {mode uid gid : UInt32}

/-- There is one more file, and it leads back. -/
theorem reached_of_insert (hn : v.tree.Reached n) (hdir : (v.file n).isDirectory)
    (hi : (v.insert n name m (newFile fileType mode uid gid n m)).tree.Reached i) :
    v.tree.Reached i ∨ i = m := by
  induction hi with
  | refl => exact .inl .refl
  | @tail k j _ hnext ih =>
      obtain ⟨hdirk, name', hname⟩ := hnext
      by_cases hkm : k = m
      · obtain ⟨e, he, -, rfl⟩ := mem_of_entry hname
        rw [hkm, file_insert_self] at he
        obtain hj | hj := entries_newFile he
        · exact .inr hj
        · exact .inl (hj ▸ hn)
      · have hk := ih.resolve_right hkm
        by_cases hkn : k = n
        · subst hkn
          change (((v.insert k name m _).file k).entries.find? _).map _ = _ at hname
          rw [file_insert_parent hkm, entry_link] at hname
          cases hold : v.tree.entry k name' with
          | some j' =>
              rw [show ((v.file k).entries.find? (·.1 = name')).map (·.2) = some j' from hold] at hname
              cases hname
              exact .inl (hk.tail ⟨hdir, name', hold⟩)
          | none =>
              rw [show ((v.file k).entries.find? (·.1 = name')).map (·.2) = none from hold] at hname
              by_cases hnn : name = name'
              · rw [if_pos hnn] at hname
                cases hname
                exact .inr rfl
              · rw [if_neg hnn] at hname
                cases hname
        · have hfile : (v.insert n name m (newFile fileType mode uid gid n m)).file k = v.file k :=
            file_insert_of_ne hkn hkm
          exact .inl (hk.tail ⟨(directory_congr hfile).symm.trans hdirk, name', by
            rw [← entry_congr hfile, hname]⟩)

/-- A new file, in both volumes. -/
theorem Agrees.insert (h : v.Agrees w) (hn : v.tree.Reached n) (hdir : (v.file n).isDirectory)
    (hm : ¬ v.tree.Reached m) :
    (v.insert n name m (newFile fileType mode uid gid n m)).Agrees
      (w.insert n name m (newFile fileType mode uid gid n m)) := by
  refine ⟨fun i hi => ?_, h.opened⟩
  have hnm : n ≠ m := fun hcon => hm (hcon ▸ hn)
  obtain hi | rfl := reached_of_insert hn hdir hi
  · have him : i ≠ m := fun hcon => hm (hcon ▸ hi)
    by_cases hin : i = n
    · rw [hin, file_insert_parent hnm, file_insert_parent hnm, h.file n hn]
    · rw [file_insert_of_ne hin him, file_insert_of_ne hin him, h.file i hi]
  · rw [file_insert_self, file_insert_self]

/-- The same name is gone. -/
theorem Agrees.unlink (h : v.Agrees w) (hv : v.Sound) (hm : v.Named n name m) :
    (v.modify n (·.unlink name)).Agrees (w.modify n (·.unlink name)) := by
  refine agrees_unlink hv hm (fun i hi _ => ?_) h.opened
  by_cases hin : i = n
  · rw [hin, file_modify_self, file_modify_self, h.file n (hin ▸ hi)]
  · rw [file_modify_of_ne hin, file_modify_of_ne hin, h.file i hi]

/-- A descriptor is closed in both volumes. -/
theorem Agrees.close (h : v.Agrees w) (fd : Nat) : (v.close fd).Agrees (w.close fd) := by
  refine ⟨h.file, ?_⟩
  change update w.opened fd none = update v.opened fd none
  rw [h.opened]

end Congr

/-- **Volumes that agree take the same steps.** -/
theorem Step.congr {context : FuseContext} {v w w' : Volume} {op : Operation} {reply : Reply}
    (h : v.Agrees w) (hv : v.Sound) (hs : Step context w op reply w') :
    ∃ v', Step context v op reply v' ∧ v'.Agrees w' := by
  have hfile : ∀ {path : Name} {n : Nat}, w.leads path = some n →
      v.leads path = some n ∧ v.tree.Reached n ∧ w.file n = v.file n := by
    intro path n hleads
    rw [h.leads] at hleads
    exact ⟨hleads, reached_of_leads hleads, h.file n (reached_of_leads hleads)⟩
  have hnone : ∀ {path : Name}, w.leads path = none → v.leads path = none := by
    intro path hleads
    rwa [h.leads] at hleads
  have hhandle : ∀ {fd n : Nat}, w.opened fd = some n → v.opened fd = some n ∧ w.file n = v.file n := by
    intro fd n hfd
    rw [h.opened] at hfd
    exact ⟨hfd, h.file n (hv.opened fd n hfd)⟩
  have hclosed : ∀ {fd : Nat}, w.opened fd = none → v.opened fd = none := by
    intro fd hfd
    rwa [h.opened] at hfd
  cases hs with
  | getattr hleads hshows =>
      obtain ⟨hleads, -, heq⟩ := hfile hleads
      rw [heq] at hshows
      exact ⟨v, .getattr hleads hshows, h⟩
  | getattr_none hleads => exact ⟨v, .getattr_none (hnone hleads), h⟩
  | mkdir hleads hdir habsent hm =>
      obtain ⟨hleads, hn, heq⟩ := hfile hleads
      rw [heq] at hdir
      rw [entry_congr heq] at habsent
      rw [h.reached] at hm
      exact ⟨_, .mkdir hleads hdir habsent hm, h.insert hn hdir hm⟩
  | mkdir_none hleads => exact ⟨v, .mkdir_none (hnone hleads), h⟩
  | readdir hleads hdir hfilled =>
      obtain ⟨hleads, -, heq⟩ := hfile hleads
      rw [heq] at hdir hfilled
      exact ⟨v, .readdir hleads hdir hfilled, h⟩
  | readdir_none hleads => exact ⟨v, .readdir_none (hnone hleads), h⟩
  | create hleads hdir habsent hm hfd =>
      obtain ⟨hleads, hn, heq⟩ := hfile hleads
      rw [heq] at hdir
      rw [entry_congr heq] at habsent
      rw [h.reached] at hm
      exact ⟨_, .create hleads hdir habsent hm (hclosed hfd), (h.insert hn hdir hm).openAt _ _⟩
  | create_none hleads => exact ⟨v, .create_none (hnone hleads), h⟩
  | openFile hleads hdir hfd =>
      obtain ⟨hleads, -, heq⟩ := hfile hleads
      rw [heq] at hdir
      exact ⟨_, .openFile hleads hdir (hclosed hfd), h.openAt _ _⟩
  | openFile_none hleads => exact ⟨v, .openFile_none (hnone hleads), h⟩
  | read hfd hdir hbuf hbehind =>
      obtain ⟨hfd, heq⟩ := hhandle hfd
      rw [heq] at hdir hbuf ⊢
      exact ⟨v, .read hfd hdir hbuf hbehind, h⟩
  | read_none hfd => exact ⟨v, .read_none (hclosed hfd), h⟩
  | truncate hleads hdir =>
      obtain ⟨hleads, -, heq⟩ := hfile hleads
      rw [heq] at hdir
      exact ⟨_, .truncate hleads hdir, h.modify (tame_truncate _)⟩
  | truncate_none hleads => exact ⟨v, .truncate_none (hnone hleads), h⟩
  | utimens => exact ⟨v, .utimens, h⟩
  | chown hleads => exact ⟨_, .chown (hfile hleads).1, h.modify (tame_chown _ _)⟩
  | chown_none hleads => exact ⟨v, .chown_none (hnone hleads), h⟩
  | chmod hleads => exact ⟨_, .chmod (hfile hleads).1, h.modify (tame_chmod _)⟩
  | chmod_none hleads => exact ⟨v, .chmod_none (hnone hleads), h⟩
  | write hfd hdir hoff =>
      obtain ⟨hfd, heq⟩ := hhandle hfd
      rw [heq] at hdir hoff
      exact ⟨_, .write hfd hdir hoff, h.modify (tame_write _ _)⟩
  | write_past hfd hoff =>
      obtain ⟨hfd, heq⟩ := hhandle hfd
      rw [heq] at hoff
      exact ⟨v, .write_past hfd hoff, h⟩
  | write_none hfd => exact ⟨v, .write_none (hclosed hfd), h⟩
  | @unlink path n m hleads hdir hentry hregular hclosed =>
      obtain ⟨hleads, hn, heq⟩ := hfile hleads
      rw [heq] at hdir
      rw [entry_congr heq] at hentry
      rw [h.file m (hn.entry hdir hentry)] at hregular
      rw [h.opened] at hclosed
      exact ⟨_, .unlink hleads hdir hentry hregular hclosed, h.unlink hv ⟨hn, hdir, hentry, hregular⟩⟩
  | unlink_absent hleads habsent =>
      obtain ⟨hleads, -, heq⟩ := hfile hleads
      rw [entry_congr heq] at habsent
      exact ⟨v, .unlink_absent hleads habsent, h⟩
  | unlink_none hleads => exact ⟨v, .unlink_none (hnone hleads), h⟩
  | release hfd => exact ⟨_, .release (hhandle hfd).1, h.close _⟩
  | release_none hfd => exact ⟨v, .release_none (hclosed hfd), h⟩

/-! ## Names -/

/-- The names of the first volume lead where they led, in the second one. -/
structure Extends (v w : Volume) : Prop where
  directory : ∀ n, v.tree.Reached n → w.tree.directory n = v.tree.directory n
  entry : ∀ n name m, v.tree.Reached n → v.tree.entry n name = some m → w.tree.entry n name = some m

section Extends

variable {v w u : Volume} {n m : Nat} {f : File → File} {name : Name}

theorem Extends.refl (v : Volume) : v.Extends v := ⟨fun _ _ => rfl, fun _ _ _ _ h => h⟩

/-- Descriptors have no names. -/
theorem Extends.of_file (h : v.Extends w) (hfile : u.file = w.file) : v.Extends u where
  directory n hn := (directory_congr (congrFun hfile n)).trans (h.directory n hn)
  entry n name m hn hname := by
    rw [entry_congr (congrFun hfile n)]
    exact h.entry n name m hn hname

/-- What is reached stays so. -/
theorem Extends.reached (h : v.Extends w) (hn : v.tree.Reached n) : w.tree.Reached n := by
  induction hn with
  | refl => exact .refl
  | @tail k m hk hnext ih =>
      obtain ⟨hdir, name, hname⟩ := hnext
      exact ih.tail ⟨(h.directory k hk).trans hdir, name, h.entry k name m hk hname⟩

/-- A step that leads somewhere still leads there. -/
theorem Extends.follow (h : v.Extends w) (hn : v.tree.Reached n) (hname : v.tree.follow n name = some m) :
    w.tree.follow n name = some m := by
  rw [Tree.follow] at hname ⊢
  rw [h.directory n hn]
  split at hname
  · next hdir =>
      rw [if_pos hdir]
      exact h.entry n name m hn hname
  · next hdir =>
      rw [if_neg hdir]
      exact hname

/-- **Paths lead where they led.** -/
theorem Extends.leads (h : v.Extends w) {path : Name} (hn : v.leads path = some n) : w.leads path = some n := by
  have hway : ∀ (names : List Name) (k : Nat), v.tree.Reached k → names.foldlM v.tree.follow k = some n →
      names.foldlM w.tree.follow k = some n := by
    intro names
    induction names with
    | nil => exact fun _ _ heq => heq
    | cons name names ih =>
        intro k hk heq
        rw [List.foldlM_cons] at heq ⊢
        cases hnext : v.tree.follow k name with
        | none =>
            rw [hnext] at heq
            cases heq
        | some k' =>
            rw [hnext] at heq
            rw [h.follow hk hnext]
            exact ih k' (hk.follow hnext) heq
  exact hway _ 0 .refl hn

/-- A file that keeps its kind and its entries. -/
theorem extends_modify (hdir : (f (v.file n)).isDirectory = (v.file n).isDirectory)
    (hentries : (f (v.file n)).entries = (v.file n).entries) : v.Extends (v.modify n f) := by
  have hfile : ∀ i, ((v.modify n f).file i).isDirectory = (v.file i).isDirectory ∧
      ((v.modify n f).file i).entries = (v.file i).entries := by
    intro i
    by_cases hin : i = n
    · subst hin
      rw [file_modify_self]
      exact ⟨hdir, hentries⟩
    · rw [file_modify_of_ne hin]
      exact ⟨rfl, rfl⟩
  refine ⟨fun i _ => (hfile i).1, fun i name m _ hname => ?_⟩
  change (((v.modify n f).file i).entries.find? _).map _ = _
  rw [(hfile i).2]
  exact hname

/-- A regular file stays one. -/
theorem extends_bytes (hdir : (v.file n).isDirectory = false) (hf : (f (v.file n)).isDirectory = false) :
    v.Extends (v.modify n f) :=
  extends_modify (hf.trans hdir.symm) ((File.entries_eq_nil hf).trans (File.entries_eq_nil hdir).symm)

/-- A new file takes nothing away. -/
theorem extends_insert (hn : v.tree.Reached n) (hdir : (v.file n).isDirectory) (hm : ¬ v.tree.Reached m)
    (file : File) : v.Extends (v.insert n name m file) := by
  have hnm : n ≠ m := fun hcon => hm (hcon ▸ hn)
  refine ⟨fun i hi => ?_, fun i name' k hi hname => ?_⟩
  · have him : i ≠ m := fun hcon => hm (hcon ▸ hi)
    by_cases hin : i = n
    · rw [hin]
      exact (congrArg File.isDirectory (file_insert_parent hnm)).trans hdir.symm
    · exact directory_congr (file_insert_of_ne hin him)
  · have him : i ≠ m := fun hcon => hm (hcon ▸ hi)
    by_cases hin : i = n
    · subst hin
      change (((v.insert i name m file).file i).entries.find? _).map _ = _
      rw [file_insert_parent hnm, entry_link,
        show ((v.file i).entries.find? (·.1 = name')).map (·.2) = some k from hname]
      rfl
    · rw [entry_congr (file_insert_of_ne hin him), hname]

/-- The path of a new file leads to it. -/
theorem leads_insert {path : Name} (hne : lastName (slash :: path) ≠ [])
    (hleads : v.leads (parentPath (slash :: path)) = some n) (hdir : (v.file n).isDirectory)
    (habsent : v.tree.entry n (lastName (slash :: path)) = none) (hm : ¬ v.tree.Reached m) (file : File) :
    (v.insert n (lastName (slash :: path)) m file).leads (slash :: path) = some m := by
  have hn := reached_of_leads hleads
  have hnm : n ≠ m := fun hcon => hm (hcon ▸ hn)
  have hextends : v.Extends (v.insert n (lastName (slash :: path)) m file) := extends_insert hn hdir hm file
  have hparent := hextends.leads hleads
  have hentry : (v.insert n (lastName (slash :: path)) m file).tree.entry n (lastName (slash :: path)) =
      some m := by
    change (((v.insert n _ m file).file n).entries.find? _).map _ = _
    rw [file_insert_parent hnm, entry_link, show ((v.file n).entries.find? _).map _ = none from habsent,
      if_pos rfl]
    rfl
  rw [leads] at hparent ⊢
  rw [components_lastName hne, List.foldlM_append, hparent]
  change (Tree.follow _ n _ >>= pure) = some m
  rw [Tree.follow, if_pos ((hextends.directory n hn).trans hdir), hentry]
  rfl

end Extends

variable {context : FuseContext} {v v' : Volume} {op : Operation} {reply : Reply} {n fd : Nat}

/-- The operation takes the file away. -/
def Removes (v : Volume) (n : Nat) : Operation → Prop
  | .unlink path => ∃ k, v.leads (parentPath path) = some k ∧ v.tree.entry k (lastName path) = some n
  | _ => False

/-- The operation takes a name away that is on the path. -/
def Cuts (v : Volume) (path : Name) : Operation → Prop
  | .unlink file => ∃ k, v.leads (parentPath file) = some k ∧
      v.tree.Passes k (lastName file) (components path)
  | _ => False

/-- **No name is lost**, or the one that is taken away. -/
theorem Step.extends (hs : Step context v op reply v') : v.Extends v' ∨
    ∃ path k m, op = .unlink path ∧ v.leads (parentPath path) = some k ∧
      v.Named k (lastName path) m ∧ v' = v.modify k (·.unlink (lastName path)) := by
  cases hs with
  | mkdir hleads hdir _ hm => exact .inl (extends_insert (reached_of_leads hleads) hdir hm _)
  | create hleads hdir _ hm _ =>
      exact .inl ((extends_insert (reached_of_leads hleads) hdir hm _).of_file rfl)
  | truncate _ hdir => exact .inl (extends_bytes hdir rfl)
  | chown _ => exact .inl (extends_modify rfl rfl)
  | chmod _ => exact .inl (extends_modify rfl rfl)
  | write _ hdir _ => exact .inl (extends_bytes hdir rfl)
  | openFile _ _ _ => exact .inl ((Extends.refl v).of_file rfl)
  | release _ => exact .inl ((Extends.refl v).of_file rfl)
  | unlink hleads hdir hentry hregular _ =>
      exact .inr ⟨_, _, _, rfl, hleads, ⟨reached_of_leads hleads, hdir, hentry, hregular⟩, rfl⟩
  | _ => exact .inl (.refl v)

/-- **A file stays** until it is taken away. -/
theorem Step.reached (hs : Step context v op reply v') (hv : v.Sound) (hn : v.tree.Reached n)
    (hop : ¬ v.Removes n op) : v'.tree.Reached n := by
  obtain hextends | ⟨path, k, m, rfl, hleads, hm, rfl⟩ := hs.extends
  · exact hextends.reached hn
  · refine (reached_unlink hv hm fun _ _ _ => rfl).mpr ⟨hn, fun hcon => hop ⟨k, hleads, ?_⟩⟩
    rw [hcon]
    exact hm.entry

/-- **A path leads to its file** until a name on it is taken away. -/
theorem Step.leads {path : Name} (hs : Step context v op reply v') (hv : v.Sound)
    (hn : v.leads path = some n) (hop : ¬ v.Cuts path op) : v'.leads path = some n := by
  obtain hextends | ⟨file, k, m, rfl, hleads, hm, rfl⟩ := hs.extends
  · exact hextends.leads hn
  · rw [leads_unlink hv hm fun hpass => hop ⟨k, hleads, hpass⟩]
    exact hn

/-! ## Files -/

/-- The operation changes the file. -/
def Concerns (v : Volume) (n : Nat) : Operation → Prop
  | .mkdir path _ => v.leads (parentPath path) = some n
  | .create path _ _ => v.leads (parentPath path) = some n
  | .truncate path _ => v.leads path = some n
  | .chown path _ _ => v.leads path = some n
  | .chmod path _ => v.leads path = some n
  | .write fi _ _ _ => v.opened fi.fh = some n
  | .unlink path => v.leads (parentPath path) = some n ∨ v.Removes n (.unlink path)
  | _ => False

/-- The operation changes the bytes of the file, or takes it away. -/
def Writes (v : Volume) (n : Nat) : Operation → Prop
  | .truncate path _ => v.leads path = some n
  | .write fi _ _ _ => v.opened fi.fh = some n
  | .unlink path => v.Removes n (.unlink path)
  | _ => False

/-- A file that is taken away counts as written. -/
theorem Removes.writes (h : v.Removes n op) : v.Writes n op := by
  cases op with
  | unlink path => exact h
  | _ => exact h.elim

/-- And it is concerned. -/
theorem Removes.concerns (h : v.Removes n op) : v.Concerns n op := by
  cases op with
  | unlink path => exact .inr h
  | _ => exact h.elim

/-- **Other files stay as they are.** -/
theorem Step.file_eq (hs : Step context v op reply v') (hn : v.tree.Reached n)
    (hop : ¬ v.Concerns n op) : v'.file n = v.file n := by
  cases hs with
  | mkdir hleads _ _ hm => exact file_insert_of_ne (fun hcon => hop (hcon ▸ hleads)) fun hcon => hm (hcon ▸ hn)
  | create hleads _ _ hm _ =>
      exact file_insert_of_ne (fun hcon => hop (hcon ▸ hleads)) fun hcon => hm (hcon ▸ hn)
  | truncate hleads _ => exact file_modify_of_ne fun hcon => hop (hcon ▸ hleads)
  | chown hleads => exact file_modify_of_ne fun hcon => hop (hcon ▸ hleads)
  | chmod hleads => exact file_modify_of_ne fun hcon => hop (hcon ▸ hleads)
  | write hfd _ _ => exact file_modify_of_ne fun hcon => hop (hcon ▸ hfd)
  | unlink hleads _ _ _ _ => exact file_modify_of_ne fun hcon => hop (.inl (hcon ▸ hleads))
  | _ => rfl

/-- **Bytes stay as they are** until they are written over. -/
theorem Step.content_eq (hs : Step context v op reply v') (hn : v.tree.Reached n)
    (hdir : (v.file n).isDirectory = false) (hop : ¬ v.Writes n op) :
    (v'.file n).content = (v.file n).content := by
  have hkept : ∀ {k : Nat} {f : File → File}, (f (v.file k)).content = (v.file k).content →
      ((v.modify k f).file n).content = (v.file n).content := by
    intro k f hf
    by_cases hnk : n = k
    · subst hnk
      rw [file_modify_self, hf]
    · rw [file_modify_of_ne hnk]
  by_cases hcon : v.Concerns n op
  · cases hs with
    | mkdir hleads hparent _ _ =>
        cases hleads.symm.trans hcon
        rw [hdir] at hparent
        cases hparent
    | create hleads hparent _ _ _ =>
        cases hleads.symm.trans hcon
        rw [hdir] at hparent
        cases hparent
    | truncate _ _ => exact absurd hcon hop
    | write _ _ _ => exact absurd hcon hop
    | chown _ => exact hkept rfl
    | chmod _ => exact hkept rfl
    | @unlink path k _ _ hparent _ _ _ =>
        refine congrArg File.content (file_modify_of_ne ?_)
        rintro rfl
        rw [hdir] at hparent
        cases hparent
    | _ => rfl
  · rw [hs.file_eq hn hcon]

/-! ## Handles -/

/-- **A handle stands for its file** until it is released. -/
theorem Step.opened_eq (hs : Step context v op reply v') (hfd : v.opened fd = some n)
    (hop : ∀ fi, op = .release fi → fi.fh ≠ fd) : v'.opened fd = some n := by
  have hopened : ∀ {fd' : Nat}, v.opened fd' = none → fd ≠ fd' := by
    rintro fd' hnone rfl
    rw [hfd] at hnone
    cases hnone
  cases hs with
  | create _ _ _ _ hnone => exact (update_of_ne (hopened hnone) ..).trans hfd
  | openFile _ _ hnone => exact (update_of_ne (hopened hnone) ..).trans hfd
  | release _ => exact (update_of_ne (hop _ rfl).symm ..).trans hfd
  | _ => exact hfd

end Volume

end Naofs
