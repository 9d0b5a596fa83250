import Naofs.Volume

/-!
# Naofs.VolumeUnlink

A volume from which a name was taken.

The file that had the name is not reached any more, all others are, and every way that does
not come to the name leads where it led (`reached_unlink`, `leads_unlink`).  The lemmas are
about any volume `w` that has the files of the new volume where they can be seen.
-/

namespace Naofs

open Function (update update_self update_of_ne)

/-- The names of a directory, with one of them taken out. -/
theorem File.find?_unlink {f : File} {name : Name} {m : Nat} (hnames : (f.entries.map Prod.fst).Nodup)
    (hname : (f.entries.find? (·.1 = name)).map (·.2) = some m) (name' : Name) :
    ((f.unlink name).entries.find? (·.1 = name')).map (·.2) =
      if name' = name then none else (f.entries.find? (·.1 = name')).map (·.2) := by
  have hmem := (find?_key_iff hnames).mp hname
  have hlt : f.entries.findIdx (·.1 = name) < f.entries.length :=
    List.findIdx_lt_length_of_exists ⟨_, hmem, by simp⟩
  have hkey : (f.entries[f.entries.findIdx (·.1 = name)]).1 = name := by
    simpa using List.findIdx_getElem (p := fun e : Name × Nat => decide (e.1 = name)) (w := hlt)
  refine find?_swapRemove (b := (f.entries[f.entries.findIdx (·.1 = name)]).2) hnames ?_ name'
  rw [List.getElem?_eq_getElem hlt]
  exact congrArg some (Prod.ext hkey rfl)

namespace Volume

variable {v w : Volume} {n m i : Nat} {f : File → File} {name : Name}

theorem file_modify_self : (v.modify n f).file n = f (v.file n) := update_self ..

theorem file_modify_of_ne (hin : i ≠ n) : (v.modify n f).file i = v.file i := update_of_ne hin ..

/-- The file `m` has the name in the directory `n`, and no other name. -/
structure Named (v : Volume) (n : Nat) (name : Name) (m : Nat) : Prop where
  parent : v.tree.Reached n
  directory : (v.file n).isDirectory
  entry : v.tree.entry n name = some m
  regular : (v.file m).isDirectory = false

section Unlink

variable (hs : v.Sound) (h : v.Named n name m)

include h

/-- What has a name is reached. -/
theorem Named.reached : v.tree.Reached m := h.parent.entry h.directory h.entry

theorem Named.ne : n ≠ m := by
  rintro rfl
  exact absurd (h.regular.symm.trans h.directory) (by decide)

include hs

/-- The root has no name. -/
theorem Named.ne_root : 0 ≠ m := by
  rintro rfl
  exact absurd (h.regular.symm.trans hs.root) (by decide)

/-- Only this name is gone. -/
theorem tree_unlink (hw : w.file i = (v.modify n (·.unlink name)).file i) :
    w.tree.directory i = v.tree.directory i ∧
      ∀ name', w.tree.entry i name' = if i = n ∧ name' = name then none else v.tree.entry i name' := by
  by_cases hin : i = n
  · subst hin
    rw [file_modify_self] at hw
    refine ⟨?_, fun name' => ?_⟩
    · change (w.file i).isDirectory = (v.file i).isDirectory
      rw [hw, h.directory]
      rfl
    · change ((w.file i).entries.find? _).map _ = _
      rw [hw, File.find?_unlink (hs.names i h.parent) h.entry]
      simp only [true_and]
      rfl
  · rw [file_modify_of_ne hin] at hw
    refine ⟨directory_congr hw, fun name' => ?_⟩
    rw [entry_congr hw, if_neg fun hcon => hin hcon.1]

variable (hw : ∀ i, v.tree.Reached i → i ≠ m → w.file i = (v.modify n (·.unlink name)).file i)

include hw

/-- **The file is not reached any more**, and all others are. -/
theorem reached_unlink : w.tree.Reached i ↔ v.tree.Reached i ∧ i ≠ m := by
  constructor
  · intro hi
    induction hi with
    | refl => exact ⟨.refl, h.ne_root hs⟩
    | @tail k j _ hnext ih =>
        obtain ⟨hdir, name', hname'⟩ := hnext
        obtain ⟨hdirs, hentries⟩ := tree_unlink hs h (hw k ih.1 ih.2)
        rw [hdirs] at hdir
        rw [hentries] at hname'
        split at hname'
        · cases hname'
        · next hother =>
            refine ⟨ih.1.entry hdir hname', ?_⟩
            rintro rfl
            exact hother (hs.single ih.1 hdir hname' h.parent h.directory h.entry h.regular)
  · rintro ⟨hi, him⟩
    induction hi with
    | refl => exact .refl
    | @tail k j hk hnext ih =>
        obtain ⟨hdir, name', hname'⟩ := hnext
        have hkm : k ≠ m := by
          rintro rfl
          exact absurd (h.regular.symm.trans hdir) (by decide)
        obtain ⟨hdirs, hentries⟩ := tree_unlink hs h (hw k hk hkm)
        have hname : w.tree.entry k name' = some j := by
          rw [hentries, if_neg, hname']
          rintro ⟨rfl, rfl⟩
          exact him (Option.some.inj (hname'.symm.trans h.entry))
        exact (ih hkm).entry (hdirs.trans hdir) hname

/-- The regular files that are left have one name. -/
theorem singleNamed_unlink : w.tree.SingleNamed := by
  have hold : ∀ {k j : Nat} {name' : Name}, w.tree.Reached k → w.tree.directory k →
      w.tree.entry k name' = some j →
      v.tree.Reached k ∧ v.tree.directory k ∧ v.tree.entry k name' = some j ∧ j ≠ m := by
    intro k j name' hk hdir hname'
    obtain ⟨hk', hkm⟩ := (reached_unlink hs h hw).mp hk
    obtain ⟨hdirs, hentries⟩ := tree_unlink hs h (hw k hk' hkm)
    refine ⟨hk', hdirs ▸ hdir, ?_, ((reached_unlink hs h hw).mp (hk.entry hdir hname')).2⟩
    rw [hentries] at hname'
    split at hname'
    · cases hname'
    · exact hname'
  intro k k' j name' name'' hk hdir hname' hk' hdir' hname'' hj
  obtain ⟨hk, hdir, hname', hjm⟩ := hold hk hdir hname'
  obtain ⟨hk', hdir', hname'', -⟩ := hold hk' hdir' hname''
  refine hs.single hk hdir hname' hk' hdir' hname'' ?_
  rw [← (tree_unlink hs h (hw j (hk.entry hdir hname') hjm)).1, hj]

/-- A volume without the name agrees with the one from which the file is taken as well. -/
theorem agrees_unlink (hopened : w.opened = v.opened) : (v.modify n (·.unlink name)).Agrees w := by
  refine ⟨fun i hi => ?_, hopened⟩
  obtain ⟨hi, him⟩ := (reached_unlink hs h fun _ _ _ => rfl).mp hi
  exact hw i hi him

omit hw in
/-- **A way that does not come to the name** leads where it led. -/
theorem leads_unlink {path : Name} (hpass : ¬ v.tree.Passes n name (components path)) :
    (v.modify n (·.unlink name)).leads path = v.leads path := by
  refine Tree.foldlM_follow (fun k name' _ hne => ?_) _ .refl fun pre post heq hpre =>
    hpass ⟨pre, post, heq, hpre⟩
  obtain ⟨hdirs, hentries⟩ := tree_unlink (i := k) hs h rfl
  have hentry : (v.modify n (·.unlink name)).tree.entry k name' = v.tree.entry k name' := by
    rw [hentries, if_neg fun hcon => hne hcon.1 hcon.2]
  rw [Tree.follow, Tree.follow, hdirs, hentry]

end Unlink

end Volume

end Naofs
