import Naofs.Directory
import Naofs.Pending

/-!
# Naofs.Namei

From a path to an inode (`namei.c`).

`getFileINode` starts with a reference to the root and trades it, name by name, for
one to the inode that the name stands for.  A path is a list of bytes without the zero
byte at its end; what `checkAndGetLen` copies of it is not looked at.
-/

namespace Naofs

/-- `'/'`. -/
@[simp] abbrev slash : UInt8 := 0x2f

theorem NaoM.bind_eq_ok {α β : Type} {m : NaoM α} {f : α → NaoM β} {fs : FS} {b : β × FS} :
    (m >>= f) fs = .ok b ↔ ∃ a fs', m fs = .ok (a, fs') ∧ f a fs' = .ok b := by
  change (m fs >>= fun s => f s.1 s.2) = .ok b ↔ _
  rw [Naofs.bind_eq_ok]
  exact ⟨fun ⟨⟨a, fs'⟩, h⟩ => ⟨a, fs', h⟩, fun ⟨a, fs', h⟩ => ⟨(a, fs'), h⟩⟩

namespace FS

open InCoreINode (wrapSize)

/-- The directory of a node is searched. -/
def searchINodeDirectoryEntries (env : Env) (node : NodeId) (entryName : Option Name) (offset : Nat)
    (entryBuffer : Nat → DirectoryEntry) (numOfEntries : Nat) (forUnlink : Bool) :
    NaoM (Int × (Nat → DirectoryEntry)) :=
  fun fs => do
    let (retValue, entryBuffer, disk) ← fs.disk.searchINodeDirectoryEntries env (fs.inode node)
      entryName offset entryBuffer numOfEntries forUnlink
    .ok ((retValue, entryBuffer), { fs with disk })

/-- A `directoryEntry` that `memset` has cleared. -/
def emptyEntry : DirectoryEntry := ⟨.tabulate fun _ => 0, 0⟩

def operate (env : Env) (name : Name) (workingINode : Option NodeId) : NaoM (Option NodeId) :=
  if name = [] then pure workingINode
  else
    match workingINode with
    | none => throw .nullPointer
    | some node => do
        let (retValue, entryBuffer) ← searchINodeDirectoryEntries env node (some name) 0
          (fun _ => emptyEntry) 0 false
        let _ ← iput env.now node
        -- as a `size_t` the error of the search is not `≤ 0`
        if wrapSize retValue = 0 then pure none
        else iget (entryBuffer 0).iNodeNum 0

/-- `processNextLevel`: the new inode and what is left of the path. -/
def processNextLevel (env : Env) (path : Name) (workingINode : Option NodeId) :
    NaoM (Option NodeId × Name) := do
  let name := path.takeWhile (· ≠ slash)
  let workingINode ← operate env name workingINode
  pure (workingINode, path.drop (name.length + 1))

/-- The loop of `getFileINode` on what is left of the path. -/
def getFileINodeLoop (env : Env) : (fuel : Nat) → (path : Name) → (workingINode : Option NodeId) →
    NaoM (Option NodeId)
  | 0, _, _ => throw .diverges
  | fuel + 1, path, workingINode =>
      if path = [] then pure workingINode
      else do
        match ← processNextLevel env path workingINode with
        | (none, _) => pure none
        | (some node, path) => getFileINodeLoop env fuel path (some node)

/-- `getFileINode`; the second byte of an empty path is not a part of it. -/
def getFileINode (env : Env) (path : Name) : NaoM (Option NodeId) := do
  let workingINode ← iget 0 0
  match path with
  | [] => throw .outOfBounds
  | _ :: path => getFileINodeLoop env (path.length + 1) path workingINode

/-! ## References along a path -/

namespace Pending

variable {env : Env} {fs fs₁ fs₂ : FS} {held locked : List NodeId} {r w : Option NodeId} {path : Name}

theorem searchINodeDirectoryEntries (h : Pending fs held locked fs₁) {node : NodeId}
    {entryName : Option Name} {offset num : Nat} {buf : Nat → DirectoryEntry} {forUnlink : Bool}
    {s : Int × (Nat → DirectoryEntry)}
    (heq : FS.searchINodeDirectoryEntries env node entryName offset buf num forUnlink fs₁ =
      .ok (s, fs₂)) : Pending fs held locked fs₂ := by
  obtain ⟨⟨ret, buf, d⟩, -, heq⟩ := bind_eq_ok.mp heq
  cases heq
  exact h.disk d

/-- One name on the way. -/
theorem operate (h : Pending fs (w.toList ++ held) locked fs₁)
    (heq : FS.operate env path w fs₁ = .ok (r, fs₂)) : Pending fs (r.toList ++ held) locked fs₂ := by
  unfold FS.operate at heq
  split at heq
  · cases heq
    exact h
  · cases w with
    | none => cases heq
    | some node =>
        obtain ⟨⟨ret, buf⟩, fs₃, hsearch, heq⟩ := NaoM.bind_eq_ok.mp heq
        obtain ⟨ret', fs₄, hput, heq⟩ := NaoM.bind_eq_ok.mp heq
        have hput := (h.searchINodeDirectoryEntries hsearch).iput (x := node) (by simp) hput
        rw [Option.toList_some, List.singleton_append, List.erase_cons_head] at hput
        split at heq
        · cases heq
          exact hput
        · exact hput.iget heq

theorem getFileINodeLoop : ∀ (fuel : Nat) (path : Name) {w : Option NodeId} {fs₁ : FS},
    Pending fs (w.toList ++ held) locked fs₁ →
    FS.getFileINodeLoop env fuel path w fs₁ = .ok (r, fs₂) →
    Pending fs (r.toList ++ held) locked fs₂ := by
  intro fuel
  induction fuel with
  | zero =>
      intro path w fs₁ h heq
      cases heq
  | succ fuel ih =>
      intro path w fs₁ h heq
      rw [FS.getFileINodeLoop] at heq
      split at heq
      · cases heq
        exact h
      · obtain ⟨⟨r', rest⟩, fs₃, hnext, heq⟩ := NaoM.bind_eq_ok.mp heq
        obtain ⟨r'', fs₄, hop, hnext⟩ := NaoM.bind_eq_ok.mp hnext
        cases hnext
        replace h := h.operate hop
        cases r' with
        | none =>
            cases heq
            exact h
        | some node => exact ih _ h heq

/-- A path that is resolved takes one reference, and one that is not takes none. -/
theorem getFileINode (h : Pending fs held locked fs₁)
    (heq : FS.getFileINode env path fs₁ = .ok (r, fs₂)) : Pending fs (r.toList ++ held) locked fs₂ := by
  obtain ⟨w, fs₃, hget, heq⟩ := NaoM.bind_eq_ok.mp heq
  cases path with
  | nil => cases heq
  | cons c path => exact (h.iget hget).getFileINodeLoop _ _ heq

end Pending

end FS

end Naofs
