import Mathlib.Data.Set.Card
import Naofs.Balance
import Naofs.Lookup

/-!
# Naofs.Emptying

Emptying a directory by force (`emptyDir` and `validateAndEmptyDirectoryIfNeeded`).

Every inode is locked before it is changed, so that a call leaves the inodes alone that
are locked when it starts (`Leaves`).  This bounds the recursion, since each nested call
holds one more lock (`validateWith_iterate`), and it tells how far the directory itself can
shrink: its loop counts bytes against the number of entries, and runs once for 64 of the
entries behind the 128th.  `emptied_iff` says that a directory is empty afterwards only if
it was before.
-/

namespace Naofs

/-- Two calls that agree on their first step and on what follows it. -/
theorem NaoM.bind_congr {α β : Type} {m m' : NaoM α} {f g : α → NaoM β} {fs : FS}
    (hm : m fs = m' fs) (h : ∀ a fs', m fs = .ok (a, fs') → f a fs' = g a fs') :
    (m >>= f) fs = (m' >>= g) fs := by
  change (m fs >>= fun s => f s.1 s.2) = (m' fs >>= fun s => g s.1 s.2)
  rw [← hm]
  cases hrun : m fs with
  | error e => rfl
  | ok s => exact h s.1 s.2 hrun

namespace FS

open InCoreINode (wrapSize)
open Function (update_of_ne)

/-! ## Locked inodes are left alone -/

/-- A call leaves the inode of a node as it is if it is locked when the call starts. -/
def Leaves {α : Type} (x : NodeId) (m : NaoM α) : Prop :=
  ∀ ⦃fs fs' : FS⦄ ⦃a : α⦄, (fs.inode x).iNodeMutex = true → m fs = .ok (a, fs') →
    fs'.inode x = fs.inode x

section Leaves

variable {α β : Type} {env : Env} {x y : NodeId} {m : NaoM α} {fs fs' : FS}

/-- A computation that touches nothing leaves every inode alone. -/
theorem leaves_pure (a : α) : Leaves x (pure a) := by
  intro fs fs' b _ h
  cases h
  rfl

/-- So does one that fails. -/
theorem leaves_throw (e : Fault) : Leaves x (throw e : NaoM α) := by
  intro fs fs' b _ h
  cases h

/-- One computation after the other. -/
theorem Leaves.bind {f : α → NaoM β} (hm : Leaves x m) (hf : ∀ a, Leaves x (f a)) :
    Leaves x (m >>= f) := by
  intro fs fs' b hx h
  obtain ⟨a, fs₁, h₁, h₂⟩ := NaoM.bind_eq_ok.mp h
  have heq := hm hx h₁
  exact (hf a (heq ▸ hx) h₂).trans heq

theorem leaves_get : Leaves x (get : NaoM FS) := by
  intro fs fs' b _ h
  cases h
  rfl

/-- Computations without the file system leave every inode alone. -/
theorem leaves_ofExcept (r : Except Fault α) : Leaves x (NaoM.ofExcept r) := by
  intro fs fs' b _ h
  obtain ⟨a, -, h⟩ := bind_eq_ok.mp h
  cases h
  rfl

theorem inode_setInode_of_ne (h : x ≠ y) (fs : FS) (z : InCoreINode) :
    (fs.setInode y z).inode x = fs.inode x := by
  rw [inode_setInode, update_of_ne h]

/-- The mutex of another node is taken. -/
theorem lock_of_locked (hx : (fs.inode x).iNodeMutex = true) (h : fs.lock y = .ok fs') :
    x ≠ y ∧ fs'.inode x = fs.inode x := by
  unfold lock at h
  split at h
  · cases h
  · next hy =>
      have hne : x ≠ y := by
        rintro rfl
        exact hy hx
      cases h
      exact ⟨hne, inode_setInode_of_ne hne _ _⟩

/-- A locked inode cannot be locked again, so the lock is that of another. -/
theorem leaves_mutexLock : Leaves x (mutexLock y) := by
  intro fs fs' u hx h
  obtain ⟨fs₁, hlock, h⟩ := bind_eq_ok.mp h
  cases h
  exact (lock_of_locked hx hlock).2

/-- Another inode is unlocked. -/
theorem leaves_mutexUnlock (hne : x ≠ y) : Leaves x (mutexUnlock y) := by
  intro fs fs' u _ h
  cases h
  exact inode_setInode_of_ne hne _ _

/-- Another inode is changed. -/
theorem leaves_onINode (hne : x ≠ y) (f : InCoreINode → Disk → Except Fault (InCoreINode × Disk)) :
    Leaves x (onINode y f) := by
  intro fs fs' u _ h
  obtain ⟨r, -, h⟩ := bind_eq_ok.mp h
  cases h
  exact inode_setInode_of_ne hne _ _

/-- A search reads the directory and fills a buffer. -/
theorem leaves_search {entryName : Option Name} {offset n : Nat} {buf : Nat → DirectoryEntry}
    {forUnlink : Bool} :
    Leaves x (searchINodeDirectoryEntries env y entryName offset buf n forUnlink) := by
  intro fs fs' r _ h
  obtain ⟨s, -, h⟩ := bind_eq_ok.mp h
  cases h
  rfl

/-- Reading the last entry changes no inode. -/
theorem leaves_getLastEntry : Leaves x (getLastEntry env y) := by
  intro fs fs' r _ h
  obtain ⟨s, -, h⟩ := bind_eq_ok.mp h
  cases h
  rfl

/-- `iget` does not hand out a locked inode, and fills only a node that nobody holds. -/
theorem leaves_iget {n dev : Nat} : Leaves x (iget n dev) := by
  intro fs fs' r hx h
  obtain ⟨found, -, h⟩ := bind_eq_ok.mp h
  cases found with
  | none =>
      obtain ⟨⟨popped, cache⟩, hpop, h⟩ := bind_eq_ok.mp h
      have hinode : cache.inode x = fs.inode x := congrFun (Cache.popFreeList_inode hpop) x
      cases popped with
      | none =>
          cases h
          exact hinode
      | some node =>
          obtain ⟨fs₁, hlock, h⟩ := bind_eq_ok.mp h
          obtain ⟨hne, heq⟩ := lock_of_locked (hinode ▸ hx) hlock
          cases h
          refine (inode_setInode_of_ne hne _ _).trans ?_
          refine (inode_setInode_of_ne hne _ _).trans ?_
          refine (inode_setInode_of_ne hne _ _).trans ?_
          refine (congrFun (Cache.updateInHashQ_inode fs₁.cache node n dev) x).trans ?_
          exact heq.trans hinode
  | some node =>
      obtain ⟨fs₁, hlock, h⟩ := bind_eq_ok.mp h
      obtain ⟨hne, heq⟩ := lock_of_locked (show ((fs.log (.fetch n)).inode x).iNodeMutex = true from hx)
        hlock
      obtain ⟨cache, hunlist, h⟩ := bind_eq_ok.mp h
      have hinode : cache.inode = fs₁.cache.inode := by
        unfold unlist at hunlist
        split at hunlist
        · exact Cache.freeListRemove_inode hunlist
        · cases hunlist
          rfl
      cases h
      refine (inode_setInode_of_ne hne _ _).trans ((inode_setInode_of_ne hne _ _).trans ?_)
      have hfresh : (refresh { fs₁ with cache := cache } n node).inode x = cache.inode x := by
        unfold refresh
        dsimp only
        split
        · exact inode_setInode_of_ne hne _ _
        · rfl
      rw [hfresh, hinode]
      exact heq

/-- `iput` locks the inode first, so it gives back another. -/
theorem leaves_iput {now : UInt64} : Leaves x (iput now y) := by
  intro fs fs' r hx h
  obtain ⟨fs₁, hlock, h⟩ := bind_eq_ok.mp h
  obtain ⟨hne, heq⟩ := lock_of_locked hx hlock
  rw [← heq]
  dsimp only at h
  split at h
  · cases h
    exact inode_setInode_of_ne hne _ _
  · split at h
    · obtain ⟨⟨z, d⟩, -, h⟩ := bind_eq_ok.mp h
      obtain ⟨found, -, h⟩ := bind_eq_ok.mp h
      cases found with
      | none =>
          cases h
          refine (inode_setInode_of_ne hne _ _).trans ((inode_setInode_of_ne hne _ _).trans ?_)
          exact inode_setInode_of_ne hne _ _
      | some found =>
          obtain ⟨cache, hins, h⟩ := bind_eq_ok.mp h
          cases h
          refine (inode_setInode_of_ne hne _ _).trans ?_
          refine (congrFun (Cache.freeListInsert_inode hins) x).trans ?_
          exact (inode_setInode_of_ne hne _ _).trans (inode_setInode_of_ne hne _ _)
    · cases h
      exact (inode_setInode_of_ne hne _ _).trans (inode_setInode_of_ne hne _ _)

/-- What is done under another lock leaves the inode alone. -/
theorem Leaves.underLock {body : NaoM Int} (hbody : x ≠ y → Leaves x body) :
    Leaves x (underLock env y body) := by
  intro fs fs' ret hx h
  obtain ⟨u, fs₁, hlock, h⟩ := NaoM.bind_eq_ok.mp h
  have hne : x ≠ y := by
    obtain ⟨fs₂, hlock, -⟩ := bind_eq_ok.mp hlock
    exact (lock_of_locked hx hlock).1
  have heq := leaves_mutexLock hx hlock
  have hrest : Leaves x (do
      let retVal ← body
      mutexUnlock y
      let _ ← iput env.now y
      pure retVal) :=
    (hbody hne).bind fun ret => (leaves_mutexUnlock hne).bind fun _ => leaves_iput.bind fun _ =>
      leaves_pure ret
  exact (hrest (heq ▸ hx) h).trans heq

/-- The link count and the directory that are written are those of others. -/
theorem leaves_unlinkFetched (hne : x ≠ y) (r : Option NodeId) : Leaves x (unlinkFetched env y r) := by
  cases r with
  | none => exact leaves_throw _
  | some deletedFile =>
      intro fs fs' ret hx h
      obtain ⟨u, fs₁, hlock, h⟩ := NaoM.bind_eq_ok.mp h
      have hdel : x ≠ deletedFile := by
        obtain ⟨fs₂, hlock, -⟩ := bind_eq_ok.mp hlock
        exact (lock_of_locked hx hlock).1
      have heq := leaves_mutexLock hx hlock
      refine Eq.trans ?_ heq
      refine Leaves.bind leaves_get (fun s => ?_) (heq ▸ hx) h
      refine (leaves_onINode hdel _).bind fun _ => (leaves_mutexUnlock hdel).bind fun _ =>
        leaves_iput.bind fun _ => leaves_get.bind fun s' => ?_
      exact (leaves_onINode hne _).bind fun _ => leaves_pure 0

/-- Finding the entry and filling its place are done on a copy of the inode. -/
theorem leaves_unlinkEntry {name : Name} : Leaves x (unlinkEntry env y name) :=
  leaves_search.bind fun _ => leaves_pure _

/-- A name is taken out of another directory. -/
theorem leaves_unlinkFileFromINode (hne : x ≠ y) {name : Name} :
    Leaves x (unlinkFileFromINode env y name) := by
  rw [unlinkFileFromINode_eq]
  refine leaves_unlinkEntry.bind fun entry => ?_
  cases entry with
  | none => exact leaves_pure _
  | some entry => exact leaves_iget.bind fun r => leaves_unlinkFetched hne r

/-- Validation that leaves the inode alone, for directories only. -/
theorem Leaves.validateIfDirectory {validate : NodeId → NaoM Int} (hval : Leaves x (validate y)) :
    Leaves x (validateIfDirectory validate y) := by
  intro fs fs' ret hx h
  unfold FS.validateIfDirectory at h
  split at h
  · exact hval hx h
  · cases h
    rfl

/-- The induction is on the rounds, each of which validates the inode of one entry. -/
theorem leaves_emptyDirLoop {validate : NodeId → NaoM Int}
    (hval : ∀ z, x ≠ z → Leaves x (validate z)) (hne : x ≠ y) {n : Nat} :
    ∀ (fuel offset : Nat), Leaves x (emptyDirLoop env validate y n fuel offset) := by
  intro fuel
  induction fuel with
  | zero => exact fun offset => leaves_throw _
  | succ fuel ih =>
      intro offset
      rw [emptyDirLoop]
      split
      · refine leaves_getLastEntry.bind fun entry => leaves_iget.bind fun r => ?_
        cases r with
        | none => exact leaves_throw _
        | some fileEntry =>
            refine Leaves.bind (Leaves.underLock fun hz => (hval fileEntry hz).validateIfDirectory)
              fun ret => ?_
            split
            · exact leaves_pure _
            · exact (leaves_ofExcept _).bind fun name =>
                (leaves_unlinkFileFromINode hne).bind fun _ => ih _
      · exact leaves_pure _

/-- **A directory that is emptied leaves the locked ones alone.** -/
theorem leaves_validateAndEmptyDirectory : ∀ (depth : Nat) (force : Bool) (y : NodeId), x ≠ y →
    Leaves x (validateAndEmptyDirectory env depth force y) := by
  intro depth
  induction depth with
  | zero => exact fun force y _ => leaves_throw _
  | succ depth ih =>
      intro force y hne
      refine leaves_get.bind fun s => ?_
      dsimp only
      split
      · exact leaves_pure _
      · split
        · exact leaves_pure _
        · split
          · exact leaves_pure _
          · split
            · exact leaves_get.bind fun s' => leaves_emptyDirLoop (fun z hz => ih true z hz) hne _ _
            · exact leaves_pure _

end Leaves

/-! ## The depth of the recursion

The model bounds the rounds of a loop and the calls that are nested, and stops with a fault
where a bound is reached.  Here one round, and one call, are followed by anything at all. -/

/-- One round of the loop of `emptyDir`, and `next` for the rounds behind it. -/
def emptyDirRound (env : Env) (validate : NodeId → NaoM Int) (fileINode : NodeId)
    (entriesInDirectory : Nat) (next : Nat → NaoM Int) (entriesOffset : Nat) : NaoM Int :=
  if entriesOffset < entriesInDirectory then do
    let entry ← getLastEntry env fileINode
    match ← iget entry.iNodeNum 0 with
    | none => throw .nullPointer
    | some fileEntry =>
        let retVal ← underLock env fileEntry (validateIfDirectory validate fileEntry)
        if retVal < 0 then pure retVal
        else
          let name ← NaoM.ofExcept entry.string
          let _ ← unlinkFileFromINode env fileINode name
          next (entriesOffset + directoryEntrySize)
  else pure 0

/-- The loop of `emptyDir` is its rounds, one after another. -/
theorem emptyDirLoop_eq_iterate (env : Env) (validate : NodeId → NaoM Int) (y : NodeId) (n fuel : Nat) :
    emptyDirLoop env validate y n fuel =
      (emptyDirRound env validate y n)^[fuel] fun _ => throw .diverges := by
  induction fuel with
  | zero => rfl
  | succ fuel ih =>
      rw [Function.iterate_succ_apply', ← ih]
      rfl

/-- One call of `validateAndEmptyDirectoryIfNeeded`, with `validate` for the calls nested in
it and `rest` behind as many rounds of its loop as there are entries, and one more. -/
def validateWith (env : Env) (rest : Nat → NaoM Int) (validate : Bool → NodeId → NaoM Int)
    (force : Bool) (fileINode : NodeId) : NaoM Int := do
  let inode := (← get).inode fileINode
  if inode.iNodeNumber = 0 then pure eAcces
  else if inode.size > 2 * directoryEntrySize ∧ ¬ force then pure eNotempty
  else if inode.type ≠ .directory then pure eNotdir
  else if force ∧ inode.size > 2 * directoryEntrySize then do
    let entriesInDirectory := ((← get).inode fileINode).size / directoryEntrySize
    (emptyDirRound env (validate true) fileINode entriesInDirectory)^[entriesInDirectory + 1] rest
      (2 * directoryEntrySize)
  else pure 0

/-- The model is so many nested calls, with a fault below them and behind their rounds. -/
theorem validateAndEmptyDirectory_eq_iterate (env : Env) (depth : Nat) :
    validateAndEmptyDirectory env depth =
      (validateWith env fun _ => throw .diverges)^[depth] fun _ _ => throw .diverges := by
  induction depth with
  | zero => rfl
  | succ depth ih =>
      rw [Function.iterate_succ_apply', ← ih]
      funext force y
      unfold validateWith
      simp only [← emptyDirLoop_eq_iterate]
      rfl

/-- The number of locked inodes. -/
def locks (fs : FS) : Nat := (Finset.univ.filter fun x => (fs.inode x).iNodeMutex = true).card

section Depth

variable {env : Env} {y : NodeId} {fs fs' : FS}

/-- There are as many mutexes as nodes in the cache. -/
theorem locks_le (fs : FS) : fs.locks ≤ inodeBufferSize :=
  (Finset.card_filter_le _ _).trans_eq (Finset.card_fin _)

/-- What gives back its locks leaves their number as it was. -/
theorem Pending.locks {held : List NodeId} (h : Pending fs held [] fs') : fs'.locks = fs.locks := by
  refine congrArg Finset.card (Finset.filter_congr fun x _ => ?_)
  rw [h.mutexes x, if_neg (by simp)]

/-- A lock that is taken was free. -/
theorem locks_lock (h : fs.lock y = .ok fs') : fs'.locks = fs.locks + 1 := by
  unfold lock at h
  split at h
  · cases h
  · next hy =>
      cases h
      have hset : (Finset.univ.filter fun x => ((fs.setInode y
          { fs.inode y with iNodeMutex := true }).inode x).iNodeMutex = true) =
          insert y (Finset.univ.filter fun x => (fs.inode x).iNodeMutex = true) := by
        ext x
        by_cases hx : x = y
        · simp [hx]
        · simp [hx, inode_setInode_of_ne hx]
      rw [locks, hset, Finset.card_insert_of_notMem (by simpa using hy)]
      rfl

/-- Under one more lock the two bodies agree, and so they do around it. -/
theorem underLock_congr {body body' : NaoM Int}
    (h : ∀ fs', fs'.locks = fs.locks + 1 → body fs' = body' fs') :
    underLock env y body fs = underLock env y body' fs := by
  refine NaoM.bind_congr rfl fun u fs₁ hlock => NaoM.bind_congr (h fs₁ ?_) fun _ _ _ => rfl
  obtain ⟨fs₂, hlock, heq⟩ := bind_eq_ok.mp hlock
  cases heq
  exact locks_lock hlock

/-- Within the rounds that the model allows, the loop does not reach what follows them; and it
calls `validate` only while one more inode is locked. -/
theorem emptyDirRound_iterate {v v' : NodeId → NaoM Int} {rest : Nat → NaoM Int}
    (hbal : ∀ z, Balanced (v' z)) {n k : Nat} (hv : ∀ z fs, FS.locks fs = k + 1 → v z fs = v' z fs) :
    ∀ (fuel offset : Nat) (fs : FS), n - offset < fuel → fs.locks = k →
      (emptyDirRound env v y n)^[fuel] rest offset fs = emptyDirLoop env v' y n fuel offset fs := by
  intro fuel
  induction fuel with
  | zero =>
      intro offset fs h
      omega
  | succ fuel ih =>
      intro offset fs h hk
      rw [Function.iterate_succ_apply', emptyDirRound, emptyDirLoop]
      split
      · refine NaoM.bind_congr rfl fun entry fs₁ hlast => NaoM.bind_congr rfl fun r fs₂ hget => ?_
        have hpend := (balanced_getLastEntry (Pending.refl fs) hlast).iget hget
        cases r with
        | none => rfl
        | some fileEntry =>
            have hlocks := hpend.locks
            have hsame : underLock env fileEntry (validateIfDirectory v fileEntry) fs₂ =
                underLock env fileEntry (validateIfDirectory v' fileEntry) fs₂ := by
              refine underLock_congr fun fs₃ h₃ => ?_
              unfold validateIfDirectory
              split
              · exact hv _ _ (by omega)
              · rfl
            refine NaoM.bind_congr hsame fun ret fs₃ hcheck => ?_
            rw [hsame] at hcheck
            replace hpend := Balanced.underLock (hbal fileEntry).validateIfDirectory hpend hcheck
            split
            · rfl
            · refine NaoM.bind_congr rfl fun name fs₄ hname => NaoM.bind_congr rfl fun _ fs₅ hunlink => ?_
              refine ih _ _ (by simp only [directoryEntrySize]; omega) ?_
              rw [(balanced_unlinkFileFromINode (hpend.ofExcept hname) hunlink).locks, hk]
      · rfl

/-- **The recursion ends.**  A nested call holds one more lock than the one that makes it, so
that no more calls are nested than there are nodes: what is put in the place of a call below
them, or of a round behind those of a loop, does not matter. -/
theorem validateWith_iterate (rest : Nat → NaoM Int) (deepest : Bool → NodeId → NaoM Int) :
    ∀ (depth : Nat) (force : Bool) (y : NodeId) (fs : FS), inodeBufferSize < depth + fs.locks →
      (validateWith env rest)^[depth] deepest force y fs =
        validateAndEmptyDirectory env depth force y fs := by
  intro depth
  induction depth with
  | zero =>
      intro force y fs h
      have := locks_le fs
      omega
  | succ depth ih =>
      intro force y fs h
      rw [Function.iterate_succ_apply', validateWith, validateAndEmptyDirectory]
      refine NaoM.bind_congr rfl fun s fs₁ hread => ?_
      cases hread
      dsimp only
      split
      · rfl
      · split
        · rfl
        · split
          · rfl
          · split
            · refine NaoM.bind_congr rfl fun s fs₁ hread => ?_
              cases hread
              exact emptyDirRound_iterate (fun z => balanced_validateAndEmptyDirectory _ _ z)
                (fun z fs' hlocks => ih true z fs' (by omega)) _ _ _
                (Nat.lt_succ_of_le (Nat.sub_le _ _)) rfl
            · rfl

end Depth

/-! ## How far a directory shrinks -/

section Size

variable {env : Env} {y : NodeId} {fs fs' : FS}

/-- A file that is cut loses what it is cut by. -/
theorem decreaseLoop_size {now : UInt64} {size : Nat} (hsize : size ≤ 1024) : ∀ (fuel : Nat)
    {x z : InCoreINode} {d d' : Disk} {offset bytes : Nat} {resp : BmapResponse},
    d.decreaseLoop now size fuel x offset bytes resp = .ok (z, d') → bytes ≤ size →
    size - bytes ≤ x.size → x.size ≤ maxFileSize → z.size = x.size - (size - bytes) := by
  intro fuel
  induction fuel with
  | zero =>
      intro x z d d' offset bytes resp h
      cases h
  | succ fuel ih =>
      intro x z d d' offset bytes resp h hb hx hmax
      rw [Disk.decreaseLoop] at h
      split at h
      · obtain ⟨⟨ret, resp', z', d₁⟩, hbmap, hrest⟩ := bind_eq_ok.mp h
        obtain ⟨rfl, rfl⟩ := Disk.bmap_read hbmap
        dsimp only at hrest
        split at hrest
        · simp only [Except.ok.injEq, Prod.mk.injEq] at hrest
          rw [← hrest.1, Disk.size_shrink now hx (by omega) hmax]
        · obtain ⟨d₂, -, hrest⟩ := bind_eq_ok.mp hrest
          have hcut := Disk.size_shrink now (c := resp'.byteOffsetInBlock + 1) (x := z') (by omega)
            (by omega) hmax
          rw [ih hrest (by omega) (by omega) (by omega), hcut]
          omega
      · cases h
        omega

/-- A locked directory loses one entry or none. -/
theorem unlinkFileFromINode_size {name : Name} {ret : Int} (hlock : (fs.inode y).iNodeMutex = true)
    (h64 : 64 ≤ (fs.inode y).size) (hmax : (fs.inode y).size ≤ maxFileSize)
    (h : unlinkFileFromINode env y name fs = .ok (ret, fs')) :
    (fs'.inode y).iNodeMutex = true ∧ (fs'.inode y).size ≤ (fs.inode y).size ∧
      (fs.inode y).size ≤ (fs'.inode y).size + 64 := by
  rw [unlinkFileFromINode_eq] at h
  obtain ⟨entry, fs₁, hentry, hrest⟩ := NaoM.bind_eq_ok.mp h
  have hy₁ := leaves_unlinkEntry hlock hentry
  cases entry with
  | none =>
      cases hrest
      rw [hy₁]
      exact ⟨hlock, Nat.le_refl _, by omega⟩
  | some entry =>
      obtain ⟨r, fs₂, hget, hrest⟩ := NaoM.bind_eq_ok.mp hrest
      have hy₂ := (leaves_iget (hy₁ ▸ hlock) hget).trans hy₁
      cases r with
      | none => cases hrest
      | some deletedFile =>
          obtain ⟨u, fs₃, hmutex, hrest⟩ := NaoM.bind_eq_ok.mp hrest
          have hne : y ≠ deletedFile := by
            obtain ⟨fs₄, hlock', -⟩ := bind_eq_ok.mp hmutex
            exact (lock_of_locked (hy₂ ▸ hlock) hlock').1
          obtain ⟨s, fs₄, hread, hrest⟩ := NaoM.bind_eq_ok.mp hrest
          cases hread
          obtain ⟨u, fs₅, hmeta, hrest⟩ := NaoM.bind_eq_ok.mp hrest
          obtain ⟨u, fs₆, hunlock, hrest⟩ := NaoM.bind_eq_ok.mp hrest
          obtain ⟨r, fs₇, hput, hrest⟩ := NaoM.bind_eq_ok.mp hrest
          have hy₃ := (leaves_mutexLock (hy₂ ▸ hlock) hmutex).trans hy₂
          have hy₅ := (leaves_onINode hne _ (hy₃ ▸ hlock) hmeta).trans hy₃
          have hy₆ := (leaves_mutexUnlock hne (hy₅ ▸ hlock) hunlock).trans hy₅
          have hy₇ := (leaves_iput (hy₆ ▸ hlock) hput).trans hy₆
          obtain ⟨s, fs₈, hread, hrest⟩ := NaoM.bind_eq_ok.mp hrest
          cases hread
          obtain ⟨u, fs₉, htrunc, hrest⟩ := NaoM.bind_eq_ok.mp hrest
          cases hrest
          obtain ⟨⟨z, d⟩, hcut, heq⟩ := bind_eq_ok.mp htrunc
          cases heq
          rw [hy₇] at hcut
          have hmax' := hmax
          simp only [maxFileSize] at hmax'
          have hto : wrapSize ((fs.inode y).size - directoryEntrySize) = (fs.inode y).size - 64 := by
            rw [directoryEntrySize, InCoreINode.wrapSize_of_lt (by omega) (by omega)]
            omega
          have htouch := Disk.truncateINode_touched (by omega) (hto ▸ hcut)
          dsimp only at hcut
          rw [hto, Disk.truncateINode, if_neg (by omega), if_pos (by omega)] at hcut
          have hz := decreaseLoop_size (by omega) _ hcut (Nat.zero_le _) (by omega) hmax
          rw [inode_setInode_self]
          exact ⟨htouch.mutex.trans hlock, by omega, by omega⟩

/-- The rounds that `emptyDir` makes: the offset grows by 64, and is compared with the number
of entries. -/
def emptyRounds (entries offset : Nat) : Nat := (entries - offset + 63) / 64

/-- The directory is locked all along, so each round finds the size that the last one left. -/
theorem emptyDirLoop_size {validate : NodeId → NaoM Int}
    (hval : ∀ z, y ≠ z → Leaves y (validate z)) {n : Nat} : ∀ (fuel offset : Nat) (fs fs' : FS) (ret : Int),
    (fs.inode y).iNodeMutex = true → 64 * emptyRounds n offset ≤ (fs.inode y).size →
    (fs.inode y).size ≤ maxFileSize →
    emptyDirLoop env validate y n fuel offset fs = .ok (ret, fs') →
    (fs.inode y).size ≤ (fs'.inode y).size + 64 * emptyRounds n offset := by
  intro fuel
  induction fuel with
  | zero =>
      intro offset fs fs' ret _ _ _ h
      cases h
  | succ fuel ih =>
      intro offset fs fs' ret hlock hle hmax h
      rw [emptyDirLoop] at h
      split at h
      · next hlt =>
          have hround : emptyRounds n offset = emptyRounds n (offset + 64) + 1 := by
            unfold emptyRounds
            omega
          obtain ⟨entry, fs₁, hlast, hrest⟩ := NaoM.bind_eq_ok.mp h
          have hy₁ := leaves_getLastEntry hlock hlast
          obtain ⟨r, fs₂, hget, hrest⟩ := NaoM.bind_eq_ok.mp hrest
          have hy₂ := (leaves_iget (hy₁ ▸ hlock) hget).trans hy₁
          cases r with
          | none => cases hrest
          | some fileEntry =>
              obtain ⟨ret', fs₃, hcheck, hrest⟩ := NaoM.bind_eq_ok.mp hrest
              have hy₃ := (Leaves.underLock (fun hz => (hval fileEntry hz).validateIfDirectory)
                (hy₂ ▸ hlock) hcheck).trans hy₂
              split at hrest
              · cases hrest
                rw [hy₃]
                omega
              · obtain ⟨name, fs₄, hname, hrest⟩ := NaoM.bind_eq_ok.mp hrest
                have hy₄ := (leaves_ofExcept _ (hy₃ ▸ hlock) hname).trans hy₃
                obtain ⟨_, fs₅, hunlink, hrest⟩ := NaoM.bind_eq_ok.mp hrest
                obtain ⟨hlock₅, hle₅, hge₅⟩ := unlinkFileFromINode_size (hy₄ ▸ hlock)
                  (by rw [hy₄]; omega) (by rw [hy₄]; exact hmax) hunlink
                rw [hy₄] at hle₅ hge₅
                have hrec := ih (offset + 64) fs₅ fs' ret hlock₅ (by omega) (by omega) hrest
                omega
      · cases h
        omega

end Size

/-! ## Empty directories -/

/-- An entry behind the first two of a directory, or of a directory below it: the directory
and the position. -/
inductive Slot (fs : FS) (root : INode) : INode → Nat → Prop
  | own {i : Nat} : 2 ≤ i → i < root.size / directoryEntrySize → Slot fs root root i
  | nested {dir : INode} {i j : Nat} : Slot fs root dir i →
      (fs.current (fs.disk.entryAt dir.dataBlockNums i).iNodeNum).type = .directory → 2 ≤ j →
      j < (fs.current (fs.disk.entryAt dir.dataBlockNums i).iNodeNum).size / directoryEntrySize →
      Slot fs root (fs.current (fs.disk.entryAt dir.dataBlockNums i).iNodeNum) j

/-- The entries below a directory that name inode `n`, by directory and position. -/
def slotsOf (fs : FS) (root : INode) (n : Nat) : Set (Nat × Nat) :=
  { s | ∃ dir, Slot fs root dir s.2 ∧ dir.iNodeNumber = s.1 ∧
    (fs.disk.entryAt dir.dataBlockNums s.2).iNodeNum = n }

/-- What a forced emptying that returns 0 is to leave: the directory has its first two
entries, so have the directories that were below it, and every inode that was below it has
lost as many links as entries. -/
structure Emptied (fs fs' : FS) (node : NodeId) : Prop where
  size : (fs'.inode node).size = 2 * directoryEntrySize
  names : (fs'.disk.entries (fs'.inode node)).map DirectoryEntry.label = [[0x2e], [0x2e, 0x2e]]
  dirs : ∀ dir i, Slot fs (fs.inode node).toINode dir i →
    (fs.current (fs.disk.entryAt dir.dataBlockNums i).iNodeNum).type = .directory →
    (fs'.current (fs.disk.entryAt dir.dataBlockNums i).iNodeNum).size = 2 * directoryEntrySize
  links : ∀ n, (slotsOf fs (fs.inode node).toINode n).Nonempty →
    (fs'.current n).linksCount + (slotsOf fs (fs.inode node).toINode n).ncard =
      (fs.current n).linksCount

/-- A directory other than the root that a caller has locked, with `.` and `..` in front. -/
structure LockedDirectory (fs : FS) (node : NodeId) : Prop extends
    DirectoryFile fs.disk (fs.inode node) where
  locked : (fs.inode node).iNodeMutex = true
  type : (fs.inode node).type = .directory
  number : (fs.inode node).iNodeNumber ≠ 0
  dots : ((fs.disk.entries (fs.inode node)).take 2).map DirectoryEntry.label = [[0x2e], [0x2e, 0x2e]]

section Emptied

variable {fs fs' : FS} {node : NodeId}

/-- A directory of at most two entries has no slot below it. -/
theorem slot_free {root dir : INode} {i : Nat} (h : root.size / directoryEntrySize ≤ 2) :
    ¬ Slot fs root dir i := by
  intro hslot
  induction hslot with
  | own => omega
  | nested _ _ _ _ ih => exact ih

/-- A directory with no more than 128 entries is not changed. -/
theorem validate_few (env : Env) (h : LockedDirectory fs node)
    (hfew : (fs.inode node).size / directoryEntrySize ≤ 2 * directoryEntrySize) :
    validateAndEmptyDirectoryIfNeeded env node true fs = .ok (0, fs) := by
  refine NaoM.bind_eq_ok.mpr ⟨fs, fs, rfl, ?_⟩
  dsimp only
  rw [if_neg h.number, if_neg (by simp), if_neg (by simpa using h.type)]
  split
  · refine NaoM.bind_eq_ok.mpr ⟨fs, fs, rfl, ?_⟩
    rw [emptyDirLoop, if_neg (by omega)]
    rfl
  · rfl

/-- A directory that has its first two entries only is empty from the start. -/
theorem emptied_of_two (h : LockedDirectory fs node)
    (hsize : (fs.inode node).size = 2 * directoryEntrySize) : Emptied fs fs node := by
  have hcount : (fs.inode node).size / directoryEntrySize ≤ 2 := by
    rw [hsize]
    decide
  have hlen : (fs.disk.entries (fs.inode node)).length ≤ 2 := by
    rw [Disk.length_entries]
    exact hcount
  refine ⟨hsize, ?_, fun dir i hslot => absurd hslot (slot_free hcount), fun n ⟨s, dir, hslot, _⟩ =>
    absurd hslot (slot_free hcount)⟩
  rw [← List.take_of_length_le hlen]
  exact h.dots

/-- A directory with more than two entries keeps more than two. -/
theorem validate_size (env : Env) (h : LockedDirectory fs node)
    (hmore : 2 * directoryEntrySize < (fs.inode node).size) {ret : Int}
    (hrun : validateAndEmptyDirectoryIfNeeded env node true fs = .ok (ret, fs')) :
    2 * directoryEntrySize < (fs'.inode node).size := by
  obtain ⟨s, fs₁, hread, hrest⟩ := NaoM.bind_eq_ok.mp hrun
  cases hread
  dsimp only at hrest
  rw [if_neg h.number, if_neg (by simp), if_neg (by simpa using h.type),
    if_pos ⟨rfl, hmore⟩] at hrest
  obtain ⟨s, fs₁, hread, hrest⟩ := NaoM.bind_eq_ok.mp hrest
  cases hread
  have hwhole := Disk.size_eq h.toDirectoryFile
  have hrounds : 64 * emptyRounds ((fs.inode node).size / directoryEntrySize) (2 * directoryEntrySize) +
      2 * directoryEntrySize < (fs.inode node).size := by
    simp only [emptyRounds, directoryEntrySize] at hmore ⊢
    omega
  have hsize := emptyDirLoop_size (fun z hz => leaves_validateAndEmptyDirectory _ true z hz) _ _ fs fs' ret
    h.locked (by omega) h.size hrest
  omega

/-- **A directory is empty after a forced emptying only if it was before.**  The recursion
ends, whatever is below the directory: a call nested deeper than there are nodes is never
made, nor a round of a loop behind one for each entry, so that anything may stand in their
place.  But entries are left unless there were only two. -/
theorem emptied_iff (env : Env) (h : LockedDirectory fs node) :
    (∀ (rest : Nat → NaoM Int) (deepest : Bool → NodeId → NaoM Int) (depth : Nat),
      inodeBufferSize < depth → (validateWith env rest)^[depth] deepest true node fs =
        validateAndEmptyDirectoryIfNeeded env node true fs) ∧
    ∀ fs', validateAndEmptyDirectoryIfNeeded env node true fs = .ok (0, fs') →
      (Emptied fs fs' node ↔ (fs.inode node).size = 2 * directoryEntrySize) := by
  refine ⟨fun rest deepest depth hdepth => ?_, fun fs' hrun => ⟨fun hempty => ?_, fun hsize => ?_⟩⟩
  · obtain ⟨k, rfl⟩ : ∃ k, depth = inodeBufferSize + 1 + k := ⟨depth - (inodeBufferSize + 1), by omega⟩
    rw [Function.iterate_add_apply]
    exact validateWith_iterate rest _ _ true node fs (by omega)
  · have hdots := congrArg List.length h.dots
    rw [List.length_map, List.length_take, Disk.length_entries] at hdots
    have hwhole := Disk.size_eq h.toDirectoryFile
    have hsize := hempty.size
    by_contra hne
    have hmore : 2 * directoryEntrySize < (fs.inode node).size := by
      simp only [List.length_cons, List.length_nil, directoryEntrySize] at hdots hne ⊢
      omega
    have := validate_size env h hmore hrun
    omega
  · rw [validate_few env h (by rw [hsize]; decide)] at hrun
    cases hrun
    exact emptied_of_two h hsize

end Emptied

/-- A disk in memory with the entries `.`, `..` and `a` in every block. -/
def dotsDisk : Disk := Disk.threeEntryDisk fun i => ([[0x2e], [0x2e, 0x2e], [0x61]].getD i [], 1 - i)

/-- A locked directory with two or three entries. -/
theorem exists_lockedDirectory {size : Nat} (h : size = 128 ∨ size = 192) :
    ∃ fs : FS, LockedDirectory fs 0 ∧ (fs.inode 0).size = size := by
  obtain ⟨fs, hdisk, hinode, -⟩ := exists_open
    { oneBlockDirectory size 16388 with iNodeMutex := true } dotsDisk
  have hfile := Disk.directoryFile_oneBlock (show 16388 < dotsDisk.backend.capacity by decide)
    (show 0 < size by omega) (by omega) (by omega)
  have hfile' : DirectoryFile fs.disk (fs.inode 0) := by
    rw [hdisk, hinode]
    exact ⟨⟨hfile.own, hfile.size⟩, hfile.searchable, hfile.whole⟩
  refine ⟨fs, ⟨hfile', by rw [hinode], by rw [hinode]; rfl,
    by rw [hinode]; exact Nat.one_ne_zero, ?_⟩, by rw [hinode]; rfl⟩
  have htake : (fs.disk.entries (fs.inode 0)).take 2 =
      (List.range 2).map (dotsDisk.entryAt (oneBlockDirectory size 16388).dataBlockNums) := by
    rw [hdisk, hinode]
    obtain rfl | rfl := h
    · rfl
    · rfl
  have hentries : ∀ i ∈ List.range 2, dotsDisk.entryAt (oneBlockDirectory size 16388).dataBlockNums i = _ :=
    fun i hi => Disk.entryAt_threeEntryDisk _ size (Nat.lt_succ_of_lt (List.mem_range.mp hi))
  rw [htake, List.map_congr_left hentries]
  decide

/-- A directory that the code empties. -/
theorem emptied_two : ∃ fs fs' : FS, (fs.inode 0).size = 128 ∧ Emptied fs fs' 0 ∧
    validateAndEmptyDirectoryIfNeeded blankEnv 0 true fs = .ok (0, fs') := by
  obtain ⟨fs, h, hsize⟩ := exists_lockedDirectory (.inl rfl)
  have hrun := validate_few blankEnv h (by rw [hsize]; decide)
  exact ⟨fs, fs, hsize, ((emptied_iff blankEnv h).2 fs hrun).mpr hsize, hrun⟩

/-- With three entries, the call returns 0 and removes nothing. -/
theorem emptying_keeps_three : ¬ ∀ (env : Env) (fs fs' : FS) (node : NodeId), LockedDirectory fs node →
    validateAndEmptyDirectoryIfNeeded env node true fs = .ok (0, fs') → Emptied fs fs' node := by
  intro hall
  obtain ⟨fs, h, hsize⟩ := exists_lockedDirectory (.inr rfl)
  have hempty := hall blankEnv fs fs 0 h (validate_few blankEnv h (by rw [hsize]; decide))
  exact absurd (hsize.symm.trans hempty.size) (by decide)

end FS

end Naofs
