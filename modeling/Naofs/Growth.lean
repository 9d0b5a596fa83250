import Naofs.Sessions
import Naofs.Balance

/-!
# Naofs.Growth

The operations that make a new file: `mkdir` and `create`.

The run of `createFile` is that of `Naofs.Visibility`.  Here it is also said whose the new
file is (`Stocked.plants`), and with that the volume has one file more (`Serving.createFile`).
`create` then opens it.
-/

namespace Naofs

open Function (update update_self update_of_ne)

/-- The parent of a path is a path. -/
theorem IsPath.parent {path : Name} (h : IsPath path) :
    IsPath (parentPath path) ∧ (0 : UInt8) ∉ lastName path := by
  obtain ⟨rest, rfl, -⟩ := h.eq_cons
  have hbytes := h.2
  rw [← parentPath_append_lastName (slash :: rest), List.mem_append, not_or] at hbytes
  obtain ⟨rest', hparent⟩ := parentPath_slash rest
  refine ⟨⟨?_, hbytes.1⟩, hbytes.2⟩
  rw [hparent]
  rfl

namespace FS

open Disk (endNeeds)

/-! ## The run of `createFile` -/

section Run

variable {env : Env} {fileType : INodeType} {fs fs₁ : FS} {held : List NodeId} {l : List Nat} {n : Nat}
  {x : NodeId} {path name : Name}

/-- The mode that the inode gets. -/
def modeOf (fileType : INodeType) (mode : UInt32) : UInt32 :=
  if fileType = .directory then InCoreINode.sIfdir ||| mode else mode

/-- A new file `m` in the directory `n`, from slot `k` of the inode list. -/
structure Plants (env : Env) (fs : FS) (held : List NodeId) (l : List Nat) (fileType : INodeType)
    (fileMode uid gid : UInt32) (n : Nat) (name : Name) (m k : Nat) (fs' : FS) : Prop
    extends Planted fs held l n m k (endNeeds (fs.seen n).size + firstNeeds fileType) fileType
      ⟨.tabulate (Disk.bytesOf env name), m % 65536⟩ (firstEntries env fileType m n) fs' where
  slot : k < 511
  first : ∀ i < k, Naofs.listed (fs.disk.blocks 3) i = 0
  listed : Naofs.listed (fs.disk.blocks 3) k = m
  ne : m ≠ 0
  link : fileType = .regular → (fs'.seen m).linksCount = 1
  parent : (fs.seen n).SameOwner (fs'.seen n)
  fileMode : (fs'.seen m).fileMode = fileMode
  uid : (fs'.seen m).ownerUid = uid
  gid : (fs'.seen m).groupUid = gid

/-- **The run of `createFile`** from a parent that is not held otherwise. -/
theorem Stocked.plants (h : Stocked fs held l) (hx : Standing fs held fs₁ x n)
    (hn : fs.tree.Reached n) (hdir : fs.tree.directory n) (htype : fileType ≠ .free)
    (mode uid gid : UInt32) (hsup : Supplied fs held l fileType n)
    (hvalidate : validateThenGetParentINode env fileType path fs = .ok (some (x, name), fs₁))
    (hxheld : x ∉ held) (hfree : ∃ z, z ∉ x :: held) :
    ∃ m k fs', createFile env path fileType mode uid gid fs = .ok (0, fs') ∧ Keeps held fs₁ fs' ∧
      Plants env fs held l fileType (modeOf fileType mode) uid gid n name m k fs' := by
  obtain ⟨k, hk, hne, hz⟩ := exists_firstSlot hsup.inode
  have hlen := hsup.blocks
  have hunused := h.unused k (by omega) hne
  have hlt : Naofs.listed (fs.disk.blocks 3) k < numOfInodes := listed_lt _ _
  have hnm : n ≠ Naofs.listed (fs.disk.blocks 3) k := fun hcon =>
    hunused.unreached h.toTreeState hne (hcon ▸ hn)
  obtain ⟨fs₂, hget, halloc⟩ := h.allocate hx hn env fileType (modeOf fileType mode) uid gid hk hz rfl hne
  obtain ⟨y, fs₃, hadd, hentered⟩ := h.enter halloc hn hnm hlt hdir env name hsup.size (by omega)
  obtain ⟨z, fs₄, higet, hfetched⟩ | ⟨hnone, -⟩ := hentered.coherent.iget hlt
  · have hfresh := hentered.staged.fresh hfetched hnm hunused
    have hzheld : z ∉ held := fun hcon => hfresh (List.mem_cons_of_mem _ hcon)
    have hxz : x ∉ z :: held := fun hcon => (List.mem_cons.mp hcon).elim
      (fun hcon => hfresh (hcon ▸ List.mem_cons_self)) hxheld
    obtain ⟨w, fs₅, hinit, hwtype, hstarted⟩ := hentered.start h hn hnm hunused hfetched env htype rfl hlen
    obtain ⟨fs₆, fs₇, hput, hput', hplanted⟩ :=
      hstarted.finish h hn hnm env.now hentered.bounded fun _ => hxheld
    rw [hwtype] at hplanted
    -- The inodes of the parent and of the new file, with the attributes that they had.
    obtain ⟨y', d, hadd', -, -, huses, -⟩ := halloc.add h hn hdir env name hsup.size (by omega)
    cases hadd.symm.trans hadd'
    have hy : y' = y := (inode_setInode_self ..).symm.trans hentered.inode
    have hparent := huses.touched.sameOwner
    rw [hy, halloc.value] at hparent
    obtain ⟨w', _, hinit', hinitialised, -⟩ := hentered.staged.start h hn hfetched hfresh env htype
      (by rw [hentered.new]; rfl) hlen
    cases hinit.symm.trans hinit'
    have hw : w' = w := by rw [← hstarted.inodeChild, hinitialised.inode, update_self]
    have hchild := hinitialised.uses.touched.sameOwner
    rw [hw, hfetched.value, hentered.new] at hchild
    -- Both are written back.
    obtain ⟨_, hret₁, hreturned₁⟩ := (hstarted.coherent.perm (List.Perm.swap z x held)).iput env.now
      hstarted.parent (.inr (by
        rw [hstarted.inodeParent, hstarted.links]
        exact (Decidable.em (n = 0)).elim .inr fun h0 => .inl (h.linked n hn h0)))
    cases hput.symm.trans hret₁
    obtain ⟨_, hret₂, hreturned₂⟩ := hreturned₁.coherent.iput env.now
      ((hreturned₁.caches _ z).mpr hstarted.child) (.inr (.inl (by
        rw [hreturned₁.value, hstarted.inodeChild]
        exact hstarted.linked)))
    cases hput'.symm.trans hret₂
    have hn₇ : fs₇.seen n = y.toINode := by
      rw [(hreturned₂.others n (h.number n hn) hnm).1, (hreturned₁.last hxz).1, hstarted.inodeParent]
    have hm₇ : fs₇.seen (Naofs.listed (fs.disk.blocks 3) k) = w.toINode := by
      rw [(hreturned₂.last hzheld).1, hreturned₁.value, hstarted.inodeChild]
    refine ⟨_, k, fs₇, createFile_eq_ok hvalidate hget hadd higet hinit hput hput', ?_, hplanted, hk, hz, rfl,
      hne, fun hregular => ?_, ?_, ?_, ?_, ?_⟩
    · have hkeeps₂ : Keeps held fs₁ fs₂ := by
        simp only [getNewINode, Except.ok.injEq, Prod.mk.injEq] at hget
        rw [← hget.2]
        exact fun _ _ _ => rfl
      have hkeeps₄ := hfetched.keeps hentered.coherent fun v hv => List.mem_cons_of_mem x hv
      have hkeeps₅ : Keeps held fs₄ fs₅ := by
        intro v hv _
        have hvz : v ≠ z := fun hcon => hzheld (hcon ▸ hv)
        rw [hinitialised.inode, update_of_ne hvz]
      exact hkeeps₂.trans ((Keeps.setInode d hxheld).trans (hkeeps₄.trans (hkeeps₅.trans
        (hreturned₁.keeps.trans hreturned₂.keeps))))
    · subst hregular
      rw [hm₇, ← hstarted.inodeChild]
      cases hinit
      exact congrArg (·.linksCount) (inode_setInode_self ..)
    · rw [hn₇]
      exact hparent
    · rw [hm₇]
      exact hchild.mode
    · rw [hm₇]
      exact hchild.uid
    · rw [hm₇]
      exact hchild.gid
  · obtain ⟨z, hz⟩ := hfree
    exact absurd (hnone z).1 hz

end Run

end FS

/-! ## The volume after it -/

/-- What was reached still is. -/
theorem Tree.Grown.reached_of {t t' : Tree} {n m k : Nat} {name : Name} (h : Tree.Grown t t' n name m)
    (hk : t.Reached k) : t'.Reached k := by
  induction hk with
  | refl => exact .refl
  | @tail i _ hi hnext ih =>
      obtain ⟨hdir, name', hname'⟩ := hnext
      refine ih.tail ⟨(h.directory i hi).trans hdir, name', ?_⟩
      by_cases hin : i = n
      · subst hin
        rw [h.siblings name' fun hcon => ?_, hname']
        rw [hcon, h.absent] at hname'
        cases hname'
      · rw [h.others i hi hdir hin, hname']

/-- Regular files have one name, as before. -/
theorem Tree.Grown.singleNamed {t t' : Tree} {n m : Nat} {name : Name} (h : Tree.Grown t t' n name m)
    (hm : ¬ t.Reached m) (hs : t.SingleNamed) : t'.SingleNamed := by
  -- An entry for a regular file is the new one, or was there.
  have hold : ∀ {i j : Nat} {name' : Name}, t'.Reached i → t'.directory i → t'.entry i name' = some j →
      t'.directory j = false → (i = n ∧ name' = name ∧ j = m) ∨
        j ≠ m ∧ t.Reached i ∧ t.directory i ∧ t.entry i name' = some j := by
    intro i j name' hi hdir hname' hj
    obtain hi | rfl := h.reached hi
    · rw [h.directory i hi] at hdir
      by_cases hnew : i = n ∧ name' = name
      · obtain ⟨rfl, rfl⟩ := hnew
        exact .inl ⟨rfl, rfl, Option.some.inj (hname'.symm.trans h.entry)⟩
      · have hentry : t.entry i name' = some j := by
          by_cases hin : i = n
          · subst hin
            rw [← h.siblings name' fun hcon => hnew ⟨rfl, hcon⟩, hname']
          · rw [← h.others i hi hdir hin, hname']
        exact .inr ⟨fun hcon => hm (hcon ▸ hi.entry hdir hentry), hi, hdir, hentry⟩
    · obtain rfl | rfl := h.inside name' j hname'
      · rw [hdir] at hj
        cases hj
      · rw [h.directory j h.parent, h.isDirectory] at hj
        cases hj
  intro i i' j name' name'' hi hdir hname' hi' hdir' hname'' hj
  obtain ⟨rfl, rfl, hjm⟩ | ⟨hjm, hi, hdir, hname'⟩ := hold hi hdir hname' hj
  · obtain ⟨rfl, rfl, -⟩ | ⟨hcon, -⟩ := hold hi' hdir' hname'' hj
    · exact ⟨rfl, rfl⟩
    · exact absurd hjm hcon
  · obtain ⟨-, -, hcon⟩ | ⟨-, hi', hdir', hname''⟩ := hold hi' hdir' hname'' hj
    · exact absurd hcon hjm
    · rw [h.directory j (hi.entry hdir hname')] at hj
      exact hs hi hdir hname' hi' hdir' hname'' hj

namespace FS

open Disk (endNeeds)

/-- A file has its data blocks and the indirect blocks above them. -/
theorem length_blocksOf {fs : FS} {n : Nat} (hsize : (fs.seen n).size ≤ maxFileSize) :
    (fs.blocksOf n).length = Disk.blockTotal (Disk.blockCount (fs.seen n).size) :=
  Disk.length_fileBlocks _ _ (Disk.blockCount_le_max (x := (fs.seen n).bare) hsize)

section Plants

variable {env : Env} {fileType : INodeType} {fs fs' : FS} {l : List Nat} {n m k : Nat} {name : Name}
  {fileMode mode uid gid : UInt32} (h : Serving fs l)
  (hp : Plants env fs fs.openNodes l fileType fileMode uid gid n name m k fs')

include h hp

/-- The inode of the new file had no name. -/
theorem Plants.unreached : ¬ fs.tree.Reached m := by
  have hne := hp.ne
  have hslot := hp.slot
  rw [← hp.listed] at hne ⊢
  exact (h.unused k (by omega) hne).unreached h.toTreeState hne

omit h in
theorem Plants.number : m < numOfInodes := hp.listed ▸ listed_lt _ _

/-- The new file. -/
theorem Plants.file_new (hn : fs.tree.Reached n) (htype : fileType ≠ .free)
    (hmode : fileMode = modeOf fileType mode) (hkind : sIsdir fileMode = decide (fileType = .directory)) :
    fs'.file m = newFile fileType mode uid gid n m := by
  have hinside := hp.inside
  rw [file, Disk.fileOf, hp.fileMode, hp.uid, hp.gid, hkind, newFile, hmode, modeOf]
  cases fileType with
  | free => exact absurd rfl htype
  | regular =>
      have hsize : (fs'.seen m).size = 0 := by
        have hlen := congrArg List.length hinside
        rw [Disk.length_entries, Disk.entryCount] at hlen
        change (fs'.seen m).size / 64 = 0 at hlen
        obtain hsmall | hsmall := hp.small
        · exact hsmall
        · omega
      rw [hsize]
      rfl
  | directory =>
      have hself : m % 65536 = m := Nat.mod_eq_of_lt hp.number
      have hparent : n % 65536 = n := Nat.mod_eq_of_lt (h.number n hn)
      have hdot := (DirectoryEntry.label_bytesOf env [0x2e] (by decide) (by decide) m).2
      have hdots := (DirectoryEntry.label_bytesOf env [0x2e, 0x2e] (by decide) (by decide) n).2
      rw [hinside, firstEntries, if_pos rfl, hself, hparent]
      simp only [decide_true, if_true, List.map_cons, List.map_nil, hdot, hdots]

omit h in
/-- The directory that it is in. -/
theorem Plants.file_parent (hdir : fs.tree.directory n) (h0 : (0 : UInt8) ∉ name) (hlen : name.length ≤ 61) :
    fs'.file n = (fs.file n).link name m := by
  have hself : m % 65536 = m := Nat.mod_eq_of_lt hp.number
  have hlabel := (DirectoryEntry.label_bytesOf env name h0 hlen m).2
  have hdir' : sIsdir (fs'.seen n).fileMode := by
    rw [hp.mode]
    exact hdir
  have hentries := Disk.entries_fileOf (d := fs.disk) (x := fs.seen n) hdir
  rw [file, Disk.fileOf, if_pos hdir', hp.entries, File.link, file, hentries, hp.parent.mode, hp.parent.uid,
    hp.parent.gid, List.map_append, hself]
  simp only [List.map_cons, List.map_nil, hlabel]
  rfl

/-- Another one. -/
theorem Plants.file_other (hn : fs.tree.Reached n) {i : Nat} (hi : fs.tree.Reached i) (hin : i ≠ n) :
    fs'.file i = fs.file i := by
  rw [file, (hp.same h.toStocked hn (hp.unreached h) hi hin).1]
  refine Disk.fileOf_same (h.size i hi) fun b hb => ?_
  refine hp.frame b (h.data i hi b (List.mem_append_right _ hb)) fun hcon => ?_
  obtain hcon | hcon := List.mem_append.mp hcon
  · exact (List.nodup_append.mp (h.own i hi).nodup).2.2 b hcon b hb rfl
  · exact h.apart i n hi hn hin hb hcon

variable (hn : fs.tree.Reached n) (hdir : fs.tree.directory n) (habsent : fs.tree.entry n name = none)
  (h0 : (0 : UInt8) ∉ name) (hlen : name.length ≤ 61)

include hn hdir habsent h0 hlen

/-- The tree has one name more. -/
theorem Plants.grown : fs.tree.Grown fs'.tree n name m :=
  hp.toPlanted.grown h.toStocked hp.number (hp.unreached h) h0 hlen hn hdir habsent

omit hn hdir habsent h0 hlen in
/-- The place of the new file is the first used one. -/
theorem Plants.places (hg : fs.tree.Grown fs'.tree n name m) : ∃ k' ≤ 512,
    (∀ i < k', Naofs.listed (fs'.disk.blocks 3) i = 0) ∧ {i | fs'.tree.Reached i}.ncard ≤ k' + 1 := by
  obtain ⟨k₀, -, hz, hcard⟩ := h.places
  have hslot := hp.slot
  have hle : k₀ ≤ k := by
    by_contra hcon
    exact hp.ne (hp.listed.symm.trans (hz k (by omega)))
  have hreached : {i | fs'.tree.Reached i} ⊆ insert m {i | fs.tree.Reached i} := fun i hi =>
    (hg.reached hi).symm
  have hnew := (Set.ncard_le_ncard hreached (h.finite_reached.insert m)).trans (Set.ncard_insert_le ..)
  refine ⟨k + 1, by omega, fun i hi => ?_, by omega⟩
  rw [hp.list i (by omega)]
  split
  · rfl
  · exact hp.first i (by omega)

omit habsent h0 hlen in
/-- The blocks that were taken are all in the two files. -/
theorem Plants.owned_eq (hsize : (fs.seen n).size + 64 ≤ maxFileSize) (htype : fileType ≠ .free)
    (hblocks : endNeeds (fs.seen n).size + firstNeeds fileType ≤ l.length) (b : Nat) :
    (fs'.blocksOf n ++ fs'.blocksOf m ++ l.drop (endNeeds (fs.seen n).size + firstNeeds fileType)).count b =
      (l ++ fs.blocksOf n).count b := by
  have hnew : Disk.blockTotal (Disk.blockCount (fs'.seen m).size) = firstNeeds fileType ∧
      (fs'.seen m).size ≤ maxFileSize := by
    have hsmall := hp.small
    have hlen := congrArg List.length hp.inside
    rw [Disk.length_entries, Disk.entryCount] at hlen
    cases fileType with
    | free => exact absurd rfl htype
    | regular =>
        change (fs'.seen m).size / 64 = 0 at hlen
        rw [show (fs'.seen m).size = 0 by omega]
        decide
    | directory =>
        change (fs'.seen m).size / 64 = 2 at hlen
        rw [show (fs'.seen m).size = 128 by omega]
        decide
  have hwhole : (fs.seen n).size % 64 = 0 := (h.directory n hn hdir).whole
  refine List.Perm.count_eq (List.Subperm.perm_of_length_le ?_ ?_) b
  · refine List.subperm_ext_iff.mpr fun b _ => ?_
    rw [List.count_append, List.count_append, List.count_append]
    exact hp.owned b
  · have hend : Disk.blockTotal (Disk.blockCount ((fs.seen n).size + 64)) = _ :=
      Disk.blockTotal_end (by decide) (by omega)
    simp only [List.length_append, List.length_drop]
    rw [length_blocksOf (h.size n hn), length_blocksOf (hp.size ▸ hsize), length_blocksOf hnew.2, hnew.1,
      hp.size, hend]
    omega

/-- **The state with the new file.** -/
theorem Plants.serving (hsize : (fs.seen n).size + 64 ≤ maxFileSize) (htype : fileType ≠ .free)
    (hblocks : endNeeds (fs.seen n).size + firstNeeds fileType ≤ l.length)
    (hkind : sIsdir fileMode = decide (fileType = .directory)) (htable : fs'.fileTable = fs.fileTable)
    (hkeeps : Keeps fs.openNodes fs fs') :
    Serving fs' (l.drop (endNeeds (fs.seen n).size + firstNeeds fileType)) := by
  have hg := hp.grown h hn hdir habsent h0 hlen
  have hslot := hp.slot
  have hopen : fs'.openNodes = fs.openNodes := (SameTable.of_eq htable).openNodes
  have hm : fs'.tree.Reached m :=
    (hg.reached_of hn).tail ⟨(hg.directory n hn).trans hdir, name, hg.entry⟩
  refine ⟨?_, (hg.directory 0 .refl).trans h.root, fun i hi => ?_, ?_, fun x hx => ?_, fun x hx => ?_,
    hg.singleNamed (hp.unreached h) h.single, fun i hi hregular => ?_, fun i hi => ?_, fun b hb hcap => ?_,
    hp.places h hg, fun i hi => ?_, fun i hi => ?_, fun i h0 hi => ?_, ?_, by rw [hp.backend]; exact h.device⟩
  · rw [hopen]
    exact hp.toPlanted.stocked h.toStocked hp.number (hp.unreached h) h0 hlen hg hsize (by omega) hp.listed
  · obtain hi | rfl := hg.reached hi
    · rw [hg.directory i hi, ← h.typed i hi]
      by_cases hin : i = n
      · rw [hin, hp.parent.type]
      · rw [(hp.same h.toStocked hn (hp.unreached h) hi hin).1]
    · change _ ↔ sIsdir (fs'.seen i).fileMode = true
      rw [hp.type, hp.fileMode, hkind, decide_eq_true_iff]
  · rw [htable]
    exact h.node
  · rw [hopen] at hx
    obtain ⟨hreached, hregular⟩ := h.regular x hx
    rw [hp.kept x hx, hg.directory _ hreached]
    exact ⟨hg.reached_of hreached, hregular⟩
  · rw [hopen] at hx
    rw [hkeeps x hx (h.live x hx)]
    exact h.live x hx
  · obtain hi | rfl := hg.reached hi
    · rw [hg.directory i hi] at hregular
      rw [← h.link i hi hregular]
      by_cases hin : i = n
      · rw [hin, hp.links]
      · rw [(hp.same h.toStocked hn (hp.unreached h) hi hin).1]
    · change sIsdir (fs'.seen i).fileMode = false at hregular
      rw [hp.fileMode, hkind, decide_eq_false_iff_not] at hregular
      refine hp.link ?_
      cases fileType with
      | free => exact absurd rfl htype
      | regular => rfl
      | directory => exact absurd rfl hregular
  · by_cases him : i = m
    · subst him
      rw [hp.type]
      exact ⟨fun _ => hm, fun _ => htype⟩
    · have hreached : fs'.tree.Reached i ↔ fs.tree.Reached i :=
        ⟨fun hi' => (hg.reached hi').resolve_right him, hg.reached_of⟩
      rw [hreached, ← h.used i hi]
      by_cases hin : i = n
      · rw [hin, hp.parent.type]
      · rw [hp.others i hi hin him]
  · rw [hp.backend] at hcap
    by_cases hmem : b ∈ l ++ fs.blocksOf n
    · rw [← List.count_pos_iff, ← hp.owned_eq h hn hdir hsize htype hblocks b, List.count_pos_iff] at hmem
      obtain hmem | hmem := List.mem_append.mp hmem
      · obtain hmem | hmem := List.mem_append.mp hmem
        · exact .inr ⟨n, hg.reached_of hn, hmem⟩
        · exact .inr ⟨m, hm, hmem⟩
      · exact .inl hmem
    · obtain hcon | ⟨i, hi, hbi⟩ := h.complete b hb hcap
      · exact absurd (List.mem_append_left _ hcon) hmem
      · have hin : i ≠ n := fun hcon => hmem (List.mem_append_right _ (hcon ▸ hbi))
        refine .inr ⟨i, hg.reached_of hi, ?_⟩
        rwa [(hp.same h.toStocked hn (hp.unreached h) hi hin).2.1]
  · obtain hi | rfl := hg.reached hi
    · exact h.reached_le i hi
    · rw [← hp.listed]
      exact h.offered_le k (by omega)
  · rw [hp.list i hi]
    split
    · exact Nat.zero_le _
    · exact h.offered_le i hi
  · obtain hreached | ⟨j, hj, rfl⟩ := h.kept i h0 hi
    · exact .inl (hg.reached_of hreached)
    · by_cases hjk : j = k
      · rw [hjk, hp.listed]
        exact .inl hm
      · exact .inr ⟨j, hj, by rw [hp.list j hj, if_neg hjk]⟩
  · rw [hp.list 511 (by decide), if_neg (by omega)]
    exact h.last

/-- **The volume with the new file.** -/
theorem Plants.agrees (htype : fileType ≠ .free) (hmode : fileMode = modeOf fileType mode)
    (hkind : sIsdir fileMode = decide (fileType = .directory)) (htable : fs'.fileTable = fs.fileTable) :
    (fs.volume.insert n name m (newFile fileType mode uid gid n m)).Agrees fs'.volume := by
  have hg := hp.grown h hn hdir habsent h0 hlen
  refine Volume.Agrees.symm ⟨fun i hi => ?_, (opened_volume (.of_eq htable) hp.kept).symm⟩
  rw [reached_volume] at hi
  change update (update fs.file n ((fs.file n).link name m)) m _ i = fs'.file i
  obtain hi | rfl := hg.reached hi
  · have him : i ≠ m := fun hcon => hp.unreached h (hcon ▸ hi)
    rw [update_of_ne him]
    by_cases hin : i = n
    · rw [hin, update_self, hp.file_parent hdir h0 hlen]
    · rw [update_of_ne hin, hp.file_other h hn hi hin]
  · rw [update_self, hp.file_new h hn htype hmode hkind]

end Plants

/-! ## `mkdir` and `create` -/

/-- What a directory `n` must have for a new file to come into it. -/
structure CanMake (fs : FS) (room : Nat) (fileType : INodeType) (mode : UInt32) (name : Name) (n : Nat) :
    Prop where
  directory : (fs.volume.file n).isDirectory
  absent : fs.volume.tree.entry n name = none
  name : name ≠ [] ∧ name.length ≤ 61
  kind : sIsdir (modeOf fileType mode) = decide (fileType = .directory)
  inode : ∃ k < 511, listed (fs.disk.blocks 3) k ≠ 0
  blocks : endNeeds (fs.volume.file n).size + firstNeeds fileType ≤ room
  size : (fs.volume.file n).size + 64 ≤ maxFileSize

section Make

variable {fs : FS} {l : List Nat} {path : Name} {fileType : INodeType} {mode uid gid : UInt32}

/-- Two nodes of the cache are left beside those that are held. -/
def Roomy (held : List NodeId) : Prop := ∃ z z', z ≠ z' ∧ z ∉ held ∧ z' ∉ held

/-- One of the two is idle. -/
theorem Roomy.idle {held : List NodeId} (h : Roomy held) : ∃ z, z ∉ held := by
  obtain ⟨z, -, -, hz, -⟩ := h
  exact ⟨z, hz⟩

/-- Whatever node is taken, another one is left. -/
theorem Roomy.other {held : List NodeId} (h : Roomy held) (x : NodeId) : ∃ z, z ∉ x :: held := by
  obtain ⟨z, z', hne, hz, hz'⟩ := h
  by_cases hzx : z = x
  · exact ⟨z', fun hcon => (List.mem_cons.mp hcon).elim (fun hcon => hne (hzx.trans hcon.symm)) hz'⟩
  · exact ⟨z, fun hcon => (List.mem_cons.mp hcon).elim hzx hz⟩

/-- Two nodes of the cache are not held. -/
def Spare (fs : FS) : Prop := ∃ z z', z ≠ z' ∧ z ∉ fs.openNodes ∧ z' ∉ fs.openNodes

/-- Without open descriptors all nodes are idle. -/
theorem spare_of_nil (h : fs.openNodes = []) : fs.Spare := by
  refine ⟨0, 1, by decide, ?_, ?_⟩
  · rw [h]
    exact List.not_mem_nil
  · rw [h]
    exact List.not_mem_nil

theorem Spare.free (h : fs.Spare) : ∃ z, z ∉ fs.openNodes := Roomy.idle h

theorem Spare.other (h : fs.Spare) (x : NodeId) : ∃ z, z ∉ x :: fs.openNodes := Roomy.other h x

/-- A new file `m` for the path, in the directory `n`. -/
structure Made (fs : FS) (l : List Nat) (fileType : INodeType) (mode uid gid : UInt32) (path : Name)
    (n m : Nat) (fs' : FS) : Prop where
  serving : Serving fs' (l.drop (endNeeds (fs.volume.file n).size + firstNeeds fileType))
  table : fs'.fileTable = fs.fileTable
  unreached : ¬ fs.volume.tree.Reached m
  agrees : (fs.volume.insert n (lastName path) m (newFile fileType mode uid gid n m)).Agrees fs'.volume
  leads : fs'.volume.leads path = some m
  content : fs'.volume.file m = newFile fileType mode uid gid n m

/-- **`createFile`.** -/
theorem Serving.createFile (h : Serving fs l) (hspare : fs.Spare) (env : Env) (htype : fileType ≠ .free)
    (mode uid gid : UInt32) (hpath : IsPath path)
    (hmake : ∀ n, fs.volume.leads (parentPath path) = some n →
      CanMake fs l.length fileType mode (lastName path) n) :
    (fs.volume.leads (parentPath path) = none ∧ ∃ fs',
      FS.createFile env path fileType mode uid gid fs = .ok (-1, fs') ∧ Serving fs' l ∧
      fs.volume.Agrees fs'.volume) ∨
    ∃ n m fs', fs.volume.leads (parentPath path) = some n ∧
      FS.createFile env path fileType mode uid gid fs = .ok (0, fs') ∧
      Made fs l fileType mode uid gid path n m fs' := by
  obtain ⟨hparent, h0⟩ := hpath.parent
  obtain ⟨rest, rfl, -⟩ := hpath.eq_cons
  have hslash : slash ∈ slash :: rest := List.mem_cons_self
  obtain ⟨hnone, fs', hrun, hserving, hagrees⟩ | ⟨x, n, fs₁, hleads, hrun, hx⟩ :=
    h.lookup hspare.free env hparent
  · refine .inl ⟨hnone, fs', NaoM.bind_eq_ok.mpr ⟨none, fs', ?_, rfl⟩, hserving, hagrees⟩
    rw [validateThenGetParentINode, if_neg (by cases fileType <;> simp_all), getParentINode_eq env hslash]
    exact NaoM.bind_eq_ok.mpr ⟨_, _, hrun, rfl⟩
  · have hcan := hmake n hleads
    have hdir : fs.tree.directory n := (fs.directory_volume n).symm.trans hcan.directory
    have habsent : fs.tree.entry n (lastName (slash :: rest)) = none :=
      (entry_volume hdir _).symm.trans hcan.absent
    have hsize : (fs.volume.file n).size = (fs.seen n).size := h.size_file hx.reached
    have hxheld : x ∉ fs.openNodes := by
      intro hmem
      have hnum : (fs.inode x).iNodeNumber = n := (hx.kept x hmem).symm.trans hx.caches.number
      exact h.notMem (hnum ▸ hdir) hmem
    have hsup : Supplied fs fs.openNodes l fileType n := by
      refine ⟨hcan.inode, ?_, ?_, fun _ z hz hcon => h.notMem (x := z) (hcon ▸ hdir) hz⟩
      · rw [← hsize]
        exact hcan.blocks
      · rw [← hsize]
        exact hcan.size
    have hvalidate := h.validate_ok hx.toStanding hx.reached htype h0 hslash hrun (by rw [habsent]; simp)
    obtain ⟨m, k, fs', hcreate, hkeeps, hp⟩ := h.toStocked.plants hx.toStanding hx.reached hdir htype mode
      uid gid hsup hvalidate hxheld (hspare.other x)
    have htable : fs'.fileTable = fs.fileTable := by
      obtain ⟨-, -, node, hpending⟩ | ⟨-, hpending⟩ := createFile_cases (.refl fs) hcreate
      · exact hpending.table
      · exact hpending.table
    have hg := hp.grown h hx.reached hdir habsent h0 hcan.name.2
    have hserving := hp.serving h hx.reached hdir habsent h0 hcan.name.2 hsup.size htype hsup.blocks
      hcan.kind htable (hx.keeps.trans hkeeps)
    refine .inr ⟨n, m, fs', hleads, hcreate, by rw [hsize]; exact hserving, htable, ?_,
      hp.agrees h hx.reached hdir habsent h0 hcan.name.2 htype rfl hcan.kind htable, ?_,
      hp.file_new h hx.reached htype rfl hcan.kind⟩
    · rw [reached_volume]
      exact hp.unreached h
    · rw [leads_volume] at hleads ⊢
      rw [components_lastName hcan.name.1]
      exact hg.foldlM_append hleads

/-- **`mkdir`.** -/
theorem Serving.mkdir (h : Serving fs l) (hspare : fs.Spare) (env : Env) (context : FuseContext)
    (hpath : IsPath path) (hmake : ∀ n, fs.volume.leads (parentPath path) = some n →
      CanMake fs l.length .directory mode (lastName path) n) :
    Answered env context fs l (.mkdir path mode) := by
  obtain ⟨hnone, fs', hrun, hserving, hagrees⟩ | ⟨n, m, fs', hleads, hrun, hmade⟩ :=
    h.createFile hspare env (by decide) mode context.uid context.gid hpath hmake
  · exact ⟨_, fs', l, _, NaoM.bind_eq_ok.mpr ⟨_, _, hrun, rfl⟩, ⟨hserving, Nat.le_add_right ..⟩,
      .mkdir_none hnone, hagrees⟩
  · refine ⟨_, fs', _, _, NaoM.bind_eq_ok.mpr ⟨_, _, hrun, rfl⟩, ⟨hmade.serving, ?_⟩,
      .mkdir hleads (hmake n hleads).directory (hmake n hleads).absent hmade.unreached, hmade.agrees⟩
    rw [Volume.takes, hleads, Option.elim, List.length_drop]
    exact le_tsub_add

/-- **`create`**: a new file, which is open. -/
theorem Serving.create (h : Serving fs l) (hspare : fs.Spare) (hfull : ¬ fs.TableFull) (env : Env)
    (context : FuseContext) (fi : FuseFileInfo) (hpath : IsPath path)
    (hmake : ∀ n, fs.volume.leads (parentPath path) = some n →
      CanMake fs l.length .regular mode (lastName path) n) :
    Answered env context fs l (.create path mode fi) := by
  obtain ⟨hnone, fs', hrun, hserving, hagrees⟩ | ⟨n, m, fs₁, hleads, hrun, hmade⟩ :=
    h.createFile hspare env (by decide) mode context.uid context.gid hpath hmake
  · refine ⟨_, fs', l, _, ?_, ⟨hserving, Nat.le_add_right ..⟩, .create_none hnone, hagrees⟩
    exact NaoM.bind_eq_ok.mpr ⟨_, _, NaoM.bind_eq_ok.mpr ⟨_, _, hrun, rfl⟩, rfl⟩
  · have hopened : fs₁.openNodes = fs.openNodes := (SameTable.of_eq hmade.table).openNodes
    obtain ⟨reply, fs', l', v', hopen, ⟨hserving, hroom⟩, hstep, hagrees⟩ := hmade.serving.openFile
      (by rw [hopened]; exact hspare.free) (by rw [TableFull, hmade.table]; exact hfull) env context fi hpath
      fun i hi => by
        rw [hmade.leads] at hi
        cases hi
        rw [hmade.content]
        rfl
    cases hstep with
    | openFile_none hnone =>
        rw [hmade.leads] at hnone
        cases hnone
    | @openFile _ _ fi' i hi _ hfree =>
        rw [hmade.leads] at hi
        cases hi
        rw [hmade.agrees.opened] at hfree
        refine ⟨_, fs', l', _, ?_, ⟨hserving, ?_⟩, .create hleads (hmake n hleads).directory
          (hmake n hleads).absent hmade.unreached hfree, (hmade.agrees.openAt fi'.fh m).trans hagrees⟩
        · obtain ⟨⟨ret, fi''⟩, fs₂, hopen, hreply⟩ := NaoM.bind_eq_ok.mp hopen
          cases hreply
          exact NaoM.bind_eq_ok.mpr ⟨_, _, NaoM.bind_eq_ok.mpr ⟨_, _, hrun, hopen⟩, rfl⟩
        · rw [List.length_drop] at hroom
          rw [Volume.takes, hleads, Option.elim]
          exact Nat.sub_le_iff_le_add.mp hroom

end Make

end FS

end Naofs
