import Naofs.Stock

/-!
# Naofs.Insertion

What a new file does to the tree.

The tree of a state after a creation is the old one with one more entry
(`Planted.grown`): a way that does not come to this entry leads where it led before.  The
state is stocked again, so that the next file can be created (`Planted.stocked`).
-/

namespace Naofs

/-! ## A tree with one more entry -/

namespace Tree

/-- `t'` is `t` with an entry `name` in `n` for a new inode `m`, which names only itself
and `n`. -/
structure Grown (t t' : Tree) (n : Nat) (name : Name) (m : Nat) : Prop where
  parent : t.Reached n
  isDirectory : t.directory n
  absent : t.entry n name = none
  directory : ∀ k, t.Reached k → t'.directory k = t.directory k
  entry : t'.entry n name = some m
  siblings : ∀ name', name' ≠ name → t'.entry n name' = t.entry n name'
  others : ∀ k, t.Reached k → t.directory k → k ≠ n → t'.entry k = t.entry k
  inside : ∀ name' k, t'.entry m name' = some k → k = m ∨ k = n

/-- The way along the names comes to `n` where `name` is the next one. -/
def Passes (t : Tree) (n : Nat) (name : Name) (names : List Name) : Prop :=
  ∃ pre post, names = pre ++ name :: post ∧ pre.foldlM t.follow 0 = some n

/-- One name of a path, in a directory: no step leads on from any other file. -/
def walk (t : Tree) (n : Nat) (name : Name) : Option Nat :=
  if t.directory n then t.entry n name else none

/-- The names are those of the entry `name` of `n`, or go on below it. -/
def Enters (t : Tree) (n : Nat) (name : Name) (names : List Name) : Prop :=
  ∃ pre post, names = pre ++ name :: post ∧ pre.foldlM t.walk 0 = some n

section Walk

variable {t : Tree} {n m : Nat} {name : Name}

/-- A literal step is one that the code takes. -/
theorem follow_of_walk (h : t.walk n name = some m) : t.follow n name = some m := by
  rw [walk] at h
  split at h
  · next hdir => rw [follow, if_pos hdir, h]
  · cases h

/-- Where a walk can go on, it has come to a directory. -/
theorem directory_of_walk {names : List Name} (h : (names.foldlM t.walk n).isSome) (hne : names ≠ []) :
    t.directory n := by
  cases names with
  | nil => exact absurd rfl hne
  | cons name names =>
      rw [List.foldlM_cons, walk] at h
      by_contra hdir
      rw [if_neg hdir] at h
      cases h

/-- The code's way is a walk if it meets directories only. -/
theorem foldlM_walk_of_follow : ∀ (names : List Name) {k : Nat},
    (∀ pre j, pre <+: names → pre.foldlM t.walk k = some j → t.directory j) →
    names.foldlM t.follow k = some m → names.foldlM t.walk k = some m := by
  intro names
  induction names with
  | nil => exact fun _ h => h
  | cons name names ih =>
      intro k hdirs h
      have hdir : t.directory k := hdirs [] k (List.nil_prefix ..) rfl
      rw [List.foldlM_cons, follow, if_pos hdir] at h
      rw [List.foldlM_cons, walk, if_pos hdir]
      cases hentry : t.entry k name with
      | none =>
          rw [hentry] at h
          cases h
      | some j =>
          rw [hentry] at h
          refine ih (fun pre i hpre hwalk => hdirs (name :: pre) i (List.cons_prefix_cons.mpr ⟨rfl, hpre⟩) ?_) h
          rw [List.foldlM_cons, walk, if_pos hdir, hentry]
          exact hwalk

end Walk

/-- Where two trees differ in one entry only, a way that does not come to it leads where it
led before. -/
theorem foldlM_follow {t t' : Tree} {n : Nat} {name : Name}
    (h : ∀ k name', t.Reached k → (k = n → name' ≠ name) → t'.follow k name' = t.follow k name') :
    ∀ (names : List Name) {k : Nat}, t.Reached k →
      (∀ pre post, names = pre ++ name :: post → pre.foldlM t.follow k ≠ some n) →
      names.foldlM t'.follow k = names.foldlM t.follow k := by
  intro names
  induction names with
  | nil => exact fun _ _ => rfl
  | cons name' names ih =>
      intro k hk hpass
      have hstep : t'.follow k name' = t.follow k name' := by
        refine h k name' hk fun hkn hname => hpass [] names (by rw [hname]; rfl) ?_
        rw [hkn]
        rfl
      rw [List.foldlM_cons, List.foldlM_cons, hstep]
      cases hnext : t.follow k name' with
      | none => rfl
      | some k' =>
          refine ih (hk.follow hnext) fun pre post heq => ?_
          have := hpass (name' :: pre) post (by rw [heq]; rfl)
          rwa [List.foldlM_cons, hnext] at this

namespace Grown

variable {t t' : Tree} {n m : Nat} {name : Name}

/-- Steps elsewhere, or by another name, lead where they led. -/
theorem follow (h : Grown t t' n name m) {k : Nat} (hk : t.Reached k) {name' : Name}
    (hne : k = n → name' ≠ name) : t'.follow k name' = t.follow k name' := by
  rw [Tree.follow, Tree.follow, h.directory k hk]
  by_cases hdir : t.directory k
  · rw [if_pos hdir, if_pos hdir]
    by_cases hkn : k = n
    · subst hkn
      exact h.siblings name' (hne rfl)
    · rw [h.others k hk hdir hkn]
  · rw [if_neg hdir, if_neg hdir]

/-- So does a path that does not pass the new name. -/
theorem foldlM_of_not_passes (h : Grown t t' n name m) {names : List Name}
    (hpass : ¬ t.Passes n name names) : names.foldlM t'.follow 0 = names.foldlM t.follow 0 :=
  foldlM_follow (fun _ _ hk hne => h.follow hk hne) names .refl fun pre post heq hpre =>
    hpass ⟨pre, post, heq, hpre⟩

/-- The old tree had nothing behind the new entry. -/
theorem foldlM_of_passes (h : Grown t t' n name m) {names : List Name}
    (hpass : t.Passes n name names) : names.foldlM t.follow 0 = none := by
  obtain ⟨pre, post, rfl, hpre⟩ := hpass
  rw [List.foldlM_append, hpre]
  change (name :: post).foldlM t.follow n = none
  rw [List.foldlM_cons, Tree.follow, if_pos h.isDirectory, h.absent]
  rfl

/-- What was found is found. -/
theorem foldlM_of_some (h : Grown t t' n name m) {names : List Name} {k : Nat}
    (hk : names.foldlM t.follow 0 = some k) : names.foldlM t'.follow 0 = some k := by
  rw [h.foldlM_of_not_passes fun hpass => ?_, hk]
  rw [h.foldlM_of_passes hpass] at hk
  cases hk

/-- The new entry is found behind the way to its directory. -/
theorem foldlM_append (h : Grown t t' n name m) {names : List Name}
    (hn : names.foldlM t.follow 0 = some n) : (names ++ [name]).foldlM t'.follow 0 = some m := by
  rw [List.foldlM_append, h.foldlM_of_some hn]
  change [name].foldlM t'.follow n = some m
  rw [List.foldlM_cons, Tree.follow, h.directory n h.parent, if_pos h.isDirectory, h.entry]
  rfl

/-- The new file is all that is reached besides. -/
theorem reached (h : Grown t t' n name m) {k : Nat} (hk : t'.Reached k) : t.Reached k ∨ k = m := by
  induction hk with
  | refl => exact .inl .refl
  | @tail i k _ hnext ih =>
      obtain ⟨hdir, name', hname'⟩ := hnext
      obtain hi | rfl := ih
      · rw [h.directory i hi] at hdir
        by_cases hin : i = n
        · subst hin
          by_cases heq : name' = name
          · rw [heq, h.entry] at hname'
            cases hname'
            exact .inr rfl
          · rw [h.siblings name' heq] at hname'
            exact .inl (hi.tail ⟨hdir, name', hname'⟩)
        · rw [h.others i hi hdir hin] at hname'
          exact .inl (hi.tail ⟨hdir, name', hname'⟩)
      · obtain rfl | rfl := h.inside name' k hname'
        · exact .inr rfl
        · exact .inl h.parent

end Grown

end Tree

namespace FS

/-! ## The tree after it -/

section After

variable {fs fs' : FS} {held : List NodeId} {l : List Nat} {n m k needs : Nat} {fileType : INodeType}
  {env : Env} {name : Name}

/-- A name is found among the old entries first. -/
theorem find?_entries_append {entries : List DirectoryEntry} {e : DirectoryEntry} :
    (entries ++ [e]).find? (·.label = name) = (entries.find? (·.label = name)).or
      (if e.label = name then some e else none) := by
  rw [List.find?_append, List.find?_singleton]
  simp

/-- The files that are not the parent are where they were. -/
theorem Planted.same {e : DirectoryEntry} {inside : List DirectoryEntry} (h : Stocked fs held l)
    (hp : Planted fs held l n m k needs fileType e inside fs') (hn : fs.tree.Reached n)
    (hm : ¬ fs.tree.Reached m) {i : Nat} (hi : fs.tree.Reached i) (hin : i ≠ n) :
    fs'.seen i = fs.seen i ∧ fs'.blocksOf i = fs.blocksOf i ∧
      fs'.disk.entries (fs'.seen i).bare = fs.disk.entries (fs.seen i).bare := by
  have hseen := hp.others i (h.number i hi) hin fun hcon => hm (hcon ▸ hi)
  have hsame : ∀ b ∈ fs.blocksOf i, fs'.disk.blocks b = fs.disk.blocks b := by
    intro b hb
    refine hp.frame b (h.data i hi b (List.mem_append_right _ hb)) fun hcon => ?_
    obtain hcon | hcon := List.mem_append.mp hcon
    · exact (List.nodup_append.mp (h.own i hi).nodup).2.2 b hcon b hb rfl
    · exact h.apart i n hi hn hin hb hcon
  refine ⟨hseen, ?_, ?_⟩
  · rw [blocksOf, hseen]
    exact Disk.fileBlocks_same (x := (fs.seen i).bare) (h.size i hi) hsame
  · rw [hseen]
    exact Disk.entries_same (x := (fs.seen i).bare) (h.size i hi) hsame

/-- The first entries lead back to the directory and its parent. -/
theorem firstEntries_iNodeNum (hn : n < numOfInodes) (hm : m < numOfInodes) :
    ∀ e ∈ firstEntries env fileType m n, e.iNodeNum = m ∨ e.iNodeNum = n := by
  intro e he
  rw [firstEntries] at he
  split at he
  · simp only [List.mem_cons, List.not_mem_nil, or_false] at he
    obtain rfl | rfl := he
    · exact .inl (Nat.mod_eq_of_lt hm)
    · exact .inr (Nat.mod_eq_of_lt hn)
  · exact absurd he List.not_mem_nil

/-- Their names end and are different. -/
theorem firstEntries_names : (∀ e ∈ firstEntries env fileType m n, e.Terminated) ∧
    ((firstEntries env fileType m n).map (·.label)).Nodup := by
  obtain ⟨hdot, hdot'⟩ := DirectoryEntry.label_bytesOf env [0x2e] (by decide) (by decide)
    (m % 65536)
  obtain ⟨hdots, hdots'⟩ := DirectoryEntry.label_bytesOf env [0x2e, 0x2e] (by decide)
    (by decide) (n % 65536)
  rw [firstEntries]
  split
  · constructor
    · intro e he
      simp only [List.mem_cons, List.not_mem_nil, or_false] at he
      obtain rfl | rfl := he
      · exact hdot
      · exact hdots
    · simp only [List.map_cons, List.map_nil]
      rw [hdot', hdots']
      decide
  · exact ⟨fun e he => absurd he List.not_mem_nil, List.nodup_nil⟩

section Name

variable (h : Stocked fs held l) (hp : Planted fs held l n m k needs fileType
    ⟨.tabulate (Disk.bytesOf env name), m % 65536⟩ (firstEntries env fileType m n) fs')
  (hm : m < numOfInodes) (hnew : ¬ fs.tree.Reached m) (h0 : (0 : UInt8) ∉ name)
  (hlen : name.length ≤ 61)

include h hp hm hnew h0 hlen in
/-- **The tree has grown** by one entry. -/
theorem Planted.grown (hn : fs.tree.Reached n) (hdir : fs.tree.directory n)
    (habsent : fs.tree.entry n name = none) : fs.tree.Grown fs'.tree n name m := by
  have hlabel := (DirectoryEntry.label_bytesOf env name h0 hlen (m % 65536)).2
  have hentry : ∀ name', fs'.tree.entry n name' =
      if name' = name then some m else fs.tree.entry n name' := by
    intro name'
    change ((fs'.disk.entries (fs'.seen n).bare).find? (·.label = name')).map (·.iNodeNum) = _
    rw [hp.entries, find?_entries_append, hlabel]
    by_cases hname : name' = name
    · have hnone := Option.map_eq_none_iff.mp habsent
      rw [hname, hnone, if_pos rfl, if_pos rfl]
      exact congrArg some (Nat.mod_eq_of_lt hm)
    · rw [if_neg (Ne.symm hname), if_neg hname, Option.or_none]
      rfl
  refine ⟨hn, hdir, habsent, fun i hi => ?_, ?_, fun name' hname => ?_, fun i hi _ hin => ?_, ?_⟩
  · change sIsdir (fs'.seen i).fileMode = sIsdir (fs.seen i).fileMode
    by_cases hin : i = n
    · rw [hin, hp.mode]
    · rw [(hp.same h hn hnew hi hin).1]
  · rw [hentry, if_pos rfl]
  · rw [hentry, if_neg hname]
  · funext name'
    change ((fs'.disk.entries (fs'.seen i).bare).find? _).map _ = _
    rw [(hp.same h hn hnew hi hin).2.2]
    rfl
  · intro name' i hi
    obtain ⟨e, he, rfl⟩ := Option.map_eq_some_iff.mp hi
    have hmem := List.mem_of_find?_eq_some he
    rw [hp.inside] at hmem
    exact firstEntries_iNodeNum (h.number n hn) hm e hmem

variable (hg : fs.tree.Grown fs'.tree n name m)

include hg in
/-- A file is the parent, the new one, or one that has not changed. -/
theorem Planted.reached_cases {i : Nat} (hi : fs'.tree.Reached i) :
    (i = n ∨ i = m) ∨ fs.tree.Reached i ∧ i ≠ n := by
  by_cases hin : i = n
  · exact .inl (.inl hin)
  · exact (hg.reached hi).elim (fun hi => .inr ⟨hi, hin⟩) fun him => .inl (.inr him)

include h hp hnew hg

/-- No file is too large. -/
theorem Planted.size_le (hsize : (fs.seen n).size + 64 ≤ maxFileSize) {i : Nat}
    (hi : fs'.tree.Reached i) : (fs'.seen i).size ≤ maxFileSize := by
  obtain (rfl | rfl) | ⟨hi, hin⟩ := Planted.reached_cases hg hi
  · rw [hp.size]
    exact hsize
  · obtain h0 | h128 := hp.small
    · rw [h0]
      decide
    · rw [h128]
      decide
  · rw [(hp.same h hg.parent hnew hi hin).1]
    exact h.size i hi

/-- The blocks of a file and of the free list are among those of one old file and of the
old free list. -/
theorem Planted.count_le {i : Nat} (hi : fs'.tree.Reached i) : ∃ j, fs.tree.Reached j ∧
    ∀ b, (l.drop needs ++ fs'.blocksOf i).count b ≤ (l ++ fs.blocksOf j).count b := by
  obtain hnear | ⟨hi, hin⟩ := Planted.reached_cases hg hi
  · refine ⟨n, hg.parent, fun b => ?_⟩
    have hle := hp.owned b
    simp only [List.count_append]
    obtain rfl | rfl := hnear <;> omega
  · refine ⟨i, hi, fun b => ?_⟩
    have hdrop := Disk.count_take_add_drop l needs b
    rw [(hp.same h hg.parent hnew hi hin).2.1]
    simp only [List.count_append]
    omega

/-- The blocks of a file and the free list are different still. -/
theorem Planted.own {i : Nat} (hi : fs'.tree.Reached i) :
    Own fs'.disk.backend (l.drop needs ++ fs'.blocksOf i) := by
  obtain ⟨j, hj, hle⟩ := hp.count_le h hnew hg hi
  rw [hp.backend]
  exact (h.own j hj).mono hle

/-- The parent and the new file share no block, and have none of another file. -/
theorem Planted.apart {i j : Nat} (hi : fs'.tree.Reached i) (hj : fs'.tree.Reached j) (hij : i ≠ j) :
    (fs'.blocksOf i).Disjoint (fs'.blocksOf j) := by
  have hnear : ∀ i, i = n ∨ i = m → ∀ b ∈ fs'.blocksOf i, b ∈ l ++ fs.blocksOf n := by
    intro i hi b hb
    have hle := hp.owned b
    have hpos := List.count_pos_iff.mpr hb
    rw [← List.count_pos_iff, List.count_append]
    obtain rfl | rfl := hi <;> omega
  have hfar : ∀ i, fs.tree.Reached i → i ≠ n → ∀ b ∈ fs'.blocksOf i, b ∉ l ++ fs.blocksOf n := by
    intro i hi hin b hb hcon
    rw [(hp.same h hg.parent hnew hi hin).2.1] at hb
    obtain hcon | hcon := List.mem_append.mp hcon
    · exact (List.nodup_append.mp (h.own i hi).nodup).2.2 b hcon b hb rfl
    · exact h.apart i n hi hg.parent hin hb hcon
  intro b hb hb'
  obtain hnear₁ | ⟨hi, hin⟩ := Planted.reached_cases hg hi
  · obtain hnear₂ | ⟨hj, hjn⟩ := Planted.reached_cases hg hj
    · have hle := hp.owned b
      have hone := List.nodup_iff_count_le_one.mp (h.own n hg.parent).nodup b
      rw [List.count_append] at hone
      have hpos := List.count_pos_iff.mpr hb
      have hpos' := List.count_pos_iff.mpr hb'
      obtain rfl | rfl := hnear₁ <;> obtain rfl | rfl := hnear₂
      · exact hij rfl
      · omega
      · omega
      · exact hij rfl
    · exact hfar j hj hjn b hb' (hnear i hnear₁ b hb)
  · obtain hnear₂ | ⟨hj, hjn⟩ := Planted.reached_cases hg hj
    · exact hfar i hi hin b hb (hnear j hnear₂ b hb')
    · rw [(hp.same h hg.parent hnew hi hin).2.1] at hb
      rw [(hp.same h hg.parent hnew hj hjn).2.1] at hb'
      exact h.apart i j hi hj hij hb hb'

include h0 hlen in
/-- The names are unique as they were. -/
theorem Planted.names {i : Nat} (hi : fs'.tree.Reached i) (hd : fs'.tree.directory i) :
    NamesEnd fs'.disk (fs'.seen i).bare ∧ DistinctNames fs'.disk (fs'.seen i).bare := by
  rw [NamesEnd, DistinctNames]
  obtain (rfl | rfl) | ⟨hi, hin⟩ := Planted.reached_cases hg hi
  · obtain ⟨hterm, hlabel⟩ := DirectoryEntry.label_bytesOf env name h0 hlen (m % 65536)
    rw [hp.entries, List.map_append, List.map_singleton, hlabel]
    constructor
    · intro e he
      obtain he | he := List.mem_append.mp he
      · exact h.terminated i hg.parent hg.isDirectory e he
      · rwa [List.mem_singleton.mp he]
    · refine List.nodup_append.mpr ⟨h.distinct i hg.parent hg.isDirectory, List.nodup_singleton _, ?_⟩
      intro a ha c hc heq
      rw [List.mem_singleton.mp hc] at heq
      obtain ⟨e, he, rfl⟩ := List.mem_map.mp ha
      have hnone := List.find?_eq_none.mp (Option.map_eq_none_iff.mp hg.absent) e he
      exact hnone (by simpa using heq)
  · rw [hp.inside]
    exact firstEntries_names
  · rw [(hp.same h hg.parent hnew hi hin).2.2]
    rw [hg.directory i hi] at hd
    exact ⟨h.terminated i hi hd, h.distinct i hi hd⟩

include hm h0 hlen in
/-- The tree is sound with the new file. -/
theorem Planted.treeState (hsize : (fs.seen n).size + 64 ≤ maxFileSize) : TreeState fs' held where
  coherent := hp.coherent
  number := fun i hi => (hg.reached hi).elim (h.number i) fun him => him ▸ hm
  linked := by
    intro i hi hi0
    obtain (rfl | rfl) | ⟨hi, hin⟩ := Planted.reached_cases hg hi
    · rw [hp.links]
      exact h.linked i hg.parent hi0
    · exact hp.linked
    · rw [(hp.same h hg.parent hnew hi hin).1]
      exact h.linked i hi hi0
  directory := by
    intro i hi hd
    refine ⟨⟨(hp.own h hnew hg hi).mono fun b => ?_, hp.size_le h hnew hg hsize hi⟩, hd, ?_⟩
    · change (fs'.blocksOf i).count b ≤ _
      rw [List.count_append]
      omega
    · change (fs'.seen i).size % 64 = 0
      obtain (rfl | rfl) | ⟨hi, hin⟩ := Planted.reached_cases hg hi
      · have : (fs.seen i).size % 64 = 0 := (h.directory i hg.parent hg.isDirectory).whole
        rw [hp.size]
        omega
      · have := hp.small
        omega
      · rw [(hp.same h hg.parent hnew hi hin).1]
        rw [hg.directory i hi] at hd
        exact (h.directory i hi hd).whole
  terminated := fun _ hi hd => (hp.names h hnew h0 hlen hg hi hd).1
  distinct := fun _ hi hd => (hp.names h hnew h0 hlen hg hi hd).2

include hm h0 hlen in
/-- **The state stays stocked.** -/
theorem Planted.stocked (hsize : (fs.seen n).size + 64 ≤ maxFileSize) (hslot : k < 512)
    (hlisted : listed (fs.disk.blocks 3) k = m) : Stocked fs' held (l.drop needs) where
  toTreeState := hp.treeState h hm hnew h0 hlen hg hsize
  free := hp.free
  size := fun _ hi => hp.size_le h hnew hg hsize hi
  own := fun _ hi => hp.own h hnew hg hi
  data := by
    intro i hi b hb
    obtain ⟨j, hj, hle⟩ := hp.count_le h hnew hg hi
    have := hle b
    have := List.count_pos_iff.mpr hb
    exact h.data j hj b (List.count_pos_iff.mp (by omega))
  apart := fun _ _ hi hj hij => hp.apart h hnew hg hi hj hij
  unused := by
    intro i hi hne
    rw [hp.list i hi] at hne ⊢
    split at hne
    · exact absurd rfl hne
    · next hik =>
        rw [if_neg hik]
        have hunused := h.unused i hi hne
        have him : listed (fs.disk.blocks 3) i ≠ m := fun hcon =>
          hik (h.once i hi k hslot hne (hcon.trans hlisted.symm))
        have hin : listed (fs.disk.blocks 3) i ≠ n := fun hcon =>
          hunused.unreached h.toTreeState hne (hcon ▸ hg.parent)
        have hseen := hp.others _ (listed_lt (fs.disk.blocks 3) i) hin him
        refine ⟨by rw [hseen]; exact hunused.type, by rw [hseen]; exact hunused.links, fun x hx => ?_⟩
        rw [hp.kept x hx]
        exact hunused.notHeld x hx
  once := by
    intro i hi j hj hne heq
    rw [hp.list i hi] at hne heq
    rw [hp.list j hj] at heq
    split at hne
    · exact absurd rfl hne
    · next hik =>
        rw [if_neg hik] at heq
        split at heq
        · exact absurd heq hne
        · exact h.once i hi j hj hne heq

end Name

end After

end FS

end Naofs
