import Naofs.Mkfs

/-!
# Naofs.INodeRuns

The inode allocator over whole runs, from a new file system.

The list block always holds a run of zeros, then numbers of free inodes, and
the number 512 in its last slot, which is never taken and never overwritten:
`checkAndGetFreeINode` answers `-1` when its search stops there, so neither is
the list ever refilled.  The allocator therefore serves exactly the inodes
`1, …, 511`, and `allocates_iff` says that it does what its callers expect as
long as one of these is left.
-/

namespace Naofs

/-! ## One call -/

/-- The search of the list stops at the first used slot. -/
theorem firstListed_eq {b : DiskBlock} {k : Nat} (hk : k < 512) (hz : ∀ i < k, listed b i = 0)
    (hne : listed b k ≠ 0) : firstListed (makeINodeListBlock b) = some k := by
  unfold firstListed
  rw [List.find?_range_eq_some]
  refine ⟨by simpa using hne, List.mem_range.mpr hk, fun i hi => ?_⟩
  simp [hz i hi]

/-- `usedSlots` of a run of unused slots followed by used ones. -/
theorem length_usedSlots {f : Nat → Nat} {k m : Nat} (hk : k ≤ m) (hz : ∀ i < k, f i = 0)
    (hne : ∀ i, k ≤ i → i < m → f i ≠ 0) : (usedSlots f m).length = m - k := by
  induction m with
  | zero => simp [usedSlots]
  | succ m ih =>
      by_cases hkm : k = m + 1
      · rw [usedSlots_eq_nil.mpr fun i hi => hz i (by omega), List.length_nil]
        omega
      · rw [usedSlots_succ, if_pos (hne m (by omega) (by omega)), List.length_append,
          ih (by omega) fun i hi hi' => hne i hi (by omega), List.length_singleton]
        omega

namespace Disk

section Calls

variable {d : Disk} {k : Nat} (hcap : dataRegionStart ≤ d.backend.capacity)
  (hz : ∀ i < k, listed (d.blocks 3) i = 0) (now : UInt64) (t : INodeType) (m u g : UInt32)

include hcap

/-- The list after a store of a decoded list. -/
theorem listed_store (d' : Disk) (hb : d'.backend = d.backend) (l : INodeListBlock)
    (hl : ∀ i < 512, l.peek i < 65536) {i : Nat} (hi : i < 512) :
    listed ((d'.store 3 (writeINodeListBlock l (d.blocks 3))).blocks 3) i = l.peek i := by
  have hlt : 3 < d'.backend.capacity := by rw [hb]; simp at hcap; omega
  rw [blocks_store_self _ hlt, listed_writeINodeListBlock _ _ hi, Nat.mod_eq_of_lt (hl i hi)]

/-- The list after one of its slots is written. -/
theorem listed_store_poke (d' : Disk) (hb : d'.backend = d.backend) {c v i : Nat} (hc : c < 512)
    (hv : v < 65536) (hi : i < 512) :
    listed ((d'.store 3
      (writeINodeListBlock ((makeINodeListBlock (d.blocks 3)).poke c v) (d.blocks 3))).blocks 3) i =
      if i = c then v else listed (d.blocks 3) i := by
  have hpoke : ∀ j, ((makeINodeListBlock (d.blocks 3)).poke c v).peek j =
      if j = c then v else listed (d.blocks 3) j := by
    intro j
    rw [Buffer.peek_poke, peek_makeINodeListBlock]
    simp [hc]
  rw [listed_store hcap _ hb _ ?_ hi, hpoke]
  intro j _
  rw [hpoke]
  split
  · exact hv
  · exact listed_lt _ _

include hz

/-- A call that finds a number before the last slot. -/
theorem getNewINode_eq (hk : k < 511) (hne : listed (d.blocks 3) k ≠ 0) :
    d.getNewINode now t m u g = (listed (d.blocks 3) k,
      (d.updateINodeData now (listed (d.blocks 3) k) t m u g 0 0).store 3
        (writeINodeListBlock ((makeINodeListBlock (d.blocks 3)).poke k 0) (d.blocks 3))) := by
  have hload : d.load 3 d.backend.junk = d.blocks 3 :=
    d.load_of_lt (by simp at hcap; omega) _
  have hcheck : checkAndGetFreeINode (makeINodeListBlock (d.blocks 3)) =
      (listed (d.blocks 3) k, (makeINodeListBlock (d.blocks 3)).poke k 0) := by
    simp only [checkAndGetFreeINode, firstListed_eq (by omega) hz hne]
    rw [if_neg (by simp; omega)]
    simp
  unfold getNewINode
  simp only [inodeListBlock, hload, hcheck, if_neg hne]

/-- A number before the last slot is taken off the list. -/
theorem getNewINode_take (hk : k < 511) (hne : listed (d.blocks 3) k ≠ 0) :
    (d.getNewINode now t m u g).1 = listed (d.blocks 3) k ∧
      (d.getNewINode now t m u g).2.backend = d.backend ∧
      (∀ i < 512, listed ((d.getNewINode now t m u g).2.blocks 3) i =
        if i = k then 0 else listed (d.blocks 3) i) ∧
      ∀ n, n ≠ listed (d.blocks 3) k →
        (d.getNewINode now t m u g).2.diskINode n = d.diskINode n := by
  rw [getNewINode_eq hcap hz now t m u g hk hne]
  refine ⟨rfl, by simp, fun i hi => ?_, fun n hn => ?_⟩
  · exact listed_store_poke hcap _ (by simp) (by omega) (by omega) hi
  · rw [diskINode_congr _ (blocks_store_of_ne _ (by omega) _)]
    exact diskINode_updateINodeData_of_ne d now t m u g hcap (listed_lt _ _) hn

/-- The inode that was taken, and the blocks that were written. -/
theorem getNewINode_taken (hk : k < 511) (hne : listed (d.blocks 3) k ≠ 0) :
    (d.getNewINode now t m u g).2.diskINode (listed (d.blocks 3) k) =
        { d.diskINode (listed (d.blocks 3) k) with
          statusChange := now, type := t, fileMode := m, ownerUid := u, groupUid := g, size := 0
          linksCount := 0 } ∧
      ∀ b, b ≠ 3 → b ≠ listed (d.blocks 3) k / 4 + 4 →
        (d.getNewINode now t m u g).2.blocks b = d.blocks b := by
  rw [getNewINode_eq hcap hz now t m u g hk hne]
  constructor
  · rw [diskINode_congr _ (blocks_store_of_ne _ (by omega) _)]
    exact diskINode_updateINodeData_self d now t m u g hcap (listed_lt _ _) (by decide) (by decide)
  · intro b h3 hb
    rw [blocks_store_of_ne _ h3, blocks_updateINodeData _ _ _ _ _ _ _ _ _ hb]

/-- With nothing before the last slot the call fails and changes nothing. -/
theorem getNewINode_fail (hk : k = 511) (hne : listed (d.blocks 3) 511 ≠ 0) :
    (d.getNewINode now t m u g).1 = noINode ∧
      (d.getNewINode now t m u g).2.backend = d.backend ∧
      (∀ i < 512, listed ((d.getNewINode now t m u g).2.blocks 3) i = listed (d.blocks 3) i) ∧
      ∀ n, (d.getNewINode now t m u g).2.diskINode n = d.diskINode n := by
  have hload : d.load 3 d.backend.junk = d.blocks 3 :=
    d.load_of_lt (by simp at hcap; omega) _
  have hcheck : checkAndGetFreeINode (makeINodeListBlock (d.blocks 3)) =
      (noINode, makeINodeListBlock (d.blocks 3)) := by
    simp only [checkAndGetFreeINode, firstListed_eq (b := d.blocks 3) (by omega) (hk ▸ hz) hne]
    rfl
  have heq : d.getNewINode now t m u g = (noINode,
      d.store 3 (writeINodeListBlock (makeINodeListBlock (d.blocks 3)) (d.blocks 3))) := by
    have hupd : d.updateINodeData now noINode t m u g 0 0 = d :=
      d.updateINodeData_of_le _ _ _ _ _ _ _ _ (by decide)
    unfold getNewINode
    simp only [inodeListBlock, hload, hcheck, if_neg (show noINode ≠ 0 by decide), hupd]
  rw [heq]
  refine ⟨rfl, by simp, fun i hi => ?_, fun n => ?_⟩
  · rw [listed_store hcap _ rfl _ (fun j _ => by simpa using listed_lt _ _) hi]
    simp
  · exact diskINode_congr _ (blocks_store_of_ne _ (by omega) _)

/-- A freed inode goes into the slot before the first used one. -/
theorem freeINode_save (hk : 0 < k) (hk' : k < 512) (hne : listed (d.blocks 3) k ≠ 0) {n : Nat}
    (hn : n < 65536) :
    ∃ d', d.freeINode now n = .ok d' ∧ d'.backend = d.backend ∧
      (∀ i < 512, listed (d'.blocks 3) i = if i = k - 1 then n else listed (d.blocks 3) i) ∧
      (d'.diskINode n).type = .free ∧ ∀ n', n' ≠ n → d'.diskINode n' = d.diskINode n' := by
  obtain ⟨c, rfl⟩ : ∃ c, k = c + 1 := ⟨k - 1, by omega⟩
  have hb3 : (d.updateINodeData now n .free 0 0 0 0 0).blocks 3 = d.blocks 3 :=
    d.blocks_updateINodeData _ _ _ _ _ _ _ _ (by omega)
  have hload : (d.updateINodeData now n .free 0 0 0 0 0).load 3 d.backend.junk = d.blocks 3 := by
    rw [load_of_lt _ (by simp at hcap ⊢; omega), hb3]
  have heq : d.freeINode now n = .ok ((d.updateINodeData now n .free 0 0 0 0 0).store 3
      (writeINodeListBlock ((makeINodeListBlock (d.blocks 3)).poke c n) (d.blocks 3))) := by
    have hsave : saveInListIfPossible n (makeINodeListBlock (d.blocks 3)) =
        (true, (makeINodeListBlock (d.blocks 3)).poke c n) := by
      unfold saveInListIfPossible
      rw [firstListed_eq hk' hz hne]
    unfold freeINode
    simp only [inodeListBlock, backend_updateINodeData, hload, hsave, not_true_eq_false, if_false]
  refine ⟨_, heq, by simp, fun i hi => ?_, ?_, fun n' hn' => ?_⟩
  · exact listed_store_poke hcap _ (by simp) (by omega) hn hi
  · rw [diskINode_congr _ (blocks_store_of_ne _ (by omega) _),
      diskINode_updateINodeData_self _ _ _ _ _ _ hcap hn (by decide) (by decide)]
  · rw [diskINode_congr _ (blocks_store_of_ne _ (by omega) _)]
    exact diskINode_updateINodeData_of_ne d now _ _ _ _ hcap hn hn'

end Calls

end Disk

/-! ## Runs -/

/-- A disk and the inodes handed out and not freed since. -/
structure INodeState where
  disk : Disk
  allocated : List Nat

inductive INodeOp where
  | getNew (now : UInt64) (fileType : INodeType) (fileMode uid gid : UInt32)
  | free (now : UInt64) (iNodeNum : Nat)

namespace INodeState

def step (st : INodeState) : INodeOp → Except Fault INodeState
  | .getNew now t m u g =>
      let r := st.disk.getNewINode now t m u g
      .ok ⟨r.2, if r.1 = 0 ∨ r.1 = noINode then st.allocated else r.1 :: st.allocated⟩
  | .free now n => do
      let d ← st.disk.freeINode now n
      .ok ⟨d, st.allocated.erase n⟩

/-- Only allocated inodes are freed. -/
def Enabled (st : INodeState) : INodeOp → Prop
  | .getNew .. => True
  | .free _ n => n ∈ st.allocated

def Step (st st' : INodeState) : Prop := ∃ op, st.Enabled op ∧ st.step op = .ok st'

/-- An inode that could be handed out. -/
def Available (st : INodeState) (n : Nat) : Prop :=
  n ≠ 0 ∧ n < numOfInodes ∧ (st.disk.diskINode n).type = .free

/-- What `getNewINode` owes its callers: a number it returns is that of an
available inode which is not in use, and it fails only if there is none. -/
structure Served (st : INodeState) (now : UInt64) (t : INodeType) (m u g : UInt32) : Prop where
  fresh : (st.disk.getNewINode now t m u g).1 ≠ 0 → (st.disk.getNewINode now t m u g).1 ≠ noINode →
    st.Available (st.disk.getNewINode now t m u g).1 ∧
      (st.disk.getNewINode now t m u g).1 ∉ st.allocated
  complete : (∃ n, st.Available n) → st.Available (st.disk.getNewINode now t m u g).1

/-- The invariant, for a list whose first `k` slots are unused. -/
structure Inv (st : INodeState) (k : Nat) : Prop where
  stored : dataRegionStart ≤ st.disk.backend.capacity
  bound : k ≤ 511
  unused : ∀ i < k, listed (st.disk.blocks 3) i = 0
  used : ∀ i, k ≤ i → i < 511 → listed (st.disk.blocks 3) i ≠ 0
  last : listed (st.disk.blocks 3) 511 = 512
  split : (usedSlots (listed (st.disk.blocks 3)) 511 ++ st.allocated).Perm (List.range' 1 511)
  free : ∀ i, k ≤ i → i < 512 → (st.disk.diskINode (listed (st.disk.blocks 3) i)).type = .free

section Invariant

variable {st : INodeState} {k : Nat}

theorem Inv.length (h : Inv st k) : st.allocated.length = k := by
  have hlen := h.split.length_eq
  have := h.bound
  rw [List.length_append, length_usedSlots h.bound h.unused h.used, List.length_range'] at hlen
  omega

/-- The numbers in the used slots are those of available inodes not in use. -/
theorem Inv.listed_available (h : Inv st k) {i : Nat} (hki : k ≤ i) (hi : i < 511) :
    st.Available (listed (st.disk.blocks 3) i) ∧ listed (st.disk.blocks 3) i ∉ st.allocated := by
  have hne := h.used i hki hi
  refine ⟨⟨hne, listed_lt _ _, h.free i hki (by omega)⟩, fun hmem => ?_⟩
  have hnodup := h.split.nodup_iff.mpr List.nodup_range'
  exact (List.nodup_append.mp hnodup).2.2 _ (mem_usedSlots.mpr ⟨hne, i, hi, rfl⟩) _ hmem rfl

/-- Numbers in the list and in use are below 512. -/
theorem Inv.lt_of_listed (h : Inv st k) {i : Nat} (hi : i < 511) :
    listed (st.disk.blocks 3) i < 512 := by
  by_cases hne : listed (st.disk.blocks 3) i = 0
  · omega
  · have := h.split.mem_iff.mp (List.mem_append_left _ (mem_usedSlots.mpr ⟨hne, i, hi, rfl⟩))
    have := List.mem_range'_1.mp this
    omega

/-- The next number of the list is handed out. -/
theorem Inv.getNew_take (h : Inv st k) (hk : k < 511) (now : UInt64) (t : INodeType)
    (m u g : UInt32) {st' : INodeState} (hstep : st.step (.getNew now t m u g) = .ok st') :
    Inv st' (k + 1) := by
  have hne := h.used k le_rfl hk
  obtain ⟨hret, hback, hlist, hnodes⟩ :=
    Disk.getNewINode_take h.stored h.unused now t m u g hk hne
  have hlt := listed_lt (st.disk.blocks 3) k
  obtain rfl : ⟨(st.disk.getNewINode now t m u g).2, listed (st.disk.blocks 3) k :: st.allocated⟩ =
      st' := by
    simpa [step, hret, hne, show listed (st.disk.blocks 3) k ≠ 18446744073709551615 by omega]
      using hstep
  have hsplit := usedSlots_clear_first (m := 511) hk hne h.unused fun i hi => hlist i (by omega)
  refine ⟨by rw [hback]; exact h.stored, hk, fun i hi => ?_, fun i hi hi' => ?_, ?_, ?_,
    fun i hi hi' => ?_⟩
  · rw [hlist i (by omega)]
    split
    · rfl
    · exact h.unused i (by omega)
  · rw [hlist i (by omega), if_neg (by omega)]
    exact h.used i (by omega) hi'
  · rw [hlist 511 (by omega), if_neg (by omega), h.last]
  · have hperm := h.split
    rw [hsplit] at hperm
    exact List.perm_middle.trans hperm
  · rw [hlist i hi', if_neg (by omega)]
    -- another slot holds another number
    have hother : listed (st.disk.blocks 3) i ≠ listed (st.disk.blocks 3) k := by
      intro heq
      by_cases hi511 : i < 511
      · have hnodup := (List.nodup_append.mp (h.split.nodup_iff.mpr List.nodup_range')).1
        rw [hsplit, List.nodup_cons] at hnodup
        refine hnodup.1 (mem_usedSlots.mpr ⟨hne, i, hi511, ?_⟩)
        rw [hlist i hi', if_neg (by omega), heq]
      · have := h.lt_of_listed hk
        have : i = 511 := by omega
        subst this
        rw [h.last] at heq
        omega
    rw [hnodes _ hother]
    exact h.free i (by omega) hi'

/-- At the last slot the search fails, and nothing changes. -/
theorem Inv.getNew_fail (h : Inv st 511) (now : UInt64) (t : INodeType) (m u g : UInt32)
    {st' : INodeState} (hstep : st.step (.getNew now t m u g) = .ok st') : Inv st' 511 := by
  obtain ⟨hret, hback, hlist, hnodes⟩ :=
    Disk.getNewINode_fail h.stored h.unused now t m u g rfl (by rw [h.last]; decide)
  obtain rfl : ⟨(st.disk.getNewINode now t m u g).2, st.allocated⟩ = st' := by
    simpa [step, hret] using hstep
  refine ⟨by rw [hback]; exact h.stored, le_rfl, fun i hi => ?_, fun i hi hi' => ?_, ?_, ?_,
    fun i hi hi' => ?_⟩
  · rw [hlist i (by omega), h.unused i hi]
  · omega
  · rw [hlist 511 (by omega), h.last]
  · rw [usedSlots_congr fun i hi => hlist i (by omega)]
    exact h.split
  · rw [hlist i hi', hnodes]
    exact h.free i hi hi'

/-- A free of an allocated inode returns, and puts it on the list. -/
theorem Inv.free_ok (h : Inv st k) (now : UInt64) {n : Nat} (hn : n ∈ st.allocated) :
    ∃ st', st.step (.free now n) = .ok st' ∧ Inv st' (k - 1) := by
  have hlen := h.length
  have hk : 0 < k := by
    have := List.length_pos_of_mem hn
    omega
  have hbound := h.bound
  have hnr := List.mem_range'_1.mp (h.split.mem_iff.mp (List.mem_append_right _ hn))
  have hne : listed (st.disk.blocks 3) k ≠ 0 := by
    by_cases hk511 : k = 511
    · rw [hk511, h.last]
      decide
    · exact h.used k le_rfl (by omega)
  obtain ⟨d', heq, hback, hlist, hfree, hnodes⟩ :=
    Disk.freeINode_save h.stored h.unused now hk (by omega) hne (n := n) (by omega)
  have hstep : st.step (.free now n) = .ok ⟨d', st.allocated.erase n⟩ := by
    simp [step, heq, bind, Except.bind]
  refine ⟨_, hstep, by rw [hback]; exact h.stored, by omega, fun i hi => ?_, fun i hi hi' => ?_,
    ?_, ?_, fun i hi hi' => ?_⟩
  · rw [hlist i (by omega), if_neg (by omega)]
    exact h.unused i (by omega)
  · rw [hlist i (by omega)]
    split
    · omega
    · exact h.used i (by omega) hi'
  · rw [hlist 511 (by omega), if_neg (by omega), h.last]
  · have hfill := usedSlots_fill (m := 511) (x := n) (by omega) (h.unused (k - 1) (by omega))
      (by omega) fun i hi => hlist i (by omega)
    calc usedSlots (listed (d'.blocks 3)) 511 ++ st.allocated.erase n
        |>.Perm (n :: usedSlots (listed (st.disk.blocks 3)) 511 ++ st.allocated.erase n) :=
          hfill.append_right _
      _ |>.Perm (usedSlots (listed (st.disk.blocks 3)) 511 ++ n :: st.allocated.erase n) :=
          List.perm_middle.symm
      _ |>.Perm (usedSlots (listed (st.disk.blocks 3)) 511 ++ st.allocated) :=
          (List.perm_cons_erase hn).symm.append_left _
      _ |>.Perm (List.range' 1 511) := h.split
  · rw [hlist i hi']
    split
    · exact hfree
    · by_cases hin : listed (st.disk.blocks 3) i = n
      · rw [hin]
        exact hfree
      · rw [hnodes _ hin]
        exact h.free i (by omega) hi'

theorem Inv.step {st' : INodeState} (h : Inv st k) (hstep : Step st st') : ∃ k', Inv st' k' := by
  obtain ⟨op, hen, heq⟩ := hstep
  cases op with
  | getNew now t m u g =>
      by_cases hk : k < 511
      · exact ⟨_, h.getNew_take hk now t m u g heq⟩
      · obtain rfl : k = 511 := by have := h.bound; omega
        exact ⟨_, h.getNew_fail now t m u g heq⟩
  | free now n =>
      obtain ⟨st'', hok, hinv⟩ := h.free_ok now hen
      rw [hok] at heq
      cases heq
      exact ⟨_, hinv⟩

/-- The next call does what it should exactly if a number can still be taken. -/
theorem Inv.served_iff (h : Inv st k) (now : UInt64) (t : INodeType) (m u g : UInt32) :
    Served st now t m u g ↔ k < 511 := by
  constructor
  · intro hs
    by_contra hk
    obtain rfl : k = 511 := by have := h.bound; omega
    obtain ⟨hret, -⟩ :=
      Disk.getNewINode_fail h.stored h.unused now t m u g rfl (by rw [h.last]; decide)
    -- inode 512 is free all the time
    have h512 : st.Available 512 :=
      ⟨by decide, by decide, by simpa [h.last] using h.free 511 le_rfl (by omega)⟩
    have := (hs.complete ⟨_, h512⟩).2.1
    rw [hret] at this
    simp at this
  · intro hk
    obtain ⟨hret, -⟩ :=
      Disk.getNewINode_take h.stored h.unused now t m u g hk (h.used k le_rfl hk)
    have hav := h.listed_available le_rfl hk
    exact ⟨fun _ _ => by rw [hret]; exact hav, fun _ => by rw [hret]; exact hav.1⟩

end Invariant

/-- A new file system, in which no inode is in use. -/
def initial (d : Disk) : INodeState := ⟨d.makeFileSystem, []⟩

/-- The list `1, …, 512` on a table of free inodes. -/
theorem Inv.of_new {d : Disk} (hcap : dataRegionStart ≤ d.backend.capacity)
    (hl : ∀ i < 512, listed (d.blocks 3) i = i + 1)
    (hfree : ∀ n, n ≠ 0 → n < 65536 → (d.diskINode n).type = .free) : Inv ⟨d, []⟩ 0 := by
  refine ⟨hcap, by omega, by omega, fun i _ hi => ?_, hl 511 (by omega), ?_, fun i _ hi => ?_⟩
  · rw [hl i (by omega)]
    omega
  · rw [List.append_nil, Disk.usedSlots_consecutive (s := 1) (by omega)]
    intro i hi
    rw [hl i (by omega)]
    omega
  · rw [hl i hi]
    exact hfree _ (by omega) (by omega)

/-- After formatting no number is handed out. -/
theorem Inv.initial (d : Disk) : Inv (INodeState.initial d) 0 := by
  refine Inv.of_new d.le_capacity_makeFileSystem (fun i hi => d.listed_makeFileSystem hi) ?_
  intro n hn hlt
  rw [d.diskINode_makeFileSystem hn hlt]
  rfl

/-- So the slots before some `k` are empty in every state of a run. -/
theorem Inv.of_run {d : Disk} {st : INodeState}
    (hrun : Relation.ReflTransGen Step (INodeState.initial d) st) : ∃ k, Inv st k := by
  induction hrun with
  | refl => exact ⟨0, Inv.initial d⟩
  | tail _ hstep ih =>
      obtain ⟨k, hinv⟩ := ih
      exact hinv.step hstep

/-- **Inode allocator runs**: in every state a run reaches, the next call of
`getNewINode` does what it should if and only if fewer than 511 inodes are in use. -/
theorem served_iff_lt {d : Disk} {st : INodeState}
    (hrun : Relation.ReflTransGen Step (initial d) st) (now : UInt64) (t : INodeType)
    (m u g : UInt32) : Served st now t m u g ↔ st.allocated.length < 511 := by
  obtain ⟨k, hinv⟩ := Inv.of_run hrun
  rw [hinv.length]
  exact hinv.served_iff now t m u g

/-- Any number of inodes up to 511 can be in use. -/
theorem exists_run (d : Disk) {j : Nat} (hj : j ≤ 511) :
    ∃ st, Relation.ReflTransGen Step (initial d) st ∧ Inv st j := by
  induction j with
  | zero => exact ⟨_, Relation.ReflTransGen.refl, Inv.initial d⟩
  | succ j ih =>
      obtain ⟨st, hrun, hinv⟩ := ih (by omega)
      exact ⟨_, hrun.tail ⟨.getNew 0 .regular 0 0 0, trivial, rfl⟩,
        hinv.getNew_take (by omega) 0 .regular 0 0 0 rfl⟩

/-- Of three inodes in use one is freed, and the next call is served. -/
theorem served_after_free : ∃ st, Relation.ReflTransGen Step (initial AllocState.smallDisk) st ∧
    st.allocated.length = 2 ∧ Served st 0 .regular 0 0 0 := by
  obtain ⟨st, hrun, hinv⟩ := exists_run AllocState.smallDisk (show 3 ≤ 511 by decide)
  obtain ⟨n, hn⟩ := List.exists_mem_of_length_pos (l := st.allocated) (by rw [hinv.length]; decide)
  obtain ⟨st', hfree, hinv'⟩ := hinv.free_ok 0 hn
  have hrun' := hrun.tail ⟨.free 0 n, hn, hfree⟩
  exact ⟨st', hrun', hinv'.length, (served_iff_lt hrun' 0 .regular 0 0 0).mpr
    (by rw [hinv'.length]; decide)⟩

/-- With 511 regular files in use the next call fails, although inode 512 is free. -/
theorem not_served_511 : ¬ ∀ (d : Disk) (st : INodeState),
    Relation.ReflTransGen Step (initial d) st → ∀ now t m u g, Served st now t m u g := by
  intro hall
  obtain ⟨st, hrun, hinv⟩ := exists_run AllocState.smallDisk le_rfl
  exact absurd ((hinv.served_iff 0 .regular 0 0 0).mp (hall _ st hrun _ _ _ _ _)) (by omega)

end INodeState

end Naofs
