import Naofs.Mkfs

/-!
# Naofs.Table

The inode table as a whole: an array of inodes for the functions that access
one inode, and a packed sequence of structs for `makeINodesBlock`.

`getDiskInode` and `writeDiskInode` find an inode at a multiple of `INODE_SIZE`
in its block, while `makeINodesBlock` copies four structs that lie one right
after the other.  The two agree on a block only if there is nothing in it
behind the first inode (`decoders_agree_iff`).
-/

namespace Naofs

namespace INode

/-- An `iNode` that `memset` has cleared. -/
def blank : INode where
  deviceNumber := 0
  iNodeNumber := 0
  access := 0
  modification := 0
  statusChange := 0
  linksCount := 0
  type := .free
  fileMode := 0
  ownerUid := 0
  groupUid := 0
  dataBlockNums := .tabulate fun _ => 0
  size := 0

section Bytes

variable {a b : DiskBlock} {p q : Nat}

/-- Zero bytes are the number zero. -/
theorem readNat_eq_zero_iff {off k : Nat} :
    b.readNat off k = 0 ↔ ∀ j < k, b.peek (off + j) = 0 := by
  constructor
  · intro h j hj
    rw [← Buffer.leByte_readNat b hj, h, Buffer.leByte, Nat.zero_div]
    rfl
  · intro h
    rw [Buffer.readNat_eq_of_leByte (v := 0), Nat.zero_mod]
    intro j hj
    rw [h j hj, Buffer.leByte, Nat.zero_div]
    rfl

/-- Numbers that are equal have equal bytes. -/
theorem peek_eq_of_readNat {off k : Nat} (h : a.readNat (p + off) k = b.readNat (q + off) k)
    {j : Nat} (hlo : off ≤ j) (hhi : j < off + k) : a.peek (p + j) = b.peek (q + j) := by
  have ha := @Buffer.leByte_readNat _ a (p + off) k (j - off) (by omega)
  have hb := @Buffer.leByte_readNat _ b (q + off) k (j - off) (by omega)
  rw [show p + off + (j - off) = p + j by omega] at ha
  rw [show q + off + (j - off) = q + j by omega] at hb
  rw [← ha, ← hb, h]

/-- A number of eight bytes is known by the `uint64_t` that is read. -/
theorem readNat_eq_of_uint64 {off off' : Nat}
    (h : UInt64.ofNat (a.readNat off 8) = .ofNat (b.readNat off' 8)) :
    a.readNat off 8 = b.readNat off' 8 := by
  have ha : a.readNat off 8 < 2 ^ 64 := a.readNat_lt off 8
  have hb : b.readNat off' 8 < 2 ^ 64 := b.readNat_lt off' 8
  have hmod := congrArg UInt64.toNat h
  rwa [UInt64.toNat_ofNat', UInt64.toNat_ofNat', Nat.mod_eq_of_lt ha, Nat.mod_eq_of_lt hb] at hmod

/-- A number of four bytes is known by the `uint32_t` that is read. -/
theorem readNat_eq_of_uint32 {off off' : Nat}
    (h : UInt32.ofNat (a.readNat off 4) = .ofNat (b.readNat off' 4)) :
    a.readNat off 4 = b.readNat off' 4 := by
  have ha : a.readNat off 4 < 2 ^ 32 := a.readNat_lt off 4
  have hb : b.readNat off' 4 < 2 ^ 32 := b.readNat_lt off' 4
  have hmod := congrArg UInt32.toNat h
  rwa [UInt32.toNat_ofNat', UInt32.toNat_ofNat', Nat.mod_eq_of_lt ha, Nat.mod_eq_of_lt hb] at hmod

/-- Equal structs have equal bytes, except for the type: codes outside the
enumeration are not told apart. -/
theorem peek_eq_of_decode (h : decode a p = decode b q) {j : Nat} (hj : j < 176)
    (htype : j < 48 ∨ 52 ≤ j) : a.peek (p + j) = b.peek (q + j) := by
  simp only [decode, INode.mk.injEq] at h
  obtain ⟨hdevice, hnumber, haccess, hmod, hstatus, hlinks, -, hmode, howner, hgroup, hnums, hsize⟩ := h
  have hblock : ∀ i < 13, a.readNat (p + (64 + 8 * i)) 8 = b.readNat (q + (64 + 8 * i)) 8 := by
    intro i hi
    have hi' := congrArg (fun t => t.peek i) hnums
    simp only [Buffer.peek_readNumbers _ _ _ (show i < blocksInInode from hi)] at hi'
    rwa [Nat.add_assoc, Nat.add_assoc] at hi'
  by_cases h64 : 64 ≤ j ∧ j < 168
  · exact peek_eq_of_readNat (hblock ((j - 64) / 8) (by omega)) (by omega) (by omega)
  have hcases : j < 8 ∨ (8 ≤ j ∧ j < 16) ∨ (16 ≤ j ∧ j < 24) ∨ (24 ≤ j ∧ j < 32) ∨
      (32 ≤ j ∧ j < 40) ∨ (40 ≤ j ∧ j < 48) ∨ (52 ≤ j ∧ j < 56) ∨ (56 ≤ j ∧ j < 60) ∨
      (60 ≤ j ∧ j < 64) ∨ 168 ≤ j := by omega
  rcases hcases with hj' | hj' | hj' | hj' | hj' | hj' | hj' | hj' | hj' | hj'
  · exact @peek_eq_of_readNat _ _ _ _ 0 _ hdevice _ (by omega) (by omega)
  · exact peek_eq_of_readNat hnumber hj'.1 hj'.2
  · exact peek_eq_of_readNat (readNat_eq_of_uint64 haccess) hj'.1 hj'.2
  · exact peek_eq_of_readNat (readNat_eq_of_uint64 hmod) hj'.1 hj'.2
  · exact peek_eq_of_readNat (readNat_eq_of_uint64 hstatus) hj'.1 hj'.2
  · exact peek_eq_of_readNat hlinks hj'.1 hj'.2
  · exact peek_eq_of_readNat (readNat_eq_of_uint32 hmode) hj'.1 hj'.2
  · exact peek_eq_of_readNat (readNat_eq_of_uint32 howner) hj'.1 hj'.2
  · exact peek_eq_of_readNat (readNat_eq_of_uint32 hgroup) hj'.1 hj'.2
  · exact peek_eq_of_readNat hsize hj' (by omega)

/-- Zero alone is read as a free inode. -/
theorem ofCode_eq_free {n : Nat} : INodeType.ofCode n = .free ↔ n = 0 := by
  unfold INodeType.ofCode
  split <;> simp_all

/-- Zero bytes carry over from a struct to an equal one, if the type is among
them as a whole or not at all. -/
theorem zero_of_decode_eq (h : decode a p = decode b q) {k : Nat} (hk : k ≤ 176)
    (htype : k ≤ 48 ∨ 52 ≤ k) (hz : ∀ j < k, a.peek (p + j) = 0) :
    ∀ j < k, b.peek (q + j) = 0 := by
  intro j hj
  by_cases ht : j < 48 ∨ 52 ≤ j
  · rw [← peek_eq_of_decode h (by omega) ht]
    exact hz j hj
  · have hcode : a.readNat (p + 48) 4 = 0 := by
      apply readNat_eq_zero_iff.mpr
      intro i hi
      rw [Nat.add_assoc]
      exact hz (48 + i) (by omega)
    have hfree : INodeType.ofCode (b.readNat (q + 48) 4) = .free := by
      have := congrArg INode.type h
      simp only [decode, hcode] at this
      exact this.symm
    have hbyte := readNat_eq_zero_iff.mp (ofCode_eq_free.mp hfree) (j - 48) (by omega)
    rwa [show q + 48 + (j - 48) = q + j by omega] at hbyte

/-- The blank struct is 176 zero bytes. -/
theorem decode_eq_blank_iff : decode b q = blank ↔ ∀ j < 176, b.peek (q + j) = 0 := by
  have hzero : decode (.tabulate fun _ => 0 : DiskBlock) 0 = blank := by
    have hr : ∀ off k, off + k ≤ 1024 → (.tabulate fun _ => 0 : DiskBlock).readNat off k = 0 := by
      intro off k hle
      apply readNat_eq_zero_iff.mpr
      intro j hj
      simp only [Buffer.peek_tabulate]
      rw [if_pos (by simp; omega)]
    have hnums : (.tabulate fun _ => 0 : DiskBlock).readNumbers (0 + 64) 8 blocksInInode =
        .tabulate fun _ => 0 := by
      apply Buffer.ext_peek
      intro i hi
      rw [Buffer.peek_readNumbers _ _ _ hi, hr _ _ (by simp at hi; omega), Buffer.peek_tabulate,
        if_pos hi]
    simp only [decode, hnums]
    simp (disch := omega) only [hr]
    rfl
  constructor
  · intro h
    have hcells : ∀ j < 176, (.tabulate fun _ => 0 : DiskBlock).peek (0 + j) = 0 := by
      intro j hj
      simp only [Buffer.peek_tabulate]
      rw [if_pos (by simp; omega)]
    exact zero_of_decode_eq (hzero.trans h.symm) (by omega) (by omega) hcells
  · intro h
    rw [← hzero]
    apply decode_congr
    intro j hj
    rw [h j hj, Buffer.peek_tabulate, if_pos (by simp; omega)]

end Bytes

end INode

namespace Disk

/-! ## An array of inodes -/

section Access

variable (d : Disk) {n m : Nat} (x y : INode)

/-- Within the table a write succeeds. -/
theorem code_writeDiskInode (hn : n < numOfInodes) : (d.writeDiskInode n x).1 = 0 := by
  unfold writeDiskInode accessINodeAndItsBlock
  rw [if_neg (Nat.not_le.mpr hn)]

/-- The cells of the other inodes keep their bytes, padding included. -/
theorem peek_writeDiskInode (hcap : dataRegionStart ≤ d.backend.capacity) (hn : n < numOfInodes)
    (hmn : m ≠ n) {j : Nat} (hj : j < 256) :
    ((d.writeDiskInode n x).2.blocks (m / 4 + 4)).peek (m % 4 * 256 + j) =
      (d.blocks (m / 4 + 4)).peek (m % 4 * 256 + j) := by
  by_cases hb : m / 4 + 4 = n / 4 + 4
  · have hcell : m % 4 < n % 4 ∨ n % 4 < m % 4 := by omega
    rw [hb, blocks_writeDiskInode_self _ hcap hn,
      INode.peek_encode_of_disjoint _ _ (by omega) (by omega), Buffer.peek_copyIn,
      if_neg (by omega)]
  · rw [blocks_writeDiskInode _ _ hb]

end Access

/-- **The inode table is an array**: what is written for a number is read back
for it, everything else is as it was, and a number outside the table is refused. -/
theorem table_array (d : Disk) (n : Nat) (x y : INode) (hx : x.Fits) :
    (n < numOfInodes →
      (d.sized.writeDiskInode n x).1 = 0 ∧
      (d.sized.writeDiskInode n x).2.getDiskInode n y = (0, x) ∧
      (∀ m < numOfInodes, m ≠ n →
        (d.sized.writeDiskInode n x).2.getDiskInode m y = d.sized.getDiskInode m y ∧
        ∀ j < inodeSize,
          ((d.sized.writeDiskInode n x).2.blocks (m / inodesPerBlock + inodeBlocksHead)).peek
              (m % inodesPerBlock * inodeSize + j) =
            (d.blocks (m / inodesPerBlock + inodeBlocksHead)).peek
              (m % inodesPerBlock * inodeSize + j)) ∧
      ∀ b, b < inodeBlocksHead ∨ inodeBlocksHead + numOfInodeBlocks ≤ b →
        (d.sized.writeDiskInode n x).2.blocks b = d.blocks b) ∧
    (numOfInodes ≤ n →
      d.sized.getDiskInode n y = (-1, y) ∧ d.sized.writeDiskInode n x = (-1, d.sized)) := by
  have hcap := d.le_capacity_sized
  have hcap' : dataRegionStart ≤ (d.sized.writeDiskInode n x).2.backend.capacity := by
    simpa using hcap
  constructor
  · intro hn
    refine ⟨code_writeDiskInode _ _ hn, ?_, fun m hm hmn => ⟨?_, fun j hj => ?_⟩, fun b hb => ?_⟩
    · rw [getDiskInode_of_lt _ hcap' hn, diskINode_writeDiskInode_self _ hcap hn hx]
    · rw [getDiskInode_of_lt _ hcap' hm, getDiskInode_of_lt _ hcap hm,
        diskINode_writeDiskInode_of_ne _ hcap hn x hmn]
    · exact peek_writeDiskInode _ _ hcap hn hmn hj
    · exact blocks_writeDiskInode _ _ (by simp at hn hb; omega)
  · intro hn
    exact ⟨getDiskInode_of_le _ hn y, writeDiskInode_of_le _ hn x⟩

/-- Inode 5 as a directory. -/
theorem table_array_five : ∃ (d : Disk) (x y : INode), x.type = .directory ∧
    (d.sized.writeDiskInode 5 x).2.getDiskInode 5 y = (0, x) := by
  refine ⟨⟨⟨true, 0, by decide, .tabulate fun _ => 0⟩, fun _ => .tabulate fun _ => 0, []⟩,
    { INode.blank with type := .directory }, INode.blank, rfl, ?_⟩
  have hfits : INode.Fits { INode.blank with type := .directory } :=
    ⟨by decide, by decide, by decide, fun i hi => by simp [INode.blank, hi], by decide⟩
  exact ((table_array _ 5 _ _ hfits).1 (by decide)).2.1

/-! ## Two ways to read a block of the table -/

/-- A sequence of calls of `writeDiskInode`. -/
def writeDiskInodes (d : Disk) (writes : List (Nat × INode)) : Disk :=
  writes.foldl (fun d w => (d.writeDiskInode w.1 w.2).2) d

/-- The inode written last for a number, or the one that was there before. -/
def lastWritten (n : Nat) (x : INode) (writes : List (Nat × INode)) : INode :=
  writes.foldl (fun x w => if w.1 = n then w.2 else x) x

theorem writeDiskInodes_cons (d : Disk) (w : Nat × INode) (writes : List (Nat × INode)) :
    d.writeDiskInodes (w :: writes) = (d.writeDiskInode w.1 w.2).2.writeDiskInodes writes := rfl

theorem lastWritten_cons (n : Nat) (x : INode) (w : Nat × INode) (writes : List (Nat × INode)) :
    lastWritten n x (w :: writes) = lastWritten n (if w.1 = n then w.2 else x) writes := rfl

/-- Nothing is stored behind the structs of a block. -/
def Padded (b : DiskBlock) : Prop := ∀ i < 4, ∀ j, 176 ≤ j → j < 256 → b.peek (i * 256 + j) = 0

/-- The blocks of new inodes are padded with zeros. -/
theorem padded_populateINodesIn (m : Nat) : Padded (populateINodesIn m).2 := by
  have hloop : ∀ k ≤ 4, Padded ((List.range k).foldl
      (fun b i => (initializeINode (m + i)).encode b (i * 256)) (.tabulate fun _ => 0)) := by
    intro k
    induction k with
    | zero =>
        intro _ i hi j _ hj
        simp only [List.range_zero, List.foldl_nil, Buffer.peek_tabulate]
        rw [if_pos (by simp; omega)]
    | succ k ih =>
        intro hk i hi j hlo hj
        rw [List.range_succ, List.foldl_append]
        simp only [List.foldl_cons, List.foldl_nil]
        rw [INode.peek_encode_of_disjoint _ _ (by omega) (by omega)]
        exact ih (by omega) i hi j hlo hj
  exact hloop 4 (by omega)

section Writes

variable {d : Disk} {k : Nat} {writes : List (Nat × INode)}

/-- Writing an inode leaves the padding alone. -/
theorem Padded.writeDiskInode (hcap : dataRegionStart ≤ d.backend.capacity)
    (h : Padded (d.blocks (4 + k))) (n : Nat) (x : INode) :
    Padded ((d.writeDiskInode n x).2.blocks (4 + k)) := by
  by_cases hn : n < numOfInodes
  · by_cases hb : 4 + k = n / 4 + 4
    · intro i hi j hlo hj
      rw [hb, blocks_writeDiskInode_self _ hcap hn,
        INode.peek_encode_of_disjoint _ _ (by omega) (by omega), Buffer.peek_copyIn]
      split
      · rfl
      · rw [← hb]
        exact h i hi j hlo hj
    · rwa [blocks_writeDiskInode _ _ hb]
  · rwa [writeDiskInode_of_le _ (Nat.le_of_not_lt hn)]

@[simp] theorem backend_writeDiskInodes (d : Disk) (writes : List (Nat × INode)) :
    (d.writeDiskInodes writes).backend = d.backend := by
  induction writes generalizing d with
  | nil => rfl
  | cons w writes ih => rw [writeDiskInodes_cons, ih, backend_writeDiskInode]

/-- The padding over a sequence of writes. -/
theorem Padded.writeDiskInodes (hcap : dataRegionStart ≤ d.backend.capacity)
    (h : Padded (d.blocks (4 + k))) : Padded ((d.writeDiskInodes writes).blocks (4 + k)) := by
  induction writes generalizing d with
  | nil => exact h
  | cons w writes ih =>
      rw [writeDiskInodes_cons]
      exact ih (by simpa using hcap) (h.writeDiskInode hcap w.1 w.2)

/-- The table after a sequence of writes. -/
theorem diskINode_writeDiskInodes (hcap : dataRegionStart ≤ d.backend.capacity)
    (hfits : ∀ w ∈ writes, w.2.Fits) {n : Nat} (hn : n < numOfInodes) :
    (d.writeDiskInodes writes).diskINode n = lastWritten n (d.diskINode n) writes := by
  induction writes generalizing d with
  | nil => rfl
  | cons w writes ih =>
      have hstep : (d.writeDiskInode w.1 w.2).2.diskINode n =
          if w.1 = n then w.2 else d.diskINode n := by
        by_cases hw : w.1 = n
        · rw [if_pos hw, hw]
          exact diskINode_writeDiskInode_self _ hcap hn (hfits w (by simp))
        · rw [if_neg hw]
          by_cases hlt : w.1 < numOfInodes
          · exact diskINode_writeDiskInode_of_ne _ hcap hlt _ (Ne.symm hw)
          · rw [writeDiskInode_of_le _ (Nat.le_of_not_lt hlt)]
      rw [writeDiskInodes_cons, lastWritten_cons, ← hstep]
      exact ih (by simpa using hcap) fun w' hw' => hfits w' (by simp [hw'])

end Writes

/-- In a padded block structs at multiples of 176 are those at multiples of 256
exactly if all but the first are blank. -/
theorem strides_agree_iff {b : DiskBlock} (hpad : Padded b) :
    (∀ i < 4, INode.decode b (i * 176) = INode.decode b (i * 256)) ↔
      ∀ i, 1 ≤ i → i < 4 → INode.decode b (i * 256) = INode.blank := by
  have pad : ∀ i < 4, ∀ o, i * 256 + 176 ≤ o → o < i * 256 + 256 → b.peek o = 0 := by
    intro i hi o hlo ho
    have := hpad i hi (o - i * 256) (by omega) (by omega)
    rwa [show i * 256 + (o - i * 256) = o by omega] at this
  constructor
  · intro h
    have h1 : INode.decode b 176 = INode.decode b 256 := h 1 (by omega)
    have h2 : INode.decode b 352 = INode.decode b 512 := h 2 (by omega)
    have h3 : INode.decode b 528 = INode.decode b 768 := h 3 (by omega)
    -- the zeros behind the first struct spread through the second, piece by piece
    have z1 : ∀ j < 80, b.peek (256 + j) = 0 := INode.zero_of_decode_eq h1 (by omega) (by omega)
      fun j hj => pad 0 (by omega) _ (by omega) (by omega)
    have z2 : ∀ j < 160, b.peek (256 + j) = 0 := by
      refine INode.zero_of_decode_eq h1 (by omega) (by omega) fun j hj => ?_
      by_cases hlo : j < 80
      · exact pad 0 (by omega) _ (by omega) (by omega)
      · rw [show 176 + j = 256 + (j - 80) by omega]
        exact z1 _ (by omega)
    have z3 : ∀ j < 256, b.peek (256 + j) = 0 := by
      have hstruct : ∀ j < 176, b.peek (256 + j) = 0 := by
        refine INode.zero_of_decode_eq h1 (by omega) (by omega) fun j hj => ?_
        by_cases hlo : j < 80
        · exact pad 0 (by omega) _ (by omega) (by omega)
        · rw [show 176 + j = 256 + (j - 80) by omega]
          exact z2 _ (by omega)
      intro j hj
      by_cases hlo : j < 176
      · exact hstruct j hlo
      · exact pad 1 (by omega) _ (by omega) (by omega)
    -- and from there through the third and the fourth
    have z4 : ∀ j < 160, b.peek (512 + j) = 0 := by
      refine INode.zero_of_decode_eq h2 (by omega) (by omega) fun j hj => ?_
      rw [show 352 + j = 256 + (96 + j) by omega]
      exact z3 _ (by omega)
    have z5 : ∀ j < 256, b.peek (512 + j) = 0 := by
      have hstruct : ∀ j < 176, b.peek (512 + j) = 0 := by
        refine INode.zero_of_decode_eq h2 (by omega) (by omega) fun j hj => ?_
        by_cases hlo : j < 160
        · rw [show 352 + j = 256 + (96 + j) by omega]
          exact z3 _ (by omega)
        · rw [show 352 + j = 512 + (j - 160) by omega]
          exact z4 _ (by omega)
      intro j hj
      by_cases hlo : j < 176
      · exact hstruct j hlo
      · exact pad 2 (by omega) _ (by omega) (by omega)
    have z6 : ∀ j < 176, b.peek (768 + j) = 0 := by
      refine INode.zero_of_decode_eq h3 (by omega) (by omega) fun j hj => ?_
      rw [show 528 + j = 512 + (16 + j) by omega]
      exact z5 _ (by omega)
    intro i hlo hi
    apply INode.decode_eq_blank_iff.mpr
    obtain rfl | rfl | rfl : i = 1 ∨ i = 2 ∨ i = 3 := by omega
    · exact fun j hj => z3 j (by omega)
    · exact fun j hj => z5 j (by omega)
    · exact z6
  · intro h
    have zero : ∀ o, 176 ≤ o → o < 1024 → b.peek o = 0 := by
      intro o hlo ho
      by_cases hp : 176 ≤ o % 256
      · exact pad (o / 256) (by omega) o (by omega) (by omega)
      · have hcell := INode.decode_eq_blank_iff.mp (h (o / 256) (by omega) (by omega)) (o % 256)
          (by omega)
        rwa [show o / 256 * 256 + o % 256 = o by omega] at hcell
    intro i hi
    by_cases hi0 : i = 0
    · rw [hi0]
    · rw [h i (by omega) hi]
      exact INode.decode_eq_blank_iff.mpr fun j hj => zero _ (by omega) (by omega)

/-- On block `k` of the table, `makeINodesBlock` and `getDiskInode` read the same inodes. -/
def DecodersAgree (d : Disk) (k : Nat) (y : INode) : Prop :=
  ∀ i < inodesPerBlock, (makeINodesBlock (d.blocks (inodeBlocksHead + k)))[i]? =
    some (d.getDiskInode (inodesPerBlock * k + i) y).2

/-- The decoders agree exactly if the inodes look the same at both strides. -/
theorem decodersAgree_iff_strides {d : Disk} (hcap : dataRegionStart ≤ d.backend.capacity) {k : Nat}
    (hk : k < numOfInodeBlocks) (y : INode) : d.DecodersAgree k y ↔
      ∀ i < 4, INode.decode (d.blocks (4 + k)) (i * 176) = INode.decode (d.blocks (4 + k)) (i * 256) := by
  have hget : ∀ i < 4, (d.getDiskInode (4 * k + i) y).2 = INode.decode (d.blocks (4 + k)) (i * 256) := by
    intro i hi
    rw [getDiskInode_of_lt _ hcap (by simp at hk ⊢; omega)]
    simp only [diskINode, inodesPerBlock, inodeBlocksHead, inodeSize]
    rw [show (4 * k + i) / 4 + 4 = 4 + k by omega, show (4 * k + i) % 4 = i by omega]
  have hmake : ∀ i < 4, (makeINodesBlock (d.blocks (4 + k)))[i]? =
      some (INode.decode (d.blocks (4 + k)) (i * 176)) := by
    intro i hi
    simp [makeINodesBlock, hi]
  constructor
  · intro h i hi
    have := h i hi
    rwa [hmake i hi, hget i hi, Option.some_inj] at this
  · intro h i hi
    rw [hmake i hi, hget i hi, h i hi]

/-- **The two decoders of an inode block agree** exactly if each inode behind the
first was cleared by its last write. -/
theorem decoders_agree_iff (d : Disk) {k : Nat} (hk : k < numOfInodeBlocks) (m : Nat)
    (writes : List (Nat × INode)) (hfits : ∀ w ∈ writes, w.2.Fits) (y : INode) :
    ((d.sized.store (inodeBlocksHead + k) (populateINodesIn m).2).writeDiskInodes
        writes).DecodersAgree k y ↔
      ∀ i, 1 ≤ i → i < inodesPerBlock →
        lastWritten (inodesPerBlock * k + i) (initializeINode (m + i)) writes = INode.blank := by
  have hcap := d.le_capacity_sized
  have hlt : 4 + k < d.sized.backend.capacity := by simp at hk hcap; omega
  have hblock : (d.sized.store (4 + k) (populateINodesIn m).2).blocks (4 + k) = (populateINodesIn m).2 :=
    blocks_store_self _ hlt _
  have hcap' : dataRegionStart ≤ (d.sized.store (4 + k) (populateINodesIn m).2).backend.capacity := by
    simpa using hcap
  have hpad : Padded (((d.sized.store (4 + k) (populateINodesIn m).2).writeDiskInodes
      writes).blocks (4 + k)) := by
    apply Padded.writeDiskInodes hcap'
    rw [hblock]
    exact padded_populateINodesIn m
  have hcell : ∀ i < 4, INode.decode (((d.sized.store (4 + k) (populateINodesIn m).2).writeDiskInodes
      writes).blocks (4 + k)) (i * 256) = lastWritten (4 * k + i) (initializeINode (m + i)) writes := by
    intro i hi
    have hn : 4 * k + i < numOfInodes := by simp at hk ⊢; omega
    have hb : (4 * k + i) / 4 + 4 = 4 + k := by omega
    have hi' : (4 * k + i) % 4 = i := by omega
    have hnew : (d.sized.store (4 + k) (populateINodesIn m).2).diskINode (4 * k + i) =
        initializeINode (m + i) := by
      simp only [diskINode, inodesPerBlock, inodeBlocksHead, inodeSize, hb, hi', hblock]
      exact decode_populateINodesIn m hi
    have hlast := diskINode_writeDiskInodes hcap' hfits hn
    rw [hnew] at hlast
    simpa only [diskINode, inodesPerBlock, inodeBlocksHead, inodeSize, hb, hi'] using hlast
  rw [decodersAgree_iff_strides (by simpa using hcap) hk, strides_agree_iff hpad]
  constructor
  · intro h i hlo hi
    rw [← h i hlo hi]
    exact (hcell i hi).symm
  · intro h i hlo hi
    rw [hcell i hi]
    exact h i hlo hi

/-- A block whose inodes were all cleared but the first. -/
theorem decoders_agree_cleared : ∃ (d : Disk) (y : INode),
    ((d.sized.store (inodeBlocksHead + 0) (populateINodesIn 0).2).writeDiskInodes
      [(1, INode.blank), (2, INode.blank), (3, INode.blank)]).DecodersAgree 0 y := by
  have hfits : INode.blank.Fits :=
    ⟨by decide, by decide, by decide, fun i hi => by simp [INode.blank, hi], by decide⟩
  refine ⟨⟨⟨true, 0, by decide, .tabulate fun _ => 0⟩, fun _ => .tabulate fun _ => 0, []⟩,
    INode.blank, ?_⟩
  refine (decoders_agree_iff _ (by decide) 0 _ (by simp [hfits]) _).mpr fun i hlo hi => ?_
  obtain rfl | rfl | rfl : i = 1 ∨ i = 2 ∨ i = 3 := by simp at hi; omega
  · rfl
  · rfl
  · rfl

/-- The first block that `mkfs` writes: at its second position one decoder finds
inode 1, the other the padding. -/
theorem decoders_disagree : ¬ ∀ (d : Disk) (k m : Nat) (writes : List (Nat × INode)) (y : INode),
    k < numOfInodeBlocks → (∀ w ∈ writes, w.2.Fits) →
    ((d.sized.store (inodeBlocksHead + k) (populateINodesIn m).2).writeDiskInodes
      writes).DecodersAgree k y := by
  intro h
  have hagree := h ⟨⟨true, 0, by decide, .tabulate fun _ => 0⟩, fun _ => .tabulate fun _ => 0, []⟩
    0 0 [] INode.blank (by decide) (by simp)
  generalize (Disk.mk _ _ _) = d at hagree
  have hcap := d.le_capacity_sized
  have hblock : ((d.sized.store (4 + 0) (populateINodesIn 0).2).writeDiskInodes []).blocks (4 + 0) =
      (populateINodesIn 0).2 := blocks_store_self _ (by simp at hcap; omega) _
  rw [decodersAgree_iff_strides (by simpa using hcap) (by decide)] at hagree
  have hstrides := (strides_agree_iff (by rw [hblock]; exact padded_populateINodesIn 0)).mp hagree 1
    (by omega) (by omega)
  rw [hblock, decode_populateINodesIn 0 (by omega)] at hstrides
  exact absurd (congrArg INode.iNodeNumber hstrides) (by decide)

end Disk

end Naofs
