import Naofs.Interface

/-!
# Naofs.Entries

The entries of a directory, and how they are searched for and collected.

`entryAt d nums i` is entry `i` of a directory.  A search finds the first entry with the
name (`search_found`), or none (`search_absent`); on the way to an unlink it also puts the
last entry in its place.  What counts is the answer of `strcmp` (`matchAt`), which is about
the names where these end within their fields.
-/

namespace Naofs

/-! ## One entry -/

namespace DirectoryEntry

/-- The entry at an offset of a block. -/
def decode (blockPtr : DiskBlock) (offset : Nat) : DirectoryEntry where
  name := .tabulate fun i => blockPtr.peek (offset + i)
  iNodeNum := blockPtr.readNat (offset + filenameSize) inodeAddressSize

/-- What is in memory when the stored entry `e` is copied over `entry`: six bytes of the
number stay as they were. -/
def overlay (entry e : DirectoryEntry) : DirectoryEntry where
  name := e.name
  iNodeNum := entry.iNodeNum / 65536 * 65536 + e.iNodeNum

/-- The bytes of the name before its first zero. -/
def label (e : DirectoryEntry) : Name :=
  ((List.range filenameSize).map e.name.peek).takeWhile (· ≠ 0)

/-- The name ends within its field. -/
def Terminated (e : DirectoryEntry) : Prop := ∃ j < filenameSize, e.name.peek j = 0

instance (e : DirectoryEntry) : Decidable e.Terminated :=
  inferInstanceAs (Decidable (∃ j < filenameSize, e.name.peek j = 0))

@[simp] theorem name_overlay (entry e : DirectoryEntry) : (entry.overlay e).name = e.name := rfl

@[simp] theorem label_overlay (entry e : DirectoryEntry) : (entry.overlay e).label = e.label := rfl

/-- A number is stored in two bytes. -/
theorem iNodeNum_decode_lt (b : DiskBlock) (offset : Nat) : (decode b offset).iNodeNum < 65536 :=
  b.readNat_lt _ 2

/-- A buffer that was cleared holds the stored entry. -/
theorem overlay_of_lt {entry : DirectoryEntry} (h : entry.iNodeNum < 65536) (e : DirectoryEntry) :
    entry.overlay e = e := by
  simp only [overlay, Nat.div_eq_of_lt h, Nat.zero_mul, Nat.zero_add]

/-- Entries that look the same in one buffer are the same: name and number are all that is read.
-/
theorem overlay_injective {entry e e' : DirectoryEntry} (h : entry.overlay e = entry.overlay e') :
    e = e' := by
  obtain ⟨name, num⟩ := e
  obtain ⟨name', num'⟩ := e'
  simp only [overlay, mk.injEq] at h ⊢
  exact ⟨h.1, by omega⟩

/-- Reading an entry that lies in the block. -/
theorem read_eq (entry : DirectoryEntry) (b : DiskBlock) {offset : Nat} (h : offset + 64 ≤ 1024) :
    entry.read b offset = .ok (entry.overlay (decode b offset)) := by
  rw [read, if_neg (by simp; omega)]
  rfl

/-- The bytes of an entry determine it. -/
theorem decode_congr {a b : DiskBlock} {i j : Nat} (h : ∀ k < 64, a.peek (i + k) = b.peek (j + k)) :
    decode a i = decode b j := by
  have hname : (decode a i).name = (decode b j).name := by
    refine Buffer.ext_peek fun k hk => ?_
    simp only [decode, Buffer.peek_tabulate, if_pos hk]
    exact h k (by simp at hk; omega)
  have hnum : (decode a i).iNodeNum = (decode b j).iNodeNum := by
    refine Buffer.readNat_congr fun k hk => ?_
    simp only [filenameSize, Nat.add_assoc]
    exact h (62 + k) (by simp at hk; omega)
  exact congrArg₂ DirectoryEntry.mk hname hnum

/-- The block with a name and a number stored at an offset. -/
def put (blockPtr : DiskBlock) (offset : Nat) (name : Nat → UInt8) (iNodeNum : Nat) : DiskBlock :=
  (blockPtr.copyIn offset filenameSize name).writeNat (offset + filenameSize) inodeAddressSize iNodeNum

/-- Writing an entry that lies in the block. -/
theorem write_eq (b : DiskBlock) {offset : Nat} (h : offset + 64 ≤ 1024) (name : Nat → UInt8)
    (num : Nat) : write b offset name num = .ok (put b offset name num) := by
  rw [write, if_neg (by simp; omega)]
  rfl

/-- What is written is read back, the number in two bytes. -/
theorem decode_put_self (b : DiskBlock) {offset : Nat} (h : offset + 64 ≤ 1024) (name : Nat → UInt8)
    (num : Nat) : decode (put b offset name num) offset = ⟨.tabulate name, num % 65536⟩ := by
  have hname : (decode (put b offset name num) offset).name = .tabulate name := by
    refine Buffer.ext_peek fun k hk => ?_
    simp only [filenameSize] at hk
    simp only [decode, put, Buffer.writeNat, Buffer.peek_tabulate, Buffer.peek_copyIn, filenameSize,
      inodeAddressSize, blockSize, if_pos hk]
    rw [if_neg (by omega), if_pos (by omega), Nat.add_sub_cancel_left]
  exact congrArg₂ DirectoryEntry.mk hname (Buffer.readNat_writeNat _ num (by simp; omega))

/-- Entries beside it are as they were. -/
theorem decode_put_of_disjoint (b : DiskBlock) {offset i : Nat} (hi : i + 64 ≤ 1024)
    (h : i + 64 ≤ offset ∨ offset + 64 ≤ i) (name : Nat → UInt8) (num : Nat) :
    decode (put b offset name num) i = decode b i := by
  refine decode_congr fun k hk => ?_
  simp only [put, Buffer.writeNat, Buffer.peek_copyIn, filenameSize, inodeAddressSize, blockSize]
  rw [if_neg (by omega), if_neg (by omega)]

/-- Where the name ends. -/
theorem label_eq {e : DirectoryEntry} (h : e.Terminated) :
    ∃ n < 62, e.name.peek n = 0 ∧ (∀ j < n, e.name.peek j ≠ 0) ∧
      e.label = (List.range n).map e.name.peek := by
  have hex : ∃ j, j < 62 ∧ e.name.peek j = 0 := h
  have hn := Nat.find_spec hex
  have hmin : ∀ j < Nat.find hex, e.name.peek j ≠ 0 := fun j hj h0 =>
    Nat.find_min hex hj ⟨by omega, h0⟩
  refine ⟨Nat.find hex, hn.1, hn.2, hmin, ?_⟩
  generalize Nat.find hex = n at hn hmin
  have hsplit : List.range 62 = List.range n ++ n :: (List.range (61 - n)).map (n + 1 + ·) := by
    rw [show 62 = n + (1 + (61 - n)) by omega, List.range_add, List.range_add]
    simp [List.range_succ, Nat.add_assoc]
  rw [label, show List.range filenameSize = _ from hsplit, List.map_append,
    List.takeWhile_append_of_pos (by simpa using hmin), List.map_cons,
    List.takeWhile_cons_of_neg (by simp [hn.2]), List.append_nil]

end DirectoryEntry

/-- `strcmp` with a string that ends after `n` bytes. -/
theorem strcmp_string (b : DiskBlock) : ∀ (name : Name) (offset n : Nat), offset + n < 1024 →
    b.peek (offset + n) = 0 → (∀ j < n, b.peek (offset + j) ≠ 0) → (0 : UInt8) ∉ name →
    strcmp b offset name = .ok (decide ((List.range n).map (fun j => b.peek (offset + j)) = name)) := by
  intro name
  induction name with
  | nil =>
      intro offset n hlt hend hne _
      rw [strcmp, if_neg (by simp; omega)]
      cases n with
      | zero => simp [show b.peek offset = 0 from hend]
      | succ n => simp [show b.peek offset ≠ 0 from hne 0 (by omega)]
  | cons c name ih =>
      intro offset n hlt hend hne hc
      rw [strcmp, if_neg (by simp; omega)]
      cases n with
      | zero =>
          have h0 : b.peek offset = 0 := hend
          rw [if_neg (by rw [h0]; exact fun h => hc (by simp [← h]))]
          simp
      | succ n =>
          have hmap : (List.range (n + 1)).map (fun j => b.peek (offset + j)) =
              b.peek offset :: (List.range n).map fun j => b.peek (offset + 1 + j) := by
            rw [List.range_succ_eq_map, List.map_cons, List.map_map]
            refine congrArg₂ List.cons rfl (List.map_congr_left fun j _ => ?_)
            simp only [Function.comp, Nat.add_assoc, Nat.add_comm 1 j]
          rw [hmap]
          split
          · next heq =>
              rw [ih (offset + 1) n (by omega) (by rw [← hend]; congr 1; omega)
                (fun j hj => by rw [Nat.add_assoc]; exact hne (1 + j) (by omega))
                (fun h => hc (List.mem_cons_of_mem c h)), heq]
              simp
          · next hcne => simp [hcne]

/-- `strcmp` with the name of an entry. -/
theorem strcmp_eq {b : DiskBlock} {offset : Nat} {name : Name} (hoff : offset + 64 ≤ 1024)
    (h : (DirectoryEntry.decode b offset).Terminated) (hname : (0 : UInt8) ∉ name) :
    strcmp b offset name = .ok (decide ((DirectoryEntry.decode b offset).label = name)) := by
  obtain ⟨n, hn, hend, hne, heq⟩ := DirectoryEntry.label_eq h
  have hpeek : ∀ j < 62, (DirectoryEntry.decode b offset).name.peek j = b.peek (offset + j) := by
    intro j hj
    simp [DirectoryEntry.decode, hj]
  have hmap : (List.range n).map (DirectoryEntry.decode b offset).name.peek =
      (List.range n).map fun j => b.peek (offset + j) :=
    List.map_congr_left fun j hj => hpeek j (by have := List.mem_range.mp hj; omega)
  rw [heq, hmap]
  exact strcmp_string b name offset n (by omega) (hpeek n hn ▸ hend)
    (fun j hj => hpeek j (by omega) ▸ hne j hj) hname

/-! ## The loop over a block -/

section Block

open DirectoryEntry (decode noINode)
open Function (update)

variable {b : DiskBlock} {name : Name} {last : Option DirectoryEntry}

/-- The block with the last entry in the place of the one at `offset`. -/
def replaced (last : Option DirectoryEntry) (b : DiskBlock) (offset : Nat) : DiskBlock :=
  match last with
  | none => b
  | some e =>
      if e.iNodeNum = noINode then b
      else DirectoryEntry.put b offset e.name.peek e.iNodeNum

/-- The name is not in the block. -/
theorem searchBlockLoop_absent (last : Option DirectoryEntry) (b : DiskBlock) :
    ∀ (left offset counter : Nat) (buf : Nat → DirectoryEntry),
    (∀ i < left, strcmp b (offset + 64 * i) name = .ok false) →
    searchBlockLoop (some name) last left offset counter b buf = .ok (0, buf, b) := by
  intro left
  induction left with
  | zero =>
      intro offset counter buf _
      rfl
  | succ left ih =>
      intro offset counter buf hne
      rw [searchBlockLoop]
      refine bind_eq_ok.mpr ⟨false, hne 0 (by omega), ?_⟩
      refine ih (offset + 64) (counter + 1) buf fun i hi => ?_
      rw [Nat.add_assoc, show 64 + 64 * i = 64 * (i + 1) by omega]
      exact hne (i + 1) (by omega)

/-- Entry `p` of the block is the first one with the name. -/
theorem searchBlockLoop_found (last : Option DirectoryEntry) (b : DiskBlock) :
    ∀ (left offset counter p : Nat) (buf : Nat → DirectoryEntry), offset + 64 * left ≤ 1024 →
    p < left → (∀ i < p, strcmp b (offset + 64 * i) name = .ok false) →
    strcmp b (offset + 64 * p) name = .ok true →
    searchBlockLoop (some name) last left offset counter b buf =
      .ok (1, update buf 0 ((buf 0).overlay (decode b (offset + 64 * p))),
        replaced last b (offset + 64 * p)) := by
  intro left
  induction left with
  | zero =>
      intro offset counter p buf _ hp
      omega
  | succ left ih =>
      intro offset counter p buf hle hp hne heq
      rw [searchBlockLoop]
      cases p with
      | zero =>
          refine bind_eq_ok.mpr ⟨true, heq, ?_⟩
          rw [if_pos rfl]
          refine bind_eq_ok.mpr ⟨_, DirectoryEntry.read_eq _ b (by omega), ?_⟩
          cases last with
          | none => rfl
          | some e =>
              dsimp only [replaced]
              split
              · rfl
              · rw [DirectoryEntry.write_eq b (by omega)]
                rfl
      | succ p =>
          refine bind_eq_ok.mpr ⟨false, hne 0 (by omega), ?_⟩
          have hshift : ∀ i, offset + 64 + 64 * i = offset + 64 * (i + 1) := fun i => by omega
          have := ih (offset + 64) (counter + 1) p buf (by omega) (by omega)
            (fun i hi => hshift i ▸ hne (i + 1) (by omega)) (hshift p ▸ heq)
          rw [hshift p] at this
          exact this

/-- Without a name, every entry is stored behind those before it. -/
theorem searchBlockLoop_collect (last : Option DirectoryEntry) (b : DiskBlock) :
    ∀ (left offset counter : Nat) (buf : Nat → DirectoryEntry), offset + 64 * left ≤ 1024 →
    searchBlockLoop none last left offset counter b buf =
      .ok (counter + left, fun i => if counter ≤ i ∧ i < counter + left then
        (buf i).overlay (decode b (offset + 64 * (i - counter))) else buf i, b) := by
  intro left
  induction left with
  | zero =>
      intro offset counter buf _
      rw [searchBlockLoop]
      simp only [Option.isNone_none, if_true, Nat.add_zero]
      refine congrArg Except.ok (congrArg₂ Prod.mk rfl (congrArg₂ Prod.mk (funext fun i => ?_) rfl))
      rw [if_neg (by omega)]
  | succ left ih =>
      intro offset counter buf hle
      rw [searchBlockLoop]
      refine bind_eq_ok.mpr ⟨_, DirectoryEntry.read_eq _ b (by omega), ?_⟩
      rw [directoryEntrySize, ih (offset + 64) (counter + 1) _ (by omega)]
      refine congrArg Except.ok (congrArg₂ Prod.mk (by omega)
        (congrArg₂ Prod.mk (funext fun i => ?_) rfl))
      by_cases hi : i = counter
      · subst hi
        rw [if_neg (by omega), if_pos (by omega), Function.update_self, Nat.sub_self, Nat.mul_zero,
          Nat.add_zero]
      · rw [Function.update_of_ne hi]
        by_cases hin : counter + 1 ≤ i ∧ i < counter + 1 + left
        · rw [if_pos hin, if_pos (by omega), show offset + 64 + 64 * (i - (counter + 1)) =
            offset + 64 * (i - counter) by omega]
        · rw [if_neg hin, if_neg (by omega)]

end Block

/-! ## Directories -/

namespace Disk

open DirectoryEntry (decode noINode)
open Function (update)

/-- Entry `i` of a directory. -/
def entryAt (d : Disk) (nums : Buffer Nat blocksInInode) (i : Nat) : DirectoryEntry :=
  decode (d.blocks (d.fileBlock nums (i / directoryEntriesInBlock)))
    (i % directoryEntriesInBlock * directoryEntrySize)

/-- What `strcmp` says about a name and entry `i`; it reads on behind a name that does not end. -/
def matchAt (d : Disk) (nums : Buffer Nat blocksInInode) (name : Name) (i : Nat) : Except Fault Bool :=
  strcmp (d.blocks (d.fileBlock nums (i / directoryEntriesInBlock)))
    (i % directoryEntriesInBlock * directoryEntrySize) name

/-- On a name that ends, `strcmp` compares labels. -/
theorem matchAt_eq {d : Disk} {nums : Buffer Nat blocksInInode} {name : Name} {i : Nat}
    (h : (d.entryAt nums i).Terminated) (hname : (0 : UInt8) ∉ name) :
    d.matchAt nums name i = .ok (decide ((d.entryAt nums i).label = name)) :=
  strcmp_eq (by simp only [directoryEntriesInBlock, directoryEntrySize]; omega) h hname

/-- The number of entries of a directory. -/
def entryCount (x : InCoreINode) : Nat := x.size / directoryEntrySize

/-- The entries of a directory in the order in which they are stored. -/
def entries (d : Disk) (x : InCoreINode) : List DirectoryEntry :=
  (List.range (entryCount x)).map (d.entryAt x.dataBlockNums)

end Disk

/-- A file that is searched as a directory, with whole entries only. -/
structure DirectoryFile (d : Disk) (x : InCoreINode) : Prop extends WellFormed d x where
  searchable : validateSearch x = true
  whole : x.size % directoryEntrySize = 0

/-- The name of every entry ends within its field. -/
def NamesEnd (d : Disk) (x : InCoreINode) : Prop := ∀ e ∈ d.entries x, e.Terminated

namespace Disk

section Search

open DirectoryEntry (decode noINode)
open Function (update)

variable {d : Disk} {x : InCoreINode} {env : Env} {name : Name} {last : Option DirectoryEntry}
  {buf : Nat → DirectoryEntry} {resp : BmapResponse}

/-- A directory has whole entries. -/
theorem size_eq (h : DirectoryFile d x) : x.size = 64 * entryCount x := by
  have := h.whole
  simp only [directoryEntrySize] at this
  simp only [entryCount, directoryEntrySize]
  omega

theorem length_entries (d : Disk) (x : InCoreINode) : (d.entries x).length = entryCount x := by
  simp [entries]

/-- The entries are listed in the order of their places. -/
theorem getElem_entries {i : Nat} (hi : i < (d.entries x).length) :
    (d.entries x)[i] = d.entryAt x.dataBlockNums i := by
  simp [entries]

theorem mem_entries {e : DirectoryEntry} :
    e ∈ d.entries x ↔ ∃ i < entryCount x, d.entryAt x.dataBlockNums i = e := by
  simp [entries]

/-- A directory without repetitions has an entry at one place only. -/
theorem entryAt_injective (h : (d.entries x).Nodup) {i j : Nat} (hi : i < entryCount x)
    (hj : j < entryCount x) (heq : d.entryAt x.dataBlockNums i = d.entryAt x.dataBlockNums j) : i = j :=
  List.inj_on_of_nodup_map h (List.mem_range.mpr hi) (List.mem_range.mpr hj) heq

/-- The bytes of an entry are bytes of the file. -/
theorem peek_entryAt (d : Disk) (nums : Buffer Nat blocksInInode) (i : Nat) {k : Nat} (hk : k < 64) :
    (d.blocks (d.fileBlock nums (i / 16))).peek (i % 16 * 64 + k) = d.byteAt nums (64 * i + k) := by
  simp only [byteAt, blockSize]
  rw [show (64 * i + k) / 1024 = i / 16 by omega,
    show (64 * i + k) % 1024 = i % 16 * 64 + k by omega]

/-- An entry is its 64 bytes. -/
theorem entryAt_congr {d' : Disk} {nums nums' : Buffer Nat blocksInInode} {i j : Nat}
    (h : ∀ k < 64, d'.byteAt nums' (64 * i + k) = d.byteAt nums (64 * j + k)) :
    d'.entryAt nums' i = d.entryAt nums j := by
  refine DirectoryEntry.decode_congr fun k hk => ?_
  simp only [directoryEntriesInBlock, directoryEntrySize]
  rw [peek_entryAt d' nums' i hk, peek_entryAt d nums j hk, h k hk]

/-- An entry is stored in its place, and no other one changes. -/
theorem entryAt_put {nums : Buffer Nat blocksInInode} {n p i : Nat}
    (hown : Own d.backend (d.fileBlocks nums n)) (hn : n ≤ maxBlocks) (hp : p / 16 < n)
    (hi : i / 16 < n) (name : Nat → UInt8) (num : Nat) :
    (d.store (d.fileBlock nums (p / 16)) (DirectoryEntry.put (d.blocks (d.fileBlock nums (p / 16)))
        (64 * (p % 16)) name num)).entryAt nums i =
      if i = p then ⟨.tabulate name, num % 65536⟩ else d.entryAt nums i := by
  have hcap : d.fileBlock nums (p / 16) < d.backend.capacity :=
    (hown.data _ (mem_fileBlocks hp)).2.2
  simp only [entryAt, directoryEntriesInBlock, directoryEntrySize]
  rw [fileBlock_store hown hn hp _ hi]
  by_cases hq : i / 16 = p / 16
  · rw [hq, blocks_store_self _ hcap]
    by_cases hip : i = p
    · subst hip
      rw [if_pos rfl, Nat.mul_comm, DirectoryEntry.decode_put_self _ (by omega)]
    · rw [if_neg hip, DirectoryEntry.decode_put_of_disjoint _ (by omega) (by omega)]
  · rw [if_neg (fun hip => hq (by rw [hip])),
      blocks_store_of_ne _ (fun hcon => hq (fileBlock_injective hown hi hp hcon))]

/-- The directory with the last entry in the place of entry `p`. -/
def putLast (d : Disk) (nums : Buffer Nat blocksInInode) (last : Option DirectoryEntry) (p : Nat) :
    Disk :=
  match last with
  | none => d
  | some e =>
      if e.iNodeNum = noINode then d
      else d.store (d.fileBlock nums (p / 16))
        (replaced last (d.blocks (d.fileBlock nums (p / 16))) (64 * (p % 16)))

/-- The block of entry `k`, as `bmap` finds it. -/
theorem bmap_entry (h : DirectoryFile d x) {k : Nat} (hk : k < entryCount x) :
    d.bmap x (64 * k) resp .read =
      .ok (0, createBMapResponse (d.fileBlock x.dataBlockNums (k / 16)) (64 * (k % 16)), x, d) := by
  have hsize := size_eq h
  rw [bmap_inside (.inl (by omega)) h.blockCount_le fun b hb =>
    (h.own.data b (indirectBlocks_subset hb)).2.2, show 64 * k / 1024 = k / 16 by omega,
    show 64 * k % 1024 = 64 * (k % 16) by omega]

/-- The block of an entry is among those of the directory. -/
theorem lt_blockCount (h : DirectoryFile d x) {k : Nat} (hk : k < entryCount x) :
    k / 16 < blockCount x.size := by
  have hsize := size_eq h
  unfold blockCount
  omega

/-- The block of an entry can be loaded. -/
theorem load_entry (h : DirectoryFile d x) {k : Nat} (hk : k < entryCount x) (b : DiskBlock) :
    d.load (d.fileBlock x.dataBlockNums (k / 16)) b =
      d.blocks (d.fileBlock x.dataBlockNums (k / 16)) :=
  d.load_of_lt (h.own.data _ (mem_fileBlocks (lt_blockCount h hk))).2.2 b

/-- Behind the last entry the lookup of a block fails. -/
theorem bmap_past (h : DirectoryFile d x) {k : Nat} (hk : entryCount x ≤ k) :
    d.bmap x (64 * k) resp .read = .ok (-1, resp, x, d) := by
  have hsize := size_eq h
  rw [bmap, if_pos ⟨by omega, .inl rfl⟩]

/-- The number of entries that are looked at in the block of entry `k`. -/
def batch (m k : Nat) : Nat := min (16 - k % 16) (m - k)

/-- The count of the source: entries up to the end of the block or of the directory. -/
theorem entriesInBlock_eq (h : DirectoryFile d x) (k : Nat) :
    (if 1024 - 64 * (k % 16) > x.size - 64 * k then (x.size - 64 * k) / 64
      else (1024 - 64 * (k % 16)) / 64) = batch (entryCount x) k := by
  have hsize := size_eq h
  unfold batch
  split <;> omega

/-- The entries that are read from a block are those of the directory from `k` on. -/
theorem decode_batch (d : Disk) (nums : Buffer Nat blocksInInode) {m k i : Nat}
    (hi : i < batch m k) :
    decode (d.blocks (d.fileBlock nums (k / 16))) (64 * (k % 16) + 64 * i) =
      d.entryAt nums (k + i) := by
  have : k % 16 + i < 16 := by
    unfold batch at hi
    omega
  rw [entryAt, directoryEntriesInBlock, directoryEntrySize, show (k + i) / 16 = k / 16 by omega,
    show (k + i) % 16 * 64 = 64 * (k % 16) + 64 * i by omega]

/-- A name is compared with the entries of the block in their order. -/
theorem strcmp_batch (d : Disk) (nums : Buffer Nat blocksInInode) (name : Name) {m k i : Nat}
    (hi : i < batch m k) :
    strcmp (d.blocks (d.fileBlock nums (k / 16))) (64 * (k % 16) + 64 * i) name =
      d.matchAt nums name (k + i) := by
  have : k % 16 + i < 16 := by
    unfold batch at hi
    omega
  rw [matchAt, directoryEntriesInBlock, directoryEntrySize, show (k + i) / 16 = k / 16 by omega,
    show (k + i) % 16 * 64 = 64 * (k % 16) + 64 * i by omega]

/-- The disk after a block was looked at: it is stored if an entry was replaced in it. -/
def storedBack (d : Disk) (last : Option DirectoryEntry) (blockNumber retValue : Nat)
    (blockPtr : DiskBlock) : Disk :=
  match last with
  | none => d
  | some e =>
      if e.iNodeNum ≠ noINode ∧ retValue = 1 then d.store blockNumber blockPtr else d

/-- Without a match nothing is stored. -/
theorem storedBack_of_ne (d : Disk) (last : Option DirectoryEntry) {blk ret : Nat} (b : DiskBlock)
    (h : ret ≠ 1) : d.storedBack last blk ret b = d := by
  unfold storedBack
  split
  · rfl
  · exact if_neg fun hcon => h hcon.2

/-- One block of a directory is looked at, from entry `k` on. -/
theorem checkInBlock_eq (h : DirectoryFile d x) {k : Nat} (hk : k < entryCount x)
    {entryName : Option Name} {r : Nat × (Nat → DirectoryEntry) × DiskBlock}
    (hr : searchBlockLoop entryName last (batch (entryCount x) k) (64 * (k % 16)) 0
      (d.blocks (d.fileBlock x.dataBlockNums (k / 16))) buf = .ok r) :
    d.checkInBlock (x.size - 64 * k)
        (createBMapResponse (d.fileBlock x.dataBlockNums (k / 16)) (64 * (k % 16))) entryName buf last =
      .ok (r.1, r.2.1, d.storedBack last (d.fileBlock x.dataBlockNums (k / 16)) r.1 r.2.2) := by
  unfold checkInBlock
  refine bind_eq_ok.mpr ⟨r, ?_, ?_⟩
  · change searchBlockLoop entryName last
      (if 1024 - 64 * (k % 16) > x.size - 64 * k then (x.size - 64 * k) / 64
        else (1024 - 64 * (k % 16)) / 64) (64 * (k % 16)) 0
      (d.load (d.fileBlock x.dataBlockNums (k / 16)) d.backend.junk) buf = .ok r
    rw [entriesInBlock_eq h, load_entry h hk, hr]
  · cases last with
    | none => rfl
    | some e =>
        dsimp only [storedBack]
        split <;> rfl

theorem batch_le (m k : Nat) : 64 * (k % 16) + 64 * batch m k ≤ 1024 := by
  unfold batch
  omega

/-- The loop ends behind the last entry. -/
theorem searchINodeLoop_past (h : DirectoryFile d x) {entryName : Option Name} {n fuel k t : Nat}
    (hk : entryCount x ≤ k) :
    searchINodeLoop x entryName n last (fuel + 1) d (64 * k) t resp buf = .ok (t, buf, d) := by
  rw [searchINodeLoop]
  split
  · exact bind_eq_ok.mpr ⟨_, bmap_past h hk, rfl⟩
  · rfl

/-- One round of the loop at entry `k`. -/
theorem searchINodeLoop_round (resp : BmapResponse) (fuel : Nat) (h : DirectoryFile d x)
    {entryName : Option Name} {n k t : Nat} (hk : k < entryCount x) (hmore : entryName.isSome ∨ t < n)
    {r : Nat × (Nat → DirectoryEntry) × DiskBlock}
    (hr : searchBlockLoop entryName last (batch (entryCount x) k) (64 * (k % 16)) 0
      (d.blocks (d.fileBlock x.dataBlockNums (k / 16))) (fun i => buf (t + i)) = .ok r) :
    ∃ resp', searchINodeLoop x entryName n last (fuel + 1) d (64 * k) t resp buf =
      if entryName.isSome ∧ r.1 = 1 then
        .ok (t + r.1, fun i => if i < t then buf i else r.2.1 (i - t),
          d.storedBack last (d.fileBlock x.dataBlockNums (k / 16)) r.1 r.2.2)
      else searchINodeLoop x entryName n last fuel
        (d.storedBack last (d.fileBlock x.dataBlockNums (k / 16)) r.1 r.2.2) (64 * (k + 16))
        (t + r.1) resp' fun i => if i < t then buf i else r.2.1 (i - t) := by
  have hcheck := checkInBlock_eq h hk hr
  refine ⟨createBMapResponse (d.fileBlock x.dataBlockNums (k / 16)) (64 * (k % 16)), ?_⟩
  rw [searchINodeLoop, if_pos hmore, bmap_entry h hk]
  simp only [bind, Except.bind, if_neg (show ¬ ((0 : Int) = -1) by decide), hcheck]
  rw [show 64 * k + directoryEntriesInBlock * directoryEntrySize = 64 * (k + 16) by simp; omega]

/-- A block without the name is passed. -/
theorem searchINodeLoop_next (resp : BmapResponse) (n fuel : Nat)
    (last : Option DirectoryEntry) (buf : Nat → DirectoryEntry) (h : DirectoryFile d x) {k : Nat}
    (hk : k % 16 = 0) (hlt : k < entryCount x)
    (hne : ∀ i < entryCount x, k ≤ i → i < k + 16 → d.matchAt x.dataBlockNums name i = .ok false) :
    ∃ resp', searchINodeLoop x (some name) n last (fuel + 1) d (64 * k) 0 resp buf =
      searchINodeLoop x (some name) n last fuel d (64 * (k + 16)) 0 resp' buf := by
  have hin : ∀ i < batch (entryCount x) k, i < 16 ∧ k + i < entryCount x := by
    intro i hi
    unfold batch at hi
    omega
  have hblock := searchBlockLoop_absent last (d.blocks (d.fileBlock x.dataBlockNums (k / 16)))
    (batch (entryCount x) k) (64 * (k % 16)) 0 (fun i => buf (0 + i)) fun i hi =>
      (strcmp_batch d x.dataBlockNums name hi).trans
        (hne _ (hin i hi).2 (by omega) (by have := hin i hi; omega))
  obtain ⟨resp', heq⟩ := searchINodeLoop_round resp fuel h (n := n) hlt (.inl rfl) hblock
  refine ⟨resp', heq.trans ?_⟩
  rw [if_neg (by simp), d.storedBack_of_ne last _ (by simp)]
  simp only [Nat.not_lt_zero, if_false, Nat.sub_zero, Nat.zero_add]

/-- **A name that is not there.** -/
theorem searchINodeLoop_absent (h : DirectoryFile d x)
    (hne : ∀ i < entryCount x, d.matchAt x.dataBlockNums name i = .ok false) {n : Nat} :
    ∀ (fuel k : Nat) (resp : BmapResponse), k % 16 = 0 → entryCount x - k < fuel →
    searchINodeLoop x (some name) n last fuel d (64 * k) 0 resp buf = .ok (0, buf, d) := by
  intro fuel
  induction fuel with
  | zero =>
      intro k resp _ hfuel
      omega
  | succ fuel ih =>
      intro k resp hk hfuel
      by_cases hlt : k < entryCount x
      · obtain ⟨resp', heq⟩ := searchINodeLoop_next resp n fuel last buf h hk hlt
          fun i hi _ _ => hne i hi
        rw [heq]
        exact ih (k + 16) resp' (by omega) (by omega)
      · exact searchINodeLoop_past h (by omega)

/-- Entry `p` is the first one that the search takes for the name. -/
structure FirstMatch (d : Disk) (x : InCoreINode) (name : Name) (p : Nat) : Prop where
  lt : p < entryCount x
  found : d.matchAt x.dataBlockNums name p = .ok true
  first : ∀ i < p, d.matchAt x.dataBlockNums name i = .ok false

/-- Entry `p` is the first one with the name. -/
structure FirstNamed (d : Disk) (x : InCoreINode) (name : Name) (p : Nat) : Prop where
  lt : p < entryCount x
  label : (d.entryAt x.dataBlockNums p).label = name
  first : ∀ i < p, (d.entryAt x.dataBlockNums i).label ≠ name

/-- Where all names end, the first entry of that name is the first match. -/
theorem FirstNamed.firstMatch {p : Nat} (hp : FirstNamed d x name p) (hname : (0 : UInt8) ∉ name)
    (hterm : NamesEnd d x) : FirstMatch d x name p where
  lt := hp.lt
  found := by
    rw [matchAt_eq (hterm _ (mem_entries.mpr ⟨p, hp.lt, rfl⟩)) hname, decide_eq_true hp.label]
  first := fun i hi => by
    have hlt := hp.lt
    rw [matchAt_eq (hterm _ (mem_entries.mpr ⟨i, by omega, rfl⟩)) hname,
      decide_eq_false (hp.first i hi)]

/-- Where all names end, a name that no entry has matches nowhere. -/
theorem matchAt_absent (hname : (0 : UInt8) ∉ name) (hterm : NamesEnd d x)
    (hne : ∀ e ∈ d.entries x, e.label ≠ name) :
    ∀ i < entryCount x, d.matchAt x.dataBlockNums name i = .ok false := by
  intro i hi
  have hmem : d.entryAt x.dataBlockNums i ∈ d.entries x := mem_entries.mpr ⟨i, hi, rfl⟩
  rw [matchAt_eq (hterm _ hmem) hname, decide_eq_false (hne _ hmem)]

/-- **A name that is there**; the last entry takes its place if there is one to do so. -/
theorem searchINodeLoop_found (h : DirectoryFile d x) {p : Nat} (hp : FirstMatch d x name p) {n : Nat} :
    ∀ (fuel k : Nat) (resp : BmapResponse), k % 16 = 0 → k ≤ p → p - k < fuel →
    searchINodeLoop x (some name) n last fuel d (64 * k) 0 resp buf =
      .ok (1, update buf 0 ((buf 0).overlay (d.entryAt x.dataBlockNums p)),
        d.putLast x.dataBlockNums last p) := by
  intro fuel
  induction fuel with
  | zero =>
      intro k resp _ _ hfuel
      omega
  | succ fuel ih =>
      intro k resp hk hkp hfuel
      have hlt := hp.lt
      by_cases hnext : k + 16 ≤ p
      · obtain ⟨resp', heq⟩ := searchINodeLoop_next resp n fuel last buf h hk (by omega)
          fun i _ _ hi => hp.first i (by omega)
        rw [heq]
        exact ih (k + 16) resp' (by omega) hnext (by omega)
      · have hin : p - k < batch (entryCount x) k := by
          unfold batch
          omega
        have hdec := decode_batch d x.dataBlockNums hin
        have hcmp := strcmp_batch d x.dataBlockNums name hin
        rw [Nat.add_sub_cancel' hkp] at hdec hcmp
        have hblock := searchBlockLoop_found last
          (d.blocks (d.fileBlock x.dataBlockNums (k / 16))) (batch (entryCount x) k)
          (64 * (k % 16)) 0 (p - k) (fun i => buf (0 + i)) (batch_le _ _) hin
          (fun i hi => (strcmp_batch d x.dataBlockNums name
            (by omega : i < batch (entryCount x) k)).trans (hp.first _ (by omega)))
          (hcmp.trans hp.found)
        obtain ⟨resp', heq⟩ := searchINodeLoop_round resp fuel h (n := n)
          (show k < entryCount x by omega) (.inl rfl) hblock
        rw [heq, if_pos ⟨rfl, rfl⟩, hdec]
        simp only [Nat.not_lt_zero, if_false, Nat.sub_zero, Nat.zero_add]
        refine congrArg Except.ok (congrArg₂ Prod.mk rfl (congrArg₂ Prod.mk rfl ?_))
        rw [show 64 * (k % 16) + 64 * (p - k) = 64 * (p % 16) by omega,
          show k / 16 = p / 16 by omega]
        cases last with
        | none => rfl
        | some e =>
            simp only [storedBack, putLast, ne_eq, and_true, ite_not]

/-- The search is the scan of all entries, once the last entry has been read. -/
theorem searchINodeDirectoryEntries_eq (h : DirectoryFile d x) (env : Env) (entryName : Option Name)
    (buf : Nat → DirectoryEntry) (n : Nat) (forUnlink : Bool) (last : Option DirectoryEntry)
    (hlast : (if forUnlink then (d.getLastEntry env x env.entry).map some else .ok none) = .ok last)
    {r : Nat × (Nat → DirectoryEntry) × Disk}
    (hr : searchINodeLoop x entryName n last (x.size + 2) d (64 * 0) 0 env.response buf = .ok r) :
    d.searchINodeDirectoryEntries env x entryName 0 buf n forUnlink = .ok (r.1, r.2.1, r.2.2) := by
  rw [searchINodeDirectoryEntries, if_neg (by simp [h.searchable])]
  cases forUnlink with
  | false => exact bind_eq_ok.mpr ⟨last, hlast, bind_eq_ok.mpr ⟨r, hr, rfl⟩⟩
  | true => exact bind_eq_ok.mpr ⟨last, hlast, bind_eq_ok.mpr ⟨r, hr, rfl⟩⟩

theorem entryCount_le (x : InCoreINode) : entryCount x ≤ x.size := Nat.div_le_self _ _

/-- A name that matches nowhere is not found, and the buffer is as it was. -/
theorem search_absent (h : DirectoryFile d x)
    (hne : ∀ i < entryCount x, d.matchAt x.dataBlockNums name i = .ok false) (env : Env)
    (buf : Nat → DirectoryEntry) (n : Nat) :
    d.searchINodeDirectoryEntries env x (some name) 0 buf n false = .ok (0, buf, d) :=
  searchINodeDirectoryEntries_eq h env _ buf n false none rfl
    (searchINodeLoop_absent h hne _ 0 _ rfl (by have := entryCount_le x; omega))

/-- A name is found at its first match, which is copied to the buffer. -/
theorem search_found (h : DirectoryFile d x) {p : Nat} (hp : FirstMatch d x name p) (env : Env)
    (buf : Nat → DirectoryEntry) (n : Nat) :
    d.searchINodeDirectoryEntries env x (some name) 0 buf n false =
      .ok (1, update buf 0 ((buf 0).overlay (d.entryAt x.dataBlockNums p)), d) :=
  searchINodeDirectoryEntries_eq h env _ buf n false none rfl
    (searchINodeLoop_found h hp _ 0 _ rfl (Nat.zero_le p)
      (by have := entryCount_le x; have := hp.lt; omega))

/-- A name is there, or it is not. -/
theorem exists_firstNamed (d : Disk) (x : InCoreINode) (name : Name) :
    (∃ p, FirstNamed d x name p) ∨ ∀ e ∈ d.entries x, e.label ≠ name := by
  by_cases h : ∃ p, p < entryCount x ∧ (d.entryAt x.dataBlockNums p).label = name
  · have hp := Nat.find_spec h
    exact .inl ⟨_, hp.1, hp.2, fun i hi heq => Nat.find_min h hi ⟨by omega, heq⟩⟩
  · refine .inr fun e he hlabel => ?_
    obtain ⟨i, hi, rfl⟩ := mem_entries.mp he
    exact h ⟨i, hi, hlabel⟩

end Search

end Disk

end Naofs
