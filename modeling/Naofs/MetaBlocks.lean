import Naofs.Disk

/-!
# Naofs.MetaBlocks

The codecs of the list blocks as `metaBlocks.c` runs them: a pointer into the
block and a counter into the array advance side by side until the pointer has
reached the end of the block, and every access is checked against the object
it is made in.

The loops never leave their objects (`makeFreeDiskListBlock_checked` and the
three that follow), so that the functions of `Naofs.Disk` are what they compute.
-/

namespace Naofs

namespace Checked

section Loops

variable {n count w : Nat}

/-- The loop that fills the array.  The copy replaces the low `w` bytes of the
accumulator, which is the same variable in every round. -/
def readLoop (hw : 0 < w) (block : Buffer UInt8 n) (ptrIntoBlock counter number : Nat)
    (numbers : Buffer Nat count) : Except Fault (Buffer Nat count) :=
  if ptrIntoBlock < n then
    if ptrIntoBlock + w ≤ n ∧ counter < count then
      let number := number / 256 ^ w * 256 ^ w + block.readNat ptrIntoBlock w
      readLoop hw block (ptrIntoBlock + w) (counter + 1) number (numbers.poke counter number)
    else .error .outOfBounds
  else .ok numbers
termination_by n - ptrIntoBlock

/-- The loop that fills the block with the low `w` bytes of each number. -/
def writeLoop (hw : 0 < w) (numbers : Buffer Nat count) (ptrIntoBlock counter : Nat)
    (block : Buffer UInt8 n) : Except Fault (Buffer UInt8 n) :=
  if ptrIntoBlock < n then
    if ptrIntoBlock + w ≤ n ∧ counter < count then
      writeLoop hw numbers (ptrIntoBlock + w) (counter + 1)
        (block.writeNat ptrIntoBlock w (numbers.peek counter))
    else .error .outOfBounds
  else .ok block
termination_by n - ptrIntoBlock

/-- Pointer and counter stay in step, and both objects end where the other does. -/
theorem in_step (hw : 0 < w) (hn : w * count = n) (c k : Nat) (hc : c + (k + 1) = count) :
    w * c < n ∧ w * c + w ≤ n ∧ c < count := by
  have hle : w * (c + 1) ≤ w * count := Nat.mul_le_mul_left w (by omega)
  rw [Nat.mul_add, Nat.mul_one] at hle
  omega

/-- The reading loop with `k` numbers to go. -/
theorem readLoop_eq (hw : 0 < w) (hn : w * count = n) (block : Buffer UInt8 n) (k : Nat) :
    ∀ (c number : Nat) (numbers : Buffer Nat count), c + k = count → number < 256 ^ w →
      readLoop hw block (w * c) c number numbers =
        .ok (.tabulate fun i => if i < c then numbers.peek i else block.readNat (w * i) w) := by
  induction k with
  | zero =>
      intro c number numbers hc _
      obtain rfl : c = count := by omega
      rw [readLoop, if_neg (by omega)]
      congr 1
      apply Buffer.ext_peek
      intro i hi
      simp [hi]
  | succ k ih =>
      intro c number numbers hc hnum
      obtain ⟨h1, h2, h3⟩ := in_step hw hn c k hc
      -- nothing of the last round is left in the accumulator
      have hacc : number / 256 ^ w * 256 ^ w + block.readNat (w * c) w = block.readNat (w * c) w := by
        rw [Nat.div_eq_of_lt hnum, Nat.zero_mul, Nat.zero_add]
      rw [readLoop, if_pos h1, if_pos ⟨h2, h3⟩]
      simp only [hacc]
      rw [show w * c + w = w * (c + 1) by rw [Nat.mul_add, Nat.mul_one],
        ih (c + 1) _ _ (by omega) (block.readNat_lt _ _)]
      congr 1
      apply Buffer.ext_peek
      intro i hi
      simp only [Buffer.peek_tabulate, if_pos hi, Buffer.peek_poke]
      rcases Nat.lt_trichotomy i c with hic | hic | hic
      · rw [if_pos (by omega), if_neg (by omega), if_pos hic]
      · rw [if_pos (by omega), if_pos ⟨hic, h3⟩, if_neg (by omega), hic]
      · rw [if_neg (by omega), if_neg (by omega)]

/-- The writing loop with `k` numbers to go. -/
theorem writeLoop_eq (hw : 0 < w) (hn : w * count = n) (numbers : Buffer Nat count) (k : Nat) :
    ∀ (c : Nat) (block : Buffer UInt8 n), c + k = count →
      writeLoop hw numbers (w * c) c block =
        .ok ((List.range' c k).foldl (fun b i => b.writeNat (w * i) w (numbers.peek i)) block) := by
  induction k with
  | zero =>
      intro c block hc
      obtain rfl : c = count := by omega
      rw [writeLoop, if_neg (by omega)]
      rfl
  | succ k ih =>
      intro c block hc
      obtain ⟨h1, h2, h3⟩ := in_step hw hn c k hc
      rw [writeLoop, if_pos h1, if_pos ⟨h2, h3⟩,
        show w * c + w = w * (c + 1) by rw [Nat.mul_add, Nat.mul_one], ih (c + 1) _ (by omega)]
      rfl

/-- Both loops run to the end of the block and compute what `readNumbers` and
`writeNumbers` say, whatever the array or the block held before. -/
theorem readLoop_eq_readNumbers (hw : 0 < w) (hn : w * count = n) (block : Buffer UInt8 n)
    (numbers : Buffer Nat count) :
    readLoop hw block 0 0 0 numbers = .ok (block.readNumbers 0 w count) := by
  have h := readLoop_eq hw hn block count 0 0 numbers (by omega) (Nat.pow_pos (by decide))
  simpa [Buffer.readNumbers] using h

/-- The loop over pointers writes the table. -/
theorem writeLoop_eq_writeNumbers (hw : 0 < w) (hn : w * count = n) (numbers : Buffer Nat count)
    (block : Buffer UInt8 n) :
    writeLoop hw numbers 0 0 block = .ok (block.writeNumbers 0 w numbers) := by
  have h := writeLoop_eq hw hn numbers count 0 block (by omega)
  simpa [Buffer.writeNumbers, List.range_eq_range'] using h

end Loops

/-! ## The four codecs -/

def makeFreeDiskListBlock (blockPtr : DiskBlock) (theBlock : FreeDiskListBlock) :
    Except Fault FreeDiskListBlock :=
  readLoop (w := blockAddressSize) (by decide) blockPtr 0 0 0 theBlock

def writeFreeDiskListBlock (theBlock : FreeDiskListBlock) (blockPtr : DiskBlock) :
    Except Fault DiskBlock :=
  writeLoop (w := blockAddressSize) (by decide) theBlock 0 0 blockPtr

def makeINodeListBlock (blockPtr : DiskBlock) (theBlock : INodeListBlock) :
    Except Fault INodeListBlock :=
  readLoop (w := inodeAddressSize) (by decide) blockPtr 0 0 0 theBlock

def writeINodeListBlock (theBlock : INodeListBlock) (blockPtr : DiskBlock) :
    Except Fault DiskBlock :=
  writeLoop (w := inodeAddressSize) (by decide) theBlock 0 0 blockPtr

section Codecs

variable (b : DiskBlock) (blocks : FreeDiskListBlock) (iNodes : INodeListBlock)

@[simp] theorem makeFreeDiskListBlock_checked :
    makeFreeDiskListBlock b blocks = .ok (Naofs.makeFreeDiskListBlock b) :=
  readLoop_eq_readNumbers (w := blockAddressSize) (by decide) (by decide) b blocks

@[simp] theorem writeFreeDiskListBlock_checked :
    writeFreeDiskListBlock blocks b = .ok (Naofs.writeFreeDiskListBlock blocks b) :=
  writeLoop_eq_writeNumbers (w := blockAddressSize) (by decide) (by decide) blocks b

@[simp] theorem makeINodeListBlock_checked :
    makeINodeListBlock b iNodes = .ok (Naofs.makeINodeListBlock b) :=
  readLoop_eq_readNumbers (w := inodeAddressSize) (by decide) (by decide) b iNodes

@[simp] theorem writeINodeListBlock_checked :
    writeINodeListBlock iNodes b = .ok (Naofs.writeINodeListBlock iNodes b) :=
  writeLoop_eq_writeNumbers (w := inodeAddressSize) (by decide) (by decide) iNodes b

end Codecs

end Checked

/-- **The codecs of the list blocks are inverse** to each other, in both
directions and whatever the target held before, and stay within their objects. -/
theorem listBlocks_inverse (b old : DiskBlock) (blocks blocks' : FreeDiskListBlock)
    (iNodes iNodes' : INodeListBlock)
    (hblocks : ∀ i < blockAddressesPerBlock, blocks.peek i < 2 ^ 64)
    (hiNodes : ∀ i < inodeNosPerBlock, iNodes.peek i < 2 ^ 16) :
    (Checked.writeFreeDiskListBlock blocks old >>= (Checked.makeFreeDiskListBlock · blocks')) =
        .ok blocks ∧
      (Checked.writeINodeListBlock iNodes old >>= (Checked.makeINodeListBlock · iNodes')) =
        .ok iNodes ∧
      (Checked.makeFreeDiskListBlock b blocks' >>= (Checked.writeFreeDiskListBlock · old)) = .ok b ∧
      (Checked.makeINodeListBlock b iNodes' >>= (Checked.writeINodeListBlock · old)) = .ok b := by
  have hfree : makeFreeDiskListBlock (writeFreeDiskListBlock blocks old) = blocks :=
    Buffer.readNumbers_writeNumbers old (by decide) blocks hblocks (by decide)
  have hinode : makeINodeListBlock (writeINodeListBlock iNodes old) = iNodes :=
    Buffer.readNumbers_writeNumbers old (by decide) iNodes hiNodes (by decide)
  have hback : writeINodeListBlock (makeINodeListBlock b) old = b :=
    Buffer.writeNumbers_readNumbers old b (by decide) rfl
  refine ⟨?_, ?_, ?_, ?_⟩
  · rw [Checked.writeFreeDiskListBlock_checked]
    exact (Checked.makeFreeDiskListBlock_checked _ _).trans (congrArg _ hfree)
  · rw [Checked.writeINodeListBlock_checked]
    exact (Checked.makeINodeListBlock_checked _ _).trans (congrArg _ hinode)
  · rw [Checked.makeFreeDiskListBlock_checked]
    exact (Checked.writeFreeDiskListBlock_checked _ _).trans
      (congrArg _ (writeFreeDiskListBlock_make old b))
  · rw [Checked.makeINodeListBlock_checked]
    exact (Checked.writeINodeListBlock_checked _ _).trans (congrArg _ hback)

/-- Numbers of the full width, over a block of ones. -/
theorem listBlocks_inverse_full :
    ∃ (blocks : FreeDiskListBlock) (iNodes : INodeListBlock) (old : DiskBlock),
      blocks.peek 127 = 2 ^ 64 - 1 ∧ iNodes.peek 511 = 65535 ∧
      (Checked.writeFreeDiskListBlock blocks old >>= (Checked.makeFreeDiskListBlock · blocks)) =
        .ok blocks := by
  refine ⟨.tabulate fun _ => 2 ^ 64 - 1, .tabulate fun _ => 65535, .tabulate fun _ => 255,
    by simp, by simp, ?_⟩
  exact (listBlocks_inverse (.tabulate fun _ => 255) (.tabulate fun _ => 255) _ _
    (.tabulate fun _ => 65535) (.tabulate fun _ => 65535)
    (fun i hi => by simp [hi]) (fun i hi => by simp [hi])).1

end Naofs
