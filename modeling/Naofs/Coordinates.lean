import Naofs.Bmap

/-!
# Naofs.Coordinates

`calculateOffset` as a coordinate system for the blocks of a file.

The source computes with `size_t` and stores the results as `int`.  Here every
subtraction and product that would wrap around and every conversion that would
change the value is made visible; none of them happens
(`calculateOffset_checked`).  The coordinates of an index are then the level of
its tree and its digits there, and indices and coordinates determine each other
(`coordinates_faithful`).
-/

namespace Naofs

namespace Checked

/-- `size_t` subtraction; `none` where it wraps around. -/
def sub (a b : Nat) : Option Nat := if b ≤ a then some (a - b) else none

/-- `size_t` product; `none` where it wraps around. -/
def mul (a b : Nat) : Option Nat := if a * b < 2 ^ 64 then some (a * b) else none

/-- The conversion of a `size_t` to an `int`; `none` where it changes the value. -/
def toInt (a : Nat) : Option Int := if a < 2 ^ 31 then some a else none

/-- The branches of `calculateOffset`, one for each level. -/
def directOffset (blkIndex : Nat) : Option BlkTreeOffset := do
  some (blkTreeOffsetConstructor (← toInt blkIndex) (-1) (-1) (-1) .direct)

def singleOffset (blkIndex : Nat) : Option BlkTreeOffset := do
  let firstOffset ← sub (← sub blkIndex directBlockLimit) 1
  some (blkTreeOffsetConstructor (-1) (← toInt firstOffset) (-1) (-1) .singleIndirect)

def doubleOffset (blkIndex : Nat) : Option BlkTreeOffset := do
  let firstOffset := (← sub (← sub blkIndex singleIndirectLimit) 1) / blockAddressesPerBlock
  let secondOffset ← sub (← sub (← sub blkIndex (← mul firstOffset blockAddressesPerBlock))
    singleIndirectLimit) 1
  some (blkTreeOffsetConstructor (-1) (← toInt firstOffset) (← toInt secondOffset) (-1)
    .doubleIndirect)

def tripleOffset (blkIndex : Nat) : Option BlkTreeOffset := do
  let square ← mul blockAddressesPerBlock blockAddressesPerBlock
  let firstOffset := (← sub (← sub blkIndex doubleIndirectLimit) 1) / square
  let secondOffset := (← sub (← sub (← sub blkIndex (← mul firstOffset square))
    doubleIndirectLimit) 1) / blockAddressesPerBlock
  let thirdOffset ← sub (← sub (← sub (← sub blkIndex (← mul secondOffset blockAddressesPerBlock))
    (← mul firstOffset square)) doubleIndirectLimit) 1
  some (blkTreeOffsetConstructor (-1) (← toInt firstOffset) (← toInt secondOffset)
    (← toInt thirdOffset) .tripleIndirect)

def calculateOffset (offset : Nat) : Option BlkTreeOffset :=
  let blkIndex := offset / blockSize
  if blkIndex ≤ directBlockLimit then directOffset blkIndex
  else if blkIndex ≤ singleIndirectLimit then singleOffset blkIndex
  else if blkIndex ≤ doubleIndirectLimit then doubleOffset blkIndex
  else if blkIndex ≤ tripleIndirectLimit then tripleOffset blkIndex
  else none

section Steps

variable {a b : Nat} {α : Type} {f : Nat → Option α} {g : Int → Option α}

/-- A step that stays in range goes on with its value. -/
theorem sub_bind (h : b ≤ a) : (sub a b >>= f) = f (a - b) := by rw [sub, if_pos h]; rfl

/-- A product that fits is computed. -/
theorem mul_bind (h : a * b < 2 ^ 64) : (mul a b >>= f) = f (a * b) := by rw [mul, if_pos h]; rfl

/-- A number that fits is converted. -/
theorem toInt_bind (h : a < 2 ^ 31) : (toInt a >>= g) = g a := by rw [toInt, if_pos h]; rfl

end Steps

section Levels

variable {q : Nat}

/-- The first ten blocks are direct. -/
theorem directOffset_eq (h : q ≤ 9) :
    directOffset q = some (blkTreeOffsetConstructor q (-1) (-1) (-1) .direct) := by
  rw [directOffset, toInt_bind (by omega)]

/-- The next 128 are under the single indirect block. -/
theorem singleOffset_eq (h1 : ¬ q ≤ 9) (h2 : q ≤ 137) : singleOffset q =
    some (blkTreeOffsetConstructor (-1) (q - 9 - 1 : Nat) (-1) (-1) .singleIndirect) := by
  rw [singleOffset, sub_bind (by simp; omega), sub_bind (by simp; omega), toInt_bind (by simp; omega)]

/-- The quotients as variables, each small enough for the differences it is used in. -/
theorem doubleOffset_eq (h1 : ¬ q ≤ 137) (h2 : q ≤ 16521) {first second : Nat}
    (hfirst : first = (q - 137 - 1) / 128) (hsecond : second = q - first * 128 - 137 - 1) :
    doubleOffset q =
      some (blkTreeOffsetConstructor (-1) first second (-1) .doubleIndirect) := by
  have hle : first * 128 ≤ q - 138 := by omega
  rw [doubleOffset, sub_bind (by simp; omega), sub_bind (by simp; omega), ← hfirst,
    mul_bind (by simp; omega), sub_bind (by simp; omega), sub_bind (by simp; omega),
    sub_bind (by simp; omega), ← hsecond, toInt_bind (by omega), toInt_bind (by omega)]

/-- The last ones are under the triple indirect block, with three digits to base 128. -/
theorem tripleOffset_eq (h1 : ¬ q ≤ 16521) (h2 : q ≤ 2113673) {first second third : Nat}
    (hfirst : first = (q - 16521 - 1) / (128 * 128))
    (hsecond : second = (q - first * (128 * 128) - 16521 - 1) / 128)
    (hthird : third = q - second * 128 - first * (128 * 128) - 16521 - 1) :
    tripleOffset q =
      some (blkTreeOffsetConstructor (-1) first second third .tripleIndirect) := by
  have hle : first * (128 * 128) ≤ q - 16522 := by omega
  have hle' : second * 128 ≤ q - 16522 - first * (128 * 128) := by omega
  rw [tripleOffset, mul_bind (by decide), sub_bind (by simp; omega), sub_bind (by simp; omega),
    ← hfirst, mul_bind (by simp; omega), sub_bind (by simp; omega), sub_bind (by simp; omega),
    sub_bind (by simp; omega), ← hsecond, mul_bind (by simp; omega), sub_bind (by simp; omega),
    mul_bind (by simp; omega), sub_bind (by simp; omega), sub_bind (by simp; omega),
    sub_bind (by simp; omega), ← hthird, toInt_bind (by omega), toInt_bind (by omega),
    toInt_bind (by omega)]

end Levels

/-- Nothing wraps around and nothing is cut off on the way. -/
theorem calculateOffset_checked (offset : Nat) :
    calculateOffset offset = Naofs.calculateOffset offset := by
  simp only [calculateOffset, Naofs.calculateOffset]
  generalize offset / blockSize = q
  simp only [directBlockLimit, singleIndirectLimit, doubleIndirectLimit, tripleIndirectLimit,
    blockAddressesPerBlock]
  by_cases h1 : q ≤ 9
  · rw [if_pos h1, if_pos h1, directOffset_eq h1]
  by_cases h2 : q ≤ 137
  · rw [if_neg h1, if_neg h1, if_pos h2, if_pos h2, singleOffset_eq h1 h2]
  by_cases h3 : q ≤ 16521
  · rw [if_neg h1, if_neg h1, if_neg h2, if_neg h2, if_pos h3, if_pos h3,
      doubleOffset_eq h2 h3 rfl rfl]
  by_cases h4 : q ≤ 2113673
  · rw [if_neg h1, if_neg h1, if_neg h2, if_neg h2, if_neg h3, if_neg h3, if_pos h4, if_pos h4,
      tripleOffset_eq h3 h4 rfl rfl rfl]
  · rw [if_neg h1, if_neg h1, if_neg h2, if_neg h2, if_neg h3, if_neg h3, if_neg h4, if_neg h4]

end Checked

namespace BlkTreeOffset

/-- A coordinate: the entries in use are digits, the others are `-1`. -/
structure Valid (o : BlkTreeOffset) : Prop where
  direct : o.offsetIndirection = .direct →
    0 ≤ o.offsets.peek 0 ∧ o.offsets.peek 0 ≤ directBlockLimit
  indirect : o.offsetIndirection ≠ .direct → o.offsets.peek 0 = -1
  used : ∀ i, 1 ≤ i → i ≤ o.offsetIndirection.toNat →
    0 ≤ o.offsets.peek i ∧ o.offsets.peek i < blockAddressesPerBlock
  unused : ∀ i, o.offsetIndirection.toNat < i → i < 4 → o.offsets.peek i = -1

/-- The position within the level. -/
def value (o : BlkTreeOffset) : Nat :=
  if o.offsetIndirection = .direct then (o.offsets.peek 0).toNat
  else Radix.value blockAddressesPerBlock o.below

/-- `o'` comes right behind `o`: next in the same level, or first in the next one. -/
def Next (o o' : BlkTreeOffset) : Prop :=
  (o'.offsetIndirection = o.offsetIndirection ∧ o'.value = o.value + 1) ∨
    (o'.offsetIndirection.toNat = o.offsetIndirection.toNat + 1 ∧
      ∀ i, 1 ≤ i → i ≤ o'.offsetIndirection.toNat → o'.offsets.peek i = 0)

/-- A coordinate is given by its entries. -/
theorem eta (o : BlkTreeOffset) : o = blkTreeOffsetConstructor (o.offsets.peek 0)
    (o.offsets.peek 1) (o.offsets.peek 2) (o.offsets.peek 3) o.offsetIndirection := by
  obtain ⟨offsets, level⟩ := o
  simp only [blkTreeOffsetConstructor, BlkTreeOffset.mk.injEq, and_true]
  apply Buffer.ext_peek
  intro i hi
  obtain rfl | rfl | rfl | rfl : i = 0 ∨ i = 1 ∨ i = 2 ∨ i = 3 := by omega
  all_goals rfl

theorem toNat_injective {l l' : IndirectionLevel} (h : l.toNat = l'.toNat) : l = l' := by
  cases l <;> cases l' <;> simp_all [IndirectionLevel.toNat]

section Constructor

variable {a b c e : Int}

/-- A direct block has no other coordinate. -/
theorem valid_direct (h0 : 0 ≤ a) (h : a ≤ 9) :
    (blkTreeOffsetConstructor a (-1) (-1) (-1) .direct).Valid where
  direct := fun _ => ⟨h0, h⟩
  indirect := fun hne => absurd rfl hne
  used := fun i hlo hi => by
    simp only [blkTreeOffsetConstructor, IndirectionLevel.toNat] at hi
    omega
  unused := fun i hlo hi => by
    simp only [blkTreeOffsetConstructor, IndirectionLevel.toNat] at hlo
    obtain rfl | rfl | rfl : i = 1 ∨ i = 2 ∨ i = 3 := by omega
    all_goals rfl

/-- One digit below 128. -/
theorem valid_single (h : 0 ≤ b ∧ b < 128) :
    (blkTreeOffsetConstructor (-1) b (-1) (-1) .singleIndirect).Valid where
  direct := fun heq => nomatch heq
  indirect := fun _ => rfl
  used := fun i hlo hi => by
    simp only [blkTreeOffsetConstructor, IndirectionLevel.toNat] at hi
    obtain rfl : i = 1 := by omega
    exact h
  unused := fun i hlo hi => by
    simp only [blkTreeOffsetConstructor, IndirectionLevel.toNat] at hlo
    obtain rfl | rfl : i = 2 ∨ i = 3 := by omega
    all_goals rfl

/-- Two digits below 128. -/
theorem valid_double (h : 0 ≤ b ∧ b < 128) (h' : 0 ≤ c ∧ c < 128) :
    (blkTreeOffsetConstructor (-1) b c (-1) .doubleIndirect).Valid where
  direct := fun heq => nomatch heq
  indirect := fun _ => rfl
  used := fun i hlo hi => by
    simp only [blkTreeOffsetConstructor, IndirectionLevel.toNat] at hi
    obtain rfl | rfl : i = 1 ∨ i = 2 := by omega
    · exact h
    · exact h'
  unused := fun i hlo hi => by
    simp only [blkTreeOffsetConstructor, IndirectionLevel.toNat] at hlo
    obtain rfl : i = 3 := by omega
    rfl

/-- Three digits below 128. -/
theorem valid_triple (h : 0 ≤ b ∧ b < 128) (h' : 0 ≤ c ∧ c < 128) (h'' : 0 ≤ e ∧ e < 128) :
    (blkTreeOffsetConstructor (-1) b c e .tripleIndirect).Valid where
  direct := fun heq => nomatch heq
  indirect := fun _ => rfl
  used := fun i hlo hi => by
    simp only [blkTreeOffsetConstructor, IndirectionLevel.toNat] at hi
    obtain rfl | rfl | rfl : i = 1 ∨ i = 2 ∨ i = 3 := by omega
    · exact h
    · exact h'
    · exact h''
  unused := fun i hlo hi => by
    simp only [blkTreeOffsetConstructor, IndirectionLevel.toNat] at hlo
    omega

end Constructor

end BlkTreeOffset

/-! ## Indices and coordinates -/

section Coordinates

variable {offset : Nat} {o : BlkTreeOffset}

/-- Below the limit there are coordinates, and they are valid. -/
theorem calculateOffset_valid (h : offset / 1024 < maxBlocks) :
    ∃ o, calculateOffset offset = some o ∧ o.Valid := by
  simp only [maxBlocks] at h
  generalize hq : offset / 1024 = q at h
  by_cases h1 : q < 10
  · refine ⟨_, calculateOffset_direct (by omega), BlkTreeOffset.valid_direct ?_ ?_⟩ <;> omega
  by_cases h2 : q < 138
  · refine ⟨_, calculateOffset_single (by omega) (by omega), BlkTreeOffset.valid_single ?_⟩
    omega
  by_cases h3 : q < 16522
  · refine ⟨_, calculateOffset_double (by omega) (by omega), BlkTreeOffset.valid_double ?_ ?_⟩ <;>
      omega
  · refine ⟨_, calculateOffset_triple (by omega) (by omega), BlkTreeOffset.valid_triple ?_ ?_ ?_⟩ <;>
      omega

/-- The level and the position within it, as `Bmap` computes them. -/
theorem value_of_calculateOffset (h : offset / 1024 < maxBlocks) (ho : calculateOffset offset = some o) :
    o.offsetIndirection.toNat = treeLevel (offset / 1024) ∧
      treeBase o.offsetIndirection.toNat + o.value = offset / 1024 := by
  obtain ⟨o', ho', hlevel, hdirect, hbelow⟩ := calculateOffset_eq h
  obtain rfl : o' = o := by simpa [ho'] using ho
  refine ⟨hlevel, ?_⟩
  rw [hlevel, BlkTreeOffset.value]
  by_cases hl : treeLevel (offset / 1024) = 0
  · have hdir : o'.offsetIndirection = .direct := BlkTreeOffset.toNat_injective (hlevel.trans hl)
    rw [if_pos hdir, hdirect hl, hl, Int.toNat_natCast, treeBase, Nat.zero_add]
  · have hdir : o'.offsetIndirection ≠ .direct := by
      intro hcon
      rw [hcon] at hlevel
      exact hl hlevel.symm
    obtain ⟨hbase, hlt⟩ := treeBase_le h hl
    rw [if_neg hdir, hbelow hl, Radix.value_digits (by decide) hlt]
    omega

/-- The valid coordinates, level by level. -/
theorem BlkTreeOffset.Valid.cases (h : o.Valid) :
    (∃ i : Nat, i < 10 ∧ o = blkTreeOffsetConstructor i (-1) (-1) (-1) .direct) ∨
    (∃ i : Nat, i < 128 ∧ o = blkTreeOffsetConstructor (-1) i (-1) (-1) .singleIndirect) ∨
    (∃ i j : Nat, i < 128 ∧ j < 128 ∧
      o = blkTreeOffsetConstructor (-1) i j (-1) .doubleIndirect) ∨
    ∃ i j k : Nat, i < 128 ∧ j < 128 ∧ k < 128 ∧
      o = blkTreeOffsetConstructor (-1) i j k .tripleIndirect := by
  have heta := o.eta
  obtain ⟨hdirect, hindirect, hused, hunused⟩ := h
  have digit : ∀ i, 1 ≤ i → i ≤ o.offsetIndirection.toNat →
      ∃ m : Nat, m < 128 ∧ o.offsets.peek i = m := by
    intro i hlo hi
    obtain ⟨h0, h1⟩ := hused i hlo hi
    obtain ⟨m, hm⟩ := Int.eq_ofNat_of_zero_le h0
    exact ⟨m, by simp only [blockAddressesPerBlock] at h1; omega, hm⟩
  cases hl : o.offsetIndirection with
  | direct =>
      obtain ⟨h0, h1⟩ := hdirect hl
      obtain ⟨m, hm⟩ := Int.eq_ofNat_of_zero_le h0
      rw [hl] at heta hunused
      rw [hm, hunused 1 (by decide) (by omega), hunused 2 (by decide) (by omega),
        hunused 3 (by decide) (by omega)] at heta
      exact .inl ⟨m, by simp only [directBlockLimit] at h1; omega, heta⟩
  | singleIndirect =>
      rw [hl] at heta hunused digit hindirect
      obtain ⟨i, hi, hi'⟩ := digit 1 (by omega) (by decide)
      rw [hindirect (by decide), hi', hunused 2 (by decide) (by omega),
        hunused 3 (by decide) (by omega)] at heta
      exact .inr (.inl ⟨i, hi, heta⟩)
  | doubleIndirect =>
      rw [hl] at heta hunused digit hindirect
      obtain ⟨i, hi, hi'⟩ := digit 1 (by omega) (by decide)
      obtain ⟨j, hj, hj'⟩ := digit 2 (by omega) (by decide)
      rw [hindirect (by decide), hi', hj', hunused 3 (by decide) (by omega)] at heta
      exact .inr (.inr (.inl ⟨i, j, hi, hj, heta⟩))
  | tripleIndirect =>
      rw [hl] at heta digit hindirect
      obtain ⟨i, hi, hi'⟩ := digit 1 (by omega) (by decide)
      obtain ⟨j, hj, hj'⟩ := digit 2 (by omega) (by decide)
      obtain ⟨k, hk, hk'⟩ := digit 3 (by omega) (by decide)
      rw [hindirect (by decide), hi', hj', hk'] at heta
      exact .inr (.inr (.inr ⟨i, j, k, hi, hj, hk, heta⟩))

/-- Every valid coordinate belongs to an index. -/
theorem exists_offset (ho : o.Valid) :
    ∃ q ≤ tripleIndirectLimit, calculateOffset (q * blockSize) = some o := by
  have hdiv : ∀ q, q * 1024 / 1024 = q := fun q => Nat.mul_div_cancel q (by decide)
  rcases ho.cases with ⟨i, hi, rfl⟩ | ⟨i, hi, rfl⟩ | ⟨i, j, hi, hj, rfl⟩ | ⟨i, j, k, hi, hj, hk, rfl⟩
  · refine ⟨i, by simp; omega, ?_⟩
    rw [blockSize, calculateOffset_direct (by rw [hdiv]; omega), hdiv]
  · refine ⟨10 + i, by simp; omega, ?_⟩
    rw [blockSize, calculateOffset_single (by rw [hdiv]; omega) (by rw [hdiv]; omega), hdiv,
      Nat.add_sub_cancel_left]
  · refine ⟨138 + (i * 128 + j), by simp; omega, ?_⟩
    rw [blockSize, calculateOffset_double (by rw [hdiv]; omega) (by rw [hdiv]; omega), hdiv,
      Nat.add_sub_cancel_left, show (i * 128 + j) / 128 = i by omega,
      show (i * 128 + j) % 128 = j by omega]
  · refine ⟨16522 + (i * 16384 + (j * 128 + k)), by simp; omega, ?_⟩
    rw [blockSize, calculateOffset_triple (by rw [hdiv]; omega) (by rw [hdiv]; omega), hdiv,
      Nat.add_sub_cancel_left, show (i * 16384 + (j * 128 + k)) / 16384 = i by omega,
      show (i * 16384 + (j * 128 + k)) % 16384 / 128 = j by omega,
      show (i * 16384 + (j * 128 + k)) % 128 = k by omega]

/-- The entries of the first coordinate of a level. -/
theorem peek_eq_zero (h : offset / 1024 < maxBlocks) (ho : calculateOffset offset = some o)
    (hvalue : o.value = 0) {i : Nat} (hlo : 1 ≤ i) (hi : i ≤ o.offsetIndirection.toNat) :
    o.offsets.peek i = 0 := by
  obtain ⟨o', ho', hlevel, -, hbelow⟩ := calculateOffset_eq h
  obtain rfl : o' = o := by simpa [ho'] using ho
  obtain ⟨-, hindex⟩ := value_of_calculateOffset h ho
  have hl : treeLevel (offset / 1024) ≠ 0 := by omega
  obtain ⟨hbase, hlt⟩ := treeBase_le h hl
  rw [hvalue, hlevel] at hindex
  have hzero := (Radix.digits_eq_zero (by decide) hlt).mpr (by omega)
  rw [← hbelow hl] at hzero
  have hmem : (o'.offsets.peek i).toNat ∈ o'.below := by
    refine List.mem_map.mpr ⟨i - 1, List.mem_range.mpr (by omega), ?_⟩
    rw [show i - 1 + 1 = i by omega]
  obtain ⟨o'', ho'', hvalid⟩ := calculateOffset_valid h
  obtain rfl : o'' = o' := by simpa [ho''] using ho
  have hnonneg := (hvalid.used i hlo hi).1
  have := hzero _ hmem
  omega

/-- Where the level changes, the next one begins. -/
theorem treeLevel_succ {q : Nat} (h : treeLevel (q + 1) ≠ treeLevel q) :
    treeLevel (q + 1) = treeLevel q + 1 ∧ treeBase (treeLevel (q + 1)) = q + 1 := by
  obtain rfl | rfl | rfl : q = 9 ∨ q = 137 ∨ q = 16521 := by
    rcases treeLevel_bounds q with hb | hb | hb | hb <;>
      rcases treeLevel_bounds (q + 1) with hb' | hb' | hb' | hb' <;> omega
  all_goals exact ⟨rfl, rfl⟩

/-- The next index has the next coordinate. -/
theorem next_of_calculateOffset {o' : BlkTreeOffset} (h : offset / 1024 + 1 < maxBlocks)
    (ho : calculateOffset offset = some o) (ho' : calculateOffset (offset + 1024) = some o') :
    o.Next o' := by
  have hsucc : (offset + 1024) / 1024 = offset / 1024 + 1 := by omega
  have h' : (offset + 1024) / 1024 < maxBlocks := by omega
  obtain ⟨hlevel, hindex⟩ := value_of_calculateOffset (by omega) ho
  obtain ⟨hlevel', hindex'⟩ := value_of_calculateOffset h' ho'
  rw [hsucc] at hlevel' hindex'
  by_cases hsame : treeLevel (offset / 1024 + 1) = treeLevel (offset / 1024)
  · refine .inl ⟨BlkTreeOffset.toNat_injective (by omega), ?_⟩
    rw [hlevel', hsame] at hindex'
    rw [hlevel] at hindex
    omega
  · -- the index crosses from one level to the next
    have hfirst := treeLevel_succ hsame
    rw [hlevel', hfirst.2] at hindex'
    refine .inr ⟨by omega, fun i hlo hi => peek_eq_zero h' ho' (by omega) hlo hi⟩

end Coordinates

/-- **`calculateOffset` is a faithful coordinate system**: below the limit it
gives valid coordinates without wrapping around, from which the index is
recovered; every valid coordinate is reached; and the next index has the next
coordinate. -/
theorem coordinates_faithful (offset : Nat) (h : offset / blockSize ≤ tripleIndirectLimit) :
    ∃ o, Checked.calculateOffset offset = some o ∧ o.Valid ∧
      treeBase o.offsetIndirection.toNat + o.value = offset / blockSize ∧
      (∀ offset', offset' / blockSize ≤ tripleIndirectLimit →
        Checked.calculateOffset offset' = some o → offset' / blockSize = offset / blockSize) ∧
      (∀ o' : BlkTreeOffset, o'.Valid → ∃ offset', offset' / blockSize ≤ tripleIndirectLimit ∧
        Checked.calculateOffset offset' = some o') ∧
      (offset / blockSize + 1 ≤ tripleIndirectLimit →
        ∃ o', Checked.calculateOffset (offset + blockSize) = some o' ∧ o.Next o') := by
  simp only [Checked.calculateOffset_checked]
  simp only [blockSize, tripleIndirectLimit] at h ⊢
  obtain ⟨o, ho, hvalid⟩ := @calculateOffset_valid offset (by simp; omega)
  have hindex := (value_of_calculateOffset (by simp; omega) ho).2
  refine ⟨o, ho, hvalid, hindex, fun offset' h' ho' => ?_, fun o' hvalid' => ?_, fun hnext => ?_⟩
  · rw [← hindex, ← (value_of_calculateOffset (by simp; omega) ho').2]
  · obtain ⟨q, hq, hreached⟩ := exists_offset hvalid'
    refine ⟨q * 1024, ?_, hreached⟩
    rwa [Nat.mul_div_cancel q (by decide)]
  · obtain ⟨o', ho', -⟩ := @calculateOffset_valid (offset + 1024) (by simp; omega)
    exact ⟨o', ho', next_of_calculateOffset (by simp; omega) ho ho'⟩

/-- The last block of a file that can have one. -/
theorem coordinates_faithful_last : ∃ o, Checked.calculateOffset (2113673 * 1024) = some o ∧
    treeBase o.offsetIndirection.toNat + o.value = 2113673 := by
  obtain ⟨o, ho, -, hindex, -⟩ := coordinates_faithful (2113673 * 1024) (by decide)
  exact ⟨o, ho, hindex⟩

end Naofs
