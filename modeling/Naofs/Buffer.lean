import Mathlib.Tactic.Ring
import Mathlib.Tactic.Linarith

/-!
# Naofs.Buffer

Fixed-length memory buffers and the little-endian numbers stored in them.

A `Buffer α n` is `n` cells.  Cells are read by `peek` and written by `poke`;
`copyIn` is `memcpy` into the buffer.  Over bytes, `readNat` and `writeNat`
read and write an unsigned number of `k` bytes, least significant byte first,
and `writeNumbers` / `readNumbers` do so for a whole array of numbers laid out
back to back.

Nothing here depends on the file system: the module is the byte layer that the
block codecs instantiate.
-/

namespace Naofs

/-- `n` cells of memory. -/
structure Buffer (α : Type) (n : Nat) where
  cells : Vector α n
deriving DecidableEq, Repr

namespace Buffer

section Cells

variable {α : Type} [Inhabited α] {n : Nat}

/-- Read cell `i`; past the end there is only the default value. -/
def peek (b : Buffer α n) (i : Nat) : α := b.cells[i]?.getD default

/-- Write cell `i`; a write past the end has no effect. -/
def poke (b : Buffer α n) (i : Nat) (v : α) : Buffer α n := ⟨b.cells.setIfInBounds i v⟩

/-- The buffer whose cell `i` is `f i`. -/
def tabulate (f : Nat → α) : Buffer α n := ⟨Vector.ofFn fun i => f i⟩

/-- `memcpy`: cells `off, …, off + len - 1` take the values of `src`. -/
def copyIn (b : Buffer α n) (off len : Nat) (src : Nat → α) : Buffer α n :=
  tabulate fun i => if off ≤ i ∧ i < off + len then src (i - off) else b.peek i

/-- A buffer is known by what is in it. -/
theorem ext_peek {a b : Buffer α n} (h : ∀ i < n, a.peek i = b.peek i) : a = b := by
  obtain ⟨a⟩ := a
  obtain ⟨b⟩ := b
  congr 1
  apply Vector.ext
  intro i hi
  have := h i hi
  simpa [peek, hi] using this

@[simp] theorem peek_tabulate (f : Nat → α) (i : Nat) :
    (tabulate f : Buffer α n).peek i = if i < n then f i else default := by
  by_cases hi : i < n
  · simp [peek, tabulate, hi]
  · simp [peek, tabulate, hi]

/-- Behind the end a default is read. -/
theorem peek_of_le (b : Buffer α n) {i : Nat} (h : n ≤ i) : b.peek i = default := by
  simp [peek, Nat.not_lt.mpr h]

/-- What is read after one element has been written. -/
theorem peek_poke (b : Buffer α n) (i : Nat) (v : α) (j : Nat) :
    (b.poke i v).peek j = if j = i ∧ i < n then v else b.peek j := by
  simp only [peek, poke, Vector.getElem?_setIfInBounds]
  by_cases hj : i = j
  · subst hj
    by_cases hi : i < n
    · simp [hi]
    · simp [hi]
  · simp [hj, Ne.symm hj]

@[simp] theorem peek_poke_self (b : Buffer α n) {i : Nat} (h : i < n) (v : α) :
    (b.poke i v).peek i = v := by simp [peek_poke, h]

/-- Other elements are as they were. -/
theorem peek_poke_of_ne (b : Buffer α n) {i j : Nat} (h : j ≠ i) (v : α) :
    (b.poke i v).peek j = b.peek j := by simp [peek_poke, h]

/-- What is read after a range has been copied to the buffer. -/
theorem peek_copyIn (b : Buffer α n) (off len : Nat) (src : Nat → α) (i : Nat) :
    (b.copyIn off len src).peek i =
      if off ≤ i ∧ i < off + len ∧ i < n then src (i - off) else b.peek i := by
  by_cases hi : i < n
  · simp [copyIn, hi]
  · simp [copyIn, hi, peek_of_le b (Nat.le_of_not_lt hi)]

end Cells

/-! ## Little-endian numbers -/

section Numbers

variable {n : Nat}

/-- Byte `j` of the little-endian form of `v`. -/
def leByte (v j : Nat) : UInt8 := UInt8.ofNat (v / 256 ^ j)

/-- The number stored in the `k` bytes at `off`. -/
def readNat (b : Buffer UInt8 n) : (off k : Nat) → Nat
  | _, 0 => 0
  | off, k + 1 => (b.peek off).toNat + 256 * readNat b (off + 1) k

/-- Store the low `k` bytes of `v` at `off`. -/
def writeNat (b : Buffer UInt8 n) (off k v : Nat) : Buffer UInt8 n := b.copyIn off k (leByte v)

/-- `k` bytes hold numbers below `256 ^ k`. -/
theorem readNat_lt (b : Buffer UInt8 n) (off k : Nat) : b.readNat off k < 256 ^ k := by
  induction k generalizing off with
  | zero => simp [readNat]
  | succ k ih =>
      have hb := (b.peek off).toNat_lt
      have hr := ih (off + 1)
      rw [readNat, Nat.pow_succ]
      omega

/-- Same bytes, same number. -/
theorem readNat_congr {a b : Buffer UInt8 n} {off off' k : Nat}
    (h : ∀ j < k, a.peek (off + j) = b.peek (off' + j)) :
    a.readNat off k = b.readNat off' k := by
  induction k generalizing off off' with
  | zero => rfl
  | succ k ih =>
      have h0 := h 0 (by omega)
      have hs : a.readNat (off + 1) k = b.readNat (off' + 1) k := by
        apply ih
        intro j hj
        have := h (j + 1) (by omega)
        rwa [show off + (j + 1) = off + 1 + j by omega,
          show off' + (j + 1) = off' + 1 + j by omega] at this
      have hb : a.peek off = b.peek off' := by simpa using h0
      simp only [readNat, hs, hb]

/-- Bytes that spell out `v` read back as `v`, up to the bytes that fit. -/
theorem readNat_eq_of_leByte {b : Buffer UInt8 n} {off k v : Nat}
    (h : ∀ j < k, b.peek (off + j) = leByte v j) : b.readNat off k = v % 256 ^ k := by
  induction k generalizing off v with
  | zero => simp [readNat, Nat.mod_one]
  | succ k ih =>
      have h0 : b.peek off = leByte v 0 := by simpa using h 0 (by omega)
      have hs : b.readNat (off + 1) k = v / 256 % 256 ^ k := by
        apply ih
        intro j hj
        have := h (j + 1) (by omega)
        rw [show off + 1 + j = off + (j + 1) by omega, this]
        simp only [leByte, Nat.pow_succ', Nat.div_div_eq_div_mul]
      have hb : (b.peek off).toNat = v % 256 := by
        rw [h0]
        simp [leByte, UInt8.toNat_ofNat']
      rw [readNat, hs, hb, Nat.pow_succ', Nat.mod_mul]

/-- The stored number is read back, up to the bytes that fit. -/
theorem readNat_writeNat (b : Buffer UInt8 n) {off k : Nat} (v : Nat) (h : off + k ≤ n) :
    (b.writeNat off k v).readNat off k = v % 256 ^ k := by
  apply readNat_eq_of_leByte
  intro j hj
  have : off ≤ off + j ∧ off + j < off + k ∧ off + j < n := by omega
  simp [writeNat, peek_copyIn, this]

/-- A number beside the copied range is as it was. -/
theorem readNat_copyIn_of_disjoint (b : Buffer UInt8 n) {off len off' k : Nat}
    (src : Nat → UInt8) (h : off' + k ≤ off ∨ off + len ≤ off') :
    (b.copyIn off len src).readNat off' k = b.readNat off' k := by
  apply readNat_congr
  intro j hj
  have : ¬ (off ≤ off' + j ∧ off' + j < off + len ∧ off' + j < n) := by omega
  simp [peek_copyIn, this]

/-- A number beside the written one is as it was. -/
theorem readNat_writeNat_of_disjoint (b : Buffer UInt8 n) {off k off' k' : Nat} (v : Nat)
    (h : off' + k' ≤ off ∨ off + k ≤ off') :
    (b.writeNat off k v).readNat off' k' = b.readNat off' k' :=
  readNat_copyIn_of_disjoint b _ h

/-- The bytes of a number are the bytes it was read from. -/
theorem leByte_readNat (b : Buffer UInt8 n) {off k j : Nat} (h : j < k) :
    leByte (b.readNat off k) j = b.peek (off + j) := by
  induction k generalizing off j with
  | zero => omega
  | succ k ih =>
      have hb := (b.peek off).toNat_lt
      cases j with
      | zero =>
          simp only [leByte, readNat, Nat.pow_zero, Nat.div_one, Nat.add_zero]
          apply UInt8.toNat_inj.mp
          simp only [UInt8.toNat_ofNat']
          omega
      | succ j =>
          have hd : b.readNat off (k + 1) / 256 = b.readNat (off + 1) k := by
            rw [readNat]
            omega
          have := @ih (off + 1) j (by omega)
          rw [leByte, Nat.pow_succ', ← Nat.div_div_eq_div_mul, hd, ← leByte, this]
          congr 1
          omega

/-! ## Arrays of numbers -/

/-- The `count` numbers of `w` bytes laid out from `off` on. -/
def readNumbers (b : Buffer UInt8 n) (off w count : Nat) : Buffer Nat count :=
  tabulate fun i => b.readNat (off + w * i) w

/-- Lay the numbers of `t` out from `off` on, `w` bytes each. -/
def writeNumbers (b : Buffer UInt8 n) (off w : Nat) {count : Nat} (t : Buffer Nat count) :
    Buffer UInt8 n :=
  (List.range count).foldl (fun b i => b.writeNat (off + w * i) w (t.peek i)) b

/-- The numbers of a table are read one after the other. -/
theorem peek_readNumbers (b : Buffer UInt8 n) (off w : Nat) {count i : Nat} (h : i < count) :
    (b.readNumbers off w count).peek i = b.readNat (off + w * i) w := by
  simp [readNumbers, h]

/-- The loop of `writeNumbers`, after `m` numbers: the `w * m` bytes from `off`
on are those of the numbers, the rest is untouched. -/
theorem peek_foldl_writeNat (b : Buffer UInt8 n) (off : Nat) {w : Nat} (hw : 0 < w)
    (t : Nat → Nat) (m j : Nat) (hj : j < n) :
    ((List.range m).foldl (fun b i => b.writeNat (off + w * i) w (t i)) b).peek j =
      if off ≤ j ∧ j < off + w * m then leByte (t ((j - off) / w)) ((j - off) % w)
      else b.peek j := by
  induction m with
  | zero =>
      rw [if_neg (by omega)]
      rfl
  | succ m ih =>
      rw [List.range_succ, List.foldl_append]
      simp only [List.foldl_cons, List.foldl_nil]
      rw [writeNat, peek_copyIn, ih]
      have hmul : w * (m + 1) = w * m + w := by ring
      by_cases h2 : off + w * m ≤ j ∧ j < off + w * m + w ∧ j < n
      · have hd : (j - off) / w = m := by
          apply Nat.div_eq_of_lt_le
          · rw [Nat.mul_comm]; omega
          · rw [Nat.add_mul, Nat.one_mul, Nat.mul_comm m w]; omega
        have hr : j - (off + w * m) = (j - off) % w := by
          have := Nat.div_add_mod (j - off) w
          rw [hd] at this
          omega
        rw [if_pos h2, if_pos (by omega), hd, hr]
      · rw [if_neg h2]
        by_cases h1 : off ≤ j ∧ j < off + w * m
        · rw [if_pos h1, if_pos (by omega)]
        · rw [if_neg h1, if_neg (by omega)]

/-- What is read after a table of numbers has been written. -/
theorem peek_writeNumbers (b : Buffer UInt8 n) (off : Nat) {w : Nat} (hw : 0 < w) {count : Nat}
    (t : Buffer Nat count) {j : Nat} (hj : j < n) :
    (b.writeNumbers off w t).peek j =
      if off ≤ j ∧ j < off + w * count then leByte (t.peek ((j - off) / w)) ((j - off) % w)
      else b.peek j :=
  peek_foldl_writeNat b off hw t.peek count j hj

/-- Each number is read back, up to the bytes that fit. -/
theorem readNat_writeNumbers (b : Buffer UInt8 n) {off w : Nat} (hw : 0 < w) {count : Nat}
    (t : Buffer Nat count) {i : Nat} (hi : i < count) (hn : off + w * count ≤ n) :
    (b.writeNumbers off w t).readNat (off + w * i) w = t.peek i % 256 ^ w := by
  have hmul : w * i + w ≤ w * count := by
    calc w * i + w = w * (i + 1) := by ring
      _ ≤ w * count := Nat.mul_le_mul_left w hi
  apply readNat_eq_of_leByte
  intro j hj
  rw [peek_writeNumbers b off hw t (by omega), if_pos (by omega),
    show off + w * i + j - off = w * i + j by omega]
  rw [Nat.mul_add_div hw, Nat.div_eq_of_lt hj, Nat.mul_add_mod, Nat.mod_eq_of_lt hj,
    Nat.add_zero]

/-- A number beside the table is as it was. -/
theorem readNat_writeNumbers_of_disjoint (b : Buffer UInt8 n) {off w : Nat} (hw : 0 < w)
    {count : Nat} (t : Buffer Nat count) {off' k : Nat} (hn : off' + k ≤ n)
    (h : off' + k ≤ off ∨ off + w * count ≤ off') :
    (b.writeNumbers off w t).readNat off' k = b.readNat off' k := by
  apply readNat_congr
  intro j hj
  rw [peek_writeNumbers b off hw t (by omega), if_neg (by omega)]

/-- **Round trip**: an array of numbers that fit their width is read back. -/
theorem readNumbers_writeNumbers (b : Buffer UInt8 n) {off w : Nat} (hw : 0 < w) {count : Nat}
    (t : Buffer Nat count) (ht : ∀ i < count, t.peek i < 256 ^ w) (hn : off + w * count ≤ n) :
    (b.writeNumbers off w t).readNumbers off w count = t := by
  apply ext_peek
  intro i hi
  rw [peek_readNumbers _ _ _ hi, readNat_writeNumbers b hw t hi hn, Nat.mod_eq_of_lt (ht i hi)]

/-- **Round trip**: writing back what was read restores the buffer it fills. -/
theorem writeNumbers_readNumbers (a b : Buffer UInt8 n) {w : Nat} (hw : 0 < w) {count : Nat}
    (hn : w * count = n) : a.writeNumbers 0 w (b.readNumbers 0 w count) = b := by
  apply ext_peek
  intro j hj
  have hlt : j / w < count := by
    rw [Nat.div_lt_iff_lt_mul hw, Nat.mul_comm]
    omega
  rw [peek_writeNumbers a 0 hw _ hj, if_pos (by omega), Nat.sub_zero, peek_readNumbers _ _ _ hlt,
    leByte_readNat b (Nat.mod_lt j hw), Nat.zero_add, Nat.div_add_mod]

end Numbers

end Buffer

end Naofs
