import Mathlib.Data.List.Perm.Basic
import Mathlib.Data.List.Flatten
import Mathlib.Algebra.Order.Ring.Nat

/-!
# Naofs.Radix

Trees of fixed depth and fan-out `B` stored in a memory of pointers, filled
from the left.

The memory is any function `rd`: `rd b i` is the pointer in slot `i` of block
`b`.  A tree of level `L` has at most `B ^ L` leaves; at level 0 the root is
the only leaf.  `leaf` follows the digits of an index, `inner` lists the blocks
of pointers that the first `n` leaves need, parents before children.

* `inner_congr`, `leaf_congr` — the tree depends only on its inner blocks;
* `Grown` — a tree after one leaf was appended, and how a grown subtree makes a
  grown tree (`Grown.node`, `Grown.newRoot`);
* `value_digits`, `digits_value` — digits and indices determine each other;
* `postorder_perm` — children-first traversal meets each leaf and each inner
  block once.
-/

namespace Naofs

namespace Radix

section Tree

variable {α : Type} (B : Nat) (rd : α → Nat → α)

def leaf : (L : Nat) → α → (k : Nat) → α
  | 0, r, _ => r
  | L + 1, r, k => leaf L (rd r (k / B ^ L)) (k % B ^ L)

def inner : (L : Nat) → α → (n : Nat) → List α
  | 0, _, _ => []
  | L + 1, r, n =>
      if n = 0 then []
      else r :: ((List.range (n / B ^ L)).flatMap (fun i => inner L (rd r i) (B ^ L)) ++
        inner L (rd r (n / B ^ L)) (n % B ^ L))

def leaves (L : Nat) (r : α) (n : Nat) : List α := (List.range n).map (leaf B rd L r)

/-- The digits of an index, most significant first. -/
def digits : (L : Nat) → (k : Nat) → List Nat
  | 0, _ => []
  | L + 1, k => k / B ^ L :: digits L (k % B ^ L)

/-- The number of inner blocks that leaf `n` needs and the leaves before it do not. -/
def newInner : (L : Nat) → (n : Nat) → Nat
  | 0, _ => 0
  | L + 1, n => if n = 0 then L + 1 else newInner L (n % B ^ L)

variable {B rd}

@[simp] theorem inner_zero (L : Nat) (r : α) : inner B rd L r 0 = [] := by
  cases L <;> simp [inner]

@[simp] theorem newInner_zero (L : Nat) : newInner B L 0 = L := by
  cases L <;> simp [newInner]

/-- An append makes one inner node on each level at most. -/
theorem newInner_le (L n : Nat) : newInner B L n ≤ L := by
  induction L generalizing n with
  | zero => exact Nat.le_refl _
  | succ L ih =>
      rw [newInner]
      split
      · exact Nat.le_refl _
      · exact Nat.le_succ_of_le (ih _)

theorem length_digits (L k : Nat) : (digits B L k).length = L := by
  induction L generalizing k with
  | zero => rfl
  | succ L ih => simp [digits, ih]

/-- The number with the given digits, most significant first. -/
def value (B : Nat) : List Nat → Nat
  | [] => 0
  | i :: l => i * B ^ l.length + value B l

/-- The digits of an index give it back. -/
theorem value_digits (hB : 0 < B) {L k : Nat} (hk : k < B ^ L) : value B (digits B L k) = k := by
  induction L generalizing k with
  | zero =>
      simp only [pow_zero] at hk
      simp only [digits, value]
      omega
  | succ L ih =>
      simp only [digits, value, length_digits, ih (Nat.mod_lt k (Nat.pow_pos hB))]
      rw [Nat.mul_comm]
      exact Nat.div_add_mod k (B ^ L)

/-- All digits are zero exactly at the first index. -/
theorem digits_eq_zero (hB : 0 < B) {L k : Nat} (hk : k < B ^ L) :
    (∀ i ∈ digits B L k, i = 0) ↔ k = 0 := by
  induction L generalizing k with
  | zero =>
      simp only [pow_zero] at hk
      simp [digits]
      omega
  | succ L ih =>
      have hpos : 0 < B ^ L := Nat.pow_pos hB
      have hdm := Nat.div_add_mod k (B ^ L)
      simp only [digits, List.forall_mem_cons, ih (Nat.mod_lt k hpos)]
      constructor
      · rintro ⟨h1, h2⟩
        rw [h1, h2] at hdm
        simpa using hdm.symm
      · rintro rfl
        simp

/-! ## Only the inner blocks matter -/

/-- The inner nodes: the root, those of the full subtrees, and those of the last one. -/
theorem inner_node {L n : Nat} (hn : n ≠ 0) (r : α) :
    inner B rd (L + 1) r n =
      r :: ((List.range (n / B ^ L)).flatMap (fun i => inner B rd L (rd r i) (B ^ L)) ++
        inner B rd L (rd r (n / B ^ L)) (n % B ^ L)) := by
  simp [inner, hn]

/-- The root of a tree that is not empty is an inner node. -/
theorem mem_inner_root {L n : Nat} (hn : n ≠ 0) (r : α) : r ∈ inner B rd (L + 1) r n := by
  simp [inner_node hn]

/-- Inner nodes of a full subtree. -/
theorem mem_inner_full {L n i : Nat} {r b : α} (hi : i < n / B ^ L)
    (hb : b ∈ inner B rd L (rd r i) (B ^ L)) : b ∈ inner B rd (L + 1) r n := by
  have hn : n ≠ 0 := by
    rintro rfl
    simp at hi
  rw [inner_node hn]
  exact List.mem_cons_of_mem _ (List.mem_append_left _
    (List.mem_flatMap.mpr ⟨i, List.mem_range.mpr hi, hb⟩))

/-- Inner nodes of the subtree that is not full. -/
theorem mem_inner_last {L n : Nat} {r b : α} (hn : n ≠ 0)
    (hb : b ∈ inner B rd L (rd r (n / B ^ L)) (n % B ^ L)) : b ∈ inner B rd (L + 1) r n := by
  rw [inner_node hn]
  exact List.mem_cons_of_mem _ (List.mem_append_right _ hb)

section Congr

variable {rd' : α → Nat → α}

/-- The inner nodes are found from their own contents. -/
theorem inner_congr {L n : Nat} {r : α} (h : ∀ b ∈ inner B rd L r n, rd' b = rd b) :
    inner B rd' L r n = inner B rd L r n := by
  induction L generalizing r n with
  | zero => rfl
  | succ L ih =>
      by_cases hn : n = 0
      · simp [hn]
      · have hroot : rd' r = rd r := h r (mem_inner_root hn r)
        rw [inner_node hn, inner_node hn, hroot]
        congr 2
        · apply List.flatMap_congr
          intro i hi
          exact ih fun b hb => h b (mem_inner_full (List.mem_range.mp hi) hb)
        · exact ih fun b hb => h b (mem_inner_last hn hb)

/-- A leaf is found from the inner nodes above it. -/
theorem leaf_congr (hB : 0 < B) {L n k : Nat} {r : α} (hk : k < n) (hn : n ≤ B ^ L)
    (h : ∀ b ∈ inner B rd L r n, rd' b = rd b) : leaf B rd' L r k = leaf B rd L r k := by
  induction L generalizing r n k with
  | zero => rfl
  | succ L ih =>
      have hpos : 0 < B ^ L := Nat.pow_pos hB
      have hn0 : n ≠ 0 := by omega
      have hroot : rd' r = rd r := h r (mem_inner_root hn0 r)
      rw [leaf, leaf, hroot]
      have hmod : k % B ^ L < B ^ L := Nat.mod_lt _ hpos
      have hle : k / B ^ L ≤ n / B ^ L := Nat.div_le_div_right (by omega)
      rcases Nat.lt_or_eq_of_le hle with hlt | heq
      · exact ih hmod le_rfl fun b hb => h b (mem_inner_full hlt hb)
      · -- the index lies in the last, partly filled subtree
        have hdk := Nat.div_add_mod k (B ^ L)
        have hdn := Nat.div_add_mod n (B ^ L)
        rw [heq] at hdk ⊢
        exact ih (by omega) (Nat.mod_lt _ hpos).le fun b hb => h b (mem_inner_last hn0 hb)

end Congr

/-! ## Appending a leaf -/

/-- The blocks of a tree with one more leaf, seen from the last subtree. -/
theorem inner_succ (hB : 0 < B) (L n : Nat) (r : α) :
    inner B rd (L + 1) r (n + 1) =
      r :: ((List.range (n / B ^ L)).flatMap (fun i => inner B rd L (rd r i) (B ^ L)) ++
        inner B rd L (rd r (n / B ^ L)) (n % B ^ L + 1)) := by
  have hpos : 0 < B ^ L := Nat.pow_pos hB
  have hdm := Nat.div_add_mod n (B ^ L)
  rw [inner_node (by omega)]
  by_cases hfull : n % B ^ L + 1 = B ^ L
  · have hn : n + 1 = B ^ L * (n / B ^ L + 1) := by
      rw [Nat.mul_add, Nat.mul_one]
      omega
    rw [hn, Nat.mul_div_cancel_left _ hpos, Nat.mul_mod_right, hfull, List.range_succ]
    simp
  · have hlt := Nat.mod_lt n hpos
    have hqm : (n + 1) / B ^ L = n / B ^ L ∧ (n + 1) % B ^ L = n % B ^ L + 1 :=
      (Nat.div_mod_unique hpos).mpr ⟨by omega, by omega⟩
    rw [hqm.1, hqm.2]

/-- The inner blocks that leaf `k` needs and the leaves before it do not. -/
def fresh (B : Nat) (rd : α → Nat → α) : (L : Nat) → α → (k : Nat) → List α
  | 0, _, _ => []
  | L + 1, r, k => (if k = 0 then [r] else []) ++ fresh B rd L (rd r (k / B ^ L)) (k % B ^ L)

/-- One leaf more has the inner nodes that were there, and the fresh ones. -/
theorem fresh_perm (hB : 0 < B) (L k : Nat) (r : α) :
    (fresh B rd L r k ++ inner B rd L r k).Perm (inner B rd L r (k + 1)) := by
  induction L generalizing r k with
  | zero => simp [fresh, inner]
  | succ L ih =>
      have h := ih (k % B ^ L) (rd r (k / B ^ L))
      rw [inner_succ hB, fresh]
      by_cases hk : k = 0
      · subst hk
        simpa using h
      · rw [if_neg hk, inner_node hk, List.nil_append]
        refine List.perm_middle.trans (List.Perm.cons r ?_)
        exact (List.perm_append_comm_assoc _ _ _).trans (h.append_left _)

/-- As many inner nodes are fresh as the append makes. -/
theorem length_fresh (L k : Nat) (r : α) : (fresh B rd L r k).length = newInner B L k := by
  induction L generalizing r k with
  | zero => rfl
  | succ L ih =>
      rw [fresh, newInner, List.length_append, ih]
      by_cases hk : k = 0
      · simp [hk, Nat.add_comm]
      · simp [hk]

/-- The fresh nodes are found from the inner nodes alone. -/
theorem fresh_congr (hB : 0 < B) {rd' : α → Nat → α} {L k : Nat} {r : α}
    (h : ∀ b ∈ inner B rd L r (k + 1), rd' b = rd b) : fresh B rd' L r k = fresh B rd L r k := by
  induction L generalizing r k with
  | zero => rfl
  | succ L ih =>
      rw [inner_succ hB] at h
      have hroot : rd' r = rd r := h r List.mem_cons_self
      rw [fresh, fresh, hroot, ih fun b hb => h b
        (List.mem_cons_of_mem _ (List.mem_append_right _ hb))]

/-- `Grown rd rd' L r r' n x new`: the tree at `r'` in `rd'` is the one at `r`
in `rd`, which has `n` leaves, with the leaf `x` appended; `new` are the blocks
that became inner blocks. -/
structure Grown (B : Nat) (rd rd' : α → Nat → α) (L : Nat) (r r' : α) (n : Nat) (x : α)
    (new : List α) : Prop where
  root : n ≠ 0 → r' = r
  inner : (inner B rd' L r' (n + 1)).Perm (new ++ inner B rd L r n)
  old : ∀ k < n, leaf B rd' L r' k = leaf B rd L r k
  last : leaf B rd' L r' n = x

section Grown

variable {rd rd' : α → Nat → α} {L n : Nat} {r x : α} {new : List α}

theorem Grown.leaf (r : α) : Grown B rd rd' 0 r x 0 x [] :=
  ⟨fun h => absurd rfl h, by simp [Radix.inner], by simp, rfl⟩

/-- A tree grows in its last subtree, below a root that stays. -/
theorem Grown.node (hB : 0 < B) {c' : α} (hn : n ≠ 0)
    (hc : Grown B rd rd' L (rd r (n / B ^ L)) c' (n % B ^ L) x new)
    (hslot : rd' r (n / B ^ L) = c') (hother : ∀ i < n / B ^ L, rd' r i = rd r i)
    (hframe : ∀ i < n / B ^ L, ∀ b ∈ Radix.inner B rd L (rd r i) (B ^ L), rd' b = rd b) :
    Grown B rd rd' (L + 1) r r n x new where
  root := fun _ => rfl
  inner := by
    have hfull : (List.range (n / B ^ L)).flatMap (fun i => Radix.inner B rd' L (rd' r i) (B ^ L)) =
        (List.range (n / B ^ L)).flatMap (fun i => Radix.inner B rd L (rd r i) (B ^ L)) := by
      apply List.flatMap_congr
      intro i hi
      rw [hother i (List.mem_range.mp hi)]
      exact inner_congr (hframe i (List.mem_range.mp hi))
    rw [inner_succ hB, inner_node hn, hfull, hslot]
    calc r :: ((List.range (n / B ^ L)).flatMap (fun i => Radix.inner B rd L (rd r i) (B ^ L)) ++
          Radix.inner B rd' L c' (n % B ^ L + 1))
        |>.Perm (r :: ((List.range (n / B ^ L)).flatMap
            (fun i => Radix.inner B rd L (rd r i) (B ^ L)) ++
          (new ++ Radix.inner B rd L (rd r (n / B ^ L)) (n % B ^ L)))) :=
          (hc.inner.append_left _).cons _
      _ |>.Perm (r :: (new ++ ((List.range (n / B ^ L)).flatMap
            (fun i => Radix.inner B rd L (rd r i) (B ^ L)) ++
          Radix.inner B rd L (rd r (n / B ^ L)) (n % B ^ L)))) :=
          (List.perm_append_comm_assoc _ _ _).cons _
      _ |>.Perm _ := List.perm_middle.symm
  old := by
    intro k hk
    have hpos : 0 < B ^ L := Nat.pow_pos hB
    have hle : k / B ^ L ≤ n / B ^ L := Nat.div_le_div_right hk.le
    rw [Radix.leaf, Radix.leaf]
    rcases Nat.lt_or_eq_of_le hle with hlt | heq
    · rw [hother _ hlt]
      exact leaf_congr hB (Nat.mod_lt _ hpos) le_rfl (hframe _ hlt)
    · have hdk := Nat.div_add_mod k (B ^ L)
      have hdn := Nat.div_add_mod n (B ^ L)
      rw [heq] at hdk ⊢
      rw [hslot]
      exact hc.old _ (by omega)
  last := by rw [Radix.leaf, hslot, hc.last]

/-- The first leaf comes with a root of its own, whatever the memory was before. -/
theorem Grown.newRoot {rd₁ : α → Nat → α} {c' r' s : α} (hc : Grown B rd₁ rd' L s c' 0 x new)
    (hslot : rd' r' 0 = c') :
    Grown B rd rd' (L + 1) r r' 0 x (r' :: new) where
  root := fun h => absurd rfl h
  inner := by
    have h := hc.inner
    simp only [inner_zero, List.append_nil, Nat.zero_add] at h
    rw [inner_zero, List.append_nil, Nat.zero_add, inner_node Nat.one_ne_zero]
    cases L with
    | zero =>
        have : new = [] := (List.nil_perm.mp h)
        simp [this, Radix.inner]
    | succ L =>
        by_cases hone : B ^ (L + 1) = 1
        · simp [hone, hslot, h]
        · have hdiv : 1 / B ^ (L + 1) = 0 := by
            by_cases h0 : B ^ (L + 1) = 0
            · simp [h0]
            · exact Nat.div_eq_of_lt (by omega)
          have hmod : 1 % B ^ (L + 1) = 1 := by
            have := Nat.div_add_mod 1 (B ^ (L + 1))
            rw [hdiv] at this
            omega
          simp [hdiv, hmod, hslot, h]
  old := by simp
  last := by simp [Radix.leaf, hslot, hc.last]

end Grown

/-! ## Children-first traversal -/

/-- A walk over the slots of a root that visits the first `n` of its leaves,
`C` below each slot. -/
theorem flatMap_fill (f : Nat → Nat → List α) (hf : ∀ i, f i 0 = []) {C n : Nat} (hC : 0 < C)
    (hn : n ≤ B * C) :
    (List.range B).flatMap (fun i => f i (min (n - i * C) C)) =
      (List.range (n / C)).flatMap (fun i => f i C) ++ f (n / C) (n % C) := by
  have hdm := Nat.div_add_mod n C
  have hlt := Nat.mod_lt n hC
  have hq : n / C ≤ B := Nat.div_le_of_le_mul (by rwa [Nat.mul_comm])
  -- the slots before the last one are full
  have hfull : (List.range (n / C)).flatMap (fun i => f i (min (n - i * C) C)) =
      (List.range (n / C)).flatMap (fun i => f i C) := by
    apply List.flatMap_congr
    intro i hi
    have hmul : C * (i + 1) ≤ C * (n / C) := Nat.mul_le_mul_left C (List.mem_range.mp hi)
    rw [Nat.mul_add, Nat.mul_one, Nat.mul_comm C i] at hmul
    rw [Nat.min_eq_right (by omega)]
  by_cases hB : n / C = B
  · have hm : n % C = 0 := by
      rw [hB, Nat.mul_comm] at hdm
      omega
    rw [← hB, hfull, hm, hf, List.append_nil]
  · obtain ⟨j, rfl⟩ : ∃ j, B = n / C + 1 + j := ⟨B - (n / C + 1), by omega⟩
    have hrest : ∀ i ∈ List.range' (n / C + 1) j, f i (min (n - i * C) C) = [] := by
      intro i hi
      have hi' := (List.mem_range'_1.mp hi).1
      have hmul : C * (n / C + 1) ≤ C * i := Nat.mul_le_mul_left C hi'
      rw [Nat.mul_add, Nat.mul_one, Nat.mul_comm C i] at hmul
      rw [show n - i * C = 0 by omega, Nat.zero_min, hf]
    have hlast : min (n - n / C * C) C = n % C := by
      rw [Nat.mul_comm]
      omega
    rw [List.range_eq_range', ← List.range'_append_1, Nat.zero_add, List.flatMap_append,
      List.flatMap_eq_nil_iff.mpr hrest, List.append_nil,
      ← List.range_eq_range', List.range_succ, List.flatMap_append, hfull]
    simp [hlast]

variable (B rd) in
/-- The first `n` leaves and the blocks they need, children before parents. -/
def postorder : (L : Nat) → α → (n : Nat) → List α
  | 0, r, n => if n = 0 then [] else [r]
  | L + 1, r, n =>
      if n = 0 then []
      else (List.range B).flatMap
        (fun i => postorder L (rd r i) (min (n - i * B ^ L) (B ^ L))) ++ [r]

@[simp] theorem postorder_zero (L : Nat) (r : α) : postorder B rd L r 0 = [] := by
  cases L <;> simp [postorder]

/-- The leaves: those of the full subtrees, and those of the last one. -/
theorem leaves_node (hB : 0 < B) (L n : Nat) (r : α) :
    leaves B rd (L + 1) r n =
      (List.range (n / B ^ L)).flatMap (fun i => leaves B rd L (rd r i) (B ^ L)) ++
        leaves B rd L (rd r (n / B ^ L)) (n % B ^ L) := by
  have hpos : 0 < B ^ L := Nat.pow_pos hB
  -- the leaves below one slot
  have hslot : ∀ q m, m ≤ B ^ L → (List.range' (B ^ L * q) m).map (leaf B rd (L + 1) r) =
      leaves B rd L (rd r q) m := by
    intro q m hm
    rw [leaves, List.range'_eq_map_range, List.map_map]
    apply List.map_congr_left
    intro k hk
    have hk' : k < B ^ L := by have := List.mem_range.mp hk; omega
    simp only [Function.comp, leaf]
    rw [Nat.mul_add_div hpos, Nat.div_eq_of_lt hk', Nat.mul_add_mod, Nat.mod_eq_of_lt hk',
      Nat.add_zero]
  have hfull : ∀ q, (List.range (B ^ L * q)).map (leaf B rd (L + 1) r) =
      (List.range q).flatMap (fun i => leaves B rd L (rd r i) (B ^ L)) := by
    intro q
    induction q with
    | zero => simp
    | succ q ih =>
        rw [Nat.mul_add, Nat.mul_one, List.range_eq_range', ← List.range'_append_1, Nat.zero_add,
          List.map_append, ← List.range_eq_range', ih, hslot q _ le_rfl, List.range_succ]
        simp
  conv_lhs => rw [leaves, ← Nat.div_add_mod n (B ^ L)]
  rw [List.range_eq_range', ← List.range'_append_1, Nat.zero_add, List.map_append,
    ← List.range_eq_range', hfull, hslot _ _ (Nat.mod_lt _ hpos).le]

/-- Each subtree comes before its root. -/
theorem postorder_node (hB : 0 < B) {L n : Nat} (hn : n ≤ B ^ (L + 1)) (hn0 : n ≠ 0) (r : α) :
    postorder B rd (L + 1) r n =
      (List.range (n / B ^ L)).flatMap (fun i => postorder B rd L (rd r i) (B ^ L)) ++
        postorder B rd L (rd r (n / B ^ L)) (n % B ^ L) ++ [r] := by
  rw [postorder, if_neg hn0, flatMap_fill _ (fun _ => postorder_zero _ _) (Nat.pow_pos hB)
    (by rwa [← Nat.pow_succ'])]

/-- The order is found from the inner nodes alone. -/
theorem postorder_congr (hB : 0 < B) {rd' : α → Nat → α} {L n : Nat} {r : α} (hn : n ≤ B ^ L)
    (h : ∀ b ∈ inner B rd L r n, rd' b = rd b) :
    postorder B rd' L r n = postorder B rd L r n := by
  induction L generalizing r n with
  | zero => rfl
  | succ L ih =>
      by_cases hn0 : n = 0
      · simp [hn0]
      · have hroot : rd' r = rd r := h r (mem_inner_root hn0 r)
        rw [postorder_node hB hn hn0, postorder_node hB hn hn0, hroot]
        congr 2
        · apply List.flatMap_congr
          intro i hi
          exact ih le_rfl fun b hb => h b (mem_inner_full (List.mem_range.mp hi) hb)
        · exact ih (Nat.mod_lt _ (Nat.pow_pos hB)).le fun b hb => h b (mem_inner_last hn0 hb)

/-- The traversal meets every leaf and every inner block, each once. -/
theorem postorder_perm (hB : 0 < B) {L n : Nat} {r : α} (hn : n ≤ B ^ L) :
    (postorder B rd L r n).Perm (leaves B rd L r n ++ inner B rd L r n) := by
  induction L generalizing r n with
  | zero =>
      simp only [pow_zero] at hn
      obtain rfl | rfl : n = 0 ∨ n = 1 := by omega
      · simp [postorder, leaves]
      · simp [postorder, leaves, leaf, inner]
  | succ L ih =>
      have hpos : 0 < B ^ L := Nat.pow_pos hB
      by_cases hn0 : n = 0
      · subst hn0
        simp [leaves]
      · have hsub : ((List.range (n / B ^ L)).flatMap
              (fun i => postorder B rd L (rd r i) (B ^ L))).Perm
            ((List.range (n / B ^ L)).flatMap (fun i => leaves B rd L (rd r i) (B ^ L)) ++
              (List.range (n / B ^ L)).flatMap (fun i => inner B rd L (rd r i) (B ^ L))) :=
          (List.Perm.flatMap_left _ fun i _ => ih le_rfl).trans
            (List.flatMap_append_perm _ _ _).symm
        have hlast := ih (r := rd r (n / B ^ L)) (Nat.mod_lt n hpos).le
        rw [postorder_node hB hn hn0, leaves_node hB, inner_node hn0]
        generalize (List.range (n / B ^ L)).flatMap (fun i => leaves B rd L (rd r i) (B ^ L)) = l₁
          at *
        generalize (List.range (n / B ^ L)).flatMap (fun i => inner B rd L (rd r i) (B ^ L)) = l₂
          at *
        generalize leaves B rd L (rd r (n / B ^ L)) (n % B ^ L) = l₃ at *
        generalize inner B rd L (rd r (n / B ^ L)) (n % B ^ L) = l₄ at *
        refine ((hsub.append hlast).append_right [r]).trans ?_
        classical
        rw [List.perm_iff_count]
        intro a
        simp only [List.count_append, List.count_cons, List.count_nil]
        omega

end Tree

end Radix

end Naofs
