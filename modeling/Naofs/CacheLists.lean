import Naofs.Cache
import Mathlib.Data.Fintype.Card

/-!
# Naofs.CacheLists

What the operations on the two linked structures do to the lists they
represent.

`FreeNodes c l` says that the free list is the circular list `l`, and
`Queues c q` that the hash queues are the null-terminated lists `q`.  Every
operation is one change of these lists; it changes no other field of the cache.
-/

namespace Naofs

namespace Cache

open Function (update update_self update_of_ne)
open Links

/-! ## The free list -/

section FreeList

variable {c : Cache} {l l₁ l₂ : List NodeId} {x : NodeId}

/-- The nodes on the free list, in order. -/
def FreeNodes (c : Cache) (l : List NodeId) : Prop := Ring c.next c.prev c.freeList l

theorem popFreeList_nil (h : c.FreeNodes []) : c.popFreeList = .ok (none, c) := by
  simp [popFreeList, show c.freeList = none from h.head]

/-- The first node is taken. -/
theorem popFreeList_cons (h : c.FreeNodes (x :: l)) :
    ∃ next prev head, c.popFreeList =
        .ok (some x, { c with next := next, prev := prev, freeList := head }) ∧
      Ring next prev head l := by
  have hhead : c.freeList = some x := h.head
  cases l with
  | nil =>
      have hnx : c.next x = some x := (h.cycle x [] rfl).1 x rfl
      refine ⟨c.next, c.prev, none, ?_, .nil⟩
      simp only [popFreeList, hhead, hnx, if_true]
  | cons y l =>
      have hring : Ring c.next c.prev c.freeList ([] ++ x :: y :: l) := h
      obtain ⟨after, before, hnx, hpx, hax, hbx, hring'⟩ := hring.unlink (by simp)
      rw [hhead, if_pos rfl] at hring'
      refine ⟨_, _, _, ?_, hring'⟩
      simp only [popFreeList, hhead, hnx, hpx, Option.some.injEq, hax, if_false,
        update_of_ne hbx.symm]

/-- The node is put at the end of the ring. -/
theorem freeListInsert_spec (h : c.FreeNodes l) (hx : x ∉ l) :
    ∃ next prev head, c.freeListInsert x =
        .ok { c with next := next, prev := prev, freeList := head } ∧
      Ring next prev head (l ++ [x]) := by
  cases l with
  | nil =>
      have hhead : c.freeList = none := h.head
      refine ⟨update c.next x (some x), update c.prev x (some x), some x, ?_, ?_⟩
      · simp only [freeListInsert, hhead]
      · exact .singleton (update_self ..) (update_self ..)
  | cons a t =>
      have hhead : c.freeList = some a := h.head
      obtain ⟨z, hz⟩ := exists_lastOf a t
      have hpa : c.prev a = some z := h.prev_head.trans hz
      have hzm : z ∈ a :: t := by simpa using lastOf_mem hz
      have hne : ∀ y ∈ a :: t, y ≠ x := by
        rintro y hy rfl
        exact hx hy
      refine ⟨update (update c.next x (some a)) z (some x),
        update (update c.prev x (some z)) a (some x), c.freeList, ?_, ?_⟩
      · simp only [freeListInsert, hhead, hpa, update_of_ne (hne a (by simp))]
      · refine Ring.snoc h hx ?_ ?_ ?_ (update_self ..) ?_ ?_
        · rw [update_of_ne (hne z hzm).symm, update_self]
        · rw [update_of_ne (hne a (by simp)).symm, update_self, hpa]
        · intro e he
          obtain rfl : z = e := by simpa [hpa] using he
          exact update_self ..
        · intro y hy hyz
          rw [update_of_ne, update_of_ne (hne y hy)]
          rintro rfl
          exact hyz hpa
        · intro y hy
          rw [update_of_ne, update_of_ne (hne y (by simp [hy]))]
          rintro rfl
          exact (List.nodup_cons.mp h.nodup).1 hy

/-- The search loop finds a node that is on the list. -/
theorem onFreeList_spec (h : c.FreeNodes (l₁ ++ x :: l₂)) :
    ∀ (m₂ m₁ : List NodeId) (fuel : Nat), l₁ = m₁ ++ m₂ → m₂.length < fuel →
      c.onFreeList x fuel (m₂ ++ x :: l₂).head? = .ok true := by
  have hnodup := h.nodup
  intro m₂
  induction m₂ with
  | nil =>
      intro m₁ fuel _ hfuel
      obtain ⟨fuel, rfl⟩ := Nat.exists_eq_succ_of_ne_zero (Nat.ne_of_gt hfuel)
      simp [onFreeList]
  | cons y m₂ ih =>
      intro m₁ fuel hl hfuel
      obtain ⟨fuel, rfl⟩ := Nat.exists_eq_succ_of_ne_zero (Nat.ne_of_gt (Nat.lt_of_le_of_lt
        (Nat.zero_le _) hfuel))
      obtain ⟨z, t, hzt⟩ : ∃ z t, m₂ ++ x :: l₂ = z :: t := by cases m₂ <;> simp
      have hall : l₁ ++ x :: l₂ = m₁ ++ y :: z :: t := by
        rw [hl, List.append_assoc, List.cons_append, hzt]
      have hnext : c.next y = some z := by
        rw [FreeNodes, hall] at h
        exact h.next_mem
      have hxy : x ≠ y := by
        rintro rfl
        rw [hl] at hnodup
        simp [List.nodup_append, List.nodup_cons] at hnodup
      have hzhead : some z ≠ c.freeList := by
        rw [h.head, hall]
        rw [hall] at hnodup
        cases m₁ with
        | nil =>
            rintro ⟨⟩
            simp at hnodup
        | cons a m₁ =>
            rintro ⟨⟩
            simp at hnodup
      have := ih (m₁ ++ [y]) fuel (by simp [hl]) (by simpa using hfuel)
      rw [hzt, List.head?_cons] at this
      simp only [List.cons_append, List.head?_cons, onFreeList, if_neg hxy, hnext, if_neg hzhead,
        this]

/-- A node that is on the list is taken out. -/
theorem freeListRemove_spec (h : c.FreeNodes (l₁ ++ x :: l₂)) :
    ∃ next prev head, c.freeListRemove x =
        .ok { c with next := next, prev := prev, freeList := head } ∧
      Ring next prev head (l₁ ++ l₂) := by
  have hhead : c.freeList = (l₁ ++ x :: l₂).head? := h.head
  by_cases hsingle : l₁ ++ l₂ = []
  · obtain ⟨rfl, rfl⟩ := List.append_eq_nil_iff.mp hsingle
    have hnx : c.next x = some x := (h.cycle x [] rfl).1 x rfl
    refine ⟨update c.next x none, update c.prev x none, none, ?_, .nil⟩
    simp only [List.nil_append, List.head?_cons] at hhead
    simp only [freeListRemove, hhead, hnx, and_self, if_true]
  · obtain ⟨after, before, hnx, hpx, hax, hbx, hring⟩ := Ring.unlink h hsingle
    have hlen : l₁.length < inodeBufferSize + 1 := by
      have := List.Nodup.length_le_card h.nodup
      simp only [List.length_append, List.length_cons, Fintype.card_fin] at this
      omega
    have hfound := onFreeList_spec h l₁ [] _ rfl hlen
    rw [← hhead] at hfound
    refine ⟨_, _, _, ?_, hring⟩
    have hcond : ¬ (c.freeList = some x ∧ c.next x = c.freeList) := by
      rintro ⟨h1, h2⟩
      rw [hnx, h1] at h2
      exact hax (by simpa using h2)
    simp only [freeListRemove, if_neg hcond, hfound, bind, Except.bind, if_true]
    by_cases hfirst : c.freeList = some x
    · simp only [if_pos hfirst, hnx, hpx, update_of_ne hax.symm]
    · simp only [if_neg hfirst, hnx, hpx, update_of_ne hax.symm]

end FreeList

/-! ## The hash queues -/

section Queues

variable {c : Cache} {q : Fin inodeHashSize → List NodeId} {x : NodeId}

/-- The hash queues; a node outside of them has null links. -/
structure Queues (c : Cache) (q : Fin inodeHashSize → List NodeId) : Prop where
  chain : ∀ h, Chain c.hashNext c.hashPrev (c.hashQ h) (q h)
  apart : ∀ {h h' x}, x ∈ q h → x ∈ q h' → h = h'
  loose : ∀ {x}, (∀ h, x ∉ q h) → c.hashNext x = none ∧ c.hashPrev x = none

/-- The search loop from a node of a queue on. -/
theorem hashLookupFrom_spec (c : Cache) (n : Nat) {p : Option NodeId} {l : List NodeId}
    (h : Seg c.hashNext c.hashPrev p l none) {fuel : Nat} (hfuel : l.length < fuel) :
    c.hashLookupFrom n fuel l.head? =
      .ok (l.find? fun x => (c.inode x).iNodeNumber = n) := by
  induction l generalizing p fuel with
  | nil =>
      obtain ⟨fuel, rfl⟩ := Nat.exists_eq_succ_of_ne_zero (Nat.ne_of_gt hfuel)
      rfl
  | cons a l ih =>
      obtain ⟨fuel, rfl⟩ := Nat.exists_eq_succ_of_ne_zero (Nat.ne_of_gt (Nat.lt_of_le_of_lt
        (Nat.zero_le _) hfuel))
      have hnext : c.hashNext a = l.head? := by simpa using h.2.next_first rfl
      by_cases hn : (c.inode a).iNodeNumber = n
      · simp [hashLookupFrom, hn]
      · have := ih h.2 (Nat.lt_of_succ_lt_succ hfuel)
        simp [hashLookupFrom, hn, hnext, this]

/-- The lookup finds the first node with the number in its queue. -/
theorem hashLookup_spec (h : c.Queues q) (n device : Nat) :
    c.hashLookup n device =
      .ok ((q (c.getHash n device)).find? fun x => (c.inode x).iNodeNumber = n) := by
  have hchain := h.chain (c.getHash n device)
  have hlen : (q (c.getHash n device)).length < inodeBufferSize + 1 := by
    have := List.Nodup.length_le_card hchain.nodup
    simp only [Fintype.card_fin] at this
    omega
  rw [hashLookup, hchain.head]
  exact hashLookupFrom_spec c n hchain.seg hlen

/-- The assignments of `removeFromHashQ`, for a node that is not its own
neighbour. -/
theorem removeFromHashQ_eq (hn : c.hashNext x ≠ some x) :
    c.removeFromHashQ x = { c with
      hashNext := fun y =>
        if y = x then none else if c.hashPrev x = some y then c.hashNext x else c.hashNext y
      hashPrev := fun y =>
        if y = x then none else if c.hashNext x = some y then c.hashPrev x else c.hashPrev y
      hashQ := fun i =>
        if i = c.getHash (c.inode x).iNodeNumber (c.inode x).deviceNumber ∧ c.hashQ i = some x
          then c.hashNext x else c.hashQ i } := by
  have hhead : ∀ i, (if c.hashQ i = some x then { c with hashQ := update c.hashQ i (c.hashNext x) }
      else c) = { c with
        hashQ := fun j => if j = i ∧ c.hashQ j = some x then c.hashNext x else c.hashQ j } := by
    intro i
    split
    · next hi =>
        have : update c.hashQ i (c.hashNext x) =
            fun j => if j = i ∧ c.hashQ j = some x then c.hashNext x else c.hashQ j := by
          funext j
          by_cases hj : j = i <;> simp [hj, hi]
        rw [this]
    · next hi =>
        have : (fun j => if j = i ∧ c.hashQ j = some x then c.hashNext x else c.hashQ j) =
            c.hashQ := by
          funext j
          by_cases hj : j = i <;> simp [hj, hi]
        rw [this]
  unfold removeFromHashQ
  simp only [hhead]
  cases hnx : c.hashNext x with
  | none =>
      cases hpx : c.hashPrev x with
      | none =>
          simp only [Cache.mk.injEq, true_and, and_true]
          exact ⟨by funext y; grind, by funext y; grind⟩
      | some before =>
          simp only [Cache.mk.injEq, true_and, and_true]
          exact ⟨by funext y; grind, by funext y; grind⟩
  | some after =>
      have hax : x ≠ after := by
        rintro rfl
        exact hn hnx
      simp only [update_of_ne hax]
      cases hpx : c.hashPrev x with
      | none =>
          simp only [Cache.mk.injEq, true_and, and_true]
          exact ⟨by funext y; grind, by funext y; grind⟩
      | some before =>
          simp only [Cache.mk.injEq, true_and, and_true]
          exact ⟨by funext y; grind, by funext y; grind⟩

/-- `removeFromHashQ` on a node that is in no queue but its own. -/
theorem removeFromHashQ_spec (h : c.Queues q)
    (hx : ∀ i, x ∈ q i → i = c.getHash (c.inode x).iNodeNumber (c.inode x).deviceNumber) :
    ∃ next prev heads, c.removeFromHashQ x =
        { c with hashNext := next, hashPrev := prev, hashQ := heads } ∧
      Queues { c with hashNext := next, hashPrev := prev, hashQ := heads }
        (fun i => (q i).erase x) := by
  by_cases hin : ∃ i, x ∈ q i
  · obtain ⟨i, hi⟩ := hin
    obtain ⟨l₁, l₂, hl⟩ := List.append_of_mem hi
    have hchain := h.chain i
    rw [hl] at hchain
    have hnx : c.hashNext x = l₂.head? := by simpa using hchain.seg.next_mem
    have hpx : c.hashPrev x = lastOf none l₁ := hchain.seg.prev_mem
    have hxl : x ∉ l₁ ++ l₂ := (List.nodup_cons.mp (List.nodup_middle.mp hchain.nodup)).1
    have hafter : ∀ y, c.hashNext x = some y → y ∈ l₁ ++ l₂ := by
      intro y hy
      rw [hnx] at hy
      exact List.mem_append_right _ (List.mem_of_mem_head? hy)
    have hbefore : ∀ y, c.hashPrev x = some y → y ∈ l₁ ++ l₂ := by
      intro y hy
      rw [hpx] at hy
      exact List.mem_append_left _ (by simpa using lastOf_mem hy)
    have hne : ∀ {l : List NodeId}, x ∉ l → ∀ y ∈ l, y ≠ x := by
      rintro l hl y hy rfl
      exact hl hy
    have hq : ∀ y ∈ l₁ ++ l₂, y ∈ q i := by
      intro y hy
      rw [hl]
      simp only [List.mem_append, List.mem_cons] at hy ⊢
      tauto
    refine ⟨_, _, _, removeFromHashQ_eq fun hcon => hxl (hafter x hcon), ?_, ?_, ?_⟩
    · intro j
      by_cases hj : j = i
      · subst hj
        have herase : (q j).erase x = l₁ ++ l₂ := by
          rw [hl, List.erase_append_right _ fun hcon => hxl (List.mem_append_left _ hcon),
            List.erase_cons_head]
        simp only [herase, ← hx j hi, true_and, hnx]
        refine hchain.remove ?_ ?_ ?_ ?_
        · intro a ha
          have hax : a ≠ x := by
            rintro rfl
            exact hxl (hbefore a (hpx.trans ha))
          rw [if_neg hax, if_pos (hpx.trans ha)]
        · intro b hb
          have hbx : b ≠ x := by
            rintro rfl
            exact hxl (hafter b (hnx.trans hb))
          rw [if_neg hbx, if_pos (show l₂.head? = some b from hb), hpx]
        · intro a ha hna
          rw [if_neg (hne hxl a ha), if_neg fun hcon => hna (hpx.symm.trans hcon)]
        · intro b hb hnb
          rw [if_neg (hne hxl b hb), if_neg (show ¬ l₂.head? = some b from hnb)]
      · -- another queue
        have hout : ∀ y ∈ q j, y ∉ q i := fun y hy hcon => hj (h.apart hy hcon)
        have hxj : x ∉ q j := fun hcon => hout x hcon hi
        simp only [List.erase_of_not_mem hxj, ← hx i hi, hj, false_and, if_false]
        refine (h.chain j).congr ?_ ?_
        · intro y hy
          rw [if_neg (hne hxj y hy),
            if_neg fun hcon => hout y hy (hq y (hbefore y hcon))]
        · intro y hy
          rw [if_neg (hne hxj y hy),
            if_neg fun hcon => hout y hy (hq y (hafter y hcon))]
    · intro j j' y hy hy'
      exact h.apart (List.mem_of_mem_erase hy) (List.mem_of_mem_erase hy')
    · intro y hy
      by_cases hyx : y = x
      · simp [hyx]
      · have hy' : ∀ j, y ∉ q j := fun j hcon => hy j ((List.mem_erase_of_ne hyx).mpr hcon)
        obtain ⟨h1, h2⟩ := h.loose hy'
        simp only [if_neg hyx]
        rw [if_neg fun hcon => hy' i (hq y (hbefore y hcon)),
          if_neg fun hcon => hy' i (hq y (hafter y hcon))]
        exact ⟨h1, h2⟩
  · simp only [not_exists] at hin
    obtain ⟨hnx, hpx⟩ := h.loose hin
    have hq : ∀ i, c.hashQ i ≠ some x := by
      intro i hcon
      rw [(h.chain i).head] at hcon
      exact hin i (List.mem_of_mem_head? hcon)
    refine ⟨c.hashNext, c.hashPrev, c.hashQ, ?_, ?_⟩
    · rw [removeFromHashQ_eq (by simp [hnx])]
      simp only [hnx, hpx, hq, and_false, if_false, reduceCtorEq, Cache.mk.injEq, true_and, and_true]
      constructor <;> funext y <;> split <;> simp_all
    · simpa only [List.erase_of_not_mem (hin _)] using h

/-- `insertInHash` on a node that is in no queue. -/
theorem insertInHash_spec (h : c.Queues q) (hx : ∀ i, x ∉ q i) (n device : Nat) :
    ∃ next prev heads, c.insertInHash x n device =
        { c with hashNext := next, hashPrev := prev, hashQ := heads } ∧
      Queues { c with hashNext := next, hashPrev := prev, hashQ := heads }
        (update q (c.getHash n device) (x :: q (c.getHash n device))) := by
  obtain ⟨k, hk⟩ : ∃ k, k = c.getHash n device := ⟨_, rfl⟩
  have hne : ∀ {i y}, y ∈ q i → y ≠ x := by
    rintro i y hy rfl
    exact hx i hy
  have hhead : ∀ a, c.hashQ k = some a → a ∈ q k := by
    intro a ha
    rw [(h.chain k).head] at ha
    exact List.mem_of_mem_head? ha
  refine ⟨update c.hashNext x (c.hashQ k),
    update (fun y => if c.hashQ k = some y then some x else c.hashPrev y) x none,
    update c.hashQ k (some x), ?_, ?_, ?_, ?_⟩
  · simp only [insertInHash, ← hk]
    cases hq : c.hashQ k with
    | none => simp
    | some a =>
        have : update c.hashPrev a (some x) =
            fun y => if some a = some y then some x else c.hashPrev y := by
          funext y
          grind
        simp only [this]
  · intro i
    rw [← hk]
    by_cases hi : i = k
    · subst hi
      simp only [update_self]
      refine (h.chain i).cons (hx i) (update_self ..) (update_self ..) ?_ ?_ ?_
      · intro a ha
        rw [update_of_ne (hne (hhead a ha)), if_pos (show c.hashQ i = some a from ha)]
      · intro a ha
        exact update_of_ne (hne ha) ..
      · intro a ha hna
        rw [update_of_ne (hne ha), if_neg (show ¬ c.hashQ i = some a from hna)]
    · simp only [update_of_ne hi]
      refine (h.chain i).congr ?_ ?_
      · intro a ha
        exact update_of_ne (hne ha) ..
      · intro a ha
        rw [update_of_ne (hne ha), if_neg fun hcon => hi (h.apart ha (hhead a hcon))]
  · -- only `x` is new, and it was in no queue
    rw [← hk]
    have hmem : ∀ {i y}, y ∈ update q k (x :: q k) i → (y = x ∧ i = k) ∨ y ∈ q i := by
      intro i y hy
      by_cases hi : i = k
      · subst hi
        simpa [or_comm] using hy
      · rw [update_of_ne hi] at hy
        exact .inr hy
    intro i i' y hy hy'
    rcases hmem hy with ⟨hyx, rfl⟩ | hy
    · rcases hmem hy' with ⟨-, rfl⟩ | hy'
      · rfl
      · exact absurd hyx (hne hy')
    · rcases hmem hy' with ⟨hyx, -⟩ | hy'
      · exact absurd hyx (hne hy)
      · exact h.apart hy hy'
  · rw [← hk]
    intro y hy
    have hyx : y ≠ x := by
      rintro rfl
      exact hy k (by simp)
    have hy' : ∀ i, y ∉ q i := by
      intro i hcon
      refine hy i ?_
      by_cases hi : i = k
      · subst hi
        simp [hcon]
      · rwa [update_of_ne hi]
    simp only [update_of_ne hyx, if_neg fun hcon => hy' k (hhead y hcon)]
    exact h.loose hy'

/-- Moving a node to the queue of another number. -/
theorem updateInHashQ_spec (h : c.Queues q)
    (hx : ∀ i, x ∈ q i → i = c.getHash (c.inode x).iNodeNumber (c.inode x).deviceNumber)
    (n device : Nat) :
    ∃ next prev heads, c.updateInHashQ x n device =
        { c with hashNext := next, hashPrev := prev, hashQ := heads } ∧
      Queues { c with hashNext := next, hashPrev := prev, hashQ := heads }
        (fun i => if i = c.getHash n device then x :: (q i).erase x else (q i).erase x) := by
  obtain ⟨next, prev, heads, heq, hq⟩ := removeFromHashQ_spec h hx
  have hgone : ∀ i, x ∉ (q i).erase x := fun i => (h.chain i).nodup.not_mem_erase
  obtain ⟨next', prev', heads', heq', hq'⟩ := insertInHash_spec hq hgone n device
  refine ⟨next', prev', heads', by rw [updateInHashQ, heq, heq'], ?_⟩
  convert hq' using 1
  funext i
  by_cases hi : i = c.getHash n device
  · simp [hi]
  · simp [hi]

end Queues

/-! ## Both together -/

/-- The free list is `l` and the hash queues are `q`. -/
structure Lists (c : Cache) (l : List NodeId) (q : Fin inodeHashSize → List NodeId) : Prop where
  free : c.FreeNodes l
  queues : c.Queues q
  home : ∀ {x i}, x ∈ q i → i = c.getHash (c.inode x).iNodeNumber 0
  device : ∀ {x i}, x ∈ q i → (c.inode x).deviceNumber = 0
  unique : ∀ {x y i j}, x ∈ q i → y ∈ q j →
    (c.inode x).iNodeNumber = (c.inode y).iNodeNumber → x = y
  mem_free : ∀ x, x ∈ l ↔ (c.inode x).referenceCount = 0
  hashed : ∀ {x}, (c.inode x).referenceCount ≠ 0 → ∃ i, x ∈ q i

section Lists

variable {c : Cache} {l : List NodeId} {q : Fin inodeHashSize → List NodeId} {x : NodeId}

/-- One inode changes but keeps its number; the free list follows its reference
count. -/
theorem Lists.modify (h : c.Lists l q) {y : InCoreINode} {next prev : NodeId → Option NodeId}
    {head : Option NodeId} {l' : List NodeId} (hring : Ring next prev head l')
    (hnum : y.iNodeNumber = (c.inode x).iNodeNumber)
    (hdev : y.deviceNumber = (c.inode x).deviceNumber)
    (hfree : ∀ z, z ∈ l' ↔ (update c.inode x y z).referenceCount = 0)
    (hhash : y.referenceCount ≠ 0 → ∃ i, x ∈ q i) :
    Lists { c with inode := update c.inode x y, next := next, prev := prev, freeList := head } l' q := by
  have hnum' : ∀ z, (update c.inode x y z).iNodeNumber = (c.inode z).iNodeNumber := by
    intro z
    by_cases hz : z = x <;> simp [hz, hnum]
  have hdev' : ∀ z, (update c.inode x y z).deviceNumber = (c.inode z).deviceNumber := by
    intro z
    by_cases hz : z = x <;> simp [hz, hdev]
  refine ⟨hring, ⟨h.queues.chain, h.queues.apart, h.queues.loose⟩, ?_, ?_, ?_, hfree, ?_⟩
  · intro z i hz
    simpa only [hnum'] using h.home hz
  · intro z i hz
    simpa only [hdev'] using h.device hz
  · intro z w i j hz hw
    simpa only [hnum'] using h.unique hz hw
  · intro z hz
    by_cases hzx : z = x
    · subst hzx
      exact hhash (by simpa using hz)
    · exact h.hashed (by simpa [hzx] using hz)

/-- The first free node takes an inode of another number. -/
theorem Lists.rekey (h : c.Lists (x :: l) q) {y : InCoreINode} {n : Nat}
    {next prev hashNext hashPrev : NodeId → Option NodeId} {head : Option NodeId}
    {heads : Fin inodeHashSize → Option NodeId} (hring : Ring next prev head l)
    (hnew : ∀ i, ∀ z ∈ q i, (c.inode z).iNodeNumber ≠ n) (hnum : y.iNodeNumber = n)
    (hdev : y.deviceNumber = 0) (href : y.referenceCount ≠ 0)
    (hqueues : Queues { c with hashNext := hashNext, hashPrev := hashPrev, hashQ := heads }
      (fun i => if i = c.getHash n 0 then x :: (q i).erase x else (q i).erase x)) :
    Lists { c with
      inode := update c.inode x y, next := next, prev := prev, freeList := head
      hashNext := hashNext, hashPrev := hashPrev, hashQ := heads } l
      (fun i => if i = c.getHash n 0 then x :: (q i).erase x else (q i).erase x) := by
  have hmem : ∀ {z i}, (z ∈ if i = c.getHash n 0 then x :: (q i).erase x else (q i).erase x) →
      (z = x ∧ i = c.getHash n 0) ∨ (z ≠ x ∧ z ∈ q i) := by
    intro z i hz
    have herase : z ∈ (q i).erase x → z ≠ x ∧ z ∈ q i := fun hz =>
      (h.queues.chain i).nodup.mem_erase_iff.mp hz
    split at hz
    · next hi =>
        rcases List.mem_cons.mp hz with hz | hz
        · exact .inl ⟨hz, hi⟩
        · exact .inr (herase hz)
    · exact .inr (herase hz)
  refine ⟨hring, ⟨hqueues.chain, hqueues.apart, hqueues.loose⟩, ?_, ?_, ?_, ?_, ?_⟩
  · intro z i hz
    rcases hmem hz with ⟨rfl, rfl⟩ | ⟨hzx, hz⟩
    · simp [hnum]
    · simpa [hzx] using h.home hz
  · intro z i hz
    rcases hmem hz with ⟨rfl, rfl⟩ | ⟨hzx, hz⟩
    · simp [hdev]
    · simpa [hzx] using h.device hz
  · intro z w i j hz hw heq
    rcases hmem hz with ⟨hzx, -⟩ | ⟨hzx, hzq⟩
    · rcases hmem hw with ⟨hwx, -⟩ | ⟨hwx, hwq⟩
      · rw [hzx, hwx]
      · simp only [hzx, update_self, update_of_ne hwx, hnum] at heq
        exact absurd heq.symm (hnew j w hwq)
    · rcases hmem hw with ⟨hwx, -⟩ | ⟨hwx, hwq⟩
      · simp only [hwx, update_self, update_of_ne hzx, hnum] at heq
        exact absurd heq (hnew i z hzq)
      · simp only [update_of_ne hwx, update_of_ne hzx] at heq
        exact h.unique hzq hwq heq
  · intro z
    by_cases hzx : z = x
    · subst hzx
      have := (List.nodup_cons.mp h.free.nodup).1
      simp [this, href]
    · have := h.mem_free z
      simpa [hzx] using this
  · intro z hz
    by_cases hzx : z = x
    · exact ⟨c.getHash n 0, by simp [hzx]⟩
    · obtain ⟨i, hi⟩ := h.hashed (x := z) (by simpa [hzx] using hz)
      refine ⟨i, ?_⟩
      have := (List.mem_erase_of_ne hzx).mpr hi
      split
      · exact List.mem_cons_of_mem _ this
      · exact this

/-- A cached inode is found. -/
theorem Lists.hashLookup_some (h : c.Lists l q) {i : Fin inodeHashSize} (hx : x ∈ q i) :
    c.hashLookup (c.inode x).iNodeNumber 0 = .ok (some x) := by
  rw [hashLookup_spec h.queues, ← h.home hx]
  cases hf : (q i).find? fun y => (c.inode y).iNodeNumber = (c.inode x).iNodeNumber with
  | none =>
      have := List.find?_eq_none.mp hf x hx
      simp at this
  | some y =>
      rw [h.unique (List.mem_of_find?_eq_some hf) hx (by simpa using List.find?_some hf)]

/-- A number that no queue has is not found. -/
theorem Lists.hashLookup_none (h : c.Lists l q) {n : Nat}
    (hn : ∀ i, ∀ y ∈ q i, (c.inode y).iNodeNumber ≠ n) : c.hashLookup n 0 = .ok none := by
  rw [hashLookup_spec h.queues, List.find?_eq_none.mpr]
  simpa using hn _

end Lists

/-! ## Looking inodes up -/

section Lookup

variable {c c' : Cache}

/-- What a lookup finds depends on the numbers and the queues only. -/
theorem hashLookup_congr (hnum : ∀ x, (c'.inode x).iNodeNumber = (c.inode x).iNodeNumber)
    (hnext : c'.hashNext = c.hashNext) (hq : c'.hashQ = c.hashQ) (hhash : c'.getHash = c.getHash)
    (n dev : Nat) : c'.hashLookup n dev = c.hashLookup n dev := by
  have hfrom : ∀ fuel head, c'.hashLookupFrom n fuel head = c.hashLookupFrom n fuel head := by
    intro fuel
    induction fuel with
    | zero => exact fun _ => rfl
    | succ fuel ih =>
        intro head
        cases head with
        | none => rfl
        | some head => rw [hashLookupFrom, hashLookupFrom, hnum, hnext, ih]
  rw [hashLookup, hashLookup, hfrom, hq, hhash]

/-- The node that is found carries the number. -/
theorem hashLookup_number {n dev : Nat} {x : NodeId} (h : c.hashLookup n dev = .ok (some x)) :
    (c.inode x).iNodeNumber = n := by
  have hfrom : ∀ fuel head, c.hashLookupFrom n fuel head = .ok (some x) →
      (c.inode x).iNodeNumber = n := by
    intro fuel
    induction fuel with
    | zero => exact fun _ h => by cases h
    | succ fuel ih =>
        intro head h
        cases head with
        | none => cases h
        | some head =>
            rw [hashLookupFrom] at h
            split at h
            · next hnum =>
                cases h
                exact hnum
            · exact ih _ h
  exact hfrom _ _ h

end Lookup

/-! ## The initial lists -/

/-- At first all nodes are in the ring, in their order. -/
theorem initFreeInCoreINodeList_spec (getHash : Nat → Nat → Fin inodeHashSize) :
    ∃ next prev head, initFreeInCoreINodeList getHash =
        .ok { blank getHash with next := next, prev := prev, freeList := head } ∧
      Ring next prev head (List.finRange inodeBufferSize) := by
  have hfold : ∀ (l l' : List NodeId) (c : Cache), c.FreeNodes l → (l ++ l').Nodup →
      ∃ next prev head, l'.foldlM freeListInsert c =
          .ok { c with next := next, prev := prev, freeList := head } ∧
        Ring next prev head (l ++ l') := by
    intro l l'
    induction l' generalizing l with
    | nil => exact fun c h _ => ⟨c.next, c.prev, c.freeList, rfl, by simpa [FreeNodes] using h⟩
    | cons x l' ih =>
        intro c h hnodup
        have hx : x ∉ l := fun hcon => (List.nodup_append.mp hnodup).2.2 x hcon x (by simp) rfl
        obtain ⟨next, prev, head, heq, hring⟩ := freeListInsert_spec h hx
        rw [List.append_cons] at hnodup ⊢
        obtain ⟨next', prev', head', heq', hring'⟩ := ih (l ++ [x])
          { c with next := next, prev := prev, freeList := head } hring hnodup
        refine ⟨next', prev', head', ?_, hring'⟩
        rw [List.foldlM_cons, heq]
        exact heq'
  exact hfold [] _ _ .nil (List.nodup_finRange _)

end Cache

end Naofs
