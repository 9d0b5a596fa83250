import Naofs.CacheLists
import Mathlib.Data.List.Dedup
import Mathlib.Logic.Relation

/-!
# Naofs.Eviction

The free list of the cache (`freeList.c`) as the sequence of nodes that is read
from it along `next`.

`freeListInsert` appends to the sequence, `popFreeList` takes its first node and
`freeListRemove` deletes one.  Over a run of these operations the sequence stays
in the order of the last releases, so that a node is only evicted if no other
node on the list was released before it (`freeList_refines_sequence`).
-/

namespace Naofs

/-- In a list of distinct elements a sublist begins with the first of its elements. -/
theorem head?_of_sublist {α : Type} [DecidableEq α] {l m : List α} (h : l.Sublist m) (hm : m.Nodup) :
    l.head? = m.find? (· ∈ l) := by
  induction h with
  | slnil => rfl
  | @cons l m a hsub ih =>
      have ha : a ∉ l := fun hmem => (List.nodup_cons.mp hm).1 (hsub.subset hmem)
      rw [List.find?_cons_of_neg (by simpa using ha)]
      exact ih (List.nodup_cons.mp hm).2
  | cons_cons a _ _ => simp

namespace Cache

open Links

/-- The nodes from `x` on, until the list is back at its head. -/
def nodesFrom (c : Cache) : (fuel : Nat) → (x : NodeId) → List NodeId
  | 0, _ => []
  | fuel + 1, x => x ::
      match c.next x with
      | none => []
      | some y => if c.freeList = some y then [] else c.nodesFrom fuel y

/-- The sequence of nodes read from the free list. -/
def nodes (c : Cache) : List NodeId :=
  match c.freeList with
  | none => []
  | some x => c.nodesFrom inodeBufferSize x

/-- The free list is a circular list of the nodes that are read from it. -/
def WellFormed (c : Cache) : Prop := c.FreeNodes c.nodes

section Sequence

variable {c : Cache} {l : List NodeId} {x : NodeId}

/-- The last node points to the head. -/
theorem FreeNodes.next_last {l₁ : List NodeId} (h : c.FreeNodes (l₁ ++ [x])) :
    c.next x = c.freeList := by
  obtain ⟨a, t, hat⟩ : ∃ a t, l₁ ++ [x] = a :: t := by cases l₁ <;> simp
  have hlast : lastOf (some a) t = some x := by
    have := lastOf_append_cons none l₁ x []
    rwa [hat] at this
  rw [hat] at h
  rw [(h.cycle a t rfl).next_last hlast, h.head, List.head?_cons]

/-- Any other node points to one that is not the head. -/
theorem FreeNodes.next_inner {l₁ l₂ : List NodeId} {y : NodeId} (h : c.FreeNodes (l₁ ++ x :: y :: l₂)) :
    c.next x = some y ∧ c.freeList ≠ some y := by
  refine ⟨Ring.next_mem h, ?_⟩
  have hnodup := h.nodup
  rw [h.head]
  cases l₁ with
  | nil =>
      rintro ⟨⟩
      simp at hnodup
  | cons a l₁ =>
      rintro ⟨⟩
      simp at hnodup

/-- Reading the rest of a circular list. -/
theorem nodesFrom_eq (l₂ : List NodeId) : ∀ (l₁ : List NodeId) (x : NodeId) (fuel : Nat),
    c.FreeNodes (l₁ ++ x :: l₂) → l₂.length < fuel → c.nodesFrom fuel x = x :: l₂ := by
  induction l₂ with
  | nil =>
      intro l₁ x fuel h hfuel
      obtain ⟨fuel, rfl⟩ := Nat.exists_eq_succ_of_ne_zero (Nat.ne_of_gt hfuel)
      rw [nodesFrom, h.next_last]
      cases hhead : c.freeList with
      | none => rfl
      | some a => simp
  | cons y l₂ ih =>
      intro l₁ x fuel h hfuel
      obtain ⟨fuel, rfl⟩ := Nat.exists_eq_succ_of_ne_zero (Nat.ne_of_gt (Nat.lt_of_le_of_lt
        (Nat.zero_le _) hfuel))
      obtain ⟨hnext, hhead⟩ := h.next_inner
      simp only [nodesFrom, hnext, if_neg hhead]
      rw [ih (l₁ ++ [x]) y fuel (by simpa using h) (by simpa using hfuel)]

/-- A circular list is what is read from it. -/
theorem FreeNodes.nodes_eq (h : c.FreeNodes l) : c.nodes = l := by
  cases l with
  | nil => simp [nodes, show c.freeList = none from h.head]
  | cons x l =>
      have hlen := List.Nodup.length_le_card h.nodup
      simp only [List.length_cons, Fintype.card_fin] at hlen
      simp only [nodes, show c.freeList = some x from h.head]
      exact nodesFrom_eq l [] x _ h hlen

theorem FreeNodes.wellFormed (h : c.FreeNodes l) : c.WellFormed := by
  rw [WellFormed, h.nodes_eq]
  exact h

/-- The search loop comes back to the head without finding a node that is not there. -/
theorem onFreeList_of_not_mem (l₂ : List NodeId) : ∀ (l₁ : List NodeId) (y : NodeId) (fuel : Nat),
    c.FreeNodes (l₁ ++ y :: l₂) → x ∉ y :: l₂ → l₂.length < fuel →
      c.onFreeList x fuel (some y) = .ok false := by
  induction l₂ with
  | nil =>
      intro l₁ y fuel h hx hfuel
      obtain ⟨fuel, rfl⟩ := Nat.exists_eq_succ_of_ne_zero (Nat.ne_of_gt hfuel)
      rw [onFreeList, if_neg (by simpa using hx), if_pos h.next_last]
  | cons z l₂ ih =>
      intro l₁ y fuel h hx hfuel
      obtain ⟨fuel, rfl⟩ := Nat.exists_eq_succ_of_ne_zero (Nat.ne_of_gt (Nat.lt_of_le_of_lt
        (Nat.zero_le _) hfuel))
      obtain ⟨hnext, hhead⟩ := h.next_inner
      rw [onFreeList, if_neg fun heq => hx (by simp [heq]), hnext, if_neg (Ne.symm hhead)]
      exact ih (l₁ ++ [y]) z fuel (by simpa using h) (fun hmem => hx (List.mem_cons_of_mem _ hmem))
        (by simpa using hfuel)

/-- A node that is not on the list leaves everything as it was. -/
theorem freeListRemove_of_not_mem (h : c.FreeNodes l) (hx : x ∉ l) : c.freeListRemove x = .ok c := by
  cases l with
  | nil =>
      have hhead : c.freeList = none := h.head
      simp [freeListRemove, hhead, onFreeList, bind, Except.bind]
  | cons a t =>
      have hhead : c.freeList = some a := h.head
      have hlen := List.Nodup.length_le_card h.nodup
      simp only [List.length_cons, Fintype.card_fin] at hlen
      have hsearch := onFreeList_of_not_mem t [] a (inodeBufferSize + 1) h hx (by omega)
      have hcond : ¬ (c.freeList = some x ∧ c.next x = c.freeList) := by
        rintro ⟨h1, -⟩
        rw [hhead] at h1
        exact hx (by simp [Option.some.inj h1])
      rw [freeListRemove, if_neg hcond, hhead]
      simp only [hsearch, bind, Except.bind]
      rfl

end Sequence

/-! ## The three operations -/

section Operations

variable {c : Cache} {x : NodeId}

/-- Insertion appends. -/
theorem WellFormed.freeListInsert (h : c.WellFormed) (hx : x ∉ c.nodes) :
    ∃ c', c.freeListInsert x = .ok c' ∧ c'.WellFormed ∧ c'.nodes = c.nodes ++ [x] := by
  obtain ⟨next, prev, head, hinsert, hring⟩ := freeListInsert_spec h hx
  have hfree : FreeNodes { c with next := next, prev := prev, freeList := head } (c.nodes ++ [x]) :=
    hring
  exact ⟨_, hinsert, hfree.wellFormed, hfree.nodes_eq⟩

/-- Popping takes the first node. -/
theorem WellFormed.popFreeList (h : c.WellFormed) :
    ∃ c', c.popFreeList = .ok (c.nodes.head?, c') ∧ c'.WellFormed ∧ c'.nodes = c.nodes.tail := by
  cases hl : c.nodes with
  | nil =>
      have hnil : c.FreeNodes [] := hl ▸ h
      exact ⟨c, popFreeList_nil hnil, h, hl⟩
  | cons y l =>
      have hcons : c.FreeNodes (y :: l) := hl ▸ h
      obtain ⟨next, prev, head, hpop, hring⟩ := popFreeList_cons hcons
      have hfree : FreeNodes { c with next := next, prev := prev, freeList := head } l := hring
      exact ⟨_, hpop, hfree.wellFormed, hfree.nodes_eq⟩

/-- Removal deletes the node, if it is there. -/
theorem WellFormed.freeListRemove (h : c.WellFormed) :
    ∃ c', c.freeListRemove x = .ok c' ∧ c'.WellFormed ∧ c'.nodes = c.nodes.erase x ∧
      (x ∉ c.nodes → c' = c) := by
  by_cases hx : x ∈ c.nodes
  · obtain ⟨l₁, l₂, hnot, hl, herase⟩ := List.exists_erase_eq hx
    have hsplit : c.FreeNodes (l₁ ++ x :: l₂) := hl ▸ h
    obtain ⟨next, prev, head, hremove, hring⟩ := freeListRemove_spec hsplit
    have hfree : FreeNodes { c with next := next, prev := prev, freeList := head } (l₁ ++ l₂) := hring
    refine ⟨_, hremove, hfree.wellFormed, ?_, fun hcon => absurd hx hcon⟩
    rw [hfree.nodes_eq, herase]
  · exact ⟨c, freeListRemove_of_not_mem h hx, h, (List.erase_of_not_mem hx).symm, fun _ => rfl⟩

end Operations

end Cache

/-! ## Runs -/

/-- The cache, and the nodes in the order in which they were released. -/
structure EvictionState where
  cache : Cache
  released : List NodeId

namespace EvictionState

inductive EvictionOp where
  | freeListInsert (node : NodeId)
  | popFreeList
  | freeListRemove (node : NodeId)

def step (st : EvictionState) : EvictionOp → Except Fault EvictionState
  | .freeListInsert node => do
      let cache ← st.cache.freeListInsert node
      .ok ⟨cache, st.released ++ [node]⟩
  | .popFreeList => do
      let (_, cache) ← st.cache.popFreeList
      .ok ⟨cache, st.released⟩
  | .freeListRemove node => do
      let cache ← st.cache.freeListRemove node
      .ok ⟨cache, st.released⟩

/-- Only nodes that are not on the list are released. -/
def Enabled (st : EvictionState) : EvictionOp → Prop
  | .freeListInsert node => node ∉ st.cache.nodes
  | _ => True

def Step (st st' : EvictionState) : Prop := ∃ op, st.Enabled op ∧ st.step op = .ok st'

/-- The list is well formed, and in the order of the last releases. -/
structure Inv (st : EvictionState) : Prop where
  wellFormed : st.cache.WellFormed
  order : st.cache.nodes.Sublist st.released.dedup

section Invariant

variable {st st' : EvictionState}

/-- A node released again moves to the end. -/
theorem dedup_concat (m : List NodeId) (x : NodeId) :
    (m ++ [x]).dedup = m.dedup.filter (· ≠ x) ++ [x] := by
  induction m with
  | nil => simp
  | cons a m ih =>
      rw [List.cons_append, List.dedup_cons, List.dedup_cons]
      by_cases hax : a = x
      · subst hax
        by_cases ham : a ∈ m
        · simp [ham, ih]
        · simp [ham, ih]
      · by_cases ham : a ∈ m
        · simp [ham, ih]
        · simp [ham, hax, ih]

theorem sublist_dedup_concat {l m : List NodeId} {x : NodeId} (h : l.Sublist m.dedup) (hx : x ∉ l) :
    (l ++ [x]).Sublist (m ++ [x]).dedup := by
  rw [dedup_concat]
  refine List.Sublist.append_right ?_ _
  have hfilter : l.filter (· ≠ x) = l := List.filter_eq_self.mpr fun y hy => by
    simp only [ne_eq, decide_not, Bool.not_eq_eq_eq_not, Bool.not_true, decide_eq_false_iff_not]
    rintro rfl
    exact hx hy
  rw [← hfilter]
  exact h.filter _

theorem Inv.step (h : Inv st) {op : EvictionOp} (hop : st.Enabled op) (hstep : st.step op = .ok st') :
    Inv st' := by
  cases op with
  | freeListInsert node =>
      obtain ⟨c, hc, hwf, hnodes⟩ := h.wellFormed.freeListInsert hop
      obtain ⟨c', hc', heq⟩ := bind_eq_ok.mp hstep
      obtain rfl : c = c' := Except.ok.inj (hc.symm.trans hc')
      cases heq
      exact ⟨hwf, hnodes ▸ sublist_dedup_concat h.order hop⟩
  | popFreeList =>
      obtain ⟨c, hc, hwf, hnodes⟩ := h.wellFormed.popFreeList
      obtain ⟨r, hr, heq⟩ := bind_eq_ok.mp hstep
      obtain rfl := Except.ok.inj (hc.symm.trans hr)
      cases heq
      exact ⟨hwf, hnodes ▸ (List.tail_sublist _).trans h.order⟩
  | freeListRemove node =>
      obtain ⟨c, hc, hwf, hnodes, -⟩ := h.wellFormed.freeListRemove (x := node)
      obtain ⟨c', hc', heq⟩ := bind_eq_ok.mp hstep
      obtain rfl : c = c' := Except.ok.inj (hc.symm.trans hc')
      cases heq
      exact ⟨hwf, hnodes ▸ List.erase_sublist.trans h.order⟩

theorem Inv.run (h : Inv st) (hrun : Relation.ReflTransGen Step st st') : Inv st' := by
  induction hrun with
  | refl => exact h
  | tail _ hstep ih =>
      obtain ⟨op, hop, heq⟩ := hstep
      exact ih.step hop heq

/-- The node that is evicted was released before all others on the list. -/
theorem Inv.evicts (h : Inv st) : ∃ c', st.cache.popFreeList =
    .ok (st.released.dedup.find? (· ∈ st.cache.nodes), c') := by
  obtain ⟨c', hpop, -⟩ := h.wellFormed.popFreeList
  rw [head?_of_sublist h.order (List.nodup_dedup _)] at hpop
  exact ⟨c', hpop⟩

end Invariant

/-- **The free list refines a sequence**: insertion appends, popping takes the
first node, removal deletes one; and in every run nodes are evicted in the order
of their last releases. -/
theorem freeList_refines_sequence (c : Cache) (h : c.WellFormed) (x : NodeId) :
    (x ∉ c.nodes →
      ∃ c', c.freeListInsert x = .ok c' ∧ c'.WellFormed ∧ c'.nodes = c.nodes ++ [x]) ∧
    (∃ c', c.popFreeList = .ok (c.nodes.head?, c') ∧ c'.WellFormed ∧ c'.nodes = c.nodes.tail) ∧
    (∃ c', c.freeListRemove x = .ok c' ∧ c'.WellFormed ∧ c'.nodes = c.nodes.erase x ∧
      (x ∉ c.nodes → c' = c)) ∧
    ∀ st, Relation.ReflTransGen Step ⟨c, c.nodes⟩ st → st.cache.WellFormed ∧
      ∃ c', st.cache.popFreeList = .ok (st.released.dedup.find? (· ∈ st.cache.nodes), c') := by
  refine ⟨h.freeListInsert, h.popFreeList, h.freeListRemove, fun st hrun => ?_⟩
  have hinit : Inv ⟨c, c.nodes⟩ := by
    refine ⟨h, ?_⟩
    rw [List.dedup_eq_self.mpr h.nodup]
  have hst := hinit.run hrun
  exact ⟨hst.wellFormed, hst.evicts⟩

/-- The list that `initFreeInCoreINodeList` builds: node 0 goes first. -/
theorem freeList_refines_sequence_init : ∃ c c' : Cache,
    Cache.initFreeInCoreINodeList (fun _ _ => 0) = .ok c ∧ c.popFreeList = .ok (some 0, c') ∧
      c'.nodes = (List.finRange inodeBufferSize).tail := by
  obtain ⟨next, prev, head, hinit, hring⟩ := Cache.initFreeInCoreINodeList_spec fun _ _ => 0
  have hfree : Cache.FreeNodes { Cache.blank (fun _ _ => 0) with
      next := next, prev := prev, freeList := head } (List.finRange inodeBufferSize) := hring
  obtain ⟨c', hpop, -, hnodes⟩ := (freeList_refines_sequence _ hfree.wellFormed 0).2.1
  rw [hfree.nodes_eq] at hpop hnodes
  exact ⟨_, c', hinit, hpop, hnodes⟩

end EvictionState

end Naofs
