import Mathlib.Data.List.Nodup
import Mathlib.Data.List.Perm.Basic

/-!
# Naofs.SwapRemove

Taking an element out of a list by putting the last one in its place.

The other elements stay, in another order (`swapRemove_perm`).  If the list maps keys to
values and has each key once, only the key that was taken out is gone (`find?_swapRemove`).
-/

namespace Naofs

universe u v

section SwapRemove

variable {α : Type u} {β : Type v} {l : List α} {p : Nat}

/-- The last element takes the place of element `p`. -/
def swapRemove (l : List α) (p : Nat) : List α :=
  match l.getLast? with
  | none => []
  | some a => (l.set p a).dropLast

/-- Elements are moved without regard to what they are. -/
theorem map_swapRemove (f : α → β) (l : List α) (p : Nat) :
    (swapRemove l p).map f = swapRemove (l.map f) p := by
  rw [swapRemove, swapRemove, List.getLast?_map]
  cases l.getLast? with
  | none => rfl
  | some a => simp [List.map_set]

/-- All elements are left but the one that is removed. -/
theorem swapRemove_append (pre : List α) (a : α) (post : List α) :
    (swapRemove (pre ++ a :: post) pre.length).Perm (pre ++ post) := by
  rcases List.eq_nil_or_concat post with rfl | ⟨init, z, rfl⟩
  · simp [swapRemove]
  · have hlast : (pre ++ a :: (init ++ [z])).getLast? = some z := by
      rw [← List.cons_append, ← List.append_assoc, List.getLast?_concat]
    rw [swapRemove, List.concat_eq_append, hlast]
    dsimp only
    rw [List.set_append_right _ _ (Nat.le_refl _), Nat.sub_self, List.set_cons_zero,
      ← List.cons_append, ← List.append_assoc, List.dropLast_concat, ← List.append_assoc]
    exact List.perm_middle.trans (List.perm_append_singleton z (pre ++ init)).symm

/-- **The other elements stay.** -/
theorem swapRemove_perm (hp : p < l.length) : (swapRemove l p).Perm (l.eraseIdx p) := by
  have hsplit : l = l.take p ++ l[p] :: l.drop (p + 1) := by
    rw [← List.drop_eq_getElem_cons hp, List.take_append_drop]
  have hlen : (l.take p).length = p := by rw [List.length_take, Nat.min_eq_left (Nat.le_of_lt hp)]
  have hperm := swapRemove_append (l.take p) l[p] (l.drop (p + 1))
  rwa [← hsplit, hlen, ← List.eraseIdx_eq_take_drop_succ] at hperm

example : swapRemove [0, 1, 2, 3] 1 = [0, 3, 2] := rfl

/-- No element is added. -/
theorem mem_of_mem_swapRemove {a : α} (hp : p < l.length) (h : a ∈ swapRemove l p) : a ∈ l :=
  List.mem_of_mem_eraseIdx ((swapRemove_perm hp).mem_iff.mp h)

end SwapRemove

/-! ## Keys and values -/

section Keys

variable {α : Type u} {β : Type v} {l : List (α × β)} {p : Nat}

/-- Keys that are different stay so. -/
theorem nodup_swapRemove (hkeys : (l.map Prod.fst).Nodup) (hp : p < l.length) :
    ((swapRemove l p).map Prod.fst).Nodup := by
  rw [((swapRemove_perm hp).map Prod.fst).nodup_iff, ← List.eraseIdx_map]
  exact hkeys.sublist (List.eraseIdx_sublist _ _)

/-- Where keys are different, the pairs with other keys are left. -/
theorem mem_swapRemove (hkeys : (l.map Prod.fst).Nodup) {a a' : α} {b b' : β} (hp : l[p]? = some (a, b)) :
    (a', b') ∈ swapRemove l p ↔ (a', b') ∈ l ∧ a' ≠ a := by
  obtain ⟨hlt, hget⟩ := List.getElem?_eq_some_iff.mp hp
  rw [(swapRemove_perm hlt).mem_iff, List.mem_eraseIdx_iff_getElem]
  constructor
  · rintro ⟨i, hi, hip, heq⟩
    refine ⟨heq ▸ List.getElem_mem hi, ?_⟩
    rintro rfl
    refine hip ((@List.Nodup.getElem_inj_iff _ _ hkeys i (by simpa using hi) p (by simpa using hlt)).mp ?_)
    rw [List.getElem_map, List.getElem_map, heq, hget]
  · rintro ⟨hmem, hne⟩
    obtain ⟨i, hi, heq⟩ := List.getElem_of_mem hmem
    refine ⟨i, hi, ?_, heq⟩
    rintro rfl
    rw [heq] at hget
    exact hne (congrArg Prod.fst hget)

variable [DecidableEq α]

/-- A key that occurs once is looked up by membership. -/
theorem find?_key_iff (hkeys : (l.map Prod.fst).Nodup) {a : α} {b : β} :
    (l.find? (·.1 = a)).map (·.2) = some b ↔ (a, b) ∈ l := by
  constructor
  · intro h
    obtain ⟨⟨a', b'⟩, hfind, rfl⟩ := Option.map_eq_some_iff.mp h
    obtain rfl : a' = a := by simpa using List.find?_some hfind
    exact List.mem_of_find?_eq_some hfind
  · intro h
    cases hfind : l.find? (·.1 = a) with
    | none => simpa using List.find?_eq_none.mp hfind (a, b) h
    | some e =>
        have hkey : e.1 = a := by simpa using List.find?_some hfind
        have heq := List.inj_on_of_nodup_map hkeys (List.mem_of_find?_eq_some hfind) h hkey
        rw [heq]
        rfl

/-- **Only the key that was taken out is gone.** -/
theorem find?_swapRemove (hkeys : (l.map Prod.fst).Nodup) {a : α} {b : β} (hp : l[p]? = some (a, b)) (a' : α) :
    ((swapRemove l p).find? (·.1 = a')).map (·.2) =
      if a' = a then none else (l.find? (·.1 = a')).map (·.2) := by
  have hlt := (List.getElem?_eq_some_iff.mp hp).1
  refine Option.ext fun b' => ?_
  rw [find?_key_iff (nodup_swapRemove hkeys hlt), mem_swapRemove hkeys hp]
  by_cases ha : a' = a
  · rw [if_pos ha]
    simp [ha]
  · rw [if_neg ha, find?_key_iff hkeys]
    simp [ha]

end Keys

end Naofs
