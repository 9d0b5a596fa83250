import Mathlib.Data.List.Nodup
import Mathlib.Logic.Function.Basic

/-!
# Naofs.Links

Doubly linked lists over any type of nodes, given by the two pointer fields
`next` and `prev`.

A segment `Seg next prev p l q` runs from `p` over the nodes `l` to `q`, where
`none` stands for the end of a list.  A null-terminated list is a segment from
`none` to `none`, a circular list with first node `a` is a segment from `a` to
`a`.  All updates of such lists are changes of one end of a segment:

* `Seg.redirect` — the last node (or the start) points somewhere else;
* `Seg.congr` — nothing in the segment changes.
-/

namespace Naofs

namespace Links

open Function (update update_self update_of_ne)

section Segments

variable {α : Type} {next prev next' prev' : α → Option α}

/-- Two neighbours point to each other. -/
def Link (next prev : α → Option α) (p q : Option α) : Prop :=
  (∀ a ∈ p, next a = q) ∧ ∀ b ∈ q, prev b = p

def Seg (next prev : α → Option α) : Option α → List α → Option α → Prop
  | p, [], q => Link next prev p q
  | p, c :: l, q => Link next prev p (some c) ∧ Seg next prev (some c) l q

/-- The last node of a segment, or its start. -/
def lastOf : Option α → List α → Option α
  | p, [] => p
  | _, c :: l => lastOf (some c) l

/-- The last element is in the second part. -/
theorem lastOf_append_cons (p : Option α) (l₁ : List α) (c : α) (l₂ : List α) :
    lastOf p (l₁ ++ c :: l₂) = lastOf (some c) l₂ := by
  induction l₁ generalizing p with
  | nil => rfl
  | cons a l₁ ih => exact ih (some a)

/-- The last element is one of the list. -/
theorem lastOf_mem {p : Option α} {l : List α} {a : α} (h : a ∈ lastOf p l) :
    a ∈ p.toList ++ l := by
  induction l generalizing p with
  | nil => simpa [lastOf] using h
  | cons c l ih =>
      have := ih h
      simp only [Option.toList_some, List.singleton_append] at this
      exact List.mem_append_right _ this

/-- A list that is not empty has a last element. -/
theorem exists_lastOf (a : α) (l : List α) : ∃ z, lastOf (some a) l = some z := by
  induction l generalizing a with
  | nil => exact ⟨a, rfl⟩
  | cons b l ih => exact ih b

/-- A chain is cut at any of its elements. -/
theorem Seg.append {p q : Option α} {l₁ l₂ : List α} {c : α} :
    Seg next prev p (l₁ ++ c :: l₂) q ↔
      Seg next prev p l₁ (some c) ∧ Seg next prev (some c) l₂ q := by
  induction l₁ generalizing p with
  | nil => rfl
  | cons a l₁ ih => simp only [List.cons_append, Seg, ih, and_assoc]

/-- The end of a segment points back to its last node. -/
theorem Seg.prev_end {p q : Option α} {l : List α} (h : Seg next prev p l q) {b : α} (hb : b ∈ q) :
    prev b = lastOf p l := by
  induction l generalizing p with
  | nil => exact h.2 b hb
  | cons c l ih => exact ih h.2

/-- The last node of a segment points to its end. -/
theorem Seg.next_last {p q : Option α} {l : List α} (h : Seg next prev p l q) {a : α}
    (ha : a ∈ lastOf p l) : next a = q := by
  induction l generalizing p with
  | nil => exact h.1 a ha
  | cons c l ih => exact ih h.2 ha

/-- The first element leads to the second, or out of the chain. -/
theorem Seg.next_first {p q : Option α} {l : List α} (h : Seg next prev p l q) {a : α}
    (ha : a ∈ p) : next a = (l.head?).or q := by
  cases l with
  | nil => simpa using h.1 a ha
  | cons c l => simpa using h.1.1 a ha

/-- A segment whose nodes did not change. -/
theorem Seg.congr {p q : Option α} {l : List α} (h : Seg next prev p l q)
    (hn : ∀ a ∈ p.toList ++ l, next' a = next a) (hp : ∀ b ∈ l ++ q.toList, prev' b = prev b) :
    Seg next' prev' p l q := by
  induction l generalizing p with
  | nil =>
      refine ⟨fun a ha => ?_, fun b hb => ?_⟩
      · rw [hn a (by simpa using ha), h.1 a ha]
      · rw [hp b (by simpa using hb), h.2 b hb]
  | cons c l ih =>
      obtain ⟨h1, h2⟩ := h
      refine ⟨⟨fun a ha => ?_, fun b hb => ?_⟩, ih h2 (fun a ha => ?_) fun b hb => ?_⟩
      · rw [hn a (List.mem_append_left _ (by simpa using ha)), h1.1 a ha]
      · obtain rfl : c = b := by simpa using hb
        rw [hp c (by simp), h1.2 c rfl]
      · simp only [Option.toList_some, List.singleton_append] at ha
        exact hn a (List.mem_append_right _ ha)
      · exact hp b (List.mem_cons_of_mem _ hb)

/-- A segment whose last node (or start) now points to `r'`. -/
theorem Seg.redirect {p r r' : Option α} {l : List α} (h : Seg next prev p l r)
    (hnodup : (p.toList ++ l).Nodup) (hlast : ∀ a ∈ lastOf p l, next' a = r')
    (hn : ∀ a ∈ p.toList ++ l, a ∉ lastOf p l → next' a = next a)
    (hp : ∀ b ∈ l, prev' b = prev b) (hback : ∀ b ∈ r', prev' b = lastOf p l) :
    Seg next' prev' p l r' := by
  induction l generalizing p with
  | nil => exact ⟨hlast, hback⟩
  | cons c l ih =>
      obtain ⟨h1, h2⟩ := h
      have hsub : (Option.toList (some c) ++ l).Nodup := by
        simp only [Option.toList_some, List.singleton_append]
        exact hnodup.of_append_right
      refine ⟨⟨fun a ha => ?_, fun b hb => ?_⟩, ih h2 hsub hlast (fun a ha hne => ?_)
        (fun b hb => hp b (List.mem_cons_of_mem _ hb)) hback⟩
      · -- the start is not the last node
        have hap : a ∈ p.toList := by simpa using ha
        rw [hn a (List.mem_append_left _ hap) fun hcon => ?_, h1.1 a ha]
        have hmem := lastOf_mem (p := some c) hcon
        simp only [Option.toList_some, List.singleton_append] at hmem
        exact (List.nodup_append.mp hnodup).2.2 a hap a hmem rfl
      · obtain rfl : c = b := by simpa using hb
        rw [hp c (by simp), h1.2 c rfl]
      · simp only [Option.toList_some, List.singleton_append] at ha
        exact hn a (List.mem_append_right _ ha) hne

/-- The successor of a node inside a segment. -/
theorem Seg.next_mem {p q : Option α} {l₁ l₂ : List α} {x : α}
    (h : Seg next prev p (l₁ ++ x :: l₂) q) : next x = (l₂.head?).or q :=
  (Seg.append.mp h).2.next_first rfl

/-- An element leads back to the one before it. -/
theorem Seg.prev_mem {p q : Option α} {l₁ l₂ : List α} {x : α}
    (h : Seg next prev p (l₁ ++ x :: l₂) q) : prev x = lastOf p l₁ :=
  (Seg.append.mp h).1.prev_end rfl

/-- A node taken out: its neighbours point to each other. -/
theorem Seg.remove {p q : Option α} {l₁ l₂ : List α} {x : α}
    (h : Seg next prev p (l₁ ++ x :: l₂) q) (hnodup : (p.toList ++ (l₁ ++ l₂)).Nodup)
    (hnext : ∀ a ∈ lastOf p l₁, next' a = (l₂.head?).or q)
    (hprev : ∀ b ∈ (l₂.head?).or q, prev' b = lastOf p l₁)
    (hn : ∀ a ∈ p.toList ++ (l₁ ++ l₂), a ∉ lastOf p l₁ → next' a = next a)
    (hp : ∀ b ∈ l₁ ++ l₂ ++ q.toList, b ∉ (l₂.head?).or q → prev' b = prev b)
    (hq : ∀ b ∈ q, b ∉ l₁ ++ l₂) : Seg next' prev' p (l₁ ++ l₂) q := by
  obtain ⟨h1, h2⟩ := Seg.append.mp h
  have hnodup₁ : (p.toList ++ l₁).Nodup :=
    hnodup.sublist (List.Sublist.append_left (List.sublist_append_left l₁ l₂) _)
  have hdisj : ∀ a ∈ p.toList ++ l₁, a ∉ l₂ := by
    rw [← List.append_assoc] at hnodup
    intro a ha ha'
    exact (List.nodup_append.mp hnodup).2.2 a ha a ha' rfl
  have hseg : Seg next' prev' p l₁ ((l₂.head?).or q) := by
    refine h1.redirect hnodup₁ hnext (fun a ha hne => ?_) (fun b hb => ?_) hprev
    · refine hn a ?_ hne
      rw [← List.append_assoc]
      exact List.mem_append_left _ ha
    · refine hp b (by simp [hb]) fun hcon => ?_
      cases l₂ with
      | nil => exact hq b (by simpa using hcon) (by simp [hb])
      | cons c l₂ =>
          obtain rfl : c = b := by simpa using hcon
          exact hdisj c (by simp [hb]) (by simp)
  cases l₂ with
  | nil => simpa using hseg
  | cons c l₂ =>
      refine Seg.append.mpr ⟨hseg, h2.2.congr (fun a ha => ?_) fun b hb => ?_⟩
      · simp only [Option.toList_some, List.singleton_append] at ha
        exact hn a (by simp only [List.mem_append]; exact .inr (.inr ha)) fun hcon =>
          hdisj a (lastOf_mem hcon) ha
      · refine hp b (by simp only [List.mem_append, List.mem_cons] at hb ⊢; tauto) ?_
        rintro ⟨⟩
        rcases List.mem_append.mp hb with hb | hb
        · have := hnodup.of_append_right.of_append_right
          exact (List.nodup_cons.mp this).1 hb
        · exact hq c (by simpa using hb) (by simp)

end Segments

/-! ## Null-terminated lists -/

section Chain

variable {α : Type} {next prev next' prev' : α → Option α}

/-- A list that starts at `head` and has the nodes `l`. -/
structure Chain (next prev : α → Option α) (head : Option α) (l : List α) : Prop where
  head : head = l.head?
  nodup : l.Nodup
  seg : Seg next prev none l none

/-- Links of other elements do not matter. -/
theorem Chain.congr {head : Option α} {l : List α} (h : Chain next prev head l)
    (hn : ∀ a ∈ l, next' a = next a) (hp : ∀ a ∈ l, prev' a = prev a) :
    Chain next' prev' head l :=
  ⟨h.head, h.nodup, h.seg.congr (by simpa using hn) (by simpa using hp)⟩

/-- A new first node. -/
theorem Chain.cons {head : Option α} {l : List α} {x : α} (h : Chain next prev head l)
    (hx : x ∉ l) (hnx : next' x = head) (hpx : prev' x = none)
    (hhead : ∀ a ∈ head, prev' a = some x) (hn : ∀ a ∈ l, next' a = next a)
    (hp : ∀ a ∈ l, a ∉ head → prev' a = prev a) : Chain next' prev' (some x) (x :: l) := by
  refine ⟨rfl, List.nodup_cons.mpr ⟨hx, h.nodup⟩, ⟨by simp, by simpa using hpx⟩, ?_⟩
  cases l with
  | nil =>
      have : head = none := h.head
      exact ⟨by simp [hnx, this], by simp⟩
  | cons c l =>
      have hc : head = some c := h.head
      refine ⟨⟨by simp [hnx, hc], by simpa [hc] using hhead⟩, h.seg.2.congr (by simpa using hn) ?_⟩
      intro b hb
      simp only [Option.toList_none, List.append_nil] at hb
      refine hp b (List.mem_cons_of_mem _ hb) ?_
      rw [hc]
      rintro ⟨⟩
      exact (List.nodup_cons.mp h.nodup).1 hb

/-- A node taken out. -/
theorem Chain.remove [DecidableEq α] {head : Option α} {l₁ l₂ : List α} {x : α}
    (h : Chain next prev head (l₁ ++ x :: l₂))
    (hnext : ∀ a ∈ lastOf none l₁, next' a = l₂.head?)
    (hprev : ∀ b ∈ l₂.head?, prev' b = lastOf none l₁)
    (hn : ∀ a ∈ l₁ ++ l₂, a ∉ lastOf none l₁ → next' a = next a)
    (hp : ∀ b ∈ l₁ ++ l₂, b ∉ l₂.head? → prev' b = prev b) :
    Chain next' prev' (if head = some x then l₂.head? else head) (l₁ ++ l₂) := by
  have hnodup : (l₁ ++ l₂).Nodup :=
    h.nodup.sublist (List.Sublist.append_left (List.sublist_cons_self x l₂) l₁)
  refine ⟨?_, hnodup, ?_⟩
  · rw [h.head]
    cases l₁ with
    | nil => simp
    | cons a l₁ =>
        have : a ≠ x := by
          have := h.nodup
          simp only [List.cons_append, List.nodup_cons, List.mem_append, List.mem_cons,
            not_or] at this
          exact this.1.2.1
        simp [this]
  · exact h.seg.remove (by simpa using hnodup) (by simpa using hnext) (by simpa using hprev)
      (by simpa using hn) (by simpa using hp) (by simp)

end Chain

/-! ## Circular lists -/

section Ring

variable {α : Type} {next prev next' prev' : α → Option α}

/-- A circular list that starts at `head` and has the nodes `l`. -/
structure Ring (next prev : α → Option α) (head : Option α) (l : List α) : Prop where
  head : head = l.head?
  nodup : l.Nodup
  cycle : ∀ a t, l = a :: t → Seg next prev (some a) t (some a)

theorem Ring.nil : Ring next prev none [] := ⟨rfl, List.nodup_nil, by simp⟩

theorem Ring.singleton {x : α} (hn : next x = some x) (hp : prev x = some x) :
    Ring next prev (some x) [x] := by
  refine ⟨rfl, List.nodup_singleton x, ?_⟩
  rintro a t ⟨⟩
  exact ⟨by simpa using hn, by simpa using hp⟩

/-- The first node points back to the last one. -/
theorem Ring.prev_head {head : Option α} {a : α} {t : List α} (h : Ring next prev head (a :: t)) :
    prev a = lastOf (some a) t := (h.cycle a t rfl).prev_end rfl

/-- The successor of a node that is not the last one. -/
theorem Ring.next_mem {head : Option α} {l₁ l₂ : List α} {x y : α}
    (h : Ring next prev head (l₁ ++ x :: y :: l₂)) : next x = some y := by
  cases l₁ with
  | nil => exact (h.cycle x (y :: l₂) rfl).1.1 x rfl
  | cons a l₁ => exact (h.cycle a (l₁ ++ x :: y :: l₂) rfl).next_mem

/-- A new last node. -/
theorem Ring.snoc {head : Option α} {a x : α} {t : List α} (h : Ring next prev head (a :: t))
    (hx : x ∉ a :: t) (hnx : next' x = some a) (hpx : prev' x = prev a)
    (hlast : ∀ e ∈ prev a, next' e = some x) (hpa : prev' a = some x)
    (hn : ∀ y ∈ a :: t, y ∉ prev a → next' y = next y)
    (hp : ∀ y ∈ t, prev' y = prev y) : Ring next' prev' head ((a :: t) ++ [x]) := by
  rw [h.prev_head] at hpx hlast hn
  refine ⟨by simpa using h.head, ?_, ?_⟩
  · rw [List.nodup_append]
    refine ⟨h.nodup, List.nodup_singleton x, fun y hy z hz => ?_⟩
    rw [List.mem_singleton.mp hz]
    rintro rfl
    exact hx hy
  · rintro b t' ⟨⟩
    refine Seg.append.mpr ⟨(h.cycle a t rfl).redirect h.nodup hlast hn hp ?_, ?_⟩
    · simpa using hpx
    · exact ⟨by simpa using hnx, by simpa using hpa⟩

/-- A node taken out, of at least two. -/
theorem Ring.remove [DecidableEq α] {head : Option α} {l₁ l₂ : List α} {x : α}
    (h : Ring next prev head (l₁ ++ x :: l₂)) (hne : l₁ ++ l₂ ≠ [])
    (hnext : ∀ a ∈ prev x, next' a = next x) (hprev : ∀ b ∈ next x, prev' b = prev x)
    (hn : ∀ a ∈ l₁ ++ l₂, a ∉ prev x → next' a = next a)
    (hp : ∀ b ∈ l₁ ++ l₂, b ∉ next x → prev' b = prev b) :
    Ring next' prev' (if head = some x then next x else head) (l₁ ++ l₂) := by
  have hnodup : (l₁ ++ l₂).Nodup :=
    h.nodup.sublist (List.Sublist.append_left (List.sublist_cons_self x l₂) l₁)
  cases l₁ with
  | nil =>
      cases l₂ with
      | nil => exact absurd rfl hne
      | cons b t =>
          -- the first node goes: the last one now points to the second
          have hseg := h.cycle x (b :: t) rfl
          have hnx : next x = some b := hseg.1.1 x rfl
          have hpx : prev x = lastOf (some b) t := hseg.prev_end rfl
          rw [hpx] at hnext hn hprev
          rw [hnx] at hnext hprev hp
          refine ⟨by simp [h.head, hnx], hnodup, ?_⟩
          rintro c t' ⟨⟩
          refine hseg.2.redirect hnodup hnext hn (fun y hy => ?_) hprev
          refine hp y (by simp [hy]) ?_
          rintro ⟨⟩
          exact (List.nodup_cons.mp hnodup).1 hy
  | cons a l₁ =>
      have hseg := h.cycle a (l₁ ++ x :: l₂) rfl
      have hnx : next x = (l₂.head?).or (some a) := hseg.next_mem
      have hpx : prev x = lastOf (some a) l₁ := hseg.prev_mem
      have hax : a ≠ x := by
        have := h.nodup
        simp only [List.cons_append, List.nodup_cons, List.mem_append, List.mem_cons,
          not_or] at this
        exact this.1.2.1
      rw [hpx] at hnext hn hprev
      rw [hnx] at hnext hprev hp
      refine ⟨by simp [h.head, hax], hnodup, ?_⟩
      rintro c t' ⟨⟩
      refine hseg.remove hnodup hnext hprev hn (fun b hb hne => hp b ?_ hne) ?_
      · simp only [Option.toList_some, List.mem_append, List.cons_append, List.mem_cons] at hb ⊢
        tauto
      · rintro b ⟨⟩
        exact (List.nodup_cons.mp hnodup).1

/-- The assignments that take a node out of a circular list. -/
theorem Ring.unlink [DecidableEq α] {head : Option α} {l₁ l₂ : List α} {x : α}
    (h : Ring next prev head (l₁ ++ x :: l₂)) (hne : l₁ ++ l₂ ≠ []) :
    ∃ after before, next x = some after ∧ prev x = some before ∧ after ≠ x ∧ before ≠ x ∧
      Ring (update (update next before (some after)) x none)
        (update (update prev after (some before)) x none)
        (if head = some x then some after else head) (l₁ ++ l₂) := by
  have hx : ∀ y ∈ l₁ ++ l₂, y ≠ x := by
    rintro y hy rfl
    have := List.nodup_middle.mp h.nodup
    exact (List.nodup_cons.mp this).1 hy
  obtain ⟨after, hnx, hafter⟩ : ∃ a, next x = some a ∧ a ∈ l₁ ++ l₂ := by
    cases l₂ with
    | cons a l₂ => exact ⟨a, h.next_mem, by simp⟩
    | nil =>
        cases l₁ with
        | nil => exact absurd rfl hne
        | cons a l₁ => exact ⟨a, (h.cycle a (l₁ ++ [x]) rfl).next_mem, by simp⟩
  obtain ⟨before, hpx, hbefore⟩ : ∃ b, prev x = some b ∧ b ∈ l₁ ++ l₂ := by
    cases l₁ with
    | cons a l₁ =>
        obtain ⟨b, hb⟩ := exists_lastOf a l₁
        refine ⟨b, (h.cycle a (l₁ ++ x :: l₂) rfl).prev_mem.trans hb, ?_⟩
        exact List.mem_append_left _ (by simpa using lastOf_mem hb)
    | nil =>
        cases l₂ with
        | nil => exact absurd rfl hne
        | cons a l₂ =>
            obtain ⟨b, hb⟩ := exists_lastOf a l₂
            exact ⟨b, h.prev_head.trans hb, by simpa using lastOf_mem hb⟩
  refine ⟨after, before, hnx, hpx, hx _ hafter, hx _ hbefore, ?_⟩
  rw [← hnx]
  refine h.remove hne ?_ ?_ ?_ ?_
  · intro b hb
    obtain rfl : before = b := by simpa [hpx] using hb
    rw [update_of_ne (hx _ hbefore), update_self]
  · intro a ha
    obtain rfl : after = a := by simpa [hnx] using ha
    rw [update_of_ne (hx _ hafter), update_self, hpx]
  · intro a ha hna
    rw [update_of_ne (hx a ha), update_of_ne]
    rintro rfl
    exact hna hpx
  · intro b hb hnb
    rw [update_of_ne (hx b hb), update_of_ne]
    rintro rfl
    exact hnb hnx

end Ring

end Links

end Naofs
