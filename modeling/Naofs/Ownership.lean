import Naofs.Supply

/-!
# Naofs.Ownership

Who owns the blocks of the data region: the free list and the files of all inodes.

The inode of a number is the one in core if there is one, and else the one on disk.
`Separate fs l` says that the free list `l` and the files are apart.  An operation on
one file that only moves blocks between the file and the free list is an `Exchange`;
`Separate.exchange` says that it keeps everything apart, and every other file as it is.
-/

namespace Naofs

/-! ## Lists of lists -/

/-- The lists of all indices but one. -/
theorem exists_rest_flatMap (f : Nat → List Nat) {N i : Nat} (hi : i < N) :
    ∃ rest : List Nat, (∀ n < N, n ≠ i → f n ⊆ rest) ∧
      ∀ g : Nat → List Nat, (∀ n < N, n ≠ i → g n = f n) →
        ∀ b, ((List.range N).flatMap g).count b = (g i).count b + rest.count b := by
  obtain ⟨l₁, l₂, hsplit⟩ := List.append_of_mem (List.mem_range.mpr hi)
  have hnodup : (l₁ ++ i :: l₂).Nodup := hsplit ▸ List.nodup_range
  have hmem : ∀ n, n < N ↔ n ∈ l₁ ++ i :: l₂ := fun n => by rw [← hsplit, List.mem_range]
  have hne : ∀ n, n ∈ l₁ ∨ n ∈ l₂ → n < N ∧ n ≠ i := by
    intro n hn
    refine ⟨(hmem n).mpr ?_, ?_⟩
    · rcases hn with hn | hn
      · exact List.mem_append_left _ hn
      · exact List.mem_append_right _ (List.mem_cons_of_mem _ hn)
    · rintro rfl
      have := (List.nodup_cons.mp (List.nodup_middle.mp hnodup)).1
      simp only [List.mem_append, not_or] at this
      exact hn.elim this.1 this.2
  refine ⟨l₁.flatMap f ++ l₂.flatMap f, fun n hn hni b hb => ?_, fun g hg b => ?_⟩
  · have hn' := (hmem n).mp hn
    rw [List.mem_append, List.mem_cons] at hn'
    rw [List.mem_append]
    rcases hn' with hn' | hn' | hn'
    · exact .inl (List.mem_flatMap.mpr ⟨n, hn', hb⟩)
    · exact absurd hn' hni
    · exact .inr (List.mem_flatMap.mpr ⟨n, hn', hb⟩)
  · have h₁ : l₁.flatMap g = l₁.flatMap f :=
      List.flatMap_congr fun n hn => hg n (hne n (.inl hn)).1 (hne n (.inl hn)).2
    have h₂ : l₂.flatMap g = l₂.flatMap f :=
      List.flatMap_congr fun n hn => hg n (hne n (.inr hn)).1 (hne n (.inr hn)).2
    rw [hsplit, List.flatMap_append, List.flatMap_cons, h₁, h₂]
    simp only [List.count_append]
    omega

namespace FS

open Disk (blockCount)
open Function (update update_self update_of_ne)

/-! ## The inodes of a state -/

/-- The inode of a number: in core if it is cached, and else on disk. -/
def current (fs : FS) (n : Nat) : INode :=
  match fs.cache.hashLookup n 0 with
  | .ok (some x) => (fs.inode x).toINode
  | _ => fs.disk.diskINode n

/-- The blocks of a file. -/
def fileOf (d : Disk) (x : INode) : List Nat :=
  if x.type = .free then [] else d.fileBlocks x.dataBlockNums (blockCount x.size)

def owned (fs : FS) (n : Nat) : List Nat := fileOf fs.disk (fs.current n)

/-- The free list is `l`; its blocks and those of all files are distinct blocks of the
data region. -/
structure Separate (fs : FS) (l : List Nat) : Prop where
  stored : dataRegionStart ≤ fs.disk.backend.capacity
  free : FreeBlocks fs.disk l
  nodup : (l ++ (List.range numOfInodes).flatMap fs.owned).Nodup
  data : ∀ b ∈ l ++ (List.range numOfInodes).flatMap fs.owned,
    dataRegionStart ≤ b ∧ b < fs.disk.backend.capacity
  sizes : ∀ n < numOfInodes, (fs.current n).type ≠ .free → (fs.current n).size ≤ maxFileSize

/-- Inode `n`, where its blocks are and what is in them. -/
structure Isolated (fs fs' : FS) (n : Nat) : Prop where
  inode : fs'.current n = fs.current n
  bmap : ∀ x offset resp, x.toINode = fs.current n →
    (fs'.disk.bmap x offset resp .read).map (fun r => (r.1, r.2.1)) =
      (fs.disk.bmap x offset resp .read).map fun r => (r.1, r.2.1)
  contents : ∀ x offset resp r, x.toINode = fs.current n →
    fs.disk.bmap x offset resp .read = .ok r → r.1 = 0 →
    fs'.disk.blocks r.2.1.blockNumber = fs.disk.blocks r.2.1.blockNumber

/-- Blocks move between the free list `l` and a file with the blocks `own`; no other
block is written but the head of the list. -/
structure Exchange (d d' : Disk) (l l' own own' : List Nat) : Prop where
  backend : d'.backend = d.backend
  free : FreeBlocks d' l'
  blocks : ∀ b, (l' ++ own').count b ≤ (l ++ own).count b
  frame : ∀ b, b ≠ 2 → b ∉ l ++ own → dataRegionStart ≤ b → d'.blocks b = d.blocks b

section Exchange

variable {fs fs' : FS} {l l' : List Nat} {n m : Nat}

theorem Separate.mem_owned (h : Separate fs l) (hn : n < numOfInodes) {b : Nat}
    (hb : b ∈ fs.owned n) : dataRegionStart ≤ b ∧ b < fs.disk.backend.capacity :=
  h.data b (List.mem_append_right _ (List.mem_flatMap.mpr ⟨n, List.mem_range.mpr hn, hb⟩))

/-- A block of one file is not free and not in another file. -/
theorem Separate.notMem (h : Separate fs l) (hn : n < numOfInodes) (hm : m < numOfInodes)
    (hne : n ≠ m) {b : Nat} (hb : b ∈ fs.owned n) : b ∉ l ++ fs.owned m := by
  obtain ⟨rest, hrest, hcount⟩ := exists_rest_flatMap fs.owned hm
  have h1 := List.nodup_iff_count_le_one.mp h.nodup b
  have h2 := hcount fs.owned (fun _ _ _ => rfl) b
  have h3 := List.count_pos_iff.mpr (hrest n hn hne hb)
  rw [List.count_append] at h1
  rw [List.mem_append, ← List.count_pos_iff, ← List.count_pos_iff]
  omega

theorem Separate.blockCount_le (h : Separate fs l) (hn : n < numOfInodes)
    (htype : (fs.current n).type ≠ .free) : blockCount (fs.current n).size ≤ maxBlocks := by
  have := h.sizes n hn htype
  simp only [maxFileSize] at this
  simp only [blockCount, maxBlocks]
  omega

/-- The file of an inode that an exchange does not touch. -/
theorem Separate.isolated (h : Separate fs l) (hn : n < numOfInodes)
    (htype : (fs.current n).type ≠ .free) (hcurrent : fs'.current n = fs.current n)
    (hback : fs'.disk.backend = fs.disk.backend)
    (hframe : ∀ b ∈ fs.owned n, fs'.disk.blocks b = fs.disk.blocks b) :
    fs'.owned n = fs.owned n ∧ Isolated fs fs' n := by
  have hmax := h.blockCount_le hn htype
  have hfile : fs.owned n =
      fs.disk.fileBlocks (fs.current n).dataBlockNums (blockCount (fs.current n).size) := by
    rw [owned, fileOf, if_neg htype]
  have hcap := fun b (hb : b ∈ fs.owned n) => (h.mem_owned hn hb).2
  rw [hfile] at hframe hcap
  have hindirect := fun b hb => hframe b (Disk.indirectBlocks_subset hb)
  refine ⟨?_, hcurrent, fun x offset resp hx => ?_, fun x offset resp r hx hr h0 => ?_⟩
  · rw [owned, owned, hcurrent, fileOf, fileOf, if_neg htype, if_neg htype,
      Disk.fileBlocks_frame hmax hindirect]
  · rw [← hx] at hmax hindirect hcap
    by_cases hoff : offset < x.size
    · have hq : offset / 1024 < blockCount x.size := by
        unfold blockCount
        omega
      rw [Disk.bmap_inside (.inl hoff) hmax fun b hb => hcap b (Disk.indirectBlocks_subset hb),
        Disk.bmap_inside (.inl hoff) hmax fun b hb => ?_, Disk.fileBlock_frame hq hmax hindirect]
      · rfl
      · rw [Disk.indirectBlocks_frame hindirect] at hb
        rw [hback]
        exact hcap b (Disk.indirectBlocks_subset hb)
    · rw [Disk.bmap, Disk.bmap, if_pos ⟨Nat.le_of_not_lt hoff, .inl rfl⟩,
        if_pos ⟨Nat.le_of_not_lt hoff, .inl rfl⟩]
      rfl
  · rw [← hx] at hmax hframe hcap
    by_cases hoff : offset < x.size
    · have hq : offset / 1024 < blockCount x.size := by
        unfold blockCount
        omega
      rw [Disk.bmap_inside (.inl hoff) hmax fun b hb => hcap b (Disk.indirectBlocks_subset hb)] at hr
      cases hr
      exact hframe _ (Disk.mem_fileBlocks hq)
    · rw [Disk.bmap, if_pos ⟨Nat.le_of_not_lt hoff, .inl rfl⟩] at hr
      cases hr
      simp at h0

/-- **Exchange**: the free list and the files stay apart, and every other file is as
it was. -/
theorem Separate.exchange (h : Separate fs l) (hn : n < numOfInodes)
    (hothers : ∀ m < numOfInodes, m ≠ n → fs'.current m = fs.current m)
    (hsize : (fs'.current n).type ≠ .free → (fs'.current n).size ≤ maxFileSize)
    (hx : Exchange fs.disk fs'.disk l l' (fs.owned n) (fs'.owned n)) :
    Separate fs' l' ∧
      ∀ m < numOfInodes, m ≠ n → (fs.current m).type ≠ .free → Isolated fs fs' m := by
  have hsame : ∀ m < numOfInodes, m ≠ n → fs'.owned m = fs.owned m ∧
      ((fs.current m).type ≠ .free → Isolated fs fs' m) := by
    intro m hm hmn
    by_cases htype : (fs.current m).type = .free
    · refine ⟨?_, fun hcon => absurd htype hcon⟩
      rw [owned, owned, hothers m hm hmn, fileOf, fileOf, if_pos htype, if_pos htype]
    · have hiso := h.isolated hm htype (hothers m hm hmn) hx.backend fun b hb => ?_
      · exact ⟨hiso.1, fun _ => hiso.2⟩
      · have hb' := (h.mem_owned hm hb).1
        simp only [dataRegionStart] at hb'
        exact hx.frame b (by omega) (h.notMem hm hn hmn hb) hb'
  obtain ⟨rest, -, hcount⟩ := exists_rest_flatMap fs.owned hn
  have hle : ∀ b, (l' ++ (List.range numOfInodes).flatMap fs'.owned).count b ≤
      (l ++ (List.range numOfInodes).flatMap fs.owned).count b := by
    intro b
    have h1 := hcount fs.owned (fun _ _ _ => rfl) b
    have h2 := hcount fs'.owned (fun m hm hmn => (hsame m hm hmn).1) b
    have h3 := hx.blocks b
    rw [List.count_append] at h3 ⊢
    rw [List.count_append] at h3 ⊢
    omega
  refine ⟨⟨hx.backend ▸ h.stored, hx.free, ?_, fun b hb => ?_, fun m hm htype => ?_⟩,
    fun m hm hmn => (hsame m hm hmn).2⟩
  · exact List.nodup_iff_count_le_one.mpr fun b =>
      (hle b).trans (List.nodup_iff_count_le_one.mp h.nodup b)
  · rw [hx.backend]
    refine h.data b ?_
    have := hle b
    rw [← List.count_pos_iff] at hb ⊢
    omega
  · by_cases hmn : m = n
    · subst hmn
      exact hsize htype
    · rw [hothers m hm hmn] at htype ⊢
      exact h.sizes m hm htype

end Exchange

end FS

end Naofs
