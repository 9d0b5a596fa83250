import Naofs.Directory

/-!
# Naofs.Shortage

A free list that is too short.

`blockAlloc` returns 0 when the free list is empty, and nobody looks at it.  A call that
asks for more blocks than the list has is handed a 0 on the way and goes on
(`writeLoop_short`, `increaseLoop_short`), whatever it does to the disk after that: the
trace only grows.
-/

namespace Naofs

namespace Disk

open InCoreINode (wrapSize toCInt)

/-! ## Insertion -/

section Insert

variable {d : Disk} {x p i L m : Nat} {e : DiskBlock} {l : List Nat}

/-- Block 0 is taken as soon as the list is empty, and is among the new blocks. -/
theorem allocateBelow_short (hcap : 2 < d.backend.capacity) (hm : m < 128 ^ L) (hi : i < 128)
    (hfree : FreeBlocks d l)
    (hown : Own d.backend (p :: l ++ Radix.inner 128 d.child L (d.child p i) m))
    (hlen : l.length < Radix.newInner 128 L m) :
    ∃ new, Allocates d (d.allocateBelow x (Radix.digits 128 L m) p i
      (makeFreeDiskListBlock (d.blocks p)) e) new ∧ 0 ∈ new := by
  induction L generalizing d m p i e l with
  | zero =>
      rw [Radix.newInner] at hlen
      omega
  | succ L ih =>
      have hpos : 0 < 128 ^ L := Nat.pow_pos (by omega)
      have hq : m / 128 ^ L < 128 := Nat.div_lt_of_lt_mul (by rwa [← Nat.pow_succ])
      have hiff := Radix.digits_eq_zero (L := L + 1) (by omega) hm
      by_cases hm0 : m = 0
      · have hall := hiff.mpr hm0
        subst hm0
        rw [Radix.newInner_zero] at hlen
        cases l with
        | nil =>
            obtain ⟨-, new, hnew⟩ := allocateBelow_allocates d x (Radix.digits 128 (L + 1) 0) p i
              (makeFreeDiskListBlock (d.blocks p)) e
            refine ⟨_, hnew, List.mem_append_left _ ?_⟩
            rw [if_pos ⟨by simp [Radix.digits], by simpa using hall⟩, (blockAlloc_nil hcap hfree).1]
            exact List.mem_singleton.mpr rfl
        | cons c l =>
            have hpd := hown.data p (by simp)
            have hcd := hown.data c (by simp)
            have h2l : 2 ∉ c :: l := fun h => (hown.data 2 (by simp_all)).2.1 rfl
            obtain ⟨hc, hfree₁⟩ := blockAlloc_cons hcap hfree h2l
            obtain ⟨d₂, hd₂⟩ : ∃ d₂, d₂ = d.blockAlloc.2.store p (writeFreeDiskListBlock
              ((makeFreeDiskListBlock (d.blocks p)).poke i d.blockAlloc.1) e) := ⟨_, rfl⟩
            have hback : d₂.backend = d.backend := by simp [hd₂]
            have hfree₂ : FreeBlocks d₂ l := by
              rw [hd₂]
              refine hfree₁.frame (by simp) (blocks_store_of_ne _ hpd.2.1.symm _) fun b hb =>
                blocks_store_of_ne _ ?_ _
              rintro rfl
              have := hown.nodup
              simp [hb] at this
            rw [Radix.digits] at hall ⊢
            rw [allocateBelow_new (x := x) hall (hc ▸ hcd.1) (hc ▸ hcd.2.2) hi hd₂, Nat.zero_div,
              Nat.zero_mod, hc]
            obtain ⟨new, hnew, h0⟩ := ih (d := d₂) (p := c) (i := 0) (m := 0) (l := l)
              (e := d₂.blocks c) (by rwa [hback]) hpos (by omega) hfree₂
              (by
                rw [hback, Radix.inner_zero, List.append_nil]
                refine hown.mono fun b => ?_
                simp only [List.count_cons, List.count_append]
                omega)
              (by simpa using hlen)
            have hone : Allocates d d₂ [c] := by simp [Allocates, hd₂, hc]
            exact ⟨_, hone.trans hnew, List.mem_append_right _ h0⟩
      · have hall : ¬ ∀ i ∈ m / 128 ^ L :: Radix.digits 128 L (m % 128 ^ L), i = 0 :=
          fun h => hm0 (hiff.mp h)
        have hcd := hown.data (d.child p i) (by simp [Radix.mem_inner_root hm0])
        rw [Radix.newInner, if_neg hm0] at hlen
        rw [Radix.inner_node hm0] at hown
        rw [Radix.digits, allocateBelow_old (x := x) (p := p) (e := e) hall
          (by rw [peek_makeFreeDiskListBlock]; exact hcd.2.2), peek_makeFreeDiskListBlock]
        refine ih hcap (Nat.mod_lt _ hpos) hq hfree ?_ hlen
        refine hown.mono fun b => ?_
        simp only [List.count_cons, List.count_append, child]
        omega

/-- It is so from the root of a tree. -/
theorem allocateAllNeededBlocks_short {r : Nat} (hcap : 2 < d.backend.capacity)
    (hm : m < 128 ^ (L + 1)) (hfree : FreeBlocks d l)
    (hown : Own d.backend (l ++ Radix.inner 128 d.child (L + 1) r m))
    (hlen : l.length < Radix.newInner 128 (L + 1) m) :
    ∃ new, Allocates d (d.allocateAllNeededBlocks r x (m / 128 ^ L)
      (Radix.digits 128 L (m % 128 ^ L))).2 new ∧ 0 ∈ new := by
  have hpos : 0 < 128 ^ L := Nat.pow_pos (by omega)
  have hq : m / 128 ^ L < 128 := Nat.div_lt_of_lt_mul (by rwa [← Nat.pow_succ])
  have hiff := Radix.digits_eq_zero (L := L + 1) (by omega) hm
  by_cases hm0 : m = 0
  · have hall := hiff.mpr hm0
    subst hm0
    rw [Radix.newInner_zero] at hlen
    cases l with
    | nil =>
        obtain ⟨-, new, hnew⟩ := allocateAllNeededBlocks_allocates d r x (0 / 128 ^ L)
          (Radix.digits 128 L (0 % 128 ^ L))
        refine ⟨_, hnew, List.mem_append_left _ ?_⟩
        rw [Radix.digits] at hall
        rw [if_pos (by simpa using hall), (blockAlloc_nil hcap hfree).1]
        exact List.mem_singleton.mpr rfl
    | cons c l =>
        have hcd := hown.data c (by simp)
        have h2l : 2 ∉ c :: l := fun h => (hown.data 2 (List.mem_append_left _ h)).2.1 rfl
        obtain ⟨hc, hfree₁⟩ := blockAlloc_cons hcap hfree h2l
        rw [allocateAllNeededBlocks_new hall (hc ▸ hcd.1) (hc ▸ hcd.2.2), Nat.zero_div, Nat.zero_mod, hc]
        obtain ⟨new, hnew, h0⟩ := allocateBelow_short (x := x) (p := c) (i := 0) (m := 0)
          (e := d.blockAlloc.2.blocks c) (by simpa using hcap) hpos (by omega) hfree₁
          (by simpa using hown) (by simpa using hlen)
        have hone : Allocates d d.blockAlloc.2 [c] := by simp [Allocates, hc]
        exact ⟨_, hone.trans hnew, List.mem_append_right _ h0⟩
  · have hall : ¬ ∀ i ∈ Radix.digits 128 (L + 1) m, i = 0 := fun h => hm0 (hiff.mp h)
    have hrd := hown.data r (by simp [Radix.mem_inner_root hm0])
    rw [Radix.newInner, if_neg hm0] at hlen
    rw [Radix.inner_node hm0] at hown
    rw [allocateAllNeededBlocks_old hall hrd.2.2]
    refine allocateBelow_short hcap (Nat.mod_lt _ hpos) hq hfree ?_ hlen
    refine hown.mono fun b => ?_
    simp only [List.count_cons, List.count_append]
    omega

end Insert

/-! ## `bmap` -/

section Bmap

variable {d d' : Disk} {x y : InCoreINode} {resp resp' : BmapResponse} {l : List Nat} {blk : Nat}

/-- And for a block of a file. -/
theorem insertDataBlockInINode_short (hs : x.size % 1024 = 0) (hn : x.size / 1024 < maxBlocks)
    (hcap : 2 < d.backend.capacity) (hfree : FreeBlocks d l)
    (hown : Own d.backend (l ++ d.indirectBlocks x.dataBlockNums (x.size / 1024)))
    (hlen : l.length < newIndirect (x.size / 1024))
    (h : d.insertDataBlockInINode x blk = .ok (y, d')) : ∃ new, Allocates d d' new ∧ 0 ∈ new := by
  obtain ⟨nums', changed, d₁, heq, hcases⟩ := insertDataBlockInINode_eq d blk hs hn
  rw [heq] at h
  cases h
  obtain ⟨h0, -, -⟩ | ⟨L, hL, res, hres, -, rfl⟩ := hcases
  · rw [newIndirect, if_pos h0] at hlen
    omega
  · have hlvl : treeLevel (x.size / 1024) ≠ 0 := by omega
    have hm := (treeBase_le hn hlvl).2
    rw [newIndirect, if_neg hlvl] at hlen
    rw [hL] at hlen hm hres
    rw [← hres]
    refine allocateAllNeededBlocks_short hcap hm hfree ?_ hlen
    refine hown.mono fun b => ?_
    have hpart := ((treePart_size hn (treeLevel_mem hlvl)).1 rfl).1
    rw [hL] at hpart
    simp only [indirectBlocks, treePart, List.count_append]
    rcases treeLevel_mem hlvl with h | h | h <;> rw [hL] at h <;> rw [h] at hpart ⊢ <;>
      rw [hpart] <;> omega

/-- Inserting a block takes blocks, and frees none. -/
theorem insertDataBlockInINode_allocates (h : d.insertDataBlockInINode x blk = .ok (y, d')) :
    ∃ new, Allocates d d' new := by
  unfold insertDataBlockInINode updateIndex at h
  split at h
  · cases h
    exact ⟨[], .refl d⟩
  · split at h
    · cases h
    · split at h
      · cases h
        exact ⟨[], .refl d⟩
      · split at h
        · cases h
        · cases h
          exact ⟨_, (allocateAllNeededBlocks_allocates ..).2.choose_spec⟩

/-- Whatever the state, `bmap` adds allocations to the trace and nothing else. -/
theorem bmap_allocates {offset : Nat} {mode : BmapMode} {ret : Int}
    (h : d.bmap x offset resp mode = .ok (ret, resp', y, d')) : ∃ new, Allocates d d' new := by
  unfold bmap at h
  split at h
  · cases h
    exact ⟨[], .refl d⟩
  · split at h
    · obtain ⟨⟨z, d₁⟩, hinsert, heq⟩ := bind_eq_ok.mp h
      cases heq
      obtain ⟨new, hnew⟩ := insertDataBlockInINode_allocates hinsert
      have hone : Allocates d d.blockAlloc.2 [d.blockAlloc.1] := by simp [Allocates]
      exact ⟨_, hone.trans hnew⟩
    · obtain ⟨blk, -, heq⟩ := bind_eq_ok.mp h
      cases heq
      exact ⟨[], .refl d⟩

/-- `bmap` at the end of a file that needs more blocks than there are. -/
theorem bmap_end_short (hn : x.size / 1024 < maxBlocks) (hcap : 2 < d.backend.capacity)
    (hfree : FreeBlocks d l)
    (hown : Own d.backend (l ++ d.fileBlocks x.dataBlockNums (blockCount x.size)))
    (hlen : l.length < endNeeds x.size) {ret : Int}
    (h : d.bmap x x.size resp .append = .ok (ret, resp', y, d')) :
    ∃ new, Allocates d d' new ∧ 0 ∈ new := by
  have h1 : ¬ (x.size ≥ x.size ∧ (BmapMode.append = .read ∨ x.size > x.size)) := by simp
  by_cases hs : x.size % 1024 = 0
  · have hcount : blockCount x.size = x.size / 1024 := by
      unfold blockCount
      omega
    rw [endNeeds, if_pos hs] at hlen
    rw [hcount] at hown
    rw [bmap, if_neg h1, if_pos ⟨rfl, hs, rfl⟩] at h
    obtain ⟨⟨z, d₁⟩, hinsert, heq⟩ := bind_eq_ok.mp h
    cases heq
    have hone : Allocates d d.blockAlloc.2 [d.blockAlloc.1] := by simp [Allocates]
    cases l with
    | nil =>
        -- the data block itself is missing
        obtain ⟨new, hnew⟩ := insertDataBlockInINode_allocates hinsert
        refine ⟨_, hone.trans hnew, List.mem_append_left _ ?_⟩
        rw [(blockAlloc_nil hcap hfree).1]
        exact List.mem_singleton.mpr rfl
    | cons c l =>
        have h2l : 2 ∉ c :: l := fun hm => (hown.data 2 (List.mem_append_left _ hm)).2.1 rfl
        obtain ⟨hc, hfree₁⟩ := blockAlloc_cons hcap hfree h2l
        have hsame : ∀ b ∈ d.indirectBlocks x.dataBlockNums (x.size / 1024),
            d.blockAlloc.2.blocks b = d.blocks b := by
          intro b hb
          refine blocks_blockAlloc_of_ne _ ?_
          rintro rfl
          exact (hown.data 2 (List.mem_append_right _ (indirectBlocks_subset hb))).2.1 rfl
        obtain ⟨new, hnew, h0⟩ := insertDataBlockInINode_short (d := d.blockAlloc.2) hs hn
          (by simpa using hcap) hfree₁ (by
            rw [indirectBlocks_frame hsame, backend_blockAlloc]
            refine hown.mono fun b => ?_
            simp only [fileBlocks, List.count_append, List.count_cons, List.cons_append]
            omega) (by simpa using hlen) hinsert
        exact ⟨_, hone.trans hnew, List.mem_append_right _ h0⟩
  · rw [endNeeds, if_neg hs] at hlen
    omega

end Bmap

/-! ## Loops -/

section Loops

variable {d d' : Disk} {x y : InCoreINode} {l : List Nat}

/-- Storing a block takes none. -/
theorem allocates_store {b : Nat} {v : DiskBlock} {new : List Nat} :
    Allocates d (d'.store b v) new ↔ Allocates d d' new := by
  rw [Allocates, Allocates, trace_store]

/-- A step that was handed a 0, and what followed. -/
theorem Allocates.zero_mem {d₁ : Disk} (h : ∃ new, Allocates d d₁ new ∧ 0 ∈ new)
    (h' : ∃ new, Allocates d₁ d' new) : ∃ new, Allocates d d' new ∧ 0 ∈ new := by
  obtain ⟨new, hnew, h0⟩ := h
  obtain ⟨new', hnew'⟩ := h'
  exact ⟨_, hnew.trans hnew', List.mem_append_left _ h0⟩

/-- A step that was handed blocks, and a 0 later. -/
theorem Allocates.zero_mem_later {d₁ : Disk} {new : List Nat} (h : Allocates d d₁ new)
    (h' : ∃ new, Allocates d₁ d' new ∧ 0 ∈ new) : ∃ new, Allocates d d' new ∧ 0 ∈ new := by
  obtain ⟨new', hnew', h0⟩ := h'
  exact ⟨_, h.trans hnew', List.mem_append_right _ h0⟩

/-- Growing takes blocks, and frees none. -/
theorem increaseLoop_allocates (now : UInt64) (size : Nat) : ∀ (fuel : Nat) {x : InCoreINode} {d : Disk}
    {offset bw : Nat} {resp : BmapResponse},
    increaseLoop now size fuel x d offset bw resp = .ok (y, d') → ∃ new, Allocates d d' new := by
  intro fuel
  induction fuel with
  | zero =>
      intro x d offset bw resp h
      cases h
  | succ fuel ih =>
      intro x d offset bw resp h
      rw [increaseLoop] at h
      split at h
      · obtain ⟨⟨ret, resp', z, d₁⟩, hbmap, h⟩ := bind_eq_ok.mp h
        obtain ⟨new, hnew⟩ := bmap_allocates hbmap
        obtain ⟨new', hnew'⟩ := ih h
        exact ⟨_, (allocates_store.mpr hnew).trans hnew'⟩
      · cases h
        exact ⟨[], .refl _⟩

/-- `increaseFileSizeBy` beyond the free list. -/
theorem increaseLoop_short (now : UInt64) (size : Nat) : ∀ (fuel : Nat) (x : InCoreINode)
    (d : Disk) (bytesWritten : Nat) (resp : BmapResponse) (l : List Nat),
    x.size + (size - bytesWritten) ≤ maxFileSize → 2 < d.backend.capacity → FreeBlocks d l →
    Own d.backend (l ++ d.fileBlocks x.dataBlockNums (blockCount x.size)) →
    l.length < growNeeds fuel x.size (size - bytesWritten) →
    increaseLoop now size fuel x d x.size bytesWritten resp = .ok (y, d') →
    ∃ new, Allocates d d' new ∧ 0 ∈ new := by
  intro fuel
  induction fuel with
  | zero =>
      intro x d bw resp l _ _ _ _ hlen
      rw [growNeeds] at hlen
      omega
  | succ fuel ih =>
      intro x d bw resp l hmax hcap hfree hown hlen h
      rw [growNeeds] at hlen
      split at hlen
      · next hleft =>
          obtain ⟨k, hk⟩ : ∃ k, k = min (1024 - x.size % 1024) (size - bw) := ⟨_, rfl⟩
          rw [← hk] at hlen
          dsimp only at hlen
          simp only [maxFileSize] at hmax
          rw [increaseLoop, if_pos (by omega)] at h
          obtain ⟨⟨ret, resp', z, d₁⟩, hbmap, h⟩ := bind_eq_ok.mp h
          dsimp only at h
          by_cases hneeds : endNeeds x.size ≤ l.length
          · obtain ⟨blk, y₁, d₂, heq, hsize, -, hsz, huses, -⟩ := uses_end (n := k) resp now
              (by omega) (by omega) (by simp; omega) hcap hfree hown hneeds
            cases heq.symm.trans hbmap
            simp only [createBMapResponse, blockSize, ← hk] at h
            rw [show wrapSize ((x.size : Int) + k) =
              (z.updateINodeMetadata now (toCInt k) z.linksCount).size by
                rw [hsz, ← Int.natCast_add, InCoreINode.wrapSize_natCast (by omega)]] at h
            have h1 := huses ((d₁.load blk d₁.backend.junk).copyIn (x.size % 1024) k fun _ => 0)
            refine h1.allocates.zero_mem_later (ih _ _ (bw + k) _ (l.drop (endNeeds x.size)) ?_
              (h1.backend ▸ hcap) h1.free (h1.own hown) ?_ h)
            · rw [hsz]
              simp only [maxFileSize]
              omega
            · rw [hsz, List.length_drop, show size - (bw + k) = size - bw - k by omega]
              omega
          · refine Allocates.zero_mem ?_ (increaseLoop_allocates now size fuel h)
            simp only [writeNullBytes, allocates_store]
            exact bmap_end_short (by simp only [maxBlocks]; omega) hcap hfree hown (by omega) hbmap
      · omega

/-- Writing takes blocks, and frees none. -/
theorem writeLoop_allocates (now : UInt64) (buf : Nat → UInt8) (size : Nat) : ∀ (fuel : Nat)
    {s s' : WriteState}, writeLoop now buf size fuel s = .ok s' →
    ∃ new, Allocates s.disk s'.disk new := by
  intro fuel
  induction fuel with
  | zero =>
      intro s s' h
      cases h
  | succ fuel ih =>
      intro s s' h
      rw [writeLoop] at h
      split at h
      · obtain ⟨⟨ret, resp', z, d₁⟩, hbmap, h⟩ := bind_eq_ok.mp h
        obtain ⟨new, hnew⟩ := bmap_allocates hbmap
        dsimp only at h
        split at h
        · cases h
          exact ⟨new, hnew⟩
        · obtain ⟨new', hnew'⟩ := ih h
          exact ⟨_, (allocates_store.mpr hnew).trans hnew'⟩
      · cases h
        exact ⟨[], .refl _⟩

/-- A round of `writeToFile` calls `bmap`, and goes on. -/
theorem writeLoop_bmap (now : UInt64) (buf : Nat → UInt8) {size fuel : Nat} {s s' : WriteState}
    (hlt : wrapSize s.bytesWritten < size) (h : writeLoop now buf size (fuel + 1) s = .ok s') :
    ∃ ret resp z d₁, s.disk.bmap s.iNode s.offset s.bmapResp .append = .ok (ret, resp, z, d₁) ∧
      ∃ new, Allocates d₁ s'.disk new := by
  rw [writeLoop, if_pos hlt] at h
  obtain ⟨⟨ret, resp, z, d₁⟩, hbmap, h⟩ := bind_eq_ok.mp h
  refine ⟨ret, resp, z, d₁, hbmap, ?_⟩
  dsimp only at h
  split at h
  · cases h
    exact ⟨[], .refl _⟩
  · obtain ⟨new, hnew⟩ := writeLoop_allocates now buf size fuel h
    refine ⟨new, ?_⟩
    rwa [Allocates, writeToBlock, trace_store] at hnew

/-- The loop of `writeToFile` beyond the free list. -/
theorem writeLoop_short (now : UInt64) (buf : Nat → UInt8) {size : Nat} (hsize : size < 2147483648) :
    ∀ (fuel bw : Nat) (s s' : WriteState) (l : List Nat), s.bytesWritten = bw → bw ≤ s.offset →
    s.iNode.size ≤ maxFileSize → s.offset + (size - bw) ≤ maxFileSize →
    2 < s.disk.backend.capacity → FreeBlocks s.disk l →
    Own s.disk.backend (l ++ s.disk.fileBlocks s.iNode.dataBlockNums (blockCount s.iNode.size)) →
    l.length < writeNeeds size fuel s.iNode.size bw s.offset →
    writeLoop now buf size fuel s = .ok s' → ∃ new, Allocates s.disk s'.disk new ∧ 0 ∈ new := by
  intro fuel
  induction fuel with
  | zero =>
      intro bw s s' l _ _ _ _ _ _ _ hlen
      rw [writeNeeds] at hlen
      omega
  | succ fuel ih =>
      intro bw s s' l hbw hle hmax hoffmax hcap hfree hown hlen h
      rw [writeNeeds] at hlen
      split at hlen
      · next hgo =>
          obtain ⟨hlt, hin⟩ := hgo
          obtain ⟨k, hk⟩ : ∃ k, k = roundBytes size bw s.offset := ⟨_, rfl⟩
          obtain ⟨hk0, -, hk2⟩ := roundBytes_pos s.offset hlt
          rw [← hk] at hlen hk0 hk2
          dsimp only at hlen
          by_cases hneeds : (if s.offset = s.iNode.size then endNeeds s.iNode.size else 0) ≤ l.length
          · obtain ⟨s₁, hstep, hbw₁, hoff₁, hsize₁, h₁, -⟩ := writeLoop_round now buf (by omega) hk hbw
              hle hlt hin hmax (by omega) (by omega) hcap hfree hown hneeds
            rw [InCoreINode.toCInt_of_lt (by omega) (by omega)] at hbw₁
            simp only [maxFileSize] at hmax hoffmax
            rw [hstep fuel] at h
            refine h₁.allocates.zero_mem_later (ih (bw + k) s₁ s' _ hbw₁ (by omega) ?_ ?_
              (h₁.backend ▸ hcap) h₁.free (h₁.own hown) ?_ h)
            · rw [hsize₁]
              simp only [roundSize, maxFileSize]
              split_ifs <;> omega
            · simp only [maxFileSize]
              omega
            · rw [hsize₁, hoff₁, List.length_drop]
              omega
          · -- the blocks of this round are missing
            have hend : s.offset = s.iNode.size := by
              by_contra hne
              rw [if_neg hne] at hneeds
              omega
            rw [if_pos hend] at hneeds
            simp only [maxFileSize] at hmax hoffmax
            have hwrap : wrapSize s.bytesWritten < size := by
              rw [hbw, InCoreINode.wrapSize_natCast (by omega)]
              exact hlt
            obtain ⟨ret, resp, z, d₁, hbmap, hrest⟩ := writeLoop_bmap now buf hwrap h
            rw [hend] at hbmap
            refine Allocates.zero_mem ?_ hrest
            exact bmap_end_short (by simp only [maxBlocks]; omega) hcap hfree hown (by omega) hbmap
      · omega

/-- `getAndUpdateDirectoryTable` without a block for the entry. -/
theorem getAndUpdateDirectoryTable_short (env : Env) (num : Nat) (name : Nat → UInt8)
    (hdir : validateSearch x) (hx : x.size + 64 ≤ maxFileSize)
    (hcap : 2 < d.backend.capacity) (hfree : FreeBlocks d l)
    (hown : Own d.backend (l ++ d.fileBlocks x.dataBlockNums (blockCount x.size)))
    (hlen : l.length < endNeeds x.size)
    (h : d.getAndUpdateDirectoryTable env x num name = .ok (y, d')) :
    ∃ new, Allocates d d' new ∧ 0 ∈ new := by
  simp only [maxFileSize] at hx
  rw [getAndUpdateDirectoryTable, if_neg (by simpa using hdir)] at h
  obtain ⟨⟨ret, resp, z, d₁⟩, hbmap, h⟩ := bind_eq_ok.mp h
  have hshort := bmap_end_short (by simp only [maxBlocks]; omega) hcap hfree hown hlen hbmap
  dsimp only at h
  split at h
  · cases h
    exact hshort
  · obtain ⟨d₂, hadd, h⟩ := bind_eq_ok.mp h
    cases h
    obtain ⟨blockPtr, -, hstore⟩ := bind_eq_ok.mp hadd
    cases hstore
    simpa only [allocates_store] using hshort

/-- On a full disk the first entry of a block of the inode goes to block 0. -/
theorem getAndUpdateDirectoryTable_full {env : Env} {num : Nat} {name : Nat → UInt8}
    (hdir : validateSearch x) (hs : x.size % 1024 = 0) (hlevel : treeLevel (x.size / 1024) = 0)
    (hsize : x.size + 64 ≤ maxFileSize) (hcap : 2 < d.backend.capacity) (hfree : FreeBlocks d [])
    (h : d.getAndUpdateDirectoryTable env x num name = .ok (y, d')) :
    y.size = x.size + 64 ∧ y.dataBlockNums = x.dataBlockNums.poke (x.size / 1024) 0 := by
  simp only [maxFileSize] at hsize
  have h1 : ¬ (x.size ≥ x.size ∧ (BmapMode.append = .read ∨ x.size > x.size)) := by simp
  obtain ⟨nums', changed, d₁, heq, ⟨-, hnums, rfl⟩ | ⟨L, hL, -⟩⟩ := insertDataBlockInINode_eq d.blockAlloc.2
    d.blockAlloc.1 hs (show x.size / 1024 < maxBlocks by simp only [maxBlocks]; omega)
  · rw [(blockAlloc_nil hcap hfree).1] at hnums
    have hbmap : d.bmap x x.size env.response .append = .ok (0, createBMapResponse d.blockAlloc.1 0,
        { x with dataBlockNums := nums', inodeChanged := changed }, d.blockAlloc.2) := by
      rw [bmap, if_neg h1, if_pos ⟨rfl, hs, rfl⟩]
      exact bind_eq_ok.mpr ⟨_, heq, rfl⟩
    rw [getAndUpdateDirectoryTable, if_neg (by simpa using hdir)] at h
    obtain ⟨r, hr, h⟩ := bind_eq_ok.mp h
    cases hbmap.symm.trans hr
    dsimp only at h
    rw [if_neg (by decide)] at h
    obtain ⟨d₂, -, h⟩ := bind_eq_ok.mp h
    cases h
    refine ⟨?_, by rw [InCoreINode.dataBlockNums_updateINodeMetadata, hnums]⟩
    change wrapSize ((x.size : Int) + 64) = _
    rw [InCoreINode.wrapSize_of_lt (by omega) (by omega)]
    omega
  · omega

end Loops

end Disk

end Naofs
