import Naofs.Shrink

/-!
# Naofs.Limit

What happens at the largest size that a file can have.

Past the last tree, `calculateOffset` returns without a result, and none of its callers can
tell.  Appending to a file of the largest size gets there, and so does freeing its last block.
`limit_iff` says for `bmap`, `truncateINode` and `writeToFile` when this does not happen.
For `writeToFile` there are three ways into trouble: it appends past the limit; the difference
of two sizes does not fit into an `int`; or it cuts the file to its first round and stops.
-/

namespace Naofs

open Disk (blockCount blockTotal endNeeds)

namespace Disk

open InCoreINode (wrapSize toCInt)

/-! ## `bmap` -/

section Bmap

variable {d : Disk} {x : InCoreINode} {l : List Nat}

/-- `bmap` refuses and changes nothing, or it answers with the block of the offset in the tree
of the inode. -/
def BmapLaw (d : Disk) (x : InCoreINode) (offset : Nat) (mode : BmapMode) : Prop :=
  ∀ resp, ∃ ret resp' y d', d.bmap x offset resp mode = .ok (ret, resp', y, d') ∧
    (ret = -1 ∧ y = x ∧ d' = d ∨ ret = 0 ∧ offset / blockSize ≤ tripleIndirectLimit ∧
      resp'.blockNumber = d'.fileBlock y.dataBlockNums (offset / blockSize) ∧
      Own d'.backend (d'.fileBlocks y.dataBlockNums (blockCount (max x.size (offset + 1)))))

/-- Past the last tree there is nowhere to put a block. -/
theorem bmap_limit (d : Disk) (resp : BmapResponse) (hx : x.size = maxFileSize) :
    d.bmap x x.size resp .append = .error .uninitialised := by
  simp only [maxFileSize] at hx
  have hnone : calculateOffset x.size = none := by
    refine calculateOffset_eq_none ?_
    simp only [maxBlocks]
    omega
  rw [bmap, if_neg (by simp), if_pos ⟨rfl, by simp; omega, rfl⟩]
  simp only [insertDataBlockInINode, blockSize, if_neg (show ¬ (x.size % 1024 ≠ 0) by omega), hnone]
  rfl

/-- An append at the end of a file that is not full is within the limit. -/
theorem bmapLaw_end (h : Apart d x l) (hlt : x.size < maxFileSize)
    (hneeds : endNeeds x.size ≤ l.length) : BmapLaw d x x.size .append := by
  intro resp
  simp only [maxFileSize] at hlt
  have hn : x.size / 1024 < maxBlocks := by
    simp only [maxBlocks]
    omega
  obtain ⟨blk, nums', changed, d₁, heq, hback, new, hnew, hext⟩ := bmap_end d x resp hn
  obtain ⟨halloc, -⟩ := bmap_end_freeBlocks hn h.capacity h.free h.own hneeds heq
  obtain rfl : new = l.take (endNeeds x.size) := hnew.unique halloc
  have hown : Own d.backend (l.take (endNeeds x.size) ++
      d.fileBlocks x.dataBlockNums (blockCount x.size)) := by
    refine h.own.mono fun b => ?_
    have := count_take_add_drop l (endNeeds x.size) b
    simp only [List.count_append]
    omega
  obtain ⟨hext', hblk, -⟩ := hext hown
  refine ⟨0, _, _, d₁, heq, .inr ⟨rfl, by simp; omega, hblk.symm, ?_⟩⟩
  rw [hback, show blockCount (max x.size (x.size + 1)) = x.size / 1024 + 1 by unfold blockCount; omega]
  exact hown.perm hext'.blocks

/-- **`bmap` at the limit**: only the end of a file of the largest size has no answer. -/
theorem bmapLaw_iff (h : Apart d x l) (hneeds : endNeeds x.size ≤ l.length) (offset : Nat)
    (mode : BmapMode) : BmapLaw d x offset mode ↔
      ¬ (mode = .append ∧ offset = x.size ∧ x.size = maxFileSize) := by
  constructor
  · rintro hlaw ⟨rfl, rfl, hmax⟩
    obtain ⟨ret, resp', y, d', heq, -⟩ := hlaw ⟨0, 0, 0⟩
    rw [bmap_limit d _ hmax] at heq
    cases heq
  · intro hnot
    have hsize := h.size
    simp only [maxFileSize] at hsize
    by_cases hrefuse : offset ≥ x.size ∧ (mode = .read ∨ offset > x.size)
    · intro resp
      exact ⟨-1, resp, x, d, by rw [bmap, if_pos hrefuse], .inl ⟨rfl, rfl, rfl⟩⟩
    by_cases hend : offset = x.size
    · cases mode with
      | read => exact absurd ⟨Nat.le_of_eq hend.symm, .inl rfl⟩ hrefuse
      | append =>
          subst hend
          exact bmapLaw_end h (by simp only [maxFileSize, true_and] at hnot ⊢; omega) hneeds
    · have hin : offset < x.size := by
        by_contra hge
        exact hrefuse ⟨Nat.not_lt.mp hge, .inr (by omega)⟩
      have hwf := h.wellFormed
      intro resp
      refine ⟨0, _, x, d, bmap_inside (.inl hin) hwf.blockCount_le fun b hb =>
        (hwf.own.data b (indirectBlocks_subset hb)).2.2, .inr ⟨rfl, ?_, rfl, ?_⟩⟩
      · simp only [blockSize, tripleIndirectLimit]
        omega
      · rw [Nat.max_eq_left (by omega)]
        exact hwf.own

end Bmap

/-! ## `truncateINode` -/

section Truncate

variable {d : Disk} {x : InCoreINode} {l : List Nat} {env : Env} {size : Nat}

/-- The size stays within the limit; an attempt to pass it leaves what was there. -/
def TruncateLimit (d : Disk) (env : Env) (x : InCoreINode) (size : Nat) : Prop :=
  ∃ y d', d.truncateINode env x size = .ok (y, d') ∧ y.size ≤ maxFileSize ∧
    (maxFileSize < size → x.size ≤ y.size ∧
      ∀ i < x.size, d'.byteAt y.dataBlockNums i = d.byteAt x.dataBlockNums i)

/-- A file below the limit can be cut to every size. -/
theorem decreaseLoop_total (now : UInt64) (size : Nat) : ∀ (fuel : Nat) (x : InCoreINode) (d : Disk)
    (offset bw : Nat) (resp : BmapResponse), (0 < x.size → offset = x.size - 1) →
    x.size / 1024 < maxBlocks → bw ≤ size → size - bw ≤ x.size → size - bw < fuel →
    ∃ y d', decreaseLoop now size fuel x d offset bw resp = .ok (y, d') ∧
      y.size = x.size - (size - bw) := by
  intro fuel
  induction fuel with
  | zero => omega
  | succ fuel ih =>
      intro x d offset bw resp hoff hq hbw hle hfuel
      have hmax : x.size ≤ maxFileSize := by
        simp only [maxFileSize, maxBlocks] at hq ⊢
        omega
      by_cases hc : 0 < x.size ∧ (x.size - 1) % 1024 + 1 ≤ size - bw
      · obtain ⟨blk, d₁, y, resp', offset', -, hstep, hys, -, hoff', -⟩ := decreaseLoop_free
          d now size bw resp hc.1 hmax hq hc.2
        obtain ⟨z, d', hrun, hz⟩ := ih y d₁ offset' (bw + ((x.size - 1) % 1024 + 1)) resp' hoff'
          (by omega) (by omega) (by omega) (by omega)
        refine ⟨z, d', ?_, by omega⟩
        rw [hoff hc.1, hstep, hrun]
      · obtain ⟨y, hrun, hy, -⟩ := decreaseLoop_end d now size bw fuel resp hoff hmax hbw (by omega)
        exact ⟨y, d, hrun, hy⟩

/-- The last block of a file of the largest size cannot be freed. -/
theorem truncateINode_full (d : Disk) (env : Env) (hx : x.size = maxFileSize)
    (hsize : size + 1024 ≤ maxFileSize) : d.truncateINode env x size = .error .uninitialised := by
  obtain ⟨blk, -, hbmap⟩ := bmap_last (d := d) env.response (by rw [hx]; decide) (Nat.le_of_eq hx)
  have hnone : calculateOffset x.size = none := by
    rw [hx]
    exact calculateOffset_eq_none (by decide)
  rw [truncateINode_shrink env (Nat.le_of_eq hx) (by omega), decreaseLoop, if_pos (by omega), hbmap]
  have hfree : ¬ (x.size - size - 0 < (x.size - 1) % 1024 + 1) := by
    simp only [maxFileSize] at hx hsize
    omega
  refine (if_neg hfree).trans ?_
  simp only [freeDataBlockInINode, hnone, bind, Except.bind]

/-- A file of the largest size can be cut inside its last block. -/
theorem truncateINode_inside (d : Disk) (env : Env) (hx : x.size = maxFileSize)
    (hlt : size < x.size) (hsize : maxFileSize < size + 1024) :
    ∃ y d', d.truncateINode env x size = .ok (y, d') ∧ y.size = size := by
  have hx' := hx
  simp only [maxFileSize] at hx' hsize
  obtain ⟨y, hrun, hy, -⟩ := decreaseLoop_end d env.now (x.size - size) 0 (x.size - size) env.response
    (fun _ => rfl) (Nat.le_of_eq hx) (Nat.zero_le _) (by omega)
  exact ⟨y, d, by rw [truncateINode_shrink env (Nat.le_of_eq hx) hlt, hrun], by omega⟩

/-- Growing does not end before the limit, and there it fails. -/
theorem increaseLoop_limit (now : UInt64) : ∀ (fuel : Nat) (x : InCoreINode) (d : Disk) (bw : Nat)
    (resp : BmapResponse), x.size ≤ maxFileSize → maxFileSize < x.size + (size - bw) →
    size - bw < fuel → increaseLoop now size fuel x d x.size bw resp = .error .uninitialised := by
  intro fuel
  induction fuel with
  | zero => omega
  | succ fuel ih =>
      intro x d bw resp hx hmax hfuel
      rw [increaseLoop, if_pos (by omega)]
      by_cases hend : x.size = maxFileSize
      · rw [bmap_limit d resp hend]
        rfl
      · have hx' : x.size < maxFileSize := by omega
        obtain ⟨blk, y, d₁, heq, hys, -⟩ := grow_round d x resp hx'
        obtain ⟨k, hk⟩ : ∃ k, k = min (1024 - x.size % 1024) (size - bw) := ⟨_, rfl⟩
        simp only [maxFileSize] at hx' hmax
        have hsz := y.size_updateINodeMetadata now (k := k) (by omega) (by omega)
        rw [hys] at hsz
        have hoff : wrapSize ((x.size : Int) + k) =
            (y.updateINodeMetadata now (toCInt k) y.linksCount).size := by
          rw [hsz, ← Int.natCast_add, InCoreINode.wrapSize_natCast (by omega)]
        rw [heq]
        simp only [bind, Except.bind, createBMapResponse, blockSize, ← hk]
        rw [hoff]
        exact ih _ _ _ _ (by rw [hsz]; simp; omega) (by rw [hsz]; simp; omega) (by omega)

/-- Growing past the limit ends in a block that has no place. -/
theorem truncateINode_past (d : Disk) (env : Env) (hx : x.size ≤ maxFileSize)
    (hsize : maxFileSize < size) : d.truncateINode env x size = .error .uninitialised := by
  rw [truncateINode, if_neg (by omega), if_neg (by omega)]
  exact increaseLoop_limit env.now _ x d 0 env.response hx (by omega) (by omega)

/-! ## Enough blocks -/

/-- A longer file has no fewer blocks. -/
theorem blockTotal_mono {m n : Nat} (h : m ≤ n) : blockTotal m ≤ blockTotal n := by
  induction h with
  | refl => exact Nat.le_refl _
  | step h ih =>
      rw [blockTotal]
      omega

/-- There are at most three indirect blocks for each block. -/
theorem blockTotal_le (n : Nat) : blockTotal n ≤ 4 * n := by
  induction n with
  | zero => exact Nat.le_refl _
  | succ n ih =>
      have hnew : newIndirect n ≤ 3 := by
        unfold newIndirect
        split
        · exact Nat.zero_le _
        · exact (Radix.newInner_le _ _).trans (treeLevel_le n)
      rw [blockTotal]
      omega

/-- The blocks that a round at the end of a file takes. -/
theorem blockTotal_round (fileSize : Nat) {k : Nat} (hk : 0 < k) (hk' : k ≤ 1024 - fileSize % 1024) :
    blockTotal (blockCount (fileSize + k)) = blockTotal (blockCount fileSize) + endNeeds fileSize := by
  rw [blockCount_add hk hk', endNeeds]
  by_cases hmod : fileSize % 1024 = 0
  · rw [if_pos hmod, show blockCount fileSize = fileSize / 1024 by unfold blockCount; omega, blockTotal]
    omega
  · rw [if_neg hmod, show blockCount fileSize = fileSize / 1024 + 1 by unfold blockCount; omega]
    omega

/-- The blocks that are taken are those that the longer file has more. -/
theorem growNeeds_total : ∀ (fuel fileSize left : Nat), left < fuel →
    growNeeds fuel fileSize left + blockTotal (blockCount fileSize) =
      blockTotal (blockCount (fileSize + left)) := by
  intro fuel
  induction fuel with
  | zero => omega
  | succ fuel ih =>
      intro fileSize left hfuel
      rw [growNeeds]
      split
      · next hleft =>
          obtain ⟨k, hk⟩ : ∃ k, k = min (1024 - fileSize % 1024) left := ⟨_, rfl⟩
          have hround := blockTotal_round fileSize (k := k) (by omega) (by omega)
          have hrest := ih (fileSize + k) (left - k) (by omega)
          rw [show fileSize + k + (left - k) = fileSize + left by omega] at hrest
          dsimp only
          rw [← hk]
          omega
      · rw [show fileSize + left = fileSize by omega, Nat.zero_add]

/-- **`truncateINode` at the limit**: a size past the limit ends in a fault, and so does a
file of the largest size that loses its last block. -/
theorem truncateLimit_iff (h : Apart d x l) (env : Env) (size : Nat)
    (henough : blockTotal (blockCount (min maxFileSize size)) ≤ l.length) :
    TruncateLimit d env x size ↔
      size ≤ maxFileSize ∧ (x.size = maxFileSize → maxFileSize < size + 1024) := by
  have hx := h.size
  constructor
  · rintro ⟨y, d', hrun, -⟩
    refine ⟨?_, fun hfull => ?_⟩
    · by_contra hpast
      rw [truncateINode_past d env hx (by omega)] at hrun
      cases hrun
    · by_contra hcut
      rw [truncateINode_full d env hfull (by omega)] at hrun
      cases hrun
  · rintro ⟨hsize, hfull⟩
    obtain hlt | rfl | hgt := Nat.lt_trichotomy size x.size
    · obtain ⟨y, d', hrun, hy⟩ : ∃ y d', d.truncateINode env x size = .ok (y, d') ∧ y.size = size := by
        by_cases hmax : x.size = maxFileSize
        · exact truncateINode_inside d env hmax hlt (hfull hmax)
        · obtain ⟨y, d', hrun, hy⟩ := decreaseLoop_total env.now (x.size - size)
            (x.size - size + 1) x d (x.size - 1) 0 env.response (fun _ => rfl)
            (by simp only [maxFileSize, maxBlocks] at hx hmax ⊢; omega) (Nat.zero_le _) (by omega)
            (by omega)
          exact ⟨y, d', by rw [truncateINode_shrink env hx hlt, hrun], by omega⟩
      exact ⟨y, d', hrun, by omega, by omega⟩
    · exact ⟨x, d, by rw [truncateINode, if_pos rfl], hx, by omega⟩
    · rw [Nat.min_eq_right hsize] at henough
      have htotal := growNeeds_total (size - x.size + 1) x.size (size - x.size) (by omega)
      rw [show x.size + (size - x.size) = size by omega] at htotal
      obtain ⟨y, d', hrun, hy, -⟩ := h.truncateINode_grow env size hgt hsize (by omega)
      exact ⟨y, d', hrun, by omega, by omega⟩

end Truncate

/-! ## The loop of `writeToFile` -/

/-- The write gets to the end of a file of the largest size, with bytes left.  It would stop by
itself after `2 ^ 31` bytes, where the number of bytes written is not an `int` any more. -/
def Overruns (size fileSize bytesWritten offset : Nat) : Prop :=
  offset ≤ fileSize ∧ (offset = fileSize ∨ fileSize % 1024 = 0) ∧
    maxFileSize < offset + (min size 2147483648 - bytesWritten)

section Write

variable {s : WriteState} {size bw k fileSize offset : Nat}

/-- The loop goes on as long as there are bytes left and their number is an `int`. -/
theorem writeLoop_goes (hbw : s.bytesWritten = toCInt bw) (hlt : bw < 4294967296)
    (hsize : size < 2 ^ 63) : wrapSize s.bytesWritten < size ↔ bw < min size 2147483648 := by
  rw [hbw]
  by_cases hint : bw < 2147483648
  · rw [InCoreINode.toCInt_of_lt (by omega) (by omega), InCoreINode.wrapSize_natCast (by omega)]
    omega
  · rw [InCoreINode.toCInt_of_le (by omega) (by omega), wrapSize]
    omega

/-- A round goes on to the limit exactly if the whole write did. -/
theorem overruns_round (hk : k = roundBytes size bw offset) (hsteady : Steady size fileSize offset)
    (hgo : bw < min size 2147483648) (hoff : offset ≤ fileSize) (hmax : fileSize ≤ maxFileSize)
    (hlt : offset < maxFileSize) :
    Overruns size (roundSize size fileSize offset k) (bw + k) (offset + k) ↔
      Overruns size fileSize bw offset := by
  simp only [Overruns, roundSize, roundBytes, Steady, maxFileSize] at *
  by_cases hend : offset = fileSize
  · rw [if_pos hend]
    omega
  · rw [if_neg hend, if_neg (by omega)]
    omega

/-- No round makes the file longer than the limit. -/
theorem roundSize_le (hk : k = roundBytes size bw offset) (hoff : offset ≤ fileSize)
    (hmax : fileSize ≤ maxFileSize) (hlt : offset < maxFileSize) :
    roundSize size fileSize offset k ≤ maxFileSize := by
  simp only [roundSize, roundBytes, maxFileSize] at *
  split_ifs <;> omega

/-- The blocks for a round are there, and then those for the rest. -/
theorem enough_round {n : Nat} (hk : k = roundBytes size bw offset)
    (hsteady : Steady size fileSize offset) (hgo : bw < min size 2147483648)
    (hoff : offset ≤ fileSize) (hlt : offset < maxFileSize)
    (h : blockTotal (blockCount (min maxFileSize (offset + (size - bw)))) ≤
      n + blockTotal (blockCount fileSize)) :
    (if offset = fileSize then endNeeds fileSize else 0) ≤ n ∧
      blockTotal (blockCount (min maxFileSize (offset + k + (size - (bw + k))))) ≤
        n - (if offset = fileSize then endNeeds fileSize else 0) +
          blockTotal (blockCount (roundSize size fileSize offset k)) := by
  obtain ⟨hk0, hk1, hk2⟩ := roundBytes_pos offset (show bw < size by omega)
  rw [← hk] at hk0 hk1 hk2
  rw [show offset + k + (size - (bw + k)) = offset + (size - bw) by omega]
  by_cases hend : offset = fileSize
  · subst hend
    rw [if_pos rfl, roundSize, if_pos rfl]
    have hround := blockTotal_round offset hk0 hk1
    have hmono := blockTotal_mono (show blockCount (offset + k) ≤
      blockCount (min maxFileSize (offset + (size - bw))) by
        simp only [maxFileSize] at hlt ⊢
        unfold blockCount
        omega)
    omega
  · rw [if_neg hend, roundSize, if_neg hend, if_neg (by unfold Steady at hsteady; omega)]
    omega

/-- The numbers at the end of the loop: `w` more bytes are written, and the file ends at
`final`, where it did or behind these bytes. -/
structure Ended (size fileSize bw offset final w : Nat) : Prop where
  count : w ≤ size - bw
  grown : fileSize ≤ final
  limit : final ≤ maxFileSize
  place : final = fileSize ∨ offset ≤ fileSize ∧ final = offset + w
  -- from the end of the file on, it stops after the last byte or at the end of a block
  last : offset = fileSize → final = offset + w ∧ min size 2147483648 ≤ bw + w ∧
    (w = 0 ∨ bw + w < min size 2147483648 + 1024 ∧ (bw + w = size ∨ (offset + w) % 1024 = 0))

/-- The loop stops at the size that there is. -/
theorem Ended.stop (hmax : fileSize ≤ maxFileSize)
    (hstop : ¬ (bw < min size 2147483648 ∧ offset ≤ fileSize)) :
    Ended size fileSize bw offset fileSize 0 where
  count := Nat.zero_le _
  grown := Nat.le_refl _
  limit := hmax
  place := .inl rfl
  last := fun hend => ⟨by omega, by omega, .inl rfl⟩

/-- One round, and the rest of the loop. -/
theorem Ended.round {final w : Nat} (hk : k = roundBytes size bw offset)
    (hsteady : Steady size fileSize offset) (hgo : bw < min size 2147483648)
    (hoff : offset ≤ fileSize)
    (h : Ended size (roundSize size fileSize offset k) (bw + k) (offset + k) final w) :
    Ended size fileSize bw offset final (k + w) := by
  obtain ⟨hcount, hgrown, hlimit, hplace, hlast⟩ := h
  obtain ⟨-, -, hk2⟩ := roundBytes_pos offset (show bw < size by omega)
  rw [← hk] at hk2
  unfold roundBytes at hk
  by_cases hend : offset = fileSize
  · rw [roundSize, if_pos hend] at hgrown hplace hlast
    obtain ⟨h1, h2, h3⟩ := hlast (by omega)
    exact ⟨by omega, by omega, hlimit, .inr ⟨by omega, by omega⟩, fun _ => ⟨by omega, by omega,
      .inr (by omega)⟩⟩
  · rw [roundSize, if_neg hend, if_neg (by unfold Steady at hsteady; omega)] at hgrown hplace
    exact ⟨by omega, hgrown, hlimit, by omega, fun hcon => absurd hcon hend⟩

/-- What is read at the end was there after the round, or was written later. -/
theorem Ended.covered {final w : Nat}
    (h : Ended size (roundSize size fileSize offset k) (bw + k) (offset + k) final w) :
    ∀ i < final, i < roundSize size fileSize offset k ∨ offset + k ≤ i ∧ i < offset + k + w := by
  have := h.place
  omega

/-- The loop once the file is not going to be cut any more. -/
theorem writeLoop_steady (now : UInt64) (buf : Nat → UInt8) (hsize : size < 2 ^ 63) :
    ∀ (fuel bw : Nat) (s : WriteState) (l : List Nat), s.bytesWritten = toCInt bw →
    bw < 2147484672 → bw ≤ s.offset → size - bw < fuel → Steady size s.iNode.size s.offset →
    Apart s.disk s.iNode l →
    blockTotal (blockCount (min maxFileSize (s.offset + (size - bw)))) ≤
      l.length + blockTotal (blockCount s.iNode.size) →
    (Overruns size s.iNode.size bw s.offset → writeLoop now buf size fuel s = .error .uninitialised) ∧
    (¬ Overruns size s.iNode.size bw s.offset → ∃ s' w, writeLoop now buf size fuel s = .ok s' ∧
      Ended size s.iNode.size bw s.offset s'.iNode.size w ∧
      Overwritten s.disk s'.disk s.iNode.dataBlockNums s'.iNode.dataBlockNums s'.iNode.size
        s.offset w (fun i => buf (bw + i))) := by
  intro fuel
  induction fuel with
  | zero => omega
  | succ fuel ih =>
      intro bw s l hbw hlt hle hfuel hsteady hapart henough
      have hmax := hapart.size
      have hgoes := writeLoop_goes hbw (by omega) hsize
      by_cases hgo : bw < min size 2147483648 ∧ s.offset ≤ s.iNode.size
      · obtain ⟨hmore, hin⟩ := hgo
        by_cases hfull : s.offset = maxFileSize
        · -- the end of a file of the largest size
          have hend : s.offset = s.iNode.size := by omega
          refine ⟨fun _ => ?_, fun hnot => absurd ⟨hin, .inl hend, by omega⟩ hnot⟩
          rw [writeLoop, if_pos (hgoes.mpr hmore), hend, bmap_limit _ _ (by omega)]
          rfl
        have hoffmax : s.offset < maxFileSize := by omega
        obtain ⟨k, hk⟩ : ∃ k, k = roundBytes size bw s.offset := ⟨_, rfl⟩
        obtain ⟨hk0, hk1, hk2⟩ := roundBytes_pos s.offset (show bw < size by omega)
        rw [← hk] at hk0 hk1 hk2
        have hkmax := roundSize_le hk hin hmax hoffmax
        obtain ⟨hneeds, henough₁⟩ := enough_round hk hsteady hmore hin hoffmax henough
        have hdiff : s.offset < s.iNode.size → s.iNode.size < size →
            s.iNode.size ≤ 2147483648 + k := by
          unfold Steady at hsteady
          omega
        obtain ⟨s₁, hstep, hbw₁, hoff₁, hsize₁, h₁, hbytes₁⟩ := writeLoop_round now buf hsize hk
          (by rw [hbw, InCoreINode.toCInt_of_lt (by omega) (by omega)]) hle (by omega) hin hmax hoffmax
          hdiff hapart.capacity hapart.free hapart.own hneeds
        obtain ⟨hfault, hok⟩ := ih (bw + k) s₁ _ hbw₁ (by omega) (by omega) (by omega)
          (by rw [hsize₁, hoff₁]; exact .round) (hapart.uses h₁ (hsize₁ ▸ hkmax))
          (by rw [hsize₁, hoff₁, List.length_drop]; exact henough₁)
        rw [hsize₁, hoff₁, overruns_round hk hsteady hmore hin hmax hoffmax] at hfault hok
        rw [hstep fuel]
        refine ⟨hfault, fun hnot => ?_⟩
        obtain ⟨s', w, hrun, hended, hbytes⟩ := hok hnot
        refine ⟨s', k + w, hrun, hended.round hk hsteady hmore hin, ?_⟩
        exact hbytes₁.trans (by simpa only [← Nat.add_assoc] using hbytes) hended.covered
      · refine ⟨fun hover => ?_, fun _ => ?_⟩
        · unfold Overruns at hover
          omega
        · refine ⟨s, 0, writeLoop_stop now buf (by rwa [hgoes]), .stop hmax hgo, fun i _ => ?_⟩
          rw [if_neg (by omega)]

/-- A difference of sizes that is out of the range of an `int` comes out `2 ^ 32` too large. -/
theorem toCInt_wrapSize_low {z : Int} (h0 : -6442450944 ≤ z) (h : z < -2147483648) :
    toCInt (wrapSize z) = z + 4294967296 := by
  have hwrap : ((wrapSize z : Nat) : Int) = z + 4294967296 + 4294967296 * 4294967295 := by
    rw [wrapSize]
    omega
  rw [hwrap]
  exact (Int.add_mul_bmod_self_left _ 4294967296 4294967295).trans
    (InCoreINode.toCInt_of_lt (by omega) (by omega))

/-- One round inside a file, whatever the blocks are. -/
theorem writeLoop_inside (now : UInt64) (buf : Nat → UInt8) (hgo : wrapSize s.bytesWritten < size)
    (hin : s.offset < s.iNode.size) (hlt : s.offset < maxFileSize) :
    ∃ s₁ k, (∀ fuel, writeLoop now buf size (fuel + 1) s = writeLoop now buf size fuel s₁) ∧
      k = min (1024 - s.offset % 1024) (wrapSize (size - s.bytesWritten)) ∧
      s₁.iNode.size = (s.resize now size k).size ∧ s₁.offset = s.offset + k := by
  simp only [maxFileSize] at hlt
  obtain ⟨blk, hblk⟩ := lookupBlock_ok s.disk s.iNode
    (show s.offset / 1024 < maxBlocks by simp only [maxBlocks]; omega)
  have hbmap : s.disk.bmap s.iNode s.offset s.bmapResp .append =
      .ok (0, createBMapResponse blk (s.offset % blockSize), s.iNode, s.disk) := by
    rw [bmap, if_neg (by omega), if_neg (by omega), hblk]
    rfl
  obtain ⟨k, hk⟩ : ∃ k, k = min (1024 - s.offset % 1024) (wrapSize (size - s.bytesWritten)) := ⟨_, rfl⟩
  have hoff : wrapSize ((s.offset : Int) + k) = s.offset + k := by
    rw [← Int.natCast_add, InCoreINode.wrapSize_natCast (by omega)]
  refine ⟨⟨s.resize now size k, s.disk.writeToBlock (createBMapResponse blk (s.offset % 1024))
      (fun i => buf (s.bytesWritten.toNat + i)) k, createBMapResponse blk (s.offset % 1024),
      toCInt (s.bytesWritten + k), s.offset + k, s.moved + k⟩, k, fun fuel => ?_, hk, rfl, rfl⟩
  simp only [writeLoop, if_pos hgo, hbmap, bind, Except.bind, createBMapResponse, blockSize, ← hk, hoff]
  rfl

/-- Once the size is out of range it stays so. -/
theorem writeLoop_beyond (now : UInt64) (buf : Nat → UInt8) : ∀ (fuel : Nat) (s s' : WriteState),
    4294967296 ≤ s.iNode.size → s.iNode.size ≤ 4294968320 → s.offset ≤ 2164403200 →
    writeLoop now buf size fuel s = .ok s' → maxFileSize < s'.iNode.size := by
  intro fuel
  induction fuel with
  | zero =>
      intro s s' _ _ _ h
      cases h
  | succ fuel ih =>
      intro s s' hlow hhigh hoff h
      by_cases hgo : wrapSize s.bytesWritten < size
      · by_cases hlt : s.offset < maxFileSize
        · obtain ⟨s₁, k, hstep, hk, hsize₁, hoff₁⟩ := writeLoop_inside now buf hgo (by omega) hlt
          rw [hstep] at h
          simp only [maxFileSize] at hlt
          have hsz : 4294967296 ≤ (s.resize now size k).size ∧ (s.resize now size k).size ≤ 4294968320 := by
            rw [WriteState.resize, if_neg (by omega)]
            split
            · simp only [InCoreINode.updateINodeMetadata]
              rw [toCInt_wrapSize_low (by omega) (by omega), InCoreINode.wrapSize_of_lt (by omega) (by omega)]
              omega
            · exact ⟨hlow, hhigh⟩
          exact ih s₁ s' (by omega) (by omega) (by omega) h
        · have hnone : s.disk.lookupBlock s.iNode s.offset = .error .uninitialised := by
            rw [lookupBlock, calculateOffset_eq_none (by simp only [maxFileSize, maxBlocks] at hlt ⊢; omega)]
          rw [writeLoop, if_pos hgo, bmap, if_neg (by omega), if_neg (by omega), hnone] at h
          cases h
      · rw [writeLoop, if_neg hgo] at h
        cases h
        simp only [maxFileSize]
        omega

end Write

/-! ## `writeToFile` -/

/-- The offsets and sizes for which a write keeps to the limit: it does not append past it,
no difference of sizes leaves the range of an `int`, and what would pass the limit does not
cut the file. -/
def WriteFits (fileSize size offset : Nat) : Prop :=
  ¬ ((offset = fileSize ∨ size ≤ fileSize ∧ fileSize % 1024 = 0) ∧
      maxFileSize < offset + min size 2147483648) ∧
    (offset < fileSize → fileSize < size → fileSize ≤ 2147483648 + (1024 - offset % 1024) ∧
      (maxFileSize < offset + size →
        if offset = 0 then fileSize ≤ 2147483648 else offset + fileSize ≤ 1024))

section Whole

variable {d : Disk} {x : InCoreINode} {l : List Nat} {size offset : Nat}

/-- The first round of a write that is longer than the file and starts inside it. -/
theorem writeLoop_cut (now : UInt64) (buf : Nat → UInt8) (resp : BmapResponse) (h : Apart d x l)
    (hsize : size < 2 ^ 63) (hoff : offset < x.size) (hlong : x.size < size)
    (hdiff : x.size ≤ 2147483648 + (1024 - offset % 1024))
    (henough : blockTotal (blockCount (min maxFileSize (offset + size))) ≤ l.length) :
    ∃ s', writeLoop now buf size (size + 1) ⟨x, d, resp, 0, offset, 0⟩ = .ok s' ∧
      (offset ≠ 0 → s'.iNode.size = min (1024 - offset % 1024) size ∧
        Overwritten d s'.disk x.dataBlockNums s'.iNode.dataBlockNums s'.iNode.size offset
          s'.iNode.size buf) ∧
      (offset = 0 → ∃ w, Ended size (min 1024 size) (min 1024 size) (min 1024 size) s'.iNode.size w ∧
        Overwritten d s'.disk x.dataBlockNums s'.iNode.dataBlockNums s'.iNode.size 0
          (min 1024 size + w) buf) := by
  have hmax := h.size
  simp only [maxFileSize] at hmax
  obtain ⟨k, hk⟩ : ∃ k, k = roundBytes size 0 offset := ⟨_, rfl⟩
  have hk' : k = min (1024 - offset % 1024) size := by
    rw [hk, roundBytes, Nat.sub_zero]
  have hround : roundSize size x.size offset k = k := by
    rw [roundSize, if_neg (by omega), if_pos hlong]
  obtain ⟨s₁, hstep, hbw₁, hoff₁, hsize₁, h₁, hbytes₁⟩ := writeLoop_round
    (s := ⟨x, d, resp, 0, offset, 0⟩) now buf hsize hk rfl (Nat.zero_le _) (by omega)
    (Nat.le_of_lt hoff) h.size (by simp only [maxFileSize]; omega) (by simp only; omega) h.capacity h.free
    h.own (by rw [if_neg (by simp only; omega)]; exact Nat.zero_le _)
  simp only [Nat.zero_add, hround] at hbw₁ hoff₁ hsize₁ hbytes₁
  rw [hstep]
  by_cases h0 : offset = 0
  · -- the file starts again behind the first round
    subst h0
    rw [Nat.zero_add] at hoff₁
    have happ := h.uses h₁ (by rw [hsize₁]; simp; omega)
    have hlen : blockTotal (blockCount (min maxFileSize (s₁.offset + (size - k)))) ≤
        (l.drop (if (0 : Nat) = x.size then endNeeds x.size else 0)).length +
          blockTotal (blockCount s₁.iNode.size) := by
      rw [hoff₁, show k + (size - k) = 0 + size by omega, if_neg (by omega), List.drop_zero]
      omega
    obtain ⟨-, hok⟩ := writeLoop_steady now buf hsize size k s₁ _ hbw₁ (by omega)
      (by omega) (by omega) (by rw [hsize₁, hoff₁]; exact .inl (Nat.le_refl _)) happ hlen
    rw [hsize₁, hoff₁] at hok
    obtain ⟨s', w, hrun, hended, hbytes⟩ := hok (by
      unfold Overruns
      simp only [maxFileSize]
      omega)
    have hkk : min 1024 size = k := by omega
    rw [hkk]
    refine ⟨s', hrun, fun hcon => absurd rfl hcon, fun _ => ⟨w, hended, ?_⟩⟩
    refine Overwritten.trans hbytes₁ (by simpa only [Nat.zero_add] using hbytes) fun i hi => ?_
    have := (hended.last rfl).1
    omega
  · have hstop : writeLoop now buf size size s₁ = .ok s₁ := by
      obtain ⟨n, rfl⟩ : ∃ n, size = n + 1 := ⟨size - 1, by omega⟩
      exact writeLoop_stop now buf (by omega)
    refine ⟨s₁, hstop, fun _ => ⟨by omega, ?_⟩, fun hcon => absurd hcon h0⟩
    rw [hsize₁]
    exact hbytes₁

/-- A write that fits ends within the limit, and stops short of it with everything in place. -/
theorem writeLoop_fits (now : UInt64) (buf : Nat → UInt8) (resp : BmapResponse) (h : Apart d x l)
    (hsize : size < 2 ^ 63) (hoff : offset ≤ x.size) (hfits : WriteFits x.size size offset)
    (henough : blockTotal (blockCount (min maxFileSize (offset + size))) ≤ l.length) :
    ∃ s', writeLoop now buf size (size + 1) ⟨x, d, resp, 0, offset, 0⟩ = .ok s' ∧
      s'.iNode.size ≤ maxFileSize ∧ (maxFileSize < offset + size → ∃ w ≤ size,
        x.size ≤ s'.iNode.size ∧ (s'.iNode.size = x.size ∨ s'.iNode.size = offset + w) ∧
        Overwritten d s'.disk x.dataBlockNums s'.iNode.dataBlockNums s'.iNode.size offset w buf) := by
  obtain ⟨hover, hcut⟩ := hfits
  by_cases hsteady : Steady size x.size offset
  · obtain ⟨-, hok⟩ := writeLoop_steady now buf hsize (size + 1) 0 ⟨x, d, resp, 0, offset, 0⟩ l rfl
      (by omega) (Nat.zero_le _) (by omega) hsteady h (by simp only [Nat.sub_zero]; omega)
    obtain ⟨s', w, hrun, hended, hbytes⟩ := hok (by
      unfold Overruns
      unfold Steady at hsteady
      simp only [Nat.sub_zero]
      omega)
    refine ⟨s', hrun, hended.limit, fun _ => ⟨w, hended.count, hended.grown, ?_, ?_⟩⟩
    · have := hended.place
      simp only at this
      omega
    · simpa only [Nat.zero_add] using hbytes
  · have hlt : offset < x.size ∧ x.size < size := by
      unfold Steady at hsteady
      omega
    obtain ⟨hdiff, hpast⟩ := hcut hlt.1 hlt.2
    obtain ⟨s', hrun, hinner, hstart⟩ := writeLoop_cut now buf resp h hsize hlt.1 hlt.2 hdiff henough
    refine ⟨s', hrun, ?_, fun hmax => ?_⟩
    · by_cases h0 : offset = 0
      · obtain ⟨w, hended, -⟩ := hstart h0
        exact hended.limit
      · have := (hinner h0).1
        simp only [maxFileSize]
        omega
    · have hsmall := hpast hmax
      simp only [maxFileSize] at hmax
      by_cases h0 : offset = 0
      · rw [if_pos h0] at hsmall
        obtain ⟨w, hended, hbytes⟩ := hstart h0
        obtain ⟨hfinal, hmin, -⟩ := hended.last rfl
        have hcount := hended.count
        subst h0
        exact ⟨min 1024 size + w, by omega, by omega, .inr (by omega), hbytes⟩
      · rw [if_neg h0] at hsmall
        obtain ⟨hfinal, hbytes⟩ := hinner h0
        refine ⟨s'.iNode.size - offset, by omega, by omega, .inr (by omega), fun i hi => ?_⟩
        rw [hbytes i hi]
        by_cases hi' : offset ≤ i
        · rw [if_pos ⟨hi', by omega⟩, if_pos ⟨hi', by omega⟩]
        · rw [if_neg (by omega), if_neg (by omega)]

/-- A write that does not fit fails, or ends with a size that is too large or too small. -/
theorem writeLoop_fails (now : UInt64) (buf : Nat → UInt8) (resp : BmapResponse) (s' : WriteState)
    (h : Apart d x l)
    (hsize : size < 2 ^ 63) (hoff : offset ≤ x.size) (hnot : ¬ WriteFits x.size size offset)
    (henough : blockTotal (blockCount (min maxFileSize (offset + size))) ≤ l.length)
    (hrun : writeLoop now buf size (size + 1) ⟨x, d, resp, 0, offset, 0⟩ = .ok s') :
    maxFileSize < s'.iNode.size ∨ maxFileSize < offset + size ∧ s'.iNode.size < x.size := by
  have hmax := h.size
  simp only [maxFileSize] at hmax
  by_cases hsteady : Steady size x.size offset
  · obtain ⟨hfault, -⟩ := writeLoop_steady now buf hsize (size + 1) 0 ⟨x, d, resp, 0, offset, 0⟩ l rfl
      (by omega) (Nat.zero_le _) (by omega) hsteady h (by simp only [Nat.sub_zero]; omega)
    rw [hfault ?_] at hrun
    · cases hrun
    · simp only [WriteFits, Overruns, Steady, Nat.sub_zero, maxFileSize] at hnot hsteady ⊢
      omega
  · have hlt : offset < x.size ∧ x.size < size := by
      unfold Steady at hsteady
      omega
    by_cases hdiff : x.size ≤ 2147483648 + (1024 - offset % 1024)
    · obtain ⟨s'', hrun', hinner, hstart⟩ := writeLoop_cut now buf resp h hsize hlt.1 hlt.2 hdiff henough
      rw [hrun] at hrun'
      cases hrun'
      refine .inr ?_
      by_cases h0 : offset = 0
      · obtain ⟨w, hended, -⟩ := hstart h0
        obtain ⟨hfinal, hmin, hlast⟩ := hended.last rfl
        simp only [WriteFits, if_pos h0, maxFileSize] at hnot ⊢
        omega
      · have hfinal := (hinner h0).1
        simp only [WriteFits, if_neg h0, maxFileSize] at hnot ⊢
        omega
    · -- the difference to the first round is too large for an `int`
      refine .inl ?_
      obtain ⟨s₁, k, hstep, hk, hsize₁, hoff₁⟩ := writeLoop_inside
        (s := ⟨x, d, resp, 0, offset, 0⟩) now buf
        (Nat.lt_of_le_of_lt (Nat.le_of_eq (show wrapSize 0 = 0 by decide)) (show 0 < size by omega))
        hlt.1
        (by simp only [maxFileSize]; omega)
      rw [hstep] at hrun
      have hleft : wrapSize ((size : Int) - 0) = size := by
        rw [Int.sub_zero, InCoreINode.wrapSize_natCast (by omega)]
      have hall : wrapSize ((x.size : Int) - 0) = x.size := by
        rw [Int.sub_zero, InCoreINode.wrapSize_natCast (by omega)]
      simp only [hleft] at hk hoff₁
      have hsz : s₁.iNode.size = 4294967296 + k := by
        rw [hsize₁, WriteState.resize, if_neg (by simp only; omega), if_pos (by
          simp only [hleft, hall]
          exact hlt.2)]
        simp only [InCoreINode.updateINodeMetadata]
        rw [toCInt_wrapSize_low (by omega) (by omega), InCoreINode.wrapSize_of_lt (by omega) (by omega)]
        omega
      exact writeLoop_beyond now buf size s₁ s' (by omega) (by omega) (by omega) hrun

end Whole

end Disk

/-! ## Files at the limit -/

namespace FS

open Disk (BmapLaw TruncateLimit WriteFits)

variable {fs : FS} {fd : Nat} {node : NodeId} {l : List Nat} {size offset : Nat}

/-- A write ends with a size within the limit; one that would pass it is refused, or stops
short after some of its bytes, and the file holds these and what it held before. -/
def WriteLimit (fs : FS) (fd : Nat) (node : NodeId) (env : Env) (buf : Nat → UInt8)
    (size offset : Nat) : Prop :=
  ∃ ret fs', fs.writeToFile env fd buf size offset = .ok (ret, fs') ∧
    (fs'.inode node).size ≤ maxFileSize ∧ (maxFileSize < offset + size → ∃ w ≤ size,
      (fs.inode node).size ≤ (fs'.inode node).size ∧
      ((fs'.inode node).size = (fs.inode node).size ∨ (fs'.inode node).size = offset + w) ∧
      Disk.Overwritten fs.disk fs'.disk (fs.inode node).dataBlockNums (fs'.inode node).dataBlockNums
        (fs'.inode node).size offset w buf)

/-- A write behind the end of the file does nothing. -/
theorem writeLimit_past (hopen : fs.Open fd node) (hmutex : (fs.inode node).iNodeMutex = false)
    (env : Env) (buf : Nat → UInt8) (hmax : (fs.inode node).size ≤ maxFileSize)
    (hoff : (fs.inode node).size < offset) : WriteLimit fs fd node env buf size offset := by
  refine ⟨_, _, writeToFile_past hopen hmutex env buf size hoff, ?_, fun _ => ⟨0, Nat.zero_le _, ?_⟩⟩
  · rw [inode_setInode_self]
    exact hmax
  · rw [inode_setInode_self]
    refine ⟨Nat.le_refl _, .inl rfl, fun i hi => ?_⟩
    rw [if_neg (by simp only at hi; omega)]
    rfl

/-- **`writeToFile` at the limit.** -/
theorem writeLimit_iff (hopen : fs.Open fd node) (hmutex : (fs.inode node).iNodeMutex = false)
    (h : Apart fs.disk (fs.inode node) l) (env : Env) (buf : Nat → UInt8) (hsize : size < 2 ^ 63)
    (henough : blockTotal (blockCount (min maxFileSize (offset + size))) ≤ l.length) :
    WriteLimit fs fd node env buf size offset ↔
      (offset ≤ (fs.inode node).size → WriteFits (fs.inode node).size size offset) := by
  have hlocked : Apart fs.disk { fs.inode node with iNodeMutex := true } l :=
    ⟨h.capacity, h.free, h.own, h.size⟩
  have hinode : ∀ s : Disk.WriteState,
      (fs.written fd node s).inode node = { s.iNode with iNodeMutex := false } := fun s => by
    rw [inode_written, Function.update_self]
  constructor
  · rintro ⟨ret, fs', hrun, hmax, hpast⟩ hoff
    rw [writeToFile_eq hopen hmutex env buf size hoff] at hrun
    by_contra hnot
    have hfails := fun s' => Disk.writeLoop_fails env.now buf env.response s' hlocked hsize hoff hnot
      henough
    generalize Disk.writeLoop env.now buf size (size + 1)
      ⟨{ fs.inode node with iNodeMutex := true }, fs.disk, env.response, 0, offset, 0⟩ = run at hrun hfails
    cases run with
    | error e => cases hrun
    | ok s =>
        cases hrun
        rw [hinode] at hmax hpast
        obtain hlarge | ⟨hmore, hsmall⟩ := hfails s rfl
        · exact absurd hmax (Nat.not_le.mpr hlarge)
        · obtain ⟨w, -, hge, -⟩ := hpast hmore
          exact absurd hge (Nat.not_le.mpr hsmall)
  · intro hfits
    by_cases hoff : offset ≤ (fs.inode node).size
    · obtain ⟨s, hloop, hmax, hpast⟩ := Disk.writeLoop_fits env.now buf env.response hlocked hsize hoff
        (hfits hoff) henough
      refine ⟨s.bytesWritten, fs.written fd node s, ?_, ?_, ?_⟩
      · rw [writeToFile_eq hopen hmutex env buf size hoff, hloop]
        rfl
      · rw [hinode]
        exact hmax
      · rw [hinode]
        exact hpast
    · exact writeLimit_past hopen hmutex env buf h.size (by omega)

/-- **The largest size of a file**, and the calls that keep to it. -/
theorem limit_iff (hopen : fs.Open fd node) (hmutex : (fs.inode node).iNodeMutex = false)
    (h : Apart fs.disk (fs.inode node) l) (env : Env) :
    (endNeeds (fs.inode node).size ≤ l.length → ∀ offset mode,
      BmapLaw fs.disk (fs.inode node) offset mode ↔
        ¬ (mode = .append ∧ offset = (fs.inode node).size ∧ (fs.inode node).size = maxFileSize)) ∧
    (∀ size, blockTotal (blockCount (min maxFileSize size)) ≤ l.length →
      (TruncateLimit fs.disk env (fs.inode node) size ↔
        size ≤ maxFileSize ∧ ((fs.inode node).size = maxFileSize → maxFileSize < size + 1024))) ∧
    ∀ buf size offset, size < 2 ^ 63 →
      blockTotal (blockCount (min maxFileSize (offset + size))) ≤ l.length →
      (WriteLimit fs fd node env buf size offset ↔
        (offset ≤ (fs.inode node).size → WriteFits (fs.inode node).size size offset)) :=
  ⟨fun hneeds offset mode => Disk.bmapLaw_iff h hneeds offset mode,
    fun size henough => Disk.truncateLimit_iff h env size henough,
    fun buf _ _ hsize henough => writeLimit_iff hopen hmutex h env buf hsize henough⟩

/-- A file of ten bytes, and a free list with room for a file of the largest size. -/
theorem exists_ten : ∃ (fs : FS) (l : List Nat), fs.Open 0 0 ∧ (fs.inode 0).iNodeMutex = false ∧
    (fs.inode 0).size = 10 ∧ Apart fs.disk (fs.inode 0) l ∧
    ∀ n, blockTotal (blockCount (min maxFileSize n)) ≤ l.length := by
  obtain ⟨l, hl, hlen⟩ := Apart.exists_oneBlockFile 10 (by decide) (by decide)
  obtain ⟨fs, hdisk, hnode, hopen⟩ := exists_open (Apart.oneBlockFile 10)
    AllocState.smallDisk.makeFileSystem.blockAlloc.2
  rw [← hdisk, ← hnode] at hl
  refine ⟨fs, l, hopen, by rw [hnode]; rfl, by rw [hnode]; rfl, hl, fun n => ?_⟩
  have hle := Disk.blockTotal_le (blockCount (min maxFileSize n))
  have hcount : blockCount (min maxFileSize n) ≤ 2113674 := by
    simp only [blockCount, maxFileSize]
    omega
  omega

/-- A small file, far from the limit. -/
theorem limit_small : ∃ fs : FS, (fs.inode 0).size = 10 ∧
    TruncateLimit fs.disk blankEnv (fs.inode 0) 20 ∧ WriteLimit fs 0 0 blankEnv (fun _ => 0x61) 5 10 := by
  obtain ⟨fs, l, hopen, hmutex, hsize, hl, henough⟩ := exists_ten
  obtain ⟨-, htrunc, hwrite⟩ := limit_iff hopen hmutex hl blankEnv
  refine ⟨fs, hsize, (htrunc 20 (henough _)).mpr ?_, (hwrite _ 5 10 (by decide) (henough _)).mpr ?_⟩
  · rw [hsize]
    decide
  · rw [hsize]
    intro _
    unfold WriteFits
    simp only [maxFileSize]
    omega

/-- A file of ten bytes, truncated to one byte more than the limit. -/
theorem truncate_past_limit : ¬ ∀ (fs : FS) (fd : Nat) (node : NodeId) (l : List Nat) (env : Env)
    (buf : Nat → UInt8) (size offset : Nat) (mode : BmapMode), fs.Open fd node →
      (fs.inode node).iNodeMutex = false → Apart fs.disk (fs.inode node) l → size < 2 ^ 63 →
      endNeeds (fs.inode node).size ≤ l.length →
      blockTotal (blockCount (min maxFileSize (offset + size))) ≤ l.length →
      BmapLaw fs.disk (fs.inode node) offset mode ∧ TruncateLimit fs.disk env (fs.inode node) size ∧
        WriteLimit fs fd node env buf size offset := by
  intro hall
  obtain ⟨fs, l, hopen, hmutex, hsize, hl, henough⟩ := exists_ten
  obtain ⟨-, ⟨y, d', hrun, -⟩, -⟩ := hall fs 0 0 l blankEnv (fun _ => 0) (maxFileSize + 1) 0 .read hopen
    hmutex hl (by decide) (by rw [hsize]; exact Nat.zero_le _) (henough _)
  rw [Disk.truncateINode_past _ _ hl.size (Nat.lt_succ_self _)] at hrun
  cases hrun

end FS

end Naofs
