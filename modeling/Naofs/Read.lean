import Naofs.Laws

/-!
# Naofs.Read

Reading a file (`read.c`): `readBytes` and `readFile`.

The loop of `readBytes` measures each piece against `lastByte`, the end of the read
counted from the beginning of the file, while `bytesRead` counts from the offset.  The
last piece is too long by the offset, as far as its block goes: `readLaw_iff` says
when that does no harm.
-/

namespace Naofs

namespace Disk

open InCoreINode (wrapSize)

/-- The value of an `ssize_t`. -/
def toSSize (z : Int) : Int := z.bmod (2 ^ 64)

/-- What the loop of `readBytes` works on. -/
structure ReadState where
  buf : Nat → UInt8
  bmapResp : BmapResponse
  bytesRead : Nat
  /-- An `ssize_t`. -/
  bytesLeft : Int
  offset : Nat
  /-- The bytes added to the offset of the file table entry. -/
  moved : Nat

/-- `readInBlock`, with the buffer from `buf` on given by its position. -/
def readInBlock (d : Disk) (bmapResp : BmapResponse) (buf : Nat → UInt8) (pos size : Nat) :
    Nat → UInt8 :=
  fun i =>
    if pos ≤ i ∧ i < pos + size then
      (d.load bmapResp.blockNumber d.backend.junk).peek (bmapResp.byteOffsetInBlock + (i - pos))
    else buf i

def readLoop (d : Disk) (iNode : InCoreINode) (lastByte : Nat) : (fuel : Nat) → ReadState →
    Except Fault ReadState
  | 0, _ => .error .diverges
  | fuel + 1, s =>
      if s.bytesLeft > 0 then do
        let (retValue, bmapResp, iNode, d) ← d.bmap iNode s.offset s.bmapResp .read
        if retValue = -1 then .ok { s with bmapResp }
        else
          let bytesToReadFromBlock :=
            min bmapResp.bytesLeftInBlock (wrapSize (lastByte - s.bytesRead))
          readLoop d iNode lastByte fuel
            { buf := d.readInBlock bmapResp s.buf s.bytesRead bytesToReadFromBlock
              bmapResp
              bytesRead := wrapSize (s.bytesRead + bytesToReadFromBlock)
              bytesLeft := toSSize (s.bytesLeft - bytesToReadFromBlock)
              offset := wrapSize (s.offset + bytesToReadFromBlock)
              moved := s.moved + bytesToReadFromBlock }
      else .ok s

/-- `readBytes` of `size` bytes at `offset`, both kept as their 64 bits. -/
def readBytes (d : Disk) (env : Env) (iNode : InCoreINode) (buf : Nat → UInt8) (size offset : Nat) :
    Except Fault ReadState :=
  let bytesLeft := min (toSSize size) (toSSize (toSSize iNode.size - toSSize offset))
  let lastByte := min iNode.size (wrapSize (size + offset))
  d.readLoop iNode lastByte (bytesLeft.toNat + 1) ⟨buf, env.response, 0, bytesLeft, offset, 0⟩

/-! ## The rounds -/

section Read

variable {d : Disk} {x : InCoreINode} {offset k : Nat}

theorem toSSize_of_lt {z : Int} (h0 : -9223372036854775808 ≤ z) (h : z < 9223372036854775808) :
    toSSize z = z := by
  apply Int.bmod_eq_of_le <;> omega

/-- The number of bytes of a round that starts after `bytesRead` bytes. -/
def readPiece (offset k bytesRead : Nat) : Nat :=
  min (1024 - (offset + bytesRead) % 1024) (offset + k - bytesRead)

/-- One round inside the file. -/
theorem readLoop_round (h : WellFormed d x) (hk : offset + k ≤ x.size) {s : ReadState}
    (hlt : s.bytesRead < k) (hleft : s.bytesLeft = (k - s.bytesRead : Nat))
    (hoff : s.offset = offset + s.bytesRead) :
    ∃ s' : ReadState, (∀ fuel, d.readLoop x (offset + k) (fuel + 1) s =
        d.readLoop x (offset + k) fuel s') ∧
      s'.bytesRead = s.bytesRead + readPiece offset k s.bytesRead ∧
      s'.bytesLeft = (k : Int) - s'.bytesRead ∧ s'.offset = offset + s'.bytesRead ∧
      ∀ i, s'.buf i = if s.bytesRead ≤ i ∧ i < s.bytesRead + readPiece offset k s.bytesRead then
        d.byteAt x.dataBlockNums (offset + i) else s.buf i := by
  obtain ⟨buf, resp, b, left, off, moved⟩ := s
  simp only at hlt hleft hoff ⊢
  subst hleft hoff
  have hsize := h.size
  simp only [maxFileSize] at hsize
  obtain ⟨p, hp⟩ : ∃ p, p = readPiece offset k b := ⟨_, rfl⟩
  have hp' := hp
  unfold readPiece at hp'
  have hq : (offset + b) / 1024 < blockCount x.size := by
    unfold blockCount
    omega
  have hindirect : ∀ b ∈ d.fileBlocks x.dataBlockNums (blockCount x.size), b < d.backend.capacity :=
    fun b hb => (h.own.data b hb).2.2
  have hbmap : d.bmap x (offset + b) resp .read =
      .ok (0, createBMapResponse (d.fileBlock x.dataBlockNums ((offset + b) / 1024))
        ((offset + b) % 1024), x, d) :=
    bmap_inside (.inl (by omega)) h.blockCount_le fun b hb => hindirect b (indirectBlocks_subset hb)
  have hwhere : ∀ i, b ≤ i → i < b + p → (offset + i) / 1024 = (offset + b) / 1024 ∧
      (offset + i) % 1024 = (offset + b) % 1024 + (i - b) := by omega
  have hleft : toSSize (((k - b : Nat) : Int) - p) = (k : Int) - (b + p : Nat) := by
    rw [toSSize_of_lt (by omega) (by omega)]
    omega
  have hrest : wrapSize (((offset + k : Nat) : Int) - b) = offset + k - b := by
    rw [InCoreINode.wrapSize_of_lt (by omega) (by omega)]
    omega
  have hread : wrapSize ((b : Int) + p) = b + p := by
    rw [← Int.natCast_add, InCoreINode.wrapSize_natCast (by omega)]
  have hnext : wrapSize (((offset + b : Nat) : Int) + p) = offset + (b + p) := by
    rw [← Int.natCast_add, InCoreINode.wrapSize_natCast (by omega), Nat.add_assoc]
  refine ⟨⟨d.readInBlock (createBMapResponse (d.fileBlock x.dataBlockNums ((offset + b) / 1024))
      ((offset + b) % 1024)) buf b p,
    createBMapResponse (d.fileBlock x.dataBlockNums ((offset + b) / 1024)) ((offset + b) % 1024),
    b + p, (k : Int) - (b + p : Nat), offset + (b + p), moved + p⟩, fun fuel => ?_, hp ▸ rfl, rfl, rfl,
    fun i => ?_⟩
  · have hpos : ((k - b : Nat) : Int) > 0 := by omega
    simp only [readLoop, if_pos hpos, hbmap, bind, Except.bind, createBMapResponse, blockSize, hrest,
      ← hp', hleft, hread, hnext]
    rfl
  · simp only [readInBlock, createBMapResponse, ← hp]
    by_cases hi : b ≤ i ∧ i < b + p
    · obtain ⟨hdiv, hmod⟩ := hwhere i hi.1 hi.2
      simp only [byteAt, blockSize]
      rw [if_pos hi, if_pos hi, hdiv, hmod, d.load_of_lt (hindirect _ (mem_fileBlocks hq))]
    · rw [if_neg hi, if_neg hi]

/-- The loop reads what is asked for, or more when the last piece is too long. -/
theorem readLoop_spec (h : WellFormed d x) (hk : offset + k ≤ x.size) : ∀ (fuel : Nat) (s : ReadState),
    k - s.bytesRead < fuel → s.bytesRead ≤ k → s.bytesLeft = (k : Int) - s.bytesRead →
    s.offset = offset + s.bytesRead →
    ∃ s', d.readLoop x (offset + k) fuel s = .ok s' ∧
      (offset = 0 ∨ (offset + k) % 1024 = 0 → s'.bytesRead = k ∧
        ∀ i, s'.buf i = if s.bytesRead ≤ i ∧ i < k then d.byteAt x.dataBlockNums (offset + i)
          else s.buf i) ∧
      (¬ (offset = 0 ∨ (offset + k) % 1024 = 0) → s.bytesRead < k → k < s'.bytesRead) := by
  intro fuel
  induction fuel with
  | zero => omega
  | succ fuel ih =>
      intro s hfuel hle hleft hoff
      by_cases hlt : s.bytesRead < k
      · obtain ⟨s₁, hstep, hread, hleft₁, hoff₁, hbuf⟩ := readLoop_round h hk hlt (by omega) hoff
        have hp : readPiece offset k s.bytesRead = min (1024 - (offset + s.bytesRead) % 1024)
          (offset + k - s.bytesRead) := rfl
        by_cases hmore : s₁.bytesRead ≤ k
        · obtain ⟨s', hrun, hgood, hbad⟩ := ih s₁ (by omega) hmore hleft₁ hoff₁
          refine ⟨s', (hstep fuel).trans hrun, fun hfit => ?_, fun hfit _ => hbad hfit (by omega)⟩
          obtain ⟨hcount, hbytes⟩ := hgood hfit
          refine ⟨hcount, fun i => ?_⟩
          rw [hbytes i]
          by_cases hnew : s₁.bytesRead ≤ i ∧ i < k
          · rw [if_pos hnew, if_pos (by omega)]
          · rw [if_neg hnew, hbuf i]
            by_cases hold : s.bytesRead ≤ i ∧ i < s.bytesRead + readPiece offset k s.bytesRead
            · rw [if_pos hold, if_pos (by omega)]
            · rw [if_neg hold, if_neg (by omega)]
        · -- the piece was too long, and nothing is left
          refine ⟨s₁, ?_, fun hfit => by omega, fun _ _ => by omega⟩
          rw [hstep]
          cases fuel with
          | zero => omega
          | succ fuel => rw [readLoop, if_neg (by omega)]
      · refine ⟨s, ?_, fun _ => ⟨by omega, fun i => ?_⟩, fun _ hcon => absurd hcon hlt⟩
        · rw [readLoop, if_neg (by omega)]
        · rw [if_neg (by omega)]

/-- Nothing to read, or nothing there. -/
theorem readLoop_none {lastByte fuel : Nat} {s : ReadState}
    (h : s.bytesLeft ≤ 0 ∨ x.size ≤ s.offset) :
    ∃ resp, d.readLoop x lastByte (fuel + 1) s = .ok { s with bmapResp := resp } := by
  by_cases hleft : s.bytesLeft > 0
  · have hbmap : d.bmap x s.offset s.bmapResp .read = .ok (-1, s.bmapResp, x, d) := by
      rw [bmap, if_pos ⟨by omega, .inl rfl⟩]
    refine ⟨s.bmapResp, ?_⟩
    rw [readLoop, if_pos hleft, hbmap]
    rfl
  · exact ⟨s.bmapResp, by rw [readLoop, if_neg hleft]⟩

/-! ## The read law -/

/-- What a read of `size` bytes at `offset` should return and store. -/
def ReadLaw (d : Disk) (env : Env) (x : InCoreINode) (size offset : Nat) : Prop :=
  ∀ buf, ∃ s, d.readBytes env x buf size offset = .ok s ∧
    s.bytesRead = min size (x.size - offset) ∧
    (∀ i < min size (x.size - offset), d.readByte x (offset + i) = .ok (some (s.buf i))) ∧
    ∀ i, size ≤ i → s.buf i = buf i

/-- A read of a number of bytes that an `ssize_t` holds, from inside the file. -/
theorem readBytes_spec (h : WellFormed d x) (env : Env) (buf : Nat → UInt8) {size : Nat}
    (hsize : size < 9223372036854775808) (hin : offset < x.size) (hk : k = min size (x.size - offset))
    (hpos : 0 < k) :
    ∃ s, d.readBytes env x buf size offset = .ok s ∧
      (offset = 0 ∨ (offset + k) % 1024 = 0 → s.bytesRead = k ∧
        ∀ i, s.buf i = if i < k then d.byteAt x.dataBlockNums (offset + i) else buf i) ∧
      (¬ (offset = 0 ∨ (offset + k) % 1024 = 0) → k < s.bytesRead) := by
  have hmax := h.size
  simp only [maxFileSize] at hmax
  have hleft : min (toSSize size) (toSSize (toSSize x.size - toSSize offset)) = k := by
    rw [toSSize_of_lt (z := size) (by omega) (by omega), toSSize_of_lt (z := x.size) (by omega) (by omega),
      toSSize_of_lt (z := offset) (by omega) (by omega), toSSize_of_lt (by omega) (by omega)]
    omega
  have hlast : min x.size (wrapSize ((size : Int) + offset)) = offset + k := by
    rw [← Int.natCast_add, InCoreINode.wrapSize_natCast (by omega)]
    omega
  have hend : offset + k ≤ x.size := by omega
  obtain ⟨s, hrun, hgood, hbad⟩ := readLoop_spec h hend (k + 1)
    ⟨buf, env.response, 0, k, offset, 0⟩ (by simp only; omega) (Nat.zero_le _) (by simp) rfl
  refine ⟨s, ?_, fun hfit => ?_, fun hfit => hbad hfit hpos⟩
  · simp only [readBytes, hleft, hlast, Int.toNat_natCast]
    exact hrun
  · simpa using hgood hfit

/-- A read that stores nothing. -/
theorem readBytes_none (d : Disk) (env : Env) (buf : Nat → UInt8) {size : Nat}
    (h : toSSize size ≤ 0 ∨ x.size ≤ offset) :
    ∃ s, d.readBytes env x buf size offset = .ok s ∧ s.bytesRead = 0 ∧ s.buf = buf := by
  have hnone : min (toSSize size) (toSSize (toSSize x.size - toSSize offset)) ≤ 0 ∨
      x.size ≤ offset := h.imp_left (Int.le_trans (Int.min_le_left _ _))
  obtain ⟨resp, hrun⟩ := readLoop_none (s := ⟨buf, env.response, 0,
    min (toSSize size) (toSSize (toSSize x.size - toSSize offset)), offset, 0⟩) hnone
  exact ⟨_, hrun, rfl, rfl⟩

theorem toSSize_nonpos {n : Nat} (h : n = 0 ∨ 9223372036854775808 ≤ n) (hn : n < 2 ^ 64) :
    toSSize n ≤ 0 := by
  rw [toSSize, Int.bmod_def]
  split <;> omega

/-- **The read law** holds where there is nothing to read, and otherwise for reads
that start at the beginning of the file or end on a block boundary and whose size an
`ssize_t` holds. -/
theorem readLaw_iff (h : WellFormed d x) (env : Env) {size : Nat} (hsize : size < 2 ^ 64)
    (hoff : offset < 2 ^ 64) :
    ReadLaw d env x size offset ↔ x.size ≤ offset ∨ size = 0 ∨
      size < 9223372036854775808 ∧ (offset = 0 ∨ min x.size (offset + size) % 1024 = 0) := by
  by_cases hnone : x.size ≤ offset ∨ size = 0
  · refine iff_of_true (fun buf => ?_) (hnone.imp_right .inl)
    obtain ⟨s, hrun, hcount, hbuf⟩ := readBytes_none d env buf
      (hnone.symm.imp_left fun h0 => toSSize_nonpos (.inl h0) hsize)
    exact ⟨s, hrun, by omega, by omega, fun i _ => congrFun hbuf i⟩
  obtain ⟨hin, hpos⟩ := not_or.mp hnone
  obtain ⟨k, hk⟩ : ∃ k, k = min size (x.size - offset) := ⟨_, rfl⟩
  have hk0 : 0 < k := by omega
  have hend : min x.size (offset + size) = offset + k := by omega
  rw [hend]
  by_cases hbig : size < 9223372036854775808
  · constructor
    · intro hlaw
      obtain ⟨s, hrun, hcount, -⟩ := hlaw fun _ => 0
      obtain ⟨s', hrun', -, hbad⟩ := readBytes_spec h env (fun _ => 0) hbig (by omega) hk hk0
      cases hrun.symm.trans hrun'
      refine .inr (.inr ⟨hbig, ?_⟩)
      by_contra hcon
      exact absurd (hbad hcon) (by omega)
    · intro hfit buf
      obtain ⟨s, hrun, hgood, -⟩ := readBytes_spec h env buf hbig (by omega) hk hk0
      obtain ⟨hcount, hbytes⟩ := hgood
        (((hfit.resolve_left hin).resolve_left hpos).2)
      refine ⟨s, hrun, hk ▸ hcount, fun i hi => ?_, fun i hi => ?_⟩
      · rw [h.readByte, hbytes i, if_pos (by omega), if_pos (by omega)]
      · rw [hbytes i, if_neg (by omega)]
  · -- the size is negative as an `ssize_t`
    refine iff_of_false (fun hlaw => ?_) fun hcon => hbig ((hcon.resolve_left hin).resolve_left hpos).1
    obtain ⟨s, hrun, hcount, -⟩ := hlaw fun _ => 0
    have hneg : toSSize size ≤ 0 ∨ x.size ≤ offset :=
      .inl (toSSize_nonpos (.inr (by omega)) hsize)
    obtain ⟨s', hrun', hzero, -⟩ := readBytes_none d env (fun _ => 0) hneg
    cases hrun.symm.trans hrun'
    omega

/-- All ten bytes of a file. -/
theorem readLaw_ten : ∃ d, ReadLaw d FS.blankEnv (Apart.oneBlockFile 10) 20 0 := by
  obtain ⟨l, hl, -⟩ := Apart.exists_oneBlockFile 10 (by decide) (by decide)
  exact ⟨_, (readLaw_iff hl.wellFormed _ (by decide) (by decide)).mpr
    (.inr (.inr ⟨by decide, .inl rfl⟩))⟩

/-- Two bytes at offset 5: seven are stored. -/
theorem read_past_request : ¬ ∀ (d : Disk) (env : Env) (x : InCoreINode) (size offset : Nat),
    WellFormed d x → size < 2 ^ 64 → offset < 2 ^ 64 → ReadLaw d env x size offset := by
  intro hall
  obtain ⟨l, hl, -⟩ := Apart.exists_oneBlockFile 10 (by decide) (by decide)
  obtain ⟨s, hrun, hcount, -⟩ := hall _ FS.blankEnv _ 2 5 hl.wellFormed (by decide) (by decide)
    fun _ => 0
  obtain ⟨s', hrun', -, hbad⟩ := readBytes_spec (k := 2) hl.wellFormed FS.blankEnv (fun _ => 0)
    (show 2 < 9223372036854775808 by decide) (show 5 < (Apart.oneBlockFile 10).size by decide) rfl
    (by decide)
  cases hrun.symm.trans hrun'
  have hmore := hbad (by decide)
  rw [hcount] at hmore
  exact absurd hmore (by decide)

end Read

end Disk

/-! ## `readFile` -/

namespace FS

open InCoreINode (toCInt)

/-- `-EISDIR`. -/
@[simp] abbrev eIsdir : Int := -21

/-- `O_RDONLY`. -/
@[simp] abbrev oRdonly : Int := 0

/-- `validateFile`; the test of the flags is a logical conjunction with `O_RDONLY`. -/
def validateFile (fs : FS) (file : FileTableEntry) (node : NodeId) : Int :=
  if (fs.inode node).type = .directory then eIsdir
  else if file.flags ≠ 0 ∧ oRdonly ≠ 0 then 0
  else eBadf

/-- `readFile`, which returns the number of bytes read as an `int` and the buffer.  The
result of `validateFile` is not looked at. -/
def readFile (env : Env) (fh : Nat) (buf : Nat → UInt8) (size offset : Nat) :
    NaoM (Int × (Nat → UInt8)) :=
  fun fs => do
    let (retVal, entry) ← fs.getFileDescriptor (toCInt fh)
    match entry with
    | none => .ok ((retVal, buf), fs)
    | some fd =>
        match (fs.fileTable fd).inode with
        | none => .error .nullPointer
        | some node =>
            let fs ← fs.lock node
            let _ := fs.validateFile (fs.fileTable fd) node
            let s ← fs.disk.readBytes env (fs.inode node) buf size offset
            let entry := fs.fileTable fd
            let fs := { fs with
              fileTable := Function.update fs.fileTable fd
                { entry with offset := InCoreINode.wrapSize (entry.offset + s.moved) } }
            .ok ((toCInt s.bytesRead, s.buf), fs.unlock node)

end FS

end Naofs
