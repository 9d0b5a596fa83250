import Naofs.FreeChain

/-!
# Naofs.Interleaving

Clients that allocate and free blocks at the same time.

`alloc.c` and `free.c` each have a static mutex of the same name, so that two calls of
`blockAlloc` exclude each other, and two of `blockFree`, but not one of each.  Both read
`FREE_LIST_BLOCK`, compute and write it back.  Here every `getDiskBlock` and every
`writeDiskBlock` is one step, and the steps of the two calls may alternate in any way.

`serializable_of_run` says that the calls have the effect of calls made one at a time as
long as neither kind reads the list between the read and the write of the other;
`freed_block_lost` is a run in which it does.
-/

namespace Naofs

/-! ## Orders of events of several clients -/

section SameOrder

variable {α ι : Type} [DecidableEq ι] {client : α → ι} {as bs cs as' bs' : List α}

/-- Every client sees its own events in the same order. -/
def SameOrder (client : α → ι) (as bs : List α) : Prop :=
  ∀ c, as.filter (client · = c) = bs.filter (client · = c)

theorem SameOrder.refl (as : List α) : SameOrder client as as := fun _ => rfl

theorem SameOrder.trans (h : SameOrder client as bs) (h' : SameOrder client bs cs) :
    SameOrder client as cs := fun c => (h c).trans (h' c)

/-- Orders are compared client by client, so lists can be put together. -/
theorem SameOrder.append (h : SameOrder client as bs) (h' : SameOrder client as' bs') :
    SameOrder client (as ++ as') (bs ++ bs') := fun c => by
  rw [List.filter_append, List.filter_append, h c, h' c]

/-- Events of different clients may change places. -/
theorem SameOrder.comm {a : α} (h : ∀ b ∈ bs, client b ≠ client a) :
    SameOrder client (bs ++ [a]) (a :: bs) := fun c => by
  by_cases hc : client a = c
  · have hnil : bs.filter (client · = c) = [] := by
      rw [List.filter_eq_nil_iff]
      intro b hb
      simpa using hc ▸ h b hb
    simp [hc, hnil]
  · simp [hc]

/-- Lists in which each client finds its own are rearrangements of each other. -/
theorem SameOrder.perm [DecidableEq α] (h : SameOrder client as bs) : as.Perm bs := by
  rw [List.perm_iff_count]
  intro a
  rw [← List.count_filter (p := fun b => decide (client b = client a)) (by simp),
    ← List.count_filter (l := bs) (p := fun b => decide (client b = client a)) (by simp), h]

end SameOrder

/-! ## The calls, step by step -/

/-- Where a client is in `blockAlloc`, with its mutex taken. -/
inductive AllocPc where
  | locked
  /-- The list block was read. -/
  | fetched (listData : DiskBlock)
  /-- The new list block is about to be written. -/
  | ready (newBlock : Nat) (listData : DiskBlock)
  | written (newBlock : Nat)

/-- Where a client is in `blockFree`, with its mutex taken. -/
inductive FreePc where
  | locked (blockNumber : Nat)
  | fetched (blockNumber : Nat) (listData : DiskBlock)
  | ready (blockNumber : Nat) (listData : DiskBlock)
  | written (blockNumber : Nat)

/-- What `blockAlloc` takes from a list block, and the list block it is about to write. -/
def allocFrom (d : Disk) (listData : DiskBlock) : Nat × DiskBlock :=
  let diskBlock := makeFreeDiskListBlock listData
  let counter := Disk.firstUsed diskBlock
  let newBlock := if counter < blockAddressesPerBlock then diskBlock.peek counter else 0
  (newBlock,
    if counter = blockAddressesPerBlock - 1 then d.load newBlock listData
    else writeFreeDiskListBlock (diskBlock.poke counter 0) listData)

/-- The list block that `blockFree` is about to write once the old one is in the freed block. -/
def spilled (blockNumber : Nat) (listData : DiskBlock) : DiskBlock :=
  writeFreeDiskListBlock
    (.tabulate fun i => if i = blockAddressesPerBlock - 1 then blockNumber else 0) listData

/-- The list block with one more slot used. -/
def filled (blockNumber : Nat) (listData : DiskBlock) : DiskBlock :=
  let diskBlock := makeFreeDiskListBlock listData
  let diskBlock :=
    match Disk.lastUnused diskBlock with
    | some i => diskBlock.poke i blockNumber
    | none => diskBlock
  writeFreeDiskListBlock diskBlock listData

/-- A call that has returned. -/
inductive Ended (ι : Type) where
  | alloc (client : ι) (value : Nat)
  | free (client : ι) (blockNumber : Nat)
deriving DecidableEq

def Ended.client {ι : Type} : Ended ι → ι
  | .alloc client _ => client
  | .free client _ => client

/-- The disk, the client that has the mutex of `alloc.c` and the one that has that of
`free.c`, the blocks that the clients hold, and the calls that have returned. -/
structure Clients (ι : Type) where
  disk : Disk
  alloc : Option (ι × AllocPc)
  free : Option (ι × FreePc)
  held : List (ι × Nat)
  history : List (Ended ι)

namespace Clients

variable {ι : Type}

/-! ## Serial orders -/

/-- The disk after a call, without its mark in the trace. -/
def effect (d : Disk) : Ended ι → Disk
  | .alloc _ _ => { d.blockAlloc.2 with trace := d.trace }
  | .free _ b => { d.blockFree b with trace := d.trace }

/-- The disk after calls made one at a time. -/
def serial (d : Disk) (order : List (Ended ι)) : Disk := order.foldl effect d

/-- The value of a call is the one it returns on the disk. -/
def Returns (d : Disk) : Ended ι → Prop
  | .alloc _ value => d.blockAlloc.1 = value
  | .free _ _ => True

/-- The values of the calls are those they return when they are made one at a time. -/
def Explained (d : Disk) (order : List (Ended ι)) : Prop :=
  ∀ before e after, order = before ++ e :: after → Returns (serial d before) e

/-- A call that ends next returns what it returns in the serial order. -/
theorem Explained.snoc {d : Disk} {order : List (Ended ι)} (h : Explained d order) {e : Ended ι}
    (he : Returns (serial d order) e) : Explained d (order ++ [e]) := by
  intro before f after heq
  obtain rfl | ⟨after', f', rfl⟩ := after.eq_nil_or_concat
  · obtain ⟨rfl, hf⟩ := List.append_inj' heq rfl
    cases hf
    exact he
  · rw [List.concat_eq_append, ← List.cons_append, ← List.append_assoc] at heq
    exact h before f after' (List.append_inj' heq rfl).1

/-- The call that ends last takes effect last. -/
theorem serial_snoc (d : Disk) (order : List (Ended ι)) (e : Ended ι) :
    serial d (order ++ [e]) = effect (serial d order) e := by
  simp [serial]

/-! ## Interleavings -/

variable [DecidableEq ι]

inductive Act (ι : Type) where
  /-- A client calls `blockAlloc` and gets the mutex. -/
  | blockAlloc (client : ι)
  /-- The client with the mutex of `alloc.c` goes on. -/
  | allocMove
  | blockFree (client : ι) (blockNumber : Nat)
  | freeMove

def step (st : Clients ι) : Act ι → Option (Clients ι)
  | .blockAlloc client =>
      -- a client makes one call at a time
      if st.alloc = none ∧ st.free.map (·.1) ≠ some client then
        some { st with alloc := some (client, .locked) }
      else none
  | .allocMove =>
      match st.alloc with
      | none => none
      | some (client, .locked) =>
          some { st with
            alloc := some (client, .fetched (st.disk.load freeListBlock st.disk.backend.junk)) }
      | some (client, .fetched listData) =>
          let (newBlock, listData) := allocFrom st.disk listData
          some { st with alloc := some (client, .ready newBlock listData) }
      | some (client, .ready newBlock listData) =>
          some { st with
            disk := st.disk.store freeListBlock listData
            alloc := some (client, .written newBlock) }
      | some (client, .written newBlock) =>
          some { st with
            alloc := none
            held := (client, newBlock) :: st.held
            history := st.history ++ [.alloc client newBlock] }
  | .blockFree client blockNumber =>
      if st.free = none ∧ st.alloc.map (·.1) ≠ some client ∧ (client, blockNumber) ∈ st.held then
        some { st with
          free := some (client, .locked blockNumber)
          held := st.held.erase (client, blockNumber) }
      else none
  | .freeMove =>
      match st.free with
      | none => none
      | some (client, .locked blockNumber) =>
          some { st with
            free := some (client,
              .fetched blockNumber (st.disk.load freeListBlock st.disk.backend.junk)) }
      | some (client, .fetched blockNumber listData) =>
          if (makeFreeDiskListBlock listData).peek 0 ≠ 0 then
            some { st with
              disk := st.disk.store blockNumber listData
              free := some (client, .ready blockNumber (spilled blockNumber listData)) }
          else
            some { st with free := some (client, .ready blockNumber (filled blockNumber listData)) }
      | some (client, .ready blockNumber listData) =>
          some { st with
            disk := st.disk.store freeListBlock listData
            free := some (client, .written blockNumber) }
      | some (client, .written blockNumber) =>
          some { st with
            free := none
            history := st.history ++ [.free client blockNumber] }

/-- The link of the list is there. -/
def Linked (st : Clients ι) : Prop := slot (st.disk.blocks freeListBlock) 127 ≠ 0

/-- No call is under way. -/
def Quiet (st : Clients ι) : Prop := st.alloc = none ∧ st.free = none

/-- `blockAlloc` has read the list and not yet written it. -/
def Allocating (st : Clients ι) : Prop :=
  match st.alloc with
  | some (_, .fetched _) | some (_, .ready _ _) => True
  | _ => False

/-- `blockFree` has read the list and not yet written it. -/
def Freeing (st : Clients ι) : Prop :=
  match st.free with
  | some (_, .fetched _ _) | some (_, .ready _ _) => True
  | _ => False

/-- The step does not read the list between the read and the write of the other call. -/
def Separate (st : Clients ι) : Act ι → Prop
  | .allocMove => st.alloc.map (·.2) = some .locked → ¬ st.Freeing
  | .freeMove => ∀ client b, st.free = some (client, .locked b) → ¬ st.Allocating
  | _ => True

def AnyStep (st st' : Clients ι) : Prop := ∃ act, st.step act = some st' ∧ st'.Linked

def SeparateStep (st st' : Clients ι) : Prop :=
  ∃ act, st.Separate act ∧ st.step act = some st' ∧ st'.Linked

/-- The blocks of the list and those that the clients hold, at the beginning. -/
structure Starts (st : Clients ι) (l : List Nat) : Prop where
  quiet : st.Quiet
  history : st.history = []
  stored : freeListBlock < st.disk.backend.capacity
  chain : FreeBlocks st.disk l
  nodup : (l ++ st.held.map Prod.snd).Nodup
  inside : ∀ b ∈ l ++ st.held.map Prod.snd, b ≠ 0 ∧ b ≠ freeListBlock ∧ b < st.disk.backend.capacity
  linked : st.Linked

/-- The calls that have returned are explained by a serial order, no block is handed out
twice and none is lost. -/
def Serializable (st₀ : Clients ι) (l : List Nat) (st : Clients ι) : Prop :=
  (∃ order, order.Perm st.history ∧ SameOrder Ended.client order st.history ∧
    Explained st₀.disk order ∧ st.disk = serial st₀.disk order) ∧
  ∃ l', FreeBlocks st.disk l' ∧
    (l' ++ st.held.map Prod.snd).Perm (l ++ st₀.held.map Prod.snd) ∧
    (l' ++ st.held.map Prod.snd).Nodup

/-! ## The disk while calls are under way -/

/-- The calls that have written the list and not yet returned. -/
def allocLanded : Option (ι × AllocPc) → List (Ended ι)
  | some (client, .written value) => [.alloc client value]
  | _ => []

def freeLanded : Option (ι × FreePc) → List (Ended ι)
  | some (client, .written b) => [.free client b]
  | _ => []

/-- The blocks that are neither on the list nor held by a client. -/
def allocTransit : Option (ι × AllocPc) → List Nat
  | some (_, .written value) => [value]
  | _ => []

def freeTransit : Option (ι × FreePc) → List Nat
  | some (_, .locked b) | some (_, .fetched b _) | some (_, .ready b _) => [b]
  | _ => []

def owned (st : Clients ι) : List Nat :=
  st.held.map Prod.snd ++ (allocTransit st.alloc ++ freeTransit st.free)

/-- What `blockAlloc` has in hand on a disk `s`. -/
def AllocMatches (s : Disk) : Option (ι × AllocPc) → Prop
  | some (_, .fetched listData) => listData = s.load freeListBlock s.backend.junk
  | some (client, .ready value listData) => s.blockAlloc.1 = value ∧
      effect s (.alloc client value) = s.store freeListBlock listData
  | _ => True

/-- What `blockFree` has in hand on a disk `s`, and what it has made of the disk. -/
def FreeMatches (s d : Disk) : Option (ι × FreePc) → Prop
  | some (_, .fetched _ listData) => d = s ∧ listData = s.load freeListBlock s.backend.junk
  | some (client, .ready b listData) => d.store freeListBlock listData = effect s (.free client b) ∧
      d.blocks freeListBlock = s.blocks freeListBlock
  | _ => d = s

section Matches

variable {s d : Disk} {alloc : Option (ι × AllocPc)} {free : Option (ι × FreePc)}

omit [DecidableEq ι]

/-- Storing a block leaves the trace alone. -/
theorem retrace_log (d : Disk) (n : Nat) (b : DiskBlock) (e : Event) :
    { (d.store n b).log e with trace := d.trace } = d.store n b := by
  have htrace := d.trace_store n b
  cases hd : d.store n b with
  | mk backend blocks trace =>
      rw [hd] at htrace
      cases htrace
      rfl

/-- `blockAlloc` as the two steps of a client without a step of another in between. -/
theorem blockAlloc_eq (d : Disk) : d.blockAlloc =
    ((allocFrom d (d.load freeListBlock d.backend.junk)).1,
      (d.store freeListBlock (allocFrom d (d.load freeListBlock d.backend.junk)).2).log
        (.alloc (allocFrom d (d.load freeListBlock d.backend.junk)).1)) := by
  rw [Disk.blockAlloc, allocFrom]

/-- `blockFree` with a full list block: the list block is stored in the freed one. -/
theorem blockFree_eq_spill (d : Disk) {b : Nat}
    (h0 : (makeFreeDiskListBlock (d.load freeListBlock d.backend.junk)).peek 0 ≠ 0) : d.blockFree b =
    ((d.store b (d.load freeListBlock d.backend.junk)).store freeListBlock
      (spilled b (d.load freeListBlock d.backend.junk))).log (.free b (decide (d.Reusable b))) := by
  rw [Disk.blockFree, Disk.freeInto, if_pos h0, spilled]

/-- `blockFree` with room in the list block: the number is put there. -/
theorem blockFree_eq_fill (d : Disk) {b : Nat}
    (h0 : (makeFreeDiskListBlock (d.load freeListBlock d.backend.junk)).peek 0 = 0) : d.blockFree b =
    (d.store freeListBlock (filled b (d.load freeListBlock d.backend.junk))).log
      (.free b (decide (d.Reusable b))) := by
  cases hlast : Disk.lastUnused (makeFreeDiskListBlock (d.load freeListBlock d.backend.junk)) with
  | none => simp only [Disk.blockFree, Disk.freeInto, if_neg (not_not.mpr h0), filled, hlast]
  | some i => simp only [Disk.blockFree, Disk.freeInto, if_neg (not_not.mpr h0), filled, hlast]

/-- `blockAlloc` on a disk that nobody else writes to. -/
theorem alloc_atomic (s : Disk) (client : ι) {listData : DiskBlock}
    (h : listData = s.load freeListBlock s.backend.junk) :
    AllocMatches s (some (client, .ready (allocFrom s listData).1 (allocFrom s listData).2)) := by
  subst h
  constructor
  · rw [blockAlloc_eq]
  · rw [effect, blockAlloc_eq]
    exact retrace_log _ _ _ _

/-- `blockFree` on a disk that nobody else writes to. -/
theorem free_atomic_spill (s : Disk) (client : ι) {b : Nat} {listData : DiskBlock} (hb : b ≠ freeListBlock)
    (h : listData = s.load freeListBlock s.backend.junk)
    (h0 : (makeFreeDiskListBlock listData).peek 0 ≠ 0) :
    FreeMatches s (s.store b listData) (some (client, .ready b (spilled b listData))) := by
  subst h
  refine ⟨?_, s.blocks_store_of_ne (Ne.symm hb) _⟩
  rw [effect, blockFree_eq_spill s h0, ← s.trace_store b (s.load freeListBlock s.backend.junk)]
  exact (retrace_log _ _ _ _).symm

/-- With room in the list block, storing what is in hand makes the disk that of a whole call. -/
theorem free_atomic_fill (s : Disk) (client : ι) {b : Nat} {listData : DiskBlock}
    (h : listData = s.load freeListBlock s.backend.junk)
    (h0 : (makeFreeDiskListBlock listData).peek 0 = 0) :
    FreeMatches s s (some (client, .ready b (filled b listData))) := by
  subst h
  refine ⟨?_, rfl⟩
  rw [effect, blockFree_eq_fill s h0]
  exact (retrace_log _ _ _ _).symm

/-- Outside of the two windows the disk is what the finished calls have made of it. -/
theorem FreeMatches.eq {st : Clients ι} (h : FreeMatches s st.disk st.free) (hfree : ¬ st.Freeing) :
    st.disk = s := by
  unfold FreeMatches at h
  unfold Freeing at hfree
  split at h
  · next heq => simp [heq] at hfree
  · next heq => simp [heq] at hfree
  · exact h

/-- Outside of the window of `blockFree` nothing is in hand, and the disk is what it should be. -/
theorem freeMatches_of_not {st : Clients ι} (s : Disk) (h : ¬ st.Freeing) :
    FreeMatches s s st.free := by
  unfold FreeMatches
  unfold Freeing at h
  split
  · next heq => simp [heq] at h
  · next heq => simp [heq] at h
  · rfl

/-- Outside of the window of `blockAlloc` nothing is in hand. -/
theorem allocMatches_of_not {st : Clients ι} (s : Disk) (h : ¬ st.Allocating) :
    AllocMatches s st.alloc := by
  unfold AllocMatches
  unfold Allocating at h
  split
  · next heq => simp [heq] at h
  · next heq => simp [heq] at h
  · trivial

/-- Calls do not change where blocks are stored. -/
theorem backend_serial (d : Disk) (order : List (Ended ι)) : (serial d order).backend = d.backend := by
  induction order generalizing d with
  | nil => rfl
  | cons e order ih =>
      change (serial (effect d e) order).backend = _
      rw [ih]
      cases e with
      | alloc c v => exact d.backend_blockAlloc
      | free c b => exact d.backend_blockFree b

end Matches

/-- The finished calls, in the order in which they wrote the list, explain the disk. -/
structure Inv (st₀ : Clients ι) (l : List Nat) (order : List (Ended ι)) (st : Clients ι) : Prop where
  program : SameOrder Ended.client order (st.history ++ (allocLanded st.alloc ++ freeLanded st.free))
  explained : Explained st₀.disk order
  alloc : AllocMatches (serial st₀.disk order) st.alloc
  free : FreeMatches (serial st₀.disk order) st.disk st.free
  /-- The two windows do not overlap. -/
  apart : ¬ (st.Allocating ∧ st.Freeing)
  distinct : ∀ p ∈ st.alloc, ∀ q ∈ st.free, p.1 ≠ q.1
  split : ∃ l', FreeBlocks (serial st₀.disk order) l' ∧
    (l' ++ st.owned).Perm (l ++ st₀.held.map Prod.snd)
  linked : st.Linked

section Steps

variable {st₀ st st' : Clients ι} {l : List Nat} {order : List (Ended ι)}

/-- The blocks outside of the list. -/
theorem Inv.lists (h : Inv st₀ l order st) (h₀ : Starts st₀ l) :
    ∃ l', FreeBlocks (serial st₀.disk order) l' ∧
      (l' ++ st.owned).Perm (l ++ st₀.held.map Prod.snd) ∧ (l' ++ st.owned).Nodup ∧
      ∀ b ∈ l' ++ st.owned, b ≠ 0 ∧ b ≠ freeListBlock ∧ b < st₀.disk.backend.capacity := by
  obtain ⟨l', hl, hperm⟩ := h.split
  exact ⟨l', hl, hperm, hperm.nodup_iff.mpr h₀.nodup, fun b hb => h₀.inside b (hperm.mem_iff.mp hb)⟩

/-- The blocks outside of the list may be counted in any order. -/
theorem Inv.split_perm (h : Inv st₀ l order st) (hp : st'.owned.Perm st.owned) :
    ∃ l', FreeBlocks (serial st₀.disk order) l' ∧
      (l' ++ st'.owned).Perm (l ++ st₀.held.map Prod.snd) := by
  obtain ⟨l', hl, hperm⟩ := h.split
  exact ⟨l', hl, (hp.append_left l').trans hperm⟩

/-- A client calls `blockAlloc`. -/
theorem Inv.step_blockAlloc (h : Inv st₀ l order st) {c : ι}
    (hstep : st.step (.blockAlloc c) = some st') (hlinked : st'.Linked) : Inv st₀ l order st' := by
  simp only [step] at hstep
  split at hstep
  · next hidle =>
      cases hstep
      obtain ⟨halloc, hfree⟩ := hidle
      refine ⟨?_, h.explained, trivial, h.free, fun hcon => hcon.1, ?_, ?_, hlinked⟩
      · simpa [halloc, allocLanded] using h.program
      · intro p hp q hq hpq
        cases hp
        rw [Option.mem_def.mp hq] at hfree
        exact hfree (congrArg some hpq.symm)
      · simpa [owned, halloc, allocTransit] using h.split
  · cases hstep

/-- A client makes one call at a time. -/
theorem Inv.alloc_distinct (h : Inv st₀ l order st) {c : ι} {pc : AllocPc}
    (halloc : st.alloc = some (c, pc)) : ∀ q ∈ st.free, c ≠ q.1 := h.distinct _ halloc

theorem Inv.free_distinct (h : Inv st₀ l order st) {c : ι} {pc : FreePc}
    (hfree : st.free = some (c, pc)) : ∀ p ∈ st.alloc, p.1 ≠ c := fun p hp => h.distinct p hp _ hfree

/-- `blockAlloc` goes on to its write. -/
theorem Inv.alloc_moves (h : Inv st₀ l order st) {c : ι} {pc pc' : AllocPc}
    (halloc : st.alloc = some (c, pc))
    (hlanded : allocLanded (some (c, pc')) = allocLanded (some (c, pc)))
    (htransit : allocTransit (some (c, pc')) = allocTransit (some (c, pc))) (hnot : ¬ st.Freeing)
    (hmatch : AllocMatches (serial st₀.disk order) (some (c, pc'))) (hlinked : st.Linked) :
    Inv st₀ l order { st with alloc := some (c, pc') } where
  program := by
    have hprogram := h.program
    rwa [halloc, ← hlanded] at hprogram
  explained := h.explained
  alloc := hmatch
  free := h.free
  apart := fun hcon => hnot hcon.2
  distinct := fun p hp q hq => by
    cases hp
    exact h.alloc_distinct halloc q hq
  split := h.split_perm (by rw [owned, owned, halloc, htransit])
  linked := hlinked

/-- `blockFree` goes on to its write. -/
theorem Inv.free_moves (h : Inv st₀ l order st) {c : ι} {pc pc' : FreePc} {d : Disk}
    (hfree : st.free = some (c, pc))
    (hlanded : freeLanded (some (c, pc')) = freeLanded (some (c, pc)))
    (htransit : freeTransit (some (c, pc')) = freeTransit (some (c, pc))) (hnot : ¬ st.Allocating)
    (hmatch : FreeMatches (serial st₀.disk order) d (some (c, pc')))
    (hlinked : slot (d.blocks freeListBlock) 127 ≠ 0) :
    Inv st₀ l order { st with disk := d, free := some (c, pc') } where
  program := by
    have hprogram := h.program
    rwa [hfree, ← hlanded] at hprogram
  explained := h.explained
  alloc := h.alloc
  free := hmatch
  apart := fun hcon => hnot hcon.1
  distinct := fun p hp q hq => by
    cases hq
    exact h.free_distinct hfree p hp
  split := h.split_perm (by rw [owned, owned, hfree, htransit])
  linked := hlinked

/-- `blockAlloc` writes the list: the call has happened. -/
theorem Inv.alloc_lands (h : Inv st₀ l order st) (h₀ : Starts st₀ l) {c : ι} {v : Nat}
    {listData : DiskBlock} (halloc : st.alloc = some (c, .ready v listData))
    (hlinked : slot ((st.disk.store freeListBlock listData).blocks freeListBlock) 127 ≠ 0) :
    Inv st₀ l (order ++ [.alloc c v])
      { st with disk := st.disk.store freeListBlock listData, alloc := some (c, .written v) } := by
  have hwindow : st.Allocating := by simp [Allocating, halloc]
  have hnot : ¬ st.Freeing := fun hcon => h.apart ⟨hwindow, hcon⟩
  have hdisk := h.free.eq hnot
  have hmatch := h.alloc
  rw [halloc] at hmatch
  obtain ⟨hv, heffect⟩ := hmatch
  have hserial : serial st₀.disk (order ++ [.alloc c v]) = st.disk.store freeListBlock listData := by
    rw [serial_snoc, heffect, hdisk]
  refine ⟨?_, h.explained.snoc hv, trivial, ?_, fun hcon => hcon.1, ?_, ?_, hlinked⟩
  · -- the calls of `blockFree` that have not returned are of other clients
    have hothers : ∀ e ∈ freeLanded st.free, e.client ≠ (Ended.alloc c v).client := by
      intro e he
      unfold freeLanded at he
      split at he
      · next c' b heq =>
          cases List.mem_singleton.mp he
          exact (h.distinct _ halloc _ heq).symm
      · cases he
    have hprogram := h.program
    rw [halloc] at hprogram
    exact (hprogram.append (.refl [.alloc c v])).trans
      (List.append_assoc _ _ _ ▸ SameOrder.append (.refl st.history) (.comm hothers))
  · rw [hserial]
    exact freeMatches_of_not _ hnot
  · intro p hp q hq
    cases hp
    exact h.alloc_distinct halloc q hq
  · obtain ⟨l', hl, hperm, -, hin⟩ := h.lists h₀
    have hcap : freeListBlock < (serial st₀.disk order).backend.capacity := by
      rw [backend_serial]
      exact h₀.stored
    cases l' with
    | nil =>
        have hlink := h.linked
        rw [Linked, hdisk] at hlink
        exact absurd (hl.nil_iff.mp rfl 127 (by omega)) hlink
    | cons x l' =>
        have h2 : 2 ∉ x :: l' := fun hcon => (hin 2 (List.mem_append_left _ hcon)).2.1 rfl
        obtain ⟨hx, hl'⟩ := Disk.blockAlloc_cons hcap hl h2
        cases hv.symm.trans hx
        refine ⟨l', ?_, ?_⟩
        · rw [serial_snoc]
          exact hl'.frame rfl rfl fun _ _ => rfl
        · refine List.Perm.trans ?_ hperm
          have hmiddle : (l' ++ st.held.map Prod.snd ++ v :: freeTransit st.free).Perm
              (v :: (l' ++ st.held.map Prod.snd ++ freeTransit st.free)) := List.perm_middle
          simpa [owned, halloc, allocTransit] using hmiddle

/-- The client with the mutex of `alloc.c` goes on. -/
theorem Inv.step_allocMove (h : Inv st₀ l order st) (h₀ : Starts st₀ l)
    (hsep : st.Separate .allocMove) (hstep : st.step .allocMove = some st') (hlinked : st'.Linked) :
    ∃ order', Inv st₀ l order' st' := by
  simp only [step] at hstep
  split at hstep
  · cases hstep
  · -- the list is read while `blockFree` is not about to write it
    next c halloc =>
      cases hstep
      have hnot : ¬ st.Freeing := hsep (by simp [halloc])
      refine ⟨order, h.alloc_moves halloc rfl rfl hnot ?_ hlinked⟩
      rw [AllocMatches, ← h.free.eq hnot]
  · next c listData halloc =>
      cases hstep
      have hnot : ¬ st.Freeing := fun hcon => h.apart ⟨by simp [Allocating, halloc], hcon⟩
      have hmatch := h.alloc
      rw [halloc] at hmatch
      refine ⟨order, h.alloc_moves halloc rfl rfl hnot ?_ hlinked⟩
      rw [h.free.eq hnot]
      exact alloc_atomic _ c hmatch
  · next c v listData halloc =>
      cases hstep
      exact ⟨_, h.alloc_lands h₀ halloc hlinked⟩
  · next c v halloc =>
      cases hstep
      refine ⟨order, ?_, h.explained, trivial, h.free, fun hcon => hcon.1, by simp, ?_, hlinked⟩
      · simpa [halloc, allocLanded] using h.program
      · refine h.split_perm ?_
        have hmiddle : (st.held.map Prod.snd ++ v :: freeTransit st.free).Perm
            (v :: (st.held.map Prod.snd ++ freeTransit st.free)) := List.perm_middle
        simpa [owned, halloc, allocTransit] using hmiddle.symm

/-- A client calls `blockFree` with a block that it holds. -/
theorem Inv.step_blockFree (h : Inv st₀ l order st) {c : ι} {b : Nat}
    (hstep : st.step (.blockFree c b) = some st') (hlinked : st'.Linked) : Inv st₀ l order st' := by
  simp only [step] at hstep
  split at hstep
  · next hidle =>
      cases hstep
      obtain ⟨hfree, halloc, hheld⟩ := hidle
      have hdisk : st.disk = serial st₀.disk order := h.free.eq (by simp [Freeing, hfree])
      refine ⟨?_, h.explained, h.alloc, hdisk, fun hcon => hcon.2, ?_, ?_, hlinked⟩
      · simpa [hfree, freeLanded] using h.program
      · intro p hp q hq hpq
        cases hq
        rw [Option.mem_def.mp hp] at halloc
        exact halloc (congrArg some hpq)
      · refine h.split_perm ?_
        have hback := ((List.perm_cons_erase hheld).map Prod.snd).symm
        have hfront : ((st.held.erase (c, b)).map Prod.snd ++ (allocTransit st.alloc ++ [b])).Perm
            (b :: (st.held.erase (c, b)).map Prod.snd ++ allocTransit st.alloc) := by
          rw [← List.append_assoc]
          exact List.perm_append_singleton _ _
        simpa [owned, hfree, freeTransit] using hfront.trans (hback.append_right _)
  · cases hstep

/-- `blockFree` writes the list: the call has happened. -/
theorem Inv.free_lands (h : Inv st₀ l order st) (h₀ : Starts st₀ l) {c : ι} {b : Nat}
    {listData : DiskBlock} (hfree : st.free = some (c, .ready b listData))
    (hlinked : slot ((st.disk.store freeListBlock listData).blocks freeListBlock) 127 ≠ 0) :
    Inv st₀ l (order ++ [.free c b])
      { st with disk := st.disk.store freeListBlock listData, free := some (c, .written b) } := by
  have hnot : ¬ st.Allocating := fun hcon => h.apart ⟨hcon, by simp [Freeing, hfree]⟩
  have hmatch := h.free
  rw [hfree] at hmatch
  obtain ⟨heffect, hlist⟩ := hmatch
  refine ⟨?_, h.explained.snoc trivial, allocMatches_of_not _ hnot, ?_, fun hcon => hcon.2, ?_, ?_,
    hlinked⟩
  · have hprogram := h.program.append (.refl [.free c b])
    simpa [hfree, freeLanded] using hprogram
  · exact heffect.trans (serial_snoc _ _ _).symm
  · intro p hp q hq
    cases hq
    exact h.free_distinct hfree p hp
  · obtain ⟨l', hl, hperm, hnodup, hin⟩ := h.lists h₀
    have hcap : freeListBlock < (serial st₀.disk order).backend.capacity := by
      rw [backend_serial]
      exact h₀.stored
    have hb : b ∈ st.owned := by simp [owned, hfree, freeTransit]
    obtain ⟨hb0, hb2, hbc⟩ := hin b (List.mem_append_right _ hb)
    have hbl : b ∉ l' := fun hcon => (List.nodup_append.mp hnodup).2.2 b hcon b hb rfl
    have h2 : 2 ∉ l' := fun hcon => (hin 2 (List.mem_append_left _ hcon)).2.1 rfl
    have hlink := h.linked
    rw [Linked, hlist] at hlink
    obtain ⟨l'', hp, hl''⟩ := Disk.blockFree_perm hcap hl hb0 hb2 (by rw [backend_serial]; exact hbc)
      hbl h2 (.inr (.inl hlink))
    refine ⟨l'', ?_, ?_⟩
    · rw [serial_snoc]
      exact hl''.frame rfl rfl fun _ _ => rfl
    · refine ((hp.append_right _).trans ?_).trans hperm
      simpa [owned, hfree, freeTransit] using
        (List.perm_append_singleton b (l' ++ (st.held.map Prod.snd ++ allocTransit st.alloc))).symm

/-- The client with the mutex of `free.c` goes on. -/
theorem Inv.step_freeMove (h : Inv st₀ l order st) (h₀ : Starts st₀ l)
    (hsep : st.Separate .freeMove) (hstep : st.step .freeMove = some st') (hlinked : st'.Linked) :
    ∃ order', Inv st₀ l order' st' := by
  simp only [step] at hstep
  split at hstep
  · cases hstep
  · -- the list is read while `blockAlloc` is not about to write it
    next c b hfree =>
      cases hstep
      have hdisk : st.disk = serial st₀.disk order := h.free.eq (by simp [Freeing, hfree])
      exact ⟨order, h.free_moves hfree rfl rfl (hsep c b hfree) ⟨hdisk, by rw [hdisk]⟩ hlinked⟩
  · next c b listData hfree =>
      have hnot : ¬ st.Allocating := fun hcon => h.apart ⟨hcon, by simp [Freeing, hfree]⟩
      have hmatch := h.free
      rw [hfree] at hmatch
      obtain ⟨hdisk, hdata⟩ := hmatch
      obtain ⟨l', -, -, -, hin⟩ := h.lists h₀
      have hb2 := (hin b (List.mem_append_right _ (by simp [owned, hfree, freeTransit]))).2.1
      split at hstep
      · next h0 =>
          cases hstep
          refine ⟨order, h.free_moves hfree rfl rfl hnot ?_ hlinked⟩
          rw [hdisk]
          exact free_atomic_spill _ c hb2 hdata h0
      · next h0 =>
          cases hstep
          refine ⟨order, h.free_moves hfree rfl rfl hnot ?_ hlinked⟩
          rw [hdisk]
          exact free_atomic_fill _ c hdata (by simpa using h0)
  · next c b listData hfree =>
      cases hstep
      exact ⟨_, h.free_lands h₀ hfree hlinked⟩
  · next c b hfree =>
      cases hstep
      have hdisk : st.disk = serial st₀.disk order := h.free.eq (by simp [Freeing, hfree])
      refine ⟨order, ?_, h.explained, h.alloc, hdisk, fun hcon => hcon.2, by simp, ?_, hlinked⟩
      · -- a call of `blockAlloc` that has not returned is of another client
        have hothers : ∀ e ∈ allocLanded st.alloc, e.client ≠ (Ended.free c b).client := by
          intro e he
          unfold allocLanded at he
          split at he
          · next c' v heq =>
              cases List.mem_singleton.mp he
              exact h.distinct _ heq _ hfree
          · cases he
        have hprogram := h.program
        rw [hfree] at hprogram
        have hswap := hprogram.trans (.append (.refl st.history) (.comm hothers))
        simpa [freeLanded] using hswap
      · simpa [owned, hfree, freeTransit] using h.split

/-- No call has begun. -/
theorem Inv.initial (h₀ : Starts st₀ l) : Inv st₀ l [] st₀ := by
  obtain ⟨halloc, hfree⟩ := h₀.quiet
  have hnot : ¬ st₀.Allocating := by simp [Allocating, halloc]
  refine ⟨?_, fun before e after heq => by simp at heq, allocMatches_of_not _ hnot, ?_,
    fun hcon => hnot hcon.1, by simp [halloc], ⟨l, h₀.chain, ?_⟩, h₀.linked⟩
  · simpa [h₀.history, halloc, hfree, allocLanded, freeLanded] using SameOrder.refl []
  · exact freeMatches_of_not _ (by simp [Freeing, hfree])
  · simp [owned, halloc, hfree, allocTransit, freeTransit]

/-- One step by cases: a call begins, moves, or ends and is put last in the order. -/
theorem Inv.step (h : Inv st₀ l order st) (h₀ : Starts st₀ l) (hstep : SeparateStep st st') :
    ∃ order', Inv st₀ l order' st' := by
  obtain ⟨act, hsep, hstep, hlinked⟩ := hstep
  cases act with
  | blockAlloc c => exact ⟨order, h.step_blockAlloc hstep hlinked⟩
  | allocMove => exact h.step_allocMove h₀ hsep hstep hlinked
  | blockFree c b => exact ⟨order, h.step_blockFree hstep hlinked⟩
  | freeMove => exact h.step_freeMove h₀ hsep hstep hlinked

/-- **Serializability** of runs in which neither call reads the list between the read and
the write of the other. -/
theorem serializable_of_run (h₀ : Starts st₀ l)
    (hrun : Relation.ReflTransGen SeparateStep st₀ st) (hquiet : st.Quiet) :
    Serializable st₀ l st := by
  obtain ⟨order, h⟩ : ∃ order, Inv st₀ l order st := by
    clear hquiet
    induction hrun with
    | refl => exact ⟨[], .initial h₀⟩
    | tail _ hstep ih =>
        obtain ⟨order, ih⟩ := ih
        exact ih.step h₀ hstep
  obtain ⟨halloc, hfree⟩ := hquiet
  have hdisk : st.disk = serial st₀.disk order := h.free.eq (by simp [Freeing, hfree])
  have hprogram : SameOrder Ended.client order st.history := by
    simpa [halloc, hfree, allocLanded, freeLanded] using h.program
  obtain ⟨l', hl, hperm, hnodup, -⟩ := h.lists h₀
  simp only [owned, halloc, hfree, allocTransit, freeTransit, List.append_nil] at hperm hnodup
  exact ⟨⟨order, hprogram.perm, hprogram, h.explained, hdisk⟩, l', hdisk ▸ hl, hperm, hnodup⟩

end Steps

/-! ## Two clients -/

section TwoClients

/-- A device of eight blocks with blocks 6 and 5 on the free list. -/
def twoFree : Disk :=
  ⟨⟨true, 8, Backend.eight_lt, .tabulate fun _ => 0⟩,
    fun n => writeFreeDiskListBlock
      (.tabulate fun i => if n = 2 ∧ i = 126 then 6 else if n = 2 ∧ i = 127 then 5 else 0)
      (.tabulate fun _ => 0), []⟩

/-- The list block has two numbers: the free block 6, and the link to 5. -/
theorem slot_twoFree (n : Nat) {i : Nat} (hi : i < 128) :
    slot (twoFree.blocks n) i = if n = 2 ∧ i = 126 then 6 else if n = 2 ∧ i = 127 then 5 else 0 := by
  have := slot_writeFreeDiskListBlock
    (.tabulate fun i => if n = 2 ∧ i = 126 then 6 else if n = 2 ∧ i = 127 then 5 else 0)
    (.tabulate fun _ => 0) hi
  rw [Buffer.peek_tabulate, if_pos hi] at this
  refine this.trans ?_
  split
  · rfl
  · split <;> rfl

theorem capacity_twoFree : twoFree.backend.capacity = 8 := by simp [twoFree, Backend.capacity]

theorem load_twoFree : twoFree.load freeListBlock twoFree.backend.junk = twoFree.blocks 2 :=
  twoFree.load_of_lt (by rw [capacity_twoFree]; decide) _

/-- They are the free list of that disk. -/
theorem freeBlocks_twoFree : FreeBlocks twoFree [6, 5] := by
  have hnil : Stack twoFree (twoFree.blocks 5) [] := by
    have hfront : front (twoFree.blocks 5) = [] := front_eq_nil.mpr fun i hi => by
      rw [slot_twoFree 5 (by omega), if_neg (by omega), if_neg (by omega)]
    exact hfront ▸ Stack.last (by rw [slot_twoFree 5 (by omega), if_neg (by omega), if_neg (by omega)])
  have h127 : slot (twoFree.blocks 2) 127 = 5 := by
    rw [slot_twoFree 2 (by omega), if_neg (by omega), if_pos ⟨rfl, rfl⟩]
  have hfront : front (twoFree.blocks 2) = [6] := by
    rw [front_eq, usedSlots_succ, usedSlots_eq_nil.mpr fun i hi => by
      rw [slot_twoFree 2 (by omega), if_neg (by omega), if_neg (by omega)]]
    have h126 : slot (twoFree.blocks 2) 126 = 6 := by
      rw [slot_twoFree 2 (by omega), if_pos ⟨rfl, rfl⟩]
    rw [h126]
    rfl
  have hlink := Stack.link (d := twoFree) (b := twoFree.blocks 2) (l := [])
    (by rw [h127]; decide) (by rw [h127, capacity_twoFree]; decide) (by rw [h127]; exact hnil)
  rwa [hfront, h127] at hlink

/-- One client is about to allocate a block, the other holds block 7. -/
def twoClients : Clients Bool := ⟨twoFree, none, none, [(true, 7)], []⟩

/-- Two clients on that disk, of which neither has begun. -/
theorem starts_twoClients : Starts twoClients [6, 5] where
  quiet := ⟨rfl, rfl⟩
  history := rfl
  stored := by
    change 2 < twoFree.backend.capacity
    rw [capacity_twoFree]
    decide
  chain := freeBlocks_twoFree
  nodup := by decide
  inside := by
    change ∀ b ∈ [6, 5] ++ [7], b ≠ 0 ∧ b ≠ 2 ∧ b < twoFree.backend.capacity
    rw [capacity_twoFree]
    decide
  linked := by
    change slot (twoFree.blocks 2) 127 ≠ 0
    rw [slot_twoFree 2 (by omega)]
    decide

/-- The disk once `blockFree` has put block 7 on a list whose first slot is unused. -/
theorem slot_filled {d : Disk} {listData : DiskBlock} (hcap : 2 < d.backend.capacity)
    (hload : listData = d.load freeListBlock d.backend.junk) (h0 : slot (d.blocks 2) 0 = 0)
    (h127 : slot (d.blocks 2) 127 ≠ 0) :
    slot ((d.store freeListBlock (filled 7 listData)).blocks freeListBlock) 127 =
      slot (d.blocks 2) 127 := by
  subst hload
  obtain ⟨c, hc, hcz, -, hslot⟩ := Disk.slot_blockFree_fill (d := d) (b := 7) hcap (by decide) h0
  have h := hslot 127 (by omega)
  rw [if_neg (by rintro rfl; exact h127 hcz), blockFree_eq_fill d (by
    rw [d.load_of_lt hcap]
    simpa using h0)] at h
  exact h

/-- The list block without block 6. -/
def oneLeft : DiskBlock := (allocFrom twoFree (twoFree.blocks 2)).2

/-- Block 6 is taken from the list, whatever has become of the disk since it was read. -/
theorem allocFrom_twoFree (d : Disk) : allocFrom d (twoFree.blocks 2) = (6, oneLeft) := by
  have hfirst : Disk.firstUsed (makeFreeDiskListBlock (twoFree.blocks 2)) = 126 := by
    refine Disk.firstUsed_eq (by omega) ?_ fun i hi => ?_
    · rw [peek_makeFreeDiskListBlock, slot_twoFree 2 (by omega)]
      decide
    · rw [peek_makeFreeDiskListBlock, slot_twoFree 2 (by omega), if_neg (by omega), if_neg (by omega)]
  have h126 : (makeFreeDiskListBlock (twoFree.blocks 2)).peek 126 = 6 := by
    rw [peek_makeFreeDiskListBlock, slot_twoFree 2 (by omega), if_pos ⟨rfl, rfl⟩]
  have hslot : (126 : Nat) ≠ blockAddressesPerBlock - 1 := by decide
  have hcount : 126 < blockAddressesPerBlock := by decide
  simp only [oneLeft, allocFrom, hfirst, h126, if_pos hcount, if_neg hslot]

/-- The list block after one allocation. -/
theorem slot_oneLeft {i : Nat} (hi : i < 128) : slot oneLeft i = if i = 127 then 5 else 0 := by
  have hcap : 2 < twoFree.backend.capacity := by rw [capacity_twoFree]; decide
  obtain ⟨-, hslot⟩ := Disk.slot_blockAlloc (d := twoFree) (c := 126) hcap (by omega)
    (by rw [slot_twoFree 2 (by omega)]; decide)
    fun i hi => by rw [slot_twoFree 2 (by omega), if_neg (by omega), if_neg (by omega)]
  have h := hslot i hi
  rw [blockAlloc_eq, load_twoFree, allocFrom_twoFree, Disk.blocks_log,
    twoFree.blocks_store_self hcap, slot_twoFree 2 hi] at h
  rw [h]
  by_cases h126 : i = 126
  · simp [h126]
  · simp [h126]

/-- The link is read from the list block on the disk. -/
theorem linked_of_disk {st : Clients Bool} {d : Disk} (h : slot (d.blocks freeListBlock) 127 ≠ 0)
    (hd : st.disk = d) : st.Linked := by
  rw [Linked, hd]
  exact h

/-- With room in the list block, the next step of `blockFree` puts the number there. -/
theorem step_filled {st : Clients Bool} {c : Bool} {b : Nat} {listData : DiskBlock}
    (hfree : st.free = some (c, .fetched b listData))
    (h0 : (makeFreeDiskListBlock listData).peek 0 = 0) :
    st.step .freeMove = some { st with free := some (c, .ready b (filled b listData)) } := by
  simp only [step, hfree]
  rw [if_neg (by simpa using h0)]

theorem link_twoFree : slot (twoFree.blocks freeListBlock) 127 ≠ 0 := by
  rw [slot_twoFree 2 (by omega)]
  decide

/-- The link is still there after one allocation. -/
theorem link_oneLeft {d : Disk} (hcap : 2 < d.backend.capacity) :
    slot ((d.store freeListBlock oneLeft).blocks freeListBlock) 127 ≠ 0 := by
  rw [d.blocks_store_self hcap, slot_oneLeft (by omega)]
  decide

/-- Block 6 is allocated while a call that frees block 7 has not read the list yet. -/
theorem serializable_two : ∃ st, Relation.ReflTransGen SeparateStep twoClients st ∧ st.Quiet ∧
    st.history = [.free true 7, .alloc false 6] ∧ Serializable twoClients [6, 5] st := by
  have hcap : 2 < twoFree.backend.capacity := by rw [capacity_twoFree]; decide
  obtain ⟨d₁, hd₁⟩ : ∃ d₁, d₁ = twoFree.store freeListBlock oneLeft := ⟨_, rfl⟩
  have hcap₁ : 2 < d₁.backend.capacity := by
    rw [hd₁, Disk.backend_store]
    exact hcap
  have hblock : d₁.blocks 2 = oneLeft := by rw [hd₁, twoFree.blocks_store_self hcap]
  have hload : d₁.load freeListBlock d₁.backend.junk = oneLeft := by rw [d₁.load_of_lt hcap₁, hblock]
  have h0 : slot oneLeft 0 = 0 := by rw [slot_oneLeft (by omega)]; rfl
  have hlink₁ : slot (d₁.blocks freeListBlock) 127 ≠ 0 := by
    rw [hd₁]
    exact link_oneLeft hcap
  obtain ⟨d₂, hd₂⟩ : ∃ d₂, d₂ = d₁.store freeListBlock (filled 7 oneLeft) := ⟨_, rfl⟩
  have hlink₂ : slot (d₂.blocks freeListBlock) 127 ≠ 0 := by
    rw [hd₂, slot_filled hcap₁ hload.symm (by rw [hblock]; exact h0) hlink₁]
    exact hlink₁
  have hrun : Relation.ReflTransGen SeparateStep twoClients ⟨d₂, none, none, [(false, 6)],
      [.free true 7, .alloc false 6]⟩ := by
    refine .head (b := ⟨twoFree, none, some (true, .locked 7), [], []⟩)
      ⟨.blockFree true 7, trivial, rfl, linked_of_disk link_twoFree rfl⟩ ?_
    refine .head (b := ⟨twoFree, some (false, .locked), some (true, .locked 7), [], []⟩)
      ⟨.blockAlloc false, trivial, rfl, linked_of_disk link_twoFree rfl⟩ ?_
    -- the allocation, up to its return
    refine .head (b := ⟨twoFree, some (false, .fetched (twoFree.blocks 2)), some (true, .locked 7), [],
      []⟩) ⟨.allocMove, by simp [Separate, Freeing], by simp only [step, load_twoFree],
        linked_of_disk link_twoFree rfl⟩ ?_
    refine .head (b := ⟨twoFree, some (false, .ready 6 oneLeft), some (true, .locked 7), [], []⟩)
      ⟨.allocMove, by simp [Separate], by simp only [step, allocFrom_twoFree],
        linked_of_disk link_twoFree rfl⟩ ?_
    refine .head (b := ⟨d₁, some (false, .written 6), some (true, .locked 7), [], []⟩)
      ⟨.allocMove, by simp [Separate], by rw [hd₁]; rfl, linked_of_disk hlink₁ rfl⟩ ?_
    -- block 7 is freed
    refine .head (b := ⟨d₁, some (false, .written 6), some (true, .fetched 7 oneLeft), [], []⟩)
      ⟨.freeMove, by simp [Separate, Allocating], by simp only [step, hload],
        linked_of_disk hlink₁ rfl⟩ ?_
    refine .head (b := ⟨d₁, some (false, .written 6), some (true, .ready 7 (filled 7 oneLeft)), [], []⟩)
      ⟨.freeMove, by simp [Separate], step_filled rfl (by simpa using h0),
        linked_of_disk hlink₁ rfl⟩ ?_
    refine .head (b := ⟨d₂, some (false, .written 6), some (true, .written 7), [], []⟩)
      ⟨.freeMove, by simp [Separate], by rw [hd₂]; rfl, linked_of_disk hlink₂ rfl⟩ ?_
    refine .head (b := ⟨d₂, some (false, .written 6), none, [], [.free true 7]⟩)
      ⟨.freeMove, by simp [Separate], rfl, linked_of_disk hlink₂ rfl⟩ ?_
    exact .single ⟨.allocMove, by simp [Separate], rfl, linked_of_disk hlink₂ rfl⟩
  exact ⟨_, hrun, ⟨rfl, rfl⟩, rfl, serializable_of_run starts_twoClients hrun ⟨rfl, rfl⟩⟩

/-- Block 7 is freed between the read and the write of an allocation, and is lost. -/
theorem freed_block_lost : ¬ ∀ (ι : Type) [DecidableEq ι] (st₀ st : Clients ι) (l : List Nat),
    Starts st₀ l → Relation.ReflTransGen AnyStep st₀ st → st.Quiet → Serializable st₀ l st := by
  intro hall
  have hcap : 2 < twoFree.backend.capacity := by rw [capacity_twoFree]; decide
  have h0 : slot (twoFree.blocks 2) 0 = 0 := by
    rw [slot_twoFree 2 (by omega)]
    decide
  obtain ⟨d₁, hd₁⟩ : ∃ d₁, d₁ = twoFree.store freeListBlock (filled 7 (twoFree.blocks 2)) := ⟨_, rfl⟩
  have hcap₁ : 2 < d₁.backend.capacity := by
    rw [hd₁, Disk.backend_store]
    exact hcap
  have hlink₁ : slot (d₁.blocks freeListBlock) 127 ≠ 0 := by
    rw [hd₁, slot_filled hcap load_twoFree.symm h0 link_twoFree]
    exact link_twoFree
  have hrun : Relation.ReflTransGen AnyStep twoClients ⟨d₁.store freeListBlock oneLeft, none, none,
      [(false, 6)], [.free true 7, .alloc false 6]⟩ := by
    -- the allocation reads the list
    refine .head (b := ⟨twoFree, some (false, .locked), none, [(true, 7)], []⟩)
      ⟨.blockAlloc false, rfl, linked_of_disk link_twoFree rfl⟩ ?_
    refine .head (b := ⟨twoFree, some (false, .fetched (twoFree.blocks 2)), none, [(true, 7)], []⟩)
      ⟨.allocMove, by simp only [step, load_twoFree], linked_of_disk link_twoFree rfl⟩ ?_
    -- block 7 is freed
    refine .head (b := ⟨twoFree, some (false, .fetched (twoFree.blocks 2)), some (true, .locked 7), [],
      []⟩) ⟨.blockFree true 7, rfl, linked_of_disk link_twoFree rfl⟩ ?_
    refine .head (b := ⟨twoFree, some (false, .fetched (twoFree.blocks 2)),
      some (true, .fetched 7 (twoFree.blocks 2)), [], []⟩)
      ⟨.freeMove, by simp only [step, load_twoFree], linked_of_disk link_twoFree rfl⟩ ?_
    refine .head (b := ⟨twoFree, some (false, .fetched (twoFree.blocks 2)),
      some (true, .ready 7 (filled 7 (twoFree.blocks 2))), [], []⟩)
      ⟨.freeMove, step_filled rfl (by simpa using h0), linked_of_disk link_twoFree rfl⟩ ?_
    refine .head (b := ⟨d₁, some (false, .fetched (twoFree.blocks 2)), some (true, .written 7), [], []⟩)
      ⟨.freeMove, by rw [hd₁]; rfl, linked_of_disk hlink₁ rfl⟩ ?_
    refine .head (b := ⟨d₁, some (false, .fetched (twoFree.blocks 2)), none, [], [.free true 7]⟩)
      ⟨.freeMove, rfl, linked_of_disk hlink₁ rfl⟩ ?_
    -- the allocation writes what it has made of the old list
    refine .head (b := ⟨d₁, some (false, .ready 6 oneLeft), none, [], [.free true 7]⟩)
      ⟨.allocMove, by simp only [step, allocFrom_twoFree], linked_of_disk hlink₁ rfl⟩ ?_
    refine .head (b := ⟨d₁.store freeListBlock oneLeft, some (false, .written 6), none, [],
      [.free true 7]⟩) ⟨.allocMove, rfl, linked_of_disk (link_oneLeft hcap₁) rfl⟩ ?_
    exact .single ⟨.allocMove, rfl, linked_of_disk (link_oneLeft hcap₁) rfl⟩
  obtain ⟨-, l, hl, hperm, -⟩ := hall Bool _ _ _ starts_twoClients hrun ⟨rfl, rfl⟩
  -- only block 5 is left on the list
  have hfive : FreeBlocks (d₁.store freeListBlock oneLeft) [5] := by
    obtain ⟨-, hpop⟩ := Disk.blockAlloc_cons hcap freeBlocks_twoFree (by decide)
    rw [blockAlloc_eq, load_twoFree, allocFrom_twoFree] at hpop
    refine hpop.frame (by simp [hd₁]) ?_ fun x hx => ?_
    · rw [d₁.blocks_store_self hcap₁, Disk.blocks_log, twoFree.blocks_store_self hcap]
    · have hx2 : x ≠ 2 := by
        rintro rfl
        exact absurd hx (by decide)
      rw [d₁.blocks_store_of_ne hx2, hd₁, twoFree.blocks_store_of_ne hx2, Disk.blocks_log,
        twoFree.blocks_store_of_ne hx2]
  cases hl.unique hfive
  have h7 := hperm.mem_iff.mpr (by decide : 7 ∈ [6, 5] ++ [7])
  simp at h7

end TwoClients

end Clients

end Naofs
