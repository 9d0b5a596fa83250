import Naofs.Serving

/-!
# Naofs.Mounting

The state after a mount.

A file system that has just been made is an empty volume (`serving_new`).  One that was in
use has the files that it had, once its descriptors are closed (`Serving.remount`): an
inode that nobody refers to is not changed in the cache.
-/

namespace Naofs

/-- A volume with an empty root. -/
def emptyVolume : Volume := ⟨fun _ => ⟨rootMode, 0, 0, .entries []⟩, fun _ => none⟩

namespace FS

section Mount

variable {getHash : Nat → Nat → Fin inodeHashSize} {d : Disk} {fs fs' : FS} {l : List Nat}

theorem disk_mount (hmount : mount getHash d = .ok fs) : fs.disk = d := by
  obtain ⟨c, -, heq⟩ := bind_eq_ok.mp hmount
  cases heq
  rfl

/-- No descriptor is open. -/
theorem nodeAt_mount (hmount : mount getHash d = .ok fs) (fd : Nat) : fs.nodeAt fd = none := by
  obtain ⟨c, -, heq⟩ := bind_eq_ok.mp hmount
  cases heq
  exact if_neg fun h => nomatch h.2

theorem openNodes_mount (hmount : mount getHash d = .ok fs) : fs.openNodes = [] := by
  rw [openNodes]
  exact List.filterMap_eq_nil_iff.mpr fun fd _ => nodeAt_mount hmount fd

theorem invalid_mount (hmount : mount getHash d = .ok fs) (fd : Nat) :
    (fs.fileTable fd).validEntry = false := by
  obtain ⟨c, -, heq⟩ := bind_eq_ok.mp hmount
  cases heq
  rfl

/-- **A new file system** is an empty volume, and all of the data region is free. -/
theorem serving_new (hdev : d.backend.isDiskAvailable) (hmount : mount getHash d.makeFileSystem = .ok fs) :
    Serving fs (List.range' 16388 (31457280 - 16388)) ∧ emptyVolume.Agrees fs.volume := by
  obtain ⟨stale, hroot⟩ := d.diskINode_makeFileSystem_root
  have hdisk := disk_mount hmount
  obtain ⟨hstocked, hseen⟩ := stocked_mount (HolderState.numbered_makeFileSystem d) hmount hdisk
    (by rw [hroot]; rfl) (fun n h0 hn => d.diskINode_makeFileSystem h0 hn)
    (fun i hi => d.listed_makeFileSystem hi) (d.freeBlocks_makeFileSystem hdev)
    (Disk.own_makeFileSystem d hdev) fun b hb => (List.mem_range'_1.mp hb).1
  have hnil := openNodes_mount hmount
  have hmode : (fs.seen 0).fileMode = rootMode := by rw [hseen, hroot]
  have hdir := newVolume_directory hmode
  have hfile : fs.file 0 = ⟨rootMode, 0, 0, .entries []⟩ := by
    have hempty : fs.disk.entries (fs.seen 0).bare = [] := by
      rw [Disk.entries, Disk.entryCount, show (fs.seen 0).bare.size = 0 by rw [hseen, hroot]; rfl]
      rfl
    rw [file, Disk.fileOf, hempty, if_pos (show sIsdir (fs.seen 0).fileMode from hdir), hseen, hroot]
    rfl
  have hreached : ∀ n, emptyVolume.tree.Reached n → n = 0 := by
    intro n hn
    cases hn with
    | refl => rfl
    | tail _ hnext =>
        obtain ⟨-, name, hname⟩ := hnext
        cases hname
  have hagrees : emptyVolume.Agrees fs.volume := by
    refine ⟨fun n hn => ?_, funext fun fd => ?_⟩
    · rw [hreached n hn]
      exact hfile
    · change (fs.nodeAt fd).map _ = none
      rw [nodeAt_mount hmount fd]
      rfl
  have honly : ∀ n, fs.tree.Reached n → n = 0 := fun n hn =>
    hreached n (hagrees.reached.mp (reached_volume.mpr hn))
  have hnames : ∀ name, fs.tree.entry 0 name = none := by
    intro name
    rw [← entry_volume hdir, Volume.entry_congr (v := emptyVolume) hfile]
    rfl
  refine ⟨⟨by rw [hnil]; exact hstocked, hdir, fun n hn => ?_, fun fd _ hvalid => ?_,
    fun x hx => ?_, fun x hx => ?_, fun i j m name name' hi _ hname => ?_, fun n hn hregular => ?_,
    fun n hn => ?_, fun b hb hcap => .inl ?_,
    ⟨0, Nat.zero_le _, fun _ hi => absurd hi (Nat.not_lt_zero _), ?_⟩,
    fun n hn => ?_, fun i hi => ?_, fun n h0 hn => .inr ⟨n - 1, by omega, ?_⟩, ?_, ?_⟩, hagrees⟩
  · have hn0 := honly n hn
    subst hn0
    refine ⟨fun _ => hdir, fun _ => ?_⟩
    rw [hseen, hroot]
  · rw [invalid_mount hmount fd] at hvalid
    cases hvalid
  · rw [hnil] at hx
    cases hx
  · rw [hnil] at hx
    cases hx
  · rw [honly i hi, hnames] at hname
    cases hname
  · rw [honly n hn, hdir] at hregular
    cases hregular
  · by_cases hn0 : n = 0
    · rw [hn0, hseen, hroot]
      exact ⟨fun _ => .refl, fun _ => show INodeType.directory ≠ .free by decide⟩
    · rw [hseen, d.diskINode_makeFileSystem hn0 hn]
      refine ⟨fun hcon => absurd rfl hcon, fun hcon => ?_⟩
      exact absurd (honly n hcon) hn0
  · rw [hdisk, show d.makeFileSystem.backend.capacity = 31457280 by
      simp [Disk.sized, Backend.capacity, hdev]] at hcap
    exact List.mem_range'_1.mpr ⟨hb, hcap⟩
  · have hroot : {i | fs.tree.Reached i} ⊆ {0} := honly
    exact (Set.ncard_le_ncard hroot (Set.finite_singleton 0)).trans_eq (Set.ncard_singleton 0)
  · rw [honly n hn]
    decide
  · rw [hdisk, d.listed_makeFileSystem hi]
    omega
  · rw [hdisk, d.listed_makeFileSystem (by omega)]
    omega
  · rw [hdisk, d.listed_makeFileSystem (by decide)]
    decide
  · rw [hdisk]
    simpa [Disk.sized] using hdev

/-- Where nobody refers to an inode, it is on disk as it is seen. -/
theorem Coherent.seen_stored (h : Coherent fs []) (n : Nat) : fs.seen n = fs.disk.diskINode n := by
  by_cases hcached : ∃ x, fs.Caches n x
  · obtain ⟨x, hx⟩ := hcached
    exact h.seen_of_idle hx (h.idle_iff.mpr List.not_mem_nil)
  · exact seen_of_uncached fun x hx => hcached ⟨x, hx⟩

/-- **Closed files are kept** when the file system is mounted again. -/
theorem Serving.remount (h : Serving fs l) (hclosed : fs.openNodes = [])
    (hmount : mount getHash fs.disk = .ok fs') : Serving fs' l ∧ fs.volume.Agrees fs'.volume := by
  have hnil := openNodes_mount hmount
  have hdisk := disk_mount hmount
  have hcoherent : Coherent fs [] := hclosed ▸ h.coherent
  obtain ⟨hcoherent', hseen⟩ := coherent_mount ⟨hcoherent.stored, hcoherent.table⟩ hmount
  obtain ⟨hserving, hfile⟩ := h.stays (by rw [hdisk]; exact ⟨rfl, fun _ _ => rfl⟩)
    (fun i _ => by rw [hseen, hcoherent.seen_stored i]) (by rw [hdisk]) (by rw [hnil]; exact hcoherent')
    (fun fd _ hvalid => by
      rw [invalid_mount hmount fd] at hvalid
      cases hvalid)
    fun x hx => by
      rw [hnil] at hx
      cases hx
  refine ⟨hserving, fun i hi => hfile i (reached_volume.mp hi), funext fun fd => ?_⟩
  have hnone : fs.nodeAt fd = none := by
    cases hfd : fs.nodeAt fd with
    | none => rfl
    | some x =>
        have hx := mem_openNodes.mpr ⟨fd, nodeAt_eq_some.mp hfd⟩
        rw [hclosed] at hx
        cases hx
  change (fs'.nodeAt fd).map _ = (fs.nodeAt fd).map _
  rw [nodeAt_mount hmount fd, hnone]
  rfl

end Mount

end FS

end Naofs
