import Naofs.Mounting
import Naofs.Unlinking
import Naofs.VolumeRuns

/-!
# Naofs.Refinement

The file system refines the volume.

`Admits` is what a caller has to see to: paths that are well formed, resources that are not
exhausted, sizes for which reading, writing and resizing do as they should, and files that
are not open when their name is taken away.  An admitted call returns (`Serving.answered`).
A run of admitted calls and of mounts between them is one of the volume, with the same
replies (`represents_run`).
-/

namespace Naofs

open Machine (Run Simulates)

/-- A callback, as FUSE calls it. -/
structure Request where
  env : Env
  context : FuseContext
  op : FS.Operation

/-- A call, or the file system is mounted again. -/
inductive Input where
  | call (call : Request)
  | remount (getHash : Nat → Nat → Fin inodeHashSize)

/-- An input to a volume.  A mount finds the volume as it was. -/
inductive Volume.Does (v : Volume) : Input → Option FS.Reply → Volume → Prop
  | call {call : Request} {reply : FS.Reply} {v' : Volume} : v.Step call.context call.op reply v' →
      Does v (.call call) (some reply) v'
  | remount {getHash : Nat → Nat → Fin inodeHashSize} : (∀ fd, v.opened fd = none) →
      Does v (.remount getHash) none v

namespace FS

/-! ## Calls that are admitted -/

/-- A node of the cache is not in use. -/
def Idle (fs : FS) : Prop := ∃ z, z ∉ fs.openNodes

/-- `createFile` has what it takes. -/
def Makes (fs : FS) (fileType : INodeType) (path : Name) (mode : UInt32) : Prop :=
  IsPath path ∧ fs.Spare ∧ ∃ l, FreeBlocks fs.disk l ∧
    ∀ n, fs.volume.leads (parentPath path) = some n → CanMake fs l.length fileType mode (lastName path) n

/-- The call does as it should.  `rename` and `rmdir` are not admitted. -/
def Admits (fs : FS) (env : Env) : Operation → Prop
  | .getattr path => IsPath path ∧ fs.Idle
  | .mkdir path mode => fs.Makes .directory path mode
  | .readdir path => IsPath path ∧ fs.Idle ∧
      ∀ n, fs.volume.leads path = some n → (fs.volume.file n).isDirectory
  | .create path mode _ => fs.Makes .regular path mode ∧ ¬ fs.TableFull
  | .open path _ => IsPath path ∧ fs.Idle ∧ ¬ fs.TableFull ∧
      ∀ n, fs.volume.leads path = some n → (fs.volume.file n).isDirectory = false
  | .read fi _ size offset => fi.fh < 2147483648 ∧ size < 2147483648 ∧
      ∀ n, fs.volume.opened fi.fh = some n → Disk.ReadsWhole (fs.volume.file n).size size offset
  | .truncate path size => IsPath path ∧ fs.Idle ∧ ∃ l, FreeBlocks fs.disk l ∧
      ∀ n, fs.volume.leads path = some n → (fs.volume.file n).isDirectory = false ∧
        fs.disk.Resizes l.length (fs.volume.file n).size size
  | .utimens => True
  | .chown path _ _ => IsPath path ∧ fs.Idle
  | .chmod path mode => IsPath path ∧ fs.Idle ∧ ∀ n, fs.volume.leads path = some n →
      sIsdir ((fs.volume.file n).chmod mode).mode = (fs.volume.file n).isDirectory
  | .write fi _ size offset => fi.fh < 2147483648 ∧ size < 2147483648 ∧
      ∃ l, FreeBlocks fs.disk l ∧ ∀ n, fs.volume.opened fi.fh = some n →
        offset ≤ (fs.volume.file n).size → Disk.WritesWhole (fs.volume.file n).size size offset ∧
          offset + size ≤ maxFileSize ∧
          Disk.writeNeeds size (size + 1) (fs.volume.file n).size 0 offset ≤ l.length
  | .release fi => fi.fh < 2147483648
  | .unlink path => IsPath path ∧ fs.Spare ∧ ∀ n, fs.volume.leads (parentPath path) = some n →
      CanUnlink env fs (lastName path) n
  | .rename _ _ => False
  | .rmdir _ => False

/-- An input to the file system.  It is mounted again, from its device, when nothing is
open. -/
inductive Does (fs : FS) : Input → Option Reply → FS → Prop
  | call {call : Request} {reply : Reply} {fs' : FS} : fs.Admits call.env call.op →
      call.op.run call.env call.context fs = .ok (reply, fs') → Does fs (.call call) (some reply) fs'
  | remount {getHash : Nat → Nat → Fin inodeHashSize} {fs' : FS} :
      fs.disk.backend.isDiskAvailable → fs.openNodes = [] → mount getHash fs.disk = .ok fs' →
      Does fs (.remount getHash) none fs'

section Answered

variable {fs fs' : FS} {l : List Nat} {input : Input} {reply : Option Reply}

/-- **An admitted call returns**, and does as it should. -/
theorem Serving.answered (h : Serving fs l) {env : Env} {op : Operation} (hop : fs.Admits env op)
    (context : FuseContext) : Answered env context fs l op := by
  cases op with
  | getattr path => exact h.getattr hop.2 env context hop.1
  | mkdir path mode =>
      obtain ⟨hpath, hspare, l', hfree, hmake⟩ := hop
      exact h.mkdir hspare env context hpath (hfree.unique h.free ▸ hmake)
  | readdir path => exact h.readdir hop.2.1 env context hop.1 hop.2.2
  | create path mode fi =>
      obtain ⟨⟨hpath, hspare, l', hfree, hmake⟩, hfull⟩ := hop
      exact h.create hspare hfull env context fi hpath (hfree.unique h.free ▸ hmake)
  | «open» path fi => exact h.openFile hop.2.1 hop.2.2.1 env context fi hop.1 hop.2.2.2
  | read fi buf size offset => exact h.read env context buf hop.1 hop.2.1 hop.2.2
  | truncate path size =>
      obtain ⟨hpath, hidle, l', hfree, hresizes⟩ := hop
      exact h.truncate hidle env context hpath (hfree.unique h.free ▸ hresizes)
  | utimens => exact ⟨_, fs, l, _, rfl, ⟨h, Nat.le_add_right ..⟩, .utimens, .refl _⟩
  | chown path uid gid => exact h.chown hop.2 env context hop.1 uid gid
  | chmod path mode => exact h.chmod hop.2.1 env context hop.1 hop.2.2
  | write fi buf size offset =>
      obtain ⟨hfh, hsize, l', hfree, hwhole⟩ := hop
      exact h.write env context buf hfh hsize (hfree.unique h.free ▸ hwhole)
  | release fi => exact h.release env context hop
  | unlink path => exact h.unlink hop.2.1 env context hop.1 hop.2.2
  | rename fromPath toPath => exact hop.elim
  | rmdir file => exact hop.elim

/-- **Each input is a step of the volume.** -/
theorem Serving.does (h : Serving fs l) (hdoes : Does fs input reply fs') :
    ∃ l' v', Serving fs' l' ∧ fs.volume.Does input reply v' ∧ v'.Agrees fs'.volume := by
  cases hdoes with
  | @call call reply _ hadmits hrun =>
      obtain ⟨_, _, l', v', hrun', ⟨hserving, -⟩, hstep, hagrees⟩ := h.answered hadmits call.context
      cases hrun.symm.trans hrun'
      exact ⟨l', v', hserving, .call hstep, hagrees⟩
  | remount _ hclosed hmount =>
      obtain ⟨hserving, hagrees⟩ := h.remount hclosed hmount
      refine ⟨l, fs.volume, hserving, .remount fun fd => ?_, hagrees⟩
      cases hfd : fs.nodeAt fd with
      | none => exact opened_eq_none hfd
      | some x =>
          have hx := mem_openNodes.mpr ⟨fd, nodeAt_eq_some.mp hfd⟩
          rw [hclosed] at hx
          cases hx

end Answered

/-! ## A session -/

/-- The file `f` of the root. -/
def demoPath : Name := [slash, 0x66]

/-- Three bytes. -/
def demoBytes : Nat → UInt8 := fun i => [0x61, 0x62, 0x63].getD i 0

theorem parentPath_demoPath : parentPath demoPath = [slash] := by decide

theorem lastName_demoPath : lastName demoPath = [0x66] := by decide

theorem components_demoPath : components demoPath = [[0x66]] := by decide

def demoCall (op : Operation) : Input := .call ⟨blankEnv, ⟨0, 0, 0⟩, op⟩

/-- The root has the file `f`, with the number `m`. -/
structure Demo (fs : FS) (m : Nat) (bytes : List UInt8) (opened : Nat → Option Nat) : Prop where
  serving : ∃ l, Serving fs l ∧ 200 ≤ l.length + bytes.length
  leads : fs.volume.leads demoPath = some m
  content : (fs.volume.file m).content = .bytes bytes
  opened : fs.volume.opened = opened

section Demo

variable {fs : FS} {m fd : Nat} {bytes : List UInt8} {opened : Nat → Option Nat}

/-- What is open, in terms of the nodes. -/
theorem openNodes_eq_nil (h : fs.volume.opened = fun _ => none) : fs.openNodes = [] := by
  rw [openNodes, List.filterMap_eq_nil_iff]
  intro fd _
  exact Option.map_eq_none_iff.mp (congrFun h fd)

/-- An open descriptor is one of the table. -/
theorem fd_lt (h : fs.volume.opened fd = some m) : fd < 2147483648 := by
  obtain ⟨x, hx, -⟩ := Option.map_eq_some_iff.mp h
  have hlt := (nodeAt_eq_some.mp hx).lt
  simp only [maxFileDescriptors] at hlt
  omega

/-- A volume that agrees has the same file. -/
theorem Demo.of_agrees {v : Volume} {l : List Nat} (h : Serving fs l) (hlen : 200 ≤ l.length + bytes.length)
    (hv : v.Agrees fs.volume) (hleads : v.leads demoPath = some m)
    (hcontent : (v.file m).content = .bytes bytes) (hopened : v.opened = opened) :
    Demo fs m bytes opened where
  serving := ⟨l, h, hlen⟩
  leads := (hv.leads _).trans hleads
  content := by
    rw [hv.file m (Volume.reached_of_leads hleads)]
    exact hcontent
  opened := hv.opened.trans hopened

/-- `f` is created in a new file system. -/
theorem demo_create : ∃ fs fs₁ fi m l,
    mount (fun _ _ => 0) AllocState.smallDisk.makeFileSystem = .ok fs ∧ Serving fs l ∧
    fs.openNodes = [] ∧ emptyVolume.Agrees fs.volume ∧
    Does fs (demoCall (.create demoPath 0o100644 ⟨0, 0⟩)) (some (.handle 0 fi)) fs₁ ∧
    Demo fs₁ m [] (Function.update (fun _ => none) fi.fh (some m)) := by
  obtain ⟨fs, hmount, hdisk⟩ := exists_mount (fun _ _ => 0) AllocState.smallDisk.makeFileSystem
  obtain ⟨hserving, hempty⟩ := serving_new (d := AllocState.smallDisk) rfl hmount
  obtain ⟨l, hl⟩ : ∃ l, l = List.range' 16388 (31457280 - 16388) := ⟨_, rfl⟩
  have hlen : l.length = 31440892 := by rw [hl, List.length_range']
  rw [← hl] at hserving
  have hnil := openNodes_mount hmount
  have hfile : fs.volume.file 0 = emptyVolume.file 0 := hempty.file 0 .refl
  have hadmits : fs.Admits blankEnv (.create demoPath 0o100644 ⟨0, 0⟩) := by
    refine ⟨⟨by decide, spare_of_nil hnil, l, hserving.free, fun n hn => ?_⟩, fun hfull => ?_⟩
    · rw [parentPath_demoPath, hempty.leads] at hn
      cases hn
      refine ⟨by rw [hfile]; rfl, by rw [Volume.entry_congr hfile]; rfl, by decide, by decide, ?_, ?_, ?_⟩
      · refine ⟨0, by decide, ?_⟩
        rw [hdisk, AllocState.smallDisk.listed_makeFileSystem (by decide)]
        decide
      · rw [hfile, hlen]
        decide
      · rw [hfile]
        decide
    · have hvalid := hfull 0 (by decide)
      rw [invalid_mount hmount 0] at hvalid
      cases hvalid
  obtain ⟨reply, fs₁, l₁, v₁, hrun, ⟨hserving₁, hroom⟩, hstep, hagrees⟩ :=
    hserving.answered hadmits ⟨0, 0, 0⟩
  cases hstep with
  | create_none hnone =>
      rw [parentPath_demoPath, hempty.leads] at hnone
      cases hnone
  | @create _ _ _ fi n m hleads hdir habsent hm hfree =>
      have hmade := Volume.leads_insert (by decide) hleads hdir habsent hm
        (newFile .regular 0o100644 0 0 n m)
      rw [parentPath_demoPath, hempty.leads] at hleads
      cases hleads
      refine ⟨fs, fs₁, fi, m, l, hmount, hserving, hnil, hempty, .call hadmits hrun,
        .of_agrees hserving₁ ?_ hagrees hmade (congrArg File.content Volume.file_insert_self) ?_⟩
      · rw [Volume.takes, parentPath_demoPath, hempty.leads, hlen] at hroom
        change 31440892 ≤ l₁.length + (Disk.endNeeds (fs.volume.file 0).size + firstNeeds .regular) at hroom
        rw [hfile, show Disk.endNeeds (emptyVolume.file 0).size + firstNeeds .regular = 1 by decide] at hroom
        omega
      · change Function.update fs.volume.opened fi.fh (some m) = _
        rw [hempty.opened]
        rfl

/-- The file is regular, with the bytes. -/
theorem Demo.file (h : Demo fs m bytes opened) : (fs.volume.file m).isDirectory = false ∧
    (fs.volume.file m).size = bytes.length ∧ (fs.volume.file m).bytes = bytes := by
  rw [File.isDirectory, File.size, File.bytes, h.content]
  exact ⟨rfl, rfl, rfl⟩

/-- Its bytes are written. -/
theorem Demo.write (h : Demo fs m [] opened) (hfd : opened fd = some m) :
    ∃ fs', Does fs (demoCall (.write ⟨0, fd⟩ demoBytes 3 0)) (some (.status 3)) fs' ∧
      Demo fs' m [0x61, 0x62, 0x63] opened := by
  obtain ⟨l, hserving, hlen⟩ := h.serving
  obtain ⟨hregular, hsize, hbytes⟩ := h.file
  have hopened : fs.volume.opened fd = some m := by rw [h.opened, hfd]
  have hadmits : fs.Admits blankEnv (.write ⟨0, fd⟩ demoBytes 3 0) := by
    refine ⟨fd_lt hopened, by decide, l, hserving.free, fun n hn _ => ?_⟩
    cases hopened.symm.trans hn
    rw [hsize]
    refine ⟨by decide, by decide, ?_⟩
    rw [show Disk.writeNeeds 3 (3 + 1) ([] : List UInt8).length 0 0 = 1 by decide]
    simp only [List.length_nil] at hlen
    omega
  obtain ⟨reply, fs', l', v', hrun, ⟨hserving', hroom⟩, hstep, hagrees⟩ :=
    hserving.answered hadmits ⟨0, 0, 0⟩
  cases hstep with
  | write hfd' hdir hoff =>
      cases hopened.symm.trans hfd'
      have hextends := Volume.extends_bytes (f := (·.write 0 ((List.range 3).map demoBytes))) hdir rfl
      refine ⟨fs', .call hadmits hrun, .of_agrees hserving' ?_ hagrees (hextends.leads h.leads) ?_ h.opened⟩
      · rw [Volume.takes, hopened, Option.elim, hsize,
          show Disk.writeNeeds 3 (3 + 1) ([] : List UInt8).length 0 0 = 1 by decide] at hroom
        simp only [List.length_nil, List.length_cons] at hlen ⊢
        omega
      · rw [Volume.file_modify_self, File.write, hbytes]
        rfl
  | write_past hfd' hpast => exact absurd hpast (Nat.not_lt_zero _)
  | write_none hnone =>
      rw [hopened] at hnone
      cases hnone

/-- The handle is released. -/
theorem Demo.release (h : Demo fs m bytes (Function.update (fun _ => none) fd (some m))) :
    ∃ fs', Does fs (demoCall (.release ⟨0, fd⟩)) (some (.status 0)) fs' ∧ Demo fs' m bytes fun _ => none := by
  obtain ⟨l, hserving, hlen⟩ := h.serving
  have hopened : fs.volume.opened fd = some m := by rw [h.opened, Function.update_self]
  have hadmits : fs.Admits blankEnv (.release ⟨0, fd⟩) := fd_lt hopened
  obtain ⟨reply, fs', l', v', hrun, ⟨hserving', hroom⟩, hstep, hagrees⟩ :=
    hserving.answered hadmits ⟨0, 0, 0⟩
  cases hstep with
  | release hfd' =>
      refine ⟨fs', .call hadmits hrun, .of_agrees hserving' (hlen.trans (Nat.add_le_add_right hroom _)) hagrees
        h.leads h.content ?_⟩
      change Function.update fs.volume.opened fd none = _
      rw [h.opened, Function.update_idem]
      exact Function.update_eq_self ..
  | release_none hnone =>
      rw [hopened] at hnone
      cases hnone

/-- The file system is mounted again. -/
theorem Demo.remount (h : Demo fs m bytes fun _ => none) :
    ∃ fs', Does fs (.remount fun _ _ => 0) none fs' ∧ Demo fs' m bytes fun _ => none := by
  obtain ⟨l, hserving, hlen⟩ := h.serving
  have hnil := openNodes_eq_nil h.opened
  obtain ⟨fs', hmount, -⟩ := exists_mount (fun _ _ => 0) fs.disk
  obtain ⟨hserving', hagrees⟩ := hserving.remount hnil hmount
  exact ⟨fs', .remount hserving.device hnil hmount,
    .of_agrees hserving' hlen hagrees h.leads h.content h.opened⟩

/-- The file is opened. -/
theorem Demo.open (h : Demo fs m bytes fun _ => none) :
    ∃ fi fs', Does fs (demoCall (.open demoPath ⟨0, 0⟩)) (some (.handle 0 fi)) fs' ∧
      Demo fs' m bytes (Function.update (fun _ => none) fi.fh (some m)) := by
  obtain ⟨l, hserving, hlen⟩ := h.serving
  have hnil := openNodes_eq_nil h.opened
  have hadmits : fs.Admits blankEnv (.open demoPath ⟨0, 0⟩) := by
    refine ⟨by decide, (spare_of_nil hnil).free, fun hfull => ?_, fun n hn => ?_⟩
    · obtain ⟨x, hx⟩ := Option.isSome_iff_exists.mp (hserving.node 0 (by decide) (hfull 0 (by decide)))
      have hmem := mem_openNodes.mpr ⟨0, ⟨by decide, hfull 0 (by decide), hx⟩⟩
      rw [hnil] at hmem
      cases hmem
    · cases h.leads.symm.trans hn
      exact h.file.1
  obtain ⟨reply, fs', l', v', hrun, ⟨hserving', hroom⟩, hstep, hagrees⟩ :=
    hserving.answered hadmits ⟨0, 0, 0⟩
  cases hstep with
  | @openFile _ _ fi n hleads _ _ =>
      cases h.leads.symm.trans hleads
      refine ⟨fi, fs', .call hadmits hrun, .of_agrees hserving' (hlen.trans (Nat.add_le_add_right hroom _))
        hagrees h.leads h.content ?_⟩
      change Function.update fs.volume.opened fi.fh (some m) = _
      rw [h.opened]
  | openFile_none hnone =>
      rw [h.leads] at hnone
      cases hnone

/-- They are read. -/
theorem Demo.read (h : Demo fs m [0x61, 0x62, 0x63] opened) (hfd : opened fd = some m) :
    ∃ buf fs', Does fs (demoCall (.read ⟨0, fd⟩ (fun _ => 0) 3 0)) (some (.data 3 buf)) fs' ∧
      Demo fs' m [0x61, 0x62, 0x63] opened := by
  obtain ⟨l, hserving, hlen⟩ := h.serving
  obtain ⟨hregular, hsize, hbytes⟩ := h.file
  have hopened : fs.volume.opened fd = some m := by rw [h.opened, hfd]
  have hadmits : fs.Admits blankEnv (.read ⟨0, fd⟩ (fun _ => 0) 3 0) := by
    refine ⟨fd_lt hopened, by decide, fun n hn => ?_⟩
    cases hopened.symm.trans hn
    rw [hsize]
    decide
  obtain ⟨reply, fs', l', v', hrun, ⟨hserving', hroom⟩, hstep, hagrees⟩ :=
    hserving.answered hadmits ⟨0, 0, 0⟩
  cases hstep with
  | @read _ _ buf _ _ n hfd' _ hbuf _ =>
      cases hopened.symm.trans hfd'
      refine ⟨buf, fs', .call hadmits ?_, .of_agrees hserving' (hlen.trans (Nat.add_le_add_right hroom _))
        hagrees h.leads h.content h.opened⟩
      rw [hrun, File.slice, hbytes]
      rfl
  | read_none hnone =>
      rw [hopened] at hnone
      cases hnone

/-- The path is one step from the root. -/
theorem leads_demoPath {v : Volume} (hroot : (v.file 0).isDirectory) :
    v.leads demoPath = v.tree.entry 0 [0x66] := by
  rw [Volume.leads, components_demoPath, List.foldlM_cons, Tree.follow,
    if_pos (show v.tree.directory 0 from hroot)]
  cases v.tree.entry 0 [0x66] <;> rfl

/-- The name is taken away. -/
theorem Demo.unlink (h : Demo fs m [0x61, 0x62, 0x63] fun _ => none) :
    ∃ fs', Does fs (demoCall (.unlink demoPath)) (some (.status 0)) fs' ∧ fs'.volume.leads demoPath = none := by
  obtain ⟨l, hserving, hlen⟩ := h.serving
  have hsound := hserving.sound
  have hroot : fs.volume.leads (parentPath demoPath) = some 0 := by
    rw [parentPath_demoPath]
    rfl
  have hentry : fs.volume.tree.entry 0 (lastName demoPath) = some m := by
    rw [lastName_demoPath, ← leads_demoPath hsound.root, h.leads]
  have hadmits : fs.Admits blankEnv (.unlink demoPath) := by
    refine ⟨by decide, spare_of_nil (openNodes_eq_nil h.opened), fun n hn => ?_⟩
    cases hroot.symm.trans hn
    refine ⟨hsound.root, fun hnil => ?_, by decide, fun k hk => ?_, fun k _ => .inr ?_⟩
    · obtain ⟨e, he, -⟩ := Volume.mem_of_entry hentry
      rw [hnil] at he
      cases he
    · cases hentry.symm.trans hk
      refine ⟨h.file.1, fun fd hfd => ?_⟩
      rw [h.opened] at hfd
      cases hfd
    · simp only [List.length_cons, List.length_nil] at hlen
      exact hserving.free.linked (by omega)
  obtain ⟨reply, fs', l', v', hrun, -, hstep, hagrees⟩ := hserving.answered hadmits ⟨0, 0, 0⟩
  cases hstep with
  | @unlink _ n k hleads hdir hentry' hregular hclosed =>
      cases hroot.symm.trans hleads
      have hnamed : fs.volume.Named 0 (lastName demoPath) k := ⟨.refl, hdir, hentry', hregular⟩
      obtain ⟨hdirs, hentries⟩ := Volume.tree_unlink (i := 0) hsound hnamed rfl
      have hroot' : ((fs.volume.modify 0 (·.unlink (lastName demoPath))).file 0).isDirectory :=
        hdirs.trans hsound.root
      refine ⟨fs', .call hadmits hrun, ?_⟩
      rw [hagrees.leads, leads_demoPath hroot', ← lastName_demoPath, hentries]
      exact if_pos ⟨rfl, rfl⟩
  | unlink_absent hleads habsent =>
      cases hroot.symm.trans hleads
      rw [hentry] at habsent
      cases habsent
  | unlink_none hnone =>
      rw [hroot] at hnone
      cases hnone

end Demo

/-! ## Runs -/

/-- A state of the file system and the volume that its users see. -/
structure Represents (fs : FS) (v : Volume) : Prop where
  serving : ∃ l, Serving fs l
  agrees : v.Agrees fs.volume

section Runs

variable {fs fs' : FS} {v : Volume} {l : List Nat} {es : List (Input × Option Reply)}

/-- Each reply of the code is one of the volume. -/
theorem does_simulates : Simulates Does Volume.Does Represents := by
  rintro fs input reply fs' v ⟨⟨l, h⟩, hagrees⟩ hdoes
  obtain ⟨l', w, hserving, hstep, hw⟩ := h.does hdoes
  cases hstep with
  | call hstep =>
      obtain ⟨v', hstep', hv'⟩ := hstep.congr hagrees (hagrees.sound h.sound)
      exact ⟨v', .call hstep', ⟨l', hserving⟩, hv'.trans hw⟩
  | remount hclosed => exact ⟨v, .remount (hagrees.opened ▸ hclosed), ⟨l', hserving⟩, hagrees.trans hw⟩

/-- A call that is admitted is answered. -/
theorem Represents.progress (h : Represents fs v) {call : Request} (hadmits : fs.Admits call.env call.op) :
    ∃ reply fs', Does fs (.call call) reply fs' := by
  obtain ⟨l, hserving⟩ := h.serving
  obtain ⟨reply, fs', -, -, hrun, -⟩ := hserving.answered hadmits call.context
  exact ⟨some reply, fs', .call hadmits hrun⟩

/-- **The file system refines the volume.** -/
theorem represents_run (h : Represents fs v) (hrun : Run Does fs es fs') :
    ∃ v', Run Volume.Does v es v' ∧ Represents fs' v' ∧
      ∀ call : Request, fs'.Admits call.env call.op → ∃ reply fs'', Does fs' (.call call) reply fs'' := by
  obtain ⟨v', hrun', hv'⟩ := hrun.simulates does_simulates h
  exact ⟨v', hrun', hv', fun _ => hv'.progress⟩

/-- A file is created, written, closed, opened after a mount, read, closed and taken away. -/
theorem represents_run_session : ∃ (fs fs' : FS) (es : List (Input × Option Reply)) (v : Volume),
    Represents fs emptyVolume ∧ es.length = 8 ∧ Run Does fs es fs' ∧ Run Volume.Does emptyVolume es v ∧
      Represents fs' v ∧ v.leads demoPath = none := by
  obtain ⟨fs, fs₁, fi, m, l, -, hserving, -, hempty, hcreate, hdemo₁⟩ := demo_create
  obtain ⟨fs₂, hwrite, hdemo₂⟩ := hdemo₁.write (Function.update_self ..)
  obtain ⟨fs₃, hrelease, hdemo₃⟩ := hdemo₂.release
  obtain ⟨fs₄, hremount, hdemo₄⟩ := hdemo₃.remount
  obtain ⟨fi', fs₅, hopen, hdemo₅⟩ := hdemo₄.open
  obtain ⟨buf, fs₆, hread, hdemo₆⟩ := hdemo₅.read (Function.update_self ..)
  obtain ⟨fs₇, hrelease', hdemo₇⟩ := hdemo₆.release
  obtain ⟨fs₈, hunlink, hgone⟩ := hdemo₇.unlink
  have hrun := Run.cons hcreate <| .cons hwrite <| .cons hrelease <| .cons hremount <| .cons hopen <|
    .cons hread <| .cons hrelease' <| .single hunlink
  obtain ⟨v, hrun', hv, -⟩ := represents_run ⟨⟨l, hserving⟩, hempty⟩ hrun
  exact ⟨fs, fs₈, _, v, ⟨⟨l, hserving⟩, hempty⟩, rfl, hrun, hrun', hv, (hv.agrees.leads _).symm.trans hgone⟩

end Runs

end FS

end Naofs
