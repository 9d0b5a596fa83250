import Naofs.Refinement

/-!
# Naofs.Guarantees

What the users of the file system can rely on.

The statements are about every run of admitted calls and of mounts between them.

* `paths_stay` — a path leads to its file, unless a name on it is taken away.
* `files_stay` — a file is changed by the calls that are about it, and by no others.
* `handles_stay` — a handle stands for the file that its path led to.
* `read_written` — what has been written is read until it is written over.
* `storage_accounted` — each block and each inode is in use or free, and never both.
-/

namespace Naofs

open Machine (Run)

/-! ## One input -/

namespace Volume

open FS (Reply)

/-- The input changes the file. -/
def Changes (v : Volume) (n : Nat) : Input → Prop
  | .call call => v.Concerns n call.op
  | .remount _ => False

/-- The input changes the bytes of the file, or takes it away. -/
def Overwrites (v : Volume) (n : Nat) : Input → Prop
  | .call call => v.Writes n call.op
  | .remount _ => False

/-- The input takes the file away. -/
def Loses (v : Volume) (n : Nat) : Input → Prop
  | .call call => v.Removes n call.op
  | .remount _ => False

/-- The input takes a name away that is on the path. -/
def Interrupts (v : Volume) (path : Name) : Input → Prop
  | .call call => v.Cuts path call.op
  | .remount _ => False

section Does

variable {v v' : Volume} {input : Input} {reply : Option Reply} {n fd : Nat}

/-- A file is there until it loses its name. -/
theorem Does.reached (h : v.Does input reply v') (hv : v.Sound) (hn : v.tree.Reached n)
    (hinput : ¬ v.Loses n input) : v'.tree.Reached n := by
  cases h with
  | call hstep => exact hstep.reached hv hn hinput
  | remount _ => exact hn

/-- A path leads to its file until an operation interrupts it. -/
theorem Does.leads {path : Name} (h : v.Does input reply v') (hv : v.Sound) (hn : v.leads path = some n)
    (hinput : ¬ v.Interrupts path input) : v'.leads path = some n := by
  cases h with
  | call hstep => exact hstep.leads hv hn hinput
  | remount _ => exact hn

theorem Changes.of_loses (h : v.Loses n input) : v.Changes n input := by
  cases input with
  | call call => exact Removes.concerns h
  | remount _ => exact h.elim

theorem Overwrites.of_loses (h : v.Loses n input) : v.Overwrites n input := by
  cases input with
  | call call => exact Removes.writes h
  | remount _ => exact h.elim

/-- A file is as it was until it is changed. -/
theorem Does.file_eq (h : v.Does input reply v') (hn : v.tree.Reached n) (hinput : ¬ v.Changes n input) :
    v'.file n = v.file n := by
  cases h with
  | call hstep => exact hstep.file_eq hn hinput
  | remount _ => rfl

/-- Its bytes are as they were until they are overwritten. -/
theorem Does.content_eq (h : v.Does input reply v') (hn : v.tree.Reached n)
    (hdir : (v.file n).isDirectory = false) (hinput : ¬ v.Overwrites n input) :
    (v'.file n).content = (v.file n).content := by
  cases h with
  | call hstep => exact hstep.content_eq hn hdir hinput
  | remount _ => rfl

/-- A handle stands for its file until it is released. -/
theorem Does.opened_eq (h : v.Does input reply v') (hfd : v.opened fd = some n)
    (hinput : ∀ call fi, input = .call call → call.op = .release fi → fi.fh ≠ fd) :
    v'.opened fd = some n := by
  cases h with
  | call hstep => exact hstep.opened_eq hfd fun fi hop => hinput _ fi rfl hop
  | remount _ => exact hfd

end Does

end Volume

namespace FS

section Runs

variable {fs fs' : FS} {l : List Nat} {es : List (Input × Option Reply)} {n fd : Nat} {path : Name}

/-- Inputs that leave the file alone. -/
def Spares (n : Nat) (fs : FS) (input : Input) (reply : Option Reply) (fs' : FS) : Prop :=
  Does fs input reply fs' ∧ ¬ fs.volume.Changes n input

/-- Inputs that leave its bytes alone. -/
def SparesBytes (n : Nat) (fs : FS) (input : Input) (reply : Option Reply) (fs' : FS) : Prop :=
  Does fs input reply fs' ∧ ¬ fs.volume.Overwrites n input

/-- Inputs that leave the path alone. -/
def Clears (path : Name) (fs : FS) (input : Input) (reply : Option Reply) (fs' : FS) : Prop :=
  Does fs input reply fs' ∧ ¬ fs.volume.Interrupts path input

/-- Inputs that do not close the handle, and leave the path alone. -/
def Holds (fd : Nat) (path : Name) (fs : FS) (input : Input) (reply : Option Reply) (fs' : FS) : Prop :=
  Clears path fs input reply fs' ∧ ∀ call fi, input = .call call → call.op = .release fi → fi.fh ≠ fd

/-- Something holds of every state of the run, if it is about the volume, and each step of
the volume keeps it. -/
theorem Serving.invariant {p : Volume → Prop} {R : FS → Input → Option Reply → FS → Prop}
    (h : Serving fs l) (hrun : Run R fs es fs') (hdoes : ∀ {fs input reply fs'}, R fs input reply fs' →
      Does fs input reply fs')
    (hstep : ∀ {fs input reply fs'} {v : Volume}, R fs input reply fs' → fs.volume.Sound → p fs.volume →
      fs.volume.Does input reply v → v.Agrees fs'.volume → p fs'.volume) (hp : p fs.volume) :
    (∃ l, Serving fs' l) ∧ p fs'.volume := by
  refine hrun.invariant (p := fun fs => (∃ l, Serving fs l) ∧ p fs.volume) ?_ ⟨⟨l, h⟩, hp⟩
  rintro fs₁ input reply fs₂ ⟨⟨l₁, hserving⟩, hp⟩ hR
  obtain ⟨l₂, w, hserving', hdoes', hagrees⟩ := hserving.does (hdoes hR)
  exact ⟨⟨l₂, hserving'⟩, hstep hR hserving.sound hp hdoes' hagrees⟩

/-- What `getFileINode` finds is where the path leads in the volume. -/
theorem Serving.leadsTo (h : Serving fs l) (hidle : fs.Idle) (hpath : IsPath path) (env : Env) :
    LeadsTo env fs path (fs.volume.leads path) := by
  obtain ⟨hnone, fs', hrun, -⟩ | ⟨x, n, fs', hleads, hrun, hx⟩ := h.lookup hidle env hpath
  · rw [hnone]
    exact ⟨fs', hrun⟩
  · rw [hleads]
    exact ⟨x, fs', hrun, hx.caches.number⟩

/-- **A path leads to its file**, as long as no name on it is taken away. -/
theorem paths_stay (h : Serving fs l) (hrun : Run (Clears path) fs es fs') (hpath : IsPath path)
    (hidle : fs.Idle) (hidle' : fs'.Idle) {env : Env} (hleads : LeadsTo env fs path (some n)) (env' : Env) :
    LeadsTo env' fs' path (some n) := by
  have hold : fs.volume.leads path = some n := (h.leadsTo hidle hpath env).unique hleads
  obtain ⟨⟨l', hserving⟩, hnew⟩ := h.invariant (p := fun v => v.leads path = some n) hrun And.left
    (fun hR hv hleads hdoes hagrees => (hagrees.leads path).trans (hdoes.leads hv hleads hR.2)) hold
  rw [← hnew]
  exact hserving.leadsTo hidle' hpath env'

/-- The path of a file that is opened and closed after a mount. -/
theorem paths_stay_session : ∃ (fs fs' : FS) (es : List (Input × Option Reply)) (m : Nat),
    es.length = 3 ∧ Run (Clears demoPath) fs es fs' ∧ LeadsTo blankEnv fs' demoPath (some m) := by
  obtain ⟨fs, fs₁, fi, m, l, -, -, -, -, -, hdemo₁⟩ := demo_create
  obtain ⟨fs₂, -, hdemo₂⟩ := hdemo₁.release
  obtain ⟨fs₃, hremount, hdemo₃⟩ := hdemo₂.remount
  obtain ⟨fi', fs₄, hopen, hdemo₄⟩ := hdemo₃.open
  obtain ⟨fs₅, hrelease, hdemo₅⟩ := hdemo₄.release
  obtain ⟨l₂, hserving₂, -⟩ := hdemo₂.serving
  have hidle₂ : fs₂.Idle := (spare_of_nil (openNodes_eq_nil hdemo₂.opened)).free
  have hidle₅ : fs₅.Idle := (spare_of_nil (openNodes_eq_nil hdemo₅.opened)).free
  have hpath : IsPath demoPath := by decide
  have hleads := hserving₂.leadsTo hidle₂ hpath blankEnv
  rw [hdemo₂.leads] at hleads
  have hrun : Run (Clears demoPath) fs₂ _ fs₅ :=
    .cons ⟨hremount, id⟩ <| .cons ⟨hopen, id⟩ <| .single ⟨hrelease, id⟩
  exact ⟨fs₂, fs₅, _, m, rfl, hrun, paths_stay hserving₂ hrun hpath hidle₂ hidle₅ hleads blankEnv⟩

/-- **Other calls leave a file as it is.** -/
theorem files_stay (h : Serving fs l) (hrun : Run (Spares n) fs es fs') (hn : fs.volume.tree.Reached n) :
    fs'.volume.tree.Reached n ∧ fs'.volume.file n = fs.volume.file n := by
  refine (h.invariant (p := fun v => v.tree.Reached n ∧ v.file n = fs.volume.file n) hrun And.left
    (fun hR hv hfile hdoes hagrees => ?_) ⟨hn, rfl⟩).2
  obtain ⟨hn, hfile⟩ := hfile
  have hn' := hdoes.reached hv hn fun hcon => hR.2 (.of_loses hcon)
  exact ⟨hagrees.reached.mpr hn', by rw [hagrees.file _ hn', hdoes.file_eq hn hR.2, hfile]⟩

/-- A file that is closed and opened again. -/
theorem files_stay_session : ∃ (fs fs' : FS) (es : List (Input × Option Reply)) (m : Nat),
    es.length = 3 ∧ Run (Spares m) fs es fs' ∧ fs'.volume.tree.Reached m ∧
      fs'.volume.file m = fs.volume.file m := by
  obtain ⟨fs, fs₁, fi, m, l, -, -, -, -, -, hdemo₁⟩ := demo_create
  obtain ⟨fs₂, hrelease, hdemo₂⟩ := hdemo₁.release
  obtain ⟨fs₃, hremount, hdemo₃⟩ := hdemo₂.remount
  obtain ⟨fi', fs₄, hopen, -⟩ := hdemo₃.open
  obtain ⟨l₁, hserving₁, -⟩ := hdemo₁.serving
  have hrun : Run (Spares m) fs₁ _ fs₄ := .cons ⟨hrelease, id⟩ <| .cons ⟨hremount, id⟩ <| .single ⟨hopen, id⟩
  exact ⟨fs₁, fs₄, _, m, rfl, hrun, files_stay hserving₁ hrun (Volume.reached_of_leads hdemo₁.leads)⟩

/-- The bytes of a regular file stay, until it is written, truncated or taken away. -/
theorem Serving.content_stays (h : Serving fs l) (hrun : Run (SparesBytes n) fs es fs')
    (hn : fs.volume.tree.Reached n) (hdir : (fs.volume.file n).isDirectory = false) :
    (∃ l', Serving fs' l') ∧ fs'.volume.tree.Reached n ∧
      (fs'.volume.file n).content = (fs.volume.file n).content := by
  have hkind : ∀ f g : File, f.content = g.content → f.isDirectory = g.isDirectory := by
    intro f g hfg
    rw [File.isDirectory, File.isDirectory, hfg]
  refine h.invariant (p := fun v => v.tree.Reached n ∧ (v.file n).content = (fs.volume.file n).content)
    hrun And.left (fun hR hv hfile hdoes hagrees => ?_) ⟨hn, rfl⟩
  obtain ⟨hn, hfile⟩ := hfile
  have hn' := hdoes.reached hv hn fun hcon => hR.2 (.of_loses hcon)
  refine ⟨hagrees.reached.mpr hn', ?_⟩
  rw [hagrees.file _ hn', hdoes.content_eq hn ((hkind _ _ hfile).trans hdir) hR.2, hfile]

/-- **A handle stands for the file that its path leads to**, until it is released or a name
on the path is taken away. -/
theorem handles_stay (h : Serving fs l) {env : Env} {context : FuseContext} {fi fi' : FuseFileInfo}
    {fs₁ : FS} (hopen : Does fs (.call ⟨env, context, .open path fi⟩) (some (.handle 0 fi')) fs₁)
    (hrun : Run (Holds fi'.fh path) fs₁ es fs') :
    ∃ n, fs.volume.leads path = some n ∧ fs'.volume.leads path = some n ∧
      fs'.volume.opened fi'.fh = some n := by
  obtain ⟨l₁, w, hserving, hstep, hagrees⟩ := h.does hopen
  cases hstep with
  | call hstep =>
      cases hstep with
      | @openFile _ _ _ n hleads _ _ =>
          have hleads₁ : fs₁.volume.leads path = some n := (hagrees.leads path).trans hleads
          have hopened₁ : fs₁.volume.opened fi'.fh = some n := by
            rw [hagrees.opened]
            exact Function.update_self ..
          have hstays := hserving.invariant
            (p := fun v => v.leads path = some n ∧ v.opened fi'.fh = some n) hrun (And.left ∘ And.left)
            (fun hR hv hp hdoes hagrees => ⟨(hagrees.leads path).trans (hdoes.leads hv hp.1 hR.1.2), by
              rw [hagrees.opened]
              exact hdoes.opened_eq hp.2 hR.2⟩) ⟨hleads₁, hopened₁⟩
          exact ⟨n, hleads, hstays.2.1, hstays.2.2⟩

/-- The handle of a file that is read. -/
theorem handles_stay_session : ∃ (fs fs₁ fs' : FS) (es : List (Input × Option Reply)) (fi : FuseFileInfo)
    (m : Nat), Does fs (demoCall (.open demoPath ⟨0, 0⟩)) (some (.handle 0 fi)) fs₁ ∧
      Run (Holds fi.fh demoPath) fs₁ es fs' ∧ es.length = 1 ∧ fs'.volume.leads demoPath = some m ∧
      fs'.volume.opened fi.fh = some m := by
  obtain ⟨fs, fs₁, fi, m, l, -, -, -, -, -, hdemo₁⟩ := demo_create
  obtain ⟨fs₂, -, hdemo₂⟩ := hdemo₁.write (Function.update_self ..)
  obtain ⟨fs₃, -, hdemo₃⟩ := hdemo₂.release
  obtain ⟨fi', fs₄, hopen, hdemo₄⟩ := hdemo₃.open
  obtain ⟨buf, fs₅, hread, -⟩ := hdemo₄.read (Function.update_self ..)
  obtain ⟨l₃, hserving₃, -⟩ := hdemo₃.serving
  have hrun : Run (Holds fi'.fh demoPath) fs₄ _ fs₅ := .single ⟨⟨hread, id⟩, by
    rintro call fi hcall hop
    cases hcall
    cases hop⟩
  obtain ⟨n, -, hleads, hopened⟩ := handles_stay hserving₃ hopen hrun
  exact ⟨fs₃, fs₄, fs₅, _, fi', n, hopen, hrun, rfl, hleads, hopened⟩

end Runs

/-! ## Reading what was written -/

/-- The size of a regular file is the number of its bytes. -/
theorem size_of_regular {f : File} (h : f.isDirectory = false) : f.size = f.bytes.length := by
  obtain ⟨mode, uid, gid, entries | bytes⟩ := f
  · cases h
  · rfl

/-- A part of the bytes that were written. -/
theorem slice_write {f : File} {offset offset' size' : Nat} {data : List UInt8}
    (hoff : offset ≤ f.bytes.length) (hfrom : offset ≤ offset')
    (hto : offset' + size' ≤ offset + data.length) :
    (f.write offset data).slice size' offset' = (data.drop (offset' - offset)).take size' := by
  change ((f.bytes.take offset ++ data ++ f.bytes.drop (offset + data.length)).drop offset').take size' = _
  have htake : (f.bytes.take offset).length = offset := by
    rw [List.length_take, Nat.min_eq_left hoff]
  rw [List.append_assoc, List.drop_append, List.drop_of_length_le (by omega), List.nil_append, htake,
    List.drop_append_of_le_length (by omega), List.take_append_of_le_length (by rw [List.length_drop]; omega)]

section ReadWritten

variable {fs fs₁ fs₂ fs₃ : FS} {l : List Nat} {es : List (Input × Option Reply)} {n : Nat} {env env' : Env}
  {context context' : FuseContext} {fi fi' : FuseFileInfo} {buf buf' buf'' : Nat → UInt8}
  {size size' offset offset' : Nat} {ret : Int}

/-- **What has been written is read**, through any handle for the file, whatever is done in
between that does not change its bytes. -/
theorem read_written (h : Serving fs l) (hopened : fs.volume.opened fi.fh = some n)
    (hwrite : Does fs (.call ⟨env, context, .write fi buf size offset⟩) (some (.status size)) fs₁)
    (hrun : Run (SparesBytes n) fs₁ es fs₂) (hopened' : fs₂.volume.opened fi'.fh = some n)
    (hread : Does fs₂ (.call ⟨env', context', .read fi' buf' size' offset'⟩) (some (.data ret buf'')) fs₃)
    (hfrom : offset ≤ offset') (hto : offset' + size' ≤ offset + size) :
    ret = size' ∧ ∀ i < size', buf'' i = buf (offset' - offset + i) := by
  obtain ⟨l₁, w, hserving₁, hstep, hagrees⟩ := h.does hwrite
  have hreached := h.sound.opened _ _ hopened
  -- The file after the write.
  have hfile : offset ≤ (fs.volume.file n).bytes.length ∧ (fs₁.volume.file n).isDirectory = false ∧
      fs₁.volume.tree.Reached n ∧ (fs₁.volume.file n).content =
        ((fs.volume.file n).write offset ((List.range size).map buf)).content := by
    generalize hreply : some (Reply.status (size : Int)) = reply at hstep
    cases hstep with
    | call hstep =>
        cases hstep with
        | @write _ _ _ _ n' hfd hdir hle =>
            cases hopened.symm.trans hfd
            have hreached₁ := (Volume.extends_bytes (f := (·.write offset ((List.range size).map buf)))
              hdir rfl).reached hreached
            have hw : fs₁.volume.file n = (fs.volume.file n).write offset ((List.range size).map buf) :=
              (hagrees.file n hreached₁).trans Volume.file_modify_self
            refine ⟨by rwa [← size_of_regular hdir], ?_, hagrees.reached.mpr hreached₁, by rw [hw]⟩
            rw [hw]
            rfl
        | write_past _ _ =>
            have := Reply.status.inj (Option.some.inj hreply)
            omega
        | write_none _ =>
            have := Reply.status.inj (Option.some.inj hreply)
            omega
  obtain ⟨hoff, hregular, hreached₁, hcontent₁⟩ := hfile
  obtain ⟨⟨l₂, hserving₂⟩, -, hcontent⟩ := hserving₁.content_stays hrun hreached₁ hregular
  have hslice : (fs₂.volume.file n).slice size' offset' =
      (((List.range size).map buf).drop (offset' - offset)).take size' := by
    rw [← slice_write hoff hfrom (by simpa using hto)]
    rw [File.slice, File.slice, File.bytes, File.bytes, hcontent, hcontent₁]
  have hlen : ((fs₂.volume.file n).slice size' offset').length = size' := by
    rw [hslice, List.length_take, List.length_drop, List.length_map, List.length_range]
    omega
  obtain ⟨l₃, w', -, hstep', -⟩ := hserving₂.does hread
  cases hstep' with
  | call hstep' =>
      cases hstep' with
      | @read _ _ _ _ _ n' hfd _ hbuf _ =>
          cases hopened'.symm.trans hfd
          refine ⟨by rw [hlen], fun i hi => ?_⟩
          have hi' : i < ((fs₂.volume.file n).slice size' offset').length := by rwa [hlen]
          have hget : buf'' i = ((fs₂.volume.file n).slice size' offset')[i] := by
            rw [List.getElem_of_eq hbuf.symm, List.getElem_map, List.getElem_range]
          rw [hget, List.getElem_of_eq hslice, List.getElem_take, List.getElem_drop, List.getElem_map,
            List.getElem_range]
      | read_none hnone =>
          rw [hopened'] at hnone
          cases hnone

/-- The bytes of a file are read after a mount. -/
theorem read_written_session : ∃ (fs fs₁ fs₂ fs₃ : FS) (es : List (Input × Option Reply))
    (fi fi' : FuseFileInfo) (buf : Nat → UInt8),
    Does fs (demoCall (.write fi demoBytes 3 0)) (some (.status 3)) fs₁ ∧ Run Does fs₁ es fs₂ ∧
      es.length = 3 ∧ Does fs₂ (demoCall (.read fi' (fun _ => 0) 3 0)) (some (.data 3 buf)) fs₃ ∧
      buf 0 = 0x61 ∧ buf 1 = 0x62 ∧ buf 2 = 0x63 := by
  obtain ⟨fs, fs₁, fi, m, l, -, -, -, -, -, hdemo₁⟩ := demo_create
  obtain ⟨fs₂, hwrite, hdemo₂⟩ := hdemo₁.write (Function.update_self ..)
  obtain ⟨fs₃, hrelease, hdemo₃⟩ := hdemo₂.release
  obtain ⟨fs₄, hremount, hdemo₄⟩ := hdemo₃.remount
  obtain ⟨fi', fs₅, hopen, hdemo₅⟩ := hdemo₄.open
  obtain ⟨buf, fs₆, hread, -⟩ := hdemo₅.read (Function.update_self ..)
  obtain ⟨l₁, hserving₁, -⟩ := hdemo₁.serving
  have hrun : Run (SparesBytes m) fs₂ _ fs₅ :=
    .cons ⟨hrelease, id⟩ <| .cons ⟨hremount, id⟩ <| .single ⟨hopen, id⟩
  have hopened₁ : fs₁.volume.opened (FuseFileInfo.mk 0 fi.fh).fh = some m := by
    rw [hdemo₁.opened, Function.update_self]
  have hopened₅ : fs₅.volume.opened (FuseFileInfo.mk 0 fi'.fh).fh = some m := by
    rw [hdemo₅.opened, Function.update_self]
  obtain ⟨-, hbuf⟩ := read_written hserving₁ hopened₁ hwrite hrun hopened₅ hread (Nat.le_refl 0) (by decide)
  exact ⟨fs₁, fs₂, fs₅, fs₆, _, _, _, buf, hwrite,
    .cons hrelease <| .cons hremount <| .single hopen, rfl, hread, hbuf 0 (by decide), hbuf 1 (by decide),
    hbuf 2 (by decide)⟩

end ReadWritten

/-! ## Storage -/

/-- Every block of the data region is on the free list once or in one file once, and the
inodes that are in use are those of the tree. -/
structure Accounted (fs : FS) (l : List Nat) : Prop where
  free : FreeBlocks fs.disk l
  blocks : ∀ b, dataRegionStart ≤ b → b < fs.disk.backend.capacity →
    (l.count b = 1 ∧ ∀ i, fs.tree.Reached i → b ∉ fs.blocksOf i) ∨
      b ∉ l ∧ ∃ i, fs.tree.Reached i ∧ (fs.blocksOf i).count b = 1 ∧
        ∀ j, fs.tree.Reached j → b ∈ fs.blocksOf j → j = i
  inodes : ∀ i < numOfInodes, (fs.seen i).type ≠ .free ↔ fs.tree.Reached i
  offered : ∀ i < 512, listed (fs.disk.blocks 3) i ≠ 0 →
    (fs.seen (listed (fs.disk.blocks 3) i)).type = .free
  /-- Each number that is not in use is on the list, once. -/
  numbers : ∀ n, 0 < n → n ≤ 512 → ¬ fs.tree.Reached n → ∃! i, i < 512 ∧ listed (fs.disk.blocks 3) i = n
  bounded : ∀ n, fs.tree.Reached n → n ≤ 512

section Storage

variable {fs fs' : FS} {l : List Nat} {es : List (Input × Option Reply)}

/-- What serves accounts for all blocks and inodes. -/
theorem Serving.accounted (h : Serving fs l) : Accounted fs l where
  free := h.free
  blocks := by
    intro b hb hcap
    have hnodup : ∀ i, fs.tree.Reached i → (l ++ fs.blocksOf i).Nodup := fun i hi => (h.own i hi).nodup
    by_cases hmem : b ∈ l
    · refine .inl ⟨List.count_eq_one_of_mem (List.nodup_append.mp (hnodup 0 .refl)).1 hmem, ?_⟩
      exact fun i hi hcon => (List.nodup_append.mp (hnodup i hi)).2.2 b hmem b hcon rfl
    · obtain ⟨i, hi, hbi⟩ := (h.complete b hb hcap).resolve_left hmem
      refine .inr ⟨hmem, i, hi, List.count_eq_one_of_mem (List.nodup_append.mp (hnodup i hi)).2.1 hbi, ?_⟩
      intro j hj hbj
      by_contra hij
      exact h.apart j i hj hi hij hbj hbi
  inodes := h.used
  offered := fun i hi hne => (h.unused i hi hne).type
  numbers := by
    intro n h0 hn hunreached
    obtain ⟨i, hi, heq⟩ := (h.kept n h0 hn).resolve_left hunreached
    refine ⟨i, ⟨hi, heq⟩, fun j ⟨hj, hj'⟩ => ?_⟩
    exact h.once j hj i hi (by omega) (hj'.trans heq.symm)
  bounded := h.reached_le

/-- **No block and no inode is lost or used twice**, from the time the file system is made. -/
theorem storage_accounted {getHash : Nat → Nat → Fin inodeHashSize} {d : Disk}
    (hdev : d.backend.isDiskAvailable) (hmount : mount getHash d.makeFileSystem = .ok fs)
    (hrun : Run Does fs es fs') : ∃ l, Accounted fs' l := by
  obtain ⟨⟨l, hserving⟩, -⟩ := (serving_new hdev hmount).1.invariant (p := fun _ => True) hrun id
    (fun _ _ _ _ _ => trivial) trivial
  exact ⟨l, hserving.accounted⟩

/-- A file has been created, written and taken away. -/
theorem storage_accounted_session : ∃ (fs fs' : FS) (es : List (Input × Option Reply)) (l : List Nat),
    mount (fun _ _ => 0) AllocState.smallDisk.makeFileSystem = .ok fs ∧ es.length = 4 ∧ Run Does fs es fs' ∧
      Accounted fs' l := by
  obtain ⟨fs, fs₁, fi, m, l, hmount, -, -, -, hcreate, hdemo₁⟩ := demo_create
  obtain ⟨fs₂, hwrite, hdemo₂⟩ := hdemo₁.write (Function.update_self ..)
  obtain ⟨fs₃, hrelease, hdemo₃⟩ := hdemo₂.release
  obtain ⟨fs₄, hunlink, -⟩ := hdemo₃.unlink
  have hrun := Run.cons hcreate <| .cons hwrite <| .cons hrelease <| .single hunlink
  obtain ⟨l', haccounted⟩ := storage_accounted (d := AllocState.smallDisk) rfl hmount hrun
  exact ⟨fs, fs₄, _, l', hmount, rfl, hrun, haccounted⟩

end Storage

end FS

end Naofs
