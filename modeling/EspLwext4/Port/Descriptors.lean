import EspLwext4.Port.Table

/-!
# What stays with an open descriptor

A descriptor keeps its path, its flags and its inode until it is closed, whatever
the operations of the mount do to names, sizes and contents. The same passage over
the operations carries any relation between states of lwext4 that every call keeps
except the ones that remove names.
-/

namespace EspLwext4.Port

open Prog

variable {σ D : Type}

/-! ## The calls -/

def SameInode (st st' : FileSt σ) : Prop := st'.file.inode = st.file.inode

/-- A call on an open file never turns it into another file. -/
structure InodeLaws (env : Env σ D) : Prop where
  fread : ∀ n st, Keeps SameInode (env.lwext4.fread n) st
  fwrite : ∀ bytes st, Keeps SameInode (env.lwext4.fwrite bytes) st
  fseek : ∀ offset whence st, Keeps SameInode (env.lwext4.fseek offset whence) st
  ftruncate : ∀ size st, Keeps SameInode (env.lwext4.ftruncate size) st
  fclose_failed : ∀ st, wp env.lwext4.fclose (fun _ _ => True) (fun _ => SameInode st) st

def FileSt.FsRel (H : σ → σ → Prop) (st st' : FileSt σ) : Prop := H st.fs st'.fs

def DirSt.FsRel (H : σ → σ → Prop) (st st' : DirSt σ D) : Prop := H st.fs st'.fs

/-- The calls that remove no name keep `H`. -/
structure CallsKeep (env : Env σ D) (H : σ → σ → Prop) : Prop where
  malloc : ∀ n s, H s (env.idf.malloc n s).2
  semaphoreTake : ∀ s, H s (env.idf.semaphoreTake s).2
  now : ∀ s, H s (env.idf.now s).2
  inodeExist : ∀ p type s, Keeps H (env.lwext4.inodeExist p type) s
  fopen2 : ∀ p flags st, Keeps (FileSt.FsRel H) (env.lwext4.fopen2 p flags) st
  fclose : ∀ st, Keeps (FileSt.FsRel H) env.lwext4.fclose st
  fread : ∀ n st, Keeps (FileSt.FsRel H) (env.lwext4.fread n) st
  fwrite : ∀ bytes st, Keeps (FileSt.FsRel H) (env.lwext4.fwrite bytes) st
  fseek : ∀ offset whence st, Keeps (FileSt.FsRel H) (env.lwext4.fseek offset whence) st
  ftruncate : ∀ size st, Keeps (FileSt.FsRel H) (env.lwext4.ftruncate size) st
  rawInodeFill : ∀ p s, Keeps H (env.lwext4.rawInodeFill p) s
  getSblock : ∀ p s, Keeps H (env.lwext4.getSblock p) s
  mountPointStats : ∀ p s, Keeps H (env.lwext4.mountPointStats p) s
  cacheFlush : ∀ p s, Keeps H (env.lwext4.cacheFlush p) s
  flink : ∀ p q s, Keeps H (env.lwext4.flink p q) s
  frename : ∀ p q s, Keeps H (env.lwext4.frename p q) s
  dirOpen : ∀ p s, Keeps H (env.lwext4.dirOpen p) s
  dirClose : ∀ st, Keeps (DirSt.FsRel H) env.lwext4.dirClose st
  dirEntryNext : ∀ st, H st.fs (env.lwext4.dirEntryNext st).2.fs
  dirEntryRewind : ∀ st, H st.fs (env.lwext4.dirEntryRewind st).fs
  dirMk : ∀ p s, Keeps H (env.lwext4.dirMk p) s
  modeSet : ∀ p mode s, Keeps H (env.lwext4.modeSet p mode) s
  atimeSet : ∀ p t s, Keeps H (env.lwext4.atimeSet p t) s
  mtimeSet : ∀ p t s, Keeps H (env.lwext4.mtimeSet p t) s

theorem CallsKeep.mono {env : Env σ D} {H H' : σ → σ → Prop} (hK : CallsKeep env H)
    (h : ∀ s s', H s s' → H' s s') : CallsKeep env H' where
  malloc n s := h _ _ (hK.malloc n s)
  semaphoreTake s := h _ _ (hK.semaphoreTake s)
  now s := h _ _ (hK.now s)
  inodeExist p type s := (hK.inodeExist p type s).mono (h s)
  fopen2 p flags st := (hK.fopen2 p flags st).mono fun _ => h _ _
  fclose st := (hK.fclose st).mono fun _ => h _ _
  fread n st := (hK.fread n st).mono fun _ => h _ _
  fwrite bytes st := (hK.fwrite bytes st).mono fun _ => h _ _
  fseek offset whence st := (hK.fseek offset whence st).mono fun _ => h _ _
  ftruncate size st := (hK.ftruncate size st).mono fun _ => h _ _
  rawInodeFill p s := (hK.rawInodeFill p s).mono (h s)
  getSblock p s := (hK.getSblock p s).mono (h s)
  mountPointStats p s := (hK.mountPointStats p s).mono (h s)
  cacheFlush p s := (hK.cacheFlush p s).mono (h s)
  flink p q s := (hK.flink p q s).mono (h s)
  frename p q s := (hK.frename p q s).mono (h s)
  dirOpen p s := (hK.dirOpen p s).mono (h s)
  dirClose st := (hK.dirClose st).mono fun _ => h _ _
  dirEntryNext st := h _ _ (hK.dirEntryNext st)
  dirEntryRewind st := h _ _ (hK.dirEntryRewind st)
  dirMk p s := (hK.dirMk p s).mono (h s)
  modeSet p mode s := (hK.modeSet p mode s).mono (h s)
  atimeSet p t s := (hK.atimeSet p t s).mono (h s)
  mtimeSet p t s := (hK.mtimeSet p t s).mono (h s)

/-- Every call keeps the relation that holds of all states. -/
theorem CallsKeep.trivial (env : Env σ D) : CallsKeep env fun _ _ => True := by
  constructor
  all_goals first
    | exact fun _ _ _ => wp_trivial _ _
    | exact fun _ _ => wp_trivial _ _
    | exact fun _ => wp_trivial _ _
    | exact fun _ _ => True.intro
    | exact fun _ => True.intro

/-! ## Work on one file -/

/-- The work kept `H` and the inode of its file. -/
def FileKept (H : σ → σ → Prop) (st st' : FileSt σ) : Prop := H st.fs st'.fs ∧ SameInode st st'

section File

variable {env : Env σ D} {H : σ → σ → Prop} {α : Type} {st : FileSt σ}

theorem FileKept.of_calls {m : Call (FileSt σ) α} (hfs : Keeps (FileSt.FsRel H) m st)
    (hfile : Keeps SameInode m st) : Keeps (FileKept H) m st :=
  keeps_final.mpr ⟨keeps_final.mp hfs, keeps_final.mp hfile⟩

theorem FileKept.onFs {m : Call σ α} (h : ∀ s, Keeps H m s) :
    Keeps (FileKept H) (zoom FileSt.fsLens m) st :=
  Keeps.zoom_of (h st.fs) fun _ hs => ⟨hs, rfl⟩

theorem keeps_fseek (hK : CallsKeep env H) (hI : InodeLaws env) (offset : ℤ)
    (whence : Whence) :
    Keeps (FileKept H) (env.lwext4.fseek offset whence) st :=
  FileKept.of_calls (hK.fseek offset whence st) (hI.fseek offset whence st)

theorem keeps_fread (hK : CallsKeep env H) (hI : InodeLaws env) (n : ℕ) : Keeps (FileKept H) (env.lwext4.fread n) st :=
  FileKept.of_calls (hK.fread n st) (hI.fread n st)

theorem keeps_fwrite (hK : CallsKeep env H) (hI : InodeLaws env) (bytes : List UInt8) :
    Keeps (FileKept H) (env.lwext4.fwrite bytes) st :=
  FileKept.of_calls (hK.fwrite bytes st) (hI.fwrite bytes st)

variable [StepRel H]

instance : StepRel (FileSt.FsRel H) where
  refl st := StepRel.refl (R := H) st.fs
  trans h h' := StepRel.trans (R := H) h h'

instance : StepRel (DirSt.FsRel H : DirSt σ D → DirSt σ D → Prop) where
  refl st := StepRel.refl (R := H) st.fs
  trans h h' := StepRel.trans (R := H) h h'

instance : StepRel (FileKept H) where
  refl st := ⟨StepRel.refl st.fs, rfl⟩
  trans h h' := ⟨StepRel.trans h.1 h'.1, h'.2.trans h.2⟩

theorem keeps_setFsize (size : ℕ) : Keeps (FileKept H) (setFsize size) st :=
  ⟨StepRel.refl st.fs, rfl⟩

variable (hK : CallsKeep env H) (hI : InodeLaws env)

include hK

theorem keeps_currentFileSize (path : CStr) :
    Keeps (FileKept H) (currentFileSizeLocked env path) st :=
  Keeps.bind (FileKept.onFs (hK.rawInodeFill path)) fun _ _ =>
    Keeps.bind Keeps.getState fun _ _ => Keeps.bind (Keeps.failIf _ _) fun _ _ =>
      Keeps.bind (FileKept.onFs (hK.getSblock path)) fun _ _ => Keeps.pure _

include hI

theorem keeps_seekToCurrentEnd (path : CStr) :
    Keeps (FileKept H) (seekToCurrentEndLocked env path) st :=
  Keeps.bind (keeps_currentFileSize hK path) fun _ _ => Keeps.bind (Keeps.failIf _ _) fun _ _ =>
    Keeps.bind (keeps_setFsize _) fun _ _ => keeps_fseek hK hI _ _

theorem keeps_growLoop (grow : GrowBuffer) (newSize rounds currentSize : ℕ) :
    Keeps (FileKept H) (growLoop env grow newSize rounds currentSize) st := by
  induction rounds generalizing currentSize st with
  | zero => exact Keeps.pure _
  | succ rounds ih =>
    refine Keeps.ite (fun _ => ?_) fun _ => Keeps.pure _
    exact Keeps.bind (keeps_fwrite hK hI _) fun _ _ => Keeps.bind (Keeps.failIf _ _) fun _ _ => ih _

theorem keeps_resizeFile (grow : GrowBuffer) (path : CStr) (newSize : ℕ) :
    Keeps (FileKept H) (resizeFileLocked env grow path newSize) st := by
  refine Keeps.bind (Keeps.failIf _ _) fun _ _ => ?_
  refine Keeps.bind (keeps_currentFileSize hK path) fun _ _ => Keeps.ite (fun _ => ?_) fun _ => ?_
  · exact FileKept.of_calls (hK.ftruncate _ _) (hI.ftruncate _ _)
  · refine Keeps.bind (Keeps.bind Keeps.getState fun _ _ => Keeps.pure _) fun _ _ => ?_
    refine Keeps.bind (keeps_setFsize _) fun _ _ => Keeps.bind (Keeps.attempt ?_) fun _ _ => ?_
    · exact Keeps.bind (keeps_fseek hK hI _ _) fun _ _ => keeps_growLoop hK hI _ _ _ _
    · exact Keeps.bind (keeps_fseek hK hI _ _).attempt fun _ _ => Keeps.firstError _ _

theorem keeps_seekLocked (offset : ℤ) (whence : Whence) :
    Keeps (FileKept H) (seekLocked env offset whence) st :=
  Keeps.bind (Keeps.failIf _ _) fun _ _ => Keeps.bind (Keeps.failIf _ _) fun _ _ =>
    Keeps.bind (keeps_fseek hK hI _ _) fun _ _ =>
      Keeps.bind (Keeps.bind Keeps.getState fun _ _ => Keeps.pure _) fun _ _ =>
        Keeps.bind (Keeps.failIf _ _) fun _ _ => Keeps.pure _

theorem keeps_transfer (request : IoRequest) : Keeps (FileKept H) (transfer env request) st := by
  cases request with
  | read size => exact Keeps.bind (keeps_fread hK hI _) fun _ _ => Keeps.pure _
  | write bytes => exact Keeps.bind (keeps_fwrite hK hI _) fun _ _ => Keeps.pure _

theorem keeps_positionedIo (grow : GrowBuffer) (path : CStr) (request : IoRequest) (offset : ℕ) :
    Keeps (FileKept H) (positionedIoLocked env grow path request offset) st := by
  refine Keeps.bind (Keeps.bind Keeps.getState fun _ _ => Keeps.pure _) fun _ _ => ?_
  refine Keeps.bind (Keeps.failIf _ _) fun _ _ => Keeps.bind (Keeps.attempt ?_) fun _ _ => ?_
  · refine Keeps.ite (fun _ => Keeps.pure _) fun _ => ?_
    refine Keeps.bind (keeps_currentFileSize hK path) fun _ _ => ?_
    refine Keeps.bind (Keeps.whenever fun _ => keeps_resizeFile hK hI _ _ _) fun _ _ => ?_
    refine Keeps.ite (fun _ => Keeps.pure _) fun _ => ?_
    exact Keeps.bind (keeps_fseek hK hI _ _) fun _ _ => keeps_transfer hK hI _
  · exact Keeps.bind (keeps_fseek hK hI _ _).attempt fun _ _ => Keeps.firstError _ _

end File

/-! ## Work on names and directories -/

section Names

variable {env : Env σ D} {H : σ → σ → Prop} {s : σ}

theorem keeps_takeLock (hK : CallsKeep env H) : Keeps H (takeLock env.idf) s :=
  wp_takeLock (hK.semaphoreTake s) (hK.semaphoreTake s)

theorem keeps_allocate (hK : CallsKeep env H) (size : ℕ) : Keeps H (env.idf.allocate size) s :=
  wp_allocate (hK.malloc size s) (hK.malloc size s)

variable [StepRel H]

theorem keeps_scanLoop (hK : CallsKeep env H) (rounds : ℕ) (st : DirSt σ D) :
    H st.fs (scanLoop env rounds st).2.fs := by
  induction rounds generalizing st with
  | zero => exact StepRel.refl (R := H) st.fs
  | succ rounds ih =>
    have h := hK.dirEntryNext st
    unfold scanLoop
    cases hnext : env.lwext4.dirEntryNext st with
    | mk entry st' =>
      rw [hnext] at h
      cases entry with
      | none => exact h
      | some e =>
        simp only
        split_ifs
        · exact h
        · exact StepRel.trans h (ih st')

theorem keeps_scan (hK : CallsKeep env H) (st : DirSt σ D) :
    Keeps (DirSt.FsRel H) (scan env) st := by
  have h := keeps_scanLoop hK (env.lwext4.dirLeft st.dir + 1) st
  exact keeps_final.mpr h

variable (hK : CallsKeep env H)

include hK

theorem keeps_makePath (mountPoint vfsPath : CStr) :
    Keeps H (makePath env.idf mountPoint vfsPath) s :=
  Keeps.bind (Keeps.failIf _ _) fun _ _ => Keeps.bind (Keeps.failIf _ _) fun _ _ =>
    Keeps.bind (keeps_allocate hK _) fun _ _ => Keeps.pure _

theorem keeps_directoryIsEmpty (path : CStr) : Keeps H (directoryIsEmptyLocked env path) s := by
  refine Keeps.bind (hK.dirOpen path s) fun directory s' => ?_
  unfold Keeps
  rw [wp_within]
  exact Keeps.bind (keeps_scan hK _) fun _ st => Keeps.bind (hK.dirClose st) fun _ _ => Keeps.pure _

theorem keeps_mustBeAbsent (path : CStr) (type : DeType) (found : Errno) :
    Keeps H (mustBeAbsent env path type found) s := by
  refine Keeps.bind (hK.inodeExist path type s).attempt fun result s' => ?_
  cases result with
  | ok _ => exact Keeps.raise _
  | error e => exact Keeps.failIf _ _

theorem keeps_openChecks (fullPath : CStr) (flags : OpenFlags) :
    Keeps H (openChecks env fullPath flags) s :=
  Keeps.ite (fun _ => keeps_mustBeAbsent hK _ _ _) fun _ => keeps_mustBeAbsent hK _ _ _

theorem keeps_statPath (path : CStr) : Keeps H (statPathLocked env path) s := by
  refine Keeps.bind (hK.rawInodeFill path s) fun _ s' => ?_
  refine Keeps.bind (hK.getSblock path s') fun _ _ => Keeps.bind (Keeps.failIf _ _) fun _ s' => ?_
  refine Keeps.bind (hK.mountPointStats path s').attempt fun stats _ => ?_
  cases stats with
  | ok _ => exact Keeps.pure _
  | error _ => exact Keeps.pure _

theorem keeps_pathInfo (path : CStr) : Keeps H (pathInfoLocked env path) s :=
  Keeps.bind (hK.rawInodeFill path s) fun _ s' => Keeps.bind (hK.getSblock path s') fun _ _ =>
    Keeps.pure _

theorem keeps_mkdirLocked (path : CStr) (mode : ℕ) : Keeps H (mkdirLocked env path mode) s :=
  Keeps.bind (keeps_mustBeAbsent hK _ _ _) fun _ s' => Keeps.bind (hK.dirMk path s') fun _ s'' =>
    hK.modeSet path mode s''

theorem keeps_utimeLocked (path : CStr) (actime modtime : ℕ) :
    Keeps H (utimeLocked env path actime modtime) s :=
  Keeps.bind (hK.atimeSet path actime s) fun _ s' => hK.mtimeSet path modtime s'

theorem keeps_truncateLocked (hI : InodeLaws env) (grow : GrowBuffer) (length : ℕ)
    (fullPath : CStr) : Keeps H (truncateLocked env grow length fullPath) s := by
  unfold truncateLocked Keeps
  rw [wp_within]
  have hwork (st : FileSt σ) :
      Keeps (FileSt.FsRel H) (resizeFileLocked env grow fullPath length) st :=
    keeps_final.mpr (keeps_final.mp (keeps_resizeFile hK hI grow fullPath length)).1
  exact Keeps.bind (R := FileSt.FsRel H) (hK.fopen2 fullPath .rdwr ⟨s, .zero⟩) fun _ st =>
    Keeps.bind (hwork st).attempt fun _ st' => Keeps.bind (hK.fclose st').attempt fun _ _ =>
      Keeps.ofExcept _

end Names

/-! ## Work on a directory handle -/

section Handle

variable {env : Env σ D} {H : σ → σ → Prop} {hst : HandleSt σ D}

def HandleSt.FsRel (H : σ → σ → Prop) (hst hst' : HandleSt σ D) : Prop := H hst.fs hst'.fs

theorem keeps_entryNext (hK : CallsKeep env H) :
    Keeps (HandleSt.FsRel H) (entryNext env) hst :=
  Keeps.zoom_of (S := DirSt.FsRel H) (hK.dirEntryNext _) fun _ h => h

variable [StepRel H]

instance : StepRel (HandleSt.FsRel H : HandleSt σ D → HandleSt σ D → Prop) where
  refl hst := StepRel.refl (R := H) hst.fs
  trans h h' := StepRel.trans (R := H) h h'

theorem keeps_bumpOffset : Keeps (HandleSt.FsRel H) (bumpOffset : Call (HandleSt σ D) Unit) hst :=
  StepRel.refl (R := H) hst.fs

variable (hK : CallsKeep env H)

include hK

theorem keeps_readdirLocked : Keeps (HandleSt.FsRel H) (readdirLocked env) hst := by
  refine Keeps.bind (keeps_entryNext hK) fun source _ => ?_
  cases source with
  | none => exact Keeps.pure _
  | some entry => exact Keeps.bind keeps_bumpOffset fun _ _ => Keeps.pure _

theorem keeps_seekdirLoop (rounds : ℕ) :
    Keeps (HandleSt.FsRel H) (seekdirLoop env rounds) hst := by
  induction rounds generalizing hst with
  | zero => exact Keeps.pure _
  | succ rounds ih =>
    refine Keeps.bind (keeps_entryNext hK) fun entry _ => ?_
    cases entry with
    | none => exact Keeps.pure _
    | some _ => exact Keeps.bind keeps_bumpOffset fun _ _ => ih

theorem keeps_seekdirLocked (offset : ℕ) :
    Keeps (HandleSt.FsRel H) (seekdirLocked env offset) hst := by
  refine Keeps.bind Keeps.getState fun _ _ => Keeps.bind (Keeps.whenever fun _ => ?_) fun _ _ =>
    Keeps.bind Keeps.getState fun _ _ => keeps_seekdirLoop hK _
  refine Keeps.bind ?_ fun _ hst' => StepRel.refl (R := H) hst'.fs
  exact Keeps.zoom_of (S := DirSt.FsRel H) (hK.dirEntryRewind _) fun _ h => h

end Handle

/-! ## The file of a new descriptor -/

/-- Opening a slot is a call of `ext4_fopen2` on a cleared file; the other slots stay. -/
theorem wp_openSlot_files {env : Env σ D} {st : MountSt σ D} (fd : ℕ) (fullPath : CStr)
    (flags : OpenFlags) :
    wp (openSlot env fd fullPath flags)
      (fun fd' st' => fd' = fd ∧ (∀ i, i ≠ fd → st'.ctx.file i = st.ctx.file i) ∧
        ∃ fst, env.lwext4.fopen2 fullPath flags ⟨st.fs, .zero⟩ = .ok () fst ∧ st'.fs = fst.fs ∧
          (st'.ctx.usedAt fd = true → (st'.ctx.file fd).file = fst.file))
      (fun e st' => (∀ i, i ≠ fd → st'.ctx.file i = st.ctx.file i) ∧
        ∃ fst, env.lwext4.fopen2 fullPath flags ⟨st.fs, .zero⟩ = .err e fst ∧ st'.fs = fst.fs)
      st := by
  have hget : (MountSt.fileLens fd).get
      ({ st with ctx := st.ctx.setFile fd { st.ctx.file fd with file := .zero } } : MountSt σ D) =
        ⟨st.fs, .zero⟩ := by
    by_cases hlt : fd < st.ctx.files.length
    · show (⟨st.fs, ((st.ctx.setFile fd _).file fd).file⟩ : FileSt σ) = _
      rw [file_setFile_lt st.ctx _ hlt]
    · have hnone : ((st.ctx.setFile fd { st.ctx.file fd with file := .zero }).file fd) = .zero := by
        unfold Ctx.file Ctx.setFile
        exact List.getD_eq_default _ _ (by simpa using hlt)
      show (⟨st.fs, ((st.ctx.setFile fd _).file fd).file⟩ : FileSt σ) = _
      rw [hnone]
      rfl
  unfold openSlot updateCtx
  simp only [wp_bind, wp_update, wp_attempt, wp_zoom, wp_ofExcept, wp_pure]
  rw [hget]
  unfold wp
  cases hopen : env.lwext4.fopen2 fullPath flags ⟨st.fs, .zero⟩ with
  | ok _ fst =>
    refine ⟨fun _ _ => ⟨trivial, fun i hi => ?_, fst, rfl, rfl, fun hu => ?_⟩, fun _ he => by cases he⟩
    · show (((st.ctx.setFile fd _).setFile fd _).setFile fd _).file i = _
      rw [file_setFile_ne _ _ hi, file_setFile_ne _ _ hi, file_setFile_ne _ _ hi]
    · have hlt : fd < st.ctx.files.length := by
        have h := usedAt_lt_length hu
        unfold MountSt.fileLens Ctx.setFile at h
        simpa using h
      show ((((st.ctx.setFile fd _).setFile fd _).setFile fd _).file fd).file = _
      rw [file_setFile_lt _ _ (by unfold Ctx.setFile; simpa using hlt)]
      show ((((st.ctx.setFile fd _).setFile fd _)).file fd).file = _
      rw [file_setFile_lt _ _ (by unfold Ctx.setFile; simpa using hlt)]
  | err e fst =>
    refine ⟨fun _ ha => (by cases ha), ?_⟩
    rintro _ ⟨⟩
    refine ⟨fun i hi => ?_, fst, rfl, rfl⟩
    show ((st.ctx.setFile fd _).setFile fd _).file i = _
    rw [file_setFile_ne _ _ hi, file_setFile_ne _ _ hi]
  | fault x => exact x.elim

/-! ## Operations -/

/-- What a slot keeps while it is used. -/
structure SameFile (f f' : EspFile) : Prop where
  slot : f'.slot = f.slot
  inode : f'.file.inode = f.file.inode

/-- The operation kept `H`, and every used slot among `S` its path, its flags and its
inode. -/
def SlotsKept (H : σ → σ → Prop) (S : ℕ → Prop) (st st' : MountSt σ D) : Prop :=
  H st.fs st'.fs ∧
    ∀ i, S i → st.ctx.usedAt i = true → SameFile (st.ctx.file i) (st'.ctx.file i)

theorem SameFile.used {f f' : EspFile} (h : SameFile f f') (hu : f.used = true) :
    f'.used = true := (congrArg Slot.used h.slot).trans hu

section Operations

variable {env : Env σ D} {H : σ → σ → Prop} {S : ℕ → Prop} {α : Type} {st : MountSt σ D}

theorem SlotsKept.onFs {m : Call σ α} (h : ∀ s, Keeps H m s) :
    Keeps (SlotsKept H S) (onFs m : Call (MountSt σ D) α) st :=
  Keeps.zoom_of (h st.fs) fun _ hs => ⟨hs, fun _ _ _ => ⟨rfl, rfl⟩⟩

/-- Work on one file keeps the others, and its own inode. -/
theorem SlotsKept.fileLens (fd : ℕ) {m : Call (FileSt σ) α}
    (h : ∀ fst, Keeps (FileKept H) m fst) :
    Keeps (SlotsKept H S) (zoom (MountSt.fileLens fd) m : Call (MountSt σ D) α) st := by
  refine Keeps.zoom_of (h _) fun fst hk => ⟨hk.1, fun i _ hu => ?_⟩
  by_cases hi : i = fd
  · subst hi
    show SameFile _ ((st.ctx.setFile i { st.ctx.file i with file := fst.file }).file i)
    rw [file_setFile st.ctx _ hu]
    exact ⟨rfl, hk.2⟩
  · show SameFile _ ((st.ctx.setFile fd _).file i)
    rw [file_setFile_ne st.ctx _ hi]
    exact ⟨rfl, rfl⟩

theorem SlotsKept.handleLens (id : ℕ) (dir : EspDir D) {m : Call (HandleSt σ D) α}
    (h : ∀ hst, Keeps (HandleSt.FsRel H) m hst) :
    Keeps (SlotsKept H S) (zoom (MountSt.handleLens id dir) m) st :=
  Keeps.zoom_of (h _) fun _ hk => ⟨hk, fun _ _ _ => ⟨rfl, rfl⟩⟩

theorem SlotsKept.mono {S' : ℕ → Prop} {st' : MountSt σ D} (h : SlotsKept H S st st')
    (hS : ∀ i, S' i → S i) : SlotsKept H S' st st' := ⟨h.1, fun i hi => h.2 i (hS i hi)⟩

/-- Nothing is promised of a slot that is not used. -/
theorem SlotsKept.of_unused {st' : MountSt σ D} {fd : ℕ} (hfs : H st.fs st'.fs)
    (hu : st.ctx.usedAt fd = false) (h : ∀ i, i ≠ fd → st'.ctx.file i = st.ctx.file i) :
    SlotsKept H S st st' := by
  refine ⟨hfs, fun i _ hui => ?_⟩
  have hi : i ≠ fd := by
    rintro rfl
    rw [hu] at hui
    cases hui
  rw [h i hi]
  exact ⟨rfl, rfl⟩

theorem SlotsKept.removal {st' : MountSt σ D} (hH : H st.fs st'.fs)
    (h : SlotsKept (fun _ _ => True) S st st') : SlotsKept H S st st' := ⟨hH, h.2⟩

variable [StepRel H]

instance : StepRel (SlotsKept H S : MountSt σ D → MountSt σ D → Prop) where
  refl st := ⟨StepRel.refl st.fs, fun _ _ _ => ⟨rfl, rfl⟩⟩
  trans h h' := by
    refine ⟨StepRel.trans h.1 h'.1, fun i hi hu => ?_⟩
    have h₁ := h.2 i hi hu
    have h₂ := h'.2 i hi (h₁.used hu)
    exact ⟨h₂.slot.trans h₁.slot, h₂.inode.trans h₁.inode⟩

theorem SlotsKept.updateCtx {f : Ctx D → Ctx D} (h : (f st.ctx).files = st.ctx.files) :
    Keeps (SlotsKept H S) (updateCtx f : Call (MountSt σ D) Unit) st := by
  refine (wp_update _).mpr ⟨StepRel.refl st.fs, fun i _ _ => ?_⟩
  have hfile : (f st.ctx).file i = st.ctx.file i := by
    unfold Ctx.file
    rw [h]
  show SameFile _ ((f st.ctx).file i)
  rw [hfile]
  exact ⟨rfl, rfl⟩

theorem SlotsKept.refuseReadOnly :
    Keeps (SlotsKept H S) (refuseReadOnly : Call (MountSt σ D) Unit) st :=
  Keeps.bind Keeps.getState fun _ _ => Keeps.failIf _ _

theorem SlotsKept.fileGet (fd : ℤ) :
    Keeps (SlotsKept H S) (fileGet fd : Call (MountSt σ D) ℕ) st :=
  Keeps.bind Keeps.getState fun _ _ => Keeps.bind (Keeps.failIf _ _) fun _ _ => Keeps.pure _

theorem SlotsKept.handleGet (pdir : Option ℕ) :
    Keeps (SlotsKept H S) (handleGet pdir : Call (MountSt σ D) (ℕ × EspDir D)) st := by
  apply Keeps.bind Keeps.getState
  intro st₁ st₂
  cases pdir with
  | none => exact Keeps.raise _
  | some id =>
    simp only
    split
    · exact Keeps.raise _
    · exact Keeps.pure _

theorem SlotsKept.timesOrNow (hK : CallsKeep env H) (times : Option (ℤ × ℤ)) :
    Keeps (SlotsKept H S) (timesOrNow env times : Call (MountSt σ D) (ℤ × ℤ)) st := by
  cases times with
  | some times => exact Keeps.pure _
  | none =>
    have hnow : Keeps (SlotsKept H S) (currentTime env : Call (MountSt σ D) ℤ) st :=
      ⟨hK.now st.fs, fun _ _ _ => ⟨rfl, rfl⟩⟩
    exact Keeps.bind hnow fun _ _ => Keeps.pure _

section Guarded

variable (hK : CallsKeep env H)

include hK

theorem SlotsKept.locked {m : Call (MountSt σ D) α} (h : ∀ st', Keeps (SlotsKept H S) m st') :
    Keeps (SlotsKept H S) (locked env m) st :=
  Keeps.bind (SlotsKept.onFs fun _ => keeps_takeLock hK) fun _ => h

theorem SlotsKept.fullPathOf (path : CStr) :
    Keeps (SlotsKept H S) (fullPathOf env path : Call (MountSt σ D) CStr) st :=
  Keeps.bind Keeps.getState fun _ _ => SlotsKept.onFs fun _ => keeps_makePath hK _ _

theorem SlotsKept.onPath (path : CStr) {m : CStr → Call σ α} (h : ∀ p s, Keeps H (m p) s) :
    Keeps (SlotsKept H S) (onPath env path m : Call (MountSt σ D) α) st :=
  Keeps.bind (SlotsKept.fullPathOf hK path) fun p _ =>
    SlotsKept.locked hK fun _ => SlotsKept.onFs (h p)

theorem SlotsKept.twoPathOperation (first second : CStr) {operation : CStr → CStr → Call σ Unit}
    (h : ∀ p q s, Keeps H (operation p q) s) :
    Keeps (SlotsKept H S) (twoPathOperation env first second operation) st :=
  Keeps.bind (SlotsKept.fullPathOf hK first) fun p _ =>
    Keeps.bind (SlotsKept.fullPathOf hK second) fun q _ =>
      SlotsKept.locked hK fun _ => SlotsKept.onFs (h p q)

theorem SlotsKept.onOpenFile (fd : ℤ) (forbidden : Option AccMode)
    {m : GrowBuffer → EspFile → Call (FileSt σ) α}
    (h : ∀ grow slot fst, Keeps (FileKept H) (m grow slot) fst) :
    Keeps (SlotsKept H S) (onOpenFile env fd forbidden m) st :=
  SlotsKept.locked hK fun _ => Keeps.bind (SlotsKept.fileGet fd) fun _ _ =>
    Keeps.bind Keeps.getState fun _ _ => Keeps.bind (Keeps.failIf _ _) fun _ _ =>
      SlotsKept.fileLens _ (h _ _)

theorem SlotsKept.onHandle (pdir : Option ℕ) {m : Call (HandleSt σ D) α}
    (h : ∀ hst, Keeps (HandleSt.FsRel H) m hst) :
    Keeps (SlotsKept H S) (onHandle env pdir m) st :=
  Keeps.bind (SlotsKept.handleGet pdir) fun _ _ => SlotsKept.locked hK fun _ =>
    Keeps.bind (SlotsKept.handleGet pdir) fun _ _ => SlotsKept.handleLens _ _ h

/-- **`open`** takes a slot that is not used. -/
theorem SlotsKept.vfsLwext4Open (path : CStr) (flags : OpenFlags) :
    Keeps (SlotsKept H S) (vfsLwext4Open env path flags) st := by
  refine Keeps.bind Keeps.getState fun _ _ => Keeps.bind (Keeps.failIf _ _) fun _ _ => ?_
  refine Keeps.bind (SlotsKept.fullPathOf hK path) fun fullPath _ => ?_
  refine SlotsKept.locked hK fun st' => ?_
  unfold Keeps
  rw [wp_bind, wp_getState]
  cases hfree : st'.ctx.freeSlot with
  | none => exact StepRel.refl (R := SlotsKept H S) st'
  | some fd =>
    have hu : st'.ctx.usedAt fd = false := (freeSlot_spec hfree).2
    rw [wp_bind]
    unfold Port.onFs
    rw [wp_zoom]
    refine wp_mono (keeps_openChecks hK fullPath flags) ?_
      fun _ _ h => ⟨h, fun _ _ _ => ⟨rfl, rfl⟩⟩
    intro _ fs hfs
    have hopen := hK.fopen2 fullPath flags ⟨fs, .zero⟩
    refine wp_mono (wp_openSlot_files fd fullPath flags) ?_ ?_
    · rintro fd' st₃ ⟨-, hfiles, fst, hcall, hst₃, -⟩
      have hok : H fs st₃.fs := hst₃ ▸ hopen.ok hcall
      exact SlotsKept.of_unused (StepRel.trans hfs hok) hu hfiles
    · rintro e st₃ ⟨hfiles, fst, hcall, hst₃⟩
      have herr : H fs st₃.fs := hst₃ ▸ hopen.err hcall
      exact SlotsKept.of_unused (StepRel.trans hfs herr) hu hfiles

/-- **`close`** gives up its own slot when it succeeds, and none when it fails. -/
theorem SlotsKept.vfsLwext4Close (hI : InodeLaws env) (fd : ℤ) :
    wp (vfsLwext4Close env fd) (fun _ st' => SlotsKept H (· ≠ fd.toNat) st st')
      (fun _ st' => SlotsKept H (fun _ => True) st st') st := by
  unfold Port.vfsLwext4Close Port.locked Port.onFs Port.updateCtx
  rw [wp_bind, wp_zoom]
  refine wp_mono (keeps_takeLock hK) ?_ fun _ _ h => ⟨h, fun _ _ _ => ⟨rfl, rfl⟩⟩
  intro _ fs hfs
  rw [wp_bind]
  refine wp_fileGet (fun hu => ?_) ⟨hfs, fun _ _ _ => ⟨rfl, rfl⟩⟩
  simp only [wp_bind, wp_update, wp_attempt, wp_zoom, wp_ofExcept]
  have hcall := hK.fclose ⟨fs, (st.ctx.file fd.toNat).file⟩
  refine wp_final.mpr ⟨fun _ hok => ?_, fun e herr => ?_⟩
  · refine ⟨fun _ _ => ⟨StepRel.trans hfs (keeps_final.mp hcall), fun i hi _ => ?_⟩, fun _ he => by cases he⟩
    show SameFile _ (((st.ctx.setFile fd.toNat _).setFile fd.toNat _).file i)
    rw [file_setFile_ne _ _ hi, file_setFile_ne _ _ hi]
    exact ⟨rfl, rfl⟩
  · refine ⟨fun _ ha => (by cases ha), fun _ _ => ⟨StepRel.trans hfs (keeps_final.mp hcall), fun i _ hui => ?_⟩⟩
    by_cases hi : i = fd.toNat
    · subst hi
      have hinode := (wp_final.mp (hI.fclose_failed ⟨fs, (st.ctx.file fd.toNat).file⟩)).2 e herr
      show SameFile _ ((st.ctx.setFile fd.toNat _).file fd.toNat)
      rw [file_setFile st.ctx _ hui]
      exact ⟨rfl, hinode⟩
    · show SameFile _ ((st.ctx.setFile fd.toNat _).file i)
      rw [file_setFile_ne _ _ hi]
      exact ⟨rfl, rfl⟩

theorem SlotsKept.positionedIo (hI : InodeLaws env) (fd : ℤ) (request : IoRequest) (offset : ℤ) :
    Keeps (SlotsKept H S) (positionedIo env fd request offset) st :=
  Keeps.bind (Keeps.failIf _ _) fun _ _ =>
    Keeps.bind (Keeps.whenever fun _ => SlotsKept.refuseReadOnly) fun _ _ =>
      SlotsKept.onOpenFile hK fd _ fun _ _ _ => keeps_positionedIo hK hI _ _ _ _

theorem SlotsKept.vfsLwext4Opendir (name : CStr) :
    Keeps (SlotsKept H S) (vfsLwext4Opendir env name) st :=
  Keeps.bind (SlotsKept.fullPathOf hK name) fun p _ =>
    Keeps.bind (SlotsKept.onFs fun _ => keeps_allocate hK _) fun _ _ =>
      SlotsKept.locked hK fun _ => Keeps.bind (SlotsKept.onFs (hK.dirOpen p)) fun _ _ =>
        Keeps.bind Keeps.getState fun _ _ => Keeps.bind (SlotsKept.updateCtx rfl) fun _ _ =>
          Keeps.pure _

theorem SlotsKept.vfsLwext4Closedir (pdir : Option ℕ) :
    Keeps (SlotsKept H S) (vfsLwext4Closedir env pdir) st := by
  refine Keeps.bind (SlotsKept.handleGet pdir) fun _ _ => SlotsKept.locked hK fun _ => ?_
  refine Keeps.bind (SlotsKept.handleGet pdir) fun p _ => ?_
  refine Keeps.bind (SlotsKept.handleLens _ _ fun hst => ?_) fun _ _ => SlotsKept.updateCtx rfl
  exact Keeps.zoom_of (hK.dirClose _) fun _ h => h

end Guarded

/-- The operations that remove names. -/
def MountOp.removes : MountOp → Bool
  | .unlink .. | .rename .. | .rmdir .. | .rmdirRecurse .. => true
  | _ => false

/-- The operation closes the descriptor. -/
def Closes (env : Env σ D) (st : MountSt σ D) (i : ℕ) : MountOp → Prop
  | .close fd => fd.toNat = i ∧ (vfsLwext4Close env fd).answer st = .ok ()
  | _ => False

/-- **One step.** Every operation keeps the descriptors it does not close; and it keeps
`H` when it removes no name, or when its removal does. -/
theorem slotsKept_exec (hK : CallsKeep env H) (hI : InodeLaws env) (op : MountOp)
    (hrem : op.removes = true → H st.fs (op.exec env st).fs) :
    SlotsKept H (fun i => ¬ Closes env st i op) st (op.exec env st) := by
  have hT := CallsKeep.trivial env
  cases op with
  | open_ path flags => exact keeps_final.mp (SlotsKept.vfsLwext4Open hK path flags)
  | close fd =>
    have h := wp_final.mp (SlotsKept.vfsLwext4Close hK hI fd : wp _ _ _ st)
    cases hr : (vfsLwext4Close env fd).answer st with
    | ok _ => exact (h.1 () hr).mono fun i hi hfd => hi ⟨hfd.symm, hr⟩
    | error e => exact (h.2 e hr).mono fun _ _ => trivial
  | write fd bytes =>
    refine keeps_final.mp (Keeps.bind SlotsKept.refuseReadOnly fun _ _ => ?_)
    refine SlotsKept.onOpenFile hK fd _ fun _ slot _ => ?_
    exact Keeps.bind (Keeps.whenever fun _ => keeps_seekToCurrentEnd hK hI _) fun _ _ =>
      keeps_fwrite hK hI _
  | read fd size =>
    exact keeps_final.mp (SlotsKept.onOpenFile hK fd _ fun _ _ _ => keeps_fread hK hI _)
  | lseek fd offset whence =>
    exact keeps_final.mp (SlotsKept.onOpenFile hK fd _ fun _ _ _ => keeps_seekLocked hK hI _ _)
  | pread fd size offset =>
    exact keeps_final.mp (SlotsKept.positionedIo hK hI fd _ offset)
  | pwrite fd bytes offset =>
    exact keeps_final.mp (SlotsKept.positionedIo hK hI fd _ offset)
  | fstat fd =>
    exact keeps_final.mp (SlotsKept.onOpenFile hK fd _ fun _ _ _ =>
      FileKept.onFs fun _ => keeps_statPath hK _)
  | fsync fd =>
    exact keeps_final.mp (SlotsKept.locked hK fun _ => Keeps.bind (SlotsKept.fileGet fd) fun _ _ =>
      Keeps.bind Keeps.getState fun _ _ => SlotsKept.onFs (hK.cacheFlush _))
  | ftruncate fd length =>
    exact keeps_final.mp (Keeps.bind (Keeps.failIf _ _) fun _ _ =>
      Keeps.bind SlotsKept.refuseReadOnly fun _ _ =>
        SlotsKept.onOpenFile hK fd _ fun _ _ _ => keeps_resizeFile hK hI _ _ _)
  | truncate path length =>
    exact keeps_final.mp (Keeps.bind (Keeps.failIf _ _) fun _ _ =>
      Keeps.bind SlotsKept.refuseReadOnly fun _ _ => Keeps.bind Keeps.getState fun _ _ =>
        SlotsKept.onPath hK _ fun _ _ => keeps_truncateLocked hK hI _ _ _)
  | stat path => exact keeps_final.mp (SlotsKept.onPath hK _ fun _ _ => keeps_statPath hK _)
  | link path hardlinkPath =>
    exact keeps_final.mp (Keeps.bind SlotsKept.refuseReadOnly fun _ _ =>
      SlotsKept.twoPathOperation hK _ _ hK.flink)
  | unlink path =>
    exact SlotsKept.removal (hrem rfl) (keeps_final.mp
      (Keeps.bind SlotsKept.refuseReadOnly fun _ _ =>
        SlotsKept.onPath hT _ fun _ _ => wp_trivial _ _))
  | rename src dst =>
    exact SlotsKept.removal (hrem rfl) (keeps_final.mp
      (Keeps.bind SlotsKept.refuseReadOnly fun _ _ => Keeps.bind (Keeps.failIf _ _) fun _ _ =>
        SlotsKept.twoPathOperation hT _ _ fun _ _ _ => wp_trivial _ _))
  | mkdir name mode =>
    exact keeps_final.mp (Keeps.bind SlotsKept.refuseReadOnly fun _ _ =>
      SlotsKept.onPath hK _ fun _ _ => keeps_mkdirLocked hK _ _)
  | rmdir name =>
    exact SlotsKept.removal (hrem rfl) (keeps_final.mp
      (Keeps.bind SlotsKept.refuseReadOnly fun _ _ => Keeps.bind (Keeps.failIf _ _) fun _ _ =>
        SlotsKept.onPath hT _ fun _ _ => wp_trivial _ _))
  | access path amode =>
    exact keeps_final.mp (Keeps.bind (Keeps.failIf _ _) fun _ _ =>
      Keeps.bind (Keeps.whenever fun _ => SlotsKept.refuseReadOnly) fun _ _ =>
        Keeps.bind (SlotsKept.onPath hK _ fun _ _ => keeps_statPath hK _) fun _ _ =>
          Keeps.failIf _ _)
  | utime path times =>
    exact keeps_final.mp (Keeps.bind SlotsKept.refuseReadOnly fun _ _ =>
      Keeps.bind (SlotsKept.timesOrNow hK times) fun _ _ => Keeps.bind (Keeps.failIf _ _) fun _ _ =>
        SlotsKept.onPath hK _ fun _ _ => keeps_utimeLocked hK _ _ _)
  | opendir name => exact keeps_final.mp (SlotsKept.vfsLwext4Opendir hK name)
  | readdir pdir =>
    exact keeps_final.mp (SlotsKept.onHandle hK _ fun _ => keeps_readdirLocked hK)
  | telldir pdir =>
    exact keeps_final.mp (SlotsKept.onHandle hK _ fun hst => StepRel.refl (R := H) hst.fs)
  | seekdir pdir offset =>
    exact keeps_final.mp (Keeps.bind (Keeps.failIf _ _) fun _ _ =>
      SlotsKept.onHandle hK _ fun _ => keeps_seekdirLocked hK _)
  | closedir pdir => exact keeps_final.mp (SlotsKept.vfsLwext4Closedir hK pdir)
  | rmdirRecurse relativePath =>
    refine SlotsKept.removal (hrem rfl) (keeps_final.mp ?_)
    exact Keeps.bind (keeps_mapErr (SlotsKept.onFs fun _ => keeps_takeLock hT)) fun _ _ =>
      Keeps.bind Keeps.getState fun _ _ => Keeps.bind (Keeps.failIf _ _) fun _ _ =>
        Keeps.bind (Keeps.failIf _ _) fun _ _ =>
          Keeps.bind (keeps_mapErr (SlotsKept.fullPathOf hT _)) fun _ _ =>
            keeps_mapErr (SlotsKept.onFs fun _ => wp_trivial _ _)

end Operations

end EspLwext4.Port
