import EspLwext4.Port.EmptyDir

/-!
# The inodes of open descriptors

`ext4_fremove` and `ext4_dir_rm` free an inode with its last name, whoever has it
open. Of the operations that remove names only `esp_vfs_lwext4_rmdir_recurse` looks at
the table of open files first.
-/

namespace EspLwext4.Port

open Prog Runs

section Adapter

variable {σ D : Type}

/-- Every file stays the file of its inode. -/
def FilesStay (file : σ → ℕ → Option ℕ) (s s' : σ) : Prop :=
  ∀ i f, file s i = some f → file s' i = some f

/-- The removal of `p` frees the inodes of which every name is `p` or lies below it. -/
def FreesUnder (file : σ → ℕ → Option ℕ) (lastUnder : σ → CStr → ℕ → Prop) (p : CStr) (s s' : σ) :
    Prop :=
  ∀ i f, file s i = some f → ¬ lastUnder s p i → file s' i = some f

/-- `file` is the file an inode holds; a file whose inode is freed never comes back,
the next one in this inode is another. `lastUnder s p i` says that every name of the
inode `i` is `p` or lies below `p`. -/
structure RemovalLaws (env : Env σ D) (file : σ → ℕ → Option ℕ)
    (lastUnder : σ → CStr → ℕ → Prop) : Prop where
  stay : CallsKeep env (FilesStay file)
  fopen2 : ∀ p flags st, wp (env.lwext4.fopen2 p flags)
    (fun _ st' => ∃ f, file st'.fs st'.file.inode = some f) (fun _ _ => True) st
  fremove : ∀ p s, wp (env.lwext4.fremove p) (fun _ s' => FreesUnder file lastUnder p s s')
    (fun _ s' => FilesStay file s s') s
  dirRm : ∀ p s, Keeps (FreesUnder file lastUnder p) (env.lwext4.dirRm p) s

variable {env : Env σ D} {file : σ → ℕ → Option ℕ} {lastUnder : σ → CStr → ℕ → Prop}

instance : StepRel (FilesStay file) where
  refl _ := fun _ _ h => h
  trans h h' := fun i f hf => h' i f (h i f hf)

theorem FilesStay.freesUnder {p : CStr} {s s' : σ} (h : FilesStay file s s') :
    FreesUnder file lastUnder p s s' := fun i f hf _ => h i f hf

/-! ## The removals of an operation -/

/-- What `vfs_lwext4_unlink` does before it removes the name. -/
def unlinkChecks (env : Env σ D) (path : CStr) : Call (MountSt σ D) CStr := do
  refuseReadOnly
  let fullPath ← fullPathOf env path
  onFs do
    takeLock env.idf
    let result ← (env.lwext4.inodeExist fullPath .dir).attempt
    failIf (result.isOk = true) .eisdir
  return fullPath

/-- What `rename_locked` does before it replaces a file by a file. -/
def replaceFileChecks (env : Env σ D) (src dst : CStr) : Call σ Unit := do
  let result ← (env.lwext4.frename src dst).attempt
  failIf (result ≠ .error .eexist) .eio
  let source ← pathInfoLocked env src
  let destination ← pathInfoLocked env dst
  failIf (source.inodeNumber = destination.inodeNumber) .eio
  failIf (source.isDirectory = true ∨ destination.isDirectory = true) .eio

/-- The operation gets to the removal of `p`, in the state `s` of lwext4: a file that
`ext4_fremove` removes, or a directory that the scan has reported empty. -/
def Removes (env : Env σ D) (st : MountSt σ D) : MountOp → CStr → σ → Prop
  | .unlink path, p, s => ∃ st', unlinkChecks env path st = .ok p st' ∧ s = st'.fs ∧
    ∃ s', env.lwext4.fremove p s = .ok () s'
  | .rename src dst, p, s => ∃ q st', renameChecks env src dst st = .ok (q, p) st' ∧
    ((replaceFileChecks env q p st'.fs = .ok () s ∧ ∃ s', env.lwext4.fremove p s = .ok () s') ∨
      ∃ s', replaceChecks env q p st'.fs = .ok () s' ∧ directoryIsEmptyLocked env p s' = .ok true s)
  | .rmdir name, p, s => ∃ st', rmdirChecks env name st = .ok p st' ∧
    directoryIsEmptyLocked env p st'.fs = .ok true s
  | _, _, _ => False

/-- No descriptor is open on a file with its last name under what the operation
removes. -/
def SparesOpen (env : Env σ D) (lastUnder : σ → CStr → ℕ → Prop) (st : MountSt σ D)
    (op : MountOp) : Prop :=
  ∀ p s, Removes env st op p s → ∀ fd : ℕ, st.ctx.usedAt fd = true →
    ¬ lastUnder s p (inodeAt st fd)

/-! ## One removal -/

/-- The files of the open descriptors stay. -/
def OpenStay (file : σ → ℕ → Option ℕ) (st : MountSt σ D) (s s' : σ) : Prop :=
  ∀ fd : ℕ, st.ctx.usedAt fd = true → ∀ f, file s (inodeAt st fd) = some f →
    file s' (inodeAt st fd) = some f

section Removal

variable {st : MountSt σ D}

instance : StepRel (OpenStay file st) where
  refl _ := fun _ _ _ h => h
  trans h h' := fun fd hu f hf => h' fd hu f (h fd hu f hf)

theorem FilesStay.openStay {s s' : σ} (h : FilesStay file s s') : OpenStay file st s s' :=
  fun fd _ f hf => h (inodeAt st fd) f hf

theorem FreesUnder.openStay {p : CStr} {s s' : σ} (h : FreesUnder file lastUnder p s s')
    (hl : ∀ fd : ℕ, st.ctx.usedAt fd = true → ¬ lastUnder s p (inodeAt st fd)) :
    OpenStay file st s s' := fun fd hu f hf => h (inodeAt st fd) f hf (hl fd hu)

/-- The removal of a file. -/
theorem RemovalLaws.wp_fremove (hL : RemovalLaws env file lastUnder) (p : CStr) (s : σ)
    (h : (∃ s', env.lwext4.fremove p s = .ok () s') →
      ∀ fd : ℕ, st.ctx.usedAt fd = true → ¬ lastUnder s p (inodeAt st fd)) :
    Keeps (OpenStay file st) (env.lwext4.fremove p) s := by
  refine wp_mono (wp_remember (hL.fremove p s)) ?_ fun _ _ h => h.2.openStay
  rintro _ s' ⟨hrun, hfree⟩
  exact hfree.openStay (h ⟨s', hrun⟩)

theorem RemovalLaws.calls (hL : RemovalLaws env file lastUnder) (st : MountSt σ D) :
    CallsKeep env (OpenStay file st) := hL.stay.mono fun _ _ => FilesStay.openStay

theorem wp_vfsLwext4Unlink {path : CStr} {Q : Unit → MountSt σ D → Prop}
    {E : Errno → MountSt σ D → Prop} :
    wp (vfsLwext4Unlink env path) Q E st ↔
      wp (unlinkChecks env path) (fun p st' => wp (onFs (env.lwext4.fremove p)) Q E st') E st := by
  unfold vfsLwext4Unlink unlinkChecks onPath locked unlinkLocked onFs
  simp only [wp_bind, wp_zoom, wp_attempt, wp_failIf, wp_pure]
  simp [Except.isOk, Except.toBool]
  exact Iff.rfl

/-- The checks leave the files alone, and so does the removal they lead to. -/
theorem RemovalLaws.openStay_of_split {α : Type} {checks : Call (MountSt σ D) α}
    {m : α → Call σ Unit}
    (hchecks : Keeps (SlotsKept (OpenStay file st) fun _ => True) checks st)
    (hm : ∀ a st', checks st = .ok a st' → Keeps (OpenStay file st) (m a) st'.fs) :
    wp checks (fun a st' => wp (onFs (m a)) (fun _ st'' => OpenStay file st st.fs st''.fs)
        (fun _ st'' => OpenStay file st st.fs st''.fs) st')
      (fun _ st' => OpenStay file st st.fs st'.fs) st := by
  refine wp_mono (wp_remember hchecks) ?_ fun _ _ h => h.2.1
  rintro a st' ⟨hrun, hkept, -⟩
  unfold onFs
  rw [wp_zoom]
  exact (hm a st' hrun).from_earlier hkept

theorem RemovalLaws.openStay_unlink (hL : RemovalLaws env file lastUnder) (path : CStr)
    (h : SparesOpen env lastUnder st (.unlink path)) :
    OpenStay file st st.fs (MountOp.exec env st (.unlink path)).fs := by
  have hK := hL.calls st
  refine final_of_wp (P := fun st' => OpenStay file st st.fs st'.fs)
    (wp_vfsLwext4Unlink.mpr (RemovalLaws.openStay_of_split ?_ fun p st' hrun => ?_))
  · refine Keeps.bind SlotsKept.refuseReadOnly fun _ _ => ?_
    refine Keeps.bind (SlotsKept.fullPathOf hK path) fun p _ => ?_
    refine Keeps.bind (SlotsKept.onFs fun s => ?_) fun _ _ => Keeps.pure _
    exact Keeps.bind (keeps_takeLock hK) fun _ s' =>
      Keeps.bind (hK.inodeExist p .dir s').attempt fun _ _ => Keeps.failIf _ _
  · exact hL.wp_fremove p st'.fs fun hok => h p st'.fs ⟨st', hrun, rfl, hok⟩

theorem RemovalLaws.keeps_rmdirLocked (hL : RemovalLaws env file lastUnder) (p : CStr) (s : σ)
    (h : ∀ s', directoryIsEmptyLocked env p s = .ok true s' →
      ∀ fd : ℕ, st.ctx.usedAt fd = true → ¬ lastUnder s' p (inodeAt st fd)) :
    Keeps (OpenStay file st) (rmdirLocked env p) s := by
  refine Keeps.bind_run (keeps_directoryIsEmpty (hL.calls st) p) fun empty s' hrun => ?_
  cases empty with
  | false => exact Keeps.raise _
  | true => exact (hL.dirRm p s').mono fun _ hfree => hfree.openStay (h s' hrun)

theorem RemovalLaws.openStay_rmdir (hL : RemovalLaws env file lastUnder) (name : CStr)
    (h : SparesOpen env lastUnder st (.rmdir name)) :
    OpenStay file st st.fs (MountOp.exec env st (.rmdir name)).fs := by
  have hK := hL.calls st
  refine final_of_wp (P := fun st' => OpenStay file st st.fs st'.fs)
    (wp_vfsLwext4Rmdir.mpr (RemovalLaws.openStay_of_split ?_ fun p st' hrun => ?_))
  · exact Keeps.bind SlotsKept.refuseReadOnly fun _ _ => Keeps.bind (Keeps.failIf _ _) fun _ _ =>
      Keeps.bind (SlotsKept.fullPathOf hK name) fun p _ =>
        Keeps.bind (SlotsKept.onFs fun _ => keeps_takeLock hK) fun _ _ => Keeps.pure _
  · exact hL.keeps_rmdirLocked p st'.fs fun s hempty => h p s ⟨st', hrun, hempty⟩

theorem RemovalLaws.keeps_renameLocked (hL : RemovalLaws env file lastUnder) (src dst : CStr)
    (s : σ)
    (hfile : ∀ s', replaceFileChecks env src dst s = .ok () s' →
      (∃ s'', env.lwext4.fremove dst s' = .ok () s'') →
      ∀ fd : ℕ, st.ctx.usedAt fd = true → ¬ lastUnder s' dst (inodeAt st fd))
    (hdir : ∀ s' s'', replaceChecks env src dst s = .ok () s' →
      directoryIsEmptyLocked env dst s' = .ok true s'' →
      ∀ fd : ℕ, st.ctx.usedAt fd = true → ¬ lastUnder s'' dst (inodeAt st fd)) :
    Keeps (OpenStay file st) (renameLocked env src dst) s := by
  have hK := hL.calls st
  unfold renameLocked
  refine Keeps.bind_run (hK.frename src dst s).attempt fun result s₁ h₁ => ?_
  refine Keeps.ite (fun hr => ?_) fun _ => Keeps.ofExcept _
  unfold replaceLocked
  refine Keeps.bind_run (keeps_pathInfo hK src) fun source s₂ h₂ => ?_
  refine Keeps.bind_run (keeps_pathInfo hK dst) fun destination s₃ h₃ => ?_
  refine Keeps.ite (fun _ => Keeps.pure _) fun hne => ?_
  refine Keeps.bind_failIf fun hsame => ?_
  have hsame' : source.isDirectory = destination.isDirectory := not_not.mp hsame
  have hexist : ¬ (result ≠ .error .eexist) := not_not.mpr hr
  refine Keeps.ite (fun hsd => ?_) fun hsd => ?_
  · refine Keeps.bind_failIf fun hdots => ?_
    have hrun : replaceChecks env src dst s = .ok () s₃ := by
      unfold replaceChecks
      rw [bind_of_ok h₁, bind_of_ok (failIf_of_not hexist), bind_of_ok h₂, bind_of_ok h₃,
        bind_of_ok (failIf_of_not hne), bind_of_ok (failIf_of_not (by simp [← hsame', hsd]))]
      exact failIf_of_not hdots
    have hrem := hL.keeps_rmdirLocked dst s₃ (hdir s₃ · hrun)
    have hthen : Keeps (OpenStay file st)
        (rmdirLocked env dst >>= fun _ => env.lwext4.frename src dst) s₃ :=
      Keeps.bind hrem fun _ s' => hK.frename src dst s'
    unfold rmdirLocked at hthen
    simp only [bind_assoc] at hthen
    exact hthen
  · have hrun : replaceFileChecks env src dst s = .ok () s₃ := by
      unfold replaceFileChecks
      rw [bind_of_ok h₁, bind_of_ok (failIf_of_not hexist), bind_of_ok h₂, bind_of_ok h₃,
        bind_of_ok (failIf_of_not hne)]
      exact failIf_of_not (by simp [← hsame', hsd])
    exact Keeps.bind (hL.wp_fremove dst s₃ (hfile s₃ hrun)) fun _ s' => hK.frename src dst s'

theorem RemovalLaws.openStay_rename (hL : RemovalLaws env file lastUnder) (src dst : CStr)
    (h : SparesOpen env lastUnder st (.rename src dst)) :
    OpenStay file st st.fs (MountOp.exec env st (.rename src dst)).fs := by
  have hK := hL.calls st
  refine final_of_wp (P := fun st' => OpenStay file st st.fs st'.fs)
    (wp_vfsLwext4Rename.mpr (RemovalLaws.openStay_of_split
      (m := fun paths : CStr × CStr => renameLocked env paths.1 paths.2) ?_ fun paths st' hrun => ?_))
  · exact Keeps.bind SlotsKept.refuseReadOnly fun _ _ => Keeps.bind (Keeps.failIf _ _) fun _ _ =>
      Keeps.bind (SlotsKept.fullPathOf hK src) fun _ _ =>
        Keeps.bind (SlotsKept.fullPathOf hK dst) fun _ _ =>
          Keeps.bind (SlotsKept.onFs fun _ => keeps_takeLock hK) fun _ _ => Keeps.pure _
  · exact hL.keeps_renameLocked paths.1 paths.2 st'.fs
      (fun s hfile hok => h paths.2 s ⟨paths.1, st', hrun, Or.inl ⟨hfile, hok⟩⟩)
      fun s' s hdir hempty => h paths.2 s ⟨paths.1, st', hrun, Or.inr ⟨s', hdir, hempty⟩⟩

/-- `rmdir_recurse` refuses while a file is open. -/
theorem RemovalLaws.openStay_rmdirRecurse (hL : RemovalLaws env file lastUnder) (path : CStr)
    (hok : st.ctx.shape.Ok) :
    OpenStay file st st.fs (MountOp.exec env st (.rmdirRecurse path)).fs := by
  by_cases hopen : st.ctx.openFiles = 0
  · intro fd hu
    rw [← usedAt_shape, hok.unused hopen fd] at hu
    cases hu
  · refine final_of_wp (P := fun st' : MountSt σ D => OpenStay file st st.fs st'.fs) ?_
    unfold rmdirRecurseOn onFs
    simp only [wp_bind, wp_mapErr, wp_zoom, wp_getState, wp_failIf]
    have htaken : OpenStay file st st.fs (env.idf.semaphoreTake st.fs).2 :=
      (hL.calls st).semaphoreTake st.fs
    refine wp_takeLock ⟨fun _ => htaken, fun _ => ⟨fun _ => htaken, fun h => ?_⟩⟩ htaken
    exact absurd (Or.inr (Or.inl hopen)) h

/-- **One step.** The files of the open descriptors stay. -/
theorem RemovalLaws.openStay_exec (hL : RemovalLaws env file lastUnder) (hI : InodeLaws env)
    (op : MountOp) (hok : st.ctx.shape.Ok) (h : SparesOpen env lastUnder st op) :
    OpenStay file st st.fs (op.exec env st).fs := by
  cases hop : op.removes with
  | false =>
    have hkept : SlotsKept _ _ st _ := slotsKept_exec hL.stay hI op fun hrem => by
      rw [hop] at hrem
      cases hrem
    exact hkept.1.openStay
  | true =>
    cases op with
    | unlink path => exact hL.openStay_unlink path h
    | rename src dst => exact hL.openStay_rename src dst h
    | rmdir name => exact hL.openStay_rmdir name h
    | rmdirRecurse path => exact hL.openStay_rmdirRecurse path hok
    | _ => cases hop

end Removal

/-! ## New descriptors -/

section Opening

variable {st : MountSt σ D}

/-- Only `open` makes a slot used, and `close` frees it. -/
theorem usedAt_exec (hok : st.ctx.shape.Ok) {op : MountOp} {i : ℕ}
    (hu : (op.exec env st).ctx.usedAt i = true) :
    (st.ctx.usedAt i = true ∧ ¬ Closes env st i op) ∨
      ∃ path flags, op = .open_ path flags ∧ (vfsLwext4Open env path flags).answer st = .ok i := by
  have hsame (h : (op.exec env st).ctx.shape.slots = st.ctx.shape.slots) :
      st.ctx.usedAt i = true := by
    rw [← usedAt_shape] at hu ⊢
    unfold Shape.usedAt at hu ⊢
    rwa [← h]
  cases hop : op.opens with
  | false =>
    refine Or.inl ⟨hsame (congrArg Shape.slots (sameShape_exec op hop)), fun hc => ?_⟩
    cases op with
    | close fd => cases hop
    | _ => exact hc
  | true =>
    cases op with
    | open_ path flags =>
      obtain ⟨hreturn, hfail⟩ := wp_final.mp
        (wp_vfsLwext4Open path flags : wp (vfsLwext4Open env path flags) _ _ st)
      cases hr : (vfsLwext4Open env path flags).answer st with
      | error e => exact Or.inl ⟨hsame (sameTable_of_failed (hfail e hr)).1, id⟩
      | ok fd =>
        obtain ⟨hlt, -, fullPath, -, hshape⟩ := hreturn fd hr
        have hset := usedAt_set st.ctx.shape fd i ⟨fullPath, flags, true⟩ (hok.slots_length ▸ hlt)
        rw [← usedAt_shape] at hu
        change Shape.usedAt ((vfsLwext4Open env path flags).final st).ctx.shape i = true at hu
        rw [hshape] at hu
        have hif := hset.symm.trans hu
        by_cases hi : fd = i
        · exact Or.inr ⟨path, flags, rfl, hi ▸ hr⟩
        · rw [if_neg hi, usedAt_shape] at hif
          exact Or.inl ⟨hif, id⟩
    | close fd =>
      obtain ⟨hreturn, hfail⟩ := wp_final.mp
        (wp_vfsLwext4Close fd : wp (vfsLwext4Close env fd) _ _ st)
      cases hr : (vfsLwext4Close env fd).answer st with
      | error e =>
        refine Or.inl ⟨hsame (sameTable_of_failed (hfail e hr)).1, fun hc => ?_⟩
        have := hc.2
        rw [hr] at this
        cases this
      | ok _ =>
        obtain ⟨hused, hshape⟩ := hreturn () hr
        have hlt : fd.toNat < st.ctx.shape.slots.length := by
          rw [← usedAt_shape] at hused
          exact usedAt_lt hused
        have hset := usedAt_set st.ctx.shape fd.toNat i EspFile.zero.slot hlt
        rw [← usedAt_shape] at hu
        change Shape.usedAt ((vfsLwext4Close env fd).final st).ctx.shape i = true at hu
        rw [hshape] at hu
        have hif := hset.symm.trans hu
        by_cases hi : fd.toNat = i
        · rw [if_pos hi] at hif
          cases hif
        · rw [if_neg hi, usedAt_shape] at hif
          exact Or.inl ⟨hif, fun hc => hi hc.1⟩
    | opendir name =>
      refine Or.inl ⟨hsame ?_, id⟩
      obtain ⟨hreturn, hfail⟩ := wp_final.mp
        (wp_vfsLwext4Opendir name : wp (vfsLwext4Opendir env name) _ _ st)
      cases hr : (vfsLwext4Opendir env name).answer st with
      | error e => exact congrArg Shape.slots (hfail e hr)
      | ok id => exact (congrArg Shape.slots (hreturn id hr).2).trans rfl
    | closedir pdir =>
      refine Or.inl ⟨hsame ?_, id⟩
      obtain ⟨hreturn, hfail⟩ := wp_final.mp
        (wp_vfsLwext4Closedir pdir : wp (vfsLwext4Closedir env pdir) _ _ st)
      cases hr : (vfsLwext4Closedir env pdir).answer st with
      | error e => exact congrArg Shape.slots (hfail e hr)
      | ok _ =>
        obtain ⟨id, -, hshape⟩ := hreturn () hr
        exact (congrArg Shape.slots hshape).trans rfl
    | _ => cases hop

/-- A descriptor that `open` returns is one of a file. -/
theorem RemovalLaws.opened_file (hL : RemovalLaws env file lastUnder) (path : CStr)
    (flags : OpenFlags) :
    wp (vfsLwext4Open env path flags)
      (fun fd st' => st'.ctx.usedAt fd = true → ∃ f, file st'.fs (inodeAt st' fd) = some f)
      (fun _ _ => True) st := by
  unfold vfsLwext4Open locked
  simp only [wp_bind, wp_getState, wp_failIf]
  refine ⟨fun _ => trivial, fun _ => ?_⟩
  refine wp_mono (wp_trivial _ st) (fun fullPath st₁ _ => ?_) fun _ _ _ => trivial
  refine wp_mono (wp_trivial _ st₁) (fun _ st₂ _ => ?_) fun _ _ _ => trivial
  cases st₂.ctx.freeSlot with
  | none => exact trivial
  | some fd =>
    rw [wp_bind]
    refine wp_mono (wp_trivial _ st₂) (fun _ st₃ _ => ?_) fun _ _ _ => trivial
    refine wp_mono (wp_openSlot_files fd fullPath flags) ?_ fun _ _ _ => trivial
    rintro fd' st₄ ⟨rfl, -, fst, hrun, hfs, hfile⟩ hu
    obtain ⟨f, hf⟩ := (wp_iff_of_ok hrun).mp (hL.fopen2 fullPath flags ⟨st₃.fs, .zero⟩)
    refine ⟨f, ?_⟩
    have hinode : inodeAt st₄ fd' = fst.file.inode := congrArg Ext4File.inode (hfile hu)
    rw [hfs, hinode]
    exact hf

end Opening

/-! ## Runs -/

/-- The descriptor is used and its inode holds the file. -/
def OpenOn (file : σ → ℕ → Option ℕ) (st : MountSt σ D) (fd f : ℕ) : Prop :=
  st.ctx.usedAt fd = true ∧ file st.fs (inodeAt st fd) = some f

/-- The operation leaves every descriptor that it does not close on its file. -/
def DescriptorsKept (env : Env σ D) (file : σ → ℕ → Option ℕ) (st : MountSt σ D)
    (op : MountOp) : Prop :=
  ∀ fd f, OpenOn file st fd f → ¬ Closes env st fd op → OpenOn file (op.exec env st) fd f

/-- The invariant of the runs. -/
structure AllOpen (file : σ → ℕ → Option ℕ) (st : MountSt σ D) : Prop where
  shape : st.ctx.shape.Ok
  file : ∀ fd : ℕ, st.ctx.usedAt fd = true → ∃ f, OpenOn file st fd f

theorem RemovalLaws.descriptorsKept (hL : RemovalLaws env file lastUnder) (hI : InodeLaws env)
    {st : MountSt σ D} {op : MountOp} (hok : st.ctx.shape.Ok) (h : SparesOpen env lastUnder st op) :
    DescriptorsKept env file st op := by
  rintro fd f ⟨hu, hf⟩ hclose
  have hkept : SlotsKept _ _ st _ := slotsKept_exec (CallsKeep.trivial env) hI op fun _ => trivial
  have hslot := hkept.2 fd hclose hu
  refine ⟨hslot.used hu, ?_⟩
  have hinode : inodeAt (op.exec env st) fd = inodeAt st fd := hslot.inode
  rw [hinode]
  exact hL.openStay_exec hI op hok h fd hu f hf

theorem RemovalLaws.allOpen_exec (hL : RemovalLaws env file lastUnder) (hI : InodeLaws env)
    {st : MountSt σ D} {op : MountOp} (hinv : AllOpen file st)
    (h : SparesOpen env lastUnder st op) : AllOpen file (op.exec env st) where
  shape := shape_ok_exec op hinv.shape
  file fd hu := by
    rcases usedAt_exec hinv.shape hu with ⟨hused, hclose⟩ | ⟨path, flags, rfl, hr⟩
    · obtain ⟨f, hf⟩ := hinv.file fd hused
      exact ⟨f, hL.descriptorsKept hI hinv.shape h fd f hf hclose⟩
    · obtain ⟨f, hf⟩ := (wp_final.mp (hL.opened_file path flags)).1 fd hr hu
      exact ⟨f, hu, hf⟩

/-- **No open inode is freed.** In every run from a new context whose removals spare the
files of open descriptors, every used slot of every state reached refers to an inode that
holds a file, and every operation leaves every descriptor that it does not close on its
own file. -/
theorem open_inodes_kept (env : Env σ D) (file : σ → ℕ → Option ℕ)
    (lastUnder : σ → CStr → ℕ → Prop) (hL : RemovalLaws env file lastUnder) (hI : InodeLaws env)
    (fs : σ) (conf : Conf) (mountPoint : CStr) (hm : mountPoint ≠ []) (ops : List MountOp)
    (h : Along (MountOp.exec env) (SparesOpen env lastUnder)
      ⟨fs, Ctx.new env.idf conf mountPoint⟩ ops) :
    (∀ fd : ℕ, (reached env fs conf mountPoint ops).ctx.usedAt fd = true →
      ∃ f, OpenOn file (reached env fs conf mountPoint ops) fd f) ∧
    Along (MountOp.exec env) (DescriptorsKept env file) ⟨fs, Ctx.new env.idf conf mountPoint⟩ ops := by
  have hnew : AllOpen file (⟨fs, Ctx.new env.idf conf mountPoint⟩ : MountSt σ D) := by
    refine ⟨shape_ok_new hm, fun fd hu => ?_⟩
    rw [← usedAt_shape, (shape_ok_new hm).unused rfl fd] at hu
    cases hu
  have step (st : MountSt σ D) (op : MountOp) (hinv : AllOpen file st)
      (hop : SparesOpen env lastUnder st op) : AllOpen file (op.exec env st) :=
    hL.allOpen_exec hI hinv hop
  constructor
  · exact (run_keeps step h hnew).file
  · exact along_of_inv step (fun _ _ hinv hop => hL.descriptorsKept hI hinv.shape hop) h hnew

end Adapter

/-! ## A file removed while it is open -/

namespace Ram

/-- The inode has a name, and is no directory. -/
def HoldsFile (s : Ram) (i : ℕ) : Prop := (∃ n ∈ s.names, n.2 = i) ∧ i ∉ s.dirs

instance (s : Ram) (i : ℕ) : Decidable (s.HoldsFile i) := inferInstanceAs (Decidable (_ ∧ _))

def file (s : Ram) (i : ℕ) : Option ℕ := if s.HoldsFile i then some (s.births i) else none

def LastUnder (s : Ram) (p : CStr) (i : ℕ) : Prop :=
  ∀ n ∈ s.names, n.2 = i → n.1 = p ∨ isBelow p n.1 = true

instance (s : Ram) (p : CStr) (i : ℕ) : Decidable (s.LastUnder p i) :=
  inferInstanceAs (Decidable (∀ _ ∈ _, _))

theorem file_eq_some {s : Ram} {i f : ℕ} :
    s.file i = some f ↔ s.HoldsFile i ∧ s.births i = f := by
  unfold file
  by_cases h : s.HoldsFile i
  · simp [h]
  · simp [h]

/-- A change that leaves the inode a file. -/
theorem file_kept {s s' : Ram} {i f : ℕ} (h : s.file i = some f)
    (h' : s.HoldsFile i → s'.HoldsFile i ∧ s'.births i = s.births i) : s'.file i = some f := by
  obtain ⟨hold, hb⟩ := file_eq_some.mp h
  obtain ⟨hold', hb'⟩ := h' hold
  exact file_eq_some.mpr ⟨hold', hb'.trans hb⟩

theorem le_foldl_max (l : List (CStr × ℕ)) (m : ℕ) :
    m ≤ l.foldl (fun m n => max m n.2) m ∧ ∀ n ∈ l, n.2 ≤ l.foldl (fun m n => max m n.2) m := by
  induction l generalizing m with
  | nil => simp
  | cons n l ih =>
    obtain ⟨h₁, h₂⟩ := ih (max m n.2)
    refine ⟨Nat.le_trans (Nat.le_max_left _ _) h₁, fun n' hn' => ?_⟩
    rcases List.mem_cons.mp hn' with rfl | hmem
    · exact Nat.le_trans (Nat.le_max_right _ _) h₁
    · exact h₂ n' hmem

/-- The inode of a new file has no name. -/
theorem freeInode_fresh (s : Ram) : ∀ n ∈ s.names, n.2 ≠ s.freeInode := by
  intro n hn
  unfold freeInode
  cases hfind : ((List.range (s.names.length + 1)).map (· + 12)).find? fun i => s.links i == 0 with
  | some i =>
    have hzero : s.links i = 0 := by simpa using List.find?_some hfind
    unfold links at hzero
    rw [List.countP_eq_zero] at hzero
    simpa using hzero n hn
  | none =>
    have hmax := (le_foldl_max s.names 12).2 n hn
    simp only [Option.getD_none]
    omega

theorem holdsFile_ne_free {s : Ram} {i : ℕ} (h : s.HoldsFile i) : i ≠ s.freeInode := by
  obtain ⟨⟨n, hn, rfl⟩, -⟩ := h
  exact s.freeInode_fresh n hn

theorem HoldsFile.addName {s : Ram} {i : ℕ} (h : s.HoldsFile i) (p : CStr) (j : ℕ) :
    (s.addName p j).HoldsFile i := by
  obtain ⟨⟨n, hn, hi⟩, hd⟩ := h
  exact ⟨⟨n, List.mem_cons_of_mem _ hn, hi⟩, hd⟩

theorem filesStay_addFile (s : Ram) (p : CStr) : FilesStay file s (s.addFile p) := by
  intro i f hf
  refine file_kept hf fun hold => ⟨?_, if_neg (holdsFile_ne_free hold)⟩
  obtain ⟨hname, hd⟩ := hold.addName p s.freeInode
  exact ⟨hname, fun hmem => hd (List.mem_of_mem_filter hmem)⟩

theorem holdsFile_addFile (s : Ram) (p : CStr) : (s.addFile p).HoldsFile s.freeInode := by
  refine ⟨⟨(p, s.freeInode), List.mem_cons_self .., rfl⟩, fun hmem => ?_⟩
  simpa using List.of_mem_filter hmem

theorem stay (s : Ram) : FilesStay file s s := StepRel.refl s

/-- A call on a name that must exist. -/
theorem stay_onName {α : Type} {p : CStr} {f : ℕ → Ram → Outcome Empty Errno Ram α} {s : Ram}
    (h : ∀ i, s.lookup p = some i → Keeps (FilesStay file) (f i) s) :
    Keeps (FilesStay file) (onName p f) s := wp_onName (fun _ => stay s) h

theorem stay_ite {α : Type} {c : Ram → Prop} [DecidablePred c] {m n : Call Ram α} {s : Ram}
    (hm : Keeps (FilesStay file) m s) (hn : Keeps (FilesStay file) n s) :
    Keeps (FilesStay file) (fun s => if c s then m s else n s) s := by
  by_cases h : c s
  · unfold Keeps wp
    simp only [if_pos h]
    exact hm
  · unfold Keeps wp
    simp only [if_neg h]
    exact hn

theorem filesStay_rename (s : Ram) (src dst : CStr) : FilesStay file s (s.rename src dst) := by
  intro i f hf
  refine file_kept hf fun hold => ⟨?_, rfl⟩
  obtain ⟨⟨n, hn, hi⟩, hd⟩ := hold
  exact ⟨⟨_, List.mem_map_of_mem hn, hi⟩, hd⟩

theorem filesStay_addName (s : Ram) (p : CStr) (j : ℕ) : FilesStay file s (s.addName p j) :=
  fun _ _ hf => file_kept hf fun hold => ⟨hold.addName p j, rfl⟩

theorem filesStay_mkdir (s : Ram) (p : CStr) :
    FilesStay file s { s.addName p s.freeInode with dirs := s.freeInode :: s.dirs } := by
  intro i f hf
  refine file_kept hf fun hold => ⟨?_, rfl⟩
  obtain ⟨hname, hd⟩ := hold.addName p s.freeInode
  refine ⟨hname, fun hmem => ?_⟩
  rcases List.mem_cons.mp hmem with rfl | hmem
  · exact holdsFile_ne_free hold rfl
  · exact hd hmem

theorem stay_fopen2 (p : CStr) (flags : OpenFlags) (st : FileSt Ram) :
    wp (fopen2 p flags)
      (fun _ st' => FilesStay file st.fs st'.fs ∧ ∃ f, file st'.fs st'.file.inode = some f)
      (fun _ st' => FilesStay file st.fs st'.fs) st := by
  unfold wp fopen2
  cases hp : st.fs.lookup p with
  | none =>
    simp only
    split_ifs
    · exact ⟨filesStay_addFile st.fs p, _, file_eq_some.mpr ⟨holdsFile_addFile st.fs p, rfl⟩⟩
    · exact stay st.fs
  | some i =>
    have hname : ∃ n ∈ st.fs.names, n.2 = i := by
      obtain ⟨l₁, l₂, hnames, -⟩ := List.lookup_eq_some_iff.mp hp
      exact ⟨(p, i), by rw [hnames]; simp, rfl⟩
    simp only
    by_cases hd : i ∈ st.fs.dirs
    · rw [if_pos hd]
      exact stay st.fs
    · rw [if_neg hd]
      split_ifs
      · exact ⟨stay st.fs, _, file_eq_some.mpr ⟨⟨hname, hd⟩, rfl⟩⟩
      · exact ⟨stay st.fs, _, file_eq_some.mpr ⟨⟨hname, hd⟩, rfl⟩⟩
      · exact ⟨stay st.fs, _, file_eq_some.mpr ⟨⟨hname, hd⟩, rfl⟩⟩
      · exact ⟨stay st.fs, _, file_eq_some.mpr ⟨⟨hname, hd⟩, rfl⟩⟩

/-- A removal of names under `p` keeps the inodes with a name elsewhere. -/
theorem freesUnder_filter {s : Ram} {p : CStr} {keep : CStr × ℕ → Prop} [DecidablePred keep]
    (h : ∀ n, ¬ (n.1 = p ∨ isBelow p n.1 = true) → keep n) :
    FreesUnder file LastUnder p s { s with names := s.names.filter fun n => keep n } := by
  intro i f hf hlast
  refine file_kept hf fun hold => ⟨⟨?_, hold.2⟩, rfl⟩
  unfold LastUnder at hlast
  push Not at hlast
  obtain ⟨n, hn, hi, hp, hb⟩ := hlast
  refine ⟨n, List.mem_filter.mpr ⟨hn, decide_eq_true (h n ?_)⟩, hi⟩
  exact fun hor => hor.elim hp hb

theorem removalLaws : RemovalLaws env file LastUnder where
  stay := {
    malloc := fun _ s => stay s
    semaphoreTake := fun s => stay s
    now := fun s => stay s
    inodeExist := fun _ _ s => stay_onName fun _ _ => stay_ite (stay s) (stay s)
    fopen2 := fun p flags st => wp_mono (stay_fopen2 p flags st) (fun _ _ h => h.1) fun _ _ h => h
    fclose := fun st => stay st.fs
    fread := fun _ st => stay st.fs
    fwrite := fun _ st => stay st.fs
    fseek := fun offset whence st => by
      show Keeps _ (fseek offset whence) st
      unfold Keeps wp fseek
      cases seekTarget st.file offset whence with
      | none => exact stay st.fs
      | some _ => exact stay st.fs
    ftruncate := fun _ st => stay st.fs
    rawInodeFill := fun _ s => stay_onName fun _ _ => stay s
    getSblock := fun _ s => stay s
    mountPointStats := fun _ s => stay_ite (stay s) (stay s)
    cacheFlush := fun _ s => stay s
    flink := fun _ q s => stay_onName fun i _ => stay_ite (stay s) (filesStay_addName s q i)
    frename := fun p q s => stay_onName fun _ _ => stay_ite (stay s) (filesStay_rename s p q)
    dirOpen := fun _ s => stay_onName fun _ _ => stay_ite (stay s) (stay s)
    dirClose := fun st => stay st.fs
    dirEntryNext := fun st => by
      show FilesStay file st.fs (dirEntryNext st).2.fs
      unfold dirEntryNext
      split
      · exact stay st.fs
      · exact stay st.fs
      · exact stay st.fs
      · exact stay st.fs
    dirEntryRewind := fun st => stay st.fs
    dirMk := fun p s => stay_ite (stay s) (filesStay_mkdir s p)
    modeSet := fun _ _ s => stay_onName fun _ _ => stay s
    atimeSet := fun _ _ s => stay_onName fun _ _ => stay s
    mtimeSet := fun _ _ s => stay_onName fun _ _ => stay s }
  fopen2 p flags st := wp_mono (stay_fopen2 p flags st) (fun _ _ h => h.2) fun _ _ _ => trivial
  fremove p s := by
    refine wp_onName (fun _ => stay s) fun i _ => ?_
    unfold wp
    simp only
    split_ifs
    · exact stay s
    · exact freesUnder_filter fun n hn hp => hn (Or.inl hp)
  dirRm p s := by
    refine wp_onName (fun _ => (stay s).freesUnder) fun i _ => ?_
    unfold wp
    simp only
    split_ifs
    · refine freesUnder_filter fun n hn => ⟨fun hp => hn (Or.inl hp), ?_⟩
      rw [not_or, Bool.not_eq_true] at hn
      exact hn.2
    · exact (stay s).freesUnder

def create : OpenFlags := ⟨.rdwr, false, true, false, false⟩

/-- Descriptor 0 is open on the file `/a`, whose other name is `/b`. -/
def linkedOpen : MountSt Ram (List Ext4Direntry) :=
  reached env blank conf [slash] [.open_ pathA create, .link pathA pathB]

theorem spares_unlink : SparesOpen env LastUnder linkedOpen (.unlink pathA) := by
  rintro p s ⟨st', hrun, rfl, -⟩ fd hu
  have hchecks : unlinkChecks env pathA linkedOpen = .ok pathA linkedOpen := by rfl
  rw [hchecks] at hrun
  obtain ⟨rfl, rfl⟩ := Outcome.ok.inj hrun
  have hall : ∀ fd < 4, linkedOpen.ctx.usedAt fd = true →
      ¬ linkedOpen.fs.LastUnder pathA (inodeAt linkedOpen fd) := by decide
  exact hall fd (usedAt_lt_length hu) hu

/-- A file with another name can be unlinked while it is open. -/
theorem open_file_with_another_name :
    ∃ f, OpenOn file (reached env blank conf [slash]
      [.open_ pathA create, .link pathA pathB, .unlink pathA, .write 0 [1, 2, 3]]) 0 f := by
  refine (open_inodes_kept env file LastUnder removalLaws inodeLaws blank conf [slash] (by decide)
    [.open_ pathA create, .link pathA pathB, .unlink pathA, .write 0 [1, 2, 3]]
    ⟨?_, ?_, ?_, ?_, ?_⟩).1 0 (by decide)
  · exact fun _ _ h => h.elim
  · exact fun _ _ h => h.elim
  · exact spares_unlink
  · exact fun _ _ h => h.elim
  · trivial

/-- `/a` is unlinked while descriptor 0 is open on it: its inode is freed, the new file
`/b` gets the same one, and a write through descriptor 0 changes `/b`. -/
theorem write_reaches_another_file :
    let st₀ := reached env blank conf [slash] [.open_ pathA create]
    let st₁ := reached env blank conf [slash] [.open_ pathA create, .unlink pathA]
    let st₂ := run (MountOp.exec env) st₁ [.open_ pathB create, .close 1, .write 0 [1, 2, 3]]
    OpenOn file st₀ 0 1 ∧
      st₁.ctx.usedAt 0 = true ∧ st₁.fs.file (inodeAt st₁ 0) = none ∧
      OpenOn file st₂ 0 2 ∧ st₂.fs.lookup pathB = some (inodeAt st₂ 0) ∧
      st₂.fs.data (inodeAt st₂ 0) = [1, 2, 3] := by
  unfold OpenOn
  decide

end Ram

end EspLwext4.Port
