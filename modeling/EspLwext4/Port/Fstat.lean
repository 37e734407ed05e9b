import EspLwext4.Port.Descriptors
import EspLwext4.Port.Append

/-!
# What `fstat` reports

`vfs_lwext4_fstat` looks the stored path up again. It reports the file the descriptor
was opened on exactly as long as that path still names it.
-/

namespace EspLwext4.Port

open Prog Runs

section Adapter

variable {σ D : Type}

/-- Lookups: `named` is the inode a path names, `attr` the attributes of an inode. -/
structure LookupLaws (env : Env σ D) (named : σ → CStr → Option ℕ) (attr : σ → ℕ → Ext4Inode) :
    Prop where
  lock_named : ∀ s, named (env.idf.semaphoreTake s).2 = named s
  lock_attr : ∀ s, attr (env.idf.semaphoreTake s).2 = attr s
  rawInodeFill : ∀ p s, wp (env.lwext4.rawInodeFill p)
    (fun r _ => named s p = some r.1 ∧ r.2 = attr s r.1) (fun _ _ => True) s

variable {env : Env σ D} {named : σ → CStr → Option ℕ} {attr : σ → ℕ → Ext4Inode}

/-- The path a descriptor was opened with. -/
def pathAt (st : MountSt σ D) (fd : ℤ) : CStr := (st.ctx.file fd.toNat).path

/-- A status is that of the inode the path names. -/
theorem LookupLaws.wp_statPath (hS : LookupLaws env named attr) (path : CStr) (s : σ) :
    wp (statPathLocked env path)
      (fun r _ => ∃ n, named s path = some n ∧ r = statOf n (attr s n) r.blksize)
      (fun _ _ => True) s := by
  unfold statPathLocked
  rw [wp_bind]
  refine wp_mono (hS.rawInodeFill path s) ?_ fun _ _ _ => trivial
  rintro ⟨number, inode⟩ s₁ ⟨hnamed, hattr⟩
  obtain rfl : inode = attr s number := hattr
  simp only [wp_bind, wp_failIf, wp_attempt]
  refine wp_mono (wp_trivial _ s₁) (fun _ s₂ _ => ?_) fun _ _ _ => trivial
  refine ⟨fun _ => trivial, fun _ => ?_⟩
  refine wp_mono (wp_trivial _ s₂) (fun blockSize s₃ _ => ?_) fun _ s₃ _ => ?_
  · exact ⟨number, hnamed, rfl⟩
  · exact ⟨number, hnamed, rfl⟩

/-- `fstat` reports the inode that the stored path names now. -/
theorem LookupLaws.wp_fstat (hS : LookupLaws env named attr) (st : MountSt σ D) (fd : ℤ) :
    wp (vfsLwext4Fstat env fd)
      (fun r _ => st.ctx.usedAt fd.toNat = true ∧
        ∃ n, named st.fs (pathAt st fd) = some n ∧ r = statOf n (attr st.fs n) r.blksize)
      (fun _ _ => True) st := by
  refine wp_onOpenFile (fun _ => trivial) fun hu _ => ?_
  rw [wp_zoom]
  refine wp_mono (hS.wp_statPath _ _) ?_ fun _ _ _ => trivial
  rintro r fs ⟨n, hnamed, hr⟩
  refine ⟨hu, n, ?_, ?_⟩
  · rw [← hS.lock_named]
    exact hnamed
  · rw [← hS.lock_attr]
    exact hr

/-! ## Runs -/

/-- What the descriptor keeps from the moment it is opened. -/
theorem sameFile_run (hI : InodeLaws env) {st : MountSt σ D} {fd : ℕ} {ops : List MountOp}
    (hops : Along (MountOp.exec env) (fun st op => ¬ Closes env st fd op) st ops)
    (hu : st.ctx.usedAt fd = true) :
    SameFile (st.ctx.file fd) ((run (MountOp.exec env) st ops).ctx.file fd) := by
  have step (st' : MountSt σ D) (op : MountOp) (h : SameFile (st.ctx.file fd) (st'.ctx.file fd))
      (hop : ¬ Closes env st' fd op) :
      SameFile (st.ctx.file fd) ((op.exec env st').ctx.file fd) := by
    have hkept : SlotsKept _ _ st' _ :=
      slotsKept_exec (CallsKeep.trivial env) hI op fun _ => trivial
    have hf := hkept.2 fd hop (h.used hu)
    exact ⟨hf.slot.trans h.slot, hf.inode.trans h.inode⟩
  exact run_keeps (I := fun st' => SameFile (st.ctx.file fd) (st'.ctx.file fd)) step hops ⟨rfl, rfl⟩

/-- The state of a new context after some operations. -/
def reached (env : Env σ D) (fs : σ) (conf : Conf) (mountPoint : CStr) (ops : List MountOp) :
    MountSt σ D :=
  run (MountOp.exec env) ⟨fs, Ctx.new env.idf conf mountPoint⟩ ops

theorem shape_ok_reached {fs : σ} {conf : Conf} {mountPoint : CStr} (hm : mountPoint ≠ [])
    (ops : List MountOp) : (reached env fs conf mountPoint ops).ctx.shape.Ok :=
  run_keeps (C := fun _ _ => True) (I := fun st : MountSt σ D => st.ctx.shape.Ok)
    (fun _ op h _ => shape_ok_exec op h) (along_of_forall fun _ _ => trivial) (shape_ok_new hm)

/-- A descriptor that `open` returned is used. -/
theorem used_opened {st : MountSt σ D} {path : CStr} {flags : OpenFlags} {fd : ℕ}
    (hok : st.ctx.shape.Ok) (h : (vfsLwext4Open env path flags).answer st = .ok fd) :
    (MountOp.exec env st (.open_ path flags)).ctx.usedAt fd = true := by
  obtain ⟨hlt, -, fullPath, -, hshape⟩ := (wp_final.mp (wp_vfsLwext4Open path flags)).1 fd h
  rw [← usedAt_shape]
  show Shape.usedAt ((vfsLwext4Open env path flags).final st).ctx.shape fd = true
  rw [hshape]
  have hset := usedAt_set st.ctx.shape fd fd ⟨fullPath, flags, true⟩ (hok.slots_length ▸ hlt)
  exact hset.trans (if_pos rfl)

/-- **`fstat` after any run.** A descriptor is opened in a reachable state and not closed
by the run that follows. What `fstat` then reports is what it was opened on if and only
if the stored path still names that inode. -/
theorem fstat_reports_iff (env : Env σ D) (named : σ → CStr → Option ℕ)
    (attr : σ → ℕ → Ext4Inode) (hI : InodeLaws env) (hS : LookupLaws env named attr)
    (fs : σ) (conf : Conf) (mountPoint : CStr) (hm : mountPoint ≠ []) (before : List MountOp)
    (path : CStr) (flags : OpenFlags) (fd : ℕ) (opened : MountSt σ D)
    (hopened : opened = MountOp.exec env (reached env fs conf mountPoint before) (.open_ path flags))
    (hfd : (vfsLwext4Open env path flags).answer (reached env fs conf mountPoint before) = .ok fd)
    (after : List MountOp)
    (hafter : Along (MountOp.exec env) (fun st op => ¬ Closes env st fd op) opened after)
    (r : Stat) (hr : (vfsLwext4Fstat env fd).answer (run (MountOp.exec env) opened after) = .ok r) :
    r = statOf (inodeAt opened fd)
        (attr (run (MountOp.exec env) opened after).fs (inodeAt opened fd)) r.blksize ↔
      named (run (MountOp.exec env) opened after).fs (pathAt opened fd) =
        some (inodeAt opened fd) := by
  subst hopened
  have hu := used_opened (shape_ok_reached hm before) hfd
  have hsame := sameFile_run hI hafter hu
  obtain ⟨-, n, hnamed, hstat⟩ := (wp_final.mp (hS.wp_fstat _ _)).1 r hr
  have hpath : pathAt _ fd = pathAt _ fd := congrArg Slot.path hsame.slot
  rw [hpath] at hnamed
  rw [hnamed]
  constructor
  · intro h
    rw [hstat] at h
    exact congrArg some (congrArg Stat.ino h)
  · intro h
    obtain rfl := Option.some.inj h
    exact hstat

end Adapter

/-! ## A rotated log -/

namespace Ram

theorem inodeLaws : InodeLaws env where
  fread _ _ := rfl
  fwrite _ _ := rfl
  fseek offset whence st := by
    show wp (fseek offset whence) _ _ st
    unfold wp fseek
    cases seekTarget st.file offset whence with
    | none => exact rfl
    | some _ => exact rfl
  ftruncate _ _ := rfl
  fclose_failed _ := trivial

theorem lookupLaws : LookupLaws env lookup inode where
  lock_named _ := rfl
  lock_attr _ := rfl
  rawInodeFill p s := by
    unfold wp env lwext4 onName
    simp only
    cases s.lookup p with
    | none => trivial
    | some i => exact ⟨rfl, rfl⟩

def pathB : CStr := [47, 98]

def conf : Conf := ⟨[47, 100], [slash], 4, false⟩

/-- Descriptor 0 is open on a new file `/a`. -/
def logOpened : MountSt Ram (List Ext4Direntry) :=
  MountOp.exec env (reached env blank conf [slash] []) (.open_ pathA ⟨.rdwr, false, true, false, false⟩)

/-- As long as nobody renames it, `fstat` reports the file of the descriptor. -/
theorem fstat_of_own_file :
    let st := run (MountOp.exec env) logOpened [.write 0 [1, 2, 3], .link pathA pathB]
    (vfsLwext4Fstat env 0).answer st = .ok (statOf 12 (st.fs.inode 12) 1024) := by
  have hr : (vfsLwext4Fstat env 0).answer
      (run (MountOp.exec env) logOpened [.write 0 [1, 2, 3], .link pathA pathB]) =
        .ok ⟨12, 0o100644, 2, 0, 0, 3, 0, 0, 0, 1, 1024⟩ := by decide
  have h := (fstat_reports_iff env lookup inode inodeLaws lookupLaws blank conf [slash]
    (by decide) [] pathA ⟨.rdwr, false, true, false, false⟩ 0 logOpened rfl (by decide)
    [.write 0 [1, 2, 3], .link pathA pathB] ⟨nofun, nofun, trivial⟩ _ hr).mpr (by decide)
  exact hr.trans (congrArg Except.ok h)

/-- The log is moved to `/b` and a new file `/a` created: `fstat` of descriptor 0, which
still writes to inode 12, reports inode 13. -/
theorem fstat_of_another_file :
    let st := run (MountOp.exec env) logOpened
      [.rename pathA pathB, .open_ pathA ⟨.rdwr, false, true, false, false⟩, .write 0 [1, 2, 3]]
    inodeAt logOpened 0 = 12 ∧ inodeAt st 0 = 12 ∧
      (vfsLwext4Fstat env 0).answer st = .ok (statOf 13 (st.fs.inode 13) 1024) ∧
      (vfsLwext4Fstat env 0).answer st ≠ .ok (statOf 12 (st.fs.inode 12) 1024) := by
  decide

end Ram

end EspLwext4.Port
