import EspLwext4.Port.ReadBack

/-!
# Read-only contexts

What the calls of lwext4 that change a filesystem would do makes no difference to a read-only
context, as it makes none of them.
-/

namespace EspLwext4.Port

open Prog Runs

section Adapter

variable {σ D : Type} {env : Env σ D} {w : Lwext4 σ D} {st : MountSt σ D}

/-- `open` with these flags may change a filesystem. -/
def OpenFlags.writes (flags : OpenFlags) : Bool :=
  decide (flags.accMode ≠ .rdonly) || flags.creat || flags.trunc

/-- The library with the calls that change a filesystem taken from another one. -/
def Env.withWriters (env : Env σ D) (w : Lwext4 σ D) : Env σ D where
  idf := env.idf
  lwext4 := { env.lwext4 with
    fopen2 := fun p flags =>
      if flags.writes = true then w.fopen2 p flags else env.lwext4.fopen2 p flags
    fwrite := w.fwrite
    ftruncate := w.ftruncate
    flink := w.flink
    frename := w.frename
    fremove := w.fremove
    dirMk := w.dirMk
    dirRm := w.dirRm
    modeSet := w.modeSet
    atimeSet := w.atimeSet
    mtimeSet := w.mtimeSet }

/-! ## Refused operations -/

/-- The operations that a read-only context refuses before they take the lock. -/
def MountOp.writes : MountOp → Bool
  | .open_ _ flags => flags.writes
  | .write .. | .pwrite .. | .ftruncate .. | .truncate .. => true
  | .link .. | .unlink .. | .rename .. | .mkdir .. | .rmdir .. | .utime .. => true
  | _ => false

theorem wp_refuse {Q : Unit → MountSt σ D → Prop} {E : Errno → MountSt σ D → Prop}
    (hro : st.ctx.readOnly = true) (h : E .erofs st) : wp refuseReadOnly Q E st := by
  rw [wp_refuseReadOnly]
  exact ⟨fun _ => h, fun hn => absurd hro hn⟩

section Refused

variable {α : Type} {m : Unit → Call (MountSt σ D) α}

theorem final_refused (hro : st.ctx.readOnly = true) : (refuseReadOnly >>= m).final st = st := by
  have h : Keeps (fun st st' => st' = st) (refuseReadOnly >>= m) st := by
    unfold Keeps
    rw [wp_bind]
    exact wp_refuse hro rfl
  exact keeps_final.mp h

/-- The check of an argument comes first. -/
theorem final_guarded (hro : st.ctx.readOnly = true) {c : Prop} [Decidable c] {e : Errno} :
    (failIf c e >>= fun _ => refuseReadOnly >>= m).final st = st := by
  have h : Keeps (fun st st' => st' = st) (failIf c e >>= fun _ => refuseReadOnly >>= m) st := by
    unfold Keeps
    rw [wp_bind, wp_failIf]
    refine ⟨fun _ => rfl, fun _ => ?_⟩
    rw [wp_bind]
    exact wp_refuse hro rfl
  exact keeps_final.mp h

theorem final_open_refused (env : Env σ D) (hro : st.ctx.readOnly = true) {path : CStr}
    {flags : OpenFlags} (hflags : flags.writes = true) :
    (vfsLwext4Open env path flags).final st = st := by
  have hany : flags.accMode ≠ .rdonly ∨ flags.creat = true ∨ flags.trunc = true := by
    simpa [OpenFlags.writes, or_assoc] using hflags
  have h : Keeps (fun st st' => st' = st) (vfsLwext4Open env path flags) st := by
    unfold Keeps vfsLwext4Open
    rw [wp_bind, wp_getState, wp_bind, wp_failIf]
    exact ⟨fun _ => rfl, fun hn => absurd ⟨hro, hany⟩ hn⟩
  exact keeps_final.mp h

theorem final_pwrite_refused (env : Env σ D) (hro : st.ctx.readOnly = true) (fd : ℤ)
    (bytes : List UInt8) (offset : ℤ) : (vfsLwext4Pwrite env fd bytes offset).final st = st := by
  have h : Keeps (fun st st' => st' = st) (vfsLwext4Pwrite env fd bytes offset) st := by
    unfold Keeps vfsLwext4Pwrite positionedIo
    rw [wp_bind, wp_failIf]
    refine ⟨fun _ => rfl, fun _ => ?_⟩
    rw [wp_bind, wp_whenever]
    exact ⟨fun _ => wp_refuse hro rfl, fun hn => absurd rfl hn⟩
  exact keeps_final.mp h

end Refused

/-- A refused operation leaves everything as it was. -/
theorem exec_refused (env : Env σ D) (hro : st.ctx.readOnly = true) {op : MountOp}
    (h : op.writes = true) : op.exec env st = st := by
  cases op with
  | open_ path flags => exact final_open_refused env hro h
  | pwrite fd bytes offset => exact final_pwrite_refused env hro fd bytes offset
  | ftruncate fd length => exact final_guarded hro
  | truncate path length => exact final_guarded hro
  | write fd bytes => exact final_refused hro
  | link path hardlinkPath => exact final_refused hro
  | unlink path => exact final_refused hro
  | rename src dst => exact final_refused hro
  | mkdir name mode => exact final_refused hro
  | rmdir name => exact final_refused hro
  | utime path times => exact final_refused hro
  | _ => cases h

/-- `esp_vfs_lwext4_rmdir_recurse` takes the lock before it looks. -/
theorem rmdirRecurse_refused (env : Env σ D) (hro : st.ctx.readOnly = true) (path : CStr) :
    (rmdirRecurseOn env path).final st = ⟨(env.idf.semaphoreTake st.fs).2, st.ctx⟩ := by
  have h : Keeps (fun st st' => st' = ⟨(env.idf.semaphoreTake st.fs).2, st.ctx⟩)
      (rmdirRecurseOn env path) st := by
    unfold Keeps rmdirRecurseOn onFs
    rw [wp_bind, wp_mapErr, wp_zoom]
    refine wp_takeLock ?_ rfl
    rw [wp_bind, wp_getState, wp_bind, wp_failIf]
    refine ⟨fun _ => rfl, fun _ => ?_⟩
    rw [wp_bind, wp_failIf]
    exact ⟨fun _ => rfl, fun hn => absurd (Or.inl hro) hn⟩
  exact keeps_final.mp h

/-! ## Operations that only look -/

theorem seekdirLoop_withWriters (rounds : ℕ) :
    (seekdirLoop (env.withWriters w) rounds : Call (HandleSt σ D) Unit) =
      seekdirLoop env rounds := by
  induction rounds with
  | zero => rfl
  | succ rounds ih =>
    unfold seekdirLoop
    rw [ih]
    rfl

/-- A read writes nothing to fill a gap. -/
theorem transferAt_withWriters (grow : GrowBuffer) (path : CStr) (size offset : ℕ) :
    transferAt (env.withWriters w) grow path (.read size) offset =
      transferAt env grow path (.read size) offset := by
  unfold transferAt
  have hnone (fileSize : ℕ) : ¬ (IoRequest.isWrite (.read size) = true ∧ fileSize < offset) :=
    fun h => by cases h.1
  simp only [whenever, if_neg (hnone _)]
  rfl

theorem pread_withWriters (fd : ℤ) (size : ℕ) (offset : ℤ) :
    vfsLwext4Pread (env.withWriters w) fd size offset = vfsLwext4Pread env fd size offset := by
  unfold vfsLwext4Pread positionedIo positionedIoLocked
  simp only [transferAt_withWriters]
  rfl

/-- **One operation.** -/
theorem exec_withWriters (hro : st.ctx.readOnly = true) (op : MountOp) :
    op.exec (env.withWriters w) st = op.exec env st := by
  cases hop : op.writes with
  | true => rw [exec_refused _ hro hop, exec_refused _ hro hop]
  | false =>
    cases op with
    | open_ path flags =>
      have hfopen2 (p : CStr) :
          (env.withWriters w).lwext4.fopen2 p flags = env.lwext4.fopen2 p flags := by
        refine if_neg fun h => ?_
        rw [show flags.writes = false from hop] at h
        cases h
      unfold MountOp.exec vfsLwext4Open openSlot
      simp only [hfopen2]
      rfl
    | pread fd size offset =>
      show (vfsLwext4Pread (env.withWriters w) fd size offset).final st = _
      rw [pread_withWriters]
      rfl
    | seekdir pdir offset =>
      unfold MountOp.exec vfsLwext4Seekdir seekdirLocked
      simp only [seekdirLoop_withWriters]
      rfl
    | rmdirRecurse path =>
      exact (rmdirRecurse_refused _ hro path).trans (rmdirRecurse_refused env hro path).symm
    | write | pwrite | ftruncate | truncate | link | unlink | rename => cases hop
    | mkdir | rmdir | utime => cases hop
    | _ => rfl

theorem run_withWriters (ops : List MountOp) (hro : st.ctx.readOnly = true) :
    run (MountOp.exec (env.withWriters w)) st ops = run (MountOp.exec env) st ops := by
  induction ops generalizing st with
  | nil => rfl
  | cons op ops ih =>
    have hsame : SameFixed st.ctx.shape (op.exec env st).ctx.shape := sameFixed_exec op
    rw [run_cons, run_cons, exec_withWriters hro]
    exact ih (hsame.readOnly.trans hro)

/-- **Read-only contexts change nothing.** From a new read-only context every run of operations
leads to the same state whatever the calls of lwext4 do that change a filesystem. -/
theorem read_only_never_writes (env : Env σ D) (w : Lwext4 σ D) (fs : σ) (conf : Conf)
    (hro : conf.readOnly = true) (mountPoint : CStr) (ops : List MountOp) :
    reached (env.withWriters w) fs conf mountPoint ops = reached env fs conf mountPoint ops :=
  run_withWriters ops hro

end Adapter

/-! ## A mounted image -/

namespace Ram

/-- A library that forgets everything when it writes or removes. -/
def forgetful : Lwext4 Ram (List Ext4Direntry) :=
  { lwext4 with
    fwrite := fun bytes st => .ok bytes.length ⟨blank, st.file⟩
    fremove := fun _ _ => .ok () blank
    ftruncate := fun _ st => .ok () ⟨blank, st.file⟩ }

/-- The file `/a` holds three bytes. -/
def image : Ram := (blank.addFile pathA).setData 12 [1, 2, 3]

def imageConf : Conf := ⟨[47, 100], [slash], 4, true⟩

def meddling : List MountOp :=
  [.open_ pathA .rdwr, .open_ pathA .none, .write 0 [9], .unlink pathA, .truncate pathA 0,
    .rmdirRecurse pathA, .read 0 3]

theorem image_kept :
    reached (env.withWriters forgetful) image imageConf [slash] meddling =
        reached env image imageConf [slash] meddling ∧
      (reached env image imageConf [slash] meddling).fs.data 12 = [1, 2, 3] ∧
      offsetAt (reached env image imageConf [slash] meddling) 0 = 3 :=
  ⟨read_only_never_writes env forgetful image imageConf rfl [slash] meddling, by decide, by decide⟩

end Ram

end EspLwext4.Port
