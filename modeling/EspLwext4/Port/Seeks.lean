import EspLwext4.Port.Handles

/-!
# Seeking

`lseek` leaves the seek to `ext4_fseek`, which works on the size that the handle has
cached, and looks at the range of `off_t` only after the handle has moved. So a call
that fails can have moved the handle, and a target within the inode can be refused.
-/

namespace EspLwext4.Port

open Prog Runs

section Adapter

variable {σ D : Type} {env : Env σ D} {accepts : Ext4File → ℤ → Whence → Prop}

/-! ## The seek of the library -/

/-- Where `ext4_fseek` is asked to go. -/
def seekGoal (file : Ext4File) (offset : ℤ) : Whence → ℤ
  | .seekSet => offset
  | .seekCur => file.fpos + offset
  | .seekEnd => file.fsize - offset
  | .other => offset

/-- `ext4_fseek` goes where it is asked to, within the size the handle has cached, or
fails and changes nothing. Only for a step from the current offset to somewhere
outside that size is it left open which of the two happens. -/
structure SeekLaws (env : Env σ D) (accepts : Ext4File → ℤ → Whence → Prop) : Prop where
  moves : ∀ (o : ℤ) w (st : FileSt σ), accepts st.file o w → 0 ≤ seekGoal st.file o w ∧
    env.lwext4.fseek o w st =
      .ok () ⟨st.fs, { st.file with fpos := (seekGoal st.file o w).toNat }⟩
  refuses : ∀ (o : ℤ) w (st : FileSt σ), ¬ accepts st.file o w →
    ∃ e, env.lwext4.fseek o w st = .err e st
  fromStart : ∀ file o, accepts file o .seekSet ↔ 0 ≤ o ∧ o ≤ file.fsize
  fromEnd : ∀ file o, accepts file o .seekEnd ↔ 0 ≤ o ∧ o ≤ file.fsize
  fromHere : ∀ (file : Ext4File) (o : ℤ), 0 ≤ file.fpos + o → file.fpos + o ≤ file.fsize →
    accepts file o .seekCur

/-! ## The seek of the adapter -/

/-- The argument of `ext4_fseek`. -/
def lwext4Offset (offset : ℤ) (whence : Whence) : ℤ :=
  if whence = .seekEnd then -offset else offset

/-- `lseek` refuses the arguments, whatever file they are for. -/
def SeekInvalid (idf : Idf σ) (offset : ℤ) (whence : Whence) : Prop :=
  (whence = .seekEnd ∧ (0 < offset ∨ offset = -(idf.offTMaxValue : ℤ) - 1)) ∨ whence = .other

/-- Where the call asks the handle to go. -/
def goalOf (file : Ext4File) (offset : ℤ) (whence : Whence) : ℤ :=
  seekGoal file (lwext4Offset offset whence) whence

/-- The call passes the checks on its arguments and the seek is accepted. -/
def SeekMoves (env : Env σ D) (accepts : Ext4File → ℤ → Whence → Prop) (file : Ext4File)
    (offset : ℤ) (whence : Whence) : Prop :=
  ¬ SeekInvalid env.idf offset whence ∧ accepts file (lwext4Offset offset whence) whence

section File

variable {st : FileSt σ} {offset : ℤ} {whence : Whence}

/-- A seek that does not move leaves the file as it is, and fails. -/
theorem SeekLaws.seekLocked_stays (hL : SeekLaws env accepts)
    (h : ¬ SeekMoves env accepts st.file offset whence) :
    ∃ e, seekLocked env offset whence st = .err e st := by
  by_cases hend : whence = .seekEnd ∧ (0 < offset ∨ offset = -(env.idf.offTMaxValue : ℤ) - 1)
  · exact ⟨.einval, bind_of_err (failIf_of hend)⟩
  by_cases hother : whence = .other
  · exact ⟨.einval, (bind_of_ok (failIf_of_not hend)).trans (bind_of_err (failIf_of hother))⟩
  have hvalid : ¬ SeekInvalid env.idf offset whence := not_or.mpr ⟨hend, hother⟩
  obtain ⟨e, he⟩ := hL.refuses (lwext4Offset offset whence) whence st fun ha => h ⟨hvalid, ha⟩
  refine ⟨e, (bind_of_ok (failIf_of_not hend)).trans ?_⟩
  exact (bind_of_ok (failIf_of_not hother)).trans (bind_of_err he)

/-- A seek that moves is at its goal before the range of `off_t` is looked at. -/
theorem SeekLaws.seekLocked_moves (hL : SeekLaws env accepts)
    (h : SeekMoves env accepts st.file offset whence) :
    0 ≤ goalOf st.file offset whence ∧
      ((env.idf.offTMaxValue : ℤ) < goalOf st.file offset whence →
        seekLocked env offset whence st =
          .err .eoverflow ⟨st.fs, { st.file with fpos := (goalOf st.file offset whence).toNat }⟩) ∧
      (goalOf st.file offset whence ≤ env.idf.offTMaxValue →
        seekLocked env offset whence st = .ok (goalOf st.file offset whence)
          ⟨st.fs, { st.file with fpos := (goalOf st.file offset whence).toNat }⟩) := by
  obtain ⟨hvalid, haccepts⟩ := h
  obtain ⟨hend, hother⟩ := not_or.mp hvalid
  obtain ⟨hnonneg, hseek⟩ := hL.moves _ _ _ haccepts
  have hcast : ((goalOf st.file offset whence).toNat : ℤ) = goalOf st.file offset whence :=
    Int.toNat_of_nonneg hnonneg
  have hmoved : seekLocked env offset whence st = (do
      let position ← ftell
      failIf (env.idf.offTMaxValue < position) .eoverflow
      return (position : ℤ))
      ⟨st.fs, { st.file with fpos := (goalOf st.file offset whence).toNat }⟩ :=
    (bind_of_ok (failIf_of_not hend)).trans
      ((bind_of_ok (failIf_of_not hother)).trans (bind_of_ok hseek))
  refine ⟨hnonneg, fun hlt => ?_, fun hle => ?_⟩
  · rw [hmoved]
    refine (bind_of_ok rfl).trans (bind_of_err (failIf_of ?_))
    exact show env.idf.offTMaxValue < (goalOf st.file offset whence).toNat by omega
  · rw [hmoved]
    refine (bind_of_ok rfl).trans ((bind_of_ok (failIf_of_not ?_)).trans ?_)
    · exact show ¬ env.idf.offTMaxValue < (goalOf st.file offset whence).toNat by omega
    · rw [← hcast]
      rfl

end File

/-! ## Work on an open descriptor -/

section Slot

variable {α : Type} {st : MountSt σ D} {fd : ℤ} {m : GrowBuffer → EspFile → Call (FileSt σ) α}

/-- `xSemaphoreTake` succeeds. -/
def LockGranted (env : Env σ D) (st : MountSt σ D) : Prop :=
  (env.idf.semaphoreTake st.fs).1 = true

theorem takeLock_granted {s : σ} (h : (env.idf.semaphoreTake s).1 = true) :
    takeLock env.idf s = .ok () (env.idf.semaphoreTake s).2 := by
  unfold takeLock
  cases hs : env.idf.semaphoreTake s with
  | mk granted s' =>
    rw [hs] at h
    cases h
    rfl

theorem takeLock_refused {s : σ} (h : ¬ (env.idf.semaphoreTake s).1 = true) :
    takeLock env.idf s = .err .eio (env.idf.semaphoreTake s).2 := by
  unfold takeLock
  cases hs : env.idf.semaphoreTake s with
  | mk granted s' =>
    rw [hs] at h
    cases granted with
    | false => rfl
    | true => exact absurd rfl h

/-- The state after the lock was asked for. -/
def afterLock (env : Env σ D) (st : MountSt σ D) : MountSt σ D :=
  ⟨(env.idf.semaphoreTake st.fs).2, st.ctx⟩

theorem locked_granted {n : Call (MountSt σ D) α} (hlock : LockGranted env st) :
    locked env n st = n (afterLock env st) :=
  bind_of_ok (zoom_of_ok (takeLock_granted (s := st.fs) hlock))

theorem locked_refused {n : Call (MountSt σ D) α} (hlock : ¬ LockGranted env st) :
    locked env n st = .err .eio (afterLock env st) :=
  bind_of_err (zoom_of_err (takeLock_refused (s := st.fs) hlock))

/-- A call that gets the lock and an open descriptor is its work on the file. -/
theorem onOpenFile_runs (hlock : LockGranted env st) (hopen : FileOpen st fd) :
    onOpenFile env fd none m st =
      zoom (MountSt.fileLens fd.toNat) (m st.ctx.growBuffer (st.ctx.file fd.toNat))
        (afterLock env st) := by
  have hget : (fileGet fd : Call (MountSt σ D) ℕ) (afterLock env st) =
      .ok fd.toNat (afterLock env st) :=
    (bind_of_ok rfl).trans ((bind_of_ok (failIf_of_not hopen)).trans rfl)
  refine (locked_granted hlock).trans ((bind_of_ok hget).trans ((bind_of_ok rfl).trans ?_))
  exact bind_of_ok (failIf_of_not nofun)

/-- Without the lock or an open descriptor the call fails before it does anything. -/
theorem onOpenFile_refused (h : ¬ (LockGranted env st ∧ FileOpen st fd)) :
    ∃ e, onOpenFile env fd none m st = .err e (afterLock env st) := by
  by_cases hlock : LockGranted env st
  · have hget : (fileGet fd : Call (MountSt σ D) ℕ) (afterLock env st) =
        .err .ebadf (afterLock env st) :=
      (bind_of_ok rfl).trans
        (bind_of_err (failIf_of (not_not.mp fun hopen => h ⟨hlock, hopen⟩)))
    exact ⟨.ebadf, (locked_granted hlock).trans (bind_of_err hget)⟩
  · exact ⟨.eio, locked_refused hlock⟩

theorem FileOpen.used (h : FileOpen st fd) : st.ctx.usedAt fd.toNat = true := by
  by_contra hn
  exact h (Or.inr (Or.inr (Bool.eq_false_iff.mpr hn)))

/-- The descriptor with its file at another offset. -/
def movedTo (st : MountSt σ D) (fd : ℤ) (position : ℕ) : MountSt σ D :=
  ⟨st.fs, st.ctx.setFile fd.toNat { st.ctx.file fd.toNat with
    file := { (st.ctx.file fd.toNat).file with fpos := position } }⟩

theorem offsetAt_movedTo (hopen : FileOpen st fd) (position : ℕ) :
    offsetAt (movedTo st fd position) fd = position := by
  unfold offsetAt fileAt movedTo
  rw [file_setFile st.ctx _ hopen.used]

end Slot

/-! ## Calls -/

section Calls

variable {st : MountSt σ D} {fd : ℤ} {offset : ℤ} {whence : Whence}

/-- The goal of a call on a descriptor. -/
def goalAt (st : MountSt σ D) (fd : ℤ) (offset : ℤ) (whence : Whence) : ℤ :=
  goalOf (fileAt st fd).file offset whence

/-- The call gets as far as moving the handle. -/
def LseekMoves (env : Env σ D) (accepts : Ext4File → ℤ → Whence → Prop) (st : MountSt σ D)
    (fd offset : ℤ) (whence : Whence) : Prop :=
  LockGranted env st ∧ FileOpen st fd ∧ SeekMoves env accepts (fileAt st fd).file offset whence

/-- A call that does not move the handle fails and leaves it where it is. -/
theorem SeekLaws.lseek_stays (hL : SeekLaws env accepts)
    (h : ¬ LseekMoves env accepts st fd offset whence) :
    ∃ e st', vfsLwext4Lseek env fd offset whence st = .err e st' ∧
      offsetAt st' fd = offsetAt st fd := by
  by_cases hready : LockGranted env st ∧ FileOpen st fd
  · obtain ⟨hlock, hopen⟩ := hready
    have hstays : ¬ SeekMoves env accepts (fileAt (afterLock env st) fd).file offset whence :=
      fun hm => h ⟨hlock, hopen, hm⟩
    obtain ⟨e, he⟩ := hL.seekLocked_stays hstays
    refine ⟨e, _, (onOpenFile_runs hlock hopen).trans (zoom_of_err he), ?_⟩
    have hopen' : FileOpen (afterLock env st) fd := hopen
    exact offsetAt_movedTo hopen' (offsetAt st fd)
  · obtain ⟨e, he⟩ := onOpenFile_refused (m := fun _ _ => seekLocked env offset whence) hready
    exact ⟨e, _, he, rfl⟩

/-- A call that moves the handle has it at its goal, whether it then returns or fails. -/
theorem SeekLaws.lseek_moves (hL : SeekLaws env accepts)
    (h : LseekMoves env accepts st fd offset whence) :
    0 ≤ goalAt st fd offset whence ∧ ∃ st', offsetAt st' fd = (goalAt st fd offset whence).toNat ∧
      ((env.idf.offTMaxValue : ℤ) < goalAt st fd offset whence →
        vfsLwext4Lseek env fd offset whence st = .err .eoverflow st') ∧
      (goalAt st fd offset whence ≤ env.idf.offTMaxValue →
        vfsLwext4Lseek env fd offset whence st = .ok (goalAt st fd offset whence) st') := by
  obtain ⟨hlock, hopen, hmoves⟩ := h
  have hmoves' : SeekMoves env accepts (fileAt (afterLock env st) fd).file offset whence := hmoves
  have hopen' : FileOpen (afterLock env st) fd := hopen
  obtain ⟨hnonneg, herr, hok⟩ := hL.seekLocked_moves hmoves'
  have hrun : vfsLwext4Lseek env fd offset whence st = _ := onOpenFile_runs hlock hopen
  refine ⟨hnonneg, movedTo (afterLock env st) fd (goalAt st fd offset whence).toNat, ?_, ?_, ?_⟩
  · exact offsetAt_movedTo hopen' _
  · intro hlt
    refine hrun.trans ?_
    exact zoom_of_err (l := MountSt.fileLens fd.toNat) (t := afterLock env st) (herr hlt)
  · intro hle
    refine hrun.trans ?_
    exact zoom_of_ok (l := MountSt.fileLens fd.toNat) (t := afterLock env st) (hok hle)

/-! ## A failing call -/

/-- The call fails after it has moved the handle to an offset that `off_t` cannot hold. -/
def MovesAndFails (env : Env σ D) (accepts : Ext4File → ℤ → Whence → Prop) (st : MountSt σ D)
    (fd offset : ℤ) (whence : Whence) : Prop :=
  LseekMoves env accepts st fd offset whence ∧
    (env.idf.offTMaxValue : ℤ) < goalAt st fd offset whence ∧
    goalAt st fd offset whence ≠ offsetAt st fd

/-- **A failing `lseek`** leaves the offset alone if and only if the seek below it did not
reach an offset beyond the range of `off_t` that the handle was not at already. -/
theorem lseek_failure_keeps_offset_iff (env : Env σ D) (accepts : Ext4File → ℤ → Whence → Prop)
    (hL : SeekLaws env accepts) (st : MountSt σ D) (fd offset : ℤ) (whence : Whence) :
    (∀ e st', vfsLwext4Lseek env fd offset whence st = .err e st' →
      offsetAt st' fd = offsetAt st fd) ↔ ¬ MovesAndFails env accepts st fd offset whence := by
  by_cases hmoves : LseekMoves env accepts st fd offset whence
  · obtain ⟨hnonneg, st₁, hoffset, herr, hok⟩ := hL.lseek_moves hmoves
    by_cases hlt : (env.idf.offTMaxValue : ℤ) < goalAt st fd offset whence
    · constructor
      · intro hkeep hfails
        have hsame := hkeep _ _ (herr hlt)
        have hne := hfails.2.2
        omega
      · intro hnot e st' hrun
        rw [herr hlt] at hrun
        cases hrun
        have heq : goalAt st fd offset whence = offsetAt st fd :=
          not_not.mp fun hne => hnot ⟨hmoves, hlt, hne⟩
        omega
    · refine ⟨fun _ hfails => hlt hfails.2.1, fun _ e st' hrun => ?_⟩
      rw [hok (Int.not_lt.mp hlt)] at hrun
      cases hrun
  · refine ⟨fun _ hfails => hmoves hfails.1, fun _ e st' hrun => ?_⟩
    obtain ⟨e₁, st₁, hrun₁, hsame⟩ := hL.lseek_stays hmoves
    rw [hrun₁] at hrun
    cases hrun
    exact hsame

/-! ## Targets within the inode -/

/-- The value fits into `off_t`. -/
def IsOffT (idf : Idf σ) (x : ℤ) : Prop :=
  -(idf.offTMaxValue : ℤ) - 1 ≤ x ∧ x ≤ idf.offTMaxValue

instance (idf : Idf σ) (x : ℤ) : Decidable (IsOffT idf x) := inferInstanceAs (Decidable (_ ∧ _))

/-- The call succeeds, returns `T` and leaves the handle at `T`. -/
def SeeksTo (env : Env σ D) (st : MountSt σ D) (fd offset : ℤ) (whence : Whence) (T : ℕ) : Prop :=
  ∃ st', vfsLwext4Lseek env fd offset whence st = .ok (T : ℤ) st' ∧ offsetAt st' fd = T

/-- From each of the three origins, with every argument that `off_t` can hold. -/
structure Reaches (env : Env σ D) (data : σ → ℕ → List UInt8) (st : MountSt σ D) (fd : ℤ)
    (T : ℕ) : Prop where
  fromStart : SeeksTo env st fd T .seekSet T
  fromHere : IsOffT env.idf (T - offsetAt st fd) →
    SeeksTo env st fd (T - offsetAt st fd) .seekCur T
  fromEnd : IsOffT env.idf (T - sizeOf data (fileAt st fd)) →
    SeeksTo env st fd (T - sizeOf data (fileAt st fd)) .seekEnd T

/-- The size that the handle has cached serves the target: it reaches the target, and it
is the size of the inode where the target can be given from the end. The lowest value of
`off_t` cannot be given from the end. -/
def CacheServes (env : Env σ D) (data : σ → ℕ → List UInt8) (st : MountSt σ D) (fd : ℤ)
    (T : ℕ) : Prop :=
  T ≤ (fileAt st fd).file.fsize ∧
    (IsOffT env.idf (T - sizeOf data (fileAt st fd)) →
      (fileAt st fd).file.fsize = sizeOf data (fileAt st fd) ∧
        (T : ℤ) - sizeOf data (fileAt st fd) ≠ -(env.idf.offTMaxValue : ℤ) - 1)

instance (st : MountSt σ D) (fd : ℤ) (data : σ → ℕ → List UInt8) (T : ℕ) :
    Decidable (CacheServes env data st fd T) := inferInstanceAs (Decidable (_ ∧ (_ → _)))

/-- A call reaches `T` exactly when it moves the handle and `T` is its goal. -/
theorem SeekLaws.seeksTo_iff (hL : SeekLaws env accepts) {T : ℕ} (hT : T ≤ env.idf.offTMaxValue) :
    SeeksTo env st fd offset whence T ↔
      LseekMoves env accepts st fd offset whence ∧ goalAt st fd offset whence = T := by
  constructor
  · rintro ⟨st', hrun, hoffset⟩
    by_cases hmoves : LseekMoves env accepts st fd offset whence
    · refine ⟨hmoves, ?_⟩
      obtain ⟨hnonneg, st₁, hoffset₁, herr, hok⟩ := hL.lseek_moves hmoves
      by_cases hlt : (env.idf.offTMaxValue : ℤ) < goalAt st fd offset whence
      · rw [herr hlt] at hrun
        cases hrun
      · rw [hok (Int.not_lt.mp hlt)] at hrun
        injection hrun
    · obtain ⟨e, st₁, hrun₁, -⟩ := hL.lseek_stays hmoves
      rw [hrun₁] at hrun
      cases hrun
  · rintro ⟨hmoves, hgoal⟩
    obtain ⟨hnonneg, st₁, hoffset, -, hok⟩ := hL.lseek_moves hmoves
    rw [hgoal] at hoffset hok
    exact ⟨st₁, hok (by omega), hoffset⟩

variable {data : σ → ℕ → List UInt8} {T : ℕ}

/-- From the start: the cached size reaches the target. -/
theorem SeekLaws.fromStart_iff (hL : SeekLaws env accepts) (hlock : LockGranted env st)
    (hopen : FileOpen st fd) (hT : T ≤ env.idf.offTMaxValue) :
    SeeksTo env st fd T .seekSet T ↔ T ≤ (fileAt st fd).file.fsize := by
  rw [hL.seeksTo_iff hT]
  constructor
  · rintro ⟨⟨-, -, -, haccepts⟩, -⟩
    have h := (hL.fromStart _ _).mp haccepts
    exact Int.ofNat_le.mp h.2
  · intro hle
    refine ⟨⟨hlock, hopen, ?_, (hL.fromStart _ _).mpr ⟨Int.natCast_nonneg T, ?_⟩⟩, rfl⟩
    · rintro (⟨h, -⟩ | h)
      · cases h
      · cases h
    · exact Int.ofNat_le.mpr hle

/-- From the current offset: a target that the cached size reaches. -/
theorem SeekLaws.fromHere_of (hL : SeekLaws env accepts) (hlock : LockGranted env st)
    (hopen : FileOpen st fd) (hT : T ≤ env.idf.offTMaxValue)
    (hle : T ≤ (fileAt st fd).file.fsize) :
    SeeksTo env st fd (T - offsetAt st fd) .seekCur T := by
  have hgoal : goalAt st fd (T - offsetAt st fd) .seekCur = T :=
    show ((offsetAt st fd : ℕ) : ℤ) + (T - offsetAt st fd) = T by omega
  rw [hL.seeksTo_iff hT]
  refine ⟨⟨hlock, hopen, ?_, hL.fromHere _ _ ?_ ?_⟩, hgoal⟩
  · rintro (⟨h, -⟩ | h)
    · cases h
    · cases h
  · exact show 0 ≤ goalAt st fd (T - offsetAt st fd) .seekCur by omega
  · exact show goalAt st fd (T - offsetAt st fd) .seekCur ≤ (fileAt st fd).file.fsize by omega

/-- From the end: the cached size is that of the inode, unless the argument is the lowest
value of `off_t`. -/
theorem SeekLaws.fromEnd_iff (hL : SeekLaws env accepts) (hlock : LockGranted env st)
    (hopen : FileOpen st fd) (hT : T ≤ env.idf.offTMaxValue)
    (hsize : T ≤ sizeOf data (fileAt st fd)) :
    SeeksTo env st fd (T - sizeOf data (fileAt st fd)) .seekEnd T ↔
      (fileAt st fd).file.fsize = sizeOf data (fileAt st fd) ∧
        (T : ℤ) - sizeOf data (fileAt st fd) ≠ -(env.idf.offTMaxValue : ℤ) - 1 := by
  have hgoal : goalAt st fd (T - sizeOf data (fileAt st fd)) .seekEnd =
      (fileAt st fd).file.fsize - (sizeOf data (fileAt st fd) - T) :=
    show ((fileAt st fd).file.fsize : ℤ) - -(T - sizeOf data (fileAt st fd)) = _ by omega
  rw [hL.seeksTo_iff hT, hgoal]
  constructor
  · rintro ⟨⟨-, -, hvalid, -⟩, heq⟩
    refine ⟨by omega, fun hmin => hvalid (Or.inl ⟨rfl, Or.inr hmin⟩)⟩
  · rintro ⟨hfresh, hmin⟩
    refine ⟨⟨hlock, hopen, ?_, (hL.fromEnd _ _).mpr ?_⟩, by omega⟩
    · rintro (⟨-, hpos | hlow⟩ | h)
      · omega
      · exact hmin hlow
      · cases h
    · exact show 0 ≤ -((T : ℤ) - sizeOf data (fileAt st fd)) ∧
        -((T : ℤ) - sizeOf data (fileAt st fd)) ≤ (fileAt st fd).file.fsize by omega

end Calls

/-- **Seeking within the inode, after any run.** In every state that operations on a new
context reach, `lseek` reaches a target within the inode from all three origins if and
only if the size that the handle has cached serves the target. -/
theorem lseek_reaches_iff (env : Env σ D) (accepts : Ext4File → ℤ → Whence → Prop)
    (data : σ → ℕ → List UInt8) (hL : SeekLaws env accepts) (fs : σ) (conf : Conf)
    (mountPoint : CStr) (ops : List MountOp) (fd : ℤ) (T : ℕ)
    (hlock : LockGranted env (reached env fs conf mountPoint ops))
    (hopen : FileOpen (reached env fs conf mountPoint ops) fd)
    (hsize : T ≤ sizeOf data (fileAt (reached env fs conf mountPoint ops) fd))
    (hoff : IsOffT env.idf T) :
    Reaches env data (reached env fs conf mountPoint ops) fd T ↔
      CacheServes env data (reached env fs conf mountPoint ops) fd T := by
  have hT : T ≤ env.idf.offTMaxValue := Int.ofNat_le.mp hoff.2
  constructor
  · intro h
    have hle := (hL.fromStart_iff hlock hopen hT).mp h.fromStart
    exact ⟨hle, fun hfits => (hL.fromEnd_iff hlock hopen hT hsize).mp (h.fromEnd hfits)⟩
  · rintro ⟨hle, hend⟩
    exact {
      fromStart := (hL.fromStart_iff hlock hopen hT).mpr hle
      fromHere := fun _ => hL.fromHere_of hlock hopen hT hle
      fromEnd := fun hfits => (hL.fromEnd_iff hlock hopen hT hsize).mpr (hend hfits) }

end Adapter

/-! ## Seeks on the library in memory -/

namespace Ram

/-- What `fseek` accepts. -/
def Accepts (file : Ext4File) (offset : ℤ) (whence : Whence) : Prop :=
  seekTarget file offset whence ≠ none

theorem seekTarget_goal {file : Ext4File} {offset : ℤ} {whence : Whence} {t : ℤ}
    (h : seekTarget file offset whence = some t) :
    t = seekGoal file offset whence ∧ 0 ≤ t := by
  unfold seekTarget at h
  cases whence with
  | seekSet =>
    obtain ⟨hle, heq⟩ := Option.ite_none_right_eq_some.mp h
    cases heq
    exact ⟨rfl, hle.1⟩
  | seekCur =>
    obtain ⟨hle, heq⟩ := Option.ite_none_right_eq_some.mp h
    cases heq
    exact ⟨rfl, hle.1⟩
  | seekEnd =>
    obtain ⟨hle, heq⟩ := Option.ite_none_right_eq_some.mp h
    cases heq
    exact ⟨rfl, by omega⟩
  | other => cases h

theorem seekLaws (idf : Idf Ram) : SeekLaws ⟨lwext4, idf⟩ Accepts where
  moves o w st h := by
    obtain ⟨t, ht⟩ := Option.ne_none_iff_exists'.mp h
    obtain ⟨rfl, hnonneg⟩ := seekTarget_goal ht
    refine ⟨hnonneg, ?_⟩
    show fseek o w st = _
    unfold fseek
    rw [ht]
  refuses o w st h := by
    refine ⟨.einval, ?_⟩
    show fseek o w st = _
    unfold fseek
    rw [not_not.mp h]
  fromStart file o := by
    unfold Accepts seekTarget
    simp
  fromEnd file o := by
    unfold Accepts seekTarget
    simp
  fromHere file o h₀ h₁ := by
    unfold Accepts seekTarget
    simp [h₀, h₁]

/-- A target with a 32-bit `off_t`. -/
def env32 : Env Ram (List Ext4Direntry) := ⟨lwext4, { idf with offBits := 32 }⟩

/-- A file of three billion bytes is open in slot 0. -/
def bigFile : MountSt Ram (List Ext4Direntry) :=
  ⟨{ blank with names := [(pathA, 12)], data := fun _ => List.replicate 3000000000 0 },
    (Ctx.new idf ⟨[47, 100], [slash], 4, false⟩ [slash]).setFile 0
      ⟨⟨12, 3000000000, 0⟩, pathA, .rdwr, true⟩⟩

/-- A seek to the end fails, as the size does not fit into `off_t`, and leaves the handle
at the end. -/
theorem lseek_failure_moves :
    ∃ st', vfsLwext4Lseek env32 0 0 .seekEnd bigFile = .err .eoverflow st' ∧
      offsetAt bigFile 0 = 0 ∧ offsetAt st' 0 = 3000000000 := ⟨_, rfl, by decide, by decide⟩

/-- A seek in front of the file fails, too, and leaves the handle where it is. -/
theorem lseek_failure_refused :
    ∃ st', vfsLwext4Lseek env32 0 (-1) .seekSet bigFile = .err .einval st' ∧
      offsetAt st' 0 = offsetAt bigFile 0 := by
  have hstays : ¬ MovesAndFails env32 Accepts bigFile 0 (-1) .seekSet := by
    rintro ⟨-, hlt, -⟩
    exact absurd hlt (by decide)
  have hkeeps := (lseek_failure_keeps_offset_iff env32 Accepts (seekLaws _) bigFile 0 (-1)
    .seekSet).mpr hstays
  exact ⟨_, rfl, hkeeps _ _ rfl⟩

/-- The handle that wrote the ten bytes seeks anywhere within them. -/
theorem lseek_fresh : Reaches env data (reached env blank ⟨[47, 100], [slash], 4, false⟩ [slash]
    [.open_ pathA rdwrCreate, .open_ pathA .rdwr, .write 0 [0, 1, 2, 3, 4, 5, 6, 7, 8, 9]]) 0 5 := by
  refine (lseek_reaches_iff env Accepts data (seekLaws _) _ _ _ _ 0 5 rfl ?_ ?_ ?_).mpr ?_
  · exact (by decide : FileOpen oldHandle 0)
  · exact (by decide : 5 ≤ sizeOf data (fileAt oldHandle 0))
  · exact (by decide : IsOffT env.idf 5)
  · exact (by decide : CacheServes env data oldHandle 0 5)

/-- The handle opened before has cached size 0 and cannot seek to 5. -/
theorem lseek_stale : FileOpen oldHandle 1 ∧ 5 ≤ sizeOf data (fileAt oldHandle 1) ∧
    (vfsLwext4Lseek env 1 5 .seekSet).answer oldHandle = .error .einval ∧
    ¬ Reaches env data oldHandle 1 5 := by
  have hfails : (vfsLwext4Lseek env 1 5 .seekSet).answer oldHandle = .error .einval := by decide
  refine ⟨by decide, by decide, hfails, fun h => ?_⟩
  obtain ⟨st', hrun, -⟩ := h.fromStart
  cases hfails.symm.trans (answer_of_ok hrun)

end Ram

end EspLwext4.Port
