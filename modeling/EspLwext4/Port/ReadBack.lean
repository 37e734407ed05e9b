import EspLwext4.Port.Contents

/-!
# Read back

Which bytes an operation of a mount touches, and what follows for runs: a byte that no operation
touches stays, and a read returns what was written last.
-/

namespace EspLwext4.Port

open Prog Runs

section Adapter

variable {σ D : Type} {env : Env σ D} {file : σ → ℕ → Option ℕ} {data : σ → ℕ → List UInt8}
  {named : σ → CStr → Option ℕ} {lastUnder : σ → CStr → ℕ → Prop}

/-! ## What an operation touches -/

/-- What `make_path` makes of a path. -/
def pathIn (st : MountSt σ D) (path : CStr) : CStr := st.ctx.mountPoint ++ path.tail

/-- Where a write through the descriptor goes. -/
def writesAt (data : σ → ℕ → List UInt8) (st : MountSt σ D) (fd : ℤ) : ℕ :=
  if (st.ctx.file fd.toNat).flags.append = true then sizeOf data (fileAt st fd) else offsetAt st fd

/-- The operation may change the byte at `o` of the inode `i`, when there is one: a write the
window it is asked to write, unless the file ends before it, a resize what is behind the new
size, `open` with `O_TRUNC` the file it opens, and a removal the files without another name. -/
def Touches (data : σ → ℕ → List UInt8) (named : σ → CStr → Option ℕ)
    (lastUnder : σ → CStr → ℕ → Prop) (st : MountSt σ D) : MountOp → ℕ → ℕ → Prop
  | .open_ path flags, i, _ => flags.trunc = true ∧ named st.fs (pathIn st path) = some i
  | .write fd bytes, i, o => i = inodeAt st fd ∧ (sizeOf data (fileAt st fd) < writesAt data st fd ∨
      (writesAt data st fd ≤ o ∧ o < writesAt data st fd + bytes.length))
  | .pwrite fd bytes offset, i, o => i = inodeAt st fd ∧ offset.toNat ≤ o ∧
      o < offset.toNat + bytes.length
  | .ftruncate fd length, i, o => i = inodeAt st fd ∧ length.toNat ≤ o
  | .truncate path length, i, o => named st.fs (pathIn st path) = some i ∧ length.toNat ≤ o
  | .unlink path, i, _ => lastUnder st.fs (pathIn st path) i
  | .rename _ dst, i, _ => lastUnder st.fs (pathIn st dst) i
  | .rmdir path, i, _ => lastUnder st.fs (pathIn st path) i
  | .rmdirRecurse path, i, _ => lastUnder st.fs (pathIn st path) i
  | _, _, _ => False

/-- The arguments of type `off_t` are. -/
def MountOp.OffT : MountOp → Prop
  | .pwrite _ _ offset => offset ≤ int64Max
  | .ftruncate _ length => length ≤ int64Max
  | .truncate _ length => length ≤ int64Max
  | _ => True

/-- The operation may change contents. -/
def MountOp.changes : MountOp → Bool
  | .open_ .. | .write .. | .pwrite .. | .ftruncate .. | .truncate .. => true
  | op => op.removes

def MountSt.FsRel (H : σ → σ → Prop) (st st' : MountSt σ D) : Prop := H st.fs st'.fs

/-- What comes out of a call and a clean-up is what the call returned. -/
theorem wp_firstError_of {τ α : Type} {t : τ} {r : Except Errno α} {r' : Except Errno Unit}
    {Q : α → τ → Prop} (h : ∀ a, r = .ok a → Q a t) :
    wp (firstError r r' : Prog Empty Errno τ α) Q (fun _ _ => True) t := by
  unfold firstError
  simp only [wp_bind, wp_ofExcept, wp_pure]
  exact ⟨fun a hr => ⟨fun _ _ => h a hr, fun _ _ => trivial⟩, fun _ _ => trivial⟩

section Operations

variable {st : MountSt σ D} {T : ℕ → ℕ → Prop}

instance {H : σ → σ → Prop} [StepRel H] :
    StepRel (MountSt.FsRel H : MountSt σ D → MountSt σ D → Prop) where
  refl st := StepRel.refl (R := H) st.fs
  trans h h' := StepRel.trans (R := H) h h'

theorem wp_refuseReadOnly {Q : Unit → MountSt σ D → Prop} {E : Errno → MountSt σ D → Prop} :
    wp refuseReadOnly Q E st ↔
      (st.ctx.readOnly = true → E .erofs st) ∧ (¬ st.ctx.readOnly = true → Q () st) := by
  unfold refuseReadOnly
  rw [wp_bind, wp_getState, wp_failIf]

/-- Nothing happens before a refusal. -/
theorem keeps_bind_refuse {α : Type} {R : MountSt σ D → MountSt σ D → Prop} [StepRel R]
    {m : Unit → Call (MountSt σ D) α} (h : Keeps R (m ()) st) :
    Keeps R (refuseReadOnly >>= m) st := by
  unfold Keeps
  rw [wp_bind, wp_refuseReadOnly]
  exact ⟨fun _ => StepRel.refl st, fun _ => h⟩

/-- The loops over directory entries call nothing that is refused. -/
theorem seekdirLoop_quiet (rounds : ℕ) :
    (seekdirLoop env.quiet rounds : Call (HandleSt σ D) Unit) = seekdirLoop env rounds := by
  induction rounds with
  | zero => rfl
  | succ rounds ih =>
    unfold seekdirLoop
    rw [ih]
    rfl

theorem scanLoop_looking (rounds : ℕ) (st : DirSt σ D) :
    scanLoop env.looking rounds st = scanLoop env rounds st := by
  induction rounds generalizing st with
  | zero => rfl
  | succ rounds ih =>
    unfold scanLoop
    simp only [ih]
    rfl

theorem directoryIsEmpty_looking (path : CStr) :
    directoryIsEmptyLocked env.looking path = directoryIsEmptyLocked env path := by
  unfold directoryIsEmptyLocked scan
  simp only [scanLoop_looking]
  rfl

/-- Without the calls it does not make an operation does the same. -/
theorem exec_quiet {op : MountOp} (h : op.changes = false) :
    op.exec env.quiet st = op.exec env st := by
  cases op with
  | open_ | write | pwrite | ftruncate | truncate => cases h
  | unlink | rename | rmdir | rmdirRecurse => cases h
  | seekdir pdir offset =>
    unfold MountOp.exec vfsLwext4Seekdir seekdirLocked
    simp only [seekdirLoop_quiet]
    rfl
  | _ => rfl

theorem InodeLaws.toQuiet (hI : InodeLaws env) : InodeLaws env.quiet :=
  { hI with
    fwrite := fun _ _ => rfl
    ftruncate := fun _ _ => rfl }

variable (hL : MountLaws env file data named lastUnder)

include hL

/-- An operation that makes none of these calls changes no file. -/
theorem MountLaws.unchanged_exec {op : MountOp} (h : op.changes = false) :
    Unchanged file data st.fs (op.exec env st).fs := by
  rw [← exec_quiet h]
  refine (slotsKept_exec hL.quiet hL.inodes.toQuiet op fun hrem => ?_).1
  cases op with
  | unlink | rename | rmdir | rmdirRecurse => cases h
  | _ => cases hrem

/-! ## Writes and resizes -/

/-- Work on an open file. -/
theorem MountLaws.spares_onOpenFile {α : Type} {fd : ℤ} {forbidden : Option AccMode}
    {m : GrowBuffer → EspFile → Call (FileSt σ) α}
    (h : ∀ fs, data fs = data st.fs → Keeps (FileSt.FsRel (Spares file data T))
      (m st.ctx.growBuffer (st.ctx.file fd.toNat)) ⟨fs, (st.ctx.file fd.toNat).file⟩) :
    Keeps (MountSt.FsRel (Spares file data T)) (onOpenFile env fd forbidden m) st := by
  have hlock : Spares file data T st.fs (env.idf.semaphoreTake st.fs).2 :=
    (hL.quiet.semaphoreTake st.fs).spares
  refine Port.wp_onOpenFile (fun _ => hlock) fun _ _ => ?_
  refine wp_mono (h _ (hL.files.lock st.fs)) ?_ ?_
  · exact fun _ _ hspares => StepRel.trans (R := Spares file data T) hlock hspares
  · exact fun _ _ hspares => StepRel.trans (R := Spares file data T) hlock hspares

/-- Where the write begins, when the file ends there or behind. -/
theorem MountLaws.wp_seekForWrite (fd : ℤ) {fs : σ} (hfs : data fs = data st.fs) :
    wp (whenever ((st.ctx.file fd.toNat).flags.append = true)
        (seekToCurrentEndLocked env (st.ctx.file fd.toNat).path))
      (fun _ fst => Spares file data T fs fst.fs ∧ data fst.fs = data st.fs ∧
        fst.file.inode = inodeAt st fd ∧ fst.file.fpos = writesAt data st fd)
      (fun _ fst => Spares file data T fs fst.fs) ⟨fs, (st.ctx.file fd.toNat).file⟩ := by
  rw [wp_whenever]
  constructor
  · intro happ
    have hkept : Keeps (FileKept (Unchanged file data))
        (seekToCurrentEndLocked env (st.ctx.file fd.toNat).path)
        ⟨fs, (st.ctx.file fd.toNat).file⟩ := keeps_seekToCurrentEnd hL.quiet hL.inodes.toQuiet _
    refine wp_mono (wp_and hkept (hL.files.wp_seekToCurrentEnd _)) ?_ fun _ _ h => h.1.1.spares
    rintro _ fst ⟨⟨hunchanged, -⟩, hdata, hinode, hpos⟩
    refine ⟨hunchanged.spares, hdata.trans hfs, hinode, ?_⟩
    unfold writesAt
    rw [if_pos happ, hpos, hdata, hfs]
    rfl
  · intro happ
    exact ⟨StepRel.refl (R := Spares file data T) fs, hfs, rfl, (if_neg happ).symm⟩

theorem MountLaws.spares_write (fd : ℤ) (bytes : List UInt8) :
    Keeps (MountSt.FsRel (Spares file data (Touches data named lastUnder st (.write fd bytes))))
      (vfsLwext4Write env fd bytes) st := by
  refine keeps_bind_refuse (hL.spares_onOpenFile fun fs hfs => ?_)
  refine Keeps.bind_wp (hL.wp_seekForWrite fd hfs) fun _ fst h => ?_
  obtain ⟨hdata, hinode, hpos⟩ := h
  have hsize : sizeOf data fst = sizeOf data (fileAt st fd) := sizeOf_congr hdata hinode
  refine hL.spares_fwrite _ fun o ho => ⟨hinode, ?_⟩
  rw [hpos, hsize] at ho
  refine ho.imp id fun hin => ⟨hin.1, Nat.lt_of_lt_of_le hin.2 ?_⟩
  exact Nat.add_le_add_left (List.length_take_le' ..) _

theorem MountLaws.spares_pwrite (hz : st.ctx.growBuffer.Zeros) (fd : ℤ) (bytes : List UInt8)
    {offset : ℤ} (hmax : offset ≤ int64Max) :
    Keeps (MountSt.FsRel (Spares file data
        (Touches data named lastUnder st (.pwrite fd bytes offset))))
      (vfsLwext4Pwrite env fd bytes offset) st := by
  refine Keeps.bind_failIf fun _ => keeps_bind_refuse (hL.spares_onOpenFile fun fs _ => ?_)
  have hmax' : offset.toNat ≤ int64Max := by omega
  exact hL.spares_positionedWrite hz _ hmax' fun o hle hlt => ⟨rfl, hle, hlt⟩

theorem MountLaws.spares_ftruncate_fd (hz : st.ctx.growBuffer.Zeros) (fd : ℤ) {length : ℤ}
    (hmax : length ≤ int64Max) :
    Keeps (MountSt.FsRel (Spares file data
        (Touches data named lastUnder st (.ftruncate fd length))))
      (vfsLwext4Ftruncate env fd length) st := by
  refine Keeps.bind_failIf fun _ => keeps_bind_refuse (hL.spares_onOpenFile fun fs _ => ?_)
  have hmax' : length.toNat ≤ int64Max := by omega
  exact hL.spares_resize hz _ hmax' fun o hle _ => ⟨rfl, hle⟩

/-! ## Work on paths -/

theorem MountLaws.wp_fullPathOf (path : CStr) :
    wp (fullPathOf env path)
      (fun p st' => p = pathIn st path ∧ st'.ctx = st.ctx ∧
        Looked file data named lastUnder st.fs st'.fs)
      (fun _ st' => Looked file data named lastUnder st.fs st'.fs) st := by
  have hnone : Looked file data named lastUnder st.fs st.fs := StepRel.refl st.fs
  have hgot (n : ℕ) : Looked file data named lastUnder st.fs (env.idf.malloc n st.fs).2 :=
    hL.looking.malloc n st.fs
  unfold fullPathOf onFs makePath
  simp only [wp_bind, wp_getState, wp_zoom, wp_failIf, wp_pure]
  refine ⟨fun _ => hnone, fun _ => ⟨fun _ => hnone, fun _ => ?_⟩⟩
  exact wp_allocate ⟨rfl, rfl, hgot _⟩ (hgot _)

/-- Work under the lock, after some looking. -/
theorem MountLaws.spares_locked {α : Type} {m : Call σ α} {st' : MountSt σ D}
    (hst : Looked file data named lastUnder st.fs st'.fs)
    (h : ∀ s, Looked file data named lastUnder st.fs s → Keeps (Spares file data T) m s) :
    wp (locked env (onFs m)) (fun _ st'' => Spares file data T st.fs st''.fs)
      (fun _ st'' => Spares file data T st.fs st''.fs) st' := by
  have hlock : Looked file data named lastUnder st.fs (env.idf.semaphoreTake st'.fs).2 :=
    StepRel.trans hst (hL.looking.semaphoreTake st'.fs)
  unfold locked onFs
  rw [wp_bind, wp_zoom]
  refine wp_takeLock ?_ hlock.1.spares
  rw [wp_zoom]
  exact (h _ hlock).from_earlier hlock.1.spares

theorem MountLaws.spares_onPath {α : Type} {path : CStr} {m : CStr → Call σ α}
    (h : ∀ s, Looked file data named lastUnder st.fs s →
      Keeps (Spares file data T) (m (pathIn st path)) s) :
    Keeps (MountSt.FsRel (Spares file data T)) (onPath env path m) st := by
  unfold Keeps onPath
  rw [wp_bind]
  refine wp_mono (hL.wp_fullPathOf path) ?_ fun _ _ h => h.1.spares
  rintro p st' ⟨rfl, -, hlooked⟩
  exact hL.spares_locked hlooked h

theorem MountLaws.spares_truncate (hz : st.ctx.growBuffer.Zeros) (path : CStr) {length : ℤ}
    (hmax : length ≤ int64Max) :
    Keeps (MountSt.FsRel (Spares file data
        (Touches data named lastUnder st (.truncate path length))))
      (vfsLwext4Truncate env path length) st := by
  refine Keeps.bind_failIf fun _ => keeps_bind_refuse ?_
  unfold Keeps
  rw [wp_bind, wp_getState]
  refine hL.spares_onPath fun s hlooked => ?_
  unfold Keeps truncateLocked
  rw [wp_within]
  -- the file that is opened is the one the path names, and only that one is cut
  have hopen : wp (env.lwext4.fopen2 (pathIn st path) .rdwr)
      (fun _ fst => Unchanged file data s fst.fs ∧
        named st.fs (pathIn st path) = some fst.file.inode)
      (fun _ fst => Unchanged file data s fst.fs) ⟨s, .zero⟩ := by
    refine wp_mono (wp_and (hL.resize.fopen2 (pathIn st path) s)
      (hL.removal.stay.fopen2 (pathIn st path) .rdwr ⟨s, .zero⟩)) ?_ ?_
    · rintro _ fst ⟨⟨hdata, hnamed⟩, hstay⟩
      refine ⟨⟨hstay, fun i _ _ _ => congrFun hdata i⟩, ?_⟩
      rw [← hlooked.2.1]
      exact hnamed
    · exact fun _ fst h => ⟨h.2, fun i _ _ _ => congrFun h.1 i⟩
  refine Keeps.bind_wp (R := FileSt.FsRel (Spares file data _))
    (wp_mono hopen (fun _ _ h => ⟨h.1.spares, h.2⟩) fun _ _ h => h.spares) fun _ fst hnamed => ?_
  have hmax' : length.toNat ≤ int64Max := by omega
  refine Keeps.bind (Keeps.attempt ?_) fun _ fst' => ?_
  · exact hL.spares_resize hz _ hmax' fun o hle _ => ⟨hnamed, hle⟩
  have hclose : Keeps (FileSt.FsRel (Unchanged file data)) env.lwext4.fclose fst' :=
    hL.quiet.fclose fst'
  exact Keeps.bind (R := FileSt.FsRel (Spares file data _))
    (hclose.mono fun _ (h : Unchanged file data _ _) => h.spares).attempt
    fun _ _ => Keeps.ofExcept _

/-- Opening a file cuts it or no file. -/
theorem MountLaws.spares_fopen2 (p : CStr) (flags : OpenFlags) (fst : FileSt σ)
    (hT : ∀ i o, flags.trunc = true → named fst.fs p = some i → T i o) :
    Keeps (FileSt.FsRel (Spares file data T)) (env.lwext4.fopen2 p flags) fst := by
  have hspares {fst' : FileSt σ} (hstay : FilesStay file fst.fs fst'.fs)
      (hc : ∀ i f, file fst.fs i = some f → file fst'.fs i = some f →
        ¬ (flags.trunc = true ∧ named fst.fs p = some i) → data fst'.fs i = data fst.fs i) :
      Spares file data T fst.fs fst'.fs := by
    rintro i f o b hn ⟨hf, hb⟩
    have hf' := hstay i f hf
    refine ⟨hf', ?_⟩
    rw [hc i f hf hf' fun h => hn (hT i o h.1 h.2)]
    exact hb
  have hstay := hL.removal.stay.fopen2 p flags fst
  refine wp_mono (wp_and hstay (hL.contents.fopen2 p flags fst)) ?_ ?_
  · exact fun _ _ h => hspares h.1 h.2
  · exact fun _ _ h => hspares h.1 h.2

theorem MountLaws.spares_open (path : CStr) (flags : OpenFlags) :
    Keeps (MountSt.FsRel (Spares file data (Touches data named lastUnder st (.open_ path flags))))
      (vfsLwext4Open env path flags) st := by
  have hnone : MountSt.FsRel (Spares file data
      (Touches data named lastUnder st (.open_ path flags))) st st :=
    StepRel.refl (R := Spares file data _) st.fs
  unfold Keeps vfsLwext4Open locked onFs
  simp only [wp_bind, wp_getState, wp_failIf]
  refine ⟨fun _ => hnone, fun _ => ?_⟩
  refine wp_mono (hL.wp_fullPathOf path) ?_ fun _ _ h => h.1.spares
  rintro p st₁ ⟨rfl, -, hlooked⟩
  rw [wp_zoom]
  have hlock : Looked file data named lastUnder st.fs (env.idf.semaphoreTake st₁.fs).2 :=
    StepRel.trans hlooked (hL.looking.semaphoreTake st₁.fs)
  refine wp_takeLock ?_ hlock.1.spares
  simp only [MountSt.fsLens]
  cases hfree : st₁.ctx.freeSlot with
  | none => exact hlock.1.spares
  | some fd =>
    simp only [wp_bind, wp_zoom]
    have hchecks : Keeps (Looked file data named lastUnder)
        (openChecks env (pathIn st path) flags) (env.idf.semaphoreTake st₁.fs).2 :=
      keeps_openChecks hL.looking _ flags
    refine wp_mono (hchecks.from_earlier hlock) ?_ fun _ _ h => h.1.spares
    rintro _ fs ⟨hunchanged, hnamed, -⟩
    have hopen : Keeps (FileSt.FsRel (Spares file data
        (Touches data named lastUnder st (.open_ path flags))))
        (env.lwext4.fopen2 (pathIn st path) flags) ⟨fs, .zero⟩ :=
      hL.spares_fopen2 _ flags _ fun i _ htrunc hi =>
        ⟨htrunc, (congrFun hnamed (pathIn st path)).symm.trans hi⟩
    refine wp_mono (wp_openSlot_files fd (pathIn st path) flags) ?_ ?_
    · rintro _ st₂ ⟨-, -, fst, hrun, hfs, -⟩
      have hspares := hopen.ok hrun
      exact StepRel.trans (R := Spares file data _) hunchanged.spares (hfs ▸ hspares)
    · rintro e st₂ ⟨-, fst, hrun, hfs⟩
      have hspares := hopen.err hrun
      exact StepRel.trans (R := Spares file data _) hunchanged.spares (hfs ▸ hspares)

/-! ## Removals -/

theorem MountLaws.spares_fremove (p : CStr) (s : σ) (hT : ∀ i o, lastUnder s p i → T i o) :
    Keeps (Spares file data T) (env.lwext4.fremove p) s := by
  refine wp_mono (wp_and (hL.removal.fremove p s) (hL.contents.fremove p s)) ?_ ?_
  · exact fun _ _ h => h.1.spares h.2 hT
  · exact fun _ _ h => Unchanged.spares h

theorem MountLaws.spares_dirRm (p : CStr) (s : σ) (hT : ∀ i o, lastUnder s p i → T i o) :
    Keeps (Spares file data T) (env.lwext4.dirRm p) s :=
  wp_mono (wp_and (hL.removal.dirRm p s) (hL.contents.dirRm p s))
    (fun _ _ h => h.1.spares h.2 hT) fun _ _ h => h.1.spares h.2 hT

theorem MountLaws.spares_unlinkLocked (p : CStr) (s : σ) (hT : ∀ i o, lastUnder s p i → T i o) :
    Keeps (Spares file data T) (unlinkLocked env p) s := by
  have hexist : Keeps (Looked file data named lastUnder) (env.lwext4.inodeExist p .dir) s :=
    hL.looking.inodeExist p .dir s
  refine Keeps.bind_wp (wp_mono hexist.attempt (fun _ _ h => ⟨h.1.spares, h.2.2⟩)
    fun _ _ h => h.1.spares) fun result s' hnames => ?_
  cases result with
  | ok _ => exact Keeps.raise _
  | error _ => exact hL.spares_fremove p s' (hnames ▸ hT)

theorem MountLaws.spares_rmdirLocked (p : CStr) (s : σ) (hT : ∀ i o, lastUnder s p i → T i o) :
    Keeps (Spares file data T) (rmdirLocked env p) s := by
  have hscan : Keeps (Looked file data named lastUnder) (directoryIsEmptyLocked env p) s := by
    rw [← directoryIsEmpty_looking]
    exact keeps_directoryIsEmpty hL.looking p
  refine Keeps.bind_wp (wp_mono hscan (fun _ _ h => ⟨h.1.spares, h.2.2⟩)
    fun _ _ h => h.1.spares) fun empty s' hnames => ?_
  exact Keeps.bind_failIf fun _ => hL.spares_dirRm p s' (hnames ▸ hT)

theorem MountLaws.spares_frename (src dst : CStr) (s : σ) :
    Keeps (Spares file data T) (env.lwext4.frename src dst) s := by
  have h : Keeps (Unchanged file data) (env.lwext4.frename src dst) s := hL.quiet.frename src dst s
  exact h.mono fun _ => Unchanged.spares

theorem MountLaws.spares_replaceLocked (src dst : CStr) (s : σ)
    (hT : ∀ i o, lastUnder s dst i → T i o) :
    Keeps (Spares file data T) (replaceLocked env src dst) s := by
  have hinfo (p : CStr) (s : σ) : wp (pathInfoLocked env p)
      (fun _ s' => Spares file data T s s' ∧ lastUnder s' = lastUnder s)
      (fun _ s' => Spares file data T s s') s := by
    have h : Keeps (Looked file data named lastUnder) (pathInfoLocked env p) s :=
      keeps_pathInfo hL.looking p
    exact wp_mono h (fun _ _ h => ⟨h.1.spares, h.2.2⟩) fun _ _ h => h.1.spares
  refine Keeps.bind_wp (hinfo src s) fun source s₁ h₁ => ?_
  refine Keeps.bind_wp (hinfo dst s₁) fun destination s₂ h₂ => ?_
  have hT₂ : ∀ i o, lastUnder s₂ dst i → T i o := by
    rw [h₂, h₁]
    exact hT
  refine Keeps.ite (fun _ => Keeps.pure _) fun _ => Keeps.bind_failIf fun _ => ?_
  refine Keeps.ite (fun _ => Keeps.bind_failIf fun _ => ?_) fun _ => ?_
  · have hremoved := Keeps.bind (hL.spares_rmdirLocked dst s₂ hT₂)
      fun (_ : Unit) s' => hL.spares_frename src dst s'
    unfold rmdirLocked at hremoved
    simp only [bind_assoc] at hremoved
    exact hremoved
  · exact Keeps.bind (hL.spares_fremove dst s₂ hT₂) fun _ s' => hL.spares_frename src dst s'

theorem MountLaws.spares_renameLocked (src dst : CStr) (s : σ)
    (hT : ∀ i o, lastUnder s dst i → T i o) :
    Keeps (Spares file data T) (renameLocked env src dst) s := by
  have htry : wp (env.lwext4.frename src dst).attempt
      (fun r s' => Spares file data T s s' ∧ (r = .error .eexist → lastUnder s' = lastUnder s))
      (fun _ s' => Spares file data T s s') s := by
    rw [wp_attempt]
    refine wp_mono (wp_and (hL.spares_frename (T := T) src dst s)
      (hL.contents.frename_exists src dst s)) ?_ ?_
    · exact fun _ _ h => ⟨h.1, fun hr => by cases hr⟩
    · exact fun e _ h => ⟨h.1, fun hr => (h.2 (Except.error.inj hr)).2⟩
  refine Keeps.bind_wp htry fun result s' hnames => ?_
  refine Keeps.ite (fun hr => ?_) fun _ => Keeps.ofExcept _
  exact hL.spares_replaceLocked src dst s' (hnames hr ▸ hT)

theorem MountLaws.spares_unlink (path : CStr) :
    Keeps (MountSt.FsRel (Spares file data (Touches data named lastUnder st (.unlink path))))
      (vfsLwext4Unlink env path) st := by
  refine keeps_bind_refuse (hL.spares_onPath fun s hlooked => ?_)
  refine hL.spares_unlinkLocked _ s fun i _ hlast => ?_
  exact (hlooked.2.2 ▸ hlast : lastUnder st.fs _ i)

theorem MountLaws.spares_rmdir (path : CStr) :
    Keeps (MountSt.FsRel (Spares file data (Touches data named lastUnder st (.rmdir path))))
      (vfsLwext4Rmdir env path) st := by
  refine keeps_bind_refuse (Keeps.bind_failIf fun _ => hL.spares_onPath fun s hlooked => ?_)
  refine hL.spares_rmdirLocked _ s fun i _ hlast => ?_
  exact (hlooked.2.2 ▸ hlast : lastUnder st.fs _ i)

theorem MountLaws.spares_rename (src dst : CStr) :
    Keeps (MountSt.FsRel (Spares file data (Touches data named lastUnder st (.rename src dst))))
      (vfsLwext4Rename env src dst) st := by
  refine keeps_bind_refuse (Keeps.bind_failIf fun _ => ?_)
  unfold Keeps twoPathOperation
  simp only [wp_bind]
  refine wp_mono (hL.wp_fullPathOf src) ?_ fun _ _ h => h.1.spares
  rintro p st₁ ⟨-, hctx, hlooked₁⟩
  refine wp_mono (hL.wp_fullPathOf dst) ?_ fun _ _ h => (StepRel.trans hlooked₁ h).1.spares
  rintro q st₂ ⟨rfl, -, hlooked₂⟩
  refine hL.spares_locked (StepRel.trans hlooked₁ hlooked₂) fun s hlooked => ?_
  refine hL.spares_renameLocked _ _ s fun i _ hlast => ?_
  have hpath : pathIn st₁ dst = pathIn st dst := by
    unfold pathIn
    rw [hctx]
  rw [hpath, hlooked.2.2] at hlast
  exact hlast

theorem MountLaws.spares_rmdirRecurse (path : CStr) :
    Keeps (MountSt.FsRel (Spares file data (Touches data named lastUnder st (.rmdirRecurse path))))
      (rmdirRecurseOn env path) st := by
  have hlock : Looked file data named lastUnder st.fs (env.idf.semaphoreTake st.fs).2 :=
    hL.looking.semaphoreTake st.fs
  unfold Keeps rmdirRecurseOn onFs
  simp only [wp_bind, wp_mapErr, wp_zoom, wp_getState, wp_failIf]
  refine wp_takeLock ?_ hlock.1.spares
  refine ⟨fun _ => hlock.1.spares, fun _ => ⟨fun _ => hlock.1.spares, fun _ => ?_⟩⟩
  refine wp_mono (hL.wp_fullPathOf path) ?_ fun _ _ h => (StepRel.trans hlock h).1.spares
  rintro p st₁ ⟨rfl, -, hlooked₁⟩
  have hlooked : Looked file data named lastUnder st.fs st₁.fs := StepRel.trans hlock hlooked₁
  refine Keeps.from_earlier ?_ hlooked.1.spares
  have hexist (type : DeType) (s : σ) : Keeps (Looked file data named lastUnder)
      (env.lwext4.inodeExist (pathIn st path) type) s := hL.looking.inodeExist _ type s
  refine Keeps.bind_wp (wp_mono (hexist .dir st₁.fs).attempt (fun _ _ h => ⟨h.1.spares, h.2.2⟩)
    fun _ _ h => h.1.spares) fun result s hnames => ?_
  cases result with
  | ok _ =>
    refine hL.spares_dirRm _ s fun i _ hlast => ?_
    rw [hnames, hlooked.2.2] at hlast
    exact hlast
  | error e =>
    refine Keeps.bind (Keeps.failIf _ _) fun _ s' => ?_
    exact Keeps.bind ((hexist .unknown s').mono fun _ h => h.1.spares) fun _ _ => Keeps.raise _

/-- **One operation** changes no byte that it does not touch, whether it succeeds or fails. -/
theorem MountLaws.spares_exec (hz : st.ctx.growBuffer.Zeros) (op : MountOp) (hoff : op.OffT) :
    Spares file data (Touches data named lastUnder st op) st.fs (op.exec env st).fs := by
  cases hop : op.changes with
  | false => exact (hL.unchanged_exec hop).spares
  | true =>
    cases op with
    | open_ path flags => exact keeps_final.mp (hL.spares_open path flags)
    | write fd bytes => exact keeps_final.mp (hL.spares_write fd bytes)
    | pwrite fd bytes offset => exact keeps_final.mp (hL.spares_pwrite hz fd bytes hoff)
    | ftruncate fd length => exact keeps_final.mp (hL.spares_ftruncate_fd hz fd hoff)
    | truncate path length => exact keeps_final.mp (hL.spares_truncate hz path hoff)
    | unlink path => exact keeps_final.mp (hL.spares_unlink path)
    | rename src dst => exact keeps_final.mp (hL.spares_rename src dst)
    | rmdir path => exact keeps_final.mp (hL.spares_rmdir path)
    | rmdirRecurse path => exact keeps_final.mp (hL.spares_rmdirRecurse path)
    | _ => cases hop

/-! ## What a write and a read return -/

theorem MountLaws.wp_write (fd : ℤ) (bytes : List UInt8)
    (hat : writesAt data st fd ≤ sizeOf data (fileAt st fd)) :
    wp (vfsLwext4Write env fd bytes)
      (fun n st' => Overlaid data (inodeAt st fd) (writesAt data st fd) (bytes.take n) st.fs st'.fs)
      (fun _ _ => True) st := by
  unfold vfsLwext4Write refuseReadOnly
  simp only [wp_bind, wp_getState, wp_failIf]
  refine ⟨fun _ => trivial, fun _ => ?_⟩
  refine hL.files.wp_onOpenFile (fun _ _ _ => trivial) fun fs hfs _ _ => ?_
  rw [wp_bind]
  refine wp_mono (hL.wp_seekForWrite (T := fun _ _ => True) fd hfs) ?_ fun _ _ _ => trivial
  rintro _ fst ⟨-, hdata, hinode, hpos⟩
  refine wp_mono (hL.files.fwrite _ fst) ?_ fun _ _ _ => trivial
  rintro n fst' ⟨hn, hw, -⟩
  have htake : (bytes.take (env.idf.ioSizeLimit bytes.length)).take n = bytes.take n := by
    rw [List.take_take, Nat.min_eq_left (Nat.le_trans hn (List.length_take_le _ _))]
  have hsize : sizeOf data fst = sizeOf data (fileAt st fd) := sizeOf_congr hdata hinode
  have hfpos : fst.file.fpos ≤ sizeOf data fst := by
    rw [hpos, hsize]
    exact hat
  have hcontent := hw.content hfpos
  rw [htake, hpos, hinode, hdata] at hcontent
  refine ⟨hcontent, fun j hj => ?_⟩
  exact (hw.others j (hinode ▸ hj)).trans (congrFun hdata j)

theorem MountLaws.wp_readAt {st : FileSt σ} {offset : ℕ} (size : ℕ) (grow : GrowBuffer)
    (path : CStr) :
    wp (transferAt env grow path (.read size) offset)
      (fun r _ =>
        r.bytes = ((data st.fs st.file.inode).drop offset).take (env.idf.ioSizeLimit size))
      (fun _ _ => True) st := by
  unfold transferAt
  rw [wp_bind]
  refine wp_mono (hL.wp_currentFileSize (T := fun _ _ => True) path) ?_ fun _ _ _ => trivial
  rintro size' fst ⟨-, hdata, hfile, rfl⟩
  have hsize : sizeOf data fst = sizeOf data st :=
    sizeOf_congr hdata (congrArg Ext4File.inode hfile)
  rw [wp_bind, wp_whenever]
  refine ⟨fun h => (by cases h.1), fun _ => ?_⟩
  rw [wp_ite]
  constructor
  · rintro ⟨-, hle⟩
    rw [wp_pure, List.drop_of_length_le hle, List.take_nil]
  · intro hin
    have hlt : offset < sizeOf data st := Nat.lt_of_not_le fun hle => hin ⟨rfl, hle⟩
    rw [wp_bind]
    refine hL.files.wp_seek (fun _ => ?_) fun _ => trivial
    unfold transfer
    rw [wp_bind]
    have hpos : offset ≤ sizeOf data fst := hsize.symm ▸ Nat.le_of_lt hlt
    refine wp_mono (hL.contents.fread _ ⟨fst.fs, { fst.file with fpos := offset }⟩ hpos) ?_
      fun _ _ _ => trivial
    rintro bytes fst' rfl
    rw [wp_pure, hdata, hfile]

theorem MountLaws.wp_positionedRead {st : FileSt σ} {offset : ℕ} (size : ℕ) (grow : GrowBuffer)
    (path : CStr) :
    wp (positionedIoLocked env grow path (.read size) offset)
      (fun r _ =>
        r.bytes = ((data st.fs st.file.inode).drop offset).take (env.idf.ioSizeLimit size))
      (fun _ _ => True) st := by
  unfold positionedIoLocked ftell
  simp only [wp_bind, wp_getState, wp_pure, wp_failIf]
  refine ⟨fun _ => trivial, fun _ => ?_⟩
  rw [wp_attempt, wp_ite]
  constructor
  · intro hzero
    refine hL.files.wp_seek_same _ fun _ _ _ _ => wp_firstError_of ?_
    rintro r ⟨⟩
    have hnone : env.idf.ioSizeLimit size = 0 := by
      rw [show size = 0 from hzero]
      exact Nat.zero_min _
    rw [hnone, List.take_zero]
  · intro _
    refine wp_mono (hL.wp_readAt size grow path) ?_ ?_
    · intro r fst hr
      refine hL.files.wp_seek_same _ fun _ _ _ _ => wp_firstError_of ?_
      rintro r' ⟨⟩
      exact hr
    · intro e fst _
      refine hL.files.wp_seek_same _ fun _ _ _ _ => wp_firstError_of ?_
      rintro r' ⟨⟩

theorem MountLaws.wp_pread (fd : ℤ) (size : ℕ) (offset : ℤ) :
    wp (vfsLwext4Pread env fd size offset)
      (fun r _ => r.bytes =
        ((data st.fs (inodeAt st fd)).drop offset.toNat).take (env.idf.ioSizeLimit size))
      (fun _ _ => True) st := by
  unfold vfsLwext4Pread positionedIo
  simp only [wp_bind, wp_failIf, wp_whenever]
  refine ⟨fun _ => trivial, fun _ => ⟨fun h => (by cases h), fun _ => ?_⟩⟩
  refine hL.files.wp_onOpenFile (fun _ _ _ => trivial) fun fs hfs _ _ => ?_
  refine wp_mono (hL.wp_positionedRead size _ _) ?_ fun _ _ _ => trivial
  intro r _ hr
  rw [hr, hfs]
  rfl

theorem MountLaws.wp_read (fd : ℤ) (size : ℕ) (hat : offsetAt st fd ≤ sizeOf data (fileAt st fd)) :
    wp (vfsLwext4Read env fd size)
      (fun bytes _ => bytes =
        ((data st.fs (inodeAt st fd)).drop (offsetAt st fd)).take (env.idf.ioSizeLimit size))
      (fun _ _ => True) st := by
  refine hL.files.wp_onOpenFile (fun _ _ _ => trivial) fun fs hfs _ _ => ?_
  refine wp_mono (hL.contents.fread _ _ ?_) ?_ fun _ _ _ => trivial
  · have hsize : sizeOf data (⟨fs, (st.ctx.file fd.toNat).file⟩ : FileSt σ) =
        sizeOf data (fileAt st fd) := sizeOf_congr hfs rfl
    exact Nat.le_trans hat (Nat.le_of_eq hsize.symm)
  · intro bytes _ hbytes
    rw [hbytes, hfs]
    rfl

end Operations

/-- The call returns that it has written `new` at `o` of the inode `i`. -/
def Acknowledges (env : Env σ D) (data : σ → ℕ → List UInt8) (st : MountSt σ D) :
    MountOp → ℕ → ℕ → List UInt8 → Prop
  | .write fd bytes, i, o, new => i = inodeAt st fd ∧ o = writesAt data st fd ∧
      o ≤ sizeOf data (fileAt st fd) ∧
      ∃ n, (vfsLwext4Write env fd bytes).answer st = .ok n ∧ new = bytes.take n
  | .pwrite fd bytes offset, i, o, new => i = inodeAt st fd ∧ o = offset.toNat ∧
      ∃ r, (vfsLwext4Pwrite env fd bytes offset).answer st = .ok r ∧ new = bytes.take r.count
  | _, _, _, _ => False

/-- The call returns `bytes`, asked for at most `n` from `o` of the inode `i` on. -/
def Returns (env : Env σ D) (data : σ → ℕ → List UInt8) (st : MountSt σ D) :
    MountOp → ℕ → ℕ → ℕ → List UInt8 → Prop
  | .read fd size, i, o, n, bytes => i = inodeAt st fd ∧ o = offsetAt st fd ∧
      o ≤ sizeOf data (fileAt st fd) ∧ n = env.idf.ioSizeLimit size ∧
      (vfsLwext4Read env fd size).answer st = .ok bytes
  | .pread fd size offset, i, o, n, bytes => i = inodeAt st fd ∧ o = offset.toNat ∧
      n = env.idf.ioSizeLimit size ∧
      ∃ r, (vfsLwext4Pread env fd size offset).answer st = .ok r ∧ bytes = r.bytes
  | _, _, _, _, _ => False

section Runs

variable {st : MountSt σ D} {op : MountOp} {i o n : ℕ} {new bytes : List UInt8}

theorem MountLaws.acknowledged (hL : MountLaws env file data named lastUnder)
    (hz : st.ctx.growBuffer.Zeros) (hoff : op.OffT) (h : Acknowledges env data st op i o new)
    {k : ℕ} (hk : k < new.length) : (data (op.exec env st).fs i)[o + k]? = new[k]? := by
  cases op with
  | write fd bytes =>
    obtain ⟨rfl, rfl, hat, n, hr, rfl⟩ := h
    have hover := (wp_final.mp (hL.wp_write fd bytes hat)).1 n hr
    exact (congrArg (·[writesAt data st fd + k]?) hover.1).trans (getElem?_overlay_inside hk)
  | pwrite fd bytes offset =>
    obtain ⟨rfl, rfl, r, hr, rfl⟩ := h
    have hne : bytes ≠ [] := by
      rintro rfl
      rw [List.take_nil] at hk
      exact absurd hk (Nat.not_lt_zero k)
    have hover := ((wp_final.mp (hL.resize.wp_pwrite hL.files hz fd hne hoff)).1 r hr).2
    exact (congrArg (·[offset.toNat + k]?) hover.1).trans (getElem?_overlay_inside hk)
  | _ => cases h

theorem MountLaws.returned (hL : MountLaws env file data named lastUnder)
    (h : Returns env data st op i o n bytes) : bytes = ((data st.fs i).drop o).take n := by
  cases op with
  | read fd size =>
    obtain ⟨rfl, rfl, hat, rfl, hr⟩ := h
    exact (wp_final.mp (hL.wp_read fd size hat)).1 bytes hr
  | pread fd size offset =>
    obtain ⟨rfl, rfl, rfl, r, hr, rfl⟩ := h
    exact (wp_final.mp (hL.wp_pread fd size offset)).1 r hr
  | _ => cases h

/-- A write leaves its file where it is. -/
theorem MountLaws.file_of_acknowledges (hL : MountLaws env file data named lastUnder) {f : ℕ}
    (h : Acknowledges env data st op i o new) (hf : file st.fs i = some f) :
    file (op.exec env st).fs i = some f := by
  refine (slotsKept_exec hL.removal.stay hL.inodes op fun hrem => ?_).1 i f hf
  cases op with
  | unlink | rename | rmdir | rmdirRecurse => cases h
  | _ => cases hrem

/-- **Over runs.** -/
theorem MountLaws.holds_run (hL : MountLaws env file data named lastUnder) {f : ℕ} {b : UInt8}
    {ops : List MountOp} (hz : st.ctx.growBuffer.Zeros)
    (hops : Along (MountOp.exec env)
      (fun st op => op.OffT ∧ ¬ Touches data named lastUnder st op i o) st ops)
    (h : Holds file data st.fs i f o b) :
    Holds file data (run (MountOp.exec env) st ops).fs i f o b := by
  have step (st : MountSt σ D) (op : MountOp)
      (hI : st.ctx.growBuffer.Zeros ∧ Holds file data st.fs i f o b)
      (hop : op.OffT ∧ ¬ Touches data named lastUnder st op i o) :
      (op.exec env st).ctx.growBuffer.Zeros ∧ Holds file data (op.exec env st).fs i f o b := by
    refine ⟨?_, hL.spares_exec hI.1 op hop.1 i f o b hop.2 hI.2⟩
    have hsame : (op.exec env st).ctx.growBuffer = st.ctx.growBuffer :=
      (sameFixed_exec op).growBuffer
    exact hsame ▸ hI.1
  exact (run_keeps step hops ⟨hz, h⟩).2

end Runs

/-! ## The results -/

/-- **Untouched bytes stay.** From every state that operations on a new context reach: a byte of a
file is what it was after any run whose operations do not touch it, whatever else they do and
whichever of them fail. -/
theorem untouched_bytes_stay (env : Env σ D) (file : σ → ℕ → Option ℕ)
    (data : σ → ℕ → List UInt8) (named : σ → CStr → Option ℕ) (lastUnder : σ → CStr → ℕ → Prop)
    (hL : MountLaws env file data named lastUnder) (fs : σ) (conf : Conf) (mountPoint : CStr)
    (before ops : List MountOp) (i f o : ℕ) (b : UInt8)
    (hops : Along (MountOp.exec env)
      (fun st op => op.OffT ∧ ¬ Touches data named lastUnder st op i o)
      (reached env fs conf mountPoint before) ops)
    (h : Holds file data (reached env fs conf mountPoint before).fs i f o b) :
    Holds file data (reached env fs conf mountPoint (before ++ ops)).fs i f o b := by
  unfold reached
  rw [run_append]
  exact hL.holds_run (zeros_reached fs conf mountPoint before) hops h

/-- **Reads return what was written.** In every run of operations on a new context: a read or
`pread` that succeeds, through any descriptor, returns at each offset it is asked for the byte of
the last acknowledged write to that offset of the same file, through whichever descriptor that
was, unless an operation in between touches it. -/
theorem file_reads_return_last_write (env : Env σ D) (file : σ → ℕ → Option ℕ)
    (data : σ → ℕ → List UInt8) (named : σ → CStr → Option ℕ) (lastUnder : σ → CStr → ℕ → Prop)
    (hL : MountLaws env file data named lastUnder) (fs : σ) (conf : Conf) (mountPoint : CStr)
    (before between : List MountOp) (write read : MountOp) (i f o k o' n : ℕ)
    (new bytes : List UInt8) (hoff : write.OffT)
    (hwrite : Acknowledges env data (reached env fs conf mountPoint before) write i o new)
    (hfile : file (reached env fs conf mountPoint before).fs i = some f) (hk : k < new.length)
    (hbetween : Along (MountOp.exec env)
      (fun st op => op.OffT ∧ ¬ Touches data named lastUnder st op i (o + k))
      (reached env fs conf mountPoint (before ++ [write])) between)
    (hread : Returns env data (reached env fs conf mountPoint (before ++ write :: between)) read
      i o' n bytes)
    (hfirst : o' ≤ o + k) (hlast : o + k < o' + n) : bytes[o + k - o']? = new[k]? := by
  have hz : (reached env fs conf mountPoint before).ctx.growBuffer.Zeros :=
    zeros_reached fs conf mountPoint before
  have hnew : reached env fs conf mountPoint (before ++ [write]) =
      write.exec env (reached env fs conf mountPoint before) := run_append ..
  have hend : reached env fs conf mountPoint (before ++ write :: between) =
      run (MountOp.exec env) (reached env fs conf mountPoint (before ++ [write])) between := by
    unfold reached
    rw [← run_append, List.append_assoc]
    rfl
  obtain ⟨b, hb⟩ : ∃ b, new[k]? = some b := ⟨_, List.getElem?_eq_getElem hk⟩
  have hwritten : Holds file data (reached env fs conf mountPoint (before ++ [write])).fs i f
      (o + k) b := by
    rw [hnew]
    exact ⟨hL.file_of_acknowledges hwrite hfile, (hL.acknowledged hz hoff hwrite hk).trans hb⟩
  have hheld :=
    hL.holds_run (zeros_reached fs conf mountPoint (before ++ [write])) hbetween hwritten
  rw [hL.returned hread, hend, hb, List.getElem?_take_of_lt (by omega), List.getElem?_drop,
    Nat.add_sub_cancel' hfirst]
  exact hheld.byte

end Adapter

/-! ## Contents in the library in memory -/

namespace Ram

/-- The names and the contents are as they were. -/
def Same (s s' : Ram) : Prop := s'.names = s.names ∧ s'.data = s.data

instance : StepRel Same where
  refl _ := ⟨rfl, rfl⟩
  trans h h' := ⟨h'.1.trans h.1, h'.2.trans h.2⟩

section Calls

variable {H : Ram → Ram → Prop} {α : Type} {s : Ram}

theorem keeps_ite {c : Ram → Prop} [DecidablePred c] {m n : Call Ram α} (hm : Keeps H m s)
    (hn : Keeps H n s) : Keeps H (fun s => if c s then m s else n s) s := by
  unfold Keeps wp
  by_cases h : c s
  · simp only [if_pos h]
    exact hm
  · simp only [if_neg h]
    exact hn

theorem keeps_onName [StepRel H] {p : CStr} {f : ℕ → Ram → Outcome Empty Errno Ram α}
    (h : ∀ i, Keeps H (f i) s) : Keeps H (onName p f) s :=
  wp_onName (fun _ => StepRel.refl s) fun i _ => h i

end Calls

theorem same (s : Ram) : Same s s := StepRel.refl s

theorem looking_same : CallsKeep env.looking Same where
  malloc _ s := same s
  semaphoreTake s := same s
  now s := same s
  inodeExist _ _ s := keeps_onName fun _ => keeps_ite (same s) (same s)
  fopen2 _ _ st := same st.fs
  fclose st := same st.fs
  fread _ st := same st.fs
  fwrite _ st := same st.fs
  fseek offset whence st := by
    show Keeps _ (fseek offset whence) st
    unfold Keeps wp fseek
    cases seekTarget st.file offset whence with
    | none => exact same st.fs
    | some _ => exact same st.fs
  ftruncate _ st := same st.fs
  rawInodeFill _ s := keeps_onName fun _ => same s
  getSblock _ s := same s
  mountPointStats _ s := keeps_ite (same s) (same s)
  cacheFlush _ s := same s
  flink _ _ s := same s
  frename _ _ s := same s
  dirOpen _ s := keeps_onName fun _ => keeps_ite (same s) (same s)
  dirClose st := same st.fs
  dirEntryNext st := by
    show Same st.fs (dirEntryNext st).2.fs
    unfold dirEntryNext
    split
    · exact same st.fs
    · exact same st.fs
    · exact same st.fs
    · exact ⟨rfl, rfl⟩
  dirEntryRewind st := same st.fs
  dirMk _ s := same s
  modeSet _ _ s := keeps_onName fun _ => same s
  atimeSet _ _ s := keeps_onName fun _ => same s
  mtimeSet _ _ s := keeps_onName fun _ => same s

/-- Calls that change names keep the contents. -/
theorem quiet_data : CallsKeep env.quiet fun s s' => s'.data = s.data :=
  { looking_same.mono fun _ _ h => h.2 with
    flink := fun _ _ s => wp_onName (fun _ => rfl) fun _ _ => by
      unfold wp
      simp only
      split_ifs
      · rfl
      · rfl
    frename := fun _ _ s => wp_onName (fun _ => rfl) fun _ _ => by
      unfold wp
      simp only
      split_ifs
      · rfl
      · rfl
    dirMk := fun p s => by
      show Keeps _ (lwext4.dirMk p) s
      unfold Keeps wp lwext4
      simp only
      split_ifs
      · rfl
      · rfl }

/-- A removal frees names only. -/
theorem data_removed {p : CStr} {f : ℕ → Ram → Outcome Empty Errno Ram Unit} {s : Ram}
    (h : ∀ i, Keeps (fun s s' : Ram => s'.data = s.data) (f i) s) :
    Keeps (SameContents file data) (onName p f) s :=
  wp_mono (wp_onName (fun _ => rfl) fun i _ => h i)
    (fun _ _ hd i _ _ _ => congrFun hd i) fun _ _ hd i _ _ _ => congrFun hd i

theorem contentLaws : ContentLaws env file data lookup LastUnder where
  quiet := quiet_data.mono fun _ _ h i _ _ _ => congrFun h i
  looking := looking_same.mono fun s s' h => by
    unfold NamesStay lookup LastUnder
    rw [h.1]
    exact ⟨rfl, rfl⟩
  fopen2 p flags st := by
    show Keeps _ (fopen2 p flags) st
    unfold Keeps wp fopen2
    cases hp : st.fs.lookup p with
    | none =>
      simp only
      split_ifs
      · intro i f hf _ _
        exact if_neg (holdsFile_ne_free (file_eq_some.mp hf).1)
      · intro _ _ _ _ _
        rfl
    | some j =>
      simp only
      by_cases hd : j ∈ st.fs.dirs
      · rw [if_pos hd]
        intro _ _ _ _ _
        rfl
      · rw [if_neg hd]
        intro i f _ _ hcut
        by_cases htrunc : flags.trunc = true
        · have hij : i ≠ j := fun hij => hcut ⟨htrunc, hp.trans (congrArg some hij.symm)⟩
          simp only [if_pos htrunc]
          exact if_neg hij
        · simp only [if_neg htrunc]
  fread _ _ _ := rfl
  ftruncate_failed _ _ _ := trivial
  fremove _ _ := data_removed fun _ => by
    unfold Keeps wp
    simp only
    split_ifs
    · rfl
    · rfl
  dirRm _ _ := data_removed fun _ => by
    unfold Keeps wp
    simp only
    split_ifs
    · rfl
    · rfl
  frename_exists p q s := by
    show wp (lwext4.frename p q) _ _ s
    refine wp_onName (fun _ h => by cases h) fun i _ => ?_
    unfold wp
    simp only
    split_ifs
    · exact fun _ => ⟨rfl, rfl⟩
    · trivial

theorem mountLaws : MountLaws env file data lookup LastUnder :=
  ⟨fileLaws, resizeLaws, inodeLaws, removalLaws, contentLaws⟩

def pathC : CStr := [47, 99]

/-- Work on `/b` and on the end of `/a`, which gets a second name for a while. -/
def busy : List MountOp :=
  [.open_ pathB rdwrCreate, .write 1 [9, 9], .open_ pathA .rdwr, .pwrite 2 [7] 8,
    .link pathA pathC, .unlink pathC, .ftruncate 0 6, .write 7 [1]]

/-- The second of five bytes stays. -/
theorem second_byte_stays :
    Holds file data (reached env blank conf [slash]
      ([.open_ pathA rdwrCreate, .write 0 [1, 2, 3, 4, 5]] ++ busy)).fs 12 1 1 2 := by
  refine untouched_bytes_stay env file data lookup LastUnder mountLaws blank conf [slash]
    [.open_ pathA rdwrCreate, .write 0 [1, 2, 3, 4, 5]] busy 12 1 1 2
    ⟨⟨trivial, ?_⟩, ⟨trivial, ?_⟩, ⟨trivial, ?_⟩, ⟨(by decide : (8 : ℤ) ≤ int64Max), ?_⟩,
      ⟨trivial, ?_⟩, ⟨trivial, ?_⟩, ⟨(by decide : (6 : ℤ) ≤ int64Max), ?_⟩, ⟨trivial, ?_⟩, trivial⟩
    ⟨by decide, by decide⟩
  · exact fun h => absurd h.1 (by decide)
  · exact fun h => absurd h.1 (by decide)
  · exact fun h => absurd h.1 (by decide)
  · exact fun h => absurd h.2.1 (by decide)
  · exact fun h => h
  · exact fun h => absurd (show LastUnder _ _ _ from h) (by decide)
  · exact fun h => absurd h.2 (by decide)
  · exact fun h => absurd h.1 (by decide)

/-- Descriptor 1 appends three bytes. -/
def appendsThree : List MountOp :=
  [.open_ pathA rdwrCreate, .open_ pathA appendFlags, .write 1 [1, 2, 3]]

/-- A third descriptor, a write behind the end, a shorter file and two new names. -/
def movesAbout : List MountOp :=
  [.open_ pathA .rdwr, .pwrite 0 [7] 8, .truncate pathA 4, .rename pathA pathB,
    .rename pathB pathA]

/-- The second appended byte is the first that descriptor 2 reads at 1. -/
theorem appended_byte_read :
    ∃ bytes, (vfsLwext4Pread env 2 3 1).answer
        (reached env blank conf [slash] (appendsThree ++ movesAbout)) = .ok ⟨3, bytes⟩ ∧
      bytes[0]? = some 2 := by
  refine ⟨[2, 3, 0], by decide, ?_⟩
  refine file_reads_return_last_write env file data lookup LastUnder mountLaws blank conf [slash]
    [.open_ pathA rdwrCreate, .open_ pathA appendFlags] movesAbout
    (.write 1 [1, 2, 3]) (.pread 2 3 1) 12 1 0 1 1 3 [1, 2, 3] [2, 3, 0] trivial
    ⟨by decide, by decide, by decide, 3, by decide, by decide⟩ (by decide) (by decide)
    ⟨⟨trivial, ?_⟩, ⟨(by decide : (8 : ℤ) ≤ int64Max), ?_⟩, ⟨(by decide : (4 : ℤ) ≤ int64Max), ?_⟩,
      ⟨trivial, ?_⟩, ⟨trivial, ?_⟩, trivial⟩
    ⟨by decide, by decide, by decide, ⟨3, [2, 3, 0]⟩, by decide, rfl⟩ (by decide) (by decide)
  · exact fun h => absurd h.1 (by decide)
  · exact fun h => absurd h.2.1 (by decide)
  · exact fun h => absurd h.2 (by decide)
  · exact fun h => absurd (show LastUnder _ _ _ from h) (by decide)
  · exact fun h => absurd (show LastUnder _ _ _ from h) (by decide)

end Ram

end EspLwext4.Port
