import EspLwext4.Port.Fstat

/-!
# Removing directories

`ext4_dir_rm` removes a directory with everything below it. `vfs_lwext4_rmdir` and the
replacing branch of `vfs_lwext4_rename` scan the directory first and call it when the
scan has met no entry but `.` and `..`. The scan ends at the first `NULL`, which is also
what lwext4 returns when it cannot read the next entry.
-/

namespace EspLwext4.Port

open Prog Runs

section Adapter

variable {σ D : Type}

/-- What a path names; `entries` is `none` for anything but a directory. -/
structure PathNode where
  inode : ℕ
  entries : Option (List Ext4Direntry)
deriving DecidableEq, Repr

/-- A directory with an entry other than `.` and `..`. -/
def PathNode.NonEmpty (n : PathNode) : Prop :=
  ∃ l, n.entries = some l ∧ ∃ e ∈ l, e.isReal = true

/-- `node` is what each path names, `pending` the entries an open directory has not
returned yet. Nothing is said of a `dirEntryNext` that returns no entry: it may have
come to the end or failed. -/
structure DirLaws (env : Env σ D) (node : σ → CStr → Option PathNode)
    (pending : DirSt σ D → List Ext4Direntry) : Prop where
  malloc : ∀ n s, node (env.idf.malloc n s).2 = node s
  lock : ∀ s, node (env.idf.semaphoreTake s).2 = node s
  rawInodeFill : ∀ p s, wp (env.lwext4.rawInodeFill p)
    (fun r s' => node s' = node s ∧
      ∃ n, node s p = some n ∧ n.inode = r.1 ∧ n.entries.isSome = r.2.isDirectory)
    (fun _ s' => node s' = node s) s
  getSblock : ∀ p s, Keeps (fun s s' => node s' = node s) (env.lwext4.getSblock p) s
  dirOpen : ∀ p s, wp (env.lwext4.dirOpen p)
    (fun d s' => node s' = node s ∧ ∃ n, node s p = some n ∧ n.entries = some (pending ⟨s', d⟩))
    (fun _ s' => node s' = node s) s
  dirEntryNext : ∀ st, node (env.lwext4.dirEntryNext st).2.fs = node st.fs
  dirEntryNext_some : ∀ st e st', env.lwext4.dirEntryNext st = (some e, st') →
    pending st = e :: pending st'
  dirClose : ∀ st, Keeps (fun st st' => node st'.fs = node st.fs) env.lwext4.dirClose st
  /-- the removal is recursive -/
  dirRm : ∀ p s, wp (env.lwext4.dirRm p) (fun _ s' => node s' p = none) (fun _ _ => True) s
  /-- an existing destination is refused -/
  frename : ∀ p q s, wp (env.lwext4.frename p q) (fun _ _ => node s q = none)
    (fun _ s' => node s' = node s) s

variable {env : Env σ D} {node : σ → CStr → Option PathNode}
  {pending : DirSt σ D → List Ext4Direntry}

/-! ## The scan -/

/-- The scan of a directory that still has a real entry gets `NULL` before it has met
one. -/
inductive CutShort (env : Env σ D) (pending : DirSt σ D → List Ext4Direntry) :
    DirSt σ D → DirSt σ D → Prop where
  | failed {st st'} (h : env.lwext4.dirEntryNext st = (none, st'))
      (hreal : ∃ e ∈ pending st, e.isReal = true) : CutShort env pending st st'
  | passed {st e st₁ st'} (h : env.lwext4.dirEntryNext st = (some e, st₁))
      (he : e.isReal = false) (rest : CutShort env pending st₁ st') : CutShort env pending st st'

theorem CutShort.nonEmpty (hL : DirLaws env node pending) {st st' : DirSt σ D}
    (h : CutShort env pending st st') : ∃ e ∈ pending st, e.isReal = true := by
  induction h with
  | failed _ hreal => exact hreal
  | passed hnext _ _ ih =>
    obtain ⟨e', he', hreal⟩ := ih
    rw [hL.dirEntryNext_some _ _ _ hnext]
    exact ⟨e', List.mem_cons_of_mem _ he', hreal⟩

/-- With a real entry left, the scan reports an empty directory exactly when it was cut
short. -/
theorem scanLoop_true_iff (hL : DirLaws env node pending) {rounds : ℕ} {st st' : DirSt σ D}
    (hrounds : env.lwext4.dirLeft st.dir < rounds) (hreal : ∃ e ∈ pending st, e.isReal = true) :
    scanLoop env rounds st = (true, st') ↔ CutShort env pending st st' := by
  induction rounds generalizing st with
  | zero => exact absurd hrounds (Nat.not_lt_zero _)
  | succ rounds ih =>
    unfold scanLoop
    cases hnext : env.lwext4.dirEntryNext st with
    | mk entry st₁ =>
      cases entry with
      | none =>
        constructor
        · rintro ⟨⟩
          exact .failed hnext hreal
        · rintro (⟨h, _⟩ | ⟨h, _, _⟩)
          · rw [hnext] at h
            cases h
            rfl
          · rw [hnext] at h
            cases h
      | some e =>
        have hleft := env.lwext4.dirLeft_next st e st₁ hnext
        simp only
        cases he : e.isReal with
        | true =>
          constructor
          · intro h
            simp at h
          · rintro (⟨h, _⟩ | ⟨h, he', _⟩)
            · rw [hnext] at h
              cases h
            · rw [hnext] at h
              cases h
              rw [he] at he'
              cases he'
        | false =>
          have hreal₁ : ∃ e ∈ pending st₁, e.isReal = true := by
            obtain ⟨e', he', hr⟩ := hreal
            rw [hL.dirEntryNext_some _ _ _ hnext] at he'
            rcases List.mem_cons.mp he' with rfl | hmem
            · rw [he] at hr
              cases hr
            · exact ⟨e', hmem, hr⟩
          rw [if_neg Bool.false_ne_true, ih (by omega) hreal₁]
          constructor
          · exact fun h => .passed hnext he h
          · rintro (⟨h, _⟩ | ⟨h, _, rest⟩)
            · rw [hnext] at h
              cases h
            · rw [hnext] at h
              cases h
              exact rest

/-! ## The removal -/

/-- The call returns an error and has removed nothing. -/
def Refuses {α : Type} (node : σ → CStr → Option PathNode) (m : Call σ α) (s : σ) : Prop :=
  wp m (fun _ _ => False) (fun _ s' => node s' = node s) s

/-- The scan of a directory with a real entry is cut short, the directory is closed, and
nothing but the removal itself stops the removal. -/
def CutRemoval (env : Env σ D) (node : σ → CStr → Option PathNode)
    (pending : DirSt σ D → List Ext4Direntry) (p : CStr) (s : σ) : Prop :=
  ∃ d s₁ st₂ st₃, env.lwext4.dirOpen p s = .ok d s₁ ∧ CutShort env pending ⟨s₁, d⟩ st₂ ∧
    env.lwext4.dirClose st₂ = .ok () st₃ ∧
    ¬ ∃ e s₄, env.lwext4.dirRm p st₃.fs = .err e s₄ ∧ node s₄ = node s

theorem DirLaws.scanLoop_node (hL : DirLaws env node pending) (rounds : ℕ) (st : DirSt σ D) :
    node (scanLoop env rounds st).2.fs = node st.fs := by
  induction rounds generalizing st with
  | zero => rfl
  | succ rounds ih =>
    have h := hL.dirEntryNext st
    unfold scanLoop
    cases hnext : env.lwext4.dirEntryNext st with
    | mk entry st' =>
      rw [hnext] at h
      cases entry with
      | none => exact h
      | some e =>
        simp only
        split_ifs
        · exact h
        · exact (ih st').trans h

/-- The cut removal, seen from the run of the scan. -/
theorem DirLaws.cutRemoval_iff (hL : DirLaws env node pending) {p : CStr} {s s₁ : σ} {d : D}
    {empty : Bool} {st₂ : DirSt σ D} (hd : env.lwext4.dirOpen p s = .ok d s₁)
    (hscan : scanLoop env (env.lwext4.dirLeft d + 1) ⟨s₁, d⟩ = (empty, st₂))
    (hreal : ∃ e ∈ pending ⟨s₁, d⟩, e.isReal = true) :
    CutRemoval env node pending p s ↔ empty = true ∧ ∃ st₃,
      env.lwext4.dirClose st₂ = .ok () st₃ ∧
        ¬ ∃ e s₄, env.lwext4.dirRm p st₃.fs = .err e s₄ ∧ node s₄ = node s := by
  have hcut {st' : DirSt σ D} :=
    (scanLoop_true_iff hL (Nat.lt_succ_self _) hreal : _ = (true, st') ↔ _)
  constructor
  · rintro ⟨d', s', st₂', st₃, hd', hshort, hclose, hrm⟩
    rw [hd] at hd'
    cases hd'
    have heq := hscan.symm.trans (hcut.mpr hshort)
    cases heq
    exact ⟨rfl, st₃, hclose, hrm⟩
  · rintro ⟨rfl, st₃, hclose, hrm⟩
    exact ⟨d, s₁, st₂, st₃, hd, hcut.mp hscan, hclose, hrm⟩

/-- **The removal of a directory that is not empty**, followed by `k`, is refused unless
the scan was cut short. -/
theorem DirLaws.refuses_removal_iff (hL : DirLaws env node pending) {α : Type} {p : CStr}
    {s : σ} {n : PathNode} (hn : node s p = some n) (hne : n.NonEmpty) {k : Call σ α}
    (hk : ∀ s', node s' p = none → ¬ wp k (fun _ _ => False) (fun _ s'' => node s'' = node s) s') :
    Refuses node (rmdirLocked env p >>= fun _ => k) s ↔ ¬ CutRemoval env node pending p s := by
  unfold Refuses rmdirLocked directoryIsEmptyLocked
  simp only [wp_bind, wp_within, wp_failIf, wp_pure]
  have hopen := hL.dirOpen p s
  cases hd : env.lwext4.dirOpen p s with
  | fault x => exact x.elim
  | err e s₁ =>
    rw [wp_iff_of_err hd] at hopen ⊢
    refine ⟨fun _ => ?_, fun _ => hopen⟩
    rintro ⟨d, s₂, st₂, st₃, h, -⟩
    rw [hd] at h
    cases h
  | ok d s₁ =>
    rw [wp_iff_of_ok hd] at hopen ⊢
    obtain ⟨hkept, n', hn', hentries⟩ := hopen
    obtain rfl : n = n' := Option.some.inj (hn.symm.trans hn')
    have hreal : ∃ e ∈ pending ⟨s₁, d⟩, e.isReal = true := by
      obtain ⟨l, hl, e, he, hr⟩ := hne
      rw [hentries] at hl
      cases hl
      exact ⟨e, he, hr⟩
    obtain ⟨⟨empty, st₂⟩, hscan⟩ : ∃ r, scanLoop env (env.lwext4.dirLeft d + 1) ⟨s₁, d⟩ = r :=
      ⟨_, rfl⟩
    have hkept₂ : node st₂.fs = node s := by
      have h := hL.scanLoop_node (env.lwext4.dirLeft d + 1) ⟨s₁, d⟩
      rw [hscan] at h
      exact h.trans hkept
    have hrun : scan env ⟨s₁, d⟩ = .ok empty st₂ := by
      unfold scan
      simp only [hscan]
    rw [wp_iff_of_ok hrun, hL.cutRemoval_iff hd hscan hreal]
    have hclose := hL.dirClose st₂
    cases hc : env.lwext4.dirClose st₂ with
    | fault x => exact x.elim
    | err e st₃ =>
      have hkept₃ : node st₃.fs = node s := (hclose.err hc).trans hkept₂
      rw [wp_iff_of_err hc]
      simp [hkept₃]
    | ok _ st₃ =>
      have hkept₃ : node st₃.fs = node s := (hclose.ok hc).trans hkept₂
      rw [wp_iff_of_ok hc]
      cases empty with
      | false => simp [hkept₃]
      | true =>
        have hrm := hL.dirRm p st₃.fs
        cases hr : env.lwext4.dirRm p st₃.fs with
        | fault x => exact x.elim
        | err e s₄ => simp [wp_iff_of_err hr, hr]
        | ok _ s₄ =>
          rw [wp_iff_of_ok hr] at hrm
          simp [wp_iff_of_ok hr, hr, hk s₄ hrm]

/-! ## The two callers -/

/-- What `vfs_lwext4_rmdir` does before it looks at the directory. -/
def rmdirChecks (env : Env σ D) (name : CStr) : Call (MountSt σ D) CStr := do
  refuseReadOnly
  failIf (pathIsMountRoot name = true) .ebusy
  let fullPath ← fullPathOf env name
  onFs (takeLock env.idf)
  return fullPath

/-- What `vfs_lwext4_rename` does before it looks at the names. -/
def renameChecks (env : Env σ D) (src dst : CStr) : Call (MountSt σ D) (CStr × CStr) := do
  refuseReadOnly
  failIf (pathIsMountRoot src = true ∨ pathIsMountRoot dst = true) .ebusy
  let source ← fullPathOf env src
  let destination ← fullPathOf env dst
  onFs (takeLock env.idf)
  return (source, destination)

/-- What `rename_locked` does before it replaces a directory by a directory. -/
def replaceChecks (env : Env σ D) (src dst : CStr) : Call σ Unit := do
  let result ← (env.lwext4.frename src dst).attempt
  failIf (result ≠ .error .eexist) .eio
  let source ← pathInfoLocked env src
  let destination ← pathInfoLocked env dst
  failIf (source.inodeNumber = destination.inodeNumber) .eio
  failIf (source.isDirectory = false ∨ destination.isDirectory = false) .eio
  failIf (pathHasDotComponent src = true ∨ pathHasDotComponent dst = true ∨
    pathIsStrictDescendant src dst = true) .einval

theorem DirLaws.wp_pathInfo (hL : DirLaws env node pending) (p : CStr) (s : σ) :
    wp (pathInfoLocked env p)
      (fun r s' => node s' = node s ∧ ∃ n, node s p = some n ∧ n.inode = r.inodeNumber ∧
        n.entries.isSome = r.isDirectory)
      (fun _ s' => node s' = node s) s := by
  unfold pathInfoLocked
  rw [wp_bind]
  refine wp_mono (hL.rawInodeFill p s) ?_ fun _ _ h => h
  rintro ⟨number, inode⟩ s₁ ⟨h, hnode⟩
  rw [wp_bind]
  exact wp_mono (hL.getSblock p s₁) (fun _ _ h' => ⟨h'.trans h, hnode⟩) fun _ _ h' => h'.trans h

/-- Renaming onto a directory that is not empty. -/
theorem DirLaws.refuses_rename_iff (hL : DirLaws env node pending) {src dst : CStr} {s : σ}
    {n : PathNode} (hn : node s dst = some n) (hne : n.NonEmpty)
    (hother : ∀ m, node s src = some m → m.inode ≠ n.inode) :
    Refuses node (renameLocked env src dst) s ↔
      wp (replaceChecks env src dst)
        (fun _ s' => ¬ CutRemoval env node pending dst s') (fun _ _ => True) s := by
  unfold Refuses renameLocked replaceChecks
  simp only [wp_bind, wp_attempt]
  refine wp_congr (hL.frename src dst s) (fun _ s₁ h => ?_) fun e s₁ h₁ => ?_
  · rw [hn] at h
    cases h
  rw [wp_ite, wp_failIf]
  by_cases he : (Except.error e : Except Errno Unit) = .error .eexist
  swap
  · simp [he, h₁]
  unfold replaceLocked
  simp only [he, not_true_eq_false, not_false_eq_true, ne_eq, forall_const, false_implies, and_true,
    true_and, wp_bind]
  refine wp_congr (hL.wp_pathInfo src s₁) (fun source s₂ h₂ => ?_) fun _ _ h => ?_
  swap
  · exact iff_of_true (h.trans h₁) trivial
  obtain ⟨h₂, m, hm, hsource, -⟩ := h₂
  refine wp_congr (hL.wp_pathInfo dst s₂) (fun destination s₃ h₃ => ?_) fun _ _ h => ?_
  swap
  · exact iff_of_true (h.trans (h₂.trans h₁)) trivial
  obtain ⟨h₃, n', hn', hdest, hdir⟩ := h₃
  have hall₂ : node s₂ = node s := h₂.trans h₁
  have hall : node s₃ = node s := h₃.trans hall₂
  rw [h₁] at hm
  rw [hall₂, hn] at hn'
  obtain rfl : n = n' := Option.some.inj hn'
  have hinode : source.inodeNumber ≠ destination.inodeNumber := by
    rw [← hsource, ← hdest]
    exact hother m hm
  have hisdir : destination.isDirectory = true := by
    obtain ⟨l, hl, -⟩ := hne
    rw [← hdir, hl]
    rfl
  rw [if_neg hinode, hisdir]
  cases hsd : source.isDirectory with
  | false => simp [wp_failIf, hinode, hall]
  | true =>
    have hk (s' : σ) (hnone : node s' dst = none) :
        ¬ wp (env.lwext4.frename src dst) (fun _ _ => False) (fun _ s'' => node s'' = node s₃) s' := by
      intro h
      have hboth := wp_and h (hL.frename src dst s')
      refine final_of_wp (P := fun _ => False) (wp_mono hboth (fun _ _ h => h.1) ?_)
      rintro _ s'' ⟨hback, hkept⟩
      rw [hkept, hall] at hback
      rw [hback, hn] at hnone
      cases hnone
    have hrem := hL.refuses_removal_iff (hall ▸ hn) hne hk
    unfold Refuses rmdirLocked at hrem
    simp only [wp_bind, wp_failIf, hall] at hrem
    simp only [wp_bind, wp_ite, wp_failIf, hall, hinode, not_true_eq_false, not_false_eq_true,
      false_implies, forall_const, true_and, and_true, Bool.true_eq_false, or_self, implies_true]
    exact imp_congr_right fun _ => hrem

/-! ## Calls -/

/-- `rmdir` of a directory that is not empty returns an error and removes nothing. -/
def RmdirSpares (env : Env σ D) (node : σ → CStr → Option PathNode) (st : MountSt σ D)
    (name : CStr) : Prop :=
  ∀ n, node st.fs (st.ctx.mountPoint ++ name.tail) = some n → n.NonEmpty →
    (∃ e, (vfsLwext4Rmdir env name).answer st = .error e) ∧
      node ((vfsLwext4Rmdir env name).final st).fs = node st.fs

/-- `rename` onto a directory that is not empty, and not the source itself, returns an
error and removes nothing. -/
def RenameSpares (env : Env σ D) (node : σ → CStr → Option PathNode) (st : MountSt σ D)
    (src dst : CStr) : Prop :=
  ∀ n, node st.fs (st.ctx.mountPoint ++ dst.tail) = some n → n.NonEmpty →
    (∀ m, node st.fs (st.ctx.mountPoint ++ src.tail) = some m → m.inode ≠ n.inode) →
    (∃ e, (vfsLwext4Rename env src dst).answer st = .error e) ∧
      node ((vfsLwext4Rename env src dst).final st).fs = node st.fs

/-- The call gets to the removal of a directory whose scan is cut short. -/
def RmdirCut (env : Env σ D) (node : σ → CStr → Option PathNode)
    (pending : DirSt σ D → List Ext4Direntry) (st : MountSt σ D) (name : CStr) : Prop :=
  ∃ p st', rmdirChecks env name st = .ok p st' ∧ CutRemoval env node pending p st'.fs

def RenameCut (env : Env σ D) (node : σ → CStr → Option PathNode)
    (pending : DirSt σ D → List Ext4Direntry) (st : MountSt σ D) (src dst : CStr) : Prop :=
  ∃ paths st' s', renameChecks env src dst st = .ok paths st' ∧
    replaceChecks env paths.1 paths.2 st'.fs = .ok () s' ∧
    CutRemoval env node pending paths.2 s'

section Paths

variable {α : Type} {f : σ → α} (hmalloc : ∀ n s, f (env.idf.malloc n s).2 = f s)
  (hlock : ∀ s, f (env.idf.semaphoreTake s).2 = f s) (st : MountSt σ D)

include hmalloc

/-- `make_path` keeps what the allocator keeps. -/
theorem wp_fullPathOf_keeps (path : CStr) :
    wp (fullPathOf env path)
      (fun p st' => f st'.fs = f st.fs ∧ st'.ctx = st.ctx ∧ path.head? = some slash ∧
        p = st.ctx.mountPoint ++ path.tail)
      (fun _ st' => f st'.fs = f st.fs) st := by
  unfold fullPathOf onFs makePath
  simp only [wp_bind, wp_getState, wp_zoom, wp_failIf, wp_pure]
  refine ⟨fun _ => rfl, fun hhead => ⟨fun _ => rfl, fun _ => ?_⟩⟩
  exact wp_allocate ⟨hmalloc _ st.fs, rfl, not_not.mp hhead, trivial⟩ (hmalloc _ st.fs)

include hlock

/-- The checks of `rename` keep what the allocator and the lock keep. -/
theorem wp_renameChecks_keeps (src dst : CStr) :
    wp (renameChecks env src dst)
      (fun paths st' => f st'.fs = f st.fs ∧ src.head? = some slash ∧ dst.head? = some slash ∧
        paths = (st.ctx.mountPoint ++ src.tail, st.ctx.mountPoint ++ dst.tail))
      (fun _ st' => f st'.fs = f st.fs) st := by
  unfold renameChecks refuseReadOnly onFs
  simp only [wp_bind, wp_getState, wp_failIf, wp_zoom, wp_pure]
  refine ⟨fun _ => trivial, fun _ => ⟨fun _ => trivial, fun _ => ?_⟩⟩
  refine wp_mono (wp_fullPathOf_keeps hmalloc st src) ?_ fun _ _ h => h
  rintro p st₁ ⟨h₁, hctx, hsrc, rfl⟩
  refine wp_mono (wp_fullPathOf_keeps hmalloc st₁ dst) ?_ fun _ _ h => h.trans h₁
  rintro q st₂ ⟨h₂, -, hdst, rfl⟩
  have hkept := (hlock st₂.fs).trans (h₂.trans h₁)
  exact wp_takeLock ⟨hkept, hsrc, hdst, by rw [hctx]⟩ hkept

end Paths

theorem DirLaws.wp_fullPathOf (hL : DirLaws env node pending) (st : MountSt σ D) (path : CStr) :
    wp (fullPathOf env path)
      (fun p st' => node st'.fs = node st.fs ∧ st'.ctx = st.ctx ∧
        p = st.ctx.mountPoint ++ path.tail)
      (fun _ st' => node st'.fs = node st.fs) st :=
  wp_mono (wp_fullPathOf_keeps hL.malloc st path) (fun _ _ h => ⟨h.1, h.2.1, h.2.2.2⟩)
    fun _ _ h => h

theorem DirLaws.wp_rmdirChecks (hL : DirLaws env node pending) (st : MountSt σ D) (name : CStr) :
    wp (rmdirChecks env name)
      (fun p st' => node st'.fs = node st.fs ∧ p = st.ctx.mountPoint ++ name.tail)
      (fun _ st' => node st'.fs = node st.fs) st := by
  unfold rmdirChecks refuseReadOnly onFs
  simp only [wp_bind, wp_getState, wp_failIf, wp_zoom, wp_pure]
  refine ⟨fun _ => trivial, fun _ => ⟨fun _ => trivial, fun _ => ?_⟩⟩
  refine wp_mono (hL.wp_fullPathOf st name) ?_ fun _ _ h => h
  rintro p st₁ ⟨h₁, -, hp⟩
  have hlock := (hL.lock st₁.fs).trans h₁
  exact wp_takeLock ⟨hlock, hp⟩ hlock

theorem DirLaws.wp_renameChecks (hL : DirLaws env node pending) (st : MountSt σ D)
    (src dst : CStr) :
    wp (renameChecks env src dst)
      (fun paths st' => node st'.fs = node st.fs ∧
        paths = (st.ctx.mountPoint ++ src.tail, st.ctx.mountPoint ++ dst.tail))
      (fun _ st' => node st'.fs = node st.fs) st :=
  wp_mono (wp_renameChecks_keeps hL.malloc hL.lock st src dst) (fun _ _ h => ⟨h.1, h.2.2.2⟩)
    fun _ _ h => h

theorem CutRemoval.nonEmpty (hL : DirLaws env node pending) {p : CStr} {s : σ}
    (h : CutRemoval env node pending p s) : ∃ n, node s p = some n ∧ n.NonEmpty := by
  obtain ⟨d, s₁, st₂, st₃, hopen, hshort, -, -⟩ := h
  obtain ⟨-, n, hn, hentries⟩ := (wp_iff_of_ok hopen).mp (hL.dirOpen p s)
  exact ⟨n, hn, _, hentries, hshort.nonEmpty hL⟩

theorem wp_vfsLwext4Rmdir {st : MountSt σ D} {name : CStr} {Q : Unit → MountSt σ D → Prop}
    {E : Errno → MountSt σ D → Prop} :
    wp (vfsLwext4Rmdir env name) Q E st ↔
      wp (rmdirChecks env name) (fun p st' => wp (onFs (rmdirLocked env p)) Q E st') E st := by
  unfold vfsLwext4Rmdir rmdirChecks onPath locked
  simp only [wp_bind, wp_pure]

/-- **`rmdir`.** -/
theorem DirLaws.rmdirSpares_iff (hL : DirLaws env node pending) (st : MountSt σ D) (name : CStr) :
    RmdirSpares env node st name ↔ ¬ RmdirCut env node pending st name := by
  have hcall : ∀ n, node st.fs (st.ctx.mountPoint ++ name.tail) = some n → n.NonEmpty →
      (wp (vfsLwext4Rmdir env name) (fun _ _ => False) (fun _ st' => node st'.fs = node st.fs) st ↔
        ¬ RmdirCut env node pending st name) := by
    intro n hn hne
    rw [wp_vfsLwext4Rmdir, wp_congr (G := fun p st' => ¬ CutRemoval env node pending p st'.fs)
      (F := fun _ _ => True) (hL.wp_rmdirChecks st name) ?_ fun _ _ h => iff_of_true h trivial,
      wp_returns_iff]
    · constructor
      · rintro h ⟨p, st', hok, hcut⟩
        exact h p st' hok hcut
      · exact fun h p st' hok hcut => h ⟨p, st', hok, hcut⟩
    · rintro p st' ⟨hkept, rfl⟩
      have hrem := hL.refuses_removal_iff (k := pure ()) (hkept ▸ hn) hne fun _ _ h => h
      unfold onFs
      rw [wp_zoom]
      rw [bind_pure_unit] at hrem
      unfold Refuses at hrem
      rw [hkept] at hrem
      exact hrem
  constructor
  · rintro h ⟨p, st', hok, hcut⟩
    obtain ⟨hkept, rfl⟩ := (wp_iff_of_ok hok).mp (hL.wp_rmdirChecks st name)
    obtain ⟨n, hn, hne⟩ := hcut.nonEmpty hL
    rw [hkept] at hn
    exact (hcall n hn hne).mp (wp_fails_iff.mpr (h n hn hne)) ⟨_, st', hok, hcut⟩
  · exact fun h n hn hne => wp_fails_iff.mp ((hcall n hn hne).mpr h)

/-- A replacement of a directory by a directory is one by another directory. -/
theorem DirLaws.wp_replaceChecks (hL : DirLaws env node pending) (src dst : CStr) (s : σ) :
    wp (replaceChecks env src dst)
      (fun _ s' => node s' = node s ∧ ∀ m n, node s src = some m → node s dst = some n →
        m.inode ≠ n.inode)
      (fun _ _ => True) s := by
  unfold replaceChecks
  simp only [wp_bind, wp_attempt, wp_failIf, implies_true, true_and]
  refine wp_mono (hL.frename src dst s) (fun _ s₁ _ h => absurd h (by simp)) ?_
  intro e s₁ h₁ _
  refine wp_mono (hL.wp_pathInfo src s₁) ?_ fun _ _ _ => trivial
  rintro source s₂ ⟨h₂, m, hm, hsource, -⟩
  refine wp_mono (hL.wp_pathInfo dst s₂) ?_ fun _ _ _ => trivial
  rintro destination s₃ ⟨h₃, n, hn, hdest, -⟩ hne - -
  refine ⟨h₃.trans (h₂.trans h₁), fun m' n' hm' hn' heq => hne ?_⟩
  rw [h₁] at hm
  rw [h₂, h₁] at hn
  obtain rfl := Option.some.inj (hm.symm.trans hm')
  obtain rfl := Option.some.inj (hn.symm.trans hn')
  rw [← hsource, ← hdest, heq]

theorem wp_vfsLwext4Rename {st : MountSt σ D} {src dst : CStr} {Q : Unit → MountSt σ D → Prop}
    {E : Errno → MountSt σ D → Prop} :
    wp (vfsLwext4Rename env src dst) Q E st ↔
      wp (renameChecks env src dst)
        (fun paths st' => wp (onFs (renameLocked env paths.1 paths.2)) Q E st') E st := by
  unfold vfsLwext4Rename renameChecks twoPathOperation locked
  simp only [wp_bind, wp_pure]

/-- **`rename`.** -/
theorem DirLaws.renameSpares_iff (hL : DirLaws env node pending) (st : MountSt σ D)
    (src dst : CStr) :
    RenameSpares env node st src dst ↔ ¬ RenameCut env node pending st src dst := by
  have hcall : ∀ n, node st.fs (st.ctx.mountPoint ++ dst.tail) = some n → n.NonEmpty →
      (∀ m, node st.fs (st.ctx.mountPoint ++ src.tail) = some m → m.inode ≠ n.inode) →
      (wp (vfsLwext4Rename env src dst) (fun _ _ => False)
        (fun _ st' => node st'.fs = node st.fs) st ↔ ¬ RenameCut env node pending st src dst) := by
    intro n hn hne hother
    rw [wp_vfsLwext4Rename, wp_congr (G := fun paths st' => wp (replaceChecks env paths.1 paths.2)
        (fun _ s' => ¬ CutRemoval env node pending paths.2 s') (fun _ _ => True) st'.fs)
      (F := fun _ _ => True) (hL.wp_renameChecks st src dst) ?_ fun _ _ h => iff_of_true h trivial,
      wp_returns_iff]
    · constructor
      · rintro h ⟨paths, st', s', hok, hreplace, hcut⟩
        exact wp_returns_iff.mp (h paths st' hok) () s' hreplace hcut
      · intro h paths st' hok
        exact wp_returns_iff.mpr fun _ s' hreplace hcut => h ⟨paths, st', s', hok, hreplace, hcut⟩
    · rintro paths st' ⟨hkept, rfl⟩
      have hrem := hL.refuses_rename_iff (hkept ▸ hn) hne (hkept ▸ hother)
      unfold onFs
      rw [wp_zoom]
      unfold Refuses at hrem
      rw [hkept] at hrem
      exact hrem
  constructor
  · rintro h ⟨paths, st', s', hok, hreplace, hcut⟩
    obtain ⟨hkept, rfl⟩ := (wp_iff_of_ok hok).mp (hL.wp_renameChecks st src dst)
    obtain ⟨hkept', hne'⟩ := (wp_iff_of_ok hreplace).mp (hL.wp_replaceChecks _ _ _)
    obtain ⟨n, hn, hne⟩ := hcut.nonEmpty hL
    rw [hkept', hkept] at hn
    rw [hkept] at hne'
    have hother := fun m hm => hne' m n hm hn
    exact (hcall n hn hne hother).mp (wp_fails_iff.mpr (h n hn hne hother))
      ⟨_, st', s', hok, hreplace, hcut⟩
  · exact fun h n hn hne hother => wp_fails_iff.mp ((hcall n hn hne hother).mpr h)

/-- **Only empty directories are removed**, by `rmdir` and by the replacing branch of
`rename`, exactly when the call does not get to the removal of a directory whose scan was
cut short. -/
theorem removes_only_empty_iff (env : Env σ D) (node : σ → CStr → Option PathNode)
    (pending : DirSt σ D → List Ext4Direntry) (hL : DirLaws env node pending) (st : MountSt σ D) :
    (∀ name, RmdirSpares env node st name ↔ ¬ RmdirCut env node pending st name) ∧
      ∀ src dst, RenameSpares env node st src dst ↔ ¬ RenameCut env node pending st src dst :=
  ⟨hL.rmdirSpares_iff st, hL.renameSpares_iff st⟩

end Adapter

/-! ## A directory that is not empty -/

namespace Ram

def node (s : Ram) (p : CStr) : Option PathNode :=
  (s.lookup p).map fun i => ⟨i, if i ∈ s.dirs then some (s.entries p) else none⟩

theorem node_dirEntryNext (st : DirSt Ram (List Ext4Direntry)) :
    node (dirEntryNext st).2.fs = node st.fs := by
  unfold dirEntryNext
  split
  · rfl
  · rfl
  · rfl
  · rfl

theorem lookup_removeTree (s : Ram) (p : CStr) : (s.removeTree p).lookup p = none := by
  unfold lookup removeTree
  rw [List.lookup_eq_none_iff]
  intro n hn
  have h := List.of_mem_filter hn
  simp only [decide_eq_true_eq] at h
  simpa using fun heq => h.1 heq.symm

theorem node_some {s : Ram} {p : CStr} {i : ℕ} (h : s.lookup p = some i) :
    s.node p = some ⟨i, if i ∈ s.dirs then some (s.entries p) else none⟩ := by
  unfold node
  rw [h]
  rfl

theorem node_none {s : Ram} {p : CStr} (h : s.lookup p = none) : s.node p = none := by
  unfold node
  rw [h]
  rfl

theorem dirLaws : DirLaws env node DirSt.dir where
  malloc _ _ := rfl
  lock _ := rfl
  rawInodeFill p s := by
    refine wp_onName (fun _ => rfl) fun i hp => ?_
    refine ⟨rfl, _, node_some hp, rfl, ?_⟩
    show (if i ∈ s.dirs then some (s.entries p) else none).isSome = decide (i ∈ s.dirs)
    split_ifs with hi
    · exact (decide_eq_true hi).symm
    · exact (decide_eq_false hi).symm
  getSblock _ _ := rfl
  dirOpen p s := by
    refine wp_onName (fun _ => rfl) fun i hp => ?_
    unfold wp
    simp only
    split_ifs with hi
    · exact ⟨rfl, _, node_some hp, if_pos hi⟩
    · rfl
  dirEntryNext := node_dirEntryNext
  dirEntryNext_some st e st' h := by
    change dirEntryNext st = _ at h
    unfold dirEntryNext at h
    split at h
    · cases h
    · cases h
    · next hdir _ =>
      cases h
      exact hdir
    · next hdir _ =>
      cases h
      exact hdir
  dirClose _ := rfl
  dirRm p s := by
    refine wp_onName (fun _ => trivial) fun i _ => ?_
    unfold wp
    simp only
    split_ifs
    · exact node_none (lookup_removeTree s p)
    · trivial
  frename p q s := by
    refine wp_onName (fun _ => rfl) fun i _ => ?_
    unfold wp
    simp only
    split_ifs with hq
    · rfl
    · exact node_none (Option.not_isSome_iff_eq_none.mp hq)

/-- `/a/c` -/
def pathAC : CStr := [47, 97, 47, 99]

/-- The directory `/a` holds the file `/a/c`; `reads` more entries can be read. -/
def fullDir (reads : Option ℕ) : MountSt Ram (List Ext4Direntry) :=
  let st := run (MountOp.exec env) (reached env blank conf [slash] [])
    [.mkdir pathA 0o755, .open_ pathAC ⟨.rdwr, false, true, false, false⟩, .close 0]
  { st with fs := { st.fs with readsLeft := reads } }

/-- When every entry can be read, the scan is not cut short and `rmdir` refuses. -/
theorem rmdir_of_full_directory :
    (vfsLwext4Rmdir env pathA).answer (fullDir none) = .error .enotempty ∧
      ¬ RmdirCut env node DirSt.dir (fullDir none) pathA := by
  have hr : (vfsLwext4Rmdir env pathA).answer (fullDir none) = .error .enotempty := by decide
  refine ⟨hr, ((removes_only_empty_iff env node DirSt.dir dirLaws (fullDir none)).1 pathA).mp ?_⟩
  exact fun _ _ _ => ⟨⟨_, hr⟩, rfl⟩

/-- The third entry cannot be read: `rmdir` finds only `.` and `..`, removes `/a` with
the file in it and returns 0. -/
theorem rmdir_of_unread_directory :
    (vfsLwext4Rmdir env pathA).answer (fullDir (some 2)) = .ok () ∧
      (fullDir (some 2)).fs.lookup pathAC = some 13 ∧
      ((vfsLwext4Rmdir env pathA).final (fullDir (some 2))).fs.lookup pathAC = none ∧
      ¬ RmdirSpares env node (fullDir (some 2)) pathA := by
  have hr : (vfsLwext4Rmdir env pathA).answer (fullDir (some 2)) = .ok () := by decide
  refine ⟨hr, by decide, by decide, fun h => ?_⟩
  have hnode : node (fullDir (some 2)).fs pathA = some ⟨12, some ((fullDir (some 2)).fs.entries pathA)⟩ := by
    decide
  obtain ⟨⟨e, he⟩, -⟩ := h _ hnode ⟨_, rfl, ⟨13, .unknown, [99]⟩, by decide, by decide⟩
  rw [hr] at he
  cases he

end Ram

end EspLwext4.Port
