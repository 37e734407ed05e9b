import EspLwext4.Port.Frame
import Mathlib.Data.List.Basic

/-!
# The file table, the directory handles and their counters

Every context of every reachable state has counters that count what is open, and
a file table whose used slots are the lwext4 files that were opened and not
closed since, by the log of the lwext4 calls. No assumption is made on lwext4,
the allocator, the locks or the VFS: each call of them may succeed or fail.
-/

namespace EspLwext4.Port

open Prog Runs

variable {σ D : Type}

/-! ## The log of a slot -/

/-- lwext4 has the file of the slot open. -/
def isOpen : List SlotCall → ℕ → Bool
  | [], _ => false
  | .fopen2 i true :: calls, fd => if i = fd then true else isOpen calls fd
  | .fclose i true :: calls, fd => if i = fd then false else isOpen calls fd
  | .fopen2 _ false :: calls, fd => isOpen calls fd
  | .fclose _ false :: calls, fd => isOpen calls fd

/-- No file is opened over an open one, and only open files are closed. -/
def OpenedOnce : List SlotCall → Prop
  | [] => True
  | .fopen2 i true :: calls => isOpen calls i = false ∧ OpenedOnce calls
  | .fclose i true :: calls => isOpen calls i = true ∧ OpenedOnce calls
  | .fopen2 _ false :: calls => OpenedOnce calls
  | .fclose _ false :: calls => OpenedOnce calls

/-! ## The invariant -/

/-- Whether the slot is used; a slot outside the table is not. -/
def Shape.usedAt (sh : Shape) (fd : ℕ) : Bool := (sh.slots.getD fd EspFile.zero.slot).used

structure Shape.Ok (sh : Shape) : Prop where
  slots_length : sh.slots.length = sh.maxFiles
  openFiles_eq : sh.openFiles = sh.slots.countP (·.used)
  openDirs_eq : sh.openDirs = sh.handles.length
  handles_nodup : sh.handles.Nodup
  handles_lt : ∀ id ∈ sh.handles, id < sh.nextDir
  mountPoint_ne : sh.mountPoint ≠ []
  path_ne : ∀ slot ∈ sh.slots, slot.used = true → slot.path ≠ []
  openedOnce : OpenedOnce sh.slotCalls
  isOpen_eq : ∀ fd, isOpen sh.slotCalls fd = sh.usedAt fd

theorem usedAt_shape (ctx : Ctx D) (fd : ℕ) : ctx.shape.usedAt fd = ctx.usedAt fd := by
  unfold Shape.usedAt Ctx.shape
  simp only
  rw [List.getD_map]
  rfl

theorem Shape.Ok.openFiles_le {sh : Shape} (h : sh.Ok) : sh.openFiles ≤ sh.maxFiles := by
  rw [h.openFiles_eq, ← h.slots_length]
  exact List.countP_le_length

/-- No counted file: every slot is free. -/
theorem Shape.Ok.unused {sh : Shape} (h : sh.Ok) (hf : sh.openFiles = 0) (fd : ℕ) :
    sh.usedAt fd = false := by
  by_contra hu
  rw [Bool.not_eq_false] at hu
  unfold Shape.usedAt at hu
  by_cases hfd : fd < sh.slots.length
  · rw [List.getD_eq_getElem _ _ hfd] at hu
    have hpos : 0 < sh.slots.countP (·.used) :=
      List.countP_pos_iff.mpr ⟨sh.slots[fd], List.getElem_mem hfd, hu⟩
    rw [← h.openFiles_eq, hf] at hpos
    exact Nat.lt_irrefl 0 hpos
  · rw [List.getD_eq_default _ _ (Nat.le_of_not_lt hfd)] at hu
    cases hu

/-- No counted handle: every slot is free and every directory closed. -/
theorem Shape.Ok.idle {sh : Shape} (h : sh.Ok) (hf : sh.openFiles = 0) (hd : sh.openDirs = 0) :
    (∀ fd, sh.usedAt fd = false) ∧ sh.handles = [] := by
  refine ⟨h.unused hf, ?_⟩
  apply List.eq_nil_of_length_eq_zero
  rw [← h.openDirs_eq, hd]

/-! ## What opening and closing do to the shape -/

def Shape.note (sh : Shape) (call : SlotCall) : Shape :=
  { sh with slotCalls := call :: sh.slotCalls }

def Shape.opened (sh : Shape) (fd : ℕ) (path : CStr) (flags : OpenFlags) : Shape :=
  { sh with
    slots := sh.slots.set fd ⟨path, flags, true⟩
    openFiles := sh.openFiles + 1
    slotCalls := .fopen2 fd true :: sh.slotCalls }

def Shape.closed (sh : Shape) (fd : ℕ) : Shape :=
  { sh with
    slots := sh.slots.set fd EspFile.zero.slot
    openFiles := sh.openFiles - 1
    slotCalls := .fclose fd true :: sh.slotCalls }

def Shape.dirOpened (sh : Shape) : Shape :=
  { sh with
    openDirs := sh.openDirs + 1
    handles := sh.nextDir :: sh.handles
    nextDir := sh.nextDir + 1 }

def Shape.dirClosed (sh : Shape) (id : ℕ) : Shape :=
  { sh with
    openDirs := sh.openDirs - 1
    handles := sh.handles.filter (· ≠ id) }

theorem usedAt_set (sh : Shape) (fd i : ℕ) (slot : Slot) (hfd : fd < sh.slots.length) :
    (((sh.slots.set fd slot).getD i EspFile.zero.slot).used) =
      if fd = i then slot.used else sh.usedAt i := by
  unfold Shape.usedAt
  by_cases hi : i < sh.slots.length
  · rw [List.getD_eq_getElem _ _ (by simpa using hi), List.getD_eq_getElem _ _ hi,
      List.getElem_set]
    split_ifs
    · rfl
    · rfl
  · have hne : fd ≠ i := fun h => hi (h ▸ hfd)
    rw [List.getD_eq_default _ _ (by simpa using hi),
      List.getD_eq_default _ _ (Nat.le_of_not_lt hi), if_neg hne]

theorem usedAt_lt {sh : Shape} {fd : ℕ} (h : sh.usedAt fd = true) : fd < sh.slots.length := by
  by_contra hn
  unfold Shape.usedAt at h
  rw [List.getD_eq_default _ _ (Nat.le_of_not_lt hn)] at h
  cases h

namespace Shape.Ok

variable {sh : Shape}

theorem note_fopen2 (h : sh.Ok) (fd : ℕ) : (sh.note (.fopen2 fd false)).Ok :=
  { h with openedOnce := h.openedOnce, isOpen_eq := h.isOpen_eq }

theorem note_fclose (h : sh.Ok) (fd : ℕ) : (sh.note (.fclose fd false)).Ok :=
  { h with openedOnce := h.openedOnce, isOpen_eq := h.isOpen_eq }

theorem opened (h : sh.Ok) {fd : ℕ} {path : CStr} {flags : OpenFlags}
    (hfd : fd < sh.maxFiles) (hu : sh.usedAt fd = false) (hp : path ≠ []) :
    (sh.opened fd path flags).Ok := by
  have hlt : fd < sh.slots.length := h.slots_length ▸ hfd
  have hslot : sh.slots[fd].used = false := by
    unfold Shape.usedAt at hu
    rwa [List.getD_eq_getElem _ _ hlt] at hu
  refine { h with
    slots_length := ?_
    openFiles_eq := ?_
    path_ne := ?_
    openedOnce := ?_
    isOpen_eq := ?_ }
  · exact (List.length_set ..).trans h.slots_length
  · show sh.openFiles + 1 = (sh.slots.set fd ⟨path, flags, true⟩).countP (·.used)
    rw [List.countP_set hlt, h.openFiles_eq]
    simp [hslot]
  · intro slot hslot' hused
    rcases List.mem_or_eq_of_mem_set hslot' with hmem | rfl
    · exact h.path_ne slot hmem hused
    · exact hp
  · exact ⟨(h.isOpen_eq fd).trans hu, h.openedOnce⟩
  · intro i
    refine Eq.trans ?_ (usedAt_set sh fd i _ hlt).symm
    show (if fd = i then true else isOpen sh.slotCalls i) = _
    rw [h.isOpen_eq i]

theorem closed (h : sh.Ok) {fd : ℕ} (hu : sh.usedAt fd = true) : (sh.closed fd).Ok := by
  have hlt : fd < sh.slots.length := usedAt_lt hu
  have hslot : sh.slots[fd].used = true := by
    unfold Shape.usedAt at hu
    rwa [List.getD_eq_getElem _ _ hlt] at hu
  refine { h with
    slots_length := ?_
    openFiles_eq := ?_
    path_ne := ?_
    openedOnce := ?_
    isOpen_eq := ?_ }
  · exact (List.length_set ..).trans h.slots_length
  · show sh.openFiles - 1 = (sh.slots.set fd EspFile.zero.slot).countP (·.used)
    rw [List.countP_set hlt, h.openFiles_eq]
    simp [hslot, EspFile.zero, EspFile.slot]
  · intro slot hslot' hused
    rcases List.mem_or_eq_of_mem_set hslot' with hmem | rfl
    · exact h.path_ne slot hmem hused
    · cases hused
  · exact ⟨(h.isOpen_eq fd).trans hu, h.openedOnce⟩
  · intro i
    refine Eq.trans ?_ (usedAt_set sh fd i _ hlt).symm
    show (if fd = i then false else isOpen sh.slotCalls i) = _
    rw [h.isOpen_eq i]
    rfl

theorem dirOpened (h : sh.Ok) : sh.dirOpened.Ok := by
  refine { h with
    openDirs_eq := ?_
    handles_nodup := ?_
    handles_lt := ?_
    isOpen_eq := h.isOpen_eq }
  · exact congrArg (· + 1) h.openDirs_eq
  · refine List.nodup_cons.mpr ⟨fun hmem => ?_, h.handles_nodup⟩
    exact Nat.lt_irrefl _ (h.handles_lt _ hmem)
  · intro id hid
    rcases List.mem_cons.mp hid with rfl | hmem
    · exact Nat.lt_succ_self _
    · exact Nat.lt_succ_of_lt (h.handles_lt id hmem)

theorem dirClosed (h : sh.Ok) {id : ℕ} (hid : id ∈ sh.handles) : (sh.dirClosed id).Ok := by
  refine { h with
    openDirs_eq := ?_
    handles_nodup := ?_
    handles_lt := ?_
    isOpen_eq := h.isOpen_eq }
  · show sh.openDirs - 1 = (sh.handles.filter (· ≠ id)).length
    have herase : sh.handles.filter (fun x => decide (x ≠ id)) = sh.handles.erase id := by
      rw [h.handles_nodup.erase_eq_filter]
      apply List.filter_congr
      intro x _
      by_cases hx : x = id
      · simp [hx]
      · simp [hx]
    rw [herase, List.length_erase_of_mem hid, h.openDirs_eq]
  · exact h.handles_nodup.filter _
  · intro id' hid'
    exact h.handles_lt id' (List.mem_of_mem_filter hid')

end Shape.Ok

/-! ## The four operations -/

section Specs

variable {env : Env σ D} {st : MountSt σ D}

/-- A path the adapter makes starts with the mount point. -/
theorem wp_fullPathOf (path : CStr) :
    wp (fullPathOf env path)
      (fun fullPath st' => SameShape st st' ∧ (st.ctx.mountPoint ≠ [] → fullPath ≠ []))
      (fun _ st' => SameShape st st') st := by
  unfold fullPathOf onFs makePath
  simp only [wp_bind, wp_getState, wp_zoom, wp_failIf, wp_pure]
  refine ⟨fun _ => rfl, fun _ => ⟨fun _ => rfl, fun _ => ?_⟩⟩
  refine wp_of_forall (fun _ fs => ⟨rfl, fun hne hnil => ?_⟩) fun _ _ => rfl
  exact hne (List.append_eq_nil_iff.mp hnil).1

theorem freeSlot_spec {ctx : Ctx D} {fd : ℕ} (h : ctx.freeSlot = some fd) :
    fd < ctx.maxFiles ∧ ctx.usedAt fd = false := by
  constructor
  · exact List.mem_range.mp (List.mem_of_find?_eq_some h)
  · simpa using List.find?_some h

/-- What an operation that returned has done to the shape, and what one that failed
has: at most noted a call of lwext4 that failed. -/
def ShapeFailed (sh sh' : Shape) : Prop :=
  sh' = sh ∨ (∃ fd, sh' = sh.note (.fopen2 fd false)) ∨ ∃ fd, sh' = sh.note (.fclose fd false)

theorem shape_setFile (ctx : Ctx D) (fd : ℕ) (f : EspFile) :
    (ctx.setFile fd f).shape =
      { ctx.shape with slots := ctx.shape.slots.set fd f.slot } := by
  unfold Ctx.setFile Ctx.shape
  simp only [List.map_set]

/-- The result of an lwext4 call on a slot, and its line in the log. -/
theorem wp_noted (st : MountSt σ D) (fd : ℕ) (m : Call (FileSt σ) Unit)
    (call : Bool → SlotCall) {Q : Except Errno Unit → MountSt σ D → Prop} {E : Errno → MountSt σ D → Prop}
    (h : ∀ (r : Except Errno Unit) st', st'.ctx.shape = st.ctx.shape.note (call r.isOk) → Q r st') :
    wp (do
      let result ← (zoom (MountSt.fileLens fd) m).attempt
      updateCtx fun ctx => { ctx with slotCalls := call result.isOk :: ctx.slotCalls }
      return result) Q E st := by
  unfold updateCtx
  simp only [wp_bind, wp_update, wp_attempt, wp_zoom, wp_pure]
  refine wp_of_forall (fun _ fst => ?_) fun _ fst => ?_
  · apply h
    exact congrArg (Shape.note · _) (shape_setFile_file st.ctx fd fst.file)
  · apply h
    exact congrArg (Shape.note · _) (shape_setFile_file st.ctx fd fst.file)

theorem wp_openSlot (fd : ℕ) (fullPath : CStr) (flags : OpenFlags) :
    wp (openSlot env fd fullPath flags)
      (fun fd' st' => fd' = fd ∧ st'.ctx.shape = st.ctx.shape.opened fd fullPath flags)
      (fun _ st' => st'.ctx.shape = st.ctx.shape.note (.fopen2 fd false)) st := by
  have hclear : (st.ctx.setFile fd { st.ctx.file fd with file := .zero }).shape = st.ctx.shape :=
    shape_setFile_file _ _ _
  unfold openSlot
  rw [wp_bind]
  refine (wp_update _).mpr ?_
  have hnoted := wp_noted
    { st with ctx := st.ctx.setFile fd { st.ctx.file fd with file := .zero } } fd
    (env.lwext4.fopen2 fullPath flags) (.fopen2 fd)
    (Q := fun r st' => st'.ctx.shape = st.ctx.shape.note (.fopen2 fd r.isOk))
    (E := fun _ _ => False) fun r st' hst' => by rw [hst', hclear]
  rw [wp_bind] at hnoted ⊢
  refine wp_mono hnoted (fun result st₁ h₁ => ?_) fun _ _ hf => hf.elim
  rw [wp_bind] at h₁ ⊢
  refine wp_mono h₁ (fun _ st₂ h₂ => ?_) fun _ _ hf => hf.elim
  replace h₂ : st₂.ctx.shape = st.ctx.shape.note (.fopen2 fd result.isOk) := h₂
  rw [wp_bind, wp_ofExcept]
  constructor
  · rintro ⟨⟩ rfl
    refine ⟨rfl, ?_⟩
    show ({ st₂.ctx.setFile fd _ with openFiles := _ } : Ctx D).shape = _
    have hset := shape_setFile st₂.ctx fd
      { st₂.ctx.file fd with path := fullPath, flags := flags, used := true }
    rw [h₂] at hset
    have hopen : st₂.ctx.openFiles = st.ctx.openFiles := congrArg Shape.openFiles h₂
    calc _ = { (st₂.ctx.setFile fd
            { st₂.ctx.file fd with path := fullPath, flags := flags, used := true }).shape with
          openFiles := st₂.ctx.openFiles + 1 } := rfl
      _ = _ := by rw [hset, hopen]; rfl
  · rintro e rfl
    exact h₂

theorem wp_fileGet {fd : ℤ} {Q : ℕ → MountSt σ D → Prop} {E : Errno → MountSt σ D → Prop}
    (h : st.ctx.usedAt fd.toNat = true → Q fd.toNat st) (he : E .ebadf st) :
    wp (fileGet fd) Q E st := by
  unfold fileGet
  simp only [wp_bind, wp_getState, wp_failIf, wp_pure]
  refine ⟨fun _ => he, fun hn => h ?_⟩
  by_contra hu
  rw [Bool.not_eq_true] at hu
  exact hn (Or.inr (Or.inr hu))

/-- Whether the lock is given or not, `xSemaphoreTake` decides the state. -/
theorem wp_takeLock {s : σ} {Q : Unit → σ → Prop} {E : Errno → σ → Prop}
    (h : Q () (env.idf.semaphoreTake s).2) (he : E .eio (env.idf.semaphoreTake s).2) :
    wp (takeLock env.idf) Q E s := by
  unfold wp takeLock
  cases hs : env.idf.semaphoreTake s with
  | mk taken fs =>
    rw [hs] at h he
    cases taken with
    | true => exact h
    | false => exact he

theorem wp_allocate {s : σ} {size : ℕ} {Q : Unit → σ → Prop} {E : Errno → σ → Prop}
    (h : Q () (env.idf.malloc size s).2) (he : E .enomem (env.idf.malloc size s).2) :
    wp (env.idf.allocate size) Q E s := by
  unfold wp Idf.allocate
  cases hs : env.idf.malloc size s with
  | mk got fs =>
    rw [hs] at h he
    cases got with
    | true => exact h
    | false => exact he

/-- What the lock, `file_get` and the access check leave to the work on the file. -/
theorem wp_onOpenFile {α : Type} {fd : ℤ} {forbidden : Option AccMode}
    {m : GrowBuffer → EspFile → Call (FileSt σ) α} {Q : α → MountSt σ D → Prop}
    {E : Errno → MountSt σ D → Prop}
    (he : ∀ e, E e ⟨(env.idf.semaphoreTake st.fs).2, st.ctx⟩)
    (h : st.ctx.usedAt fd.toNat = true →
      some (st.ctx.file fd.toNat).flags.accMode ≠ forbidden →
      wp (m st.ctx.growBuffer (st.ctx.file fd.toNat))
        (fun a fst => Q a ⟨fst.fs, st.ctx.setFile fd.toNat
          { st.ctx.file fd.toNat with file := fst.file }⟩)
        (fun e fst => E e ⟨fst.fs, st.ctx.setFile fd.toNat
          { st.ctx.file fd.toNat with file := fst.file }⟩)
        ⟨(env.idf.semaphoreTake st.fs).2, (st.ctx.file fd.toNat).file⟩) :
    wp (onOpenFile env fd forbidden m) Q E st := by
  unfold onOpenFile locked onFs
  rw [wp_bind, wp_zoom]
  refine wp_takeLock ?_ (he _)
  rw [wp_bind]
  refine wp_fileGet (fun hused => ?_) (he _)
  simp only [wp_bind, wp_getState, wp_failIf, wp_zoom]
  exact ⟨fun _ => he _, fun hacc => h hused hacc⟩

/-- **`open`.** The slot it returns was not used. -/
theorem wp_vfsLwext4Open (path : CStr) (flags : OpenFlags) :
    wp (vfsLwext4Open env path flags)
      (fun fd st' => fd < st.ctx.maxFiles ∧ st.ctx.usedAt fd = false ∧
        ∃ fullPath, (st.ctx.mountPoint ≠ [] → fullPath ≠ []) ∧
          st'.ctx.shape = st.ctx.shape.opened fd fullPath flags)
      (fun _ st' => ShapeFailed st.ctx.shape st'.ctx.shape) st := by
  unfold vfsLwext4Open
  simp only [wp_bind, wp_getState, wp_failIf]
  refine ⟨fun _ => Or.inl rfl, fun _ => ?_⟩
  refine wp_mono (wp_fullPathOf path) ?_ fun _ _ h => Or.inl h
  rintro fullPath st₁ ⟨h₁, hne⟩
  unfold locked
  rw [wp_bind]
  refine wp_mono (keeps_onFs (takeLock env.idf)) ?_ fun _ _ h => Or.inl (h₁.trans h)
  intro _ st₂ h₂
  rw [wp_bind, wp_getState]
  have hsame : SameShape st st₂ := h₁.trans h₂
  have hsh : st₂.ctx.shape = st.ctx.shape := hsame
  cases hfree : st₂.ctx.freeSlot with
  | none => exact Or.inl hsh
  | some fd =>
    obtain ⟨hlt, hused⟩ := freeSlot_spec hfree
    have hmax : st₂.ctx.maxFiles = st.ctx.maxFiles := congrArg Shape.maxFiles hsh
    simp only
    rw [wp_bind]
    refine wp_mono (keeps_onFs (openChecks env fullPath flags)) ?_
      fun _ _ h => Or.inl (hsame.trans h)
    intro _ st₃ h₃
    refine wp_mono (wp_openSlot fd fullPath flags) ?_ ?_
    · rintro fd' st₄ ⟨rfl, h₄⟩
      refine ⟨hmax ▸ hlt, ?_, fullPath, hne, ?_⟩
      · rw [← usedAt_shape] at hused ⊢
        rw [← hsh]
        exact hused
      · rw [h₄, show st₃.ctx.shape = st₂.ctx.shape from h₃, hsh]
    · intro e st₄ h₄
      exact Or.inr (Or.inl ⟨fd, by rw [h₄, show st₃.ctx.shape = st₂.ctx.shape from h₃, hsh]⟩)

/-- **`close`.** -/
theorem wp_vfsLwext4Close (fd : ℤ) :
    wp (vfsLwext4Close env fd)
      (fun _ st' => st.ctx.usedAt fd.toNat = true ∧
        st'.ctx.shape = st.ctx.shape.closed fd.toNat)
      (fun _ st' => ShapeFailed st.ctx.shape st'.ctx.shape) st := by
  unfold vfsLwext4Close locked
  rw [wp_bind]
  refine wp_mono (keeps_onFs (takeLock env.idf)) ?_ fun _ _ h => Or.inl h
  intro _ st₁ h₁
  replace h₁ : st₁.ctx.shape = st.ctx.shape := h₁
  rw [wp_bind]
  refine wp_fileGet (fun hused => ?_) (Or.inl h₁)
  have hnoted := wp_noted st₁ fd.toNat env.lwext4.fclose (.fclose fd.toNat)
    (Q := fun r st' => st'.ctx.shape = st.ctx.shape.note (.fclose fd.toNat r.isOk))
    (E := fun _ _ => False) fun r st' hst' => by rw [hst', h₁]
  rw [wp_bind] at hnoted ⊢
  refine wp_mono hnoted (fun result st₂ h₂ => ?_) fun _ _ hf => hf.elim
  rw [wp_bind] at h₂ ⊢
  refine wp_mono h₂ (fun _ st₃ h₃ => ?_) fun _ _ hf => hf.elim
  replace h₃ : st₃.ctx.shape = st.ctx.shape.note (.fclose fd.toNat result.isOk) := h₃
  rw [wp_bind, wp_ofExcept]
  constructor
  · rintro ⟨⟩ rfl
    constructor
    · rw [← usedAt_shape] at hused ⊢
      rw [← h₁]
      exact hused
    · have hset := shape_setFile st₃.ctx fd.toNat .zero
      rw [h₃] at hset
      have hopen : st₃.ctx.openFiles = st.ctx.openFiles := congrArg Shape.openFiles h₃
      show ({ st₃.ctx.setFile fd.toNat .zero with openFiles := _ } : Ctx D).shape = _
      calc _ = { (st₃.ctx.setFile fd.toNat .zero).shape with
            openFiles := st₃.ctx.openFiles - 1 } := rfl
        _ = _ := by rw [hset, hopen]; rfl
  · rintro e rfl
    exact Or.inr (Or.inr ⟨fd.toNat, h₃⟩)

/-- **`opendir`.** -/
theorem wp_vfsLwext4Opendir (name : CStr) :
    wp (vfsLwext4Opendir env name)
      (fun id st' => id = st.ctx.nextDir ∧ st'.ctx.shape = st.ctx.shape.dirOpened)
      (fun _ st' => SameShape st st') st := by
  unfold vfsLwext4Opendir
  rw [wp_bind]
  refine wp_mono (keeps_fullPathOf name) ?_ fun _ _ h => h
  intro fullPath st₁ h₁
  rw [wp_bind]
  refine wp_mono (keeps_onFs (env.idf.allocate 1)) ?_ fun _ _ h => SameShape.trans h₁ h
  intro _ st₂ h₂
  unfold locked
  rw [wp_bind]
  refine wp_mono (keeps_onFs (takeLock env.idf)) ?_
    fun _ _ h => (SameShape.trans h₁ h₂).trans h
  intro _ st₃ h₃
  rw [wp_bind]
  refine wp_mono (keeps_onFs (env.lwext4.dirOpen fullPath)) ?_
    fun _ _ h => ((SameShape.trans h₁ h₂).trans h₃).trans h
  intro directory st₄ h₄
  have hsh : st₄.ctx.shape = st.ctx.shape :=
    ((SameShape.trans h₁ h₂).trans h₃).trans h₄
  unfold updateCtx
  simp only [wp_bind, wp_getState, wp_update, wp_pure]
  refine ⟨congrArg Shape.nextDir hsh, ?_⟩
  rw [← hsh]
  rfl

theorem wp_handleGet {pdir : Option ℕ} {Q : ℕ × EspDir D → MountSt σ D → Prop}
    {E : Errno → MountSt σ D → Prop} (h : ∀ p, p.1 ∈ st.ctx.shape.handles → Q p st)
    (he : E .einval st) : wp (handleGet pdir) Q E st := by
  unfold handleGet
  rw [wp_bind, wp_getState]
  cases pdir with
  | none => exact he
  | some id =>
    cases hfind : st.ctx.dirs.find? fun p => p.1 = id with
    | none => simpa [hfind] using he
    | some p =>
      have hmem := List.mem_of_find?_eq_some hfind
      simpa [hfind] using h p (List.mem_map_of_mem hmem)

/-- **`closedir`.** -/
theorem wp_vfsLwext4Closedir (pdir : Option ℕ) :
    wp (vfsLwext4Closedir env pdir)
      (fun _ st' => ∃ id ∈ st.ctx.shape.handles, st'.ctx.shape = st.ctx.shape.dirClosed id)
      (fun _ st' => SameShape st st') st := by
  unfold vfsLwext4Closedir
  rw [wp_bind]
  refine wp_handleGet (fun _ _ => ?_) rfl
  unfold locked
  rw [wp_bind]
  refine wp_mono (keeps_onFs (takeLock env.idf)) ?_ fun _ _ h => h
  intro _ st₁ h₁
  replace h₁ : st₁.ctx.shape = st.ctx.shape := h₁
  rw [wp_bind]
  refine wp_handleGet (fun p hp => ?_) h₁
  rw [wp_bind]
  refine wp_mono (keeps_handleLens p.1 p.2 _) ?_ fun _ _ h => SameShape.trans h₁ h
  intro _ st₂ h₂
  have hsh : st₂.ctx.shape = st.ctx.shape := SameShape.trans h₁ h₂
  refine (wp_update _).mpr ⟨p.1, h₁ ▸ hp, ?_⟩
  rw [← hsh]
  have hids : (st₂.ctx.dirs.filter fun q => decide (q.1 ≠ p.1)).map Prod.fst =
      (st₂.ctx.dirs.map Prod.fst).filter fun id => decide (id ≠ p.1) := by
    rw [List.filter_map]
    rfl
  unfold Ctx.shape Shape.dirClosed
  simp only [hids]

end Specs

/-! ## Every operation -/

section Operations

variable {env : Env σ D} {st : MountSt σ D}

theorem Shape.Ok.failed {sh sh' : Shape} (h : sh.Ok) (hf : ShapeFailed sh sh') : sh'.Ok := by
  rcases hf with rfl | ⟨fd, rfl⟩ | ⟨fd, rfl⟩
  · exact h
  · exact h.note_fopen2 fd
  · exact h.note_fclose fd

/-- **One step.** Every operation keeps the invariant of the table. -/
theorem shape_ok_exec (op : MountOp) (h : st.ctx.shape.Ok) : (op.exec env st).ctx.shape.Ok := by
  cases hop : op.opens with
  | false =>
    rw [show (op.exec env st).ctx.shape = st.ctx.shape from sameShape_exec op hop]
    exact h
  | true =>
    cases op with
    | open_ path flags =>
      refine final_of_wp (P := fun st' => st'.ctx.shape.Ok)
        (wp_mono (wp_vfsLwext4Open path flags) ?_ fun _ _ hf => h.failed hf)
      rintro fd st' ⟨hlt, hused, fullPath, hne, hshape⟩
      rw [← usedAt_shape] at hused
      rw [hshape]
      exact h.opened hlt hused (hne h.mountPoint_ne)
    | close fd =>
      refine final_of_wp (P := fun st' => st'.ctx.shape.Ok)
        (wp_mono (wp_vfsLwext4Close fd) ?_ fun _ _ hf => h.failed hf)
      rintro _ st' ⟨hused, hshape⟩
      rw [← usedAt_shape] at hused
      rw [hshape]
      exact h.closed hused
    | opendir name =>
      have hsame {st' : MountSt σ D} (hs : SameShape st st') : st'.ctx.shape.Ok := by
        rw [show st'.ctx.shape = st.ctx.shape from hs]
        exact h
      refine final_of_wp (P := fun st' => st'.ctx.shape.Ok)
        (wp_mono (wp_vfsLwext4Opendir name) ?_ fun _ _ => hsame)
      rintro id st' ⟨-, hshape⟩
      rw [hshape]
      exact h.dirOpened
    | closedir pdir =>
      have hsame {st' : MountSt σ D} (hs : SameShape st st') : st'.ctx.shape.Ok := by
        rw [show st'.ctx.shape = st.ctx.shape from hs]
        exact h
      refine final_of_wp (P := fun st' => st'.ctx.shape.Ok)
        (wp_mono (wp_vfsLwext4Closedir pdir) ?_ fun _ _ => hsame)
      rintro _ st' ⟨id, hid, hshape⟩
      rw [hshape]
      exact h.dirClosed hid
    | _ => cases hop

/-- The fields of a shape that no operation changes. -/
structure SameFixed (sh sh' : Shape) : Prop where
  basePath : sh'.basePath = sh.basePath
  mountPoint : sh'.mountPoint = sh.mountPoint
  maxFiles : sh'.maxFiles = sh.maxFiles
  growBuffer : sh'.growBuffer = sh.growBuffer
  readOnly : sh'.readOnly = sh.readOnly

theorem SameFixed.of_eq {sh sh' : Shape} (h : sh' = sh) : SameFixed sh sh' := by
  subst h
  exact ⟨rfl, rfl, rfl, rfl, rfl⟩

theorem SameFixed.of_failed {sh sh' : Shape} (hf : ShapeFailed sh sh') : SameFixed sh sh' := by
  rcases hf with rfl | ⟨fd, rfl⟩ | ⟨fd, rfl⟩
  · exact SameFixed.of_eq rfl
  · exact ⟨rfl, rfl, rfl, rfl, rfl⟩
  · exact ⟨rfl, rfl, rfl, rfl, rfl⟩

theorem SameFixed.of_sameShape {st' : MountSt σ D} (h : SameShape st st') :
    SameFixed st.ctx.shape st'.ctx.shape := SameFixed.of_eq h

theorem sameFixed_exec (op : MountOp) : SameFixed st.ctx.shape (op.exec env st).ctx.shape := by
  cases hop : op.opens with
  | false => exact SameFixed.of_eq (sameShape_exec op hop)
  | true =>
    cases op with
    | open_ path flags =>
      refine final_of_wp (P := fun st' => SameFixed st.ctx.shape st'.ctx.shape)
        (wp_mono (wp_vfsLwext4Open path flags) ?_ fun _ _ hf => SameFixed.of_failed hf)
      rintro fd st' ⟨-, -, fullPath, -, hshape⟩
      rw [hshape]
      exact ⟨rfl, rfl, rfl, rfl, rfl⟩
    | close fd =>
      refine final_of_wp (P := fun st' => SameFixed st.ctx.shape st'.ctx.shape)
        (wp_mono (wp_vfsLwext4Close fd) ?_ fun _ _ hf => SameFixed.of_failed hf)
      rintro _ st' ⟨-, hshape⟩
      rw [hshape]
      exact ⟨rfl, rfl, rfl, rfl, rfl⟩
    | opendir name =>
      refine final_of_wp (P := fun st' => SameFixed st.ctx.shape st'.ctx.shape)
        (wp_mono (wp_vfsLwext4Opendir name) ?_ fun _ _ => SameFixed.of_sameShape)
      rintro id st' ⟨-, hshape⟩
      rw [hshape]
      exact ⟨rfl, rfl, rfl, rfl, rfl⟩
    | closedir pdir =>
      refine final_of_wp (P := fun st' => SameFixed st.ctx.shape st'.ctx.shape)
        (wp_mono (wp_vfsLwext4Closedir pdir) ?_ fun _ _ => SameFixed.of_sameShape)
      rintro _ st' ⟨id, -, hshape⟩
      rw [hshape]
      exact ⟨rfl, rfl, rfl, rfl, rfl⟩
    | _ => cases hop

/-- What names a context never changes. -/
def SameNames (st st' : MountSt σ D) : Prop :=
  st'.ctx.basePath = st.ctx.basePath ∧ st'.ctx.mountPoint = st.ctx.mountPoint

theorem sameNames_exec (op : MountOp) : SameNames st (op.exec env st) :=
  ⟨(sameFixed_exec op).basePath, (sameFixed_exec op).mountPoint⟩

end Operations

/-! ## What a call of the four promises -/

/-- The slots with their paths, and the counters with what they count. -/
def SameTable (st st' : MountSt σ D) : Prop :=
  st'.ctx.shape.slots = st.ctx.shape.slots ∧ st'.ctx.openFiles = st.ctx.openFiles ∧
    st'.ctx.openDirs = st.ctx.openDirs ∧ st'.ctx.shape.handles = st.ctx.shape.handles

theorem sameTable_of_failed {st st' : MountSt σ D}
    (hf : ShapeFailed st.ctx.shape st'.ctx.shape) : SameTable st st' := by
  have key : st'.ctx.shape.slots = st.ctx.shape.slots ∧
      st'.ctx.shape.openFiles = st.ctx.shape.openFiles ∧
      st'.ctx.shape.openDirs = st.ctx.shape.openDirs ∧
      st'.ctx.shape.handles = st.ctx.shape.handles := by
    rcases hf with h | ⟨fd, h⟩ | ⟨fd, h⟩
    · rw [h]
      exact ⟨rfl, rfl, rfl, rfl⟩
    · rw [h]
      exact ⟨rfl, rfl, rfl, rfl⟩
    · rw [h]
      exact ⟨rfl, rfl, rfl, rfl⟩
  exact key

/-- A descriptor that `open` returns was unused, and a call that fails leaves the
table as it was. -/
structure CallsOk (env : Env σ D) (st : MountSt σ D) : Prop where
  open_unused : ∀ path flags fd, (vfsLwext4Open env path flags).answer st = .ok fd →
    st.ctx.usedAt fd = false
  open_failed : ∀ path flags e, (vfsLwext4Open env path flags).answer st = .error e →
    SameTable st ((vfsLwext4Open env path flags).final st)
  close_failed : ∀ fd e, (vfsLwext4Close env fd).answer st = .error e →
    SameTable st ((vfsLwext4Close env fd).final st)
  opendir_failed : ∀ name e, (vfsLwext4Opendir env name).answer st = .error e →
    SameTable st ((vfsLwext4Opendir env name).final st)
  closedir_failed : ∀ pdir e, (vfsLwext4Closedir env pdir).answer st = .error e →
    SameTable st ((vfsLwext4Closedir env pdir).final st)

theorem callsOk (env : Env σ D) (st : MountSt σ D) : CallsOk env st where
  open_unused path flags fd h := ((wp_final.mp (wp_vfsLwext4Open path flags)).1 fd h).2.1
  open_failed path flags e h :=
    sameTable_of_failed ((wp_final.mp (wp_vfsLwext4Open path flags)).2 e h)
  close_failed fd e h := sameTable_of_failed ((wp_final.mp (wp_vfsLwext4Close fd)).2 e h)
  opendir_failed name e h :=
    sameTable_of_failed (Or.inl ((wp_final.mp (wp_vfsLwext4Opendir name)).2 e h))
  closedir_failed pdir e h :=
    sameTable_of_failed (Or.inl ((wp_final.mp (wp_vfsLwext4Closedir pdir)).2 e h))

end EspLwext4.Port
