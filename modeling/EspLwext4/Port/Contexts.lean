import EspLwext4.Port.Table

/-!
# The registered contexts

What `register` and `unregister` do to the list of contexts, and what holds of
that list in every reachable state: base paths are unique, and the table of every
context is consistent. Two contexts may still serve one lwext4 mount, when the
strings given for it differ.
-/

namespace EspLwext4.Port

open Prog Runs

variable {σ D : Type} {env : Env σ D} {w : World σ D}

/-! ## The operations on the list -/

/-- The operation left the list of contexts alone. -/
def SameContexts (w w' : World σ D) : Prop := w'.contexts = w.contexts

instance : StepRel (SameContexts : World σ D → World σ D → Prop) where
  refl _ := rfl
  trans h h' := Eq.trans h' h

theorem keeps_onWorldFs {α : Type} (e : EspErr) (m : Call σ α) :
    Keeps SameContexts (onWorldFs e m : WorldCall σ D α) w := by
  unfold Keeps onWorldFs
  rw [wp_mapErr, wp_zoom]
  exact wp_of_forall (fun _ _ => rfl) fun _ _ => rfl

theorem keeps_contextsLockGet : Keeps SameContexts (contextsLockGet env) w := by
  unfold contextsLockGet
  refine Keeps.bind (show SameContexts w w from rfl) fun _ _ => Keeps.whenever fun _ => ?_
  exact Keeps.bind (keeps_onWorldFs _ _) fun _ w' => show SameContexts w' _ from rfl

theorem keeps_makeContext (conf : Conf) : Keeps SameContexts (makeContext env conf) w := by
  have alloc {α : Type} (m : Call σ α) {w : World σ D} :
      Keeps SameContexts (onWorldFs .noMem m : WorldCall σ D α).attempt w :=
    (keeps_onWorldFs _ _).attempt
  unfold makeContext
  refine Keeps.bind (keeps_onWorldFs _ _) fun _ _ => ?_
  refine Keeps.bind (alloc _) fun basePath _ => ?_
  refine Keeps.bind (alloc _) fun mountPoint _ => ?_
  refine Keeps.bind (alloc _) fun files _ => ?_
  refine Keeps.bind (alloc _) fun lock _ => ?_
  refine Keeps.bind (Keeps.whenever fun _ => keeps_onWorldFs _ _).attempt fun growBuffer _ => ?_
  refine Keeps.bind (Keeps.ofExcept _) fun _ _ => Keeps.bind (Keeps.ofExcept _) fun _ _ => ?_
  refine Keeps.bind (Keeps.ofExcept _) fun _ _ => Keeps.bind (Keeps.ofExcept _) fun _ _ => ?_
  refine Keeps.bind (Keeps.ofExcept _) fun _ _ => Keeps.bind (Keeps.failIf _ _) fun _ _ => ?_
  exact Keeps.pure _

/-- A context that is made is a new one for the normalized mount point. -/
theorem wp_makeContext (conf : Conf) :
    wp (makeContext env conf)
      (fun ctx _ => ∃ m, normalizeMountPoint env.idf.ext4MaxMpName conf.mountPoint = some m ∧
        ctx = Ctx.new env.idf conf m) (fun _ _ => True) w := by
  have skip {α β : Type} (m : WorldCall σ D α) (f : α → WorldCall σ D β)
      {Q : β → World σ D → Prop} {w : World σ D} (h : ∀ a w', wp (f a) Q (fun _ _ => True) w') :
      wp (m >>= f) Q (fun _ _ => True) w := by
    rw [wp_bind]
    exact wp_of_forall h fun _ _ => trivial
  unfold makeContext
  refine skip _ _ fun _ _ => skip _ _ fun basePath w₂ => ?_
  simp only []
  rw [wp_bind, wp_attempt]
  unfold onWorldFs
  rw [wp_mapErr, wp_zoom]
  cases hm : normalizeMountPoint env.idf.ext4MaxMpName conf.mountPoint with
  | none =>
    refine (wp_raise _).mpr (skip _ _ fun files _ => skip _ _ fun lock _ => skip _ _ fun grow _ => ?_)
    refine skip _ _ fun _ _ => ?_
    rw [wp_bind, wp_ofExcept]
    exact ⟨fun _ h => (by cases h), fun _ _ => trivial⟩
  | some m =>
    simp only []
    rw [wp_bind]
    refine wp_of_forall (fun _ fs => (wp_pure m).mpr ?_) fun e fs => ?_
    · refine skip _ _ fun files _ => skip _ _ fun lock _ => skip _ _ fun grow _ => ?_
      refine skip _ _ fun _ _ => ?_
      rw [wp_bind, wp_ofExcept]
      refine ⟨?_, fun _ _ => trivial⟩
      rintro _ ⟨⟩
      refine skip _ _ fun _ _ => skip _ _ fun _ _ => skip _ _ fun _ _ => skip _ _ fun _ _ => ?_
      exact ⟨m, rfl, rfl⟩
    · refine skip _ _ fun files _ => skip _ _ fun lock _ => skip _ _ fun grow _ => ?_
      refine skip _ _ fun _ _ => ?_
      rw [wp_bind, wp_ofExcept]
      exact ⟨fun _ h => (by cases h), fun _ _ => trivial⟩

/-- **`register`.** The new context is the only change, and its strings are new. -/
theorem wp_espVfsLwext4Register (conf : Conf) :
    wp (espVfsLwext4Register env conf)
      (fun _ w' => conf.accepted env.idf = true ∧
        ∃ m, normalizeMountPoint env.idf.ext4MaxMpName conf.mountPoint = some m ∧
        w'.contexts = Ctx.new env.idf conf m :: w.contexts ∧
        ∀ item ∈ w.contexts, item.basePath ≠ conf.basePath ∧ item.mountPoint ≠ m)
      (fun _ => SameContexts w) w := by
  unfold espVfsLwext4Register
  rw [wp_bind, wp_failIf]
  refine ⟨fun _ => rfl, fun hacc => ?_⟩
  rw [not_not] at hacc
  rw [wp_bind]
  refine wp_mono (wp_and (keeps_makeContext conf) (wp_makeContext conf)) ?_ fun _ _ h => h.1
  rintro ctx w₁ ⟨h₁, m, hm, rfl⟩
  rw [wp_bind]
  refine wp_mono (keeps_onWorldFs _ _) ?_ fun _ _ h => StepRel.trans h₁ h
  intro _ w₂ h₂
  rw [wp_bind]
  refine wp_mono keeps_contextsLockGet ?_ fun _ _ h => StepRel.trans (StepRel.trans h₁ h₂) h
  intro _ w₃ h₃
  rw [wp_bind]
  refine wp_mono (keeps_onWorldFs _ _) ?_
    fun _ _ h => StepRel.trans (StepRel.trans (StepRel.trans h₁ h₂) h₃) h
  intro _ w₄ h₄
  have hsame : w₄.contexts = w.contexts :=
    (h₄.trans h₃).trans (h₂.trans h₁)
  simp only [wp_bind, wp_getState, wp_failIf, wp_update]
  refine ⟨fun _ => hsame, fun hnew => ⟨fun _ => hsame, fun _ => ?_⟩⟩
  refine ⟨hacc, m, hm, congrArg _ hsame, fun item hitem => ?_⟩
  rw [← hsame] at hitem
  constructor
  · intro hb
    exact hnew (List.any_eq_true.mpr ⟨item, hitem, by simp [Ctx.new, hb]⟩)
  · intro hb
    exact hnew (List.any_eq_true.mpr ⟨item, hitem, by simp [Ctx.new, hb]⟩)

/-- **`unregister`.** A context is dropped only when both its counters are zero. -/
theorem wp_espVfsLwext4Unregister (basePath : CStr) :
    wp (espVfsLwext4Unregister env basePath)
      (fun _ w' => ∃ ctx, (w.contexts.find? fun c => c.basePath == basePath) = some ctx ∧
        ctx.openFiles = 0 ∧ ctx.openDirs = 0 ∧
        w'.contexts = w.contexts.eraseP fun c => c.basePath == basePath)
      (fun _ => SameContexts w) w := by
  unfold espVfsLwext4Unregister
  rw [wp_bind]
  refine wp_mono keeps_contextsLockGet ?_ fun _ _ h => h
  intro _ w₁ h₁
  rw [wp_bind]
  refine wp_mono (keeps_onWorldFs _ _) ?_ fun _ _ h => StepRel.trans h₁ h
  intro _ w₂ h₂
  rw [wp_bind, wp_getState]
  have hsame : w₂.contexts = w.contexts := h₂.trans h₁
  cases hfind : w₂.contexts.find? fun c => c.basePath == basePath with
  | none => exact hsame
  | some ctx =>
    simp only
    rw [wp_bind]
    refine wp_mono (keeps_onWorldFs _ _) ?_ fun _ _ h => StepRel.trans (StepRel.trans h₁ h₂) h
    intro _ w₃ h₃
    have hsame' : w₃.contexts = w.contexts := h₃.trans hsame
    simp only [wp_bind, wp_getState, wp_failIf, wp_update]
    refine ⟨fun _ => hsame', fun hzero => ⟨fun _ => hsame', fun _ => ?_⟩⟩
    rw [not_or, not_not, not_not] at hzero
    refine ⟨ctx, hsame ▸ hfind, hzero.1, hzero.2, ?_⟩
    show w₃.contexts.eraseP _ = _
    rw [hsame']

/-- **`rmdir_recurse`.** -/
theorem keeps_espVfsLwext4RmdirRecurse (path : CStr) :
    Keeps SameContexts (espVfsLwext4RmdirRecurse env path) w := by
  unfold espVfsLwext4RmdirRecurse
  refine Keeps.bind (Keeps.failIf _ _) fun _ _ => Keeps.bind keeps_contextsLockGet fun _ _ => ?_
  refine Keeps.bind (keeps_onWorldFs _ _) fun _ w₁ => ?_
  refine Keeps.bind (show SameContexts w₁ w₁ from rfl) fun w₂ w₃ => ?_
  cases chooseContext path w₂.contexts with
  | none => exact Keeps.raise _
  | some ctx =>
    unfold Keeps wp
    simp only
    cases rmdirRecurseOn env (path.drop ctx.basePath.length) ⟨w₃.fs, ctx⟩ with
    | ok _ st => exact rfl
    | err e st => exact rfl
    | fault x => exact x.elim

/-! ## An operation on one context -/

/-- One context, the first at that base path, has made the step; the others stay. -/
theorem mem_stepContext {basePath : CStr} {f : MountSt σ D → MountSt σ D} {fs : σ}
    {contexts : List (Ctx D)} {ctx : Ctx D}
    (h : ctx ∈ (stepContext basePath f fs contexts).2) :
    ctx ∈ contexts ∨ ∃ ctx₀ ∈ contexts, ctx = (f ⟨fs, ctx₀⟩).ctx := by
  induction contexts with
  | nil => cases h
  | cons c rest ih =>
    unfold stepContext at h
    split at h
    · rcases List.mem_cons.mp h with rfl | hrest
      · exact Or.inr ⟨c, List.mem_cons_self, rfl⟩
      · exact Or.inl (List.mem_cons_of_mem _ hrest)
    · rcases List.mem_cons.mp h with rfl | hrest
      · exact Or.inl List.mem_cons_self
      · rcases ih hrest with hmem | ⟨ctx₀, hmem, rfl⟩
        · exact Or.inl (List.mem_cons_of_mem _ hmem)
        · exact Or.inr ⟨ctx₀, List.mem_cons_of_mem _ hmem, rfl⟩

/-- What names a context. -/
def Ctx.names (ctx : Ctx D) : CStr × CStr := (ctx.basePath, ctx.mountPoint)

theorem names_stepContext {basePath : CStr} {f : MountSt σ D → MountSt σ D} {fs : σ}
    (hf : ∀ st, SameNames st (f st)) (contexts : List (Ctx D)) :
    (stepContext basePath f fs contexts).2.map Ctx.names = contexts.map Ctx.names := by
  induction contexts with
  | nil => rfl
  | cons c rest ih =>
    unfold stepContext
    split
    · obtain ⟨hb, hm⟩ := hf ⟨fs, c⟩
      exact congrArg (· :: _) (Prod.ext hb hm)
    · exact congrArg (_ :: ·) ih

/-! ## Tables in every reachable state -/

theorem shape_ok_new {idf : Idf σ} {conf : Conf} {m : CStr} (hm : m ≠ []) :
    (Ctx.new idf conf m : Ctx D).shape.Ok where
  slots_length := by simp [Ctx.new, Ctx.shape]
  openFiles_eq := by
    simp [Ctx.new, Ctx.shape, List.countP_replicate, EspFile.zero, EspFile.slot]
  openDirs_eq := rfl
  handles_nodup := List.nodup_nil
  handles_lt := fun _ h => nomatch h
  mountPoint_ne := hm
  path_ne := by
    intro slot hslot hused
    simp only [Ctx.new, Ctx.shape, List.map_replicate, List.mem_replicate] at hslot
    rw [hslot.2] at hused
    cases hused
  openedOnce := trivial
  isOpen_eq := by
    intro fd
    unfold Shape.usedAt Ctx.new Ctx.shape
    simp only [List.map_replicate]
    by_cases hfd : fd < conf.maxFiles
    · rw [List.getD_eq_getElem _ _ (by simpa using hfd), List.getElem_replicate]
      rfl
    · rw [List.getD_eq_default _ _ (by simpa using hfd)]
      rfl

theorem normalizeMountPoint_ne_nil {maxName : ℕ} {mountPoint m : CStr}
    (h : normalizeMountPoint maxName mountPoint = some m) : m ≠ [] := by
  unfold normalizeMountPoint at h
  rintro rfl
  split_ifs at h with h₁ h₂
  obtain ⟨-, h⟩ : _ ∧ _ := by simpa using h
  by_cases hs : mountPoint.getLast? = some slash
  · rw [if_pos hs] at h
    exact h₂ (Or.inl (by rw [h]; rfl))
  · rw [if_neg hs] at h
    exact List.cons_ne_nil _ _ (List.append_eq_nil_iff.mp h).2

/-- Every registered context has a consistent table. -/
def TablesOk (w : World σ D) : Prop := ∀ ctx ∈ w.contexts, ctx.shape.Ok

/-- **One step of the registry.** -/
theorem tablesOk_exec (op : WorldOp) (h : TablesOk w) : TablesOk (op.exec env w) := by
  have hsame {w' : World σ D} (hw : SameContexts w w') : TablesOk w' := by
    intro ctx hctx
    exact h ctx (hw ▸ hctx)
  cases op with
  | register conf =>
    refine final_of_wp (P := TablesOk) (wp_mono (wp_espVfsLwext4Register conf) ?_
      fun _ _ => hsame)
    rintro _ w' ⟨-, m, hm, hw', -⟩ ctx hctx
    rw [hw'] at hctx
    rcases List.mem_cons.mp hctx with rfl | hmem
    · exact shape_ok_new (normalizeMountPoint_ne_nil hm)
    · exact h ctx hmem
  | unregister basePath =>
    refine final_of_wp (P := TablesOk) (wp_mono (wp_espVfsLwext4Unregister basePath) ?_
      fun _ _ => hsame)
    rintro _ w' ⟨_, -, -, -, hw'⟩ ctx hctx
    rw [hw'] at hctx
    exact h ctx (List.mem_of_mem_eraseP hctx)
  | mount basePath op =>
    intro ctx hctx
    rcases mem_stepContext hctx with hmem | ⟨ctx₀, hmem, rfl⟩
    · exact h ctx hmem
    · exact shape_ok_exec op (h ctx₀ hmem)
  | rmdirRecurse path => exact hsame (keeps_final.mp (keeps_espVfsLwext4RmdirRecurse path))

/-- No slot is used and no directory handle is open. -/
def Idle (ctx : Ctx D) : Prop := (∀ fd, ctx.usedAt fd = false) ∧ ctx.dirs = []

/-- `unregister` frees idle contexts only. -/
theorem idle_of_unregistered (h : TablesOk w) {basePath : CStr} {ctx : Ctx D}
    (hctx : ctx ∈ w.contexts)
    (hgone : ctx ∉ ((espVfsLwext4Unregister env basePath).final w).contexts) : Idle ctx := by
  refine final_of_wp (m := espVfsLwext4Unregister env basePath) (s := w)
    (P := fun w' => ctx ∉ w'.contexts → Idle ctx)
    (wp_mono (wp_espVfsLwext4Unregister basePath) ?_ fun _ w' hw hn => ?_) hgone
  · rintro _ w' ⟨found, hfind, hfiles, hdirs, hw'⟩ hn
    have hctx' : ctx = found := by
      rw [hw'] at hn
      rcases List.exists_or_eq_self_of_eraseP (fun c : Ctx D => c.basePath == basePath)
        w.contexts with hself | ⟨a, l₁, l₂, hl₁, ha, hl, herase⟩
      · rw [hself] at hn
        exact absurd hctx hn
      · rw [herase] at hn
        rw [hl] at hctx hfind
        have hfound : found = a := by
          rw [List.find?_append, List.find?_eq_none.mpr fun x hx => by simpa using hl₁ x hx] at hfind
          simpa [ha] using hfind.symm
        rcases List.mem_append.mp hctx with hm | hm
        · exact absurd (List.mem_append_left _ hm) hn
        · rcases List.mem_cons.mp hm with rfl | hm
          · exact hfound.symm
          · exact absurd (List.mem_append_right _ hm) hn
    have hidle := (h ctx hctx).idle (hctx' ▸ hfiles) (hctx' ▸ hdirs)
    refine ⟨fun fd => (usedAt_shape ctx fd).symm.trans (hidle.1 fd), ?_⟩
    exact List.map_eq_nil_iff.mp hidle.2
  · rw [hw] at hn
    exact absurd hctx hn

/-- **The table and the counters.** In every state that any run of registrations,
unregistrations and operations reaches, whatever lwext4, the allocator, the locks
and the VFS answer: the counters of each context count its used slots, at most
`max_files`, and its open directories; each used slot owns a path and a file that
lwext4 opened once and has not closed; a descriptor that `open` returns was unused,
and a failing `open`, `close`, `opendir` or `closedir` leaves the table as it was;
and `unregister` frees a context only when nothing is open in it. -/
theorem table_consistent (env : Env σ D) (fs : σ) (ops : List WorldOp) :
    let w := run (WorldOp.exec env) (World.init fs) ops
    (∀ ctx ∈ w.contexts, ctx.shape.Ok ∧ ctx.openFiles ≤ ctx.maxFiles ∧ CallsOk env ⟨w.fs, ctx⟩) ∧
      ∀ basePath, ∀ ctx ∈ w.contexts,
        ctx ∉ ((espVfsLwext4Unregister env basePath).final w).contexts → Idle ctx := by
  intro w
  have h : TablesOk w :=
    run_keeps (I := TablesOk) (C := fun _ _ => True) (fun _ op hI _ => tablesOk_exec op hI)
      (along_of_forall fun _ _ => trivial) fun _ hctx => nomatch hctx
  constructor
  · intro ctx hctx
    exact ⟨h ctx hctx, (h ctx hctx).openFiles_le, callsOk env _⟩
  · intro basePath ctx hctx hgone
    exact idle_of_unregistered h hctx hgone

end EspLwext4.Port
