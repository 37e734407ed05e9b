import EspLwext4.Port.Ram

/-!
# One context for one lwext4 mount

`register` compares the normalized mount-point strings, but lwext4 resolves a
string to the mount whose name is a prefix of it, so two strings can denote one
mount. The contexts stay apart in every run in which no accepted string is a new
spelling of a mount that is already served.
-/

namespace EspLwext4.Port

open Runs

section Registry

variable {σ D : Type} {env : Env σ D} {w : World σ D}

/-- No two contexts have one base path, and no two serve one lwext4 mount. -/
def Unique (mountOf : CStr → Option CStr) (w : World σ D) : Prop :=
  w.contexts.Pairwise fun a b => a.basePath ≠ b.basePath ∧
    ∀ k, mountOf a.mountPoint = some k → mountOf b.mountPoint ≠ some k

/-- A registration that passes the checks of the code does not spell in a new way a
mount that a registered context serves. -/
def NoAlias (mountOf : CStr → Option CStr) (env : Env σ D) (w : World σ D) : WorldOp → Prop
  | .register conf => ∀ m, conf.accepted env.idf = true →
      normalizeMountPoint env.idf.ext4MaxMpName conf.mountPoint = some m →
      (∀ ctx ∈ w.contexts, ctx.basePath ≠ conf.basePath ∧ ctx.mountPoint ≠ m) →
      ∀ ctx ∈ w.contexts, ∀ k, mountOf m = some k → mountOf ctx.mountPoint ≠ some k
  | _ => True

variable {mountOf : CStr → Option CStr}

/-- Uniqueness is about the strings of the contexts. -/
theorem unique_of_names {w' : World σ D}
    (h : w'.contexts.map Ctx.names = w.contexts.map Ctx.names) (hu : Unique mountOf w) :
    Unique mountOf w' := by
  have key (l : List (Ctx D)) : (l.Pairwise fun a b => a.basePath ≠ b.basePath ∧
        ∀ k, mountOf a.mountPoint = some k → mountOf b.mountPoint ≠ some k) ↔
      (l.map Ctx.names).Pairwise fun a b => a.1 ≠ b.1 ∧
        ∀ k, mountOf a.2 = some k → mountOf b.2 ≠ some k := by
    rw [List.pairwise_map]
    rfl
  unfold Unique at hu ⊢
  rw [key] at hu ⊢
  rw [h]
  exact hu

/-- **One step.** -/
theorem unique_exec (op : WorldOp) (hu : Unique mountOf w) (hop : NoAlias mountOf env w op) :
    Unique mountOf (op.exec env w) := by
  have hsame {w' : World σ D} (hw : SameContexts w w') : Unique mountOf w' :=
    unique_of_names (by rw [show w'.contexts = w.contexts from hw]) hu
  cases op with
  | register conf =>
    refine Prog.final_of_wp (P := Unique mountOf)
      (Prog.wp_mono (wp_espVfsLwext4Register conf) ?_ fun _ _ => hsame)
    rintro _ w' ⟨hacc, m, hm, hw', hnew⟩
    unfold Unique
    rw [hw']
    refine List.pairwise_cons.mpr ⟨fun ctx hctx => ?_, hu⟩
    exact ⟨(hnew ctx hctx).1.symm, hop m hacc hm hnew ctx hctx⟩
  | unregister basePath =>
    refine Prog.final_of_wp (P := Unique mountOf)
      (Prog.wp_mono (wp_espVfsLwext4Unregister basePath) ?_ fun _ _ => hsame)
    rintro _ w' ⟨_, -, -, -, hw'⟩
    unfold Unique
    rw [hw']
    exact hu.sublist (List.eraseP_sublist ..)
  | mount basePath op =>
    exact unique_of_names (names_stepContext (fun _ => sameNames_exec op) w.contexts) hu
  | rmdirRecurse path =>
    exact hsame (Prog.keeps_final.mp (keeps_espVfsLwext4RmdirRecurse path))

/-- **Unique contexts.** In every run in which no accepted mount point is another
spelling of a mount already served, no state has two contexts with one base path or
one mount. -/
theorem contexts_unique (mountOf : CStr → Option CStr) (env : Env σ D) (fs : σ)
    (ops : List WorldOp)
    (h : Along (WorldOp.exec env) (NoAlias mountOf env) (World.init fs) ops) (n : ℕ) :
    Unique mountOf (run (WorldOp.exec env) (World.init fs) (ops.take n)) :=
  run_keeps (I := Unique mountOf) (fun _ op hI hC => unique_exec op hI hC) (along_take h n)
    List.Pairwise.nil

end Registry

/-! ## Two spellings of one mount -/

namespace Ram

/-- The mount a path is resolved to. -/
def mountOf (s : Ram) (p : CStr) : Option CStr := s.mounts.find? (·.isPrefixOf p)

/-- `"/ext"`, `"/ext/"`, `"/ext/sub"`, `"/a"` and `"/b"` -/
def extName : CStr := [47, 101, 120, 116]
def extMount : CStr := [47, 101, 120, 116, 47]
def extSub : CStr := [47, 101, 120, 116, 47, 115, 117, 98]
def baseA : CStr := [47, 97]
def baseB : CStr := [47, 98]

def onExt : Ram := { blank with mounts := [extMount] }

/-- A filesystem at `/ext/` and another at `/`, each registered once. -/
def twoMounts : List WorldOp :=
  [.register ⟨baseA, extName, 4, false⟩, .register ⟨baseB, [slash], 4, false⟩]

/-- The mount `/ext/` registered as `/ext`, and again as `/ext/sub`. -/
def aliased : List WorldOp :=
  [.register ⟨baseA, extName, 4, false⟩, .register ⟨baseB, extSub, 4, false⟩]

/-- Both registrations succeed, and both contexts serve `/ext/`. -/
theorem one_mount_registered_twice :
    let w := run (WorldOp.exec env) (World.init onExt) aliased
    w.contexts.map Ctx.names = [(baseB, extSub ++ [slash]), (baseA, extMount)] ∧
      mountOf onExt (extSub ++ [slash]) = some extMount ∧ mountOf onExt extMount = some extMount ∧
      ¬ Unique (mountOf onExt) w := by
  have hnames : (run (WorldOp.exec env) (World.init onExt) aliased).contexts.map Ctx.names =
      [(baseB, extSub ++ [slash]), (baseA, extMount)] := by decide
  refine ⟨hnames, by decide, by decide, fun hu => ?_⟩
  unfold Unique at hu
  have hpair : ([(baseB, extSub ++ [slash]), (baseA, extMount)] : List (CStr × CStr)).Pairwise
      fun a b => a.1 ≠ b.1 ∧ ∀ k, mountOf onExt a.2 = some k → mountOf onExt b.2 ≠ some k := by
    rw [← hnames]
    exact List.pairwise_map.mpr hu
  have hne := (List.pairwise_cons.mp hpair).1 _ List.mem_cons_self
  exact hne.2 extMount (by decide) (by decide)

/-- The two mounts of one volume stay apart. -/
theorem two_mounts_apart :
    Unique (mountOf { onExt with mounts := [extMount, [slash]] })
      (run (WorldOp.exec env) (World.init { onExt with mounts := [extMount, [slash]] })
        (twoMounts.take 2)) := by
  refine contexts_unique _ _ _ _ ?_ 2
  refine ⟨?_, ?_, trivial⟩
  · intro m _ _ _ ctx hctx
    exact nomatch hctx
  · intro m _ hm _ ctx hctx k hk
    have hnames : ctx.names ∈ [(baseA, extMount)] := by
      have h₁ : (WorldOp.exec env (World.init { onExt with mounts := [extMount, [slash]] })
          (.register ⟨baseA, extName, 4, false⟩)).contexts.map Ctx.names =
          [(baseA, extMount)] := by decide
      rw [← h₁]
      exact List.mem_map_of_mem hctx
    have hpoint : ctx.mountPoint = extMount := by
      rw [List.mem_singleton] at hnames
      exact congrArg Prod.snd hnames
    have hm' : m = [slash] := by
      have : normalizeMountPoint env.idf.ext4MaxMpName [slash] = some [slash] := by decide
      rw [this] at hm
      exact (Option.some.inj hm).symm
    rw [hm'] at hk
    rw [hpoint]
    intro hk'
    rw [← hk] at hk'
    revert hk'
    decide

end Ram

end EspLwext4.Port
