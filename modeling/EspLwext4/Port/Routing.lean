import EspLwext4.Port.Components
import EspLwext4.Port.Mounts

/-!
# Routing of the recursive removal

The ESP-IDF VFS routes a path to the registration with the longest base path that the path
continues at a component boundary, whatever filesystem registered it.
`esp_vfs_lwext4_rmdir_recurse` looks for that registration among the contexts of the adapter
only, so a filesystem of another kind that is mounted below an lwext4 mount is passed over.
-/

namespace EspLwext4.Port

open Prog Runs

/-! ## The router -/

/-- `path` is `base`, or goes on behind it with a slash. -/
def ComponentPrefix (base path : CStr) : Prop :=
  ∃ rest, path = base ++ rest ∧ (rest = [] ∨ rest.head? = some slash)

theorem prefixMatches_iff {path base : CStr} :
    prefixMatches path base = true ↔ ComponentPrefix base path := by
  unfold prefixMatches ComponentPrefix
  rw [Bool.and_eq_true, Bool.or_eq_true, List.isPrefixOf_iff_prefix, beq_iff_eq, beq_iff_eq]
  constructor
  · rintro ⟨⟨rest, rfl⟩, hrest⟩
    rw [List.drop_left] at hrest
    exact ⟨rest, rfl, hrest⟩
  · rintro ⟨rest, rfl, hrest⟩
    rw [List.drop_left]
    exact ⟨List.prefix_append _ _, hrest⟩

section Contexts

variable {σ D : Type}

/-- The VFS routes `path` to `ctx`: its base path is the longest that matches, among those of
the contexts and among those that other filesystems registered. -/
structure RoutesTo (others : List CStr) (contexts : List (Ctx D)) (path : CStr) (ctx : Ctx D) :
    Prop where
  registered : ctx ∈ contexts
  matching : ComponentPrefix ctx.basePath path
  longest : ∀ item ∈ contexts, ComponentPrefix item.basePath path →
    item.basePath.length ≤ ctx.basePath.length
  owned : ∀ base ∈ others, ComponentPrefix base path → base.length < ctx.basePath.length

/-- Another filesystem has a matching base path at least as long as the one chosen. -/
def Shadowed (others : List CStr) (contexts : List (Ctx D)) (path : CStr) : Prop :=
  ∃ ctx, chooseContext path contexts = some ctx ∧
    ∃ base ∈ others, ComponentPrefix base path ∧ ctx.basePath.length ≤ base.length

/-- What the loop over the contexts has chosen. -/
structure ChosenAmong (path : CStr) (seen : List (Ctx D)) (chosen : Option (Ctx D)) : Prop where
  matching : ∀ ctx, chosen = some ctx → ctx ∈ seen ∧ ComponentPrefix ctx.basePath path
  longest : ∀ item ∈ seen, ComponentPrefix item.basePath path →
    item.basePath.length ≤ chosen.elim 0 fun c => c.basePath.length

/-- One round of the loop. -/
theorem ChosenAmong.step {path : CStr} {seen : List (Ctx D)} {chosen : Option (Ctx D)}
    (h : ChosenAmong path seen chosen) (item : Ctx D) :
    ChosenAmong path (seen ++ [item])
      (if prefixMatches path item.basePath = true ∧
        (chosen.elim 0 fun c => c.basePath.length) < item.basePath.length then some item
      else chosen) := by
  by_cases hbetter : prefixMatches path item.basePath = true ∧
      (chosen.elim 0 fun c => c.basePath.length) < item.basePath.length
  · rw [if_pos hbetter]
    constructor
    · rintro ctx ⟨⟩
      exact ⟨List.mem_append_right _ (List.mem_singleton_self _), prefixMatches_iff.mp hbetter.1⟩
    · intro other hother hmatch
      rcases List.mem_append.mp hother with hold | hnew
      · exact Nat.le_of_lt (Nat.lt_of_le_of_lt (h.longest other hold hmatch) hbetter.2)
      · rw [List.mem_singleton.mp hnew]
        exact Nat.le_refl _
  · rw [if_neg hbetter]
    constructor
    · intro ctx hctx
      obtain ⟨hmem, hmatch⟩ := h.matching ctx hctx
      exact ⟨List.mem_append_left _ hmem, hmatch⟩
    · intro other hother hmatch
      rcases List.mem_append.mp hother with hold | hnew
      · exact h.longest other hold hmatch
      · rw [List.mem_singleton.mp hnew] at hmatch ⊢
        exact Nat.le_of_not_lt fun hlt => hbetter ⟨prefixMatches_iff.mpr hmatch, hlt⟩

/-- **The loop** chooses a longest base path among those of the contexts. -/
theorem chooseContext_chosen (path : CStr) (contexts : List (Ctx D)) :
    ChosenAmong path contexts (chooseContext path contexts) := by
  induction contexts using List.reverseRecOn with
  | nil =>
    constructor
    · intro ctx h
      cases h
    · intro item h
      cases h
  | append_singleton contexts item ih =>
    have hstep := ih.step item
    unfold chooseContext at hstep ⊢
    rw [List.foldl_append]
    exact hstep

/-- The VFS agrees with the choice exactly when it is not shadowed. -/
theorem routesTo_iff {others : List CStr} {contexts : List (Ctx D)} {path : CStr} {ctx : Ctx D}
    (h : chooseContext path contexts = some ctx) :
    RoutesTo others contexts path ctx ↔ ¬ Shadowed others contexts path := by
  have hchosen := chooseContext_chosen path contexts
  rw [h] at hchosen
  constructor
  · rintro hroutes ⟨ctx', h', base, hbase, hmatch, hle⟩
    obtain rfl : ctx = ctx' := Option.some.inj (h.symm.trans h')
    have hlt := hroutes.owned base hbase hmatch
    omega
  · intro hshadow
    obtain ⟨hmem, hmatch⟩ := hchosen.matching ctx rfl
    refine ⟨hmem, hmatch, hchosen.longest, fun base hbase hb => ?_⟩
    by_contra hlt
    exact hshadow ⟨ctx, h, base, hbase, hb, Nat.le_of_not_lt hlt⟩

end Contexts

section Adapter

variable {σ D : Type} (env : Env σ D)

/-! ## The call up to the removal -/

/-- The lookups before `ext4_dir_rm`. -/
def directoryExists (path : CStr) : Call σ Unit := do
  let result ← (env.lwext4.inodeExist path .dir).attempt
  match result with
  | .ok _ => pure ()
  | .error e =>
    failIf (e ≠ .enoent) e
    env.lwext4.inodeExist path .unknown
    raise .enotdir

/-- `rmdirRecurseOn` up to the removal, with the path it is to remove. -/
def recurseChecks (relativePath : CStr) : Prog Empty EspErr (MountSt σ D) CStr := do
  mapErr (fun _ => .fail) (onFs (takeLock env.idf))
  let st ← getState
  failIf (pathIsMountRoot relativePath = true ∨ pathHasDotComponent relativePath = true)
    .invalidArg
  failIf (st.ctx.readOnly = true ∨ st.ctx.openFiles ≠ 0 ∨ st.ctx.openDirs ≠ 0) .invalidState
  let lwext4Path ← mapErr (fun e => if e = .enomem then .noMem else .invalidArg)
    (fullPathOf env relativePath)
  mapErr lwext4ErrorToEsp (onFs (directoryExists env lwext4Path))
  return lwext4Path

/-- A context as a mount of its own. -/
def World.mountLens (ctx : Ctx D) : Lens (World σ D) (MountSt σ D) where
  get w := ⟨w.fs, ctx⟩
  set st w := { w with fs := st.fs }

/-- `esp_vfs_lwext4_rmdir_recurse` up to the removal: the context and the path. -/
def removalChecks (path : CStr) : WorldCall σ D (Ctx D × CStr) := do
  failIf (path.head? ≠ some slash) .invalidArg
  contextsLockGet env
  onWorldFs .fail (takeLock env.idf)
  let w ← getState
  match chooseContext path w.contexts with
  | none => raise .notSupported
  | some ctx => do
    let lwext4Path ← zoom (World.mountLens ctx) (recurseChecks env (path.drop ctx.basePath.length))
    return (ctx, lwext4Path)

/-- The removal. -/
def removal (lwext4Path : CStr) : WorldCall σ D Unit :=
  mapErr lwext4ErrorToEsp (zoom World.fsLens (env.lwext4.dirRm lwext4Path))

variable {env}

theorem mapErr_onFs_bind {α β : Type} (f : Errno → EspErr) (m : Call σ α) (k : α → Call σ β) :
    mapErr f (onFs (m >>= k) : Call (MountSt σ D) β) =
      mapErr f (onFs m) >>= fun a => mapErr f (onFs (k a)) := by
  funext st
  cases hm : m st.fs with
  | ok a fs =>
    have hl : (m >>= k) st.fs = k a fs := bind_of_ok hm
    have hr : mapErr f (onFs m) st = .ok a { st with fs := fs } := by
      unfold mapErr onFs
      rw [zoom_of_ok hm]
      rfl
    rw [bind_of_ok hr]
    unfold mapErr onFs zoom
    simp only [MountSt.fsLens, hl]
  | err e fs =>
    have hl : (m >>= k) st.fs = .err e fs := bind_of_err hm
    have hr : mapErr f (onFs m) st = .err (f e) { st with fs := fs } := by
      unfold mapErr onFs
      rw [zoom_of_err hm]
      rfl
    rw [bind_of_err hr]
    unfold mapErr onFs
    rw [zoom_of_err hl]
    rfl
  | fault x => exact x.elim

theorem rmdirRecurseLocked_eq (path : CStr) :
    rmdirRecurseLocked env path = directoryExists env path >>= fun _ => env.lwext4.dirRm path := by
  unfold rmdirRecurseLocked directoryExists
  rw [bind_assoc]
  congr 1
  funext result
  cases result with
  | ok _ => rfl
  | error e =>
    simp only [bind_assoc]
    rfl

theorem rmdirRecurseOn_eq (relativePath : CStr) :
    rmdirRecurseOn env relativePath = (recurseChecks env relativePath >>= fun p =>
      mapErr lwext4ErrorToEsp (onFs (env.lwext4.dirRm p)) :
        Prog Empty EspErr (MountSt σ D) Unit) := by
  unfold rmdirRecurseOn recurseChecks
  simp only [bind_assoc, pure_bind, rmdirRecurseLocked_eq, mapErr_onFs_bind]

/-- **The call is its checks and the removal.** -/
theorem espVfsLwext4RmdirRecurse_eq (path : CStr) :
    espVfsLwext4RmdirRecurse env path =
      (removalChecks env path >>= fun r => removal env r.2 : WorldCall σ D Unit) := by
  unfold espVfsLwext4RmdirRecurse removalChecks
  simp only [bind_assoc]
  refine bind_congr fun _ => bind_congr fun _ => bind_congr fun _ => bind_congr fun w => ?_
  cases hchosen : chooseContext path w.contexts with
  | none => rfl
  | some ctx =>
    simp only [bind_assoc, pure_bind]
    funext w
    simp only [rmdirRecurseOn_eq]
    cases hrun : recurseChecks env (path.drop ctx.basePath.length) ⟨w.fs, ctx⟩ with
    | ok p st =>
      have hl := bind_of_ok (f := fun p => mapErr lwext4ErrorToEsp (onFs (env.lwext4.dirRm p))) hrun
      have hr : zoom (World.mountLens ctx) (recurseChecks env (path.drop ctx.basePath.length)) w =
          .ok p { w with fs := st.fs } := zoom_of_ok hrun
      rw [hl, bind_of_ok hr]
      unfold removal mapErr onFs zoom
      simp only [MountSt.fsLens, World.fsLens]
      cases env.lwext4.dirRm p st.fs with
      | ok _ _ => rfl
      | err _ _ => rfl
      | fault x => exact x.elim
    | err e st =>
      have hl := bind_of_err (f := fun p => mapErr lwext4ErrorToEsp (onFs (env.lwext4.dirRm p))) hrun
      have hr : zoom (World.mountLens ctx) (recurseChecks env (path.drop ctx.basePath.length)) w =
          .err e { w with fs := st.fs } := zoom_of_err hrun
      rw [hl, bind_of_err hr]
    | fault x => exact x.elim

/-! ## What the checks establish -/

/-- The context is idle and writable, and what is left of the path names something strictly
below its root. -/
structure Removable (ctx : Ctx D) (rest : CStr) : Prop where
  below : components rest ≠ []
  noDots : ∀ c ∈ components rest, ¬ (c = [dot] ∨ c = [dot, dot])
  writable : ctx.readOnly = false
  noFiles : ctx.openFiles = 0
  noDirs : ctx.openDirs = 0

theorem wp_recurseChecks (relativePath : CStr) (st : MountSt σ D) :
    wp (recurseChecks env relativePath)
      (fun p _ => Removable st.ctx relativePath ∧ p = st.ctx.mountPoint ++ relativePath.tail)
      (fun _ _ => True) st := by
  unfold recurseChecks fullPathOf onFs makePath
  simp only [wp_bind, wp_mapErr, wp_zoom, wp_getState, wp_failIf, wp_pure, implies_true, true_and]
  refine wp_of_forall (fun _ fs hpath hidle => ?_) fun _ _ => trivial
  obtain ⟨hroot, hdot⟩ := not_or.mp hpath
  obtain ⟨hwritable, hopen⟩ := not_or.mp hidle
  obtain ⟨hfiles, hdirs⟩ := not_or.mp hopen
  rw [pathHasDotComponent_iff] at hdot
  have hremovable : Removable st.ctx relativePath := by
    refine ⟨fun hnil => hroot ?_, fun c hc hcd => hdot ⟨c, hc, hcd⟩, ?_, ?_, ?_⟩
    · rw [pathIsMountRoot_iff, hnil]
      rfl
    · exact Bool.eq_false_iff.mpr hwritable
    · exact not_not.mp hfiles
    · exact not_not.mp hdirs
  intro _ _
  refine wp_of_forall (fun _ _ => ?_) fun _ _ => trivial
  exact wp_of_forall (fun _ _ => ⟨hremovable, rfl⟩) fun _ _ => trivial

theorem wp_removalChecks (env : Env σ D) (path : CStr) (w : World σ D) :
    wp (removalChecks env path)
      (fun r _ => chooseContext path w.contexts = some r.1 ∧
        Removable r.1 (path.drop r.1.basePath.length) ∧
        r.2 = r.1.mountPoint ++ (path.drop r.1.basePath.length).tail)
      (fun _ _ => True) w := by
  unfold removalChecks
  rw [wp_bind, wp_failIf]
  refine ⟨fun _ => trivial, fun _ => ?_⟩
  rw [wp_bind]
  refine wp_mono (keeps_contextsLockGet (w := w)) (fun _ w₁ h₁ => ?_) fun _ _ _ => trivial
  rw [wp_bind]
  refine wp_mono (keeps_onWorldFs _ _) (fun _ w₂ h₂ => ?_) fun _ _ _ => trivial
  rw [wp_bind, wp_getState]
  have hsame : w₂.contexts = w.contexts := Eq.trans h₂ h₁
  rw [hsame]
  cases hchosen : chooseContext path w.contexts with
  | none => trivial
  | some ctx =>
    show wp (_ >>= _) _ _ w₂
    rw [wp_bind, wp_zoom]
    refine wp_mono (wp_recurseChecks (path.drop ctx.basePath.length) _) ?_ fun _ _ _ => trivial
    rintro p st ⟨hremovable, rfl⟩
    exact ⟨rfl, hremovable, rfl⟩

/-- Whenever the call gets to the removal, the VFS routes the path to the same context, what
is left of the path may be removed there, and that is what is removed. -/
def RemovesRouted (env : Env σ D) (others : List CStr) (w : World σ D) (path : CStr) : Prop :=
  ∀ ctx p w', removalChecks env path w = .ok (ctx, p) w' →
    RoutesTo others w.contexts path ctx ∧ Removable ctx (path.drop ctx.basePath.length) ∧
      p = ctx.mountPoint ++ (path.drop ctx.basePath.length).tail

/-- **The removal is the one the VFS would route**, exactly when no other filesystem has a
longer base path for the path, or the checks stop the call. -/
theorem removal_routed_iff (env : Env σ D) (others : List CStr) (w : World σ D) (path : CStr) :
    espVfsLwext4RmdirRecurse env path w =
        (removalChecks env path >>= fun r => removal env r.2 : WorldCall σ D Unit) w ∧
      (RemovesRouted env others w path ↔
        ¬ (Shadowed others w.contexts path ∧ ∃ r w', removalChecks env path w = .ok r w')) := by
  have hchecks := wp_returns_iff.mp (wp_removalChecks env path w)
  refine ⟨congrFun (espVfsLwext4RmdirRecurse_eq path) w, ?_⟩
  constructor
  · rintro h ⟨hshadow, ⟨ctx, p⟩, w', hrun⟩
    obtain ⟨hchosen, -⟩ := hchecks _ _ hrun
    exact (routesTo_iff hchosen).mp (h ctx p w' hrun).1 hshadow
  · intro h ctx p w' hrun
    obtain ⟨hchosen, hrest⟩ := hchecks _ _ hrun
    exact ⟨(routesTo_iff hchosen).mpr fun hshadow => h ⟨hshadow, _, w', hrun⟩, hrest⟩

end Adapter

/-! ## A card below an lwext4 mount -/

namespace Ram

/-- lwext4 serves `/data` and holds the directory `/sd/x`. -/
def cardBelow : World Ram (List Ext4Direntry) where
  fs := { blank with names := [([47, 115, 100, 47, 120], 12)], dirs := [12] }
  contexts := [Ctx.new idf ⟨[47, 100, 97, 116, 97], [slash], 1, false⟩ [slash]]
  contextsLock := true

/-- With another filesystem at `/data/sd` the VFS routes `/data/sd/x` there; the call removes
`/sd/x` from lwext4. -/
theorem removal_of_shadowed_path :
    ¬ RemovesRouted env [[47, 100, 97, 116, 97, 47, 115, 100]] cardBelow
        [47, 100, 97, 116, 97, 47, 115, 100, 47, 120] ∧
      cardBelow.fs.lookup [47, 115, 100, 47, 120] = some 12 ∧
      ((espVfsLwext4RmdirRecurse env [47, 100, 97, 116, 97, 47, 115, 100, 47, 120]).final
        cardBelow).fs.lookup [47, 115, 100, 47, 120] = none := by
  refine ⟨fun h => ?_, by decide, by decide⟩
  have hrun : removalChecks env [47, 100, 97, 116, 97, 47, 115, 100, 47, 120] cardBelow =
      .ok (Ctx.new idf ⟨[47, 100, 97, 116, 97], [slash], 1, false⟩ [slash], [47, 115, 100, 47, 120])
        cardBelow := rfl
  have howned := (h _ _ _ hrun).1.owned [47, 100, 97, 116, 97, 47, 115, 100] (by decide)
    ⟨[47, 120], rfl, Or.inr rfl⟩
  revert howned
  decide

end Ram

end EspLwext4.Port
