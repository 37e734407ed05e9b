import EspLwext4.Port.Mount

/-!
# Registration

The list of registered contexts of `port/esp_lwext4.c`: `register`,
`unregister`, and the choice of a context by the recursive removal. The VFS
calls a callback with the context registered at the longest base path; here an
operation names that base path.
-/

namespace EspLwext4.Port

open Prog

/-- `esp_vfs_lwext4_conf_t` -/
structure Conf where
  basePath : CStr
  mountPoint : CStr
  maxFiles : ℕ
  readOnly : Bool
deriving DecidableEq, Repr

structure World (σ D : Type) where
  fs : σ
  /-- `s_contexts` -/
  contexts : List (Ctx D)
  /-- `s_contexts_lock` is not `NULL` -/
  contextsLock : Bool

abbrev WorldCall (σ D α : Type) : Type := Prog Empty EspErr (World σ D) α

variable {σ D : Type}

def World.fsLens : Lens (World σ D) σ where
  get := World.fs
  set fs w := { w with fs := fs }

section Operations

variable (env : Env σ D)

def onWorldFs {α : Type} (e : EspErr) (m : Call σ α) : WorldCall σ D α :=
  mapErr (fun _ => e) (zoom World.fsLens m)

/-- `xSemaphoreCreateMutex` -/
def createLock : Call σ Unit := fun s =>
  match env.idf.semaphoreCreate s with
  | (true, s') => .ok () s'
  | (false, s') => .err .enomem s'

/-- `contexts_lock_get` -/
def contextsLockGet : WorldCall σ D Unit := do
  let w ← getState
  whenever (w.contextsLock = false) do
    onWorldFs .noMem (createLock env)
    update fun w => { w with contextsLock := true }

/-- The checks of `esp_vfs_lwext4_register` on its configuration. -/
def Conf.accepted (idf : Idf σ) (conf : Conf) : Bool :=
  conf.maxFiles ≠ 0 ∧ conf.maxFiles ≤ idf.intMax ∧ 2 ≤ conf.basePath.length ∧
    conf.basePath.length ≤ idf.espVfsPathMax ∧ conf.basePath.head? = some slash ∧
    conf.basePath.getLast? ≠ some slash ∧ conf.mountPoint.length ≠ 0 ∧
    conf.mountPoint.length ≤ idf.ext4MaxMpName ∧ conf.mountPoint.head? = some slash ∧
    ¬ (conf.mountPoint.getLast? ≠ some slash ∧ conf.mountPoint.length = idf.ext4MaxMpName)

/-- A new context: nothing is open. -/
def Ctx.new (idf : Idf σ) (conf : Conf) (mountPoint : CStr) : Ctx D where
  basePath := conf.basePath
  mountPoint := mountPoint
  files := List.replicate conf.maxFiles .zero
  maxFiles := conf.maxFiles
  openFiles := 0
  openDirs := 0
  growBuffer := if conf.readOnly then ⟨[], 0⟩
    else ⟨List.replicate idf.growBufferSize 0, idf.growBufferSize⟩
  readOnly := conf.readOnly
  dirs := []
  nextDir := 0
  slotCalls := []

/-- The allocations of `esp_vfs_lwext4_register`: after the context itself all of
them are made before any is checked. -/
def makeContext (conf : Conf) : WorldCall σ D (Ctx D) := do
  onWorldFs .noMem (env.idf.allocate 1)
  let basePath ← (onWorldFs .noMem (env.idf.allocate (conf.basePath.length + 1))).attempt
  let normalized := normalizeMountPoint env.idf.ext4MaxMpName conf.mountPoint
  let mountPoint ← (onWorldFs .noMem (match normalized with
    | none => raise .enomem
    | some m => do
      env.idf.allocate (m.length + 1)
      return m)).attempt
  let files ← (onWorldFs .noMem (env.idf.allocate conf.maxFiles)).attempt
  let lock ← (onWorldFs .noMem (createLock env)).attempt
  let growBuffer ← attempt (whenever (conf.readOnly = false)
    (onWorldFs .noMem (env.idf.allocate env.idf.growBufferSize)))
  ofExcept basePath
  let m ← ofExcept mountPoint
  ofExcept files
  ofExcept lock
  ofExcept growBuffer
  failIf (conf.readOnly = false ∧ env.idf.growBufferSize = 0) .noMem
  return Ctx.new env.idf conf m

def espVfsLwext4Register (conf : Conf) : WorldCall σ D Unit := do
  failIf (¬ conf.accepted env.idf) .invalidArg
  let ctx ← makeContext env conf
  let _ ← onWorldFs .invalidState (env.lwext4.mountPointStats ctx.mountPoint)
  contextsLockGet env
  onWorldFs .fail (takeLock env.idf)
  let w ← getState
  failIf (w.contexts.any fun item =>
    item.basePath == ctx.basePath || item.mountPoint == ctx.mountPoint) .invalidState
  let (error, fs) := env.idf.vfsRegisterFs ctx.basePath ctx.readOnly w.fs
  update fun w => { w with fs := fs }
  failIf (error ≠ .ok) error
  update fun w => { w with contexts := ctx :: w.contexts }

def espVfsLwext4Unregister (basePath : CStr) : WorldCall σ D Unit := do
  contextsLockGet env
  onWorldFs .fail (takeLock env.idf)
  let w ← getState
  match w.contexts.find? fun ctx => ctx.basePath == basePath with
  | none => raise .invalidState
  | some ctx =>
    onWorldFs .fail (takeLock env.idf)
    failIf (ctx.openFiles ≠ 0 ∨ ctx.openDirs ≠ 0) .invalidState
    let w ← getState
    let (error, fs) := env.idf.vfsUnregisterFs basePath w.fs
    update fun w => { w with fs := fs }
    failIf (error ≠ .ok) error
    update fun w => { w with
      contexts := w.contexts.eraseP fun ctx => ctx.basePath == basePath }

/-- The base path is a prefix of the path that ends at a component boundary. -/
def prefixMatches (path basePath : CStr) : Bool :=
  basePath.isPrefixOf path &&
    (path.drop basePath.length == [] || (path.drop basePath.length).head? == some slash)

/-- The loop of `esp_vfs_lwext4_rmdir_recurse` over the contexts: the first of those
with the longest matching base path. -/
def chooseContext (path : CStr) (contexts : List (Ctx D)) : Option (Ctx D) :=
  contexts.foldl (fun chosen item =>
    if prefixMatches path item.basePath = true ∧
        (chosen.elim 0 fun c => c.basePath.length) < item.basePath.length then some item
    else chosen) none

/-- The first context registered at a base path, with the state it runs in. -/
def stepContext (basePath : CStr) (f : MountSt σ D → MountSt σ D) (fs : σ) :
    List (Ctx D) → σ × List (Ctx D)
  | [] => (fs, [])
  | ctx :: rest =>
    if ctx.basePath = basePath then ((f ⟨fs, ctx⟩).fs, (f ⟨fs, ctx⟩).ctx :: rest)
    else ((stepContext basePath f fs rest).1, ctx :: (stepContext basePath f fs rest).2)

def onContext (basePath : CStr) (f : MountSt σ D → MountSt σ D) (w : World σ D) : World σ D :=
  { w with
    fs := (stepContext basePath f w.fs w.contexts).1
    contexts := (stepContext basePath f w.fs w.contexts).2 }

/-- What `esp_vfs_lwext4_rmdir_recurse` leaves behind. -/
def espVfsLwext4RmdirRecurse (path : CStr) : WorldCall σ D Unit := do
  failIf (path.head? ≠ some slash) .invalidArg
  contextsLockGet env
  onWorldFs .fail (takeLock env.idf)
  let w ← getState
  match chooseContext path w.contexts with
  | none => raise .notSupported
  | some ctx =>
    fun w =>
      match rmdirRecurseOn env (path.drop ctx.basePath.length) ⟨w.fs, ctx⟩ with
      | .ok _ st => .ok () { w with fs := st.fs }
      | .err e st => .err e { w with fs := st.fs }

end Operations

/-! ## One operation as a step -/

inductive WorldOp where
  | register (conf : Conf)
  | unregister (basePath : CStr)
  | mount (basePath : CStr) (op : MountOp)
  | rmdirRecurse (path : CStr)

def WorldOp.exec (env : Env σ D) (w : World σ D) : WorldOp → World σ D
  | .register conf => (espVfsLwext4Register env conf).final w
  | .unregister basePath => (espVfsLwext4Unregister env basePath).final w
  | .mount basePath op => onContext basePath (fun st => op.exec env st) w
  | .rmdirRecurse path => (espVfsLwext4RmdirRecurse env path).final w

/-- Nothing is registered yet. -/
def World.init (fs : σ) : World σ D := ⟨fs, [], false⟩

end EspLwext4.Port
