import EspLwext4.Port.File

/-!
# Names and directories

The functions of `port/esp_lwext4.c` that look up, remove and rename entries
under the mount lock.
-/

namespace EspLwext4.Port

open Prog

variable {σ D : Type} (env : Env σ D)

/-- `path_info_t` -/
structure PathInfo where
  inodeNumber : ℕ
  isDirectory : Bool
deriving DecidableEq, Repr

def pathInfoLocked (path : CStr) : Call σ PathInfo := do
  let (inodeNumber, inode) ← env.lwext4.rawInodeFill path
  env.lwext4.getSblock path
  return ⟨inodeNumber, inode.isDirectory⟩

/-- An entry other than `.` and `..` -/
def Ext4Direntry.isReal (entry : Ext4Direntry) : Bool :=
  !isDot entry.name && !isDotDot entry.name

/-- The loop of `directory_is_empty_locked`; a round that goes on has passed an
entry. -/
def scanLoop : ℕ → DirSt σ D → Bool × DirSt σ D
  | 0, st => (true, st)
  | rounds + 1, st =>
    match env.lwext4.dirEntryNext st with
    | (none, st') => (true, st')
    | (some entry, st') => if entry.isReal then (false, st') else scanLoop rounds st'

def scan : Call (DirSt σ D) Bool := fun st =>
  let (empty, st') := scanLoop env (env.lwext4.dirLeft st.dir + 1) st
  .ok empty st'

def directoryIsEmptyLocked (path : CStr) : Call σ Bool := do
  let directory ← env.lwext4.dirOpen path
  within (fun fs => (⟨fs, directory⟩ : DirSt σ D)) DirSt.fs do
    let empty ← scan env
    env.lwext4.dirClose
    return empty

/-- The replacement in `rename_locked` of an existing destination. -/
def replaceLocked (src dst : CStr) : Call σ Unit := do
  let source ← pathInfoLocked env src
  let destination ← pathInfoLocked env dst
  if source.inodeNumber = destination.inodeNumber then pure ()
  else do
    failIf (source.isDirectory ≠ destination.isDirectory)
      (if source.isDirectory then .enotdir else .eisdir)
    if source.isDirectory then do
      failIf (pathHasDotComponent src = true ∨ pathHasDotComponent dst = true ∨
        pathIsStrictDescendant src dst = true) .einval
      let destinationEmpty ← directoryIsEmptyLocked env dst
      failIf (destinationEmpty = false) .enotempty
      env.lwext4.dirRm dst
    else env.lwext4.fremove dst
    env.lwext4.frename src dst

def renameLocked (src dst : CStr) : Call σ Unit := do
  let result ← (env.lwext4.frename src dst).attempt
  if result = .error .eexist then replaceLocked env src dst
  else ofExcept result

/-- `ext4_inode_exist` where the entry must be missing. -/
def mustBeAbsent (path : CStr) (type : DeType) (found : Errno) : Call σ Unit := do
  let result ← (env.lwext4.inodeExist path type).attempt
  match result with
  | .ok _ => raise found
  | .error e => failIf (e ≠ .enoent) e

def unlinkLocked (path : CStr) : Call σ Unit := do
  let result ← (env.lwext4.inodeExist path .dir).attempt
  match result with
  | .ok _ => raise .eisdir
  | .error _ => env.lwext4.fremove path

def mkdirLocked (path : CStr) (mode : ℕ) : Call σ Unit := do
  mustBeAbsent env path .unknown .eexist
  env.lwext4.dirMk path
  env.lwext4.modeSet path mode

def rmdirLocked (path : CStr) : Call σ Unit := do
  let empty ← directoryIsEmptyLocked env path
  failIf (empty = false) .enotempty
  env.lwext4.dirRm path

def utimeLocked (path : CStr) (actime modtime : ℕ) : Call σ Unit := do
  env.lwext4.atimeSet path actime
  env.lwext4.mtimeSet path modtime

/-- The removal at the end of `esp_vfs_lwext4_rmdir_recurse`. -/
def rmdirRecurseLocked (path : CStr) : Call σ Unit := do
  let result ← (env.lwext4.inodeExist path .dir).attempt
  match result with
  | .ok _ => env.lwext4.dirRm path
  | .error e =>
    failIf (e ≠ .enoent) e
    env.lwext4.inodeExist path .unknown
    raise .enotdir

end EspLwext4.Port
