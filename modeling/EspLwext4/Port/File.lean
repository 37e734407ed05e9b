import EspLwext4.Port.Paths

/-!
# One open file

The functions of `port/esp_lwext4.c` that run under the mount lock on one
`ext4_file`. They see the file and lwext4, and of the slot only the path it was
opened with.
-/

namespace EspLwext4.Port

open Prog

/-- The fields of `struct stat` that are filled in. -/
structure Stat where
  ino : ℕ
  mode : ℕ
  nlink : ℕ
  uid : ℕ
  gid : ℕ
  size : ℕ
  atime : ℕ
  mtime : ℕ
  ctime : ℕ
  blocks : ℕ
  blksize : ℕ
deriving DecidableEq, Repr

/-- `grow_buffer` and `grow_buffer_size` of the context; `[]` is `NULL`. -/
structure GrowBuffer where
  bytes : List UInt8
  size : ℕ
deriving DecidableEq, Repr

/-- The arguments of `positioned_io` that say what to transfer. -/
inductive IoRequest where
  | read (size : ℕ)
  | write (data : List UInt8)
deriving DecidableEq, Repr

/-- The number of bytes transferred, and for a read the bytes. -/
structure Transferred where
  count : ℕ
  bytes : List UInt8
deriving DecidableEq, Repr

def IoRequest.size : IoRequest → ℕ
  | .read size => size
  | .write data => data.length

def IoRequest.isWrite : IoRequest → Bool
  | .read _ => false
  | .write _ => true

variable {σ D : Type} (env : Env σ D)

/-! ## Size and position -/

/-- `file->file.fsize = size` -/
def setFsize (size : ℕ) : Call (FileSt σ) Unit :=
  update fun st => { st with file := { st.file with fsize := size } }

/-- `ext4_ftell` -/
def ftell : Call (FileSt σ) ℕ := do
  let st ← getState
  return st.file.fpos

def currentFileSizeLocked (path : CStr) : Call (FileSt σ) ℕ := do
  let (inodeNumber, inode) ← zoom FileSt.fsLens (env.lwext4.rawInodeFill path)
  let st ← getState
  failIf (inodeNumber ≠ st.file.inode) .estale
  zoom FileSt.fsLens (env.lwext4.getSblock path)
  return inode.size

def seekToCurrentEndLocked (path : CStr) : Call (FileSt σ) Unit := do
  let fileSize ← currentFileSizeLocked env path
  failIf (int64Max < fileSize) .eoverflow
  setFsize fileSize
  env.lwext4.fseek (int64 fileSize) .seekSet

/-! ## Growing and shrinking -/

/-- The loop of `resize_file_locked`. A round that goes on has written at least
one byte, so the missing bytes bound the rounds. -/
def growLoop (grow : GrowBuffer) (newSize : ℕ) : ℕ → ℕ → Call (FileSt σ) Unit
  | 0, _ => pure ()
  | rounds + 1, currentSize =>
    if currentSize < newSize then do
      let request := min grow.size (newSize - currentSize)
      let written ← env.lwext4.fwrite (grow.bytes.take request)
      failIf (written = 0) .eio
      growLoop grow newSize rounds (currentSize + written)
    else pure ()

def resizeFileLocked (grow : GrowBuffer) (path : CStr) (newSize : ℕ) : Call (FileSt σ) Unit := do
  failIf (grow.bytes = [] ∨ grow.size = 0) .enomem
  let currentSize ← currentFileSizeLocked env path
  if newSize ≤ currentSize then env.lwext4.ftruncate newSize
  else do
    let originalPosition ← ftell
    setFsize currentSize
    let result ← attempt do
      env.lwext4.fseek (int64 currentSize) .seekSet
      growLoop env grow newSize (newSize - currentSize) currentSize
    let restoreResult ← (env.lwext4.fseek (int64 originalPosition) .seekSet).attempt
    firstError result restoreResult

/-! ## Seeking and positioned transfers -/

def seekLocked (offset : ℤ) (whence : Whence) : Call (FileSt σ) ℤ := do
  let offMax : ℤ := env.idf.offTMaxValue
  failIf (whence = .seekEnd ∧ (0 < offset ∨ offset = -offMax - 1)) .einval
  failIf (whence = .other) .einval
  env.lwext4.fseek (if whence = .seekEnd then -offset else offset) whence
  let position ← ftell
  failIf (env.idf.offTMaxValue < position) .eoverflow
  return position

def transfer : IoRequest → Call (FileSt σ) Transferred
  | .read size => do
    let bytes ← env.lwext4.fread (env.idf.ioSizeLimit size)
    return ⟨bytes.length, bytes⟩
  | .write data => do
    let written ← env.lwext4.fwrite (data.take (env.idf.ioSizeLimit data.length))
    return ⟨written, []⟩

/-- The part of `positioned_io` between saving and restoring the position. -/
def transferAt (grow : GrowBuffer) (path : CStr) (request : IoRequest) (offset : ℕ) :
    Call (FileSt σ) Transferred := do
  let fileSize ← currentFileSizeLocked env path
  whenever (request.isWrite = true ∧ fileSize < offset) (resizeFileLocked env grow path offset)
  if request.isWrite = false ∧ fileSize ≤ offset then return ⟨0, []⟩
  else do
    env.lwext4.fseek offset .seekSet
    transfer env request

/-- `positioned_io` under the lock; `offset` is not negative. -/
def positionedIoLocked (grow : GrowBuffer) (path : CStr) (request : IoRequest) (offset : ℕ) :
    Call (FileSt σ) Transferred := do
  let originalPosition ← ftell
  failIf (int64Max < originalPosition) .eoverflow
  let result ← attempt do
    if request.size = 0 then return ⟨0, []⟩
    else transferAt env grow path request offset
  let restoreResult ← (env.lwext4.fseek (int64 originalPosition) .seekSet).attempt
  firstError result restoreResult

/-! ## Attributes -/

def statOf (inodeNumber : ℕ) (inode : Ext4Inode) (blksize : ℕ) : Stat where
  ino := inodeNumber
  mode := inode.mode
  nlink := inode.linksCnt
  uid := inode.uid
  gid := inode.gid
  size := inode.size
  atime := inode.accessTime
  mtime := inode.modifTime
  ctime := inode.changeInodeTime
  blocks := (inode.size + 511) / 512
  blksize := blksize

def statPathLocked (path : CStr) : Call σ Stat := do
  let (inodeNumber, inode) ← env.lwext4.rawInodeFill path
  env.lwext4.getSblock path
  failIf (env.idf.offTMaxValue < inode.size) .eoverflow
  let stats ← (env.lwext4.mountPointStats path).attempt
  match stats with
  | .ok blockSize => return statOf inodeNumber inode blockSize
  | .error _ => return statOf inodeNumber inode 0

end EspLwext4.Port
