import EspLwext4.Port.Names

/-!
# The operations of one mount

The callbacks of `port/esp_lwext4.c` on one context: its table of open files,
its directory handles and its two counters. Every callback takes the mount lock
for the whole of its work, so a call is one step; `fail_with_errno` is an error
of the program.
-/

namespace EspLwext4.Port

open Prog

/-! ## The context -/

/-- `esp_lwext4_file_t`, a slot of the file table. -/
structure EspFile where
  file : Ext4File
  path : CStr
  flags : OpenFlags
  used : Bool
deriving DecidableEq, Repr

/-- `memset(file, 0, sizeof(*file))` -/
def EspFile.zero : EspFile := ⟨.zero, [], .none, false⟩

/-- `esp_lwext4_dir_t` -/
structure EspDir (D : Type) where
  ext4 : D
  offset : ℕ

/-- A call of lwext4 that opens or closes the file of a slot. -/
inductive SlotCall where
  | fopen2 (fd : ℕ) (ok : Bool)
  | fclose (fd : ℕ) (ok : Bool)
deriving DecidableEq, Repr

/-- `esp_lwext4_t`. The directory handles are those allocated and not freed, by a
number that stands for their address. The last field is a log of lwext4 calls,
most recent first, that no code reads. -/
structure Ctx (D : Type) where
  basePath : CStr
  mountPoint : CStr
  files : List EspFile
  maxFiles : ℕ
  openFiles : ℕ
  openDirs : ℕ
  growBuffer : GrowBuffer
  readOnly : Bool
  dirs : List (ℕ × EspDir D)
  nextDir : ℕ
  slotCalls : List SlotCall

structure MountSt (σ D : Type) where
  fs : σ
  ctx : Ctx D

/-- What the calls on one directory handle work on. -/
structure HandleSt (σ D : Type) where
  fs : σ
  handle : EspDir D

variable {σ D : Type}

def Ctx.file (ctx : Ctx D) (fd : ℕ) : EspFile := ctx.files.getD fd .zero

def Ctx.setFile (ctx : Ctx D) (fd : ℕ) (f : EspFile) : Ctx D :=
  { ctx with files := ctx.files.set fd f }

def Ctx.usedAt (ctx : Ctx D) (fd : ℕ) : Bool := (ctx.file fd).used

def Ctx.setDir (ctx : Ctx D) (id : ℕ) (dir : EspDir D) : Ctx D :=
  { ctx with dirs := ctx.dirs.map fun p => if p.1 = id then (id, dir) else p }

def MountSt.fsLens : Lens (MountSt σ D) σ where
  get := MountSt.fs
  set fs st := { st with fs := fs }

/-- The file of a slot: the rest of the slot stays as it is. -/
def MountSt.fileLens (fd : ℕ) : Lens (MountSt σ D) (FileSt σ) where
  get st := ⟨st.fs, (st.ctx.file fd).file⟩
  set fst st := ⟨fst.fs, st.ctx.setFile fd { st.ctx.file fd with file := fst.file }⟩

def MountSt.handleLens (id : ℕ) (dir : EspDir D) : Lens (MountSt σ D) (HandleSt σ D) where
  get st := ⟨st.fs, dir⟩
  set hst st := ⟨hst.fs, st.ctx.setDir id hst.handle⟩

def HandleSt.ext4Lens : Lens (HandleSt σ D) (DirSt σ D) where
  get hst := ⟨hst.fs, hst.handle.ext4⟩
  set dst hst := ⟨dst.fs, { hst.handle with ext4 := dst.dir }⟩

section Operations

variable (env : Env σ D)

/-! ## Guards -/

def onFs {α : Type} (m : Call σ α) : Call (MountSt σ D) α := zoom MountSt.fsLens m

def updateCtx (f : Ctx D → Ctx D) : Call (MountSt σ D) Unit :=
  update fun st => { st with ctx := f st.ctx }

/-- `take_lock`, the work, `give_lock` -/
def locked {α : Type} (m : Call (MountSt σ D) α) : Call (MountSt σ D) α := do
  onFs (takeLock env.idf)
  m

def refuseReadOnly : Call (MountSt σ D) Unit := do
  let st ← getState
  failIf (st.ctx.readOnly = true) .erofs

/-- `file_get`, as an index of the table. -/
def fileGet (fd : ℤ) : Call (MountSt σ D) ℕ := do
  let st ← getState
  failIf (fd < 0 ∨ st.ctx.maxFiles ≤ fd.toNat ∨ st.ctx.usedAt fd.toNat = false) .ebadf
  return fd.toNat

/-- Lock, `file_get`, the check of the access mode, and the work on the file. -/
def onOpenFile {α : Type} (fd : ℤ) (forbidden : Option AccMode)
    (m : GrowBuffer → EspFile → Call (FileSt σ) α) : Call (MountSt σ D) α :=
  locked env do
    let i ← fileGet fd
    let st ← getState
    failIf (some (st.ctx.file i).flags.accMode = forbidden) .ebadf
    zoom (MountSt.fileLens i) (m st.ctx.growBuffer (st.ctx.file i))

def fullPathOf (path : CStr) : Call (MountSt σ D) CStr := do
  let st ← getState
  onFs (makePath env.idf st.ctx.mountPoint path)

/-- `make_path`, lock and the work on the path. -/
def onPath {α : Type} (path : CStr) (m : CStr → Call σ α) : Call (MountSt σ D) α := do
  let fullPath ← fullPathOf env path
  locked env (onFs (m fullPath))

def twoPathOperation (first second : CStr) (operation : CStr → CStr → Call σ Unit) :
    Call (MountSt σ D) Unit := do
  let firstPath ← fullPathOf env first
  let secondPath ← fullPathOf env second
  locked env (onFs (operation firstPath secondPath))

/-! ## Opening and closing -/

/-- The first slot that is not used. -/
def Ctx.freeSlot (ctx : Ctx D) : Option ℕ :=
  (List.range ctx.maxFiles).find? fun i => ctx.usedAt i = false

/-- The checks of `vfs_lwext4_open` on what the path names. -/
def openChecks (fullPath : CStr) (flags : OpenFlags) : Call σ Unit :=
  if flags.creat = true ∧ flags.excl = true then mustBeAbsent env fullPath .unknown .eexist
  else mustBeAbsent env fullPath .dir .eisdir

/-- `ext4_fopen2` on a cleared slot, and the slot taken when it succeeds. -/
def openSlot (fd : ℕ) (fullPath : CStr) (flags : OpenFlags) : Call (MountSt σ D) ℕ := do
  updateCtx fun ctx => ctx.setFile fd { ctx.file fd with file := .zero }
  let result ← (zoom (MountSt.fileLens fd) (env.lwext4.fopen2 fullPath flags)).attempt
  updateCtx fun ctx => { ctx with slotCalls := .fopen2 fd result.isOk :: ctx.slotCalls }
  ofExcept result
  updateCtx fun ctx =>
    { ctx.setFile fd { ctx.file fd with path := fullPath, flags := flags, used := true } with
      openFiles := ctx.openFiles + 1 }
  return fd

def vfsLwext4Open (path : CStr) (flags : OpenFlags) : Call (MountSt σ D) ℕ := do
  let st ← getState
  failIf (st.ctx.readOnly = true ∧
    (flags.accMode ≠ .rdonly ∨ flags.creat = true ∨ flags.trunc = true)) .erofs
  let fullPath ← fullPathOf env path
  locked env do
    let st ← getState
    match st.ctx.freeSlot with
    | none => raise .emfile
    | some fd =>
      onFs (openChecks env fullPath flags)
      openSlot env fd fullPath flags

def vfsLwext4Close (fd : ℤ) : Call (MountSt σ D) Unit :=
  locked env do
    let i ← fileGet fd
    let result ← (zoom (MountSt.fileLens i) env.lwext4.fclose).attempt
    updateCtx fun ctx => { ctx with slotCalls := .fclose i result.isOk :: ctx.slotCalls }
    ofExcept result
    updateCtx fun ctx => { ctx.setFile i .zero with openFiles := ctx.openFiles - 1 }

/-! ## Transfers -/

def vfsLwext4Write (fd : ℤ) (data : List UInt8) : Call (MountSt σ D) ℕ := do
  refuseReadOnly
  onOpenFile env fd (some .rdonly) fun _ slot => do
    whenever (slot.flags.append = true) (seekToCurrentEndLocked env slot.path)
    env.lwext4.fwrite (data.take (env.idf.ioSizeLimit data.length))

def vfsLwext4Read (fd : ℤ) (size : ℕ) : Call (MountSt σ D) (List UInt8) :=
  onOpenFile env fd (some .wronly) fun _ _ => env.lwext4.fread (env.idf.ioSizeLimit size)

def vfsLwext4Lseek (fd : ℤ) (offset : ℤ) (whence : Whence) : Call (MountSt σ D) ℤ :=
  onOpenFile env fd none fun _ _ => seekLocked env offset whence

def positionedIo (fd : ℤ) (request : IoRequest) (offset : ℤ) :
    Call (MountSt σ D) Transferred := do
  failIf (offset < 0) .einval
  whenever (request.isWrite = true) refuseReadOnly
  onOpenFile env fd (some (if request.isWrite then .rdonly else .wronly)) fun grow slot =>
    positionedIoLocked env grow slot.path request offset.toNat

def vfsLwext4Pread (fd : ℤ) (size : ℕ) (offset : ℤ) : Call (MountSt σ D) Transferred :=
  positionedIo env fd (.read size) offset

def vfsLwext4Pwrite (fd : ℤ) (data : List UInt8) (offset : ℤ) :
    Call (MountSt σ D) Transferred :=
  positionedIo env fd (.write data) offset

def vfsLwext4Fstat (fd : ℤ) : Call (MountSt σ D) Stat :=
  onOpenFile env fd none fun _ slot => zoom FileSt.fsLens (statPathLocked env slot.path)

def vfsLwext4Fsync (fd : ℤ) : Call (MountSt σ D) Unit :=
  locked env do
    let _ ← fileGet fd
    let st ← getState
    onFs (env.lwext4.cacheFlush st.ctx.mountPoint)

def vfsLwext4Ftruncate (fd : ℤ) (length : ℤ) : Call (MountSt σ D) Unit := do
  failIf (length < 0) .einval
  refuseReadOnly
  onOpenFile env fd (some .rdonly) fun grow slot =>
    resizeFileLocked env grow slot.path length.toNat

/-- The work of `truncate` on a file of its own; whatever `ext4_fclose` reports is
dropped. -/
def truncateLocked (grow : GrowBuffer) (length : ℕ) (fullPath : CStr) : Call σ Unit :=
  within (fun fs => (⟨fs, .zero⟩ : FileSt σ)) FileSt.fs do
    env.lwext4.fopen2 fullPath .rdwr
    let result ← (resizeFileLocked env grow fullPath length).attempt
    let _ ← env.lwext4.fclose.attempt
    ofExcept result

def vfsLwext4Truncate (path : CStr) (length : ℤ) : Call (MountSt σ D) Unit := do
  failIf (length < 0) .einval
  refuseReadOnly
  let st ← getState
  onPath env path (truncateLocked env st.ctx.growBuffer length.toNat)

/-! ## Names -/

def vfsLwext4Stat (path : CStr) : Call (MountSt σ D) Stat :=
  onPath env path (statPathLocked env)

def vfsLwext4Link (path hardlinkPath : CStr) : Call (MountSt σ D) Unit := do
  refuseReadOnly
  twoPathOperation env path hardlinkPath env.lwext4.flink

def vfsLwext4Unlink (path : CStr) : Call (MountSt σ D) Unit := do
  refuseReadOnly
  onPath env path (unlinkLocked env)

def vfsLwext4Rename (src dst : CStr) : Call (MountSt σ D) Unit := do
  refuseReadOnly
  failIf (pathIsMountRoot src = true ∨ pathIsMountRoot dst = true) .ebusy
  twoPathOperation env src dst (renameLocked env)

def vfsLwext4Mkdir (name : CStr) (mode : ℕ) : Call (MountSt σ D) Unit := do
  refuseReadOnly
  onPath env name fun fullPath => mkdirLocked env fullPath mode

def vfsLwext4Rmdir (name : CStr) : Call (MountSt σ D) Unit := do
  refuseReadOnly
  failIf (pathIsMountRoot name = true) .ebusy
  onPath env name (rmdirLocked env)

/-- `amode` has the bits `R_OK` 4, `W_OK` 2 and `X_OK` 1. -/
def vfsLwext4Access (path : CStr) (amode : ℕ) : Call (MountSt σ D) Unit := do
  failIf (7 < amode) .einval
  whenever (amode &&& 2 ≠ 0) refuseReadOnly
  let st ← vfsLwext4Stat env path
  failIf ((amode &&& 4 ≠ 0 ∧ st.mode &&& 0o444 = 0) ∨ (amode &&& 2 ≠ 0 ∧ st.mode &&& 0o222 = 0) ∨
    (amode &&& 1 ≠ 0 ∧ st.mode &&& 0o111 = 0)) .eacces

/-- `time(NULL)` -/
def currentTime : Call (MountSt σ D) ℤ := fun st =>
  let (t, fs) := env.idf.now st.fs
  .ok t { st with fs := fs }

/-- `times`, which is `NULL` or the pair of `actime` and `modtime`. -/
def timesOrNow : Option (ℤ × ℤ) → Call (MountSt σ D) (ℤ × ℤ)
  | some times => pure times
  | none => do
    let current ← currentTime env
    return (current, current)

def vfsLwext4Utime (path : CStr) (times : Option (ℤ × ℤ)) : Call (MountSt σ D) Unit := do
  refuseReadOnly
  let (actime, modtime) ← timesOrNow env times
  failIf (actime < 0 ∨ modtime < 0 ∨ 4294967295 < actime ∨ 4294967295 < modtime) .eoverflow
  onPath env path fun fullPath => utimeLocked env fullPath actime.toNat modtime.toNat

/-- The part of `esp_vfs_lwext4_rmdir_recurse` on the context it has chosen. -/
def rmdirRecurseOn (relativePath : CStr) : Prog Empty EspErr (MountSt σ D) Unit := do
  mapErr (fun _ => .fail) (onFs (takeLock env.idf))
  let st ← getState
  failIf (pathIsMountRoot relativePath = true ∨ pathHasDotComponent relativePath = true)
    .invalidArg
  failIf (st.ctx.readOnly = true ∨ st.ctx.openFiles ≠ 0 ∨ st.ctx.openDirs ≠ 0) .invalidState
  let lwext4Path ← mapErr (fun e => if e = .enomem then .noMem else .invalidArg)
    (fullPathOf env relativePath)
  mapErr lwext4ErrorToEsp (onFs (rmdirRecurseLocked env lwext4Path))

/-! ## Directory handles -/

/-- `DT_*` -/
inductive DtType where
  | reg | dir | chr | blk | fifo | sock | lnk | unknown
deriving DecidableEq, Repr

def direntType : DeType → DtType
  | .regFile => .reg
  | .dir => .dir
  | .chrdev => .chr
  | .blkdev => .blk
  | .fifo => .fifo
  | .sock => .sock
  | .symlink => .lnk
  | .unknown => .unknown

/-- `struct dirent` -/
structure Dirent where
  ino : ℕ
  type : DtType
  name : CStr
deriving DecidableEq, Repr

/-- Allocate the handle, open the directory and count it; the handle is freed when
that fails. -/
def vfsLwext4Opendir (name : CStr) : Call (MountSt σ D) ℕ := do
  let fullPath ← fullPathOf env name
  onFs (env.idf.allocate 1)
  locked env do
    let directory ← onFs (env.lwext4.dirOpen fullPath)
    let st ← getState
    updateCtx fun ctx =>
      { ctx with
        openDirs := ctx.openDirs + 1
        dirs := (ctx.nextDir, ⟨directory, 0⟩) :: ctx.dirs
        nextDir := ctx.nextDir + 1 }
    return st.ctx.nextDir

/-- `pdir` as a handle of this context. `none` is `NULL`; `closedir` clears the
`ctx` field of a handle before it frees it, so a closed handle is none of this
context's. -/
def handleGet (pdir : Option ℕ) : Call (MountSt σ D) (ℕ × EspDir D) := do
  let st ← getState
  match pdir with
  | none => raise .einval
  | some id =>
    match st.ctx.dirs.find? fun p => p.1 = id with
    | none => raise .einval
    | some p => return p

def onHandle {α : Type} (pdir : Option ℕ) (m : Call (HandleSt σ D) α) :
    Call (MountSt σ D) α := do
  let _ ← handleGet pdir
  locked env do
    let (id, dir) ← handleGet pdir
    zoom (MountSt.handleLens id dir) m

/-- `ext4_dir_entry_next` on a handle -/
def entryNext : Call (HandleSt σ D) (Option Ext4Direntry) :=
  zoom HandleSt.ext4Lens fun st => .ok (env.lwext4.dirEntryNext st).1 (env.lwext4.dirEntryNext st).2

def bumpOffset : Call (HandleSt σ D) Unit :=
  update fun hst => { hst with handle := { hst.handle with offset := hst.handle.offset + 1 } }

def readdirLocked : Call (HandleSt σ D) (Option Dirent) := do
  let source ← entryNext env
  match source with
  | none => return none
  | some entry =>
    bumpOffset
    return some ⟨entry.inode, direntType entry.inodeType, entry.name⟩

/-- `vfs_lwext4_readdir_r` and `vfs_lwext4_readdir`; `none` is the end. -/
def vfsLwext4Readdir (pdir : Option ℕ) : Call (MountSt σ D) (Option Dirent) :=
  onHandle env pdir (readdirLocked env)

/-- `vfs_lwext4_readdir_r` for a caller that may pass `NULL` for `entry` or `out_dirent`. -/
def vfsLwext4ReaddirR (pdir : Option ℕ) (entry outDirent : Bool) :
    Call (MountSt σ D) (Option Dirent) := do
  failIf (pdir = none ∨ entry = false ∨ outDirent = false) .einval
  vfsLwext4Readdir env pdir

def vfsLwext4Telldir (pdir : Option ℕ) : Call (MountSt σ D) ℕ :=
  onHandle env pdir do
    let hst ← getState
    return hst.handle.offset

/-- The loop of `vfs_lwext4_seekdir`. -/
def seekdirLoop : ℕ → Call (HandleSt σ D) Unit
  | 0 => pure ()
  | rounds + 1 => do
    let entry ← entryNext env
    match entry with
    | none => pure ()
    | some _ =>
      bumpOffset
      seekdirLoop rounds

def seekdirLocked (offset : ℕ) : Call (HandleSt σ D) Unit := do
  let hst ← getState
  whenever (offset < hst.handle.offset) do
    zoom HandleSt.ext4Lens (update env.lwext4.dirEntryRewind)
    update fun hst => { hst with handle := { hst.handle with offset := 0 } }
  let hst ← getState
  seekdirLoop env (offset - hst.handle.offset)

def vfsLwext4Seekdir (pdir : Option ℕ) (offset : ℤ) : Call (MountSt σ D) Unit := do
  failIf (offset < 0) .einval
  onHandle env pdir (seekdirLocked env offset.toNat)

def vfsLwext4Closedir (pdir : Option ℕ) : Call (MountSt σ D) Unit := do
  let _ ← handleGet pdir
  locked env do
    let (id, dir) ← handleGet pdir
    zoom (MountSt.handleLens id dir) (zoom HandleSt.ext4Lens env.lwext4.dirClose)
    updateCtx fun ctx =>
      { ctx with
        openDirs := ctx.openDirs - 1
        dirs := ctx.dirs.filter fun p => p.1 ≠ id }

end Operations

/-! ## One operation as a step -/

/-- A call of the VFS on the mount. -/
inductive MountOp where
  | open_ (path : CStr) (flags : OpenFlags)
  | close (fd : ℤ)
  | write (fd : ℤ) (data : List UInt8)
  | read (fd : ℤ) (size : ℕ)
  | lseek (fd offset : ℤ) (whence : Whence)
  | pread (fd : ℤ) (size : ℕ) (offset : ℤ)
  | pwrite (fd : ℤ) (data : List UInt8) (offset : ℤ)
  | fstat (fd : ℤ)
  | fsync (fd : ℤ)
  | ftruncate (fd length : ℤ)
  | truncate (path : CStr) (length : ℤ)
  | stat (path : CStr)
  | link (path hardlinkPath : CStr)
  | unlink (path : CStr)
  | rename (src dst : CStr)
  | mkdir (name : CStr) (mode : ℕ)
  | rmdir (name : CStr)
  | access (path : CStr) (amode : ℕ)
  | utime (path : CStr) (times : Option (ℤ × ℤ))
  | opendir (name : CStr)
  | readdir (pdir : Option ℕ)
  | telldir (pdir : Option ℕ)
  | seekdir (pdir : Option ℕ) (offset : ℤ)
  | closedir (pdir : Option ℕ)
  | rmdirRecurse (relativePath : CStr)

/-- What an operation leaves behind. -/
def MountOp.exec (env : Env σ D) (st : MountSt σ D) : MountOp → MountSt σ D
  | .open_ path flags => (vfsLwext4Open env path flags).final st
  | .close fd => (vfsLwext4Close env fd).final st
  | .write fd data => (vfsLwext4Write env fd data).final st
  | .read fd size => (vfsLwext4Read env fd size).final st
  | .lseek fd offset whence => (vfsLwext4Lseek env fd offset whence).final st
  | .pread fd size offset => (vfsLwext4Pread env fd size offset).final st
  | .pwrite fd data offset => (vfsLwext4Pwrite env fd data offset).final st
  | .fstat fd => (vfsLwext4Fstat env fd).final st
  | .fsync fd => (vfsLwext4Fsync env fd).final st
  | .ftruncate fd length => (vfsLwext4Ftruncate env fd length).final st
  | .truncate path length => (vfsLwext4Truncate env path length).final st
  | .stat path => (vfsLwext4Stat env path).final st
  | .link path hardlinkPath => (vfsLwext4Link env path hardlinkPath).final st
  | .unlink path => (vfsLwext4Unlink env path).final st
  | .rename src dst => (vfsLwext4Rename env src dst).final st
  | .mkdir name mode => (vfsLwext4Mkdir env name mode).final st
  | .rmdir name => (vfsLwext4Rmdir env name).final st
  | .access path amode => (vfsLwext4Access env path amode).final st
  | .utime path times => (vfsLwext4Utime env path times).final st
  | .opendir name => (vfsLwext4Opendir env name).final st
  | .readdir pdir => (vfsLwext4Readdir env pdir).final st
  | .telldir pdir => (vfsLwext4Telldir env pdir).final st
  | .seekdir pdir offset => (vfsLwext4Seekdir env pdir offset).final st
  | .closedir pdir => (vfsLwext4Closedir env pdir).final st
  | .rmdirRecurse relativePath => (rmdirRecurseOn env relativePath).final st

end EspLwext4.Port
