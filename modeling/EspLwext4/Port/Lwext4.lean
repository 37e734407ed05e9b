import EspLwext4.Lib.Lens
import EspLwext4.Port.Errors
import Mathlib.Algebra.Group.Nat.Defs
import Mathlib.Data.List.Basic
import Mathlib.Data.Int.Notation

/-!
# The code below the VFS adapter

`port/esp_lwext4.c` calls lwext4, the C library and FreeRTOS. None of them is
part of the repository, so each function it calls is a field of `Lwext4` or
`Idf`. They act on a state `σ` of their own: a call may answer anything the
state decides, and any pattern of failures is one such state.

Paths are byte strings without the terminating zero; the empty string stands
for `NULL` where the adapter keeps a pointer to a path, since no path it makes
is empty.
-/

namespace EspLwext4.Port

abbrev CStr : Type := List UInt8

def slash : UInt8 := 47
def dot : UInt8 := 46

/-! ## Data that crosses the interface -/

/-- `flags & O_ACCMODE` -/
inductive AccMode where
  | rdonly | wronly | rdwr | other
deriving DecidableEq, Repr

/-- The bits of `flags` the adapter looks at. -/
structure OpenFlags where
  accMode : AccMode
  append : Bool
  creat : Bool
  trunc : Bool
  excl : Bool
deriving DecidableEq, Repr

def OpenFlags.none : OpenFlags := ⟨.rdonly, false, false, false, false⟩

/-- `O_RDWR` -/
def OpenFlags.rdwr : OpenFlags := ⟨.rdwr, false, false, false, false⟩

/-- The type a lookup asks for, and the type of a directory entry. -/
inductive DeType where
  | unknown | regFile | dir | chrdev | blkdev | fifo | sock | symlink
deriving DecidableEq, Repr

inductive Whence where
  | seekSet | seekCur | seekEnd | other
deriving DecidableEq, Repr

/-- The fields of `ext4_file` that the adapter reads or writes; `fpos` is what
`ext4_ftell` returns. The mount and the open mode stay inside lwext4. -/
structure Ext4File where
  inode : ℕ
  fsize : ℕ
  fpos : ℕ
deriving DecidableEq, Repr

/-- `memset(&file, 0, sizeof(file))` -/
def Ext4File.zero : Ext4File := ⟨0, 0, 0⟩

/-- `struct ext4_inode`, as its accessors read it. -/
structure Ext4Inode where
  mode : ℕ
  isDirectory : Bool
  linksCnt : ℕ
  uid : ℕ
  gid : ℕ
  size : ℕ
  accessTime : ℕ
  modifTime : ℕ
  changeInodeTime : ℕ
deriving DecidableEq, Repr

structure Ext4Direntry where
  inode : ℕ
  inodeType : DeType
  name : CStr
deriving DecidableEq, Repr

/-- What a call on an `ext4_file` works on. -/
structure FileSt (σ : Type) where
  fs : σ
  file : Ext4File

/-- What a call on an `ext4_dir` works on. -/
structure DirSt (σ D : Type) where
  fs : σ
  dir : D

abbrev Call (σ α : Type) : Type := Prog Empty Errno σ α

/-! ## The functions -/

/-- The lwext4 functions the adapter calls; `D` is `ext4_dir`. A failing
`ext4_fwrite` also reports how much it wrote, but nothing reads it. -/
structure Lwext4 (σ D : Type) where
  inodeExist : CStr → DeType → Call σ Unit
  fopen2 : CStr → OpenFlags → Call (FileSt σ) Unit
  fclose : Call (FileSt σ) Unit
  fread : ℕ → Call (FileSt σ) (List UInt8)
  fwrite : List UInt8 → Call (FileSt σ) ℕ
  fseek : ℤ → Whence → Call (FileSt σ) Unit
  ftruncate : ℕ → Call (FileSt σ) Unit
  rawInodeFill : CStr → Call σ (ℕ × Ext4Inode)
  getSblock : CStr → Call σ Unit
  /-- the block size among the statistics -/
  mountPointStats : CStr → Call σ ℕ
  cacheFlush : CStr → Call σ Unit
  flink : CStr → CStr → Call σ Unit
  frename : CStr → CStr → Call σ Unit
  fremove : CStr → Call σ Unit
  dirOpen : CStr → Call σ D
  dirClose : Call (DirSt σ D) Unit
  dirEntryNext : DirSt σ D → Option Ext4Direntry × DirSt σ D
  dirEntryRewind : DirSt σ D → DirSt σ D
  dirMk : CStr → Call σ Unit
  dirRm : CStr → Call σ Unit
  modeSet : CStr → ℕ → Call σ Unit
  atimeSet : CStr → ℕ → Call σ Unit
  mtimeSet : CStr → ℕ → Call σ Unit
  /-- bytes of the directory behind the read position -/
  dirLeft : D → ℕ
  /-- A directory is finite: an entry that is returned has been passed. -/
  dirLeft_next : ∀ st e st', dirEntryNext st = (some e, st') → dirLeft st'.dir < dirLeft st.dir

/-- The target: type widths, the configuration, the allocator, semaphores and the
ESP-IDF VFS. -/
structure Idf (σ : Type) where
  sizeMax : ℕ
  /-- width of `off_t` -/
  offBits : ℕ
  ext4MaxMpName : ℕ
  espVfsPathMax : ℕ
  growBufferSize : ℕ
  intMax : ℕ
  /-- `malloc`, `calloc`, `strdup` of that many bytes -/
  malloc : ℕ → σ → Bool × σ
  semaphoreTake : σ → Bool × σ
  semaphoreCreate : σ → Bool × σ
  vfsRegisterFs : CStr → Bool → σ → EspErr × σ
  vfsUnregisterFs : CStr → σ → EspErr × σ
  /-- `time(NULL)` -/
  now : σ → ℤ × σ

structure Env (σ D : Type) where
  lwext4 : Lwext4 σ D
  idf : Idf σ

/-! ## Machine words -/

def int64Max : ℕ := 9223372036854775807

/-- `(int64_t)n` of an unsigned 64-bit number -/
def int64 (n : ℕ) : ℤ := Int.bmod n 18446744073709551616

theorem int64_of_le {n : ℕ} (h : n ≤ int64Max) : int64 n = n := by
  unfold int64Max at h
  unfold int64
  apply Int.bmod_eq_of_le
  · omega
  · omega

section Target

variable {σ : Type} (idf : Idf σ)

def Idf.offTMaxValue : ℕ := 2 ^ (idf.offBits - 1) - 1

/-- `io_size_limit` -/
def Idf.ioSizeLimit (size : ℕ) : ℕ := min size (idf.sizeMax / 2)

end Target

/-! ## Parts of the state -/

def FileSt.fsLens {σ : Type} : Lens (FileSt σ) σ where
  get := FileSt.fs
  set fs st := { st with fs := fs }

def DirSt.fsLens {σ D : Type} : Lens (DirSt σ D) σ where
  get := DirSt.fs
  set fs st := { st with fs := fs }

@[simp] theorem FileSt.get_fsLens {σ : Type} (st : FileSt σ) : FileSt.fsLens.get st = st.fs := rfl

@[simp] theorem FileSt.set_fsLens {σ : Type} (fs : σ) (st : FileSt σ) :
    FileSt.fsLens.set fs st = ⟨fs, st.file⟩ := rfl

end EspLwext4.Port
