import EspLwext4.Port.Contexts

/-!
# An lwext4 in memory

A small library with the behaviour that `port/esp_lwext4.c` relies on: names
are full paths, an inode number is free as soon as its last name is gone and the
next file gets the lowest free one, and every open file keeps its own copy of the
size. The results about the adapter are run on it.
-/

namespace EspLwext4.Port

open Prog

/-- The bytes of a file after writing `new` at `pos`. -/
def overlay (old : List UInt8) (pos : ℕ) (new : List UInt8) : List UInt8 :=
  (old ++ List.replicate (pos - old.length) 0).take pos ++ new ++ old.drop (pos + new.length)

structure Ram where
  mounts : List CStr
  /-- every name, by its full path, with its inode -/
  names : List (CStr × ℕ)
  /-- the inodes that are directories -/
  dirs : List ℕ
  data : ℕ → List UInt8
  /-- how many files each inode has held -/
  births : ℕ → ℕ
  /-- how many directory entries can still be read; `none` is no limit -/
  readsLeft : Option ℕ

namespace Ram

def lookup (s : Ram) (p : CStr) : Option ℕ := s.names.lookup p

def links (s : Ram) (i : ℕ) : ℕ := s.names.countP fun n => n.2 == i

def setData (s : Ram) (i : ℕ) (d : List UInt8) : Ram :=
  { s with data := fun j => if j = i then d else s.data j }

/-- The lowest free inode number, counting from 12. -/
def freeInode (s : Ram) : ℕ :=
  (((List.range (s.names.length + 1)).map (· + 12)).find? fun i => s.links i == 0).getD
    (s.names.foldl (fun m n => max m n.2) 12 + 1)

def addName (s : Ram) (p : CStr) (i : ℕ) : Ram := { s with names := (p, i) :: s.names }

/-- A new empty file takes the lowest free inode. -/
def addFile (s : Ram) (p : CStr) : Ram :=
  { (s.addName p s.freeInode).setData s.freeInode [] with
    dirs := s.dirs.filter fun i => i ≠ s.freeInode
    births := fun i => if i = s.freeInode then s.births i + 1 else s.births i }

def removeName (s : Ram) (p : CStr) : Ram := { s with names := s.names.filter fun n => n.1 ≠ p }

/-- The path lies below the directory. -/
def isBelow (dir p : CStr) : Bool := (dir ++ [slash]).isPrefixOf p

def removeTree (s : Ram) (p : CStr) : Ram :=
  { s with names := s.names.filter fun n => n.1 ≠ p ∧ isBelow p n.1 = false }

def renamed (src dst p : CStr) : CStr :=
  if p = src then dst else if isBelow src p then dst ++ p.drop src.length else p

def rename (s : Ram) (src dst : CStr) : Ram :=
  { s with names := s.names.map fun n => (renamed src dst n.1, n.2) }

def inode (s : Ram) (i : ℕ) : Ext4Inode where
  mode := if i ∈ s.dirs then 0o40755 else 0o100644
  isDirectory := i ∈ s.dirs
  linksCnt := s.links i
  uid := 0
  gid := 0
  size := (s.data i).length
  accessTime := 0
  modifTime := 0
  changeInodeTime := 0

def child (dir : CStr) (n : CStr × ℕ) : Option Ext4Direntry :=
  let name := n.1.drop (dir.length + 1)
  if isBelow dir n.1 ∧ slash ∉ name then some ⟨n.2, .unknown, name⟩ else none

/-- The entries of a directory. -/
def entries (s : Ram) (p : CStr) : List Ext4Direntry :=
  ⟨0, .dir, [dot]⟩ :: ⟨0, .dir, [dot, dot]⟩ :: s.names.filterMap (child p)

/-- The answer of a call on a name that must exist. -/
def onName {α : Type} (p : CStr) (f : ℕ → Ram → Outcome Empty Errno Ram α) : Call Ram α :=
  fun s => match s.lookup p with
  | none => .err .enoent s
  | some i => f i s

theorem wp_onName {α : Type} {p : CStr} {f : ℕ → Ram → Outcome Empty Errno Ram α}
    {Q : α → Ram → Prop} {E : Errno → Ram → Prop} {s : Ram} (h : s.lookup p = none → E .enoent s)
    (h' : ∀ i, s.lookup p = some i → wp (f i) Q E s) : wp (onName p f) Q E s := by
  unfold wp onName
  cases hp : s.lookup p with
  | none => exact h hp
  | some i => exact h' i hp

def fopen2 (p : CStr) (flags : OpenFlags) : Call (FileSt Ram) Unit := fun st =>
  match st.fs.lookup p with
  | some i =>
    let s := if flags.trunc then st.fs.setData i [] else st.fs
    if i ∈ st.fs.dirs then .err .enoent st
    else .ok () ⟨s, ⟨i, (s.data i).length, if flags.append then (s.data i).length else 0⟩⟩
  | none =>
    if flags.creat then .ok () ⟨st.fs.addFile p, ⟨st.fs.freeInode, 0, 0⟩⟩
    else .err .enoent st

def refreshed (st : FileSt Ram) : Ext4File :=
  { st.file with fsize := (st.fs.data st.file.inode).length }

def fread (size : ℕ) : Call (FileSt Ram) (List UInt8) := fun st =>
  let bytes := ((st.fs.data st.file.inode).drop st.file.fpos).take size
  .ok bytes ⟨st.fs, { refreshed st with fpos := st.file.fpos + bytes.length }⟩

def fwrite (data : List UInt8) : Call (FileSt Ram) ℕ := fun st =>
  let new := overlay (st.fs.data st.file.inode) st.file.fpos data
  .ok data.length ⟨st.fs.setData st.file.inode new,
    ⟨st.file.inode, new.length, st.file.fpos + data.length⟩⟩

def seekTarget (file : Ext4File) (offset : ℤ) : Whence → Option ℤ
  | .seekSet => if 0 ≤ offset ∧ offset ≤ file.fsize then some offset else none
  | .seekCur =>
    if 0 ≤ file.fpos + offset ∧ (0 < offset → file.fpos + offset ≤ file.fsize) then
      some (file.fpos + offset)
    else none
  | .seekEnd => if 0 ≤ offset ∧ offset ≤ file.fsize then some (file.fsize - offset) else none
  | .other => none

def fseek (offset : ℤ) (whence : Whence) : Call (FileSt Ram) Unit := fun st =>
  match seekTarget st.file offset whence with
  | some target => .ok () ⟨st.fs, { st.file with fpos := target.toNat }⟩
  | none => .err .einval st

def ftruncate (size : ℕ) : Call (FileSt Ram) Unit := fun st =>
  let old := st.fs.data st.file.inode
  .ok () ⟨st.fs.setData st.file.inode (old.take size),
    ⟨st.file.inode, (old.take size).length, min st.file.fpos (old.take size).length⟩⟩

def dirEntryNext (st : DirSt Ram (List Ext4Direntry)) :
    Option Ext4Direntry × DirSt Ram (List Ext4Direntry) :=
  match st.dir, st.fs.readsLeft with
  | [], _ => (none, st)
  | _ :: _, some 0 => (none, st)
  | e :: rest, none => (some e, ⟨st.fs, rest⟩)
  | e :: rest, some (n + 1) => (some e, ⟨{ st.fs with readsLeft := some n }, rest⟩)

theorem dirEntryNext_shorter (st : DirSt Ram (List Ext4Direntry)) (e : Ext4Direntry)
    (st' : DirSt Ram (List Ext4Direntry)) (h : dirEntryNext st = (some e, st')) :
    st'.dir.length < st.dir.length := by
  obtain ⟨s, dir⟩ := st
  unfold dirEntryNext at h
  cases dir with
  | nil => simp at h
  | cons e' rest =>
    cases hr : s.readsLeft with
    | none =>
      simp only [hr, Prod.mk.injEq] at h
      obtain ⟨-, rfl⟩ := h
      exact Nat.lt_succ_self _
    | some n =>
      cases n with
      | zero => simp [hr] at h
      | succ n =>
        simp only [hr, Prod.mk.injEq] at h
        obtain ⟨-, rfl⟩ := h
        exact Nat.lt_succ_self _

/-- The library. -/
def lwext4 : Lwext4 Ram (List Ext4Direntry) where
  inodeExist p type := onName p fun i s =>
    if type = .unknown ∨ (type = .dir ↔ i ∈ s.dirs) then .ok () s else .err .enoent s
  fopen2 := fopen2
  fclose := fun st => .ok () st
  fread := fread
  fwrite := fwrite
  fseek := fseek
  ftruncate := ftruncate
  rawInodeFill p := onName p fun i s => .ok (i, s.inode i) s
  getSblock _ := fun s => .ok () s
  mountPointStats p := fun s => if s.mounts.any (·.isPrefixOf p) then .ok 1024 s else .err .enoent s
  cacheFlush _ := fun s => .ok () s
  flink p q := onName p fun i s =>
    if (s.lookup q).isSome then .err .eexist s else .ok () (s.addName q i)
  frename src dst := onName src fun _ s =>
    if (s.lookup dst).isSome then .err .eexist s else .ok () (s.rename src dst)
  fremove p := onName p fun i s => if i ∈ s.dirs then .err .eisdir s else .ok () (s.removeName p)
  dirOpen p := onName p fun i s => if i ∈ s.dirs then .ok (s.entries p) s else .err .enotdir s
  dirClose := fun st => .ok () st
  dirEntryNext := dirEntryNext
  dirEntryRewind st := st
  dirMk p := fun s =>
    if (s.lookup p).isSome then .err .eexist s
    else .ok () { s.addName p s.freeInode with dirs := s.freeInode :: s.dirs }
  dirRm p := onName p fun i s => if i ∈ s.dirs then .ok () (s.removeTree p) else .err .enotdir s
  modeSet p _ := onName p fun _ s => .ok () s
  atimeSet p _ := onName p fun _ s => .ok () s
  mtimeSet p _ := onName p fun _ s => .ok () s
  dirLeft := List.length
  dirLeft_next := dirEntryNext_shorter

/-- A 32-bit target with 64-bit file offsets, on which nothing fails. -/
def idf : Idf Ram where
  sizeMax := 4294967295
  offBits := 64
  ext4MaxMpName := 32
  espVfsPathMax := 15
  growBufferSize := 4
  intMax := 2147483647
  malloc _ s := (true, s)
  semaphoreTake s := (true, s)
  semaphoreCreate s := (true, s)
  vfsRegisterFs _ _ s := (.ok, s)
  vfsUnregisterFs _ s := (.ok, s)
  now s := (0, s)

def env : Env Ram (List Ext4Direntry) := ⟨lwext4, idf⟩

/-- An empty filesystem mounted at `/`. -/
def blank : Ram := ⟨[[slash]], [], [], fun _ => [], fun _ => 0, none⟩

end Ram

end EspLwext4.Port
