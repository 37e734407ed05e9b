import EspLwext4.Lib.Prog
import EspLwext4.Extent.Types
import Mathlib.Algebra.Group.Nat.Defs
import Mathlib.Data.Multiset.Basic

/-!
# The inode, its volume and the code outside the port

`InodeRef` carries what the extent code reads of the mounted filesystem and of
the inode and never changes, together with the answers of the lwext4 functions
it calls (`Lwext4`): those live in a submodule, so they are parameters, and an
answer may depend on everything that was called before.

The state is the inode root, the cached contents of all blocks and the log of
outside calls. A block buffer is the cached copy of its block: a store shows in
the next get of the same block, whether or not the buffer was marked dirty.
-/

namespace EspLwext4

/-- Error codes; `EOK` is the absence of one. -/
inductive Errno where
  | eio | enoent | enospc | einval | eexist | enotsup | efbig
  | other (code : ℕ)
deriving DecidableEq, Repr

/-- What C leaves undefined, and a loop that the model stopped early. -/
inductive Fault where
  | outOfBounds
  | outOfFuel
deriving DecidableEq, Repr

/-- The function a block read is issued from; `splitFullNode` issues two, one for
the node it is about to split and one to shorten it afterwards. -/
inductive Site where
  | findExtent | nodeGetExtent | nodeGetIndex | leftmostExtentBelow | mergeExtent
  | insertIndexEntry | splitSource | splitShorten | insertNewExtent | writeIndexAt
  | removeLeaf | removeIndex | removeMiddleOfExtent
deriving DecidableEq, Repr

/-- Calls into the block layer and the freeing side of the allocator. -/
inductive IoCall where
  | transBlockGet (site : Site) (pblock : ℕ)
  | transBlockGetNoread (pblock : ℕ)
  | transSetBlockDirty (pblock : ℕ)
  | blockSet (pblock : ℕ)
  | ballocFreeBlock (pblock : ℕ)
  | ballocFreeBlocks (first count : ℕ)
deriving DecidableEq, Repr

/-- One entry of the log. `checked` is not a call: it notes that
`validateSelectedEntry` or `validateEntries` accepted an entry naming blocks `first`, … -/
inductive Event where
  | io (call : IoCall) (result : Option Errno)
  | ballocAllocBlock (goal : ℕ) (result : Except Errno ℕ)
  | checked (first count : ℕ)

/-- The lwext4 functions outside the port. -/
structure Lwext4 where
  io : IoCall → List Event → Option Errno
  ballocAllocBlock : ℕ → List Event → Except Errno ℕ
  inodeToGoalBlock : ℕ
  crc32c : UInt32 → List UInt8 → UInt32

structure InodeRef where
  lwext4 : Lwext4
  blockSize : ℕ
  /-- ext4 block sizes: powers of two from 1024 to 65536. -/
  blockSize_pow : ∃ k, 10 ≤ k ∧ k ≤ 16 ∧ blockSize = 2 ^ k
  /-- `ext4_sb_get_blocks_cnt` -/
  blocksCnt : ℕ
  /-- `EXT4_FRO_COM_METADATA_CSUM` is set -/
  metadataCsum : Bool
  uuid : List UInt8
  index : ℕ
  generation : ℕ
  /-- journaling is compiled in, `jbd_journal` and `curr_trans` are not `NULL` -/
  inTransaction : Bool

/-- Where a node lives: the 60 bytes in the inode, or a block. -/
inductive Place where
  | root
  | block (pblock : ℕ)
deriving DecidableEq, Repr

/-- The place a path node names by `pblock_of_node`. -/
def Place.of (pblockOfNode : ℕ) : Place :=
  if pblockOfNode = 0 then .root else .block pblockOfNode

/-- The bytes of the inode root and of every block. -/
abbrev Disk : Type := Place → Bytes

structure St where
  bytes : Disk
  /-- `inode_ref->dirty` -/
  dirty : Bool
  /-- most recent call first -/
  trace : List Event

def Disk.set (D : Disk) (p : Place) (d : Bytes) : Disk := fun q => if q = p then d else D q

def St.setBytes (s : St) (p : Place) (d : Bytes) : St := { s with bytes := s.bytes.set p d }

def St.log (s : St) (ev : Event) : St := { s with trace := ev :: s.trace }

def St.logAll (s : St) (evs : List Event) : St := { s with trace := evs.reverse ++ s.trace }

abbrev M (α : Type) : Type := Prog Fault Errno St α

open Prog

variable (inodeRef : InodeRef)

/-- Size of the buffer at a place. -/
def InodeRef.bufSize : Place → ℕ
  | .root => 60
  | .block _ => inodeRef.blockSize

/-- Touching `len` bytes from `off` on is undefined outside the buffer. -/
def access (p : Place) (off len : ℕ) : M Unit :=
  if off + len ≤ inodeRef.bufSize p then pure () else crash .outOfBounds

/-- Read part of a buffer. -/
def peek {α : Type} (p : Place) (off len : ℕ) (f : Bytes → α) : M α := do
  access inodeRef p off len
  let s ← getState
  return f (s.bytes p)

/-- Rewrite part of a buffer. -/
def poke (p : Place) (off len : ℕ) (f : Bytes → Bytes) : M Unit := do
  access inodeRef p off len
  update fun s => s.setBytes p (f (s.bytes p))

def loadHeader (p : Place) : M Ext4ExtentHeader := peek inodeRef p 0 12 headerLoad

def storeHeader (p : Place) (header : Ext4ExtentHeader) : M Unit :=
  poke inodeRef p 0 12 (headerStore · header)

def loadExtent (p : Place) (pos : ℕ) : M Ext4Extent :=
  peek inodeRef p (entryOff pos) 12 (extentLoad · (entryOff pos))

def storeExtent (p : Place) (pos : ℕ) (extent : Ext4Extent) : M Unit :=
  poke inodeRef p (entryOff pos) 12 (extentStore · (entryOff pos) extent)

def loadIndex (p : Place) (pos : ℕ) : M Ext4ExtentIndex :=
  peek inodeRef p (entryOff pos) 12 (indexLoad · (entryOff pos))

def storeIndex (p : Place) (pos : ℕ) (index : Ext4ExtentIndex) : M Unit :=
  poke inodeRef p (entryOff pos) 12 (indexStore · (entryOff pos) index)

/-- `read_le32` of the first word of entry `pos`: the key of either record. -/
def loadKey (p : Place) (pos : ℕ) : M ℕ :=
  peek inodeRef p (entryOff pos) 4 (Bytes.readLe32 · (entryOff pos))

/-- `memmove` of `n` entries inside one node. -/
def moveEntries (p : Place) (dst src n : ℕ) : M Unit := do
  access inodeRef p (entryOff dst) (n * 12)
  poke inodeRef p (entryOff src) (n * 12) fun d => d.copy (entryOff dst) d (entryOff src) (n * 12)

/-- `memcpy` of `n` entries from one node to another. -/
def copyEntries (p : Place) (dst : ℕ) (q : Place) (src n : ℕ) : M Unit := do
  access inodeRef q (entryOff src) (n * 12)
  let s ← getState
  poke inodeRef p (entryOff dst) (n * 12) fun d =>
    d.copy (entryOff dst) (s.bytes q) (entryOff src) (n * 12)

/-- `memset` with zero. -/
def clear (p : Place) (off len : ℕ) : M Unit := poke inodeRef p off len (·.zero off len)

def setInodeDirty : M Unit := update fun s => { s with dirty := true }

/-! ## Calls outside -/

/-- Fail with the first error of the results of two calls. -/
def check (r : Option Errno) : M Unit :=
  match r with
  | none => pure ()
  | some e => raise e

def callIo (c : IoCall) : M (Option Errno) := do
  let s ← getState
  let r := inodeRef.lwext4.io c s.trace
  update (·.log (.io c r))
  return r

/-- `ext4_trans_block_get` -/
def nodeBlockGet (site : Site) (pblock : ℕ) : M Unit := do
  check (← callIo inodeRef (.transBlockGet site pblock))

/-- `ext4_trans_block_get_noread` -/
def transBlockGetNoread (pblock : ℕ) : M Unit := do
  check (← callIo inodeRef (.transBlockGetNoread pblock))

/-- `ext4_block_set` -/
def blockSet (pblock : ℕ) : M Unit := do
  check (← callIo inodeRef (.blockSet pblock))

def nodeBlockPut (pblock : ℕ) : M Unit := do
  let r ← callIo inodeRef (.transSetBlockDirty pblock)
  let putR ← callIo inodeRef (.blockSet pblock)
  check (r <|> putR)

/-- `ext4_balloc_free_block` -/
def ballocFreeBlock (pblock : ℕ) : M Unit := do
  check (← callIo inodeRef (.ballocFreeBlock pblock))

/-- `ext4_balloc_free_blocks` -/
def ballocFreeBlocks (first count : ℕ) : M Unit := do
  check (← callIo inodeRef (.ballocFreeBlocks first count))

/-- `ext4_balloc_alloc_block` -/
def ballocAllocBlock (goal : ℕ) : M ℕ := do
  let s ← getState
  let r := inodeRef.lwext4.ballocAllocBlock goal s.trace
  update (·.log (.ballocAllocBlock goal r))
  match r with
  | .ok b => pure b
  | .error e => raise e

/-- Release the block held from an earlier step of a walk, if any. -/
def releaseHeld (held : Option ℕ) : M Unit :=
  match held with
  | none => pure ()
  | some b => blockSet inodeRef b

def requireJournaledMutation : M Unit :=
  if inodeRef.inTransaction then pure () else raise .enotsup

end EspLwext4
