import EspLwext4.Port.Buffers

/-!
# The block-device adapter

`port/lwext4_port_bdl.c` between lwext4 and an ESP-IDF block device: the
configuration checks, transfers in chunks of the adapter's buffer, `sync` and
the saved result of the lower device.

The lower device is a parameter. Its operations may be missing, and they act
on a state of their own, so any pattern of results is one device. The log
notes every operation the lower device performed, most recent first; no code
reads it.
-/

namespace EspLwext4.Port.Bdl

open Prog

/-! ## The lower device and the adapter -/

structure Geometry where
  diskSize : ℕ
  readSize : ℕ
  writeSize : ℕ

/-- `esp_blockdev_handle_t`; an operation that is `none` is a `NULL` pointer. -/
structure LowerDevice (δ : Type) where
  geometry : Geometry
  readOnly : Bool
  /-- address, size -/
  read : Option (ℕ → ℕ → δ → (EspErr × List UInt8) × δ)
  /-- address, data -/
  write : Option (ℕ → List UInt8 → δ → EspErr × δ)
  sync : Option (δ → EspErr × δ)

structure Config where
  physicalBlockSize : ℕ
  transferBufferBlocks : ℕ
  bufferCaps : ℕ
  bufferAlignment : ℕ
  readOnly : Bool
  syncAfterWrite : Bool
  lowerDeviceSupportsRewrite : Bool

/-- What the adapter takes from the target: the width of `size_t`, the meaning of
`MALLOC_CAP_8BIT` and the recursive mutex, which may fail to be taken. -/
structure Target (δ : Type) where
  sizeMax : ℕ
  mallocCap8bit : ℕ
  semaphoreTake : δ → Bool × δ

/-- The fields of `struct lwext4_port_bdl` that no transfer changes. The two
invariants are what `create` establishes for the loops and for `sync_lower`. -/
structure Adapter (δ : Type) where
  lower : LowerDevice δ
  phBsize : ℕ
  phBcnt : ℕ
  partSize : ℕ
  transferBufferBlocks : ℕ
  transferBufferSize : ℕ
  readOnly : Bool
  syncAfterWrite : Bool
  transferBufferBlocks_pos : 0 < transferBufferBlocks
  sync_of_syncAfterWrite : syncAfterWrite = true → lower.sync.isSome

/-- An operation on the lower device. -/
inductive LowerCall where
  | read (address size : ℕ)
  | write (address size : ℕ)
  | sync
deriving DecidableEq, Repr

structure St (δ : Type) where
  device : δ
  transferBuffer : List UInt8
  lastLowerError : EspErr
  /-- the caller's buffer -/
  buffer : List UInt8
  calls : List (LowerCall × EspErr)

abbrev M (δ α : Type) : Type := Prog Empty Errno (St δ) α

variable {δ : Type}

/-- The buffers in the state. -/
def St.buffers : Lens (St δ) Buffers where
  get s := ⟨s.transferBuffer, s.buffer⟩
  set b s := { s with transferBuffer := b.transferBuffer, buffer := b.buffer }

/-! ## Machine words -/

def isPowerOfTwo (value : ℕ) : Bool := value ≠ 0 ∧ value &&& (value - 1) = 0

def uint64 (n : ℕ) : ℕ := n % 18446744073709551616

def Target.sizeT (t : Target δ) (n : ℕ) : ℕ := n % (t.sizeMax + 1)

def St.log (s : St δ) (call : LowerCall) (error : EspErr) : St δ :=
  { s with calls := (call, error) :: s.calls }

/-! ## Creation -/

def validateCreateArgs (t : Target δ) (lower : LowerDevice δ) (config : Config) : EspErr :=
  if lower.read.isNone then .notSupported
  else if lower.geometry.diskSize = 0 ∨ lower.geometry.readSize = 0 ∨
      ¬ isPowerOfTwo config.physicalBlockSize ∨ config.bufferCaps = 0 ∨
      config.bufferCaps &&& t.mallocCap8bit = 0 ∨ ¬ isPowerOfTwo config.bufferAlignment ∨
      config.physicalBlockSize % config.bufferAlignment ≠ 0 then .invalidArg
  else if config.physicalBlockSize % lower.geometry.readSize ≠ 0 ∨
      lower.geometry.diskSize % config.physicalBlockSize ≠ 0 then .invalidSize
  else if ¬ config.readOnly ∧ lower.readOnly then .invalidState
  else if ¬ config.readOnly ∧ lower.write.isNone then .notSupported
  else if ¬ config.readOnly ∧ (lower.geometry.writeSize = 0 ∨
      config.physicalBlockSize % lower.geometry.writeSize ≠ 0) then .invalidSize
  else if ¬ config.readOnly ∧ ¬ config.lowerDeviceSupportsRewrite then .notSupported
  else if config.syncAfterWrite ∧ lower.sync.isNone then .notSupported
  else if t.sizeT config.physicalBlockSize ≠ 0 ∧
      t.sizeMax / t.sizeT config.physicalBlockSize <
        t.sizeT (if config.transferBufferBlocks = 0 then 1 else config.transferBufferBlocks)
    then .invalidSize
  else .ok

theorem sync_of_validateCreateArgs {t : Target δ} {lower : LowerDevice δ} {config : Config}
    (h : validateCreateArgs t lower config = .ok) (hs : config.syncAfterWrite = true) :
    lower.sync.isSome := by
  by_contra hn
  have hnone : lower.sync.isNone = true := by
    cases hl : lower.sync with
    | none => rfl
    | some f => rw [hl] at hn; exact absurd rfl hn
  unfold validateCreateArgs at h
  simp only [hs, hnone, true_and, if_true] at h
  split_ifs at h

/-- The adapter `create` builds. -/
def adapterOf (t : Target δ) (lower : LowerDevice δ) (config : Config)
    (h : validateCreateArgs t lower config = .ok) : Adapter δ where
  lower := lower
  phBsize := config.physicalBlockSize
  phBcnt := lower.geometry.diskSize / config.physicalBlockSize
  partSize := lower.geometry.diskSize
  transferBufferBlocks :=
    if config.transferBufferBlocks = 0 then 1 else config.transferBufferBlocks
  transferBufferSize :=
    t.sizeT (t.sizeT (if config.transferBufferBlocks = 0 then 1 else config.transferBufferBlocks)
      * t.sizeT config.physicalBlockSize)
  readOnly := config.readOnly
  syncAfterWrite := config.syncAfterWrite
  transferBufferBlocks_pos := by split_ifs with h0 <;> omega
  sync_of_syncAfterWrite := sync_of_validateCreateArgs h

/-- `lwext4_port_bdl_create`; `memory` is false when one of the allocations fails. -/
def lwext4PortBdlCreate (t : Target δ) (lower : LowerDevice δ) (config : Config)
    (memory : Bool) : Except EspErr (Adapter δ) :=
  if h : validateCreateArgs t lower config = .ok then
    if memory then .ok (adapterOf t lower config h) else .error .noMem
  else .error (validateCreateArgs t lower config)

/-- The state of a new adapter: nothing has been asked of the lower device. -/
def St.init (device : δ) (transferBuffer buffer : List UInt8) : St δ where
  device := device
  transferBuffer := transferBuffer
  lastLowerError := .ok
  buffer := buffer
  calls := []

/-! ## Transfers -/

section Transfers

variable (t : Target δ) (adapter : Adapter δ)

def saveLowerResult (error : EspErr) : M δ Unit := do
  update fun s => { s with lastLowerError := error }
  returnError error

def validateIoRange (blockId blockCount : ℕ) : Except Errno ℕ :=
  if blockCount = 0 then .ok 0
  else if adapter.phBcnt ≤ blockId ∨ adapter.phBcnt - blockId < blockCount then .error .einval
  else if t.sizeT adapter.phBsize ≠ 0 ∧
      t.sizeMax / t.sizeT adapter.phBsize < t.sizeT blockCount then .error .eoverflow
  else .ok (uint64 (blockId * adapter.phBsize))

/-- `adapter->lower->ops->sync`, when there is one. -/
def lowerSync : M δ EspErr := fun s =>
  match adapter.lower.sync with
  | none => .ok .ok s
  | some sync =>
    let (error, device) := sync s.device
    .ok error ({ s with device := device }.log .sync error)

/-- Like the source, this saves `ESP_OK` as the last lower result also when the
lower device has no `sync` and nothing was asked of it. -/
def syncLower : M δ EspErr := do
  let error ← lowerSync adapter
  update fun s => { s with lastLowerError := error }
  return error

/-- `adapter->lower->ops->read` into the transfer buffer. -/
def lowerRead (read : ℕ → ℕ → δ → (EspErr × List UInt8) × δ) (address size : ℕ) : M δ EspErr :=
  fun s =>
    let ((error, bytes), device) := read address size s.device
    .ok error ({ s with
      device := device
      transferBuffer := putBytes s.transferBuffer 0 bytes }.log (.read address size) error)

/-- `adapter->lower->ops->write` from the transfer buffer. -/
def lowerWrite (write : ℕ → List UInt8 → δ → EspErr × δ) (address size : ℕ) : M δ EspErr :=
  fun s =>
    let (error, device) := write address (s.transferBuffer.take size) s.device
    .ok error ({ s with device := device }.log (.write address size) error)

/-- The loop of `bdl_read`: `done` bytes have been delivered. Every round moves at
least one block, so `blocks_remaining` rounds are enough. -/
def readLoop (read : ℕ → ℕ → δ → (EspErr × List UInt8) × δ) (buffer : Buffer) :
    ℕ → ℕ → ℕ → ℕ → M δ Unit
  | 0, _, _, _ => pure ()
  | rounds + 1, blocksRemaining, address, done =>
    if blocksRemaining = 0 then pure ()
    else do
      let chunkBlocks := min blocksRemaining adapter.transferBufferBlocks
      let chunkSize := t.sizeT (t.sizeT chunkBlocks * t.sizeT adapter.phBsize)
      let error ← lowerRead read address chunkSize
      saveLowerResult error
      whenever (¬ (buffer = .transfer ∧ done = 0)) (copyOut St.buffers buffer done chunkSize)
      readLoop read buffer rounds (blocksRemaining - chunkBlocks) (uint64 (address + chunkSize))
        (done + chunkSize)

def writeLoop (write : ℕ → List UInt8 → δ → EspErr × δ) (buffer : Buffer) :
    ℕ → ℕ → ℕ → ℕ → M δ Unit
  | 0, _, _, _ => pure ()
  | rounds + 1, blocksRemaining, address, done =>
    if blocksRemaining = 0 then pure ()
    else do
      let chunkBlocks := min blocksRemaining adapter.transferBufferBlocks
      let chunkSize := t.sizeT (t.sizeT chunkBlocks * t.sizeT adapter.phBsize)
      whenever (¬ (buffer = .transfer ∧ done = 0)) (copyIn St.buffers buffer done chunkSize)
      let error ← lowerWrite write address chunkSize
      saveLowerResult error
      writeLoop write buffer rounds (blocksRemaining - chunkBlocks) (uint64 (address + chunkSize))
        (done + chunkSize)

def bdlRead (buffer : Buffer) (blockId blockCount : ℕ) : M δ Unit :=
  match adapter.lower.read with
  | none => raise .einval
  | some read => do
    failIf (buffer = .null) .einval
    match validateIoRange t adapter blockId blockCount with
    | .error e => raise e
    | .ok address =>
      if blockCount = 0 then pure ()
      else do
        failIf (buffer = .transfer ∧ adapter.transferBufferBlocks < blockCount) .einval
        readLoop t adapter read buffer blockCount blockCount address 0

def bdlWrite (buffer : Buffer) (blockId blockCount : ℕ) : M δ Unit := do
  failIf (buffer = .null) .einval
  failIf (adapter.readOnly = true ∨ adapter.lower.readOnly = true) .erofs
  match adapter.lower.write with
  | none => raise .enotsup
  | some write =>
    match validateIoRange t adapter blockId blockCount with
    | .error e => raise e
    | .ok address =>
      if blockCount = 0 then pure ()
      else do
        failIf (buffer = .transfer ∧ adapter.transferBufferBlocks < blockCount) .einval
        writeLoop t adapter write buffer blockCount blockCount address 0
        if adapter.syncAfterWrite then do
          let error ← syncLower adapter
          returnError error
        else pure ()

def bdlClose : M δ Unit := do
  let error ← syncLower adapter
  returnError error

/-- `lwext4_port_bdl_sync` -/
def lwext4PortBdlSync : M δ EspErr := fun s =>
  let (taken, device) := t.semaphoreTake s.device
  if taken then syncLower adapter { s with device := device }
  else .ok .fail { s with device := device }

/-- `bdl_open` -/
def bdlOpen : M δ Unit :=
  failIf (adapter.lower.read.isNone ∨ adapter.readOnly = false ∧ adapter.lower.write.isNone) .eio

/-- `lwext4_port_bdl_destroy` up to the frees, which follow when this returns `ESP_OK`. -/
def lwext4PortBdlDestroy (phRefctr : ℕ) : M δ EspErr := fun s =>
  let (taken, device) := t.semaphoreTake s.device
  if taken then
    if phRefctr ≠ 0 then .ok .invalidState { s with device := device }
    else syncLower adapter { s with device := device }
  else .ok .fail { s with device := device }

end Transfers

def lwext4PortBdlLastError (s : St δ) : EspErr := s.lastLowerError

end EspLwext4.Port.Bdl
