import EspLwext4.Port.Bdl
import Mathlib.Data.Int.Notation

/-!
# The SDMMC adapter

`port/lwext4_port_sdmmc.c` between lwext4 and an SD card that is driven by sector number: the
configuration checks and the transfers in chunks of the adapter's buffer. Machine words are those
of the block-device adapter. A card has no `sync`, and the adapter saves no lower result.
-/

namespace EspLwext4.Port.Sdmmc

open Prog
open Bdl (Target isPowerOfTwo uint64)

/-! ## The card and the adapter -/

/-- `sdmmc_card_t`: the two `int` fields of its CSD that the adapter reads, and the driver. -/
structure Card (δ : Type) where
  sectorSize : ℤ
  capacity : ℤ
  /-- `sdmmc_read_sectors`: start sector, sector count -/
  readSectors : ℕ → ℕ → δ → (EspErr × List UInt8) × δ
  /-- `sdmmc_write_sectors`: start sector, sector count, source -/
  writeSectors : ℕ → ℕ → List UInt8 → δ → EspErr × δ

structure Config where
  physicalBlockSize : ℕ
  bufferCaps : ℕ
  bufferAlignment : ℕ
  transferBufferBlocks : ℕ

/-- The fields of `struct lwext4_port_sdmmc` that no transfer changes. The invariants are what
`create` establishes for the loops and for the divisions of the range check. -/
structure Adapter (δ : Type) where
  card : Card δ
  phBsize : ℕ
  phBcnt : ℕ
  partSize : ℕ
  transferBufferBlocks : ℕ
  transferBufferSize : ℕ
  transferBufferBlocks_pos : 0 < transferBufferBlocks
  phBsize_pos : 0 < phBsize

/-- A call of the driver. -/
inductive CardCall where
  | read (sector count : ℕ)
  | write (sector count : ℕ)
deriving DecidableEq, Repr

structure St (δ : Type) where
  device : δ
  transferBuffer : List UInt8
  /-- the caller's buffer -/
  buffer : List UInt8
  calls : List (CardCall × EspErr)

abbrev M (δ α : Type) : Type := Prog Empty Errno (St δ) α

variable {δ : Type}

/-- The buffers in the state. -/
def St.buffers : Lens (St δ) Buffers where
  get s := ⟨s.transferBuffer, s.buffer⟩
  set b s := { s with transferBuffer := b.transferBuffer, buffer := b.buffer }

/-- `(uint32_t)` of an `int` -/
def uint32OfInt (i : ℤ) : ℕ := (i % 4294967296).toNat

/-- `(uint64_t)` of an `int` -/
def uint64OfInt (i : ℤ) : ℕ := (i % 18446744073709551616).toNat

def St.log (s : St δ) (call : CardCall) (error : EspErr) : St δ :=
  { s with calls := (call, error) :: s.calls }

def validCard (card : Card δ) : Bool := 0 < card.sectorSize ∧ 0 < card.capacity

def deviceSize (card : Card δ) : ℕ :=
  uint64 (uint64OfInt card.capacity * uint64OfInt card.sectorSize)

/-! ## Creation -/

/-- `transfer_buffer_blocks`, where zero stands for one. -/
def Config.bufferBlocks (config : Config) : ℕ :=
  if config.transferBufferBlocks = 0 then 1 else config.transferBufferBlocks

theorem Config.bufferBlocks_pos (config : Config) : 0 < config.bufferBlocks := by
  unfold Config.bufferBlocks
  split_ifs with h
  · exact Nat.one_pos
  · exact Nat.pos_of_ne_zero h

/-- `sector_size` is compared with zero only, so a negative one passes when its 32-bit word is
the configured size. -/
def validateCreateArgs (t : Target δ) (card : Card δ) (config : Config) : EspErr :=
  if card.sectorSize = 0 ∨ card.capacity ≤ 0 then .invalidSize
  else if config.physicalBlockSize ≠ uint32OfInt card.sectorSize then .invalidSize
  else if ¬ isPowerOfTwo config.physicalBlockSize ∨ config.bufferCaps = 0 ∨
      config.bufferCaps &&& t.mallocCap8bit = 0 ∨ ¬ isPowerOfTwo config.bufferAlignment ∨
      config.physicalBlockSize % config.bufferAlignment ≠ 0 then .invalidArg
  else if t.sizeT config.physicalBlockSize ≠ 0 ∧
      t.sizeMax / t.sizeT config.physicalBlockSize <
        t.sizeT config.bufferBlocks then .invalidSize
  else .ok

/-- What an accepted configuration has passed. -/
structure Accepted (t : Target δ) (card : Card δ) (config : Config) : Prop where
  sectorSize : card.sectorSize ≠ 0
  capacity : 0 < card.capacity
  physicalBlockSize : config.physicalBlockSize = uint32OfInt card.sectorSize
  powerOfTwo : isPowerOfTwo config.physicalBlockSize = true
  bufferFits : t.sizeT config.physicalBlockSize ≠ 0 →
    t.sizeT config.bufferBlocks ≤ t.sizeMax / t.sizeT config.physicalBlockSize

theorem accepted_of_validateCreateArgs {t : Target δ} {card : Card δ} {config : Config}
    (h : validateCreateArgs t card config = .ok) : Accepted t card config := by
  unfold validateCreateArgs at h
  split at h
  · cases h
  rename_i hsize
  split at h
  · cases h
  rename_i hsector
  split at h
  · cases h
  rename_i harg
  rw [not_or] at hsize harg
  refine ⟨hsize.1, Int.not_le.mp hsize.2, not_not.mp hsector, not_not.mp harg.1, fun hb => ?_⟩
  by_contra hle
  rw [if_pos ⟨hb, Nat.lt_of_not_le hle⟩] at h
  cases h

theorem Accepted.physicalBlockSize_pos {t : Target δ} {card : Card δ} {config : Config}
    (h : Accepted t card config) : 0 < config.physicalBlockSize := by
  apply Nat.pos_of_ne_zero
  intro hz
  have hpow := h.powerOfTwo
  rw [hz] at hpow
  cases hpow

/-- The adapter `create` builds. -/
def adapterOf (t : Target δ) (card : Card δ) (config : Config)
    (h : validateCreateArgs t card config = .ok) : Adapter δ where
  card := card
  phBsize := config.physicalBlockSize
  phBcnt := uint64OfInt card.capacity
  partSize := deviceSize card
  transferBufferBlocks := config.bufferBlocks
  transferBufferSize := t.sizeT (t.sizeT config.bufferBlocks * t.sizeT config.physicalBlockSize)
  transferBufferBlocks_pos := config.bufferBlocks_pos
  phBsize_pos := (accepted_of_validateCreateArgs h).physicalBlockSize_pos

/-- `lwext4_port_sdmmc_create`; `memory` is false when one of the allocations fails. -/
def lwext4PortSdmmcCreate (t : Target δ) (card : Card δ) (config : Config)
    (memory : Bool) : Except EspErr (Adapter δ) :=
  if h : validateCreateArgs t card config = .ok then
    if memory then .ok (adapterOf t card config h) else .error .noMem
  else .error (validateCreateArgs t card config)

/-! ## Transfers -/

section Transfers

variable (t : Target δ) (adapter : Adapter δ)

def validateIoRange (blockId blockCount : ℕ) : Except Errno ℕ :=
  let totalSectors := uint64OfInt adapter.card.capacity
  if blockCount = 0 then .ok 0
  else if totalSectors ≤ blockId ∨ totalSectors - blockId < blockCount then .error .einval
  else if t.sizeMax / t.sizeT adapter.phBsize < blockCount then .error .eoverflow
  else if t.sizeMax < blockId ∨ t.sizeMax - t.sizeT blockId < blockCount then .error .eoverflow
  else .ok blockId

/-- `sdmmc_read_sectors` into the transfer buffer. -/
def lowerRead (sector count : ℕ) : M δ EspErr := fun s =>
  let ((error, bytes), device) := adapter.card.readSectors sector count s.device
  .ok error ({ s with
    device := device
    transferBuffer := putBytes s.transferBuffer 0 bytes }.log (.read sector count) error)

/-- `sdmmc_write_sectors` from the transfer buffer. -/
def lowerWrite (sector count : ℕ) : M δ EspErr := fun s =>
  let (error, device) := adapter.card.writeSectors sector count s.transferBuffer s.device
  .ok error ({ s with device := device }.log (.write sector count) error)

/-- The loop of `sdmmc_read`: `done` bytes have been delivered. Every round moves at
least one block, so `blocks_remaining` rounds are enough. -/
def readLoop (buffer : Buffer) : ℕ → ℕ → ℕ → ℕ → M δ Unit
  | 0, _, _, _ => pure ()
  | rounds + 1, blocksRemaining, sector, done =>
    if blocksRemaining = 0 then pure ()
    else do
      let chunkBlocks := min blocksRemaining adapter.transferBufferBlocks
      let chunkSize := t.sizeT (t.sizeT chunkBlocks * t.sizeT adapter.phBsize)
      let error ← lowerRead adapter (t.sizeT sector) chunkBlocks
      returnError error
      whenever (¬ (buffer = .transfer ∧ done = 0)) (copyOut St.buffers buffer done chunkSize)
      readLoop buffer rounds (blocksRemaining - chunkBlocks) (uint64 (sector + chunkBlocks))
        (done + chunkSize)

def writeLoop (buffer : Buffer) : ℕ → ℕ → ℕ → ℕ → M δ Unit
  | 0, _, _, _ => pure ()
  | rounds + 1, blocksRemaining, sector, done =>
    if blocksRemaining = 0 then pure ()
    else do
      let chunkBlocks := min blocksRemaining adapter.transferBufferBlocks
      let chunkSize := t.sizeT (t.sizeT chunkBlocks * t.sizeT adapter.phBsize)
      whenever (¬ (buffer = .transfer ∧ done = 0)) (copyIn St.buffers buffer done chunkSize)
      let error ← lowerWrite adapter (t.sizeT sector) chunkBlocks
      returnError error
      writeLoop buffer rounds (blocksRemaining - chunkBlocks) (uint64 (sector + chunkBlocks))
        (done + chunkSize)

def sdmmcRead (buffer : Buffer) (blockId blockCount : ℕ) : M δ Unit := do
  failIf (¬ validCard adapter.card ∨ buffer = .null) .einval
  match validateIoRange t adapter blockId blockCount with
  | .error e => raise e
  | .ok sector =>
    if blockCount = 0 then pure ()
    else do
      failIf (buffer = .transfer ∧ adapter.transferBufferBlocks < blockCount) .einval
      readLoop t adapter buffer blockCount blockCount sector 0

def sdmmcWrite (buffer : Buffer) (blockId blockCount : ℕ) : M δ Unit := do
  failIf (¬ validCard adapter.card ∨ buffer = .null) .einval
  match validateIoRange t adapter blockId blockCount with
  | .error e => raise e
  | .ok sector =>
    if blockCount = 0 then pure ()
    else do
      failIf (buffer = .transfer ∧ adapter.transferBufferBlocks < blockCount) .einval
      writeLoop t adapter buffer blockCount blockCount sector 0

/-- `sdmmc_open` and `sdmmc_close`: nothing to flush. -/
def sdmmcOpen : M δ Unit := failIf (¬ validCard adapter.card) .eio

def sdmmcClose : M δ Unit := failIf (¬ validCard adapter.card) .eio

/-- `lwext4_port_sdmmc_sync`; `give` is the release of the mutex. -/
def lwext4PortSdmmcSync (give : δ → Bool × δ) : M δ EspErr := fun s =>
  let (taken, device) := t.semaphoreTake s.device
  if taken then
    let (given, device) := give device
    .ok (if given then .ok else .fail) { s with device := device }
  else .ok .fail { s with device := device }

/-- `lwext4_port_sdmmc_destroy` up to the frees, which follow when this returns `ESP_OK`. -/
def lwext4PortSdmmcDestroy (give : δ → Bool × δ) (phRefctr : ℕ) : M δ EspErr := fun s =>
  let (taken, device) := t.semaphoreTake s.device
  if taken then
    let (_, device) := give device
    .ok (if phRefctr ≠ 0 then .invalidState else .ok) { s with device := device }
  else .ok .fail { s with device := device }

end Transfers

end EspLwext4.Port.Sdmmc
