import EspLwext4.Port.Bdl
import EspLwext4.Port.Sdmmc

/-!
# Formatting

`lwext4_port_bdl_format` and `lwext4_port_sdmmc_format` with the checks each makes, and
`lwext4_port_format_blockdev`, which both end in: it fills in the arguments of `ext4_mkfs`,
rounds the length to whole block groups and calls it under the device's lock. `ext4_mkfs` is a
parameter; the session notes what it was called with. The progress callback and the wrapper that
counts for it are left out.
-/

namespace EspLwext4.Port.Format

open Prog
open Bdl (Target isPowerOfTwo uint64)

/-! ## Arguments -/

/-- `lwext4_port_bdl_format_config_t`; a label that is `none` is `NULL`. -/
structure Config where
  blockSize : ℕ
  inodeSize : ℕ
  inodes : ℕ
  journalBlocks : ℕ
  journal : Bool
  label : Option (List UInt8)
  featureSet : ℕ

/-- The fields of `struct ext4_mkfs_info` that the port sets. -/
structure MkfsInfo where
  len : ℕ
  blockSize : ℕ
  inodeSize : ℕ
  inodes : ℕ
  journalBlocks : ℕ
  journal : Bool
  label : List UInt8
  blocksPerGroup : ℕ
deriving DecidableEq

inductive FeatureSet where
  | ext2 | ext3 | ext4
deriving DecidableEq, Repr

/-- The build configuration, with `EXT4_MAX_BLOCK_SIZE` and the `F_SET_*` of lwext4. -/
structure Build where
  maxBlockSize : ℕ
  fSet : FeatureSet → ℕ
  featureSet : FeatureSet
  extentsEnable : Bool
  roundToFullGroups : Bool

def uint32 (n : ℕ) : ℕ := n % 4294967296

/-- The block size asked for; zero stands for 4096. -/
def Config.fsBlockSize (config : Config) : ℕ :=
  if config.blockSize ≠ 0 then config.blockSize else 4096

def Build.knows (build : Build) (featureSet : ℕ) : Bool :=
  featureSet = 0 ∨ featureSet = build.fSet .ext2 ∨ featureSet = build.fSet .ext3 ∨
    (build.extentsEnable ∧ featureSet = build.fSet .ext4)

/-! ## The shared part -/

section Blockdev

variable {σ : Type}

/-- The arguments for `ext4_mkfs`, or why there are none. -/
def mkfsInfo (build : Build) (partSize : ℕ) (config : Config) : Except EspErr MkfsInfo :=
  let info : MkfsInfo := {
    len := partSize
    blockSize := config.fsBlockSize
    inodeSize := config.inodeSize
    inodes := config.inodes
    journalBlocks := config.journalBlocks
    journal := config.journal
    label := config.label.getD []
    blocksPerGroup := 0 }
  if info.blockSize < 1024 ∨ build.maxBlockSize < info.blockSize ∨
      4294967295 / 8 < info.blockSize then .error .invalidSize
  else if info.inodeSize ≠ 0 ∧ (info.inodeSize < 128 ∨ info.blockSize < info.inodeSize ∨
      ¬ isPowerOfTwo info.inodeSize) then .error .invalidArg
  else if build.roundToFullGroups then
    let blocksPerGroup := uint32 (info.blockSize * 8)
    let groupBytes := uint64 (blocksPerGroup * info.blockSize)
    let roundedLen := uint64 (info.len / groupBytes * groupBytes)
    if roundedLen = 0 then .error .invalidSize
    else .ok { info with len := roundedLen, blocksPerGroup := blocksPerGroup }
  else .ok info

/-- What the shared part uses of `struct ext4_blockdev`. -/
structure Blockdev (σ : Type) where
  partSize : ℕ
  lock : Prog Empty Errno σ Unit
  unlock : Prog Empty Errno σ Unit

/-- `ext4_mkfs` on the device: arguments, feature set -/
abbrev Mkfs (σ : Type) : Type := MkfsInfo → ℕ → Prog Empty Errno σ Unit

structure Session (σ : Type) where
  adapter : σ
  /-- what `ext4_mkfs` was called with, most recent first -/
  requests : List MkfsInfo

def adapterLens : Lens (Session σ) σ where
  get s := s.adapter
  set a s := { s with adapter := a }

abbrev M (σ α : Type) : Type := Prog Empty Errno (Session σ) α

def note (info : MkfsInfo) (s : Session σ) : Session σ :=
  { s with requests := info :: s.requests }

/-- The result of `ext4_mkfs` and of the unlock behind it. -/
def formatResult : Except Errno Unit → Except Errno Unit → EspErr
  | .ok (), .ok () => .ok
  | _, _ => .fail

/-- `lwext4_port_format_blockdev`; `memory` is false when the allocation fails. -/
def lwext4PortFormatBlockdev (build : Build) (bdev : Blockdev σ) (mkfs : Mkfs σ) (memory : Bool)
    (config : Config) : M σ EspErr :=
  if ¬ memory then pure .noMem
  else match mkfsInfo build bdev.partSize config with
  | .error e => pure e
  | .ok info => do
    let featureSet :=
      if config.featureSet ≠ 0 then config.featureSet else build.fSet build.featureSet
    match ← (zoom adapterLens bdev.lock).attempt with
    | .error rc => pure (if rc = .enomem then .noMem else .fail)
    | .ok () => do
      update (note info)
      let rc ← (zoom adapterLens (mkfs info featureSet)).attempt
      let unlockRc ← (zoom adapterLens bdev.unlock).attempt
      pure (formatResult rc unlockRc)

end Blockdev

/-! ## The two adapters -/

variable {δ : Type}

/-- `bdl_lock` and `sdmmc_lock` on the device's part of the state. -/
def takeLock (t : Target δ) : Prog Empty Errno δ Unit := fun d =>
  let (taken, d') := t.semaphoreTake d
  if taken then .ok () d' else .err .eio d'

/-- `bdl_unlock` and `sdmmc_unlock`. -/
def giveLock (give : δ → Bool × δ) : Prog Empty Errno δ Unit := fun d =>
  let (given, d') := give d
  if given then .ok () d' else .err .eio d'

section Bdl

def bdlDevice : Lens (Bdl.St δ) δ where
  get s := s.device
  set d s := { s with device := d }

/-- `validate_format_args` of the block-device adapter. The block size is held against the lower
device's read and write sizes. -/
def bdlValidateFormatArgs (build : Build) (adapter : Bdl.Adapter δ) (phRefctr : ℕ)
    (config : Config) : EspErr :=
  if phRefctr ≠ 0 then .invalidState
  else if adapter.readOnly ∨ adapter.lower.readOnly ∨ adapter.lower.write.isNone then .invalidState
  else if adapter.partSize = 0 ∨ adapter.lower.geometry.readSize = 0 ∨
      adapter.lower.geometry.writeSize = 0 then .invalidSize
  else if ¬ build.knows config.featureSet then .invalidArg
  else if ¬ isPowerOfTwo config.fsBlockSize ∨
      config.fsBlockSize % adapter.lower.geometry.readSize ≠ 0 ∨
      config.fsBlockSize % adapter.lower.geometry.writeSize ≠ 0 ∨
      adapter.partSize % config.fsBlockSize ≠ 0 then .invalidSize
  else .ok

/-- `lwext4_port_bdl_sync` in a session. -/
def bdlSync (t : Target δ) (adapter : Bdl.Adapter δ) : M (Bdl.St δ) EspErr :=
  zoom adapterLens (Bdl.lwext4PortBdlSync t adapter)

def lwext4PortBdlFormat (build : Build) (t : Target δ) (give : δ → Bool × δ)
    (mkfs : Mkfs (Bdl.St δ)) (memory : Bool) (adapter : Bdl.Adapter δ) (phRefctr : ℕ)
    (config : Config) : M (Bdl.St δ) EspErr :=
  let error := bdlValidateFormatArgs build adapter phRefctr config
  if error ≠ .ok then pure error
  else do
    let error ← bdlSync t adapter
    if error ≠ .ok then pure error
    else do
      let error ← lwext4PortFormatBlockdev build
        ⟨adapter.partSize, zoom bdlDevice (takeLock t), zoom bdlDevice (giveLock give)⟩
        mkfs memory config
      if error ≠ .ok then pure error
      else bdlSync t adapter

end Bdl

section Sdmmc

def sdmmcDevice : Lens (Sdmmc.St δ) δ where
  get s := s.device
  set d s := { s with device := d }

/-- `validate_format_args` of the SDMMC adapter. The block size is held against the sector size. -/
def sdmmcValidateFormatArgs (build : Build) (adapter : Sdmmc.Adapter δ) (phRefctr : ℕ)
    (config : Config) : EspErr :=
  if ¬ Sdmmc.validCard adapter.card then .invalidArg
  else if phRefctr ≠ 0 then .invalidState
  else if ¬ build.knows config.featureSet then .invalidArg
  else if ¬ isPowerOfTwo config.fsBlockSize ∨
      config.fsBlockSize % Sdmmc.uint32OfInt adapter.card.sectorSize ≠ 0 ∨
      adapter.partSize % config.fsBlockSize ≠ 0 then .invalidSize
  else .ok

def lwext4PortSdmmcFormat (build : Build) (t : Target δ) (give : δ → Bool × δ)
    (mkfs : Mkfs (Sdmmc.St δ)) (memory : Bool) (adapter : Sdmmc.Adapter δ) (phRefctr : ℕ)
    (config : Config) : M (Sdmmc.St δ) EspErr :=
  let error := sdmmcValidateFormatArgs build adapter phRefctr config
  if error ≠ .ok then pure error
  else lwext4PortFormatBlockdev build
    ⟨adapter.partSize, zoom sdmmcDevice (takeLock t), zoom sdmmcDevice (giveLock give)⟩
    mkfs memory config

end Sdmmc

end EspLwext4.Port.Format
