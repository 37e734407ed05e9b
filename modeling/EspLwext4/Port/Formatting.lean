import EspLwext4.Port.BdlTransfers
import EspLwext4.Port.Format
import EspLwext4.Port.SdmmcTransfers
import Mathlib.Tactic.Common

/-!
# What reaches `ext4_mkfs`

Three checks stand between a format request and `ext4_mkfs`: those of the adapter's creation,
those of its format function and those of the shared part. Together they give a block size that
is a power of two in range and a length of whole blocks. That the block size is a multiple of the
adapter's physical block size only the SDMMC adapter checks; the block-device adapter looks at
the lower device's read and write sizes, so there it holds exactly when the block size is not
the smaller of the two.
-/

namespace EspLwext4.Port.Format

open Prog Runs
open Bdl (Target isPowerOfTwo uint64)

/-- The arguments suit a device of `size` bytes that is accessed in blocks of `phBsize`. -/
structure Compatible (build : Build) (phBsize size : ℕ) (info : MkfsInfo) : Prop where
  powerOfTwo : info.blockSize.isPowerOfTwo
  min : 1024 ≤ info.blockSize
  max : info.blockSize ≤ build.maxBlockSize
  physical : phBsize ∣ info.blockSize
  len_pos : 0 < info.len
  whole : info.blockSize ∣ info.len
  len_le : info.len ≤ size

theorem isPowerOfTwo_iff {n : ℕ} : isPowerOfTwo n = true ↔ n.isPowerOfTwo := by
  unfold isPowerOfTwo
  rw [decide_eq_true_iff]
  exact Nat.ne_zero_and_sub_one_eq_zero_iff_isPowerOfTwo

/-- Of two powers of two the smaller divides the larger. -/
theorem dvd_iff_le {m n : ℕ} (hm : m.isPowerOfTwo) (hn : n.isPowerOfTwo) : m ∣ n ↔ m ≤ n := by
  constructor
  · exact Nat.le_of_dvd (Nat.pos_of_isPowerOfTwo hn)
  · obtain ⟨j, rfl⟩ := hm
    obtain ⟨k, rfl⟩ := hn
    intro hle
    exact Nat.pow_dvd_pow 2 ((Nat.pow_le_pow_iff_right (by decide)).mp hle)

/-! ## The shared part -/

section Blockdev

variable {σ : Type} {build : Build} {config : Config} {partSize : ℕ} {info : MkfsInfo}

/-- Rounding to whole groups, without a wrap. -/
theorem groups_exact {block len : ℕ} (hb : block ≤ 4294967295 / 8) (hlen : len < 18446744073709551616) :
    uint64 (len / uint64 (uint32 (block * 8) * block) * uint64 (uint32 (block * 8) * block)) =
      len / (block * 8 * block) * (block * 8 * block) := by
  have h32 : uint32 (block * 8) = block * 8 := Nat.mod_eq_of_lt (by omega)
  have h64 : uint64 (block * 8 * block) = block * 8 * block := by
    apply Nat.mod_eq_of_lt
    calc block * 8 * block ≤ 536870911 * 8 * 536870911 := Nat.mul_le_mul (by omega) (by omega)
      _ < 18446744073709551616 := by decide
  rw [h32, h64]
  exact Nat.mod_eq_of_lt ((Nat.div_mul_le_self _ _).trans_lt hlen)

/-- The arguments of `ext4_mkfs` for a device of whole blocks. -/
theorem mkfsInfo_ok (h : mkfsInfo build partSize config = .ok info) (hpos : 0 < partSize)
    (hword : partSize < 18446744073709551616) (hwhole : config.fsBlockSize ∣ partSize) :
    info.blockSize = config.fsBlockSize ∧ 1024 ≤ info.blockSize ∧
      info.blockSize ≤ build.maxBlockSize ∧ 0 < info.len ∧ info.blockSize ∣ info.len ∧
      info.len ≤ partSize := by
  unfold mkfsInfo at h
  simp only at h
  split_ifs at h with hrange hinode hround hzero
  · rw [not_or, not_or] at hrange
    rw [← Except.ok.inj h]
    have hlen := groups_exact (Nat.le_of_not_lt hrange.2.2) hword
    refine ⟨rfl, Nat.le_of_not_lt hrange.1, Nat.le_of_not_lt hrange.2.1,
      Nat.pos_of_ne_zero hzero, ?_, ?_⟩
    · show config.fsBlockSize ∣ uint64 _
      rw [hlen]
      exact Nat.dvd_mul_left_of_dvd (Nat.dvd_mul_left _ _) _
    · show uint64 _ ≤ partSize
      rw [hlen]
      exact Nat.div_mul_le_self _ _
  · rw [not_or, not_or] at hrange
    rw [← Except.ok.inj h]
    exact ⟨rfl, Nat.le_of_not_lt hrange.1, Nat.le_of_not_lt hrange.2.1, hpos, hwhole,
      Nat.le_refl _⟩

/-- Every call of `ext4_mkfs` had the arguments computed for this configuration. -/
def Asked (build : Build) (partSize : ℕ) (config : Config) (s : Session σ) : Prop :=
  ∀ info ∈ s.requests, mkfsInfo build partSize config = .ok info

variable {s : Session σ}

/-- The device's own operations call no `ext4_mkfs`. -/
theorem wp_adapter {α : Type} {m : Prog Empty Errno σ α} (h : Asked build partSize config s) :
    wp (zoom adapterLens m) (fun _ => Asked build partSize config)
      (fun _ => Asked build partSize config) s := by
  rw [wp_zoom]
  exact wp_of_forall (fun _ _ => h) fun _ _ => h

theorem wp_formatBlockdev {bdev : Blockdev σ} {mkfs : Mkfs σ} {memory : Bool}
    (h : Asked build bdev.partSize config s) :
    wp (lwext4PortFormatBlockdev build bdev mkfs memory config)
      (fun _ => Asked build bdev.partSize config) (fun _ => Asked build bdev.partSize config) s := by
  unfold lwext4PortFormatBlockdev
  rw [wp_ite]
  refine ⟨fun _ => h, fun _ => ?_⟩
  cases hinfo : mkfsInfo build bdev.partSize config with
  | error e => exact h
  | ok info =>
    rw [wp_bind, wp_attempt]
    apply wp_mono (wp_adapter h) _ fun _ _ hl => hl
    intro _ s₁ h₁
    rw [wp_bind, wp_update, wp_bind, wp_attempt]
    have hnote : Asked build bdev.partSize config (note info s₁) := by
      intro i hi
      rcases List.mem_cons.mp hi with rfl | hi
      · exact hinfo
      · exact h₁ i hi
    have unlocked (s₂ : Session σ) (h₂ : Asked build bdev.partSize config s₂)
        (r : Except Errno Unit) :
        wp (do
          let unlockRc ← (zoom adapterLens bdev.unlock).attempt
          pure (formatResult r unlockRc) : M σ EspErr) (fun _ => Asked build bdev.partSize config)
          (fun _ => Asked build bdev.partSize config) s₂ := by
      rw [wp_bind, wp_attempt]
      exact wp_mono (wp_adapter h₂) (fun _ _ h₃ => h₃) fun _ _ h₃ => h₃
    exact wp_mono (wp_adapter hnote) (fun _ s₂ h₂ => unlocked s₂ h₂ _)
      fun _ s₂ h₂ => unlocked s₂ h₂ _

end Blockdev

/-! ## The adapters -/

section Adapters

variable {δ : Type} {build : Build} {t : Target δ} {give : δ → Bool × δ} {memory : Bool}
  {phRefctr : ℕ} {config : Config} {info : MkfsInfo}

/-- What a format request has passed that reaches `ext4_mkfs`. -/
structure Passed (build : Build) (partSize : ℕ) (config : Config) (info : MkfsInfo) : Prop where
  args : mkfsInfo build partSize config = .ok info
  powerOfTwo : config.fsBlockSize.isPowerOfTwo
  whole : config.fsBlockSize ∣ partSize

/-- All of the claim but the physical block size. -/
theorem Passed.compatible_iff {partSize size : ℕ} (phBsize : ℕ)
    (h : Passed build partSize config info) (hpos : 0 < partSize) (hword : partSize < 18446744073709551616) (hsize : partSize = size) :
    Compatible build phBsize size info ↔ phBsize ∣ config.fsBlockSize := by
  obtain ⟨hblock, hmin, hmax, hlen, hwhole, hle⟩ := mkfsInfo_ok h.args hpos hword h.whole
  constructor
  · intro hc
    rw [← hblock]
    exact hc.physical
  · intro hd
    refine ⟨?_, hmin, hmax, ?_, hlen, hwhole, hsize ▸ hle⟩
    · rw [hblock]
      exact h.powerOfTwo
    · rw [hblock]
      exact hd

theorem passed_bdl {mkfs : Mkfs (Bdl.St δ)} {adapter : Bdl.Adapter δ} {s : Bdl.St δ}
    (h : info ∈ ((lwext4PortBdlFormat build t give mkfs memory adapter phRefctr config).final
      ⟨s, []⟩).requests) :
    Passed build adapter.partSize config info ∧ 0 < adapter.partSize := by
  by_cases hval : bdlValidateFormatArgs build adapter phRefctr config = .ok
  · have hasked : Asked build adapter.partSize config
        ((lwext4PortBdlFormat build t give mkfs memory adapter phRefctr config).final ⟨s, []⟩) := by
      apply final_of_wp
      have hnone : Asked build adapter.partSize config (⟨s, []⟩ : Session (Bdl.St δ)) :=
        fun _ hi => absurd hi List.not_mem_nil
      unfold lwext4PortBdlFormat bdlSync
      simp only [hval, ne_eq, not_true_eq_false, if_false]
      rw [wp_bind]
      apply wp_mono (wp_adapter hnone) _ fun _ _ hl => hl
      intro error s₁ h₁
      rw [wp_ite]
      refine ⟨fun _ => h₁, fun _ => ?_⟩
      rw [wp_bind]
      apply wp_mono (wp_formatBlockdev h₁) _ fun _ _ hl => hl
      intro error' s₂ h₂
      rw [wp_ite]
      exact ⟨fun _ => h₂, fun _ => wp_adapter h₂⟩
    unfold bdlValidateFormatArgs at hval
    split_ifs at hval with href hro hsizes hset hblock
    rw [not_or] at hsizes
    rw [not_or, not_or, not_or, not_not, not_not, not_not, not_not] at hblock
    exact ⟨⟨hasked info h, isPowerOfTwo_iff.mp hblock.1, Nat.dvd_of_mod_eq_zero hblock.2.2.2⟩,
      Nat.pos_of_ne_zero hsizes.1⟩
  · have hrun : lwext4PortBdlFormat build t give mkfs memory adapter phRefctr config =
        pure (bdlValidateFormatArgs build adapter phRefctr config) := if_pos hval
    rw [hrun] at h
    exact absurd h List.not_mem_nil

theorem passed_sdmmc {mkfs : Mkfs (Sdmmc.St δ)} {adapter : Sdmmc.Adapter δ} {s : Sdmmc.St δ}
    (h : info ∈ ((lwext4PortSdmmcFormat build t give mkfs memory adapter phRefctr config).final
      ⟨s, []⟩).requests) :
    Passed build adapter.partSize config info ∧ Sdmmc.validCard adapter.card = true ∧
      Sdmmc.uint32OfInt adapter.card.sectorSize ∣ config.fsBlockSize := by
  by_cases hval : sdmmcValidateFormatArgs build adapter phRefctr config = .ok
  · have hasked : Asked build adapter.partSize config
        ((lwext4PortSdmmcFormat build t give mkfs memory adapter phRefctr config).final
          ⟨s, []⟩) := by
      apply final_of_wp
      have hnone : Asked build adapter.partSize config (⟨s, []⟩ : Session (Sdmmc.St δ)) :=
        fun _ hi => absurd hi List.not_mem_nil
      unfold lwext4PortSdmmcFormat
      simp only [hval, ne_eq, not_true_eq_false, if_false]
      exact wp_formatBlockdev hnone
    unfold sdmmcValidateFormatArgs at hval
    split_ifs at hval with hcard href hset hblock
    rw [not_or, not_or, not_not, not_not, not_not] at hblock
    exact ⟨⟨hasked info h, isPowerOfTwo_iff.mp hblock.1, Nat.dvd_of_mod_eq_zero hblock.2.2⟩,
      hcard, Nat.dvd_of_mod_eq_zero hblock.2.1⟩
  · have hrun : lwext4PortSdmmcFormat build t give mkfs memory adapter phRefctr config =
        pure (sdmmcValidateFormatArgs build adapter phRefctr config) := if_pos hval
    rw [hrun] at h
    exact absurd h List.not_mem_nil

/-- **Block-device adapter.** What reaches `ext4_mkfs` suits the adapter exactly when the block
size is at least the physical block size. -/
theorem bdl_compatible_iff {mkfs : Mkfs (Bdl.St δ)} {lower : Bdl.LowerDevice δ}
    {created : Bdl.Config} {allocated : Bool} {adapter : Bdl.Adapter δ} {s : Bdl.St δ}
    (hw : Bdl.Words lower created)
    (hc : Bdl.lwext4PortBdlCreate t lower created allocated = .ok adapter)
    (h : info ∈ ((lwext4PortBdlFormat build t give mkfs memory adapter phRefctr config).final
      ⟨s, []⟩).requests) :
    Compatible build adapter.phBsize lower.geometry.diskSize info ↔
      created.physicalBlockSize ≤ config.fsBlockSize := by
  obtain ⟨hpassed, hpos⟩ := passed_bdl h
  unfold Bdl.lwext4PortBdlCreate at hc
  split_ifs at hc with hval hmem
  have hpow := (Bdl.accepted_of_validateCreateArgs hval).powerOfTwo
  rw [← Except.ok.inj hc] at hpassed hpos ⊢
  have hiff := hpassed.compatible_iff created.physicalBlockSize hpos hw.diskSize rfl
  exact hiff.trans (dvd_iff_le (isPowerOfTwo_iff.mp hpow) hpassed.powerOfTwo)

/-- **SDMMC adapter.** What reaches `ext4_mkfs` suits the adapter. -/
theorem sdmmc_compatible {mkfs : Mkfs (Sdmmc.St δ)} {card : Sdmmc.Card δ}
    {created : Sdmmc.Config} {allocated : Bool} {adapter : Sdmmc.Adapter δ} {s : Sdmmc.St δ}
    (hw : Sdmmc.Words card created)
    (hc : Sdmmc.lwext4PortSdmmcCreate t card created allocated = .ok adapter)
    (h : info ∈ ((lwext4PortSdmmcFormat build t give mkfs memory adapter phRefctr config).final
      ⟨s, []⟩).requests) :
    Compatible build adapter.phBsize (card.capacity.toNat * card.sectorSize.toNat) info := by
  obtain ⟨hpassed, hv, hd⟩ := passed_sdmmc h
  unfold Sdmmc.lwext4PortSdmmcCreate at hc
  split_ifs at hc with hval hmem
  have hacc := Sdmmc.accepted_of_validateCreateArgs hval
  rw [← Except.ok.inj hc] at hpassed hv hd ⊢
  have hcard : 0 < card.sectorSize ∧ 0 < card.capacity := of_decide_eq_true hv
  have hsize : Sdmmc.deviceSize card = card.capacity.toNat * card.sectorSize.toNat :=
    Sdmmc.deviceSize_of_validCard hw hv
  have hpos : 0 < Sdmmc.deviceSize card := by
    rw [hsize]
    exact Nat.mul_pos (by omega) (by omega)
  apply (hpassed.compatible_iff _ hpos (Nat.mod_lt _ (by decide)) hsize).mpr
  show created.physicalBlockSize ∣ _
  rw [hacc.physicalBlockSize]
  exact hd

/-- **Formatting.** For every device, every accepted adapter configuration and every format
request, whatever `ext4_mkfs` is called with suits the block-device adapter if and only if the
block size is at least the physical block size, and suits the SDMMC adapter always. -/
theorem format_compatible_iff (build : Build) (t : Target δ) (give : δ → Bool × δ)
    (memory allocated : Bool) (phRefctr : ℕ) (config : Config) :
    (∀ lower created adapter mkfs (s : Bdl.St δ), Bdl.Words lower created →
      Bdl.lwext4PortBdlCreate t lower created allocated = .ok adapter →
      ∀ info ∈ ((lwext4PortBdlFormat build t give mkfs memory adapter phRefctr config).final
        ⟨s, []⟩).requests,
        (Compatible build adapter.phBsize lower.geometry.diskSize info ↔
          created.physicalBlockSize ≤ config.fsBlockSize)) ∧
    ∀ card created adapter mkfs (s : Sdmmc.St δ), Sdmmc.Words card created →
      Sdmmc.lwext4PortSdmmcCreate t card created allocated = .ok adapter →
      ∀ info ∈ ((lwext4PortSdmmcFormat build t give mkfs memory adapter phRefctr config).final
        ⟨s, []⟩).requests,
        Compatible build adapter.phBsize (card.capacity.toNat * card.sectorSize.toNat) info :=
  ⟨fun _ _ _ _ _ hw hc _ hi => bdl_compatible_iff hw hc hi,
    fun _ _ _ _ _ hw hc _ hi => sdmmc_compatible hw hc hi⟩

end Adapters

/-! ## Devices of 128 MiB -/

namespace Disk128

def build : Build where
  maxBlockSize := 65536
  fSet
    | .ext2 => 2
    | .ext3 => 3
    | .ext4 => 4
  featureSet := .ext3
  extentsEnable := true
  roundToFullGroups := true

def target : Target Unit where
  sizeMax := 4294967295
  mallocCap8bit := 4
  semaphoreTake := fun d => (true, d)

def give (d : Unit) : Bool × Unit := (true, d)

def lower : Bdl.LowerDevice Unit where
  geometry := ⟨134217728, 512, 512⟩
  readOnly := false
  read := some fun _ _ d => ((.ok, []), d)
  write := some fun _ _ d => (.ok, d)
  sync := none

/-- Physical blocks of 8192 bytes. -/
def created : Bdl.Config where
  physicalBlockSize := 8192
  transferBufferBlocks := 1
  bufferCaps := 4
  bufferAlignment := 4
  readOnly := false
  syncAfterWrite := false
  lowerDeviceSupportsRewrite := true

def card : Sdmmc.Card Unit where
  sectorSize := 512
  capacity := 262144
  readSectors := fun _ _ d => ((.ok, []), d)
  writeSectors := fun _ _ _ d => (.ok, d)

def cardCreated : Sdmmc.Config where
  physicalBlockSize := 512
  bufferCaps := 4
  bufferAlignment := 4
  transferBufferBlocks := 1

/-- All defaults: blocks of 4096 bytes. -/
def defaults : Config where
  blockSize := 0
  inodeSize := 0
  inodes := 0
  journalBlocks := 0
  journal := false
  label := none
  featureSet := 0

def info : MkfsInfo where
  len := 134217728
  blockSize := 4096
  inodeSize := 0
  inodes := 0
  journalBlocks := 0
  journal := false
  label := []
  blocksPerGroup := 32768

def adapter : Bdl.Adapter Unit := Bdl.adapterOf target lower created (by decide)

def cardAdapter : Sdmmc.Adapter Unit := Sdmmc.adapterOf target card cardCreated (by decide)

theorem request : ((lwext4PortBdlFormat build target give (fun _ _ => pure ()) true adapter 0
    defaults).final ⟨Bdl.St.init () [] [], []⟩).requests = [info] := by decide

theorem card_request : ((lwext4PortSdmmcFormat build target give (fun _ _ => pure ()) true
    cardAdapter 0 defaults).final ⟨⟨(), [], [], []⟩, []⟩).requests = [info] := by decide

/-- A device with 8192-byte physical blocks is formatted with blocks of 4096 bytes. One of those
is no physical block at all, and writing no block succeeds without a lower call. -/
theorem format_below_physical_block :
    Bdl.lwext4PortBdlCreate target lower created true = .ok adapter ∧
    info ∈ ((lwext4PortBdlFormat build target give (fun _ _ => pure ()) true adapter 0
      defaults).final ⟨Bdl.St.init () [] [], []⟩).requests ∧
    ¬ Compatible build adapter.phBsize lower.geometry.diskSize info ∧
    info.blockSize / adapter.phBsize = 0 ∧
    Bdl.bdlWrite target adapter .caller 5 0 (Bdl.St.init () [] []) =
      .ok () (Bdl.St.init () [] []) := by
  refine ⟨rfl, by rw [request]; exact List.mem_singleton_self _, fun hc => ?_, by decide, rfl⟩
  exact absurd hc.physical (by decide)

/-- The default request on the card, and on the device with 8192-byte blocks. -/
theorem format_compatible_iff_disk128 :
    ¬ Compatible build adapter.phBsize lower.geometry.diskSize info ∧
      Compatible build cardAdapter.phBsize 134217728 info := by
  have h := format_compatible_iff build target give true true 0 defaults
  have hbdl := h.1 lower created adapter (fun _ _ => pure ()) (Bdl.St.init () [] [])
    ⟨by decide, by decide, by decide⟩ rfl info (by rw [request]; exact List.mem_singleton_self _)
  refine ⟨fun hc => absurd (hbdl.mp hc) (by decide), ?_⟩
  exact h.2 card cardCreated cardAdapter (fun _ _ => pure ()) ⟨(), [], [], []⟩
    ⟨by decide, by decide, by decide⟩ rfl info
    (by rw [card_request]; exact List.mem_singleton_self _)

end Disk128

end EspLwext4.Port.Format
