import EspLwext4.Port.Bdl
import EspLwext4.Port.Rounds

/-!
# Transfers of the block-device adapter

On every adapter that `lwext4_port_bdl_create` made, `bdl_read` and `bdl_write` are exact: the
words they compute with do not wrap, so each loop is the loop over pieces, and each round moves
one piece through the transfer buffer.
-/

namespace EspLwext4.Port.Bdl

open Prog

variable {δ : Type}

/-- `size_t` has 32 or 64 bits. -/
def Target.Standard (t : Target δ) : Prop :=
  t.sizeMax = 4294967295 ∨ t.sizeMax = 18446744073709551615

/-- The fields fit their types. -/
structure Words (lower : LowerDevice δ) (config : Config) : Prop where
  diskSize : lower.geometry.diskSize < 18446744073709551616
  physicalBlockSize : config.physicalBlockSize < 4294967296
  transferBufferBlocks : config.transferBufferBlocks < 4294967296

/-- What a lower device's operations are documented to do to the bytes it holds. -/
structure Laws (lower : LowerDevice δ) (content : δ → List UInt8) : Prop where
  length : ∀ d, (content d).length = lower.geometry.diskSize
  read : ∀ read, lower.read = some read → ∀ address size d bytes d',
    address + size ≤ lower.geometry.diskSize → read address size d = ((.ok, bytes), d') →
    bytes = slice (content d) address size ∧ content d' = content d
  write : ∀ write, lower.write = some write → ∀ address data d d',
    address + data.length ≤ lower.geometry.diskSize → write address data d = (.ok, d') →
    content d' = overwrite (content d) address data
  sync : ∀ sync, lower.sync = some sync → ∀ d, content (sync d).2 = content d

/-- `adapter` was made by `lwext4_port_bdl_create`. -/
structure Created (t : Target δ) (content : δ → List UInt8) (lower : LowerDevice δ)
    (config : Config) (memory : Bool) (adapter : Adapter δ) : Prop where
  standard : t.Standard
  words : Words lower config
  laws : Laws lower content
  create : lwext4PortBdlCreate t lower config memory = .ok adapter

/-- The bytes of the buffer argument. -/
def St.memory (s : St δ) (buffer : Buffer) : List UInt8 := (St.buffers.get s).memory buffer

/-- The adapter with a buffer argument. -/
def port (t : Target δ) (content : δ → List UInt8) (adapter : Adapter δ) (buffer : Buffer) :
    BlockPort (St δ) LowerCall where
  blockSize := adapter.phBsize
  blockTotal := adapter.phBcnt
  transferBufferBlocks := adapter.transferBufferBlocks
  transfer
    | .read => bdlRead t adapter buffer
    | .write => bdlWrite t adapter buffer
  content s := content s.device
  memory s := s.memory buffer
  bounce s := s.transferBuffer
  Own := buffer = .transfer
  calls s := s.calls.filter fun c => c.1 ≠ .sync
  call
    | .read => fun block n => .read (block * adapter.phBsize) (n * adapter.phBsize)
    | .write => fun block n => .write (block * adapter.phBsize) (n * adapter.phBsize)
  Clean
    | .read => fun s block n => ∀ read, adapter.lower.read = some read →
        (read (block * adapter.phBsize) (n * adapter.phBsize) s.device).1.2 = [] ∧
        content (read (block * adapter.phBsize) (n * adapter.phBsize) s.device).2 =
          content s.device
    | .write => fun s block n => ∀ write, adapter.lower.write = some write →
        content (write (block * adapter.phBsize) (s.transferBuffer.take (n * adapter.phBsize))
          s.device).2 = content s.device
  Takes dir _ count := buffer ≠ .null ∧ (buffer = .transfer → count ≤ adapter.transferBufferBlocks) ∧
    count ≤ t.sizeMax / adapter.phBsize ∧
    (dir = .write → adapter.readOnly = false ∧ adapter.lower.readOnly = false ∧
      adapter.lower.write.isSome)
  WordsFit block count := (block + count) * adapter.phBsize < 18446744073709551616 ∧
    count * adapter.phBsize ≤ t.sizeMax ∧
    adapter.transferBufferBlocks * adapter.phBsize ≤ t.sizeMax ∧
    adapter.transferBufferSize = adapter.transferBufferBlocks * adapter.phBsize ∧
    adapter.partSize = adapter.phBcnt * adapter.phBsize
  FlushFailed e s := ∃ error rest, s.calls = (.sync, error) :: rest ∧
    espErrorToLwext4 error = some e

/-! ## What creation establishes -/

/-- What an accepted configuration has passed, as far as transfers rely on it. -/
structure Accepted (t : Target δ) (lower : LowerDevice δ) (config : Config) : Prop where
  read : lower.read.isSome
  powerOfTwo : isPowerOfTwo config.physicalBlockSize = true
  whole : lower.geometry.diskSize % config.physicalBlockSize = 0
  bufferFits : t.sizeT config.physicalBlockSize ≠ 0 →
    t.sizeT (if config.transferBufferBlocks = 0 then 1 else config.transferBufferBlocks) ≤
      t.sizeMax / t.sizeT config.physicalBlockSize

theorem accepted_of_validateCreateArgs {t : Target δ} {lower : LowerDevice δ} {config : Config}
    (h : validateCreateArgs t lower config = .ok) : Accepted t lower config := by
  have hpow : isPowerOfTwo config.physicalBlockSize = true := by
    by_contra hn
    unfold validateCreateArgs at h
    simp only [hn, not_false_eq_true, true_or, or_true, if_true] at h
    split_ifs at h
  have hread : lower.read.isSome := by
    cases hr : lower.read with
    | none =>
      unfold validateCreateArgs at h
      rw [hr] at h
      cases h
    | some read => rfl
  have hwhole : lower.geometry.diskSize % config.physicalBlockSize = 0 := by
    by_contra hn
    unfold validateCreateArgs at h
    simp only [ne_eq, hn, not_false_eq_true, or_true, if_true] at h
    split_ifs at h
  refine ⟨hread, hpow, hwhole, fun hb => ?_⟩
  by_contra hle
  unfold validateCreateArgs at h
  simp only [if_pos (And.intro hb (Nat.lt_of_not_le hle))] at h
  split_ifs at h

theorem pos_of_isPowerOfTwo {n : ℕ} (h : isPowerOfTwo n = true) : 0 < n := by
  apply Nat.pos_of_ne_zero
  intro hz
  rw [hz] at h
  cases h

theorem Target.sizeT_of_le {t : Target δ} {n : ℕ} (hn : n ≤ t.sizeMax) : t.sizeT n = n :=
  Nat.mod_eq_of_lt (Nat.lt_succ_of_le hn)

/-- A 32-bit word is a `size_t`. -/
theorem Target.Standard.word {t : Target δ} (h : t.Standard) {n : ℕ} (hn : n < 4294967296) :
    n ≤ t.sizeMax := by
  rcases h with h | h
  · omega
  · omega

/-- The size of a chunk is the product it is meant to be. -/
theorem Target.Standard.chunkSize {t : Target δ} (h : t.Standard) {n count size : ℕ}
    (hpos : 0 < size) (hsize : size < 4294967296) (hfits : count * size ≤ t.sizeMax)
    (hn : n ≤ count) : t.sizeT (t.sizeT n * t.sizeT size) = n * size := by
  have hchunk : n * size ≤ t.sizeMax := (Nat.mul_le_mul_right _ hn).trans hfits
  have hword : n ≤ t.sizeMax := (Nat.le_mul_of_pos_right n hpos).trans hchunk
  rw [Target.sizeT_of_le hword, Target.sizeT_of_le (h.word hsize), Target.sizeT_of_le hchunk]

/-- The adapter's sizes, as far as transfers rely on them. -/
structure Geared (t : Target δ) (adapter : Adapter δ) : Prop where
  standard : t.Standard
  read : adapter.lower.read.isSome
  blockSize_pos : 0 < adapter.phBsize
  blockSize : adapter.phBsize < 4294967296
  disk : adapter.phBcnt * adapter.phBsize = adapter.lower.geometry.diskSize
  diskSize : adapter.lower.geometry.diskSize < 18446744073709551616
  bufferFits : adapter.transferBufferBlocks * adapter.phBsize ≤ t.sizeMax
  bufferSize : adapter.transferBufferSize = adapter.transferBufferBlocks * adapter.phBsize
  partSize : adapter.partSize = adapter.phBcnt * adapter.phBsize

theorem Created.geared {t : Target δ} {content : δ → List UInt8} {lower : LowerDevice δ}
    {config : Config} {memory : Bool} {adapter : Adapter δ}
    (h : Created t content lower config memory adapter) :
    adapter.lower = lower ∧ Geared t adapter := by
  have hcreate := h.create
  unfold lwext4PortBdlCreate at hcreate
  split_ifs at hcreate with hval hmem
  have hacc := accepted_of_validateCreateArgs hval
  have hpos := pos_of_isPowerOfTwo hacc.powerOfTwo
  have hblock := Target.sizeT_of_le (h.standard.word h.words.physicalBlockSize)
  have hblocks : t.sizeT (if config.transferBufferBlocks = 0 then 1 else
      config.transferBufferBlocks) =
      if config.transferBufferBlocks = 0 then 1 else config.transferBufferBlocks := by
    apply Target.sizeT_of_le
    apply h.standard.word
    have hw := h.words.transferBufferBlocks
    split_ifs
    · omega
    · exact hw
  have hfits := hacc.bufferFits (by rw [hblock]; exact Nat.pos_iff_ne_zero.mp hpos)
  rw [hblock, hblocks, Nat.le_div_iff_mul_le hpos] at hfits
  rw [← Except.ok.inj hcreate]
  have hdisk := Nat.div_mul_cancel (Nat.dvd_of_mod_eq_zero hacc.whole)
  refine ⟨rfl, h.standard, hacc.read, hpos, h.words.physicalBlockSize, hdisk, h.words.diskSize,
    hfits, ?_, hdisk.symm⟩
  · show t.sizeT (t.sizeT _ * t.sizeT config.physicalBlockSize) = _
    rw [hblock, hblocks]
    exact Target.sizeT_of_le hfits

/-! ## Rounds -/

section Rounds

variable {t : Target δ} {adapter : Adapter δ} {content : δ → List UInt8} {buffer : Buffer}
  {read : ℕ → ℕ → δ → (EspErr × List UInt8) × δ} {write : ℕ → List UInt8 → δ → EspErr × δ}
  {first block n count : ℕ} {s : St δ}

/-- The lower call of a round of `bdl_read`, in blocks. -/
def readCall (adapter : Adapter δ) (read : ℕ → ℕ → δ → (EspErr × List UInt8) × δ)
    (block n : ℕ) : M δ Unit := do
  let error ← lowerRead read (block * adapter.phBsize) (n * adapter.phBsize)
  saveLowerResult error

/-- The lower call of a round of `bdl_write`. -/
def writeCall (adapter : Adapter δ) (write : ℕ → List UInt8 → δ → EspErr × δ)
    (block n : ℕ) : M δ Unit := do
  let error ← lowerWrite write (block * adapter.phBsize) (n * adapter.phBsize)
  saveLowerResult error

/-- The words of one round are what they are meant to be. -/
structure RoundWords (t : Target δ) (adapter : Adapter δ) (block n : ℕ) : Prop where
  size : t.sizeT (t.sizeT n * t.sizeT adapter.phBsize) = n * adapter.phBsize
  address : uint64 (block * adapter.phBsize + n * adapter.phBsize) = (block + n) * adapter.phBsize

theorem Geared.roundWords (hg : Geared t adapter)
    (haddr : (first + count) * adapter.phBsize < 18446744073709551616)
    (hsize : count * adapter.phBsize ≤ t.sizeMax) (hfirst : first ≤ block)
    (hin : block + n ≤ first + count) : RoundWords t adapter block n where
  size := hg.standard.chunkSize hg.blockSize_pos hg.blockSize hsize (by omega)
  address := by
    rw [← Nat.add_mul]
    exact Nat.mod_eq_of_lt ((Nat.mul_le_mul_right _ hin).trans_lt haddr)

/-- The loop of `bdl_read` is the loop over pieces. -/
theorem readLoop_eq (hg : Geared t adapter)
    (haddr : (first + count) * adapter.phBsize < 18446744073709551616)
    (hsize : count * adapter.phBsize ≤ t.sizeMax) {rounds remaining : ℕ} (hfirst : first ≤ block)
    (hin : block + remaining ≤ first + count) :
    readLoop t adapter read buffer rounds remaining (block * adapter.phBsize)
        ((block - first) * adapter.phBsize) =
      chunked adapter.transferBufferBlocks
        (readPiece St.buffers (readCall adapter read) buffer adapter.phBsize first) rounds remaining
        block := by
  refine chunked_of_rounds (f := fun rounds remaining block => readLoop t adapter read buffer rounds
    remaining (block * adapter.phBsize) ((block - first) * adapter.phBsize)) (fun _ _ => rfl)
    (fun rounds remaining block hfirst hin => ?_) hfirst hin
  have hw := hg.roundWords haddr hsize hfirst hin
  rw [readLoop, readPiece, readCall]
  simp only [hw.size, hw.address, BlockPort.delivered_add hfirst,
    whenever_moved hg.blockSize_pos hfirst, bind_assoc]

theorem writeLoop_eq (hg : Geared t adapter)
    (haddr : (first + count) * adapter.phBsize < 18446744073709551616)
    (hsize : count * adapter.phBsize ≤ t.sizeMax) {rounds remaining : ℕ} (hfirst : first ≤ block)
    (hin : block + remaining ≤ first + count) :
    writeLoop t adapter write buffer rounds remaining (block * adapter.phBsize)
        ((block - first) * adapter.phBsize) =
      chunked adapter.transferBufferBlocks
        (writePiece St.buffers (writeCall adapter write) buffer adapter.phBsize first) rounds
        remaining block := by
  refine chunked_of_rounds (f := fun rounds remaining block => writeLoop t adapter write buffer rounds
    remaining (block * adapter.phBsize) ((block - first) * adapter.phBsize)) (fun _ _ => rfl)
    (fun rounds remaining block hfirst hin => ?_) hfirst hin
  have hw := hg.roundWords haddr hsize hfirst hin
  rw [writeLoop, writePiece, writeCall]
  simp only [hw.size, hw.address, BlockPort.delivered_add hfirst,
    whenever_moved hg.blockSize_pos hfirst, bind_assoc]

/-- The part of the disk a round is about. -/
theorem Geared.inside (hg : Geared t adapter) (hin : block + n ≤ adapter.phBcnt) :
    block * adapter.phBsize + n * adapter.phBsize ≤ adapter.lower.geometry.diskSize := by
  rw [← Nat.add_mul, ← hg.disk]
  exact Nat.mul_le_mul_right _ hin

theorem uses (t : Target δ) (content : δ → List UInt8) (adapter : Adapter δ) (buffer : Buffer) :
    (port t content adapter buffer).Uses St.buffers buffer :=
  ⟨fun _ => rfl, fun _ => rfl, Iff.rfl, fun _ _ => rfl, fun _ _ => rfl, fun _ _ => rfl⟩

/-- Whatever the lower read does, its answer is saved and is the answer of the call. -/
theorem readCall_run {error : EspErr} {bytes : List UInt8} {d : δ}
    (hcall : read (block * adapter.phBsize) (n * adapter.phBsize) s.device =
      ((error, bytes), d)) :
    readCall adapter read block n s = returnError error { s with
      device := d
      transferBuffer := putBytes s.transferBuffer 0 bytes
      lastLowerError := error
      calls := (.read (block * adapter.phBsize) (n * adapter.phBsize), error) :: s.calls } := by
  have hrun : lowerRead read (block * adapter.phBsize) (n * adapter.phBsize) s =
      .ok error ({ s with
        device := d
        transferBuffer := putBytes s.transferBuffer 0 bytes }.log
          (.read (block * adapter.phBsize) (n * adapter.phBsize)) error) := by
    unfold lowerRead
    rw [hcall]
  exact bind_of_ok hrun

theorem writeCall_run {error : EspErr} {d : δ}
    (hcall : write (block * adapter.phBsize) (s.transferBuffer.take (n * adapter.phBsize))
      s.device = (error, d)) :
    writeCall adapter write block n s = returnError error { s with
      device := d
      lastLowerError := error
      calls := (.write (block * adapter.phBsize) (n * adapter.phBsize), error) :: s.calls } := by
  have hrun : lowerWrite write (block * adapter.phBsize) (n * adapter.phBsize) s =
      .ok error ({ s with device := d }.log
        (.write (block * adapter.phBsize) (n * adapter.phBsize)) error) := by
    unfold lowerWrite
    rw [hcall]
  exact bind_of_ok hrun

/-- The lower read does what a round relies on. -/
theorem readCall_reads (buffer : Buffer) (s : St δ) (hg : Geared t adapter)
    (laws : Laws adapter.lower content)
    (hread : adapter.lower.read = some read) (hin : block + n ≤ adapter.phBcnt) :
    ∃ error s', readCall adapter read block n s = returnError error s' ∧
      (port t content adapter buffer).Reads St.buffers block n s error s' := by
  rcases hcall : read (block * adapter.phBsize) (n * adapter.phBsize) s.device with
    ⟨⟨error, bytes⟩, d⟩
  refine ⟨error, _, readCall_run hcall, rfl, rfl, fun hok => ?_, fun hclean => ?_⟩
  · rw [hok] at hcall
    obtain ⟨hbytes, hkept⟩ := laws.read read hread _ _ _ _ _ (hg.inside hin) hcall
    refine ⟨hkept, ?_⟩
    rw [hbytes]
    rfl
  · obtain ⟨hnone, hkept⟩ := hclean read hread
    rw [hcall] at hnone hkept
    have hnil : bytes = [] := hnone
    refine ⟨hkept, ?_⟩
    rw [hnil]
    exact overwrite_nil

/-- The lower write, with the piece at the start of the transfer buffer. -/
theorem writeCall_writes (hg : Geared t adapter) (laws : Laws adapter.lower content)
    (hwrite : adapter.lower.write = some write) (hin : block + n ≤ adapter.phBcnt)
    (hroom : n * adapter.phBsize ≤ s.transferBuffer.length) :
    ∃ error s', writeCall adapter write block n s = returnError error s' ∧
      (port t content adapter buffer).Writes St.buffers block n s error s' := by
  rcases hcall : write (block * adapter.phBsize) (s.transferBuffer.take (n * adapter.phBsize))
    s.device with ⟨error, d⟩
  refine ⟨error, _, writeCall_run hcall, rfl, rfl, fun hok => ?_, fun hclean => ?_⟩
  · rw [hok] at hcall
    apply laws.write write hwrite _ _ _ _ _ hcall
    rw [List.length_take_of_le hroom]
    exact hg.inside hin
  · have hkept := hclean write hwrite
    rw [hcall] at hkept
    exact hkept

end Rounds

/-! ## Requests -/

section Requests

variable {t : Target δ} {adapter : Adapter δ} {content : δ → List UInt8} {buffer : Buffer}
  {block count : ℕ} {s : St δ}

/-- The range check passes exactly the requests inside the device whose bytes can be counted. -/
theorem validateIoRange_ok_iff (hg : Geared t adapter) (h0 : 0 < count)
    (hword : count < 4294967296) {address : ℕ} :
    validateIoRange t adapter block count = .ok address ↔
      block + count ≤ adapter.phBcnt ∧ count ≤ t.sizeMax / adapter.phBsize ∧
        uint64 (block * adapter.phBsize) = address := by
  have hbs : t.sizeT adapter.phBsize = adapter.phBsize :=
    Target.sizeT_of_le (hg.standard.word hg.blockSize)
  have hcnt : t.sizeT count = count := Target.sizeT_of_le (hg.standard.word hword)
  have hpos := hg.blockSize_pos
  unfold validateIoRange
  rw [if_neg (by omega), hbs, hcnt]
  by_cases hin : block + count ≤ adapter.phBcnt
  · rw [if_neg (by omega)]
    by_cases hsize : count ≤ t.sizeMax / adapter.phBsize
    · rw [if_neg (by omega)]
      simp only [hin, hsize, true_and, Except.ok.injEq]
    · rw [if_pos ⟨by omega, Nat.lt_of_not_le hsize⟩]
      simp [hsize]
  · rw [if_pos (by omega)]
    simp [hin]

/-- The words of a request that is carried out. -/
theorem Geared.wordsFit (content : δ → List UInt8) (buffer : Buffer) (hg : Geared t adapter)
    (hin : block + count ≤ adapter.phBcnt)
    (hsize : count ≤ t.sizeMax / adapter.phBsize) :
    (port t content adapter buffer).WordsFit block count :=
  ⟨((Nat.mul_le_mul_right _ hin).trans (Nat.le_of_eq hg.disk)).trans_lt hg.diskSize,
    (Nat.le_div_iff_mul_le hg.blockSize_pos).mp hsize, hg.bufferFits, hg.bufferSize,
    hg.partSize⟩

theorem Geared.validateIoRange (hg : Geared t adapter) (h0 : 0 < count)
    (hword : count < 4294967296) (hin : block + count ≤ adapter.phBcnt)
    (hsize : count ≤ t.sizeMax / adapter.phBsize) :
    Bdl.validateIoRange t adapter block count = .ok (block * adapter.phBsize) := by
  have hfit := (hg.wordsFit (fun _ => []) .null hin hsize).1
  refine (validateIoRange_ok_iff hg h0 hword).mpr ⟨hin, hsize, Nat.mod_eq_of_lt ?_⟩
  exact (Nat.mul_le_mul_right _ (Nat.le_add_right _ _)).trans_lt hfit

theorem bdlRead_eq {read : ℕ → ℕ → δ → (EspErr × List UInt8) × δ} (hg : Geared t adapter)
    (hread : adapter.lower.read = some read) (h0 : 0 < count) (hword : count < 4294967296)
    (hin : block + count ≤ adapter.phBcnt)
    (ht : (port t content adapter buffer).Takes .read block count) :
    bdlRead t adapter buffer block count =
      readLoop t adapter read buffer count count (block * adapter.phBsize) 0 := by
  obtain ⟨hnull, hown, hsize, -⟩ := ht
  unfold bdlRead failIf
  rw [hread]
  have hown' : ¬ (buffer = .transfer ∧ adapter.transferBufferBlocks < count) :=
    fun h => Nat.not_lt.mpr (hown h.1) h.2
  simp only [if_neg hnull, hg.validateIoRange h0 hword hin hsize, if_neg h0.ne', if_neg hown',
    pure_bind]

theorem bdlWrite_eq {write : ℕ → List UInt8 → δ → EspErr × δ} (hg : Geared t adapter)
    (hwrite : adapter.lower.write = some write) (h0 : 0 < count) (hword : count < 4294967296)
    (hin : block + count ≤ adapter.phBcnt)
    (ht : (port t content adapter buffer).Takes .write block count) :
    bdlWrite t adapter buffer block count = (do
      writeLoop t adapter write buffer count count (block * adapter.phBsize) 0
      if adapter.syncAfterWrite then do
        let error ← syncLower adapter
        returnError error
      else pure ()) := by
  obtain ⟨hnull, hown, hsize, hw⟩ := ht
  obtain ⟨hro, hlro, -⟩ := hw rfl
  unfold bdlWrite failIf
  rw [hwrite]
  have hown' : ¬ (buffer = .transfer ∧ adapter.transferBufferBlocks < count) :=
    fun h => Nat.not_lt.mpr (hown h.1) h.2
  simp only [if_neg hnull, hro, hlro, Bool.false_eq_true, or_self, if_false,
    hg.validateIoRange h0 hword hin hsize, if_neg h0.ne', if_neg hown', pure_bind]

theorem bdlRead_refuses (content : δ → List UInt8) (hg : Geared t adapter) (h0 : 0 < count)
    (hword : count < 4294967296)
    (hn : ¬ (block + count ≤ adapter.phBcnt ∧
      (port t content adapter buffer).Takes .read block count)) :
    ∃ e, bdlRead t adapter buffer block count s = .err e s := by
  apply wp_refuses
  unfold bdlRead
  cases adapter.lower.read with
  | none => rfl
  | some read =>
    rw [wp_bind, wp_failIf]
    refine ⟨fun _ => rfl, fun hnull => ?_⟩
    cases hval : Bdl.validateIoRange t adapter block count with
    | error e => rfl
    | ok address =>
      obtain ⟨hin, hsize, -⟩ := (validateIoRange_ok_iff hg h0 hword).mp hval
      simp only [if_neg h0.ne', wp_bind, wp_failIf]
      refine ⟨fun _ => trivial, fun hown => (hn ⟨hin, hnull, fun hb => ?_, hsize, fun hd => ?_⟩).elim⟩
      · exact Nat.le_of_not_lt fun hlt => hown ⟨hb, hlt⟩
      · cases hd

theorem bdlWrite_refuses (content : δ → List UInt8) (hg : Geared t adapter) (h0 : 0 < count)
    (hword : count < 4294967296)
    (hn : ¬ (block + count ≤ adapter.phBcnt ∧
      (port t content adapter buffer).Takes .write block count)) :
    ∃ e, bdlWrite t adapter buffer block count s = .err e s := by
  apply wp_refuses
  unfold bdlWrite
  simp only [wp_bind, wp_failIf]
  refine ⟨fun _ => trivial, fun hnull => ⟨fun _ => trivial, fun hro => ?_⟩⟩
  cases hw : adapter.lower.write with
  | none => rfl
  | some write =>
    cases hval : Bdl.validateIoRange t adapter block count with
    | error e => rfl
    | ok address =>
      obtain ⟨hin, hsize, -⟩ := (validateIoRange_ok_iff hg h0 hword).mp hval
      simp only [if_neg h0.ne', wp_bind, wp_failIf]
      refine ⟨fun _ => trivial, fun hown => (hn ⟨hin, hnull, fun hb => ?_, hsize, fun _ => ?_⟩).elim⟩
      · exact Nat.le_of_not_lt fun hlt => hown ⟨hb, hlt⟩
      · rw [not_or, Bool.not_eq_true, Bool.not_eq_true] at hro
        exact ⟨hro.1, hro.2, by rw [hw]; rfl⟩

/-- A `sync` touches nothing that a transfer is about. -/
theorem wp_syncLower_alike (t : Target δ) (buffer : Buffer) (laws : Laws adapter.lower content) :
    wp (syncLower adapter) (fun error s' => (port t content adapter buffer).Alike s s' ∧
      ∀ e, espErrorToLwext4 error = some e → (port t content adapter buffer).FlushFailed e s')
      (fun _ _ => False) s := by
  have hmem (s' : St δ) (hb : s'.buffer = s.buffer) (ht : s'.transferBuffer = s.transferBuffer) :
      s'.memory buffer = s.memory buffer := by
    cases buffer with
    | null => exact hb
    | transfer => exact ht
    | caller => exact hb
  unfold syncLower lowerSync
  cases hs : adapter.lower.sync with
  | none => exact ⟨⟨rfl, hmem _ rfl rfl, rfl⟩, fun e he => by cases he⟩
  | some sync =>
    exact ⟨⟨laws.sync sync hs s.device, hmem _ rfl rfl, rfl⟩, fun e he => ⟨_, _, rfl, he⟩⟩

end Requests

/-! ## The adapter -/

section Adapter

variable {t : Target δ} {content : δ → List UInt8} {adapter : Adapter δ} {buffer : Buffer}
  {block count : ℕ} {s : St δ}

theorem wp_bdlRead_exact (hg : Geared t adapter) (laws : Laws adapter.lower content)
    (hlen : s.transferBuffer.length = adapter.transferBufferSize) (h0 : 0 < count)
    (hword : count < 4294967296) (hin : block + count ≤ adapter.phBcnt)
    (hmem : count * adapter.phBsize ≤ (s.memory buffer).length)
    (ht : (port t content adapter buffer).Takes .read block count) :
    wp (bdlRead t adapter buffer block count)
      (fun _ s' => ∃ pieces,
        (port t content adapter buffer).Done .read block (block + count) pieces s s')
      ((port t content adapter buffer).Stopped .read block count s) s := by
  obtain ⟨read, hread⟩ := Option.isSome_iff_exists.mp hg.read
  have hfit := hg.wordsFit content buffer hin ht.2.2.1
  rw [bdlRead_eq hg hread h0 hword hin ht, ← Nat.zero_mul adapter.phBsize, ← Nat.sub_self block,
    readLoop_eq hg hfit.1 hfit.2.1 (Nat.le_refl block) (Nat.le_refl _)]
  have hdev : (block + count) * adapter.phBsize ≤ (content s.device).length := by
    rw [laws.length, ← hg.disk]
    exact Nat.mul_le_mul_right _ hin
  apply BlockPort.wp_pieces (p := port t content adapter buffer)
    adapter.transferBufferBlocks_pos ht.2.1 (hlen.trans hg.bufferSize) hdev hmem
  intro b n s₁ _ hlast _ hn hready
  obtain ⟨error, s₂, hcall, hreads⟩ :=
    readCall_reads buffer s₁ hg laws hread (hlast.trans hin)
  apply BlockPort.wp_readPiece (uses t content adapter buffer) ht.1 hn hready _ hcall hreads
  show (b + n) * adapter.phBsize ≤ (content s₁.device).length
  rw [laws.length, ← hg.disk]
  exact Nat.mul_le_mul_right _ (hlast.trans hin)

theorem wp_writeLoop_exact {write : ℕ → List UInt8 → δ → EspErr × δ} (hg : Geared t adapter)
    (laws : Laws adapter.lower content) (hwrite : adapter.lower.write = some write)
    (hlen : s.transferBuffer.length = adapter.transferBufferSize)
    (hin : block + count ≤ adapter.phBcnt)
    (hmem : count * adapter.phBsize ≤ (s.memory buffer).length)
    (ht : (port t content adapter buffer).Takes .write block count) :
    wp (writeLoop t adapter write buffer count count (block * adapter.phBsize) 0)
      (fun _ s' => ∃ pieces,
        (port t content adapter buffer).Done .write block (block + count) pieces s s')
      ((port t content adapter buffer).Stopped .write block count s) s := by
  have hfit := hg.wordsFit content buffer hin ht.2.2.1
  rw [← Nat.zero_mul adapter.phBsize, ← Nat.sub_self block,
    writeLoop_eq hg hfit.1 hfit.2.1 (Nat.le_refl block) (Nat.le_refl _)]
  have hdev : (block + count) * adapter.phBsize ≤ (content s.device).length := by
    rw [laws.length, ← hg.disk]
    exact Nat.mul_le_mul_right _ hin
  apply BlockPort.wp_pieces (p := port t content adapter buffer)
    adapter.transferBufferBlocks_pos ht.2.1 (hlen.trans hg.bufferSize) hdev hmem
  intro b n s₁ _ hlast _ hn hready
  apply BlockPort.wp_writePiece (uses t content adapter buffer) ht.1 hn hready
  intro mid hmid
  apply writeCall_writes hg laws hwrite (hlast.trans hin)
  have hroom : 0 + n * adapter.phBsize ≤ mid.transferBuffer.length :=
    BlockPort.Ready.size_le hn (hmid.length.trans hready.bounce)
  omega

/-- After the loop a `sync` may follow, and may fail with everything written. -/
theorem wp_bdlWrite_exact (hg : Geared t adapter) (laws : Laws adapter.lower content)
    (hlen : s.transferBuffer.length = adapter.transferBufferSize) (h0 : 0 < count)
    (hword : count < 4294967296) (hin : block + count ≤ adapter.phBcnt)
    (hmem : count * adapter.phBsize ≤ (s.memory buffer).length)
    (ht : (port t content adapter buffer).Takes .write block count) :
    wp (bdlWrite t adapter buffer block count)
      (fun _ s' => ∃ pieces,
        (port t content adapter buffer).Done .write block (block + count) pieces s s')
      (fun e s' => (port t content adapter buffer).Stopped .write block count s e s' ∨
        (∃ pieces, (port t content adapter buffer).Done .write block (block + count) pieces s s') ∧
          (port t content adapter buffer).FlushFailed e s') s := by
  obtain ⟨write, hwrite⟩ := Option.isSome_iff_exists.mp (ht.2.2.2 rfl).2.2
  rw [bdlWrite_eq hg hwrite h0 hword hin ht, wp_bind]
  apply wp_mono (wp_writeLoop_exact hg laws hwrite hlen hin hmem ht) _ fun _ _ hs => Or.inl hs
  rintro _ s₁ ⟨pieces, hdone⟩
  rw [wp_ite]
  refine ⟨fun _ => ?_, fun _ => ⟨pieces, hdone⟩⟩
  rw [wp_bind]
  apply wp_mono (wp_syncLower_alike t buffer laws) _ fun _ _ hf => hf.elim
  rintro error s₂ ⟨halike, hflush⟩
  rw [wp_returnError]
  exact ⟨fun _ => ⟨pieces, hdone.congr halike⟩,
    fun e he => Or.inr ⟨⟨pieces, hdone.congr halike⟩, hflush e he⟩⟩

/-- **The block-device adapter moves exactly what it is asked to.** -/
theorem Created.exact {lower : LowerDevice δ} {config : Config} {memory : Bool}
    (h : Created t content lower config memory adapter)
    (hlen : s.transferBuffer.length = adapter.transferBufferSize) (h0 : 0 < count)
    (hword : count < 4294967296) : (port t content adapter buffer).Exact s block count := by
  obtain ⟨hlower, hg⟩ := h.geared
  have laws : Laws adapter.lower content := hlower ▸ h.laws
  refine ⟨fun hout dir => ?_, fun dir hn => ?_, fun hin hmem dir ht => ?_⟩
  · cases dir with
    | read => exact bdlRead_refuses content hg h0 hword fun hc => hout hc.1
    | write => exact bdlWrite_refuses content hg h0 hword fun hc => hout hc.1
  · cases dir with
    | read => exact bdlRead_refuses content hg h0 hword fun hc => hn hc.2
    | write => exact bdlWrite_refuses content hg h0 hword fun hc => hn hc.2
  · refine ⟨hg.wordsFit content buffer hin ht.2.2.1, ?_⟩
    cases dir with
    | read =>
      exact wp_mono (wp_bdlRead_exact hg laws hlen h0 hword hin hmem ht) (fun _ _ hd => hd)
        fun _ _ hs => Or.inl hs
    | write => exact wp_bdlWrite_exact hg laws hlen h0 hword hin hmem ht

end Adapter

end EspLwext4.Port.Bdl
