import EspLwext4.Port.BdlTransfers
import EspLwext4.Port.Sdmmc

/-!
# Transfers of the SDMMC adapter

The same for the adapter that `lwext4_port_sdmmc_create` made, whose calls name sectors: on a
card with a positive sector size its requests are exact, and on any other card every request is
turned away.
-/

namespace EspLwext4.Port.Sdmmc

open Prog
open Bdl (Target uint64)

variable {δ : Type}

/-- The fields fit their types; `int` has 32 bits. -/
structure Words (card : Card δ) (config : Config) : Prop where
  sectorSize : -2147483648 ≤ card.sectorSize ∧ card.sectorSize ≤ 2147483647
  capacity : card.capacity ≤ 2147483647
  transferBufferBlocks : config.transferBufferBlocks < 4294967296

/-- What the driver is documented to do to the bytes of the card. -/
structure Laws (card : Card δ) (content : δ → List UInt8) : Prop where
  length : ∀ d, (content d).length = card.capacity.toNat * card.sectorSize.toNat
  read : ∀ sector count d bytes d', sector + count ≤ card.capacity.toNat →
    card.readSectors sector count d = ((.ok, bytes), d') →
    bytes = slice (content d) (sector * card.sectorSize.toNat) (count * card.sectorSize.toNat) ∧
      content d' = content d
  write : ∀ sector count source d d', sector + count ≤ card.capacity.toNat →
    count * card.sectorSize.toNat ≤ source.length →
    card.writeSectors sector count source d = (.ok, d') →
    content d' = overwrite (content d) (sector * card.sectorSize.toNat)
      (source.take (count * card.sectorSize.toNat))

/-- `adapter` was made by `lwext4_port_sdmmc_create`. -/
structure Created (t : Target δ) (content : δ → List UInt8) (card : Card δ) (config : Config)
    (memory : Bool) (adapter : Adapter δ) : Prop where
  standard : t.Standard
  words : Words card config
  laws : Laws card content
  create : lwext4PortSdmmcCreate t card config memory = .ok adapter

/-- The bytes of the buffer argument. -/
def St.memory (s : St δ) (buffer : Buffer) : List UInt8 := (St.buffers.get s).memory buffer

/-- The adapter with a buffer argument. -/
def port (t : Target δ) (content : δ → List UInt8) (adapter : Adapter δ) (buffer : Buffer) :
    BlockPort (St δ) CardCall where
  blockSize := adapter.phBsize
  blockTotal := adapter.phBcnt
  transferBufferBlocks := adapter.transferBufferBlocks
  transfer
    | .read => sdmmcRead t adapter buffer
    | .write => sdmmcWrite t adapter buffer
  content s := content s.device
  memory s := s.memory buffer
  bounce s := s.transferBuffer
  Own := buffer = .transfer
  calls s := s.calls
  call
    | .read => fun block n => .read block n
    | .write => fun block n => .write block n
  Clean
    | .read => fun s block n => (adapter.card.readSectors block n s.device).1.2 = [] ∧
        content (adapter.card.readSectors block n s.device).2 = content s.device
    | .write => fun s block n =>
        content (adapter.card.writeSectors block n s.transferBuffer s.device).2 = content s.device
  Takes _ block count := validCard adapter.card = true ∧ buffer ≠ .null ∧
    (buffer = .transfer → count ≤ adapter.transferBufferBlocks) ∧
    count ≤ t.sizeMax / adapter.phBsize ∧ block ≤ t.sizeMax ∧ count ≤ t.sizeMax - block
  WordsFit block count := block + count ≤ t.sizeMax ∧ count * adapter.phBsize ≤ t.sizeMax ∧
    adapter.transferBufferBlocks * adapter.phBsize ≤ t.sizeMax ∧
    adapter.transferBufferSize = adapter.transferBufferBlocks * adapter.phBsize ∧
    adapter.partSize = adapter.phBcnt * adapter.phBsize
  FlushFailed _ _ := False

/-! ## What creation establishes -/

/-- The adapter's sizes, as far as transfers rely on them. -/
structure Geared (t : Target δ) (adapter : Adapter δ) : Prop where
  standard : t.Standard
  blockSize : adapter.phBsize < 4294967296
  total : adapter.phBcnt = adapter.card.capacity.toNat
  totalWord : uint64OfInt adapter.card.capacity = adapter.phBcnt
  bufferFits : adapter.transferBufferBlocks * adapter.phBsize ≤ t.sizeMax
  bufferSize : adapter.transferBufferSize = adapter.transferBufferBlocks * adapter.phBsize
  sector : validCard adapter.card = true → adapter.phBsize = adapter.card.sectorSize.toNat ∧
    adapter.partSize = adapter.phBcnt * adapter.phBsize

theorem uint64OfInt_of_nonneg {i : ℤ} (h : 0 ≤ i) (h' : i ≤ 2147483647) :
    uint64OfInt i = i.toNat := by
  unfold uint64OfInt
  rw [Int.emod_eq_of_lt h (by omega)]

theorem uint32OfInt_lt (i : ℤ) : uint32OfInt i < 4294967296 := by
  unfold uint32OfInt
  omega

theorem uint32OfInt_of_pos {i : ℤ} (h : 0 < i) (h' : i ≤ 2147483647) :
    uint32OfInt i = i.toNat := by
  unfold uint32OfInt
  rw [Int.emod_eq_of_lt (by omega) (by omega)]

/-- The size of a card that can be used. -/
theorem deviceSize_of_validCard {card : Card δ} {config : Config} (hw : Words card config)
    (hv : validCard card = true) :
    deviceSize card = card.capacity.toNat * card.sectorSize.toNat := by
  unfold validCard at hv
  have hpos := of_decide_eq_true hv
  have hcap := hw.capacity
  have hsec := hw.sectorSize.2
  unfold deviceSize uint64
  rw [uint64OfInt_of_nonneg (by omega) hcap, uint64OfInt_of_nonneg (by omega) hsec]
  apply Nat.mod_eq_of_lt
  calc card.capacity.toNat * card.sectorSize.toNat
      ≤ 2147483647 * 2147483647 := Nat.mul_le_mul (by omega) (by omega)
    _ < 18446744073709551616 := by decide

theorem Created.geared {t : Target δ} {content : δ → List UInt8} {card : Card δ} {config : Config}
    {memory : Bool} {adapter : Adapter δ} (h : Created t content card config memory adapter) :
    adapter.card = card ∧ Geared t adapter := by
  have hcreate := h.create
  unfold lwext4PortSdmmcCreate at hcreate
  split_ifs at hcreate with hval hmem
  have hacc := accepted_of_validateCreateArgs hval
  have hpos := hacc.physicalBlockSize_pos
  have hlt : config.physicalBlockSize < 4294967296 := by
    rw [hacc.physicalBlockSize]
    exact uint32OfInt_lt _
  have hblock := Target.sizeT_of_le (h.standard.word hlt)
  have hblocks : t.sizeT config.bufferBlocks = config.bufferBlocks := by
    apply Target.sizeT_of_le
    apply h.standard.word
    have hw := h.words.transferBufferBlocks
    unfold Config.bufferBlocks
    split_ifs
    · omega
    · exact hw
  have hfits := hacc.bufferFits (by rw [hblock]; exact Nat.pos_iff_ne_zero.mp hpos)
  rw [hblock, hblocks, Nat.le_div_iff_mul_le hpos] at hfits
  have htotal := uint64OfInt_of_nonneg (Int.le_of_lt hacc.capacity) h.words.capacity
  rw [← Except.ok.inj hcreate]
  refine ⟨rfl, h.standard, hlt, htotal, rfl, hfits, ?_, fun hv => ?_⟩
  · show t.sizeT (t.sizeT _ * t.sizeT config.physicalBlockSize) = _
    rw [hblock, hblocks]
    exact Target.sizeT_of_le hfits
  · have hsec : 0 < card.sectorSize := (of_decide_eq_true hv).1
    have hbs : config.physicalBlockSize = card.sectorSize.toNat := by
      rw [hacc.physicalBlockSize, uint32OfInt_of_pos hsec h.words.sectorSize.2]
    refine ⟨hbs, ?_⟩
    show deviceSize card = uint64OfInt card.capacity * config.physicalBlockSize
    rw [deviceSize_of_validCard h.words hv, htotal, hbs]

/-! ## Rounds -/

section Rounds

variable {t : Target δ} {adapter : Adapter δ} {content : δ → List UInt8} {buffer : Buffer}
  {first block n count : ℕ} {s : St δ}

/-- The driver's call of a round of `sdmmc_read`. -/
def readCall (adapter : Adapter δ) (block n : ℕ) : M δ Unit := do
  let error ← lowerRead adapter block n
  returnError error

/-- The driver's call of a round of `sdmmc_write`. -/
def writeCall (adapter : Adapter δ) (block n : ℕ) : M δ Unit := do
  let error ← lowerWrite adapter block n
  returnError error

/-- The words of one round are what they are meant to be. -/
structure RoundWords (t : Target δ) (adapter : Adapter δ) (block n : ℕ) : Prop where
  size : t.sizeT (t.sizeT n * t.sizeT adapter.phBsize) = n * adapter.phBsize
  sector : t.sizeT block = block
  next : uint64 (block + n) = block + n

theorem Geared.roundWords (hg : Geared t adapter) (haddr : first + count ≤ t.sizeMax)
    (hsize : count * adapter.phBsize ≤ t.sizeMax) (hfirst : first ≤ block)
    (hin : block + n ≤ first + count) : RoundWords t adapter block n where
  size := hg.standard.chunkSize adapter.phBsize_pos hg.blockSize hsize (by omega)
  sector := Target.sizeT_of_le (by omega)
  next := by
    have hmax : t.sizeMax ≤ 18446744073709551615 := by
      rcases hg.standard with h | h
      · omega
      · omega
    exact Nat.mod_eq_of_lt (by omega)

/-- The loop of `sdmmc_read` is the loop over pieces. -/
theorem readLoop_eq (hg : Geared t adapter) (haddr : first + count ≤ t.sizeMax)
    (hsize : count * adapter.phBsize ≤ t.sizeMax) {rounds remaining : ℕ} (hfirst : first ≤ block)
    (hin : block + remaining ≤ first + count) :
    readLoop t adapter buffer rounds remaining block ((block - first) * adapter.phBsize) =
      chunked adapter.transferBufferBlocks
        (readPiece St.buffers (readCall adapter) buffer adapter.phBsize first) rounds remaining
        block := by
  refine chunked_of_rounds (f := fun rounds remaining block => readLoop t adapter buffer rounds
    remaining block ((block - first) * adapter.phBsize)) (fun _ _ => rfl)
    (fun rounds remaining block hfirst hin => ?_) hfirst hin
  have hw := hg.roundWords haddr hsize hfirst hin
  rw [readLoop, readPiece, readCall]
  simp only [hw.size, hw.sector, hw.next, BlockPort.delivered_add hfirst,
    whenever_moved adapter.phBsize_pos hfirst, bind_assoc]

theorem writeLoop_eq (hg : Geared t adapter) (haddr : first + count ≤ t.sizeMax)
    (hsize : count * adapter.phBsize ≤ t.sizeMax) {rounds remaining : ℕ} (hfirst : first ≤ block)
    (hin : block + remaining ≤ first + count) :
    writeLoop t adapter buffer rounds remaining block ((block - first) * adapter.phBsize) =
      chunked adapter.transferBufferBlocks
        (writePiece St.buffers (writeCall adapter) buffer adapter.phBsize first) rounds remaining
        block := by
  refine chunked_of_rounds (f := fun rounds remaining block => writeLoop t adapter buffer rounds
    remaining block ((block - first) * adapter.phBsize)) (fun _ _ => rfl)
    (fun rounds remaining block hfirst hin => ?_) hfirst hin
  have hw := hg.roundWords haddr hsize hfirst hin
  rw [writeLoop, writePiece, writeCall]
  simp only [hw.size, hw.sector, hw.next, BlockPort.delivered_add hfirst,
    whenever_moved adapter.phBsize_pos hfirst, bind_assoc]

theorem uses (t : Target δ) (content : δ → List UInt8) (adapter : Adapter δ) (buffer : Buffer) :
    (port t content adapter buffer).Uses St.buffers buffer :=
  ⟨fun _ => rfl, fun _ => rfl, Iff.rfl, fun _ _ => rfl, fun _ _ => rfl, fun _ _ => rfl⟩

/-- Whatever the driver does, its answer is the answer of the call. -/
theorem readCall_run {error : EspErr} {bytes : List UInt8} {d : δ}
    (hcall : adapter.card.readSectors block n s.device = ((error, bytes), d)) :
    readCall adapter block n s = returnError error { s with
      device := d
      transferBuffer := putBytes s.transferBuffer 0 bytes
      calls := (.read block n, error) :: s.calls } := by
  have hrun : lowerRead adapter block n s = .ok error ({ s with
      device := d
      transferBuffer := putBytes s.transferBuffer 0 bytes }.log (.read block n) error) := by
    unfold lowerRead
    rw [hcall]
  exact bind_of_ok hrun

theorem writeCall_run {error : EspErr} {d : δ}
    (hcall : adapter.card.writeSectors block n s.transferBuffer s.device = (error, d)) :
    writeCall adapter block n s = returnError error { s with
      device := d
      calls := (.write block n, error) :: s.calls } := by
  have hrun : lowerWrite adapter block n s =
      .ok error ({ s with device := d }.log (.write block n) error) := by
    unfold lowerWrite
    rw [hcall]
  exact bind_of_ok hrun

/-- A card has the size its adapter works with. -/
theorem Geared.length_content (hg : Geared t adapter) (laws : Laws adapter.card content)
    (hv : validCard adapter.card = true) (d : δ) :
    (content d).length = adapter.phBcnt * adapter.phBsize := by
  rw [laws.length, ← (hg.sector hv).1, ← hg.total]

/-- The driver's read does what a round relies on. -/
theorem readCall_reads (buffer : Buffer) (s : St δ) (hg : Geared t adapter)
    (laws : Laws adapter.card content)
    (hv : validCard adapter.card = true) (hin : block + n ≤ adapter.phBcnt) :
    ∃ error s', readCall adapter block n s = returnError error s' ∧
      (port t content adapter buffer).Reads St.buffers block n s error s' := by
  rcases hcall : adapter.card.readSectors block n s.device with ⟨⟨error, bytes⟩, d⟩
  refine ⟨error, _, readCall_run hcall, rfl, rfl, fun hok => ?_, fun hclean => ?_⟩
  · rw [hok] at hcall
    obtain ⟨hbytes, hkept⟩ := laws.read _ _ _ _ _ (hg.total ▸ hin) hcall
    refine ⟨hkept, ?_⟩
    rw [hbytes, ← (hg.sector hv).1]
    rfl
  · obtain ⟨hnone, hkept⟩ := hclean
    rw [hcall] at hnone hkept
    have hnil : bytes = [] := hnone
    refine ⟨hkept, ?_⟩
    rw [hnil]
    exact overwrite_nil

/-- The driver's write, with the piece at the start of the transfer buffer. -/
theorem writeCall_writes (hg : Geared t adapter) (laws : Laws adapter.card content)
    (hv : validCard adapter.card = true) (hin : block + n ≤ adapter.phBcnt)
    (hroom : n * adapter.phBsize ≤ s.transferBuffer.length) :
    ∃ error s', writeCall adapter block n s = returnError error s' ∧
      (port t content adapter buffer).Writes St.buffers block n s error s' := by
  have hsec := (hg.sector hv).1
  rcases hcall : adapter.card.writeSectors block n s.transferBuffer s.device with ⟨error, d⟩
  refine ⟨error, _, writeCall_run hcall, rfl, rfl, fun hok => ?_, fun hclean => ?_⟩
  · rw [hok] at hcall
    have hnew := laws.write _ _ _ _ _ (hg.total ▸ hin) (hsec ▸ hroom) hcall
    rw [← hsec] at hnew
    exact hnew
  · have hkept : content (adapter.card.writeSectors block n s.transferBuffer s.device).2 =
      content s.device := hclean
    rw [hcall] at hkept
    exact hkept

end Rounds

/-! ## Requests -/

section Requests

variable {t : Target δ} {adapter : Adapter δ} {content : δ → List UInt8} {buffer : Buffer}
  {block count : ℕ} {s : St δ}

/-- The range check passes exactly the requests inside the card whose bytes and sectors can be
counted. -/
theorem validateIoRange_ok_iff (hg : Geared t adapter) (h0 : 0 < count) {sector : ℕ} :
    validateIoRange t adapter block count = .ok sector ↔
      block + count ≤ adapter.phBcnt ∧ count ≤ t.sizeMax / adapter.phBsize ∧
        (block ≤ t.sizeMax ∧ count ≤ t.sizeMax - block) ∧ block = sector := by
  have hbs : t.sizeT adapter.phBsize = adapter.phBsize :=
    Target.sizeT_of_le (hg.standard.word hg.blockSize)
  unfold validateIoRange
  simp only [hg.totalWord, hbs]
  rw [if_neg (by omega)]
  by_cases hin : block + count ≤ adapter.phBcnt
  · rw [if_neg (by omega)]
    by_cases hsize : count ≤ t.sizeMax / adapter.phBsize
    · rw [if_neg (by omega)]
      by_cases hword : block ≤ t.sizeMax
      · rw [Target.sizeT_of_le hword]
        by_cases hcount : count ≤ t.sizeMax - block
        · rw [if_neg (by omega)]
          simp only [hin, hsize, hword, hcount, true_and, Except.ok.injEq]
        · rw [if_pos (by omega)]
          simp [hcount]
      · rw [if_pos (by omega)]
        simp [hword]
    · rw [if_pos (by omega)]
      simp [hsize]
  · rw [if_pos (by omega)]
    simp [hin]

theorem Geared.wordsFit {dir : Direction} (hg : Geared t adapter)
    (ht : (port t content adapter buffer).Takes dir block count) :
    (port t content adapter buffer).WordsFit block count := by
  obtain ⟨hv, -, -, hsize, hword, hcount⟩ := ht
  refine ⟨by omega, ?_, hg.bufferFits, hg.bufferSize, (hg.sector hv).2⟩
  exact (Nat.le_div_iff_mul_le adapter.phBsize_pos).mp hsize

theorem sdmmcRead_eq (hg : Geared t adapter) (h0 : 0 < count)
    (hin : block + count ≤ adapter.phBcnt)
    (ht : (port t content adapter buffer).Takes .read block count) :
    sdmmcRead t adapter buffer block count = readLoop t adapter buffer count count block 0 := by
  obtain ⟨hv, hnull, hown, hsize, hword⟩ := ht
  have hval := (validateIoRange_ok_iff hg h0).mpr ⟨hin, hsize, hword, rfl⟩
  have hown' : ¬ (buffer = .transfer ∧ adapter.transferBufferBlocks < count) :=
    fun h => Nat.not_lt.mpr (hown h.1) h.2
  have hok : ¬ (¬ validCard adapter.card = true ∨ buffer = .null) :=
    not_or.mpr ⟨not_not.mpr hv, hnull⟩
  unfold sdmmcRead failIf
  simp only [if_neg hok, hval, if_neg h0.ne', if_neg hown', pure_bind]

theorem sdmmcWrite_eq (hg : Geared t adapter) (h0 : 0 < count)
    (hin : block + count ≤ adapter.phBcnt)
    (ht : (port t content adapter buffer).Takes .write block count) :
    sdmmcWrite t adapter buffer block count = writeLoop t adapter buffer count count block 0 := by
  obtain ⟨hv, hnull, hown, hsize, hword⟩ := ht
  have hval := (validateIoRange_ok_iff hg h0).mpr ⟨hin, hsize, hword, rfl⟩
  have hown' : ¬ (buffer = .transfer ∧ adapter.transferBufferBlocks < count) :=
    fun h => Nat.not_lt.mpr (hown h.1) h.2
  have hok : ¬ (¬ validCard adapter.card = true ∨ buffer = .null) :=
    not_or.mpr ⟨not_not.mpr hv, hnull⟩
  unfold sdmmcWrite failIf
  simp only [if_neg hok, hval, if_neg h0.ne', if_neg hown', pure_bind]

/-- The checks in front of a loop, with any loop behind them, turn away what is not inside the
card or not taken. -/
theorem wp_checks_refuse {dir : Direction} {loop : ℕ → M δ Unit} (hg : Geared t adapter)
    (h0 : 0 < count)
    (hn : ¬ (block + count ≤ adapter.phBcnt ∧
      (port t content adapter buffer).Takes dir block count)) :
    wp (do
      failIf (¬ validCard adapter.card ∨ buffer = .null) .einval
      match validateIoRange t adapter block count with
      | .error e => raise e
      | .ok sector =>
        if count = 0 then pure ()
        else do
          failIf (buffer = .transfer ∧ adapter.transferBufferBlocks < count) .einval
          loop sector : M δ Unit) (fun _ _ => False) (fun _ s' => s' = s) s := by
  rw [wp_bind, wp_failIf]
  refine ⟨fun _ => rfl, fun hok => ?_⟩
  rw [not_or, not_not] at hok
  cases hval : validateIoRange t adapter block count with
  | error e => rfl
  | ok sector =>
    obtain ⟨hin, hsize, hword, -⟩ := (validateIoRange_ok_iff hg h0).mp hval
    simp only [if_neg h0.ne', wp_bind, wp_failIf]
    refine ⟨fun _ => trivial, fun hown => (hn ⟨hin, hok.1, hok.2, fun hb => ?_, hsize, hword⟩).elim⟩
    exact Nat.le_of_not_lt fun hlt => hown ⟨hb, hlt⟩

theorem sdmmcRead_refuses (content : δ → List UInt8) (hg : Geared t adapter) (h0 : 0 < count)
    (hn : ¬ (block + count ≤ adapter.phBcnt ∧
      (port t content adapter buffer).Takes .read block count)) :
    ∃ e, sdmmcRead t adapter buffer block count s = .err e s :=
  wp_refuses (wp_checks_refuse hg h0 hn)

theorem sdmmcWrite_refuses (content : δ → List UInt8) (hg : Geared t adapter) (h0 : 0 < count)
    (hn : ¬ (block + count ≤ adapter.phBcnt ∧
      (port t content adapter buffer).Takes .write block count)) :
    ∃ e, sdmmcWrite t adapter buffer block count s = .err e s :=
  wp_refuses (wp_checks_refuse hg h0 hn)

end Requests

/-! ## The adapter -/

section Adapter

variable {t : Target δ} {content : δ → List UInt8} {adapter : Adapter δ} {buffer : Buffer}
  {block count : ℕ} {s : St δ}

theorem wp_sdmmcRead_exact (hg : Geared t adapter) (laws : Laws adapter.card content)
    (hlen : s.transferBuffer.length = adapter.transferBufferSize) (h0 : 0 < count)
    (hin : block + count ≤ adapter.phBcnt)
    (hmem : count * adapter.phBsize ≤ (s.memory buffer).length)
    (ht : (port t content adapter buffer).Takes .read block count) :
    wp (sdmmcRead t adapter buffer block count)
      (fun _ s' => ∃ pieces,
        (port t content adapter buffer).Done .read block (block + count) pieces s s')
      ((port t content adapter buffer).Stopped .read block count s) s := by
  have hfit := hg.wordsFit ht
  rw [sdmmcRead_eq hg h0 hin ht, ← Nat.zero_mul adapter.phBsize, ← Nat.sub_self block,
    readLoop_eq hg hfit.1 hfit.2.1 (Nat.le_refl block) (Nat.le_refl _)]
  have hdev : (block + count) * adapter.phBsize ≤ (content s.device).length := by
    rw [hg.length_content laws ht.1]
    exact Nat.mul_le_mul_right _ hin
  apply BlockPort.wp_pieces (p := port t content adapter buffer)
    adapter.transferBufferBlocks_pos ht.2.2.1 (hlen.trans hg.bufferSize) hdev hmem
  intro b n s₁ _ hlast _ hn hready
  obtain ⟨error, s₂, hcall, hreads⟩ :=
    readCall_reads buffer s₁ hg laws ht.1 (hlast.trans hin)
  apply BlockPort.wp_readPiece (uses t content adapter buffer) ht.2.1 hn hready _ hcall hreads
  show (b + n) * adapter.phBsize ≤ (content s₁.device).length
  rw [hg.length_content laws ht.1]
  exact Nat.mul_le_mul_right _ (hlast.trans hin)

theorem wp_sdmmcWrite_exact (hg : Geared t adapter) (laws : Laws adapter.card content)
    (hlen : s.transferBuffer.length = adapter.transferBufferSize) (h0 : 0 < count)
    (hin : block + count ≤ adapter.phBcnt)
    (hmem : count * adapter.phBsize ≤ (s.memory buffer).length)
    (ht : (port t content adapter buffer).Takes .write block count) :
    wp (sdmmcWrite t adapter buffer block count)
      (fun _ s' => ∃ pieces,
        (port t content adapter buffer).Done .write block (block + count) pieces s s')
      ((port t content adapter buffer).Stopped .write block count s) s := by
  have hfit := hg.wordsFit ht
  rw [sdmmcWrite_eq hg h0 hin ht, ← Nat.zero_mul adapter.phBsize, ← Nat.sub_self block,
    writeLoop_eq hg hfit.1 hfit.2.1 (Nat.le_refl block) (Nat.le_refl _)]
  have hdev : (block + count) * adapter.phBsize ≤ (content s.device).length := by
    rw [hg.length_content laws ht.1]
    exact Nat.mul_le_mul_right _ hin
  apply BlockPort.wp_pieces (p := port t content adapter buffer)
    adapter.transferBufferBlocks_pos ht.2.2.1 (hlen.trans hg.bufferSize) hdev hmem
  intro b n s₁ _ hlast _ hn hready
  apply BlockPort.wp_writePiece (uses t content adapter buffer) ht.2.1 hn hready
  intro mid hmid
  apply writeCall_writes hg laws ht.1 (hlast.trans hin)
  have hroom : 0 + n * adapter.phBsize ≤ mid.transferBuffer.length :=
    BlockPort.Ready.size_le hn (hmid.length.trans hready.bounce)
  omega

/-- **The SDMMC adapter moves exactly what it is asked to.** -/
theorem Created.exact {card : Card δ} {config : Config} {memory : Bool}
    (h : Created t content card config memory adapter)
    (hlen : s.transferBuffer.length = adapter.transferBufferSize) (h0 : 0 < count) :
    (port t content adapter buffer).Exact s block count := by
  obtain ⟨hcard, hg⟩ := h.geared
  have laws : Laws adapter.card content := hcard ▸ h.laws
  refine ⟨fun hout dir => ?_, fun dir hn => ?_, fun hin hmem dir ht => ?_⟩
  · cases dir with
    | read => exact sdmmcRead_refuses content hg h0 fun hc => hout hc.1
    | write => exact sdmmcWrite_refuses content hg h0 fun hc => hout hc.1
  · cases dir with
    | read => exact sdmmcRead_refuses content hg h0 fun hc => hn hc.2
    | write => exact sdmmcWrite_refuses content hg h0 fun hc => hn hc.2
  · refine ⟨hg.wordsFit ht, ?_⟩
    cases dir with
    | read =>
      exact wp_mono (wp_sdmmcRead_exact hg laws hlen h0 hin hmem ht) (fun _ _ hd => hd)
        fun _ _ hs => Or.inl hs
    | write =>
      exact wp_mono (wp_sdmmcWrite_exact hg laws hlen h0 hin hmem ht) (fun _ _ hd => hd)
        fun _ _ hs => Or.inl hs

end Adapter

end EspLwext4.Port.Sdmmc

namespace EspLwext4.Port

open Bdl (Target)

/-- **Transfers.** On both adapters as created, with `size_t` of 32 or 64 bits, every request for
at least one block and every buffer that is the transfer buffer or apart from it is exact. -/
theorem transfers_exact {δ : Type} (t : Target δ) (content : δ → List UInt8) (buffer : Buffer)
    (block count : ℕ) (h0 : 0 < count) (hword : count < 4294967296) :
    (∀ lower config memory adapter (s : Bdl.St δ),
      Bdl.Created t content lower config memory adapter →
      s.transferBuffer.length = adapter.transferBufferSize →
      (Bdl.port t content adapter buffer).Exact s block count) ∧
    ∀ card config memory adapter (s : Sdmmc.St δ),
      Sdmmc.Created t content card config memory adapter →
      s.transferBuffer.length = adapter.transferBufferSize →
      (Sdmmc.port t content adapter buffer).Exact s block count :=
  ⟨fun _ _ _ _ _ h hlen => h.exact hlen h0 hword, fun _ _ _ _ _ h hlen => h.exact hlen h0⟩

/-! ## A small disk

Four blocks of two bytes in memory, with a transfer buffer of two blocks. -/

namespace SmallDisk

abbrev Disk : Type := { bytes : List UInt8 // bytes.length = 8 }

def put (address : ℕ) (data : List UInt8) (d : Disk) : EspErr × Disk :=
  if h : address + data.length ≤ 8 then
    (.ok, ⟨overwrite d.1 address data, (length_overwrite (h.trans_eq d.2.symm)).trans d.2⟩)
  else (.fail, d)

theorem put_ok {address : ℕ} {data : List UInt8} {d d' : Disk}
    (h : put address data d = (.ok, d')) : d'.1 = overwrite d.1 address data := by
  unfold put at h
  by_cases hin : address + data.length ≤ 8
  · rw [dif_pos hin] at h
    cases h
    rfl
  · rw [dif_neg hin] at h
    cases h

def target : Target Disk where
  sizeMax := 4294967295
  mallocCap8bit := 4
  semaphoreTake := fun d => (true, d)

def lower : Bdl.LowerDevice Disk where
  geometry := ⟨8, 1, 1⟩
  readOnly := false
  read := some fun address size d => ((.ok, slice d.1 address size), d)
  write := some put
  sync := none

def bdlConfig : Bdl.Config where
  physicalBlockSize := 2
  transferBufferBlocks := 2
  bufferCaps := 4
  bufferAlignment := 1
  readOnly := false
  syncAfterWrite := false
  lowerDeviceSupportsRewrite := true

def card : Sdmmc.Card Disk where
  sectorSize := 2
  capacity := 4
  readSectors := fun sector count d => ((.ok, slice d.1 (sector * 2) (count * 2)), d)
  writeSectors := fun sector count source d => put (sector * 2) (source.take (count * 2)) d

def sdmmcConfig : Sdmmc.Config where
  physicalBlockSize := 2
  bufferCaps := 4
  bufferAlignment := 1
  transferBufferBlocks := 2

def bdlAdapter : Bdl.Adapter Disk := Bdl.adapterOf target lower bdlConfig (by decide)

def sdmmcAdapter : Sdmmc.Adapter Disk := Sdmmc.adapterOf target card sdmmcConfig (by decide)

theorem bdl_laws : Bdl.Laws lower Subtype.val where
  length := fun d => d.2
  read := by
    intro read hread address size d bytes d' _ hcall
    rw [← Option.some.inj hread] at hcall
    cases hcall
    exact ⟨rfl, rfl⟩
  write := by
    intro write hwrite address data d d' _ hcall
    rw [← Option.some.inj hwrite] at hcall
    exact put_ok hcall
  sync := fun sync hsync => by cases hsync

theorem sdmmc_laws : Sdmmc.Laws card Subtype.val where
  length := fun d => d.2
  read := by
    intro sector count d bytes d' _ hcall
    cases hcall
    exact ⟨rfl, rfl⟩
  write := fun _ _ _ _ _ _ _ hcall => put_ok hcall

theorem bdl_created : Bdl.Created target Subtype.val lower bdlConfig true bdlAdapter :=
  ⟨Or.inl rfl, ⟨by decide, by decide, by decide⟩, bdl_laws, rfl⟩

theorem sdmmc_created : Sdmmc.Created target Subtype.val card sdmmcConfig true sdmmcAdapter :=
  ⟨Or.inl rfl, ⟨by decide, by decide, by decide⟩, sdmmc_laws, rfl⟩

def disk : Disk := ⟨[0, 1, 2, 3, 4, 5, 6, 7], rfl⟩

/-- Three blocks from the second one, in two calls, on both adapters. -/
theorem transfers_exact_disk :
    ((Bdl.port target Subtype.val bdlAdapter .caller).Exact
        (Bdl.St.init disk [0, 0, 0, 0] [0, 0, 0, 0, 0, 0]) 1 3 ∧
      (Bdl.port target Subtype.val bdlAdapter .caller).InRange 1 3 ∧
      (Bdl.port target Subtype.val bdlAdapter .caller).Takes .write 1 3) ∧
    (Sdmmc.port target Subtype.val sdmmcAdapter .caller).Exact
        ⟨disk, [0, 0, 0, 0], [0, 0, 0, 0, 0, 0], []⟩ 1 3 ∧
      (Sdmmc.port target Subtype.val sdmmcAdapter .caller).InRange 1 3 ∧
      (Sdmmc.port target Subtype.val sdmmcAdapter .caller).Takes .write 1 3 := by
  have h := transfers_exact target Subtype.val .caller 1 3 (by decide) (by decide)
  refine ⟨⟨h.1 _ _ _ _ _ bdl_created rfl, ?_, ?_⟩, h.2 _ _ _ _ _ sdmmc_created rfl, ?_, ?_⟩
  · show 1 + 3 ≤ 4
    decide
  · refine ⟨by decide, by decide, by decide, fun _ => ⟨rfl, rfl, rfl⟩⟩
  · show 1 + 3 ≤ 4
    decide
  · refine ⟨rfl, by decide, by decide, by decide, by decide, by decide⟩

end SmallDisk

end EspLwext4.Port
