import EspLwext4.Port.Stores

/-!
# What survives a loss of power

Both adapters are stores of bytes. The block-device adapter keeps what it has acknowledged when
it syncs after every write, or else from the next successful sync on; the SDMMC adapter keeps
what the card keeps. The lower device may keep written data back and bring it to the medium in
any order, and a write that fails may leave anything in its range.
-/

namespace EspLwext4.Port

open Prog Runs
open Bdl (Target)

variable {δ : Type}

/-- The bytes of a device, and those it would have after a loss of power. -/
def view (content stable : δ → List UInt8) (d : δ) : Store ℕ UInt8 where
  now i := (content d).getD i 0
  kept i := (stable d).getD i 0

/-- Only the bytes of `K` may have been written. -/
def Untouched {σ : Type} (device : σ → δ) (view : δ → Store ℕ UInt8) (K : Set ℕ) (s s' : σ) :
    Prop :=
  (view (device s)).Outside K (view (device s'))

instance {σ : Type} (device : σ → δ) (view : δ → Store ℕ UInt8) (K : Set ℕ) :
    StepRel (Untouched device view K) where
  refl _ := .refl _ _
  trans h h' := Store.Outside.trans h h'

/-- A range of kept bytes. -/
theorem Sealed.kept_slice {σ κ : Type} {port : Buffer → BlockPort σ κ} {device : σ → δ}
    {bounceSize size : ℕ} {flush : σ → Bool → σ → Prop} {through : Bool}
    {content stable : δ → List UInt8}
    (h : Sealed port device bounceSize size flush through (view content stable))
    (hlen : ∀ buffer s s', ((port buffer).content s).length = (stable (device s')).length)
    {s s' : σ} {ls ls' : List Exchange} {block count : ℕ} {data : List UInt8}
    (hrun : Machine.Run (Serve port device bounceSize flush) s
      (ls ++ .write block count data true :: ls') s')
    (hflush : through = true ∨ .flush true ∈ ls') (hspare : ∀ x ∈ ls', x.Spares block count) :
    slice (stable (device s')) (block * size) (count * size) = data := by
  obtain ⟨hdata, hroom⟩ := h.write_shape hrun
  have hslice : (slice (stable (device s')) (block * size) (count * size)).length ≤
      count * size := length_slice_le
  apply List.ext_getElem?
  intro i
  by_cases hi : i < count * size
  · have h0 : 0 < count := by
      rcases Nat.eq_zero_or_pos count with rfl | h0
      · omega
      · exact h0
    obtain ⟨buffer, s₁, hin⟩ := hroom h0
    rw [hlen buffer s₁ s'] at hin
    have hsplit : (block + count) * size = block * size + count * size := Nat.add_mul _ _ _
    have hkept := h.kept_of_write hrun hflush hspare (i := block * size + i) ⟨by omega, by omega⟩
    have hbyte : (stable (device s')).getD (block * size + i) 0 =
        data.getD (block * size + i - block * size) 0 := hkept
    rw [Nat.add_sub_cancel_left, List.getD_eq_getElem?_getD, List.getD_eq_getElem?_getD,
      List.getElem?_eq_getElem (by omega), List.getElem?_eq_getElem (by omega)] at hbyte
    rw [getElem?_slice hi, List.getElem?_eq_getElem (by omega), List.getElem?_eq_getElem (by omega)]
    exact congrArg some hbyte
  · rw [List.getElem?_eq_none (by omega), List.getElem?_eq_none (by omega)]

/-! ## The block-device adapter -/

namespace Bdl

/-- What a lower device is documented to do to its medium: reads and syncs write nothing, a
write writes its range only, also when it fails, and a successful sync brings the medium up to
date. Taking the adapter's lock does nothing to the device. -/
structure Medium (t : Target δ) (lower : LowerDevice δ) (content stable : δ → List UInt8) :
    Prop where
  length : ∀ d, (stable d).length = lower.geometry.diskSize
  read : ∀ read, lower.read = some read → ∀ address size d,
    (view content stable d).Outside ∅ (view content stable (read address size d).2)
  write : ∀ write, lower.write = some write → ∀ address data d,
    address + data.length ≤ lower.geometry.diskSize →
    (view content stable d).Outside {i | address ≤ i ∧ i < address + data.length}
      (view content stable (write address data d).2)
  sync : ∀ sync, lower.sync = some sync → ∀ d,
    (view content stable d).Outside ∅ (view content stable (sync d).2) ∧
      ((sync d).1 = .ok → ∀ i,
        (view content stable (sync d).2).kept i = (view content stable (sync d).2).now i)
  take : ∀ d, (view content stable d).Outside ∅ (view content stable (t.semaphoreTake d).2)

/-- A flush: `lwext4_port_bdl_sync`, `lwext4_port_bdl_destroy` or the close function, done when
it succeeds on a lower device that has a sync. -/
def Flush (t : Target δ) (adapter : Adapter δ) (s : St δ) (done : Bool) (s' : St δ) : Prop :=
  (∃ error, (lwext4PortBdlSync t adapter s = .ok error s' ∨
      ∃ phRefctr, lwext4PortBdlDestroy t adapter phRefctr s = .ok error s') ∧
    (done = true → error = .ok ∧ adapter.lower.sync.isSome)) ∨
  (bdlClose adapter s = .ok () s' ∧ (done = true → adapter.lower.sync.isSome)) ∨
  ∃ e, bdlClose adapter s = .err e s' ∧ done = false

/-- A request to the adapter, with any buffer. -/
def Serves (t : Target δ) (content : δ → List UInt8) (adapter : Adapter δ) :
    St δ → Exchange → St δ → Prop :=
  Serve (port t content adapter) St.device adapter.transferBufferSize (Flush t adapter)

section Medium

variable {t : Target δ} {adapter : Adapter δ} {content stable : δ → List UInt8} {buffer : Buffer}
  {block count first n : ℕ} {s s' : St δ} {K : Set ℕ}

/-- The bytes the medium has are those the device answers with. -/
abbrev Settled (content stable : δ → List UInt8) (s : St δ) : Prop :=
  ∀ i, (view content stable s.device).kept i = (view content stable s.device).now i

theorem wp_syncLower_flushes (hm : Medium t adapter.lower content stable) :
    wp (syncLower adapter) (fun error s' => Untouched St.device (view content stable) ∅ s s' ∧
      (error = .ok → adapter.lower.sync.isSome → Settled content stable s'))
      (fun _ _ => False) s := by
  unfold syncLower lowerSync
  cases hs : adapter.lower.sync with
  | none => exact ⟨.refl _ _, fun _ h => by cases h⟩
  | some sync =>
    obtain ⟨hout, hflushed⟩ := hm.sync sync hs s.device
    exact ⟨hout, fun hok _ => hflushed hok⟩

theorem keeps_readCall (hm : Medium t adapter.lower content stable)
    {read : ℕ → ℕ → δ → (EspErr × List UInt8) × δ} (hread : adapter.lower.read = some read) :
    Keeps (Untouched St.device (view content stable) K) (readCall adapter read block n) s := by
  rcases hcall : read (block * adapter.phBsize) (n * adapter.phBsize) s.device with
    ⟨⟨error, bytes⟩, d⟩
  have hout := hm.read read hread (block * adapter.phBsize) (n * adapter.phBsize) s.device
  rw [hcall] at hout
  have hmono := hout.mono (Set.empty_subset K)
  unfold Keeps
  rw [wp_iff_of_eq (readCall_run hcall), wp_returnError]
  exact ⟨fun _ => hmono, fun _ _ => hmono⟩

theorem keeps_writeCall (hg : Geared t adapter) (hm : Medium t adapter.lower content stable)
    {write : ℕ → List UInt8 → δ → EspErr × δ} (hwrite : adapter.lower.write = some write)
    (hin : block + n ≤ adapter.phBcnt) (hK : bytesOf adapter.phBsize block n ⊆ K) :
    Keeps (Untouched St.device (view content stable) K) (writeCall adapter write block n) s := by
  rcases hcall : write (block * adapter.phBsize) (s.transferBuffer.take (n * adapter.phBsize))
    s.device with ⟨error, d⟩
  have hlen : (s.transferBuffer.take (n * adapter.phBsize)).length ≤ n * adapter.phBsize :=
    List.length_take_le _ _
  have hdisk := hg.inside hin
  have hout := hm.write write hwrite (block * adapter.phBsize)
    (s.transferBuffer.take (n * adapter.phBsize)) s.device (by omega)
  rw [hcall] at hout
  have hrange : {i | block * adapter.phBsize ≤ i ∧ i < block * adapter.phBsize +
      (s.transferBuffer.take (n * adapter.phBsize)).length} ⊆ K := by
    intro i hi
    apply hK
    refine ⟨hi.1, ?_⟩
    have hlast := hi.2
    rw [Nat.add_mul]
    omega
  have hmono := hout.mono hrange
  unfold Keeps
  rw [wp_iff_of_eq (writeCall_run hcall), wp_returnError]
  exact ⟨fun _ => hmono, fun _ _ => hmono⟩

/-- An empty request is turned away or does nothing. -/
theorem keeps_bdlRead (hg : Geared t adapter) (hm : Medium t adapter.lower content stable)
    (hword : count < 4294967296) :
    Keeps (Untouched St.device (view content stable) K) (bdlRead t adapter buffer block count)
      s := by
  rcases Nat.eq_zero_or_pos count with rfl | h0
  · unfold bdlRead
    cases adapter.lower.read with
    | none => exact Keeps.raise _
    | some read => exact Keeps.bind_failIf fun _ => Keeps.pure ()
  by_cases hcond : block + count ≤ adapter.phBcnt ∧
      (port t content adapter buffer).Takes .read block count
  · obtain ⟨hin, ht⟩ := hcond
    obtain ⟨read, hread⟩ := Option.isSome_iff_exists.mp hg.read
    have hfit := hg.wordsFit content buffer hin ht.2.2.1
    rw [bdlRead_eq hg hread h0 hword hin ht, ← Nat.zero_mul adapter.phBsize, ← Nat.sub_self block,
      readLoop_eq hg hfit.1 hfit.2.1 (Nat.le_refl block) (Nat.le_refl _)]
    exact Keeps.chunked (fun _ _ _ _ _ => keeps_readPiece (fun _ _ => .refl _ _)
      (keeps_readCall hm hread)) (Nat.le_refl block) (Nat.le_refl (block + count))
  · obtain ⟨e, herr⟩ := bdlRead_refuses (s := s) content hg h0 hword hcond
    unfold Keeps
    exact (wp_iff_of_err herr).mpr (Store.Outside.refl _ _)

/-- What `bdl_write` does to the device it does in its range, and when it returns with
`sync_after_write` set the medium is up to date. -/
theorem wp_bdlWrite_touches (hg : Geared t adapter) (hm : Medium t adapter.lower content stable)
    (hword : count < 4294967296) :
    wp (bdlWrite t adapter buffer block count)
      (fun _ s' => Untouched St.device (view content stable) (bytesOf adapter.phBsize block count)
        s s' ∧ (adapter.syncAfterWrite = true → 0 < count → Settled content stable s'))
      (fun _ s' => Untouched St.device (view content stable) (bytesOf adapter.phBsize block count)
        s s') s := by
  have same : Untouched St.device (view content stable) (bytesOf adapter.phBsize block count) s s :=
    Store.Outside.refl _ _
  rcases Nat.eq_zero_or_pos count with rfl | h0
  · unfold bdlWrite
    simp only [wp_bind, wp_failIf]
    refine ⟨fun _ => same, fun _ => ⟨fun _ => same, fun _ => ?_⟩⟩
    cases adapter.lower.write with
    | none => exact same
    | some write => exact ⟨same, fun _ h => absurd h (Nat.lt_irrefl 0)⟩
  by_cases hcond : block + count ≤ adapter.phBcnt ∧
      (port t content adapter buffer).Takes .write block count
  · obtain ⟨hin, ht⟩ := hcond
    obtain ⟨write, hwrite⟩ := Option.isSome_iff_exists.mp (ht.2.2.2 rfl).2.2
    have hfit := hg.wordsFit content buffer hin ht.2.2.1
    rw [bdlWrite_eq hg hwrite h0 hword hin ht, ← Nat.zero_mul adapter.phBsize, ← Nat.sub_self block,
      writeLoop_eq hg hfit.1 hfit.2.1 (Nat.le_refl block) (Nat.le_refl _), wp_bind]
    have hloop : Keeps (Untouched St.device (view content stable)
        (bytesOf adapter.phBsize block count)) (chunked adapter.transferBufferBlocks
          (writePiece St.buffers (writeCall adapter write) buffer adapter.phBsize block) count count
          block) s := by
      refine Keeps.chunked (fun unit n s₁ hfirst hlast => ?_) (Nat.le_refl block)
        (Nat.le_refl (block + count))
      refine keeps_writePiece (fun _ _ => .refl _ _) fun _ =>
        keeps_writeCall hg hm hwrite (hlast.trans hin) fun i hi => ⟨?_, ?_⟩
      · exact (Nat.mul_le_mul_right _ hfirst).trans hi.1
      · exact hi.2.trans_le (Nat.mul_le_mul_right _ hlast)
    refine wp_mono hloop (fun _ s₁ h₁ => ?_) fun _ _ h => h
    rw [wp_ite]
    refine ⟨fun hsync => ?_, fun hno => ⟨h₁, fun hsync => absurd hsync hno⟩⟩
    rw [wp_bind]
    refine wp_mono (wp_syncLower_flushes hm) (fun error s₂ h₂ => ?_) fun _ _ h => h.elim
    have hout := h₁.trans (h₂.1.mono (Set.empty_subset _))
    rw [wp_returnError]
    exact ⟨fun hok => ⟨hout, fun _ _ => h₂.2 hok (adapter.sync_of_syncAfterWrite hsync)⟩,
      fun _ _ => hout⟩
  · obtain ⟨e, herr⟩ := bdlWrite_refuses (s := s) content hg h0 hword hcond
    exact (wp_iff_of_err herr).mpr same

/-- A flush writes nothing, and brings the medium up to date when it is done. -/
theorem flush_flushes {done : Bool} (hm : Medium t adapter.lower content stable)
    (h : Flush t adapter s done s') :
    Untouched St.device (view content stable) ∅ s s' ∧
      (done = true → Settled content stable s') := by
  have hclose : wp (bdlClose adapter)
      (fun _ s' => Untouched St.device (view content stable) ∅ s s' ∧
        (adapter.lower.sync.isSome → Settled content stable s'))
      (fun _ s' => Untouched St.device (view content stable) ∅ s s') s := by
    unfold bdlClose
    rw [wp_bind]
    refine wp_mono (wp_syncLower_flushes hm) (fun error s₁ h₁ => ?_) fun _ _ h => h.elim
    rw [wp_returnError]
    exact ⟨fun hok => ⟨h₁.1, h₁.2 hok⟩, fun _ _ => h₁.1⟩
  rcases h with ⟨error, hrun, hdone⟩ | ⟨hrun, hdone⟩ | ⟨e, hrun, rfl⟩
  · have htake := hm.take s.device
    unfold lwext4PortBdlSync lwext4PortBdlDestroy at hrun
    rcases hsem : t.semaphoreTake s.device with ⟨taken, d⟩
    rw [hsem] at hrun htake
    -- both are the sync of the lower device once the lock is taken
    have hsynced : Untouched St.device (view content stable) ∅ s s' ∧
        (error = .ok → adapter.lower.sync.isSome → Settled content stable s') := by
      cases taken with
      | false =>
        rcases hrun with hrun | ⟨phRefctr, hrun⟩
        · cases hrun
          exact ⟨htake, fun h => by cases h⟩
        · cases hrun
          exact ⟨htake, fun h => by cases h⟩
      | true =>
        rcases hrun with hrun | ⟨phRefctr, hrun⟩
        · obtain ⟨hout, hsettled⟩ := wp_ok (wp_syncLower_flushes hm) hrun
          exact ⟨htake.trans hout, hsettled⟩
        · simp only [if_true] at hrun
          split_ifs at hrun
          · cases hrun
            exact ⟨htake, fun h => by cases h⟩
          · obtain ⟨hout, hsettled⟩ := wp_ok (wp_syncLower_flushes hm) hrun
            exact ⟨htake.trans hout, hsettled⟩
    exact ⟨hsynced.1, fun h => hsynced.2 (hdone h).1 (hdone h).2⟩
  · obtain ⟨hout, hsettled⟩ := wp_ok hclose hrun
    exact ⟨hout, fun h => hsettled (hdone h)⟩
  · have hout : Untouched St.device (view content stable) ∅ s s' :=
      wp_err (E := fun _ s' => Untouched St.device (view content stable) ∅ s s') hclose hrun
    exact ⟨hout, fun h => by cases h⟩

/-- **The block-device adapter is a store.** -/
theorem Created.sealed {lower : LowerDevice δ} {config : Config} {memory : Bool}
    (h : Created t content lower config memory adapter) (hm : Medium t lower content stable) :
    Sealed (port t content adapter) St.device adapter.transferBufferSize adapter.phBsize
      (Flush t adapter) adapter.syncAfterWrite (view content stable) := by
  obtain ⟨hlower, hg⟩ := h.geared
  subst hlower
  refine
    { blockSize := fun _ => rfl
      content := fun _ _ _ => rfl
      room := fun buffer s _ block count hin _ => ?_
      exact := fun buffer s block count h0 hword hlen => h.exact hlen h0 hword
      read := fun buffer s block count hword => keeps_bdlRead hg hm hword
      write := fun buffer s block count hword => ?_
      through := fun hthrough buffer s block count s' h0 hword hok => ?_
      flush := fun s done s' hflush => flush_flushes hm hflush }
  · show _ ≤ (content s.device).length
    rw [h.laws.length, ← hg.disk]
    exact Nat.mul_le_mul_right _ hin
  · exact wp_mono (wp_bdlWrite_touches hg hm hword) (fun _ _ h => h.1) fun _ _ h => h
  · exact (wp_ok (wp_bdlWrite_touches hg hm hword) hok).2 hthrough h0

end Medium

end Bdl

/-! ## The SDMMC adapter -/

namespace Sdmmc

/-- What a card does to its bytes: reads write nothing, a write writes its sectors only, also when
it fails, and the adapter's lock does nothing to the card. -/
structure Medium (t : Target δ) (give : δ → Bool × δ) (card : Card δ) (content : δ → List UInt8) :
    Prop where
  read : ∀ sector count d,
    (view content content d).Outside ∅ (view content content (card.readSectors sector count d).2)
  write : ∀ sector count source d, sector + count ≤ card.capacity.toNat →
    (view content content d).Outside (bytesOf card.sectorSize.toNat sector count)
      (view content content (card.writeSectors sector count source d).2)
  take : ∀ d, (view content content d).Outside ∅ (view content content (t.semaphoreTake d).2)
  give : ∀ d, (view content content d).Outside ∅ (view content content (give d).2)

/-- `lwext4_port_sdmmc_sync`, `lwext4_port_sdmmc_destroy` or the close function. -/
def Flush (t : Target δ) (give : δ → Bool × δ) (adapter : Adapter δ) (s : St δ) (_ : Bool)
    (s' : St δ) : Prop :=
  (∃ error, lwext4PortSdmmcSync t give s = .ok error s' ∨
    ∃ phRefctr, lwext4PortSdmmcDestroy t give phRefctr s = .ok error s') ∨
  sdmmcClose adapter s = .ok () s' ∨ ∃ e, sdmmcClose adapter s = .err e s'

/-- A request to the adapter, with any buffer. -/
def Serves (t : Target δ) (give : δ → Bool × δ) (content : δ → List UInt8) (adapter : Adapter δ) :
    St δ → Exchange → St δ → Prop :=
  Serve (port t content adapter) St.device adapter.transferBufferSize (Flush t give adapter)

section Medium

variable {t : Target δ} {give : δ → Bool × δ} {adapter : Adapter δ} {content : δ → List UInt8}
  {buffer : Buffer} {block count first n : ℕ} {s s' : St δ} {K : Set ℕ}

theorem keeps_readCall (hm : Medium t give adapter.card content) :
    Keeps (Untouched St.device (view content content) K) (readCall adapter block n) s := by
  rcases hcall : adapter.card.readSectors block n s.device with ⟨⟨error, bytes⟩, d⟩
  have hout := hm.read block n s.device
  rw [hcall] at hout
  have hmono := hout.mono (Set.empty_subset K)
  unfold Keeps
  rw [wp_iff_of_eq (readCall_run hcall), wp_returnError]
  exact ⟨fun _ => hmono, fun _ _ => hmono⟩

theorem keeps_writeCall (hg : Geared t adapter) (hm : Medium t give adapter.card content)
    (hv : validCard adapter.card = true) (hin : block + n ≤ adapter.phBcnt)
    (hK : bytesOf adapter.phBsize block n ⊆ K) :
    Keeps (Untouched St.device (view content content) K) (writeCall adapter block n) s := by
  rcases hcall : adapter.card.writeSectors block n s.transferBuffer s.device with ⟨error, d⟩
  have hout := hm.write block n s.transferBuffer s.device (hg.total ▸ hin)
  rw [hcall, ← (hg.sector hv).1] at hout
  have hmono := hout.mono hK
  unfold Keeps
  rw [wp_iff_of_eq (writeCall_run hcall), wp_returnError]
  exact ⟨fun _ => hmono, fun _ _ => hmono⟩

theorem keeps_sdmmcRead (hg : Geared t adapter) (hm : Medium t give adapter.card content) :
    Keeps (Untouched St.device (view content content) K) (sdmmcRead t adapter buffer block count)
      s := by
  rcases Nat.eq_zero_or_pos count with rfl | h0
  · exact Keeps.bind_failIf fun _ => Keeps.pure ()
  by_cases hcond : block + count ≤ adapter.phBcnt ∧
      (port t content adapter buffer).Takes .read block count
  · obtain ⟨hin, ht⟩ := hcond
    have hfit := hg.wordsFit ht
    rw [sdmmcRead_eq hg h0 hin ht, ← Nat.zero_mul adapter.phBsize, ← Nat.sub_self block,
      readLoop_eq hg hfit.1 hfit.2.1 (Nat.le_refl block) (Nat.le_refl _)]
    exact Keeps.chunked (fun _ _ _ _ _ => keeps_readPiece (fun _ _ => .refl _ _)
      (keeps_readCall hm)) (Nat.le_refl block) (Nat.le_refl (block + count))
  · obtain ⟨e, herr⟩ := sdmmcRead_refuses (s := s) content hg h0 hcond
    unfold Keeps
    exact (wp_iff_of_err herr).mpr (Store.Outside.refl _ _)

theorem keeps_sdmmcWrite (hg : Geared t adapter) (hm : Medium t give adapter.card content) :
    Keeps (Untouched St.device (view content content) (bytesOf adapter.phBsize block count))
      (sdmmcWrite t adapter buffer block count) s := by
  rcases Nat.eq_zero_or_pos count with rfl | h0
  · exact Keeps.bind_failIf fun _ => Keeps.pure ()
  by_cases hcond : block + count ≤ adapter.phBcnt ∧
      (port t content adapter buffer).Takes .write block count
  · obtain ⟨hin, ht⟩ := hcond
    have hfit := hg.wordsFit ht
    rw [sdmmcWrite_eq hg h0 hin ht, ← Nat.zero_mul adapter.phBsize, ← Nat.sub_self block,
      writeLoop_eq hg hfit.1 hfit.2.1 (Nat.le_refl block) (Nat.le_refl _)]
    refine Keeps.chunked (fun unit n s₁ hfirst hlast => ?_) (Nat.le_refl block)
      (Nat.le_refl (block + count))
    refine keeps_writePiece (fun _ _ => .refl _ _) fun _ =>
      keeps_writeCall hg hm ht.1 (hlast.trans hin) fun i hi => ⟨?_, ?_⟩
    · exact (Nat.mul_le_mul_right _ hfirst).trans hi.1
    · exact hi.2.trans_le (Nat.mul_le_mul_right _ hlast)
  · obtain ⟨e, herr⟩ := sdmmcWrite_refuses (s := s) content hg h0 hcond
    unfold Keeps
    exact (wp_iff_of_err herr).mpr (Store.Outside.refl _ _)

theorem flush_untouched {done : Bool} (hm : Medium t give adapter.card content)
    (h : Flush t give adapter s done s') : Untouched St.device (view content content) ∅ s s' := by
  have same : Untouched St.device (view content content) ∅ s s := Store.Outside.refl _ _
  have hclose : Keeps (Untouched St.device (view content content) ∅) (sdmmcClose adapter) s :=
    Keeps.failIf _ _
  rcases h with ⟨error, hrun⟩ | hok | ⟨e, herr⟩
  · have htake := hm.take s.device
    unfold lwext4PortSdmmcSync lwext4PortSdmmcDestroy at hrun
    rcases hsem : t.semaphoreTake s.device with ⟨taken, d⟩
    rw [hsem] at hrun htake
    have hgive := htake.trans (hm.give d)
    cases taken with
    | false =>
      rcases hrun with hrun | ⟨phRefctr, hrun⟩
      · cases hrun
        exact htake
      · cases hrun
        exact htake
    | true =>
      rcases hrun with hrun | ⟨phRefctr, hrun⟩
      · cases hrun
        exact hgive
      · cases hrun
        exact hgive
  · exact hclose.ok hok
  · exact hclose.err herr

/-- **The SDMMC adapter is a store.** -/
theorem Created.sealed {card : Card δ} {config : Config} {memory : Bool}
    (h : Created t content card config memory adapter) (hm : Medium t give card content) :
    Sealed (port t content adapter) St.device adapter.transferBufferSize adapter.phBsize
      (Flush t give adapter) true (view content content) := by
  obtain ⟨hcard, hg⟩ := h.geared
  subst hcard
  refine
    { blockSize := fun _ => rfl
      content := fun _ _ _ => rfl
      room := fun buffer s _ block count hin ht => ?_
      exact := fun buffer s block count h0 _ hlen => h.exact hlen h0
      read := fun buffer s block count _ => keeps_sdmmcRead hg hm
      write := fun buffer s block count _ => keeps_sdmmcWrite hg hm
      through := fun _ _ _ _ _ _ _ _ _ _ => rfl
      flush := fun s done s' hflush => ⟨flush_untouched hm hflush, fun _ _ => rfl⟩ }
  show _ ≤ (content s.device).length
  rw [hg.length_content h.laws ht.1]
  exact Nat.mul_le_mul_right _ hin

end Medium

end Sdmmc

/-! ## The results -/

/-- **Acknowledged writes survive.** In every run of requests to a block-device adapter as
created, whatever fails in it and whatever the caller does with its buffers: the bytes of a write
that was acknowledged are on the medium when the adapter syncs after writes, or once a later
sync, close or destroy has succeeded, until a request writes one of its blocks again. -/
theorem acknowledged_writes_survive (t : Target δ) (content stable : δ → List UInt8)
    (lower : Bdl.LowerDevice δ) (config : Bdl.Config) (memory : Bool) (adapter : Bdl.Adapter δ)
    (hcreated : Bdl.Created t content lower config memory adapter)
    (hmedium : Bdl.Medium t lower content stable) (s s' : Bdl.St δ) (ls ls' : List Exchange)
    (block count : ℕ) (data : List UInt8)
    (hrun : Machine.Run (Bdl.Serves t content adapter) s
      (ls ++ .write block count data true :: ls') s')
    (hflush : adapter.syncAfterWrite = true ∨ .flush true ∈ ls')
    (hspare : ∀ x ∈ ls', x.Spares block count) :
    slice (stable s'.device) (block * adapter.phBsize) (count * adapter.phBsize) = data := by
  have hlen (buffer : Buffer) (s s' : Bdl.St δ) :
      ((Bdl.port t content adapter buffer).content s).length = (stable s'.device).length := by
    rw [hmedium.length]
    exact hcreated.laws.length s.device
  exact (hcreated.sealed hmedium).kept_slice hlen hrun hflush hspare

/-- **Reads return what was written.** In every run of requests to either adapter as created,
whatever fails in it: a read that succeeds returns the bytes of the last acknowledged write of
its blocks, unless a request in between wrote one of them, also one that failed. -/
theorem reads_return_last_write (t : Target δ) (content stable : δ → List UInt8)
    (ls ls' : List Exchange) (block count block' count' : ℕ) (data bytes : List UInt8)
    (hblock : block ≤ block')
    (hcount : block' + count' ≤ block + count) (hspare : ∀ x ∈ ls', x.Spares block' count') :
    (∀ lower config memory adapter (s s' : Bdl.St δ),
      Bdl.Created t content lower config memory adapter → Bdl.Medium t lower content stable →
      Machine.Run (Bdl.Serves t content adapter) s
        (ls ++ .write block count data true :: (ls' ++ [.read block' count' (some bytes)])) s' →
      bytes = slice data ((block' - block) * adapter.phBsize) (count' * adapter.phBsize)) ∧
    ∀ give card config memory adapter (s s' : Sdmmc.St δ),
      Sdmmc.Created t content card config memory adapter → Sdmmc.Medium t give card content →
      Machine.Run (Sdmmc.Serves t give content adapter) s
        (ls ++ .write block count data true :: (ls' ++ [.read block' count' (some bytes)])) s' →
      bytes = slice data ((block' - block) * adapter.phBsize) (count' * adapter.phBsize) := by
  constructor
  · intro lower config memory adapter s s' hcreated hmedium hrun
    exact (hcreated.sealed hmedium).read_back hrun hblock hcount hspare
  · intro give card config memory adapter s s' hcreated hmedium hrun
    exact (hcreated.sealed hmedium).read_back hrun hblock hcount hspare

/-! ## A disk that writes back

The small disk with a copy of what has reached the medium; the adapter syncs after writes. -/

namespace SmallDisk

/-- What the disk answers with, and what the medium has. -/
abbrev Cached : Type := Disk × Disk

def cachedTarget : Target Cached where
  sizeMax := 4294967295
  mallocCap8bit := 4
  semaphoreTake := fun d => (true, d)

def cachedLower : Bdl.LowerDevice Cached where
  geometry := ⟨8, 1, 1⟩
  readOnly := false
  read := some fun address size d => ((.ok, slice d.1.1 address size), d)
  write := some fun address data d => ((put address data d.1).1, ((put address data d.1).2, d.2))
  sync := some fun d => (.ok, (d.1, d.1))

def cachedConfig : Bdl.Config := { bdlConfig with syncAfterWrite := true }

def cachedAdapter : Bdl.Adapter Cached :=
  Bdl.adapterOf cachedTarget cachedLower cachedConfig (by decide)

theorem cached_created : Bdl.Created cachedTarget (fun d => d.1.1) cachedLower cachedConfig true
    cachedAdapter := by
  refine ⟨.inl rfl, ⟨by decide, by decide, by decide⟩, ⟨fun d => d.1.2, ?_, ?_, ?_⟩, rfl⟩
  · rintro read ⟨⟩ address size d bytes d' - hcall
    cases hcall
    exact ⟨rfl, rfl⟩
  · rintro write ⟨⟩ address data d d' - hcall
    obtain ⟨herror, rfl⟩ := Prod.mk.inj hcall
    have hput : put address data d.1 = (.ok, (put address data d.1).2) := Prod.ext herror rfl
    exact put_ok hput
  · rintro sync ⟨⟩ d
    rfl

/-- A write changes its range only. -/
theorem put_outside {address : ℕ} {data : List UInt8} {d : Disk} {i : ℕ}
    (hi : ¬ (address ≤ i ∧ i < address + data.length)) :
    (put address data d).2.1.getD i 0 = d.1.getD i 0 := by
  unfold put
  by_cases hin : address + data.length ≤ 8
  · rw [dif_pos hin]
    show (overwrite d.1 address data).getD i 0 = _
    rw [List.getD_eq_getElem?_getD, List.getD_eq_getElem?_getD,
      getElem?_overwrite_of_outside (hin.trans_eq d.2.symm) (by omega)]
  · rw [dif_neg hin]

theorem cached_medium :
    Bdl.Medium cachedTarget cachedLower (fun d => d.1.1) (fun d => d.2.1) := by
  refine ⟨fun d => d.2.2, ?_, ?_, ?_, fun d => .refl _ _⟩
  · rintro read ⟨⟩ address size d
    exact .refl _ _
  · rintro write ⟨⟩ address data d - i hi
    exact ⟨put_outside hi, .inl rfl⟩
  · rintro sync ⟨⟩ d
    exact ⟨fun i _ => ⟨rfl, .inr rfl⟩, fun _ _ => rfl⟩

theorem sdmmc_medium : Sdmmc.Medium target (fun d => (true, d)) card Subtype.val := by
  refine ⟨fun _ _ _ => .refl _ _, fun sector count source d hin i hi => ?_, fun _ => .refl _ _,
    fun _ => .refl _ _⟩
  have hput : (put (sector * 2) (source.take (count * 2)) d).2.1.getD i 0 = d.1.getD i 0 := by
    apply put_outside
    have hlen : (source.take (count * 2)).length ≤ count * 2 := List.length_take_le _ _
    intro hin'
    refine hi ⟨hin'.1, ?_⟩
    show i < (sector + count) * 2
    omega
  exact ⟨hput, .inl hput⟩

/-- The state in which a request finds its data. -/
def cachedSt (d : Cached) (buffer : List UInt8) : Bdl.St Cached :=
  Bdl.St.init d [0, 0, 0, 0] buffer

/-- What the disk holds after a write of three blocks, and after another one of the first. -/
def disk₁ : Disk := ⟨[0, 1, 9, 8, 7, 6, 5, 4], rfl⟩

def disk₂ : Disk := ⟨[3, 2, 9, 8, 7, 6, 5, 4], rfl⟩

/-- Two writes, the second one beside the first. -/
theorem cached_writes : ∃ s', Machine.Run
    (Bdl.Serves cachedTarget (fun d => d.1.1) cachedAdapter) (cachedSt (disk, disk) [])
    ([] ++ .write 1 3 [9, 8, 7, 6, 5, 4] true :: [.write 0 1 [3, 2] true]) s' ∧
    s'.device = (disk₂, disk₂) := by
  obtain ⟨s₁, h₁, hd₁⟩ : ∃ s₁, Bdl.Serves cachedTarget (fun d => d.1.1) cachedAdapter
      (cachedSt (disk, disk) []) (.write 1 3 [9, 8, 7, 6, 5, 4] true) s₁ ∧
      s₁.device = (disk₁, disk₁) :=
    ⟨_, ⟨by decide, .caller, cachedSt (disk, disk) [9, 8, 7, 6, 5, 4], ⟨rfl, rfl, by decide⟩, rfl,
      .inl ⟨rfl, rfl⟩⟩, rfl⟩
  obtain ⟨s₂, h₂, hd₂⟩ : ∃ s₂, Bdl.Serves cachedTarget (fun d => d.1.1) cachedAdapter s₁
      (.write 0 1 [3, 2] true) s₂ ∧ s₂.device = (disk₂, disk₂) :=
    ⟨_, ⟨by decide, .caller, cachedSt (disk₁, disk₁) [3, 2], ⟨hd₁.symm, rfl, by decide⟩, rfl,
      .inl ⟨rfl, rfl⟩⟩, rfl⟩
  exact ⟨s₂, .next (.single h₁) h₂, hd₂⟩

theorem acknowledged_writes_survive_cached : ∃ s', Machine.Run
    (Bdl.Serves cachedTarget (fun d => d.1.1) cachedAdapter) (cachedSt (disk, disk) [])
    ([] ++ .write 1 3 [9, 8, 7, 6, 5, 4] true :: [.write 0 1 [3, 2] true]) s' ∧
    slice s'.device.2.1 2 6 = [9, 8, 7, 6, 5, 4] := by
  obtain ⟨s', hrun, -⟩ := cached_writes
  refine ⟨s', hrun, ?_⟩
  refine acknowledged_writes_survive _ _ (fun d => d.2.1) _ _ _ _ cached_created cached_medium _ s'
    [] _ 1 3 _ hrun (.inl rfl) fun x hx => ?_
  rw [List.mem_singleton.mp hx]
  exact .inl (by decide)

/-- The same two writes, with a read of a block of the first one. -/
theorem cached_read : ∃ s', Machine.Run
    (Bdl.Serves cachedTarget (fun d => d.1.1) cachedAdapter) (cachedSt (disk, disk) [])
    ([] ++ .write 1 3 [9, 8, 7, 6, 5, 4] true ::
      ([.write 0 1 [3, 2] true] ++ [.read 2 1 (some [7, 6])])) s' := by
  obtain ⟨s₂, hrun, hd₂⟩ := cached_writes
  obtain ⟨s₃, h₃⟩ : ∃ s₃, Bdl.Serves cachedTarget (fun d => d.1.1) cachedAdapter s₂
      (.read 2 1 (some [7, 6])) s₃ :=
    ⟨_, by decide, .caller, cachedSt (disk₂, disk₂) [0, 0], ⟨hd₂.symm, rfl, by decide⟩,
      .inl ⟨rfl, rfl⟩⟩
  exact ⟨s₃, .next hrun h₃⟩

theorem sdmmc_read : ∃ s', Machine.Run
    (Sdmmc.Serves target (fun d => (true, d)) Subtype.val sdmmcAdapter) ⟨disk, [0, 0, 0, 0], [], []⟩
    ([] ++ .write 1 3 [9, 8, 7, 6, 5, 4] true ::
      ([.write 0 1 [3, 2] true] ++ [.read 2 1 (some [7, 6])])) s' := by
  obtain ⟨s₁, h₁, hd₁⟩ : ∃ s₁, Sdmmc.Serves target (fun d => (true, d)) Subtype.val sdmmcAdapter
      ⟨disk, [0, 0, 0, 0], [], []⟩ (.write 1 3 [9, 8, 7, 6, 5, 4] true) s₁ ∧ s₁.device = disk₁ :=
    ⟨_, ⟨by decide, .caller, ⟨disk, [0, 0, 0, 0], [9, 8, 7, 6, 5, 4], []⟩, ⟨rfl, rfl, by decide⟩,
      rfl, .inl ⟨rfl, rfl⟩⟩, rfl⟩
  obtain ⟨s₂, h₂, hd₂⟩ : ∃ s₂, Sdmmc.Serves target (fun d => (true, d)) Subtype.val sdmmcAdapter
      s₁ (.write 0 1 [3, 2] true) s₂ ∧ s₂.device = disk₂ :=
    ⟨_, ⟨by decide, .caller, ⟨disk₁, [0, 0, 0, 0], [3, 2], []⟩, ⟨hd₁.symm, rfl, by decide⟩, rfl,
      .inl ⟨rfl, rfl⟩⟩, rfl⟩
  obtain ⟨s₃, h₃⟩ : ∃ s₃, Sdmmc.Serves target (fun d => (true, d)) Subtype.val sdmmcAdapter s₂
      (.read 2 1 (some [7, 6])) s₃ :=
    ⟨_, by decide, .caller, ⟨disk₂, [0, 0, 0, 0], [0, 0], []⟩, ⟨hd₂.symm, rfl, by decide⟩,
      .inl ⟨rfl, rfl⟩⟩
  exact ⟨s₃, .next (.next (.single h₁) h₂) h₃⟩

theorem reads_return_last_write_small : ∃ s' s'',
    Machine.Run (Bdl.Serves cachedTarget (fun d => d.1.1) cachedAdapter) (cachedSt (disk, disk) [])
      ([] ++ .write 1 3 [9, 8, 7, 6, 5, 4] true ::
        ([.write 0 1 [3, 2] true] ++ [.read 2 1 (some [7, 6])])) s' ∧
    Machine.Run (Sdmmc.Serves target (fun d => (true, d)) Subtype.val sdmmcAdapter)
      ⟨disk, [0, 0, 0, 0], [], []⟩
      ([] ++ .write 1 3 [9, 8, 7, 6, 5, 4] true ::
        ([.write 0 1 [3, 2] true] ++ [.read 2 1 (some [7, 6])])) s'' ∧
    [7, 6] = slice [9, 8, 7, 6, 5, (4 : UInt8)] ((2 - 1) * 2) (1 * 2) := by
  obtain ⟨s', hrun⟩ := cached_read
  obtain ⟨s'', hrun'⟩ := sdmmc_read
  have hspare : ∀ x ∈ [Exchange.write 0 1 [3, 2] true], x.Spares 2 1 := fun x hx => by
    rw [List.mem_singleton.mp hx]
    exact .inl (by decide)
  refine ⟨s', s'', hrun, hrun', ?_⟩
  exact (reads_return_last_write target _ Subtype.val [] _ 1 3 2 1 _ _ (by decide) (by decide)
    hspare).2 _ _ _ _ _ _ s'' sdmmc_created sdmmc_medium hrun'

end SmallDisk

end EspLwext4.Port
