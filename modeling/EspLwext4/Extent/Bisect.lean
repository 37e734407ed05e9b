import EspLwext4.Extent.Buffers
import EspLwext4.Lib.Bisect

/-!
# The two binary searches

`binsearch_extent` and `binsearch_idx` keep their bounds in `uint32_t`. Round by round neither
wraps, both probe the same entries and end in the same window; on sorted keys they find the
entry in front of the place `entry_insert_pos` scans for.
-/

namespace EspLwext4

open Prog Window

variable (inodeRef : InodeRef)

/-- The key of entry `i`, as the machine loads it. -/
def Disk.key32 (D : Disk) (p : Place) (i : ℕ) : UInt32 := UInt32.ofNat (D.key p i)

/-- The bounds before the first round, for `n` entries. -/
def searchBounds (n : ℕ) : Window := ⟨1, UInt32.ofNat n - 1⟩

/-- One round of the loop in `binsearch_extent`; `none` when it is left. -/
def extentRound (key : ℕ → UInt32) (lblock : UInt32) (w : Window) : Option Window :=
  if w.l ≤ w.r then
    if lblock < key w.mid.toNat then some { w with r := w.mid - 1 }
    else some { w with l := w.mid + 1 }
  else none

/-- One round of the loop in `binsearch_idx`. -/
def idxRound (key : ℕ → UInt32) (lblock : UInt32) (w : Window) : Option Window :=
  if w.l ≤ w.r then
    if lblock < key w.mid.toNat then
      if w.mid = 0 then none else some { w with r := w.mid - 1 }
    else some { w with l := w.mid + 1 }
  else none

/-- The loop `f` over `n` entries ends in the window `last`; every probe on the way is one of
the entries `1, …, n - 1`, and no bound wraps. -/
structure Bisects (f : Window → Option Window) (n : ℕ) (last : Window) : Prop where
  probes : ∀ w, Reaches f (searchBounds n) w → w.l ≤ w.r → w.Probes n
  ends : Reaches f (searchBounds n) last
  left : f last = none

/-- The keys of the first `n` entries increase. -/
def KeysIncrease (D : Disk) (p : Place) (n : ℕ) : Prop :=
  ∀ i, i + 1 < n → D.key p i < D.key p (i + 1)

section Lemmas

variable {inodeRef} {s : St} {data : Place} {lblock : UInt32} {n : ℕ} {w last : Window}
variable {key : ℕ → UInt32}

theorem halves_extentRound : Halves (extentRound key lblock) := by
  intro w w' h
  unfold extentRound at h
  split at h
  · rename_i hopen
    split at h
    · exact ⟨hopen, Or.inl (Option.some.inj h).symm⟩
    · exact ⟨hopen, Or.inr (Option.some.inj h).symm⟩
  · cases h

/-- The test for `m == 0` never fires. -/
theorem idxRound_eq (hn : n < 4294967296) (hw : w.Within n) :
    idxRound key lblock w = extentRound key lblock w := by
  unfold idxRound extentRound
  split
  · rename_i hopen
    have hpos := (hw.probes hn hopen).pos
    have hmid : w.mid ≠ 0 := by
      intro h0
      rw [h0] at hpos
      exact absurd hpos (by decide)
    rw [if_neg hmid]
  · rfl

theorem halves_idxRound : Halves (idxRound key lblock) := by
  intro w w' h
  unfold idxRound at h
  split at h
  · rename_i hopen
    split at h
    · split at h
      · cases h
      · exact ⟨hopen, Or.inl (Option.some.inj h).symm⟩
    · exact ⟨hopen, Or.inr (Option.some.inj h).symm⟩
  · cases h

theorem key32_lt_iff (D : Disk) (p : Place) (i : ℕ) :
    lblock < D.key32 p i ↔ lblock.toNat < D.key p i := by
  have hkey : (D.key32 p i).toNat = D.key p i := by
    unfold Disk.key32
    rw [UInt32.toNat_ofNat']
    exact Nat.mod_eq_of_lt (Bytes.readLe32_lt _ _)
  rw [UInt32.lt_iff_toNat_lt, hkey]

/-- The loop of the model goes through the rounds of the machine. -/
theorem binsearchExtentLoop_reaches (hfits : inodeRef.Fits data n) (hn : n < 4294967296) :
    ∀ (fuel : ℕ) (w : Window), w.Within n → w.size ≤ fuel →
      ∃ last, Reaches (extentRound (s.bytes.key32 data) lblock) w last ∧
        extentRound (s.bytes.key32 data) lblock last = none ∧
        binsearchExtentLoop inodeRef data lblock.toNat fuel w.l.toNat w.r.toNat s =
          .ok last.l.toNat s := by
  -- the loop is left
  have leave (fuel : ℕ) (w : Window) (hw : ¬ w.l ≤ w.r) :
      extentRound (s.bytes.key32 data) lblock w = none ∧
        binsearchExtentLoop inodeRef data lblock.toNat fuel w.l.toNat w.r.toNat s =
          .ok w.l.toNat s := by
    refine ⟨if_neg hw, ?_⟩
    have hnat : ¬ w.l.toNat ≤ w.r.toNat := fun h => hw (UInt32.le_iff_toNat_le.mpr h)
    cases fuel <;> exact congrFun (if_neg hnat) s
  intro fuel
  induction fuel with
  | zero =>
      intro w hw hsize
      have hclosed : ¬ w.l ≤ w.r := fun h => by
        have := UInt32.le_iff_toNat_le.mp h
        unfold Window.size at hsize
        omega
      exact ⟨w, .refl, leave 0 w hclosed⟩
  | succ fuel ih =>
      intro w hw hsize
      by_cases hopen : w.l ≤ w.r
      · obtain ⟨hmid, hpos, hlt, hbefore, hbehind⟩ := hw.probes hn hopen
        have hnat : w.l.toNat ≤ w.r.toNat := UInt32.le_iff_toNat_le.mp hopen
        have hload := loadExtent_eq (s := s) (hfits.mono (show w.mid.toNat + 1 ≤ n from hlt))
        have hmodel : binsearchExtentLoop inodeRef data lblock.toNat (fuel + 1) w.l.toNat w.r.toNat s =
            (if lblock.toNat < s.bytes.key data w.mid.toNat then
              binsearchExtentLoop inodeRef data lblock.toNat fuel w.l.toNat (w.mid.toNat - 1)
            else binsearchExtentLoop inodeRef data lblock.toNat fuel (w.mid.toNat + 1) w.r.toNat) s := by
          rw [binsearchExtentLoop, if_pos hnat, ← hmid]
          exact bind_of_ok hload
        rw [hmodel]
        by_cases hside : lblock.toNat < s.bytes.key data w.mid.toNat
        · obtain ⟨hwithin, hdrop⟩ := hw.before hn hopen
          obtain ⟨last, hreach, hlast, hloop⟩ := ih w.before hwithin (by omega)
          have hround : extentRound (s.bytes.key32 data) lblock w = some w.before := by
            unfold extentRound
            rw [if_pos hopen, if_pos ((key32_lt_iff _ _ _).mpr hside)]
            rfl
          refine ⟨last, .head hround hreach, hlast, ?_⟩
          rw [if_pos hside, ← hbefore]
          exact hloop
        · obtain ⟨hwithin, hdrop⟩ := hw.behind hn hopen
          obtain ⟨last, hreach, hlast, hloop⟩ := ih w.behind hwithin (by omega)
          have hround : extentRound (s.bytes.key32 data) lblock w = some w.behind := by
            unfold extentRound
            rw [if_pos hopen, if_neg fun h => hside ((key32_lt_iff _ _ _).mp h)]
            rfl
          refine ⟨last, .head hround hreach, hlast, ?_⟩
          rw [if_neg hside, ← hbehind]
          exact hloop
      · exact ⟨w, .refl, leave (fuel + 1) w hopen⟩

/-- The entries of a buffer number fewer than 2^16. -/
theorem InodeRef.Fits.lt (h : inodeRef.Fits data n) : n < 65536 := by
  have hsize := inodeRef.blockSize_le
  unfold InodeRef.Fits at h
  cases data with
  | root =>
      have h : 12 + n * 12 ≤ 60 := h
      omega
  | block b =>
      have h : 12 + n * 12 ≤ inodeRef.blockSize := h
      omega

/-- Both loops over the same entries end in the same window, and the functions return it. -/
theorem searches_bisect {header : Ext4ExtentHeader} (h0 : 1 ≤ header.entriesCount)
    (hfits : inodeRef.Fits data header.entriesCount) :
    ∃ last : Window, Bisects (extentRound (s.bytes.key32 data) lblock) header.entriesCount last ∧
      Bisects (idxRound (s.bytes.key32 data) lblock) header.entriesCount last ∧
      last.Within header.entriesCount ∧
      binsearchExtent inodeRef data header lblock.toNat s =
        .ok (s.bytes.extent data (last.l.toNat - 1), last.l.toNat - 1) s ∧
      binsearchIdx inodeRef data header lblock.toNat s = .ok (some (last.l.toNat - 1)) s := by
  have hn : header.entriesCount < 4294967296 := Nat.lt_trans hfits.lt (by decide)
  obtain ⟨hall, hr⟩ := within_all h0 hn
  have hsize : (searchBounds header.entriesCount).size ≤ header.entriesCount := by
    show (UInt32.ofNat header.entriesCount - 1).toNat + 1 - (1 : UInt32).toNat ≤ _
    rw [UInt32.toNat_one]
    have hr : (UInt32.ofNat header.entriesCount - 1).toNat = header.entriesCount - 1 := hr
    omega
  obtain ⟨last, hreach, hlast, hloop⟩ :=
    @binsearchExtentLoop_reaches inodeRef s data lblock _ hfits hn header.entriesCount _ hall hsize
  rw [hr] at hloop
  have hone : (1 : UInt32).toNat = 1 := UInt32.toNat_one
  rw [hone] at hloop
  have hwithin := halves_extentRound.within hn hall hreach
  have hidx := halves_extentRound.reaches_congr hn (fun w hw => idxRound_eq hn hw) hall hreach
  have hpos := hwithin.pos
  have hlt := hwithin.lt
  have hle := hwithin.le
  refine ⟨last, ⟨fun w hw hopen => ?_, hreach, hlast⟩, ⟨fun w hw hopen => ?_, hidx, ?_⟩, hwithin,
    ?_, ?_⟩
  · exact (halves_extentRound.within hn hall hw).probes hn hopen
  · exact (halves_idxRound.within hn hall hw).probes hn hopen
  · rw [idxRound_eq hn hwithin, hlast]
  · unfold binsearchExtent
    rw [if_neg (by omega), bind_of_ok hloop]
    exact bind_of_ok (loadExtent_eq (hfits.mono (by omega)))
  · unfold binsearchIdx
    rw [if_neg (by omega), binsearchIdxLoop_eq _ _ _ (Nat.le_refl 1), bind_of_ok hloop,
      if_neg (by omega)]
    rfl

theorem KeysIncrease.lt (h : KeysIncrease s.bytes data n) {i j : ℕ} (hij : i < j) (hj : j < n) :
    s.bytes.key data i < s.bytes.key data j := by
  induction hij with
  | refl => exact h i hj
  | step hlt ih => exact Nat.lt_trans (ih (by omega)) (h _ hj)

/-- On increasing keys a position is told by the keys beside it. -/
theorem KeysIncrease.position (h : KeysIncrease s.bytes data n) {pos ins k : ℕ}
    (hpos : Chosen s.bytes data n k pos) (hins : ins ≤ n) (hle : ∀ i < ins, s.bytes.key data i ≤ k)
    (hgt : ins = n ∨ k < s.bytes.key data ins) :
    pos = ins - 1 ∧ (s.bytes.key data 0 ≤ k → ins = pos + 1) := by
  have hlt := hpos.lt
  -- the scan does not stop at or before a key that is not larger
  have hbehind {i : ℕ} (hi : i < n) (hik : s.bytes.key data i ≤ k) : i < ins := by
    by_contra hni
    rcases hgt with rfl | hgt
    · exact hni hi
    · rcases Nat.lt_or_eq_of_le (Nat.not_lt.mp hni) with hlt | rfl
      · exact absurd (h.lt hlt hi) (by omega)
      · omega
  -- and does not get behind a larger one
  have hfront : ins ≤ pos + 1 := by
    rcases hpos.next with heq | hnext
    · omega
    · by_contra hni
      exact absurd (hle (pos + 1) (by omega)) (Nat.not_le.mpr hnext)
  rcases hpos.le with rfl | hkey
  · refine ⟨by omega, fun hk => ?_⟩
    have := hbehind hlt hk
    omega
  · have := hbehind hlt hkey
    exact ⟨by omega, fun _ => by omega⟩

end Lemmas

/-- What the searches for `lblock` among the entries that `header` counts at `data` do. -/
structure SearchesAgree (s : St) (data : Place) (header : Ext4ExtentHeader) (lblock : UInt32)
    (last : Window) : Prop where
  extentLoop : Bisects (extentRound (s.bytes.key32 data) lblock) header.entriesCount last
  idxLoop : Bisects (idxRound (s.bytes.key32 data) lblock) header.entriesCount last
  extent : binsearchExtent inodeRef data header lblock.toNat s =
    .ok (s.bytes.extent data (last.l.toNat - 1), last.l.toNat - 1) s
  idx : binsearchIdx inodeRef data header lblock.toNat s = .ok (some (last.l.toNat - 1)) s
  /-- On increasing keys the linear scan ends behind the entry found. -/
  scan : KeysIncrease s.bytes data header.entriesCount →
    ∃ ins, entryInsertPos inodeRef data header.entriesCount lblock.toNat s = .ok ins s ∧
      last.l.toNat - 1 = ins - 1
  /-- A separator larger than the first key goes right behind the entry found for it. -/
  insert : KeysIncrease s.bytes data header.entriesCount → s.bytes.key data 0 < lblock.toNat →
    ∀ path level node pblock, path.path[level]? = some node → Held inodeRef s node →
      node.place = data → node.header = header →
      let xs := s.bytes.indexes data header.entriesCount
      let inserted := xs.insertIdx (last.l.toNat - 1 + 1)
        (indexStorePblock ⟨lblock.toNat, 0, 0, 0⟩ pblock)
      wp (insertIndexEntry inodeRef path level lblock.toNat pblock)
        (fun _ s' => Edited inodeRef indexLayout s s' data inserted)
        (fun _ s' => s'.bytes = s.bytes ∨ Edited inodeRef indexLayout s s' data inserted) s

/-- **The two binary searches and the linear scan agree.** For every node with at least one
entry, every block and keys in any order: both searches end, with all probes among the entries
behind the first and without a wrap, and return the same position. On increasing keys it is
the one in front of where the scan ends, so a separator goes right behind the entry the search
selects for it. -/
theorem searches_agree (inodeRef : InodeRef) (s : St) (data : Place) (header : Ext4ExtentHeader)
    (lblock : UInt32) (h0 : 1 ≤ header.entriesCount)
    (hfits : inodeRef.Fits data header.entriesCount) :
    ∃ last, SearchesAgree inodeRef s data header lblock last := by
  obtain ⟨last, hextent, hidx, hwithin, hrunExtent, hrunIdx⟩ :=
    @searches_bisect inodeRef s data lblock header h0 hfits
  have hchosen : Chosen s.bytes data header.entriesCount lblock.toNat (last.l.toNat - 1) := by
    have hwp : wp (binsearchIdx inodeRef data header lblock.toNat) (fun r _ => ∀ pos, r = some pos →
        Chosen s.bytes data header.entriesCount lblock.toNat pos) (fun _ _ => True) s := by
      refine wp_binsearchIdx hfits (fun h => by omega) fun pos hpos => ?_
      rintro pos' h'
      obtain rfl := Option.some.inj h'
      exact hpos
    exact wp_ok hwp hrunIdx _ rfl
  have hscan : wp (entryInsertPos inodeRef data header.entriesCount lblock.toNat)
      (fun ins s' => s' = s ∧ ins ≤ header.entriesCount ∧
        (∀ i < ins, s.bytes.key data i ≤ lblock.toNat) ∧
        (ins = header.entriesCount ∨ lblock.toNat < s.bytes.key data ins)) (fun _ _ => False) s :=
    wp_entryInsertPosLoop_stop (fun ins hins hle hgt => ⟨rfl, hins, hle, hgt⟩) _ 0
      (Nat.zero_add _) hfits (by omega)
  obtain ⟨ins, s', hrunScan, rfl, hins, hle, hgt⟩ := wp_returns hscan
  refine ⟨last, hextent, hidx, hrunExtent, hrunIdx, fun hkeys => ⟨ins, hrunScan, ?_⟩, ?_⟩
  · exact (hkeys.position hchosen hins hle hgt).1
  · rintro hkeys hfirst path level node pblock hnode hheld rfl rfl
    have hpos : separatorPos (s'.bytes.indexes node.place node.header.entriesCount) lblock.toNat =
        last.l.toNat - 1 + 1 := by
      rw [← (hkeys.position hchosen hins hle hgt).2 (Nat.le_of_lt hfirst)]
      exact separatorPos_eq hins hle hgt
    dsimp only
    rw [← hpos]
    exact wp_insertIndexEntry_edited hheld pblock hnode lblock.toNat_lt

/-- The searches for block 7 among two separators. -/
theorem searches_agree_two :
    ∃ last, SearchesAgree (sampleVolume fullLwext4) ⟨backDisk, false, []⟩ .root
      ⟨ext4ExtentMagic, 2, 4, 1, 0⟩ 7 last :=
  searches_agree (sampleVolume fullLwext4) ⟨backDisk, false, []⟩ .root
    ⟨ext4ExtentMagic, 2, 4, 1, 0⟩ 7 (by decide) (InodeRef.fits_of_le _ (by decide))

end EspLwext4
