import EspLwext4.Extent.Node

/-!
# Extents as runs of blocks

Lengths and the unwritten flag under the functions that shorten, move and merge
extents, and what `remove_leaf` cuts out of the entry it stands on. `remove_space`
hands `remove_leaf` ranges that end inside one extent, so its loop cuts that one
entry and stops at the next.
-/

namespace EspLwext4

open Prog

/-! ## Lengths and flags -/

namespace Ext4Extent

variable {e : Ext4Extent} {n : ℕ}

/-- The first `n` blocks' worth of `e`: its length becomes `n` and its state stays. -/
def withLen (e : Ext4Extent) (n : ℕ) : Ext4Extent :=
  if extentIsUnwritten e then extentMarkUnwritten (extentSetActualLen e n)
  else extentSetActualLen e n

theorem unwritten_iff : extentIsUnwritten e = true ↔ 32768 < e.blockCount := by
  unfold extentIsUnwritten extInitMaxLen
  exact decide_eq_true_iff

theorem len_eq_of_unwritten (h : 32768 < e.blockCount) :
    extentGetActualLen e = u16 (e.blockCount - 32768) := if_pos (unwritten_iff.mpr h)

theorem len_eq_of_written (h : e.blockCount ≤ 32768) : extentGetActualLen e = e.blockCount :=
  if_neg fun hc => Nat.not_lt.mpr h (unwritten_iff.mp hc)

theorem len_le (h : e.Fits) : extentGetActualLen e ≤ 32768 := by
  have := h.blockCount
  rcases Nat.lt_or_ge 32768 e.blockCount with hc | hc
  · rw [len_eq_of_unwritten hc, u16]
    omega
  · rw [len_eq_of_written hc]
    exact hc

/-- An unwritten length leaves room for the flag. -/
theorem len_lt_of_unwritten (h : e.Fits) (hu : extentIsUnwritten e = true) :
    extentGetActualLen e < 32768 := by
  have := h.blockCount
  have hc := unwritten_iff.mp hu
  rw [len_eq_of_unwritten hc, u16]
  omega

theorem mark_eq (h : n < 32768) : n ||| extInitMaxLen = 32768 + n := by
  have := Nat.two_pow_add_eq_or_of_lt (i := 15) h 1
  rw [Nat.or_comm]
  exact this.symm

@[simp] theorem withLen_firstBlock (e : Ext4Extent) (n : ℕ) :
    (e.withLen n).firstBlock = e.firstBlock := by unfold withLen; split <;> rfl

@[simp] theorem withLen_pblock (e : Ext4Extent) (n : ℕ) :
    extentGetPblock (e.withLen n) = extentGetPblock e := by unfold withLen; split <;> rfl

theorem withLen_blockCount (hu : extentIsUnwritten e = true → n < 32768) :
    (extentIsUnwritten e = true ∧ n < 32768 ∧ (e.withLen n).blockCount = 32768 + n) ∨
      (extentIsUnwritten e = false ∧ (e.withLen n).blockCount = n) := by
  unfold withLen
  cases hc : extentIsUnwritten e with
  | true => exact Or.inl ⟨rfl, hu hc, by rw [if_pos rfl]; exact mark_eq (hu hc)⟩
  | false => exact Or.inr ⟨rfl, by simp [extentSetActualLen]⟩

theorem len_withLen (h0 : 0 < n) (hn : n ≤ 32768)
    (hu : extentIsUnwritten e = true → n < 32768) : extentGetActualLen (e.withLen n) = n := by
  rcases withLen_blockCount hu with ⟨-, hlt, h⟩ | ⟨-, h⟩
  · rw [len_eq_of_unwritten (by omega), h, u16]
    omega
  · rw [len_eq_of_written (by omega), h]

theorem unwritten_withLen (h0 : 0 < n) (hn : n ≤ 32768)
    (hu : extentIsUnwritten e = true → n < 32768) :
    extentIsUnwritten (e.withLen n) = extentIsUnwritten e := by
  rcases withLen_blockCount hu with ⟨hc, -, h⟩ | ⟨hc, h⟩
  · rw [hc, unwritten_iff, h]
    omega
  · rw [hc, Bool.eq_false_iff, Ne, unwritten_iff, h]
    omega

theorem withLen_fits (h : e.Fits) (hn : n ≤ 32768)
    (hu : extentIsUnwritten e = true → n < 32768) : (e.withLen n).Fits := by
  refine ⟨by rw [withLen_firstBlock]; exact h.firstBlock, ?_, ?_, ?_⟩
  · unfold withLen
    split
    · rename_i hc
      show n ||| extInitMaxLen < 65536
      rw [mark_eq (hu hc)]
      have := hu hc
      omega
    · show n < 65536
      omega
  · unfold withLen; split <;> exact h.startHi
  · unfold withLen; split <;> exact h.startLo

end Ext4Extent

/-- A block number below 2^48 is stored and read back unchanged. -/
theorem extentGetPblock_store {e : Ext4Extent} {b : ℕ} (h : b < pblockLimit) :
    extentGetPblock (extentStorePblock e b) = b := by
  unfold pblockLimit at h
  unfold extentGetPblock extentStorePblock u32 u16
  dsimp only
  omega

theorem indexGetPblock_store {x : Ext4ExtentIndex} {b : ℕ} (h : b < pblockLimit) :
    indexGetPblock (indexStorePblock x b) = b := by
  unfold pblockLimit at h
  unfold indexGetPblock indexStorePblock u32 u16
  dsimp only
  omega

/-- Storing the block number an extent has changes nothing. -/
theorem extentStorePblock_self {e : Ext4Extent} (h : e.Fits) :
    extentStorePblock e (extentGetPblock e) = e := by
  have h₁ := h.startHi
  have h₂ := h.startLo
  unfold extentStorePblock extentGetPblock u32 u16
  cases e
  dsimp only at h₁ h₂ ⊢
  congr 1 <;> omega

theorem Ext4Extent.Fits.pblock_lt {e : Ext4Extent} (h : e.Fits) :
    extentGetPblock e < pblockLimit := by
  have h₁ := h.startHi
  have h₂ := h.startLo
  unfold extentGetPblock pblockLimit
  omega

/-! ## What a trim cuts -/

/-- The range `[first, last]` ends inside `e`, reaches it and, if it starts inside,
ends with it: what `remove_space` asks of `remove_leaf`. -/
structure Trims (e : Ext4Extent) (first last : ℕ) : Prop where
  fits : e.Fits
  pos : 0 < extentGetActualLen e
  range : e.firstBlock + extentGetActualLen e ≤ 4294967296
  reach : first < e.firstBlock + extentGetActualLen e
  lower : e.firstBlock ≤ last
  upper : last < e.firstBlock + extentGetActualLen e
  suffix : e.firstBlock < first → last + 1 = e.firstBlock + extentGetActualLen e

/-- What is left of `e` once `[first, last]` is gone. -/
def Ext4Extent.trimmed (e : Ext4Extent) (first last : ℕ) : Option Ext4Extent :=
  if e.firstBlock < first then some (e.withLen (first - e.firstBlock))
  else if last + 1 < e.firstBlock + extentGetActualLen e then
    some (Ext4Extent.withLen
      (extentStorePblock { e with firstBlock := last + 1 }
        (extentGetPblock e + (last + 1 - e.firstBlock)))
      (e.firstBlock + extentGetActualLen e - (last + 1)))
  else none

theorem trimExtent_eq {e : Ext4Extent} {first last : ℕ} (h : Trims e first last) :
    trimExtent e first last =
      ((max e.firstBlock first, last), e.trimmed first last) := by
  have hlen := e.len_le h.fits
  have hb := h.fits.firstBlock
  obtain ⟨hf, h₁, h₂, h₃, h₄, h₅, h₆⟩ := h
  unfold trimExtent Ext4Extent.trimmed
  dsimp only
  by_cases hc : e.firstBlock < first
  · have := h₆ hc
    have e₁ : sub32 first e.firstBlock = first - e.firstBlock := sub32_of_le (by omega) (by omega)
    have e₂ : u16 (first - e.firstBlock) = first - e.firstBlock := u16_of_lt (by omega)
    have e₃ : sub32 (extentGetActualLen e) (first - e.firstBlock) =
        extentGetActualLen e - (first - e.firstBlock) := sub32_of_le (by omega) (by omega)
    have e₄ : u16 (extentGetActualLen e - (first - e.firstBlock)) =
        extentGetActualLen e - (first - e.firstBlock) := u16_of_lt (by omega)
    have e₅ : sub32 (u32 (first + (extentGetActualLen e - (first - e.firstBlock)))) 1 = last := by
      rw [sub32_u32_one (by omega) (by omega)]; omega
    have e₆ : extentStorePblock { e with firstBlock := e.firstBlock } (extentGetPblock e) = e :=
      extentStorePblock_self hf
    rw [if_pos hc, if_pos hc, e₁, e₂, e₃, e₄, e₅, Nat.max_eq_right (by omega),
      if_neg (by omega), e₆]
    rfl
  · have e₀ : sub32 (u32 (e.firstBlock + extentGetActualLen e)) 1 =
        e.firstBlock + extentGetActualLen e - 1 := sub32_u32_one (by omega) h₂
    simp only [if_neg hc, e₀]
    rw [Nat.max_eq_left (by omega)]
    by_cases hl : last < e.firstBlock + extentGetActualLen e - 1
    · have e₁ : sub32 (e.firstBlock + extentGetActualLen e - 1) last =
          e.firstBlock + extentGetActualLen e - 1 - last := sub32_of_le (by omega) (by omega)
      have e₂ : u16 (e.firstBlock + extentGetActualLen e - 1 - last) =
          e.firstBlock + extentGetActualLen e - 1 - last := u16_of_lt (by omega)
      have e₃ : sub32 (extentGetActualLen e) (e.firstBlock + extentGetActualLen e - 1 - last) =
          extentGetActualLen e - (e.firstBlock + extentGetActualLen e - 1 - last) :=
        sub32_of_le (by omega) (by omega)
      have e₄ : u16 (extentGetActualLen e - (e.firstBlock + extentGetActualLen e - 1 - last)) =
          extentGetActualLen e - (e.firstBlock + extentGetActualLen e - 1 - last) :=
        u16_of_lt (by omega)
      have e₅ : sub32 (u32 (e.firstBlock + (extentGetActualLen e -
          (e.firstBlock + extentGetActualLen e - 1 - last)))) 1 = last := by
        rw [sub32_u32_one (by omega) (by omega)]; omega
      have e₆ : u32 (last + 1) = last + 1 := u32_of_lt (by omega)
      have e₇ : sub32 (last + 1) e.firstBlock = last + 1 - e.firstBlock :=
        sub32_of_le (by omega) (by omega)
      have e₈ : e.firstBlock + extentGetActualLen e - 1 - last =
          e.firstBlock + extentGetActualLen e - (last + 1) := by omega
      have hne : ¬ e.firstBlock + extentGetActualLen e - 1 - last = 0 := by omega
      have hlt : last + 1 < e.firstBlock + extentGetActualLen e := by omega
      simp only [if_pos hl, if_pos hlt, e₁, e₂, e₃, e₄, e₅, e₆, e₇, if_neg hne]
      rw [e₈]
      rfl
    · rw [if_neg hl, if_neg (by omega), show e.firstBlock + extentGetActualLen e - 1 = last by omega]

/-- The blocks of `e` that a trim frees. -/
def Ext4Extent.cutRun (e : Ext4Extent) (first last : ℕ) : ℕ × ℕ :=
  (extentGetPblock e + (max e.firstBlock first - e.firstBlock), last + 1 - max e.firstBlock first)

theorem Trims.cut_lt {e : Ext4Extent} {first last : ℕ} (h : Trims e first last) :
    max e.firstBlock first ≤ last := by
  have h₁ := h.lower
  have h₂ := h.upper
  have h₃ := h.suffix
  have h₄ := h.reach
  omega

variable {inodeRef : InodeRef}

theorem removeBlocks_eq {e : Ext4Extent} {a b : ℕ} (h₁ : e.firstBlock ≤ a) (h₂ : a ≤ b)
    (h₃ : b < 4294967296) (h₄ : b + 1 - a < 4294967296) : removeBlocks inodeRef e a b =
      ballocFreeBlocks inodeRef (extentGetPblock e + (a - e.firstBlock)) (b + 1 - a) := by
  have e₁ : sub32 b a = b - a := sub32_of_le h₂ h₃
  have e₂ : sub32 a e.firstBlock = a - e.firstBlock := sub32_of_le h₁ (by omega)
  have e₃ : u32 (b - a + 1) = b + 1 - a := by rw [u32_of_lt (by omega)]; omega
  unfold removeBlocks
  simp only [e₁, e₂, e₃]

theorem Trims.removeBlocks_eq {e : Ext4Extent} {first last : ℕ} (h : Trims e first last) :
    removeBlocks inodeRef e (max e.firstBlock first) last =
      ballocFreeBlocks inodeRef (e.cutRun first last).1 (e.cutRun first last).2 := by
  have h₁ := e.len_le h.fits
  have h₂ := h.upper
  have h₃ := h.range
  exact EspLwext4.removeBlocks_eq (Nat.le_max_left _ _) h.cut_lt (by omega) (by omega)

/-! ## The loop of `remove_leaf` -/

section Loop

variable {s : St} {leaf : ExtentPathNode} {lblock b first last : ℕ}

/-- The extent behind the selected one starts where that one ends, or later. -/
theorem LeafOk.next_le (h : LeafOk inodeRef s.bytes lblock b leaf)
    (hpos : leaf.position + 1 < leaf.header.entriesCount) :
    leaf.extent.firstBlock + extentGetActualLen leaf.extent ≤
      s.bytes.key (Place.of b) (leaf.position + 1) := by
  have hs := (h.selected (by omega)).2
  rw [if_pos (by rw [h.header]; exact h.depth)] at hs
  rw [h.extent]
  exact hs.2.2 hpos

/-- The loop cuts the selected entry and stops at the next one. -/
theorem wp_removeLeafLoop_one {Q : ℕ × ℕ × ℕ → St → Prop} {E : Errno → St → Prop}
    (hleaf : LeafOk inodeRef s.bytes lblock b leaf) (h0 : 0 < leaf.header.entriesCount)
    (htrim : Trims leaf.extent first last)
    (h : wp ((ballocFreeBlocks inodeRef (leaf.extent.cutRun first last).1
          (leaf.extent.cutRun first last).2).onError (releaseNode inodeRef leaf))
      (fun _ s' => s'.bytes = s.bytes ∧
        match leaf.extent.trimmed first last with
        | none => Q (leaf.position, leaf.position + 1, leaf.header.entriesCount - 1) s'
        | some kept => Q (leaf.position + 1, leaf.position + 1, leaf.header.entriesCount)
            (s'.setBytes leaf.place
              (extentStore (s'.bytes leaf.place) (entryOff leaf.position) kept))) E s) :
    wp (removeLeafLoop inodeRef leaf.place leaf first last
      (leaf.header.entriesCount - leaf.position) leaf.position leaf.position
      leaf.header.entriesCount) Q E s := by
  have hsane := hleaf.sane
  have hfit := hsane.fits hsane.headerOk.count
  have hlt := (hleaf.chosen h0).lt
  have hcount : leaf.header.entriesCount < 65536 :=
    Nat.lt_of_le_of_lt hsane.headerOk.count hsane.count_lt
  have hplace : leaf.place = Place.of b := by rw [ExtentPathNode.place, hleaf.pblockOfNode]
  -- what the loop does from the next entry on
  have stop (n write count : ℕ) (s' : St) (hn : n = leaf.header.entriesCount - (leaf.position + 1))
      (hkey : s'.bytes.key leaf.place (leaf.position + 1) =
        s.bytes.key leaf.place (leaf.position + 1)) (hQ : Q (write, leaf.position + 1, count) s') :
      wp (removeLeafLoop inodeRef leaf.place leaf first last n (leaf.position + 1) write count)
        Q E s' := by
    cases n with
    | zero => exact hQ
    | succ n =>
        unfold removeLeafLoop
        rw [wp_bind, wp_loadExtent]
        refine ⟨hfit.mono (by omega), (wp_ite _ _ _).mpr ⟨fun _ => hQ, fun hc => absurd ?_ hc⟩⟩
        rw [Disk.extent_firstBlock, hkey, hplace]
        have h₁ := hleaf.next_le (by omega)
        have h₂ := htrim.upper
        omega
  obtain ⟨n, hn⟩ : ∃ n, leaf.header.entriesCount - leaf.position = n + 1 :=
    ⟨leaf.header.entriesCount - leaf.position - 1, by omega⟩
  rw [hn]
  unfold removeLeafLoop
  have h₁ := htrim.lower
  have h₂ := htrim.reach
  have h₃ := htrim.pos
  rw [wp_bind, wp_loadExtent, hplace, ← hleaf.extent, ← hplace]
  refine ⟨hfit.mono (by omega), ?_⟩
  rw [if_neg (by omega), sub32_u32_one (by omega) htrim.range, if_neg (by omega)]
  dsimp only
  rw [trimExtent_eq htrim, htrim.removeBlocks_eq, wp_bind]
  refine wp_mono h ?_ fun _ _ h => h
  rintro _ s' ⟨hbytes, hQ⟩
  cases hkept : leaf.extent.trimmed first last with
  | none =>
      rw [hkept] at hQ
      dsimp only
      rw [sub32_of_le (by omega) (by omega)]
      exact stop _ _ _ _ (by omega) (by rw [hbytes]) hQ
  | some kept =>
      rw [hkept] at hQ
      dsimp only
      rw [wp_bind, wp_storeExtent]
      refine ⟨hfit.mono (by omega), stop _ _ _ _ (by omega) ?_ hQ⟩
      rw [← hbytes, ← Disk.extent_firstBlock, ← Disk.extent_firstBlock]
      unfold Disk.extent
      rw [St.bytes_setBytes, Disk.set_self, extent_get_extentStore_ne (by omega)]

end Loop

end EspLwext4
