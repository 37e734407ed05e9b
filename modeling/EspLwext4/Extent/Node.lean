import EspLwext4.Extent.Sample

/-!
# Rewriting a node

What the stores do to the header and to the entries of the node they go to, and
what they leave alone.
-/

namespace EspLwext4

open Prog Bytes

variable {d d' : Bytes} {o i pos n : ℕ}

/-! ## Stores and loads -/

theorem headerStore_outside (h : Ext4ExtentHeader) (hi : 12 ≤ i) : headerStore d h i = d i := by
  unfold headerStore
  rw [writeLe32_of_outside (by omega), writeLe16_of_outside (by omega),
    writeLe16_of_outside (by omega), writeLe16_of_outside (by omega),
    writeLe16_of_outside (by omega)]

theorem extentStore_outside (e : Ext4Extent) (hi : i < o ∨ o + 12 ≤ i) :
    extentStore d o e i = d i := by
  unfold extentStore
  rw [writeLe32_of_outside (by omega), writeLe16_of_outside (by omega),
    writeLe16_of_outside (by omega), writeLe32_of_outside (by omega)]

theorem indexStore_outside (x : Ext4ExtentIndex) (hi : i < o ∨ o + 12 ≤ i) :
    indexStore d o x i = d i := by
  unfold indexStore
  rw [writeLe16_of_outside (by omega), writeLe16_of_outside (by omega),
    writeLe32_of_outside (by omega), writeLe32_of_outside (by omega)]

theorem readLe16_writeLe16_ne {o' v : ℕ} (h : o + 2 ≤ o' ∨ o' + 2 ≤ o) :
    readLe16 (writeLe16 d o' v) o = readLe16 d o :=
  readLe16_of_outside fun k _ _ => writeLe16_of_outside (by omega)

theorem readLe16_writeLe32_ne {o' v : ℕ} (h : o + 2 ≤ o' ∨ o' + 4 ≤ o) :
    readLe16 (writeLe32 d o' v) o = readLe16 d o :=
  readLe16_of_outside fun k _ _ => writeLe32_of_outside (by omega)

theorem readLe32_writeLe16_ne {o' v : ℕ} (h : o + 4 ≤ o' ∨ o' + 2 ≤ o) :
    readLe32 (writeLe16 d o' v) o = readLe32 d o :=
  readLe32_of_outside fun k _ _ => writeLe16_of_outside (by omega)

theorem readLe32_writeLe32_ne {o' v : ℕ} (h : o + 4 ≤ o' ∨ o' + 4 ≤ o) :
    readLe32 (writeLe32 d o' v) o = readLe32 d o :=
  readLe32_of_outside fun k _ _ => writeLe32_of_outside (by omega)

/-- A header that fits its fields is read back as it was stored. -/
theorem headerLoad_headerStore {h : Ext4ExtentHeader} (hf : h.Fits) :
    headerLoad (headerStore d h) = h := by
  obtain ⟨h₁, h₂, h₃, h₄, h₅⟩ := hf
  cases h
  simp only [headerLoad, headerStore, readLe32_writeLe32]
  simp (disch := omega) only [readLe16_writeLe32_ne, readLe16_writeLe16_ne, readLe16_writeLe16,
    Nat.mod_eq_of_lt h₁, Nat.mod_eq_of_lt h₂, Nat.mod_eq_of_lt h₃, Nat.mod_eq_of_lt h₄,
    Nat.mod_eq_of_lt h₅]

theorem extentLoad_extentStore {e : Ext4Extent} (hf : e.Fits) :
    extentLoad (extentStore d o e) o = e := by
  obtain ⟨h₁, h₂, h₃, h₄⟩ := hf
  cases e
  simp only [extentLoad, extentStore, readLe32_writeLe32]
  simp (disch := omega) only [readLe16_writeLe32_ne, readLe16_writeLe16_ne, readLe16_writeLe16,
    readLe32_writeLe32_ne, readLe32_writeLe16_ne, readLe32_writeLe32,
    Nat.mod_eq_of_lt h₁, Nat.mod_eq_of_lt h₂, Nat.mod_eq_of_lt h₃, Nat.mod_eq_of_lt h₄]

theorem indexLoad_indexStore {x : Ext4ExtentIndex} (hf : x.Fits) :
    indexLoad (indexStore d o x) o = x := by
  obtain ⟨h₁, h₂, h₃, h₄⟩ := hf
  cases x
  simp only [indexLoad, indexStore]
  simp (disch := omega) only [readLe16_writeLe16_ne, readLe16_writeLe16,
    readLe32_writeLe32_ne, readLe32_writeLe16_ne, readLe32_writeLe32,
    Nat.mod_eq_of_lt h₁, Nat.mod_eq_of_lt h₂, Nat.mod_eq_of_lt h₃, Nat.mod_eq_of_lt h₄]

theorem entryOff_eq_extent (i : ℕ) : extentLayout.off i = entryOff i := rfl

/-- Entries lie behind the header and do not overlap. -/
theorem entryOff_lt {i j : ℕ} (h : i < j) : entryOff i + 12 ≤ entryOff j := by
  unfold entryOff ext4ExtentSize
  omega

theorem le_entryOff (i : ℕ) : 12 ≤ entryOff i := by
  unfold entryOff ext4ExtentHeaderSize
  omega

/-- A store into one slot leaves the others alone. -/
theorem extent_get_extentStore_ne {e : Ext4Extent} (h : i ≠ pos) :
    extentLayout.get (extentStore d (entryOff pos) e) i = extentLayout.get d i := by
  refine extentLayout.get_congr fun k hk hk' => extentStore_outside e ?_
  have hw : extentLayout.width = 12 := rfl
  rw [entryOff_eq_extent] at hk hk'
  rcases Nat.lt_or_gt_of_ne h with h | h
  · have := entryOff_lt h; omega
  · have := entryOff_lt h; omega

theorem extent_get_extentStore_self {e : Ext4Extent} (hf : e.Fits) :
    extentLayout.get (extentStore d (entryOff pos) e) pos = e := extentLoad_extentStore hf

theorem index_get_indexStore_ne {x : Ext4ExtentIndex} (h : i ≠ pos) :
    indexLayout.get (indexStore d (entryOff pos) x) i = indexLayout.get d i := by
  refine indexLayout.get_congr fun k hk hk' => indexStore_outside x ?_
  have hw : indexLayout.width = 12 := rfl
  have hoff : indexLayout.off i = entryOff i := rfl
  rw [hoff] at hk hk'
  rcases Nat.lt_or_gt_of_ne h with h | h
  · have := entryOff_lt h; omega
  · have := entryOff_lt h; omega

theorem index_get_indexStore_self {x : Ext4ExtentIndex} (hf : x.Fits) :
    indexLayout.get (indexStore d (entryOff pos) x) pos = x := indexLoad_indexStore hf

end EspLwext4
