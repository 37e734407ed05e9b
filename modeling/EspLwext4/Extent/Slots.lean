import EspLwext4.Extent.Trim

/-!
# The entries of a node

The 12 bytes of an entry are read as an extent in a leaf and as an index entry in
an inner node. `slots` lists all entries of a node, read as extents; every rewrite
of a node is an edit of that list.
-/

namespace EspLwext4

open Prog Bytes

/-! ## One entry, read in two ways -/

/-- The index entry in the bytes of an extent. -/
def Ext4Extent.asIndex (e : Ext4Extent) : Ext4ExtentIndex where
  firstBlock := e.firstBlock
  leafLo := e.blockCount + 65536 * e.startHi
  leafHi := e.startLo % 65536
  padding := e.startLo / 65536

/-- The extent in the bytes of an index entry. -/
def Ext4ExtentIndex.asExtent (x : Ext4ExtentIndex) : Ext4Extent where
  firstBlock := x.firstBlock
  blockCount := x.leafLo % 65536
  startHi := x.leafLo / 65536
  startLo := x.leafHi + 65536 * x.padding

/-- The key and the child of an index entry. -/
def Ext4Extent.child (e : Ext4Extent) : ℕ × ℕ := (e.firstBlock, indexGetPblock e.asIndex)

theorem indexLoad_eq (d : Bytes) (o : ℕ) : indexLoad d o = (extentLoad d o).asIndex := by
  have h₁ := readLe16_lt d (o + 8)
  have h₂ : readLe32 d (o + 8) = readLe16 d (o + 8) + 65536 * readLe16 d (o + 10) := rfl
  unfold indexLoad extentLoad Ext4Extent.asIndex
  congr 1
  · dsimp only; omega
  · dsimp only; omega

theorem extentLoad_eq (d : Bytes) (o : ℕ) : extentLoad d o = (indexLoad d o).asExtent := by
  have h₁ := readLe16_lt d (o + 4)
  have h₂ : readLe32 d (o + 4) = readLe16 d (o + 4) + 65536 * readLe16 d (o + 6) := rfl
  unfold indexLoad extentLoad Ext4ExtentIndex.asExtent
  congr 1
  · dsimp only; omega
  · dsimp only; omega

theorem Ext4ExtentIndex.asIndex_asExtent {x : Ext4ExtentIndex} (h : x.Fits) :
    x.asExtent.asIndex = x := by
  have h₁ := h.leafHi
  cases x
  unfold Ext4ExtentIndex.asExtent Ext4Extent.asIndex
  dsimp only at h₁ ⊢
  congr 1 <;> omega

theorem Disk.index_eq (D : Disk) (p : Place) (i : ℕ) : D.index p i = (D.extent p i).asIndex :=
  indexLoad_eq _ _

/-! ## All entries of a node -/

/-- The entries a node counts. -/
def slots (d : Bytes) : List Ext4Extent := extentLayout.records d (headerLoad d).entriesCount

def Disk.slots (D : Disk) (p : Place) : List Ext4Extent := EspLwext4.slots (D p)

namespace Disk

variable {D : Disk} {p : Place} {i : ℕ}

@[simp] theorem length_slots : (D.slots p).length = (D.header p).entriesCount :=
  extentLayout.length_records

theorem getElem_slots (h : i < (D.slots p).length) : (D.slots p)[i] = D.extent p i :=
  extentLayout.getElem_records h

theorem getElem?_slots (h : i < (D.header p).entriesCount) :
    (D.slots p)[i]? = some (D.extent p i) := by
  rw [List.getElem?_eq_getElem (by rwa [length_slots]), getElem_slots]

theorem indexes_eq : D.indexes p (D.header p).entriesCount = (D.slots p).map (·.asIndex) := by
  unfold indexes slots EspLwext4.slots Layout.records
  rw [List.map_map]
  exact List.map_congr_left fun i _ => D.index_eq p i

theorem slots_fits : ∀ e ∈ D.slots p, e.Fits := by
  intro e he
  obtain ⟨i, -, rfl⟩ := List.mem_map.mp he
  exact extentLoad_fits _ _

end Disk

/-! ## Edits of the bytes -/

section Bytes

variable {d d' src : Bytes} {pos n m : ℕ} {a b : List Ext4Extent} {x y : Ext4Extent}

theorem headerLoad_extentStore (e : Ext4Extent) :
    headerLoad (extentStore d (entryOff pos) e) = headerLoad d :=
  headerLoad_congr fun _ hk => extentStore_outside e
    (Or.inl (Nat.lt_of_lt_of_le hk (le_entryOff pos)))

theorem headerLoad_indexStore (e : Ext4ExtentIndex) :
    headerLoad (indexStore d (entryOff pos) e) = headerLoad d :=
  headerLoad_congr fun _ hk => indexStore_outside e
    (Or.inl (Nat.lt_of_lt_of_le hk (le_entryOff pos)))

theorem headerLoad_copy (s : ℕ) :
    headerLoad (d.copy (entryOff pos) src s n) = headerLoad d :=
  headerLoad_congr fun _ hk => copy_of_outside (Or.inl (Nat.lt_of_lt_of_le hk (le_entryOff pos)))

theorem records_headerStore (h : Ext4ExtentHeader) :
    extentLayout.records (headerStore d h) n = extentLayout.records d n :=
  extentLayout.records_congr fun i _ => extentLayout.get_congr fun _ hk _ =>
    headerStore_outside h (Nat.le_trans (le_entryOff i) hk)

/-- A new count makes other entries count. -/
theorem slots_headerStore {h : Ext4ExtentHeader} (hf : h.Fits) :
    slots (headerStore d h) = extentLayout.records d h.entriesCount := by
  unfold slots
  rw [headerLoad_headerStore hf, records_headerStore]

theorem extent_get_eq (d : Bytes) (i : ℕ) :
    extentLayout.get d i = (indexLayout.get d i).asExtent := extentLoad_eq _ _

/-- A store of an index entry, read as an extent. -/
theorem extent_get_indexStore_self {e : Ext4ExtentIndex} (hf : e.Fits) :
    extentLayout.get (indexStore d (entryOff pos) e) pos = e.asExtent := by
  rw [extent_get_eq, index_get_indexStore_self hf]

theorem extent_get_indexStore_ne {e : Ext4ExtentIndex} {i : ℕ} (h : i ≠ pos) :
    extentLayout.get (indexStore d (entryOff pos) e) i = extentLayout.get d i := by
  rw [extent_get_eq, index_get_indexStore_ne h, ← extent_get_eq]

/-- The node with a gap opened at `pos`, between `n` entries. -/
def opened (d : Bytes) (pos n : ℕ) : Bytes :=
  if pos < n then d.copy (entryOff (pos + 1)) d (entryOff pos) ((n - pos) * 12) else d

theorem headerLoad_opened : headerLoad (opened d pos n) = headerLoad d := by
  unfold opened
  split
  · exact headerLoad_copy _
  · rfl

/-- Opening a gap and storing an entry in it inserts the entry. -/
theorem records_opened (h : extentLayout.records d n = a ++ b) (hpos : pos = a.length)
    (hy : extentLayout.get d' pos = y)
    (hne : ∀ i, i ≠ pos → extentLayout.get d' i = extentLayout.get (opened d pos n) i) :
    extentLayout.records d' (n + 1) = a ++ y :: b := by
  subst hpos
  have hn : n = a.length + b.length := by
    have := congrArg List.length h
    simpa using this
  refine extentLayout.records_insert h ?_ hy ?_
  · intro i hi
    rw [hne i (by omega)]
    unfold opened
    split
    · exact extentLayout.get_copy_outside (Or.inl (by omega))
    · rfl
  · intro i hi hin
    rw [hne (i + 1) (by omega)]
    unfold opened
    rw [if_pos (by omega)]
    have hcopy : extentLayout.get (d.copy (extentLayout.off (a.length + 1)) d
        (extentLayout.off a.length) ((n - a.length) * extentLayout.width)) (i + 1) =
        extentLayout.get d (a.length + (i + 1 - (a.length + 1))) :=
      extentLayout.get_copy_inside (by omega) (by omega)
    rw [show a.length + (i + 1 - (a.length + 1)) = i by omega] at hcopy
    exact hcopy

/-- The node with the entry at `pos` closed over, of `n` entries. -/
def closed (d : Bytes) (pos n : ℕ) : Bytes :=
  d.copy (entryOff pos) d (entryOff (pos + 1)) ((n - (pos + 1)) * 12)

theorem records_closed (h : extentLayout.records d n = a ++ x :: b) (hpos : pos = a.length)
    (hlo : ∀ i, i + 1 < n → extentLayout.get d' i = extentLayout.get (closed d pos n) i) :
    extentLayout.records d' (n - 1) = a ++ b := by
  subst hpos
  have hn : n = a.length + (b.length + 1) := by
    have := congrArg List.length h
    simpa using this
  refine extentLayout.records_delete h ?_ ?_
  · intro i hi
    rw [hlo i (by omega)]
    exact extentLayout.get_copy_outside (Or.inl hi)
  · intro i hi hin
    rw [hlo i hin]
    have hcopy : extentLayout.get (d.copy (extentLayout.off a.length) d
        (extentLayout.off (a.length + 1)) ((n - (a.length + 1)) * extentLayout.width)) i =
        extentLayout.get d (a.length + 1 + (i - a.length)) :=
      extentLayout.get_copy_inside hi (by omega)
    rw [show a.length + 1 + (i - a.length) = i + 1 by omega] at hcopy
    exact hcopy

end Bytes

end EspLwext4
