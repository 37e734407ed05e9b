import EspLwext4.Lib.Bytes

/-!
# On-disk extent records

The header, leaf-extent and index records of `port/lwext4_extent.c`, their
load and store functions, and the small accessors on them. Fields are naturals
that a load bounds by the field's width; a store keeps the low bits, as the C
types do.
-/

namespace EspLwext4

open Bytes

/-! ## Machine words -/

def u16 (n : ℕ) : ℕ := n % 65536

def u32 (n : ℕ) : ℕ := n % 4294967296

/-- `uint32_t` subtraction. -/
def sub32 (a b : ℕ) : ℕ := u32 (a + 4294967296 - u32 b)

/-- `uint64_t` subtraction. -/
def sub64 (a b : ℕ) : ℕ := (a + 18446744073709551616 - b) % 18446744073709551616

def uint32Max : ℕ := 4294967295

theorem u16_of_lt {n : ℕ} (h : n < 65536) : u16 n = n := Nat.mod_eq_of_lt h

theorem u32_of_lt {n : ℕ} (h : n < 4294967296) : u32 n = n := Nat.mod_eq_of_lt h

/-- Without a borrow, subtraction is the usual one. -/
theorem sub32_of_le {a b : ℕ} (h : b ≤ a) (ha : a < 4294967296) : sub32 a b = a - b := by
  unfold sub32 u32
  omega

/-- The last block of a nonempty run that ends at most at 2^32. -/
theorem sub32_u32_one {n : ℕ} (h0 : 0 < n) (h : n ≤ 4294967296) : sub32 (u32 n) 1 = n - 1 := by
  unfold sub32 u32
  omega

theorem sub64_of_le {a b : ℕ} (h : b ≤ a) (ha : a < 18446744073709551616) :
    sub64 a b = a - b := by
  unfold sub64
  omega

/-! ## Constants -/

def ext4ExtentMagic : ℕ := 0xF30A
def ext4ExtentHeaderSize : ℕ := 12
def ext4ExtentSize : ℕ := 12
def ext4ExtentIndexSize : ℕ := 12
def extInitMaxLen : ℕ := 32768
def ext4ExtentMaxDepth : ℕ := 5
def ext4ExtentRootMaxEntries : ℕ := 4

/-! ## Records -/

structure Ext4ExtentHeader where
  magic : ℕ
  entriesCount : ℕ
  maxEntriesCount : ℕ
  depth : ℕ
  generation : ℕ
deriving DecidableEq, Repr

structure Ext4Extent where
  firstBlock : ℕ
  blockCount : ℕ
  startHi : ℕ
  startLo : ℕ
deriving DecidableEq, Repr

structure Ext4ExtentIndex where
  firstBlock : ℕ
  leafLo : ℕ
  leafHi : ℕ
  padding : ℕ
deriving DecidableEq, Repr

def headerLoad (data : Bytes) : Ext4ExtentHeader where
  magic := readLe16 data 0
  entriesCount := readLe16 data 2
  maxEntriesCount := readLe16 data 4
  depth := readLe16 data 6
  generation := readLe32 data 8

def headerStore (data : Bytes) (header : Ext4ExtentHeader) : Bytes :=
  writeLe32 (writeLe16 (writeLe16 (writeLe16 (writeLe16 data 0 header.magic)
    2 header.entriesCount) 4 header.maxEntriesCount) 6 header.depth) 8 header.generation

def extentLoad (data : Bytes) (o : ℕ) : Ext4Extent where
  firstBlock := readLe32 data o
  blockCount := readLe16 data (o + 4)
  startHi := readLe16 data (o + 6)
  startLo := readLe32 data (o + 8)

def extentStore (data : Bytes) (o : ℕ) (extent : Ext4Extent) : Bytes :=
  writeLe32 (writeLe16 (writeLe16 (writeLe32 data o extent.firstBlock)
    (o + 4) extent.blockCount) (o + 6) extent.startHi) (o + 8) extent.startLo

def indexLoad (data : Bytes) (o : ℕ) : Ext4ExtentIndex where
  firstBlock := readLe32 data o
  leafLo := readLe32 data (o + 4)
  leafHi := readLe16 data (o + 8)
  padding := readLe16 data (o + 10)

def indexStore (data : Bytes) (o : ℕ) (index : Ext4ExtentIndex) : Bytes :=
  writeLe16 (writeLe16 (writeLe32 (writeLe32 data o index.firstBlock)
    (o + 4) index.leafLo) (o + 8) index.leafHi) (o + 10) index.padding

/-- Extents and index entries name a physical block by 48 bits. -/
def pblockLimit : ℕ := 281474976710656

def extentGetPblock (extent : Ext4Extent) : ℕ := extent.startHi * 4294967296 + extent.startLo

def extentStorePblock (extent : Ext4Extent) (pblock : ℕ) : Ext4Extent :=
  { extent with startLo := u32 pblock, startHi := u16 (pblock / 4294967296) }

def indexGetPblock (index : Ext4ExtentIndex) : ℕ := index.leafHi * 4294967296 + index.leafLo

def indexStorePblock (index : Ext4ExtentIndex) (pblock : ℕ) : Ext4ExtentIndex :=
  { index with leafLo := u32 pblock, leafHi := u16 (pblock / 4294967296) }

def extentIsUnwritten (extent : Ext4Extent) : Bool := decide (extInitMaxLen < extent.blockCount)

def extentGetActualLen (extent : Ext4Extent) : ℕ :=
  if extentIsUnwritten extent then u16 (extent.blockCount - extInitMaxLen) else extent.blockCount

def extentSetActualLen (extent : Ext4Extent) (len : ℕ) : Ext4Extent :=
  { extent with blockCount := len }

def extentMarkUnwritten (extent : Ext4Extent) : Ext4Extent :=
  { extent with blockCount := extent.blockCount ||| extInitMaxLen }

/-! ## Records in a node -/

/-- A loaded extent fits its fields. -/
structure Ext4Extent.Fits (e : Ext4Extent) : Prop where
  firstBlock : e.firstBlock < 4294967296
  blockCount : e.blockCount < 65536
  startHi : e.startHi < 65536
  startLo : e.startLo < 4294967296

structure Ext4ExtentIndex.Fits (x : Ext4ExtentIndex) : Prop where
  firstBlock : x.firstBlock < 4294967296
  leafLo : x.leafLo < 4294967296
  leafHi : x.leafHi < 65536
  padding : x.padding < 65536

structure Ext4ExtentHeader.Fits (h : Ext4ExtentHeader) : Prop where
  magic : h.magic < 65536
  entriesCount : h.entriesCount < 65536
  maxEntriesCount : h.maxEntriesCount < 65536
  depth : h.depth < 65536
  generation : h.generation < 4294967296

theorem extentLoad_fits (d : Bytes) (o : ℕ) : (extentLoad d o).Fits :=
  ⟨readLe32_lt _ _, readLe16_lt _ _, readLe16_lt _ _, readLe32_lt _ _⟩

theorem indexLoad_fits (d : Bytes) (o : ℕ) : (indexLoad d o).Fits :=
  ⟨readLe32_lt _ _, readLe32_lt _ _, readLe16_lt _ _, readLe16_lt _ _⟩

theorem headerLoad_fits (d : Bytes) : (headerLoad d).Fits :=
  ⟨readLe16_lt _ _, readLe16_lt _ _, readLe16_lt _ _, readLe16_lt _ _, readLe32_lt _ _⟩

theorem extentLoad_congr {d d' : Bytes} {o o' : ℕ}
    (h : ∀ k < 12, d (o + k) = d' (o' + k)) : extentLoad d o = extentLoad d' o' := by
  unfold extentLoad
  congr 1
  · exact readLe32_congr fun k hk => h k (by omega)
  · exact readLe16_congr fun k hk => by simpa [Nat.add_assoc] using h (4 + k) (by omega)
  · exact readLe16_congr fun k hk => by simpa [Nat.add_assoc] using h (6 + k) (by omega)
  · exact readLe32_congr fun k hk => by simpa [Nat.add_assoc] using h (8 + k) (by omega)

theorem indexLoad_congr {d d' : Bytes} {o o' : ℕ}
    (h : ∀ k < 12, d (o + k) = d' (o' + k)) : indexLoad d o = indexLoad d' o' := by
  unfold indexLoad
  congr 1
  · exact readLe32_congr fun k hk => h k (by omega)
  · exact readLe32_congr fun k hk => by simpa [Nat.add_assoc] using h (4 + k) (by omega)
  · exact readLe16_congr fun k hk => by simpa [Nat.add_assoc] using h (8 + k) (by omega)
  · exact readLe16_congr fun k hk => by simpa [Nat.add_assoc] using h (10 + k) (by omega)

theorem headerLoad_congr {d d' : Bytes} (h : ∀ k < 12, d k = d' k) :
    headerLoad d = headerLoad d' := by
  unfold headerLoad
  congr 1
  · exact readLe16_congr fun k hk => by simpa using h k (by omega)
  · exact readLe16_congr fun k hk => h (2 + k) (by omega)
  · exact readLe16_congr fun k hk => h (4 + k) (by omega)
  · exact readLe16_congr fun k hk => h (6 + k) (by omega)
  · exact readLe32_congr fun k hk => h (8 + k) (by omega)

/-- The extents of a leaf. -/
def extentLayout : Layout Ext4Extent where
  base := 12
  width := 12
  load := extentLoad
  load_congr := extentLoad_congr

/-- The index entries of an inner node. -/
def indexLayout : Layout Ext4ExtentIndex where
  base := 12
  width := 12
  load := indexLoad
  load_congr := indexLoad_congr

/-- Byte offset of entry `pos`. -/
abbrev entryOff (pos : ℕ) : ℕ := ext4ExtentHeaderSize + pos * ext4ExtentSize

end EspLwext4
