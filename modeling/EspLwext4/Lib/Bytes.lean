import Mathlib.Data.List.Basic
import Mathlib.Tactic.Common

/-!
# Byte buffers and arrays of fixed-size records

A buffer is the function from offsets to bytes; how much of it exists is the
business of whoever accesses it. The second half is about buffers that hold an
array of records of one width: moving, storing and clearing whole records is
editing the list of decoded records.
-/

namespace EspLwext4

abbrev Bytes : Type := ℕ → UInt8

namespace Bytes

/-! ## Little-endian words -/

def readLe16 (d : Bytes) (o : ℕ) : ℕ := (d o).toNat + 256 * (d (o + 1)).toNat

def readLe32 (d : Bytes) (o : ℕ) : ℕ := readLe16 d o + 65536 * readLe16 d (o + 2)

def writeLe16 (d : Bytes) (o v : ℕ) : Bytes := fun i =>
  if i = o then UInt8.ofNat v else if i = o + 1 then UInt8.ofNat (v / 256) else d i

def writeLe32 (d : Bytes) (o v : ℕ) : Bytes := writeLe16 (writeLe16 d o v) (o + 2) (v / 65536)

/-- `memmove`, or `memcpy` when the buffers differ. -/
def copy (dst : Bytes) (doff : ℕ) (src : Bytes) (soff n : ℕ) : Bytes := fun i =>
  if doff ≤ i ∧ i < doff + n then src (soff + (i - doff)) else dst i

/-- `memset` with zero. -/
def zero (d : Bytes) (off n : ℕ) : Bytes := fun i =>
  if off ≤ i ∧ i < off + n then 0 else d i

variable {d d' src : Bytes} {o o' v i off n doff soff : ℕ}

theorem readLe16_lt (d : Bytes) (o : ℕ) : readLe16 d o < 65536 := by
  have h0 := (d o).toNat_lt
  have h1 := (d (o + 1)).toNat_lt
  unfold readLe16
  omega

theorem readLe32_lt (d : Bytes) (o : ℕ) : readLe32 d o < 4294967296 := by
  have h0 := readLe16_lt d o
  have h1 := readLe16_lt d (o + 2)
  unfold readLe32
  omega

theorem readLe16_congr (h : ∀ k < 2, d (o + k) = d' (o' + k)) :
    readLe16 d o = readLe16 d' o' := by
  unfold readLe16
  rw [show d o = d' o' from h 0 (by omega), h 1 (by omega)]

theorem readLe32_congr (h : ∀ k < 4, d (o + k) = d' (o' + k)) :
    readLe32 d o = readLe32 d' o' := by
  unfold readLe32
  have hhi : readLe16 d (o + 2) = readLe16 d' (o' + 2) := readLe16_congr fun k hk => by
    rw [Nat.add_assoc, Nat.add_assoc]; exact h (2 + k) (by omega)
  rw [readLe16_congr fun k hk => h k (by omega), hhi]

theorem writeLe16_of_outside (h : i < o ∨ o + 2 ≤ i) : writeLe16 d o v i = d i := by
  unfold writeLe16
  rw [if_neg (by omega), if_neg (by omega)]

theorem writeLe32_of_outside (h : i < o ∨ o + 4 ≤ i) : writeLe32 d o v i = d i := by
  unfold writeLe32
  rw [writeLe16_of_outside (by omega), writeLe16_of_outside (by omega)]

theorem readLe16_writeLe16 (d : Bytes) (o v : ℕ) :
    readLe16 (writeLe16 d o v) o = v % 65536 := by
  unfold readLe16 writeLe16
  rw [if_pos rfl, if_neg (by omega), if_pos rfl, UInt8.toNat_ofNat', UInt8.toNat_ofNat']
  omega

theorem readLe16_of_outside (h : ∀ k, o ≤ k → k < o + 2 → d k = d' k) :
    readLe16 d o = readLe16 d' o :=
  readLe16_congr fun k hk => h (o + k) (by omega) (by omega)

theorem readLe32_of_outside (h : ∀ k, o ≤ k → k < o + 4 → d k = d' k) :
    readLe32 d o = readLe32 d' o :=
  readLe32_congr fun k hk => h (o + k) (by omega) (by omega)

theorem readLe32_writeLe32 (d : Bytes) (o v : ℕ) :
    readLe32 (writeLe32 d o v) o = v % 4294967296 := by
  unfold readLe32
  have hlo : readLe16 (writeLe32 d o v) o = v % 65536 := by
    unfold writeLe32
    exact (readLe16_of_outside fun k _ hk => writeLe16_of_outside (by omega)).trans
      (readLe16_writeLe16 d o v)
  rw [hlo, show readLe16 (writeLe32 d o v) (o + 2) = v / 65536 % 65536 from
    readLe16_writeLe16 _ _ _]
  omega

theorem copy_of_outside (h : i < doff ∨ doff + n ≤ i) : copy d doff src soff n i = d i := by
  unfold copy
  rw [if_neg (by omega)]

theorem copy_of_inside (h : doff ≤ i) (h' : i < doff + n) :
    copy d doff src soff n i = src (soff + (i - doff)) := by
  unfold copy
  rw [if_pos ⟨h, h'⟩]

theorem zero_of_outside (h : i < off ∨ off + n ≤ i) : zero d off n i = d i := by
  unfold zero
  rw [if_neg (by omega)]

theorem zero_of_inside (h : off ≤ i) (h' : i < off + n) : zero d off n i = 0 := by
  unfold zero
  rw [if_pos ⟨h, h'⟩]

end Bytes

/-! ## Arrays of records -/

/-- How records of type `ρ` lie in a buffer: where the array starts, how wide a
record is, and how one is decoded. A record is decoded from its own bytes. -/
structure Layout (ρ : Type) where
  base : ℕ
  width : ℕ
  load : Bytes → ℕ → ρ
  load_congr : ∀ {d d' : Bytes} {o o' : ℕ},
    (∀ k < width, d (o + k) = d' (o' + k)) → load d o = load d' o'

namespace Layout

variable {ρ : Type} (L : Layout ρ) {d d' src : Bytes} {i n p q m : ℕ}

/-- Offset of record `i`. -/
def off (i : ℕ) : ℕ := L.base + i * L.width

/-- Record `i`. -/
def get (d : Bytes) (i : ℕ) : ρ := L.load d (L.off i)

/-- The first `n` records. -/
def records (d : Bytes) (n : ℕ) : List ρ := (List.range n).map (L.get d)

@[simp] theorem length_records : (L.records d n).length = n := by simp [records]

@[simp] theorem getElem_records (h : i < (L.records d n).length) :
    (L.records d n)[i] = L.get d i := by simp [records]

@[simp] theorem records_zero : L.records d 0 = [] := rfl

theorem off_succ (i : ℕ) : L.off (i + 1) = L.off i + L.width := by
  unfold off; rw [Nat.succ_mul]; omega

theorem off_mono (h : i ≤ p) : L.off i ≤ L.off p :=
  Nat.add_le_add_left (Nat.mul_le_mul_right _ h) _

theorem off_add_width_le (h : i < p) : L.off i + L.width ≤ L.off p := by
  rw [← off_succ]; exact L.off_mono h

theorem off_add (i m : ℕ) : L.off (i + m) = L.off i + m * L.width := by
  unfold off; rw [Nat.add_mul]; omega

theorem get_congr (h : ∀ k, L.off i ≤ k → k < L.off i + L.width → d k = d' k) :
    L.get d i = L.get d' i :=
  L.load_congr fun k hk => h _ (by omega) (by omega)

/-- The list of records is determined record by record. -/
theorem records_eq_iff {l : List ρ} :
    L.records d n = l ↔ l.length = n ∧ ∀ i, (h : i < l.length) → L.get d i = l[i] := by
  constructor
  · rintro rfl
    exact ⟨by simp, fun i h => by simp⟩
  · rintro ⟨hlen, hget⟩
    apply List.ext_getElem (by simp [hlen])
    intro i h₁ h₂
    rw [getElem_records]
    exact hget i h₂

theorem records_congr (h : ∀ i < n, L.get d i = L.get d' i) :
    L.records d n = L.records d' n := by
  unfold records
  exact List.map_congr_left fun i hi => h i (List.mem_range.mp hi)

/-- Record `i` after `m` records were copied from index `q` to index `p`. -/
theorem get_copy_inside (hp : p ≤ i) (hi : i < p + m) :
    L.get (d.copy (L.off p) src (L.off q) (m * L.width)) i = L.get src (q + (i - p)) := by
  apply L.load_congr
  intro k hk
  have h₁ := L.off_mono hp
  have h₂ := L.off_add_width_le hi
  rw [off_add] at h₂
  rw [Bytes.copy_of_inside (by omega) (by omega)]
  congr 1
  have h₃ : L.off i = L.off p + (i - p) * L.width := by
    rw [← off_add]; congr 1; omega
  rw [off_add]
  omega

theorem get_copy_outside (h : i < p ∨ p + m ≤ i) :
    L.get (d.copy (L.off p) src (L.off q) (m * L.width)) i = L.get d i := by
  apply L.get_congr
  intro k hk hk'
  rcases h with h | h
  · have := L.off_add_width_le h
    exact Bytes.copy_of_outside (Or.inl (by omega))
  · have := L.off_mono h
    rw [off_add] at this
    exact Bytes.copy_of_outside (Or.inr (by omega))

theorem get_zero_outside (h : i < p ∨ p + m ≤ i) :
    L.get (d.zero (L.off p) (m * L.width)) i = L.get d i := by
  apply L.get_congr
  intro k hk hk'
  rcases h with h | h
  · have := L.off_add_width_le h
    exact Bytes.zero_of_outside (Or.inl (by omega))
  · have := L.off_mono h
    rw [off_add] at this
    exact Bytes.zero_of_outside (Or.inr (by omega))

/-- Cutting the array off. -/
theorem take_records (h : m ≤ n) : (L.records d n).take m = L.records d m := by
  unfold records
  rw [← List.map_take, List.take_range, Nat.min_eq_left h]

theorem records_take {a b : List ρ} (h : L.records d n = a ++ b) :
    L.records d a.length = a := by
  have hlen := congrArg List.length h
  rw [length_records, List.length_append] at hlen
  rw [← L.take_records (show a.length ≤ n by omega), h, List.take_left]

/-- Replacing the record behind `a`. -/
theorem records_set {a b : List ρ} {x y : ρ} (h : L.records d n = a ++ x :: b)
    (hy : L.get d' a.length = y) (hne : ∀ i < n, i ≠ a.length → L.get d' i = L.get d i) :
    L.records d' n = a ++ y :: b := by
  rw [records_eq_iff] at h ⊢
  have hn := h.1
  simp only [List.length_append, List.length_cons] at hn
  refine ⟨by simp; omega, fun i hi => ?_⟩
  simp only [List.length_append, List.length_cons] at hi
  by_cases hia : i = a.length
  · subst hia; rw [hy]; simp
  · rw [hne i (by omega) hia, h.2 i (by simp; omega)]
    by_cases hlt : i < a.length
    · simp only [List.getElem_append_left hlt]
    · rw [List.getElem_append_right (by omega), List.getElem_append_right (by omega)]
      obtain ⟨j, hj⟩ : ∃ j, i - a.length = j + 1 := ⟨i - a.length - 1, by omega⟩
      simp only [hj, List.getElem_cons_succ]

/-- Making room for one record behind `a`. -/
theorem records_insert {a b : List ρ} {y : ρ} (h : L.records d n = a ++ b)
    (hlo : ∀ i < a.length, L.get d' i = L.get d i) (hy : L.get d' a.length = y)
    (hhi : ∀ i, a.length ≤ i → i < n → L.get d' (i + 1) = L.get d i) :
    L.records d' (n + 1) = a ++ y :: b := by
  rw [records_eq_iff] at h ⊢
  have hn := h.1
  simp only [List.length_append] at hn
  refine ⟨by simp; omega, fun i hi => ?_⟩
  simp only [List.length_append, List.length_cons] at hi
  rcases Nat.lt_trichotomy i a.length with hlt | rfl | hgt
  · rw [hlo i hlt, h.2 i (by simp; omega)]
    simp only [List.getElem_append_left hlt]
  · rw [hy]; simp
  · obtain ⟨j, rfl⟩ : ∃ j, i = j + 1 := ⟨i - 1, by omega⟩
    rw [hhi j (by omega) (by omega), h.2 j (by simp; omega),
      List.getElem_append_right (by omega), List.getElem_append_right (by omega)]
    simp only [show j + 1 - a.length = j - a.length + 1 by omega, List.getElem_cons_succ]

/-- Closing the gap behind `a`. -/
theorem records_delete {a b : List ρ} {x : ρ} (h : L.records d n = a ++ x :: b)
    (hlo : ∀ i < a.length, L.get d' i = L.get d i)
    (hhi : ∀ i, a.length ≤ i → i + 1 < n → L.get d' i = L.get d (i + 1)) :
    L.records d' (n - 1) = a ++ b := by
  rw [records_eq_iff] at h ⊢
  have hn := h.1
  simp only [List.length_append, List.length_cons] at hn
  refine ⟨by simp; omega, fun i hi => ?_⟩
  simp only [List.length_append] at hi
  by_cases hlt : i < a.length
  · rw [hlo i hlt, h.2 i (by simp; omega)]
    simp only [List.getElem_append_left hlt]
  · rw [hhi i (by omega) (by omega), h.2 (i + 1) (by simp; omega),
      List.getElem_append_right (by omega), List.getElem_append_right (by omega)]
    simp only [show i + 1 - a.length = i - a.length + 1 by omega, List.getElem_cons_succ]

/-- Copying the records of another buffer behind `m` records. -/
theorem records_of_copy {l : List ρ} (h : L.records src n = l) :
    L.records (d.copy (L.off 0) src (L.off 0) (n * L.width)) n = l := by
  rw [← h]
  exact L.records_congr fun i hi => by
    rw [L.get_copy_inside (Nat.zero_le _) (by omega)]; simp

/-- Copying the records from `q` on to the front of another buffer. -/
theorem records_of_copy_drop :
    L.records (d.copy (L.off 0) src (L.off q) (n * L.width)) n = (L.records src (q + n)).drop q := by
  refine List.ext_getElem (by simp) fun i h₁ h₂ => ?_
  rw [length_records] at h₁
  rw [getElem_records, List.getElem_drop, getElem_records, L.get_copy_inside (Nat.zero_le _) (by omega)]
  rfl

end Layout

end EspLwext4
