import EspLwext4.Extent.Api
import Mathlib.Tactic.IntervalCases

/-!
# What the primitive operations do

Weakest preconditions of the loads, stores and outside calls the model is
written with, and the relation `Reads` between two states that differ only by
calls that allocate and free nothing.
-/

namespace EspLwext4

open Prog

/-! ## Views of the disk -/

namespace Disk

variable (D : Disk) (p : Place) (i : ℕ)

def header : Ext4ExtentHeader := headerLoad (D p)

def extent : Ext4Extent := extentLayout.get (D p) i

def index : Ext4ExtentIndex := indexLayout.get (D p) i

/-- The first word of entry `i`, the key of both kinds of entries. -/
def key : ℕ := Bytes.readLe32 (D p) (entryOff i)

@[simp] theorem extent_firstBlock : (D.extent p i).firstBlock = D.key p i := rfl

@[simp] theorem index_firstBlock : (D.index p i).firstBlock = D.key p i := rfl

@[simp] theorem set_self (d : Bytes) : D.set p d p = d := if_pos rfl

variable {p} in
theorem set_ne {q : Place} (d : Bytes) (h : q ≠ p) : D.set p d q = D q := if_neg h

@[simp] theorem set_set (d d' : Bytes) : (D.set p d).set p d' = D.set p d' := by
  funext q
  unfold Disk.set
  split <;> rfl

end Disk

@[simp] theorem St.setBytes_setBytes (s : St) (p : Place) (d d' : Bytes) :
    (s.setBytes p d).setBytes p d' = s.setBytes p d' := by
  unfold St.setBytes
  rw [Disk.set_set]

@[simp] theorem St.bytes_setBytes (s : St) (p : Place) (d : Bytes) :
    (s.setBytes p d).bytes = s.bytes.set p d := rfl

@[simp] theorem St.trace_setBytes (s : St) (p : Place) (d : Bytes) :
    (s.setBytes p d).trace = s.trace := rfl

@[simp] theorem St.bytes_log (s : St) (ev : Event) : (s.log ev).bytes = s.bytes := rfl

@[simp] theorem St.trace_log (s : St) (ev : Event) : (s.log ev).trace = ev :: s.trace := rfl

@[simp] theorem Place.of_zero : Place.of 0 = .root := rfl

theorem Place.of_ne_zero {b : ℕ} (h : b ≠ 0) : Place.of b = .block b := if_neg h

theorem Place.of_injective : Function.Injective Place.of := by
  intro a b h
  unfold Place.of at h
  split at h <;> split at h <;> simp_all

/-! ## Bounds -/

variable (inodeRef : InodeRef)

namespace InodeRef

theorem blockSize_ge : 1024 ≤ inodeRef.blockSize := by
  obtain ⟨k, hk, -, h⟩ := inodeRef.blockSize_pow
  rw [h]
  exact Nat.pow_le_pow_right (show 0 < 2 by decide) hk

theorem blockSize_le : inodeRef.blockSize ≤ 65536 := by
  obtain ⟨k, -, hk, h⟩ := inodeRef.blockSize_pow
  rw [h]
  exact Nat.pow_le_pow_right (show 0 < 2 by decide) hk

/-- How many entries a node at a place can have. -/
def capacityOf : Place → ℕ
  | .root => ext4ExtentRootMaxEntries
  | .block _ => capacity inodeRef

/-- The first `n` entries lie in the buffer. -/
def Fits (p : Place) (n : ℕ) : Prop := 12 + n * 12 ≤ inodeRef.bufSize p

theorem bufSize_ge (p : Place) : 60 ≤ inodeRef.bufSize p := by
  cases p with
  | root => exact Nat.le_refl _
  | block b => exact Nat.le_trans (by decide) inodeRef.blockSize_ge

theorem capacity_ge : 84 ≤ capacity inodeRef := by
  have := inodeRef.blockSize_ge
  unfold capacity ext4ExtentHeaderSize ext4ExtentSize
  omega

theorem capacity_le : capacity inodeRef ≤ 5460 := by
  have := inodeRef.blockSize_le
  unfold capacity ext4ExtentHeaderSize ext4ExtentSize
  omega

theorem fits_of_le {p : Place} {n : ℕ} (h : n ≤ inodeRef.capacityOf p) : inodeRef.Fits p n := by
  have := inodeRef.blockSize_ge
  cases p with
  | root =>
      have h : n ≤ 4 := h
      show 12 + n * 12 ≤ 60
      omega
  | block b =>
      have h : n ≤ (inodeRef.blockSize - 12) / 12 := h
      show 12 + n * 12 ≤ inodeRef.blockSize
      omega

/-- Behind the entries of a block there is room for a checksum: a power of two
is no multiple of 12 plus less than 4. -/
theorem tail_room : 12 + capacity inodeRef * 12 + 4 ≤ inodeRef.blockSize := by
  obtain ⟨k, hk, hk', h⟩ := inodeRef.blockSize_pow
  unfold capacity ext4ExtentHeaderSize ext4ExtentSize
  rw [h]
  interval_cases k <;> decide

variable {inodeRef}

theorem Fits.mono {p : Place} {m n : ℕ} (h : inodeRef.Fits p n) (hm : m ≤ n) :
    inodeRef.Fits p m := by
  unfold Fits at *; omega

end InodeRef

/-! ## Loads and stores -/

section Rules

variable {inodeRef} {α : Type} {E : Errno → St → Prop} {s : St} {p q : Place}
variable {pos off len n m : ℕ}

theorem wp_access {Q : Unit → St → Prop} :
    wp (access inodeRef p off len) Q E s ↔ off + len ≤ inodeRef.bufSize p ∧ Q () s := by
  unfold access
  simp only [wp_ite, wp_pure, wp_crash]
  tauto

theorem wp_peek {Q : α → St → Prop} {f : Bytes → α} :
    wp (peek inodeRef p off len f) Q E s ↔
      off + len ≤ inodeRef.bufSize p ∧ Q (f (s.bytes p)) s := by
  unfold peek
  simp only [wp_bind, wp_access, wp_getState, wp_pure]

theorem wp_poke {Q : Unit → St → Prop} {f : Bytes → Bytes} :
    wp (poke inodeRef p off len f) Q E s ↔
      off + len ≤ inodeRef.bufSize p ∧ Q () (s.setBytes p (f (s.bytes p))) := by
  unfold poke
  simp only [wp_bind, wp_access, wp_update]

@[simp] theorem wp_loadHeader {Q : Ext4ExtentHeader → St → Prop} :
    wp (loadHeader inodeRef p) Q E s ↔ Q (s.bytes.header p) s := by
  have := inodeRef.bufSize_ge p
  unfold loadHeader
  rw [wp_peek, and_iff_right (by omega)]
  rfl

@[simp] theorem wp_storeHeader {Q : Unit → St → Prop} {h : Ext4ExtentHeader} :
    wp (storeHeader inodeRef p h) Q E s ↔
      Q () (s.setBytes p (headerStore (s.bytes p) h)) := by
  have := inodeRef.bufSize_ge p
  unfold storeHeader
  rw [wp_poke, and_iff_right (by omega)]

theorem entryOff_add_le_iff :
    entryOff pos + 12 ≤ inodeRef.bufSize p ↔ inodeRef.Fits p (pos + 1) := by
  unfold InodeRef.Fits entryOff ext4ExtentHeaderSize ext4ExtentSize
  omega

@[simp] theorem wp_loadExtent {Q : Ext4Extent → St → Prop} :
    wp (loadExtent inodeRef p pos) Q E s ↔
      inodeRef.Fits p (pos + 1) ∧ Q (s.bytes.extent p pos) s := by
  unfold loadExtent
  rw [wp_peek, entryOff_add_le_iff]
  rfl

@[simp] theorem wp_loadIndex {Q : Ext4ExtentIndex → St → Prop} :
    wp (loadIndex inodeRef p pos) Q E s ↔
      inodeRef.Fits p (pos + 1) ∧ Q (s.bytes.index p pos) s := by
  unfold loadIndex
  rw [wp_peek, entryOff_add_le_iff]
  rfl

@[simp] theorem wp_storeExtent {Q : Unit → St → Prop} {e : Ext4Extent} :
    wp (storeExtent inodeRef p pos e) Q E s ↔ inodeRef.Fits p (pos + 1) ∧
      Q () (s.setBytes p (extentStore (s.bytes p) (entryOff pos) e)) := by
  unfold storeExtent
  rw [wp_poke, entryOff_add_le_iff]

@[simp] theorem wp_storeIndex {Q : Unit → St → Prop} {x : Ext4ExtentIndex} :
    wp (storeIndex inodeRef p pos x) Q E s ↔ inodeRef.Fits p (pos + 1) ∧
      Q () (s.setBytes p (indexStore (s.bytes p) (entryOff pos) x)) := by
  unfold storeIndex
  rw [wp_poke, entryOff_add_le_iff]

theorem loadExtent_eq (hin : inodeRef.Fits p (pos + 1)) :
    loadExtent inodeRef p pos s = .ok (s.bytes.extent p pos) s := by
  unfold loadExtent peek access
  rw [if_pos (entryOff_add_le_iff.mpr hin)]
  rfl

theorem loadIndex_eq (hin : inodeRef.Fits p (pos + 1)) :
    loadIndex inodeRef p pos s = .ok (s.bytes.index p pos) s := by
  unfold loadIndex peek access
  rw [if_pos (entryOff_add_le_iff.mpr hin)]
  rfl

theorem wp_loadKey {Q : ℕ → St → Prop} (hin : inodeRef.Fits p (pos + 1)) :
    wp (loadKey inodeRef p pos) Q E s ↔ Q (s.bytes.key p pos) s := by
  have := entryOff_add_le_iff.mpr hin
  unfold loadKey
  rw [wp_peek, and_iff_right (by omega)]
  rfl

theorem entryOff_add_mul_le_iff :
    entryOff pos + n * 12 ≤ inodeRef.bufSize p ↔ inodeRef.Fits p (pos + n) := by
  unfold InodeRef.Fits entryOff ext4ExtentHeaderSize ext4ExtentSize
  omega

@[simp] theorem wp_moveEntries {Q : Unit → St → Prop} {dst src : ℕ} :
    wp (moveEntries inodeRef p dst src n) Q E s ↔
      inodeRef.Fits p (dst + n) ∧ inodeRef.Fits p (src + n) ∧
      Q () (s.setBytes p
        ((s.bytes p).copy (entryOff dst) (s.bytes p) (entryOff src) (n * 12))) := by
  unfold moveEntries
  rw [wp_bind, wp_access, wp_poke, entryOff_add_mul_le_iff, entryOff_add_mul_le_iff]

@[simp] theorem wp_copyEntries {Q : Unit → St → Prop} {dst src : ℕ} :
    wp (copyEntries inodeRef p dst q src n) Q E s ↔
      inodeRef.Fits q (src + n) ∧ inodeRef.Fits p (dst + n) ∧
      Q () (s.setBytes p
        ((s.bytes p).copy (entryOff dst) (s.bytes q) (entryOff src) (n * 12))) := by
  unfold copyEntries
  simp only [wp_bind, wp_access, wp_getState, wp_poke, entryOff_add_mul_le_iff]

theorem wp_clear {Q : Unit → St → Prop} :
    wp (clear inodeRef p off len) Q E s ↔ off + len ≤ inodeRef.bufSize p ∧
      Q () (s.setBytes p ((s.bytes p).zero off len)) := wp_poke

@[simp] theorem wp_setInodeDirty {Q : Unit → St → Prop} :
    wp setInodeDirty Q E s ↔ Q () { s with dirty := true } := Iff.rfl

/-! ## Outside calls -/

@[simp] theorem wp_check {Q : Unit → St → Prop} {r : Option Errno} :
    wp (check r) Q E s ↔ (r = none → Q () s) ∧ ∀ e, r = some e → E e s := by
  cases r <;> simp [check]

@[simp] theorem wp_callIo {Q : Option Errno → St → Prop} {c : IoCall} :
    wp (callIo inodeRef c) Q E s ↔
      Q (inodeRef.lwext4.io c s.trace) (s.log (.io c (inodeRef.lwext4.io c s.trace))) := by
  unfold callIo
  simp only [wp_bind, wp_getState, wp_update, wp_pure]

/-- A call whose result is checked at once. -/
theorem wp_checked_callIo {Q : Unit → St → Prop} {c : IoCall} :
    wp (callIo inodeRef c >>= check) Q E s ↔
      (inodeRef.lwext4.io c s.trace = none → Q () (s.log (.io c none))) ∧
      ∀ e, inodeRef.lwext4.io c s.trace = some e → E e (s.log (.io c (some e))) := by
  rw [wp_bind, wp_callIo, wp_check]
  cases h : inodeRef.lwext4.io c s.trace <;> simp

@[simp] theorem wp_nodeBlockGet {Q : Unit → St → Prop} {site : Site} {b : ℕ} :
    wp (nodeBlockGet inodeRef site b) Q E s ↔
      (inodeRef.lwext4.io (.transBlockGet site b) s.trace = none →
        Q () (s.log (.io (.transBlockGet site b) none))) ∧
      ∀ e, inodeRef.lwext4.io (.transBlockGet site b) s.trace = some e →
        E e (s.log (.io (.transBlockGet site b) (some e))) := wp_checked_callIo

@[simp] theorem wp_transBlockGetNoread {Q : Unit → St → Prop} {b : ℕ} :
    wp (transBlockGetNoread inodeRef b) Q E s ↔
      (inodeRef.lwext4.io (.transBlockGetNoread b) s.trace = none →
        Q () (s.log (.io (.transBlockGetNoread b) none))) ∧
      ∀ e, inodeRef.lwext4.io (.transBlockGetNoread b) s.trace = some e →
        E e (s.log (.io (.transBlockGetNoread b) (some e))) := wp_checked_callIo

@[simp] theorem wp_blockSet {Q : Unit → St → Prop} {b : ℕ} :
    wp (blockSet inodeRef b) Q E s ↔
      (inodeRef.lwext4.io (.blockSet b) s.trace = none → Q () (s.log (.io (.blockSet b) none))) ∧
      ∀ e, inodeRef.lwext4.io (.blockSet b) s.trace = some e →
        E e (s.log (.io (.blockSet b) (some e))) := wp_checked_callIo

@[simp] theorem wp_ballocFreeBlock {Q : Unit → St → Prop} {b : ℕ} :
    wp (ballocFreeBlock inodeRef b) Q E s ↔
      (inodeRef.lwext4.io (.ballocFreeBlock b) s.trace = none →
        Q () (s.log (.io (.ballocFreeBlock b) none))) ∧
      ∀ e, inodeRef.lwext4.io (.ballocFreeBlock b) s.trace = some e →
        E e (s.log (.io (.ballocFreeBlock b) (some e))) := wp_checked_callIo

@[simp] theorem wp_ballocFreeBlocks {Q : Unit → St → Prop} {first count : ℕ} :
    wp (ballocFreeBlocks inodeRef first count) Q E s ↔
      (inodeRef.lwext4.io (.ballocFreeBlocks first count) s.trace = none →
        Q () (s.log (.io (.ballocFreeBlocks first count) none))) ∧
      ∀ e, inodeRef.lwext4.io (.ballocFreeBlocks first count) s.trace = some e →
        E e (s.log (.io (.ballocFreeBlocks first count) (some e))) := wp_checked_callIo

@[simp] theorem wp_ballocAllocBlock {Q : ℕ → St → Prop} {goal : ℕ} :
    wp (ballocAllocBlock inodeRef goal) Q E s ↔
      (∀ b, inodeRef.lwext4.ballocAllocBlock goal s.trace = .ok b →
        Q b (s.log (.ballocAllocBlock goal (.ok b)))) ∧
      ∀ e, inodeRef.lwext4.ballocAllocBlock goal s.trace = .error e →
        E e (s.log (.ballocAllocBlock goal (.error e))) := by
  unfold ballocAllocBlock
  simp only [wp_bind, wp_getState, wp_update]
  cases h : inodeRef.lwext4.ballocAllocBlock goal s.trace <;> simp

@[simp] theorem wp_requireJournaledMutation {Q : Unit → St → Prop} :
    wp (requireJournaledMutation inodeRef) Q E s ↔
      (inodeRef.inTransaction = true → Q () s) ∧
      (inodeRef.inTransaction = false → E .enotsup s) := by
  unfold requireJournaledMutation
  simp only [wp_ite, wp_pure, wp_raise, Bool.not_eq_true]

end Rules

/-! ## Reading changes nothing -/

/-- The call allocates and frees nothing. -/
def Event.quiet : Event → Bool
  | .io (.ballocFreeBlock _) _ => false
  | .io (.ballocFreeBlocks _ _) _ => false
  | .ballocAllocBlock _ _ => false
  | _ => true

/-- `s'` is `s` after some quiet calls. -/
structure Reads (s s' : St) : Prop where
  bytes : s'.bytes = s.bytes
  dirty : s'.dirty = s.dirty
  trace : ∃ evs, s'.trace = evs ++ s.trace ∧ ∀ ev ∈ evs, Event.quiet ev = true

namespace Reads

variable {s s' s'' : St}

theorem refl (s : St) : Reads s s := ⟨rfl, rfl, [], rfl, by simp⟩

theorem trans (h : Reads s s') (h' : Reads s' s'') : Reads s s'' := by
  obtain ⟨evs, ht, hq⟩ := h.trace
  obtain ⟨evs', ht', hq'⟩ := h'.trace
  refine ⟨h'.bytes.trans h.bytes, h'.dirty.trans h.dirty,
    evs' ++ evs, by rw [ht', ht, List.append_assoc], ?_⟩
  intro ev hev
  rcases List.mem_append.mp hev with hev | hev
  · exact hq' ev hev
  · exact hq ev hev

theorem log {ev : Event} (h : Reads s s') (hev : ev.quiet = true) : Reads s (s'.log ev) := by
  obtain ⟨evs, ht, hq⟩ := h.trace
  refine ⟨h.bytes, h.dirty, ev :: evs, by rw [St.trace_log, ht]; rfl, ?_⟩
  intro ev' hev'
  rcases List.mem_cons.mp hev' with rfl | hev'
  · exact hev
  · exact hq ev' hev'

theorem suffix (h : Reads s s') : s.trace <:+ s'.trace := by
  obtain ⟨evs, ht, -⟩ := h.trace
  exact ⟨evs, ht.symm⟩

end Reads

/-- Releasing a held block is quiet, whatever it reports. -/
theorem wp_releaseHeld {inodeRef : InodeRef} {held : Option ℕ} {Q : Unit → St → Prop}
    {E : Errno → St → Prop} {s : St} (hQ : ∀ s', Reads s s' → Q () s')
    (hE : ∀ e s', Reads s s' → E e s') : wp (releaseHeld inodeRef held) Q E s := by
  cases held with
  | none => exact hQ s (.refl s)
  | some b =>
      show wp (blockSet inodeRef b) Q E s
      rw [wp_blockSet]
      exact ⟨fun _ => hQ _ ((Reads.refl s).log rfl), fun e _ => hE e _ ((Reads.refl s).log rfl)⟩

end EspLwext4
