import EspLwext4.Extent.Slots

/-!
# Rewriting one node

`Rewrote` is what a rewrite of one node does: its header and its entries change,
its checksum is brought up to date, no other block changes, and nothing is
allocated or freed. The functions that edit the entries of a node in place are
specified by what they do to `slots`.
-/

namespace EspLwext4

open Prog Bytes

variable (inodeRef : InodeRef)

/-- The call obtains a block. -/
def IoCall.obtains : IoCall → Bool
  | .transBlockGet _ _ => true
  | .transBlockGetNoread _ => true
  | _ => false

/-- Only calls that obtain a block fail. -/
structure WritesSucceed : Prop where
  io : ∀ c tr, c.obtains = false → inodeRef.lwext4.io c tr = none

/-- Between `s` and `s'` nothing was allocated or freed. -/
def Quiet (s s' : St) : Prop :=
  ∃ evs, s'.trace = evs ++ s.trace ∧ ∀ ev ∈ evs, Event.quiet ev = true

namespace Quiet

variable {s s' s'' : St}

theorem refl (s : St) : Quiet s s := ⟨[], rfl, by simp⟩

theorem trans (h : Quiet s s') (h' : Quiet s' s'') : Quiet s s'' := by
  obtain ⟨evs, ht, hq⟩ := h
  obtain ⟨evs', ht', hq'⟩ := h'
  refine ⟨evs' ++ evs, by rw [ht', ht, List.append_assoc], fun ev hev => ?_⟩
  rcases List.mem_append.mp hev with hev | hev
  · exact hq' ev hev
  · exact hq ev hev

theorem log {ev : Event} (h : Quiet s s') (hev : ev.quiet = true) : Quiet s (s'.log ev) :=
  h.trans ⟨[ev], rfl, by simpa using hev⟩

theorem setBytes (h : Quiet s s') (p : Place) (d : Bytes) : Quiet s (s'.setBytes p d) := h

theorem suffix (h : Quiet s s') : s.trace <:+ s'.trace :=
  let ⟨evs, ht, _⟩ := h
  ⟨evs, ht.symm⟩

end Quiet

theorem Reads.quiet {s s' : St} (h : Reads s s') : Quiet s s' := h.trace

/-- The node `b` was rewritten to the header `h` and the entries `es`. -/
structure Rewrote (s s' : St) (b : ℕ) (h : Ext4ExtentHeader) (es : List Ext4Extent) : Prop where
  quiet : Quiet s s'
  others : ∀ p, p ≠ Place.of b → s'.bytes p = s.bytes p
  header : s'.bytes.header (Place.of b) = h
  slots : s'.bytes.slots (Place.of b) = es
  csum : b ≠ 0 → CsumOk inodeRef (s'.bytes (Place.of b))

/-! ## Checksums -/

section Checksum

variable {inodeRef} {d : Bytes} {b : ℕ}

theorem headerLoad_withChecksum : headerLoad (withChecksum inodeRef d) = headerLoad d := by
  unfold withChecksum
  split
  · refine headerLoad_congr fun k hk => writeLe32_of_outside (Or.inl ?_)
    unfold tailOffset ext4ExtentHeaderSize
    omega
  · rfl

/-- The checksum lies behind the entries. -/
theorem slots_withChecksum (h : (headerLoad d).entriesCount ≤ (headerLoad d).maxEntriesCount) :
    slots (withChecksum inodeRef d) = slots d := by
  unfold slots
  rw [headerLoad_withChecksum]
  refine extentLayout.records_congr fun i hi => extentLayout.get_congr fun k _ hk => ?_
  unfold withChecksum
  split
  · refine writeLe32_of_outside (Or.inl ?_)
    have hw : extentLayout.width = 12 := rfl
    rw [entryOff_eq_extent, hw] at hk
    unfold entryOff ext4ExtentHeaderSize ext4ExtentSize at hk
    unfold tailOffset ext4ExtentHeaderSize ext4ExtentSize
    omega
  · rfl

theorem extentBlockChecksum_congr {d' : Bytes} {n : ℕ} (h : ∀ i < n, d i = d' i) :
    extentBlockChecksum inodeRef d n = extentBlockChecksum inodeRef d' n := by
  unfold extentBlockChecksum
  rw [List.map_congr_left fun i hi => h i (List.mem_range.mp hi)]

theorem extentBlockChecksum_lt (n : ℕ) : extentBlockChecksum inodeRef d n < 4294967296 := by
  unfold extentBlockChecksum
  exact UInt32.toNat_lt _

/-- A checksum written passes the check. -/
theorem csumOk_withChecksum (hh : HeaderOk inodeRef (.block b) (headerLoad d)) :
    CsumOk inodeRef (withChecksum inodeRef d) := by
  intro hc
  rw [headerLoad_withChecksum]
  refine ⟨hh.magic, hh.tail, ?_⟩
  unfold withChecksum
  rw [if_pos hc, readLe32_writeLe32, Nat.mod_eq_of_lt (extentBlockChecksum_lt _)]
  exact extentBlockChecksum_congr fun i hi => (writeLe32_of_outside (Or.inl hi)).symm

end Checksum

/-! ## The two ends of a rewrite -/

section Ends

variable {inodeRef} {E : Errno → St → Prop} {s s₁ : St} {b : ℕ} {d : Bytes}
variable {node : ExtentPathNode} {Q : Unit → St → Prop}

theorem wp_getForWrite (site : Site) (hQ : ∀ s', Reads s s' → Q () s')
    (hE : ∀ e s', Reads s s' → ReadFailed inodeRef s s' site e → E e s') :
    wp (getForWrite inodeRef site node) Q E s := by
  unfold getForWrite
  rw [wp_ite]
  constructor
  · intro _
    exact hQ s (.refl s)
  · intro _
    exact wp_mono (wp_nodeBlockGet_reads _ _) (fun _ s' h => hQ s' h)
      fun e s' h => hE e s' h.1 h.2

/-- A call that obtains nothing failed. -/
theorem not_writesSucceed {c : IoCall} {tr : List Event} {e : Errno} (hc : c.obtains = false)
    (he : inodeRef.lwext4.io c tr = some e) : ¬ WritesSucceed inodeRef := by
  intro hw
  rw [hw.io c tr hc] at he
  cases he

section Writes

variable (hE : ¬ WritesSucceed inodeRef → ∀ e s', E e s')

include hE

theorem wp_blockSet_ok (hQ : ∀ s', Reads s s' → Q () s') : wp (blockSet inodeRef b) Q E s := by
  rw [wp_blockSet]
  exact ⟨fun _ => hQ _ ((Reads.refl s).log rfl), fun e he => hE (not_writesSucceed rfl he) e _⟩

theorem wp_ballocFreeBlocks_ok {first count : ℕ}
    (hQ : Q () (s.log (.io (.ballocFreeBlocks first count) none))) :
    wp (ballocFreeBlocks inodeRef first count) Q E s := by
  rw [wp_ballocFreeBlocks]
  exact ⟨fun _ => hQ, fun e he => hE (not_writesSucceed rfl he) e _⟩

theorem wp_nodeBlockPut_ok (hQ : ∀ s', Reads s s' → Q () s') :
    wp (nodeBlockPut inodeRef b) Q E s := by
  unfold nodeBlockPut
  rw [wp_bind, wp_callIo, wp_bind, wp_callIo, wp_check]
  refine ⟨fun _ => hQ _ (((Reads.refl s).log rfl).log rfl), fun e he => hE ?_ e _⟩
  rcases hdirty : inodeRef.lwext4.io (.transSetBlockDirty b) s.trace with _ | e'
  · rw [hdirty] at he
    exact not_writesSucceed (c := .blockSet b) rfl he
  · exact not_writesSucceed rfl hdirty

theorem wp_releaseNode_ok (hQ : ∀ s', Reads s s' → Q () s') :
    wp (releaseNode inodeRef node) Q E s := by
  unfold releaseNode
  rw [wp_ite]
  exact ⟨fun _ => hQ s (.refl s), fun _ => wp_blockSet_ok hE hQ⟩

/-- Finishing a block whose buffer holds `d`. -/
theorem wp_finishBlock
    (hs : s₁.bytes = s.bytes.set (.block b) d) (hq : Quiet s s₁)
    (hh : HeaderOk inodeRef (.block b) (headerLoad d)) (hb : b ≠ 0)
    (hQ : ∀ s', Rewrote inodeRef s s' b (headerLoad d) (slots d) → Q () s') :
    wp (finishBlock inodeRef b) Q E s₁ := by
  have hd : s₁.bytes (.block b) = d := by rw [hs, Disk.set_self]
  have hplace : Place.of b = .block b := Place.of_ne_zero hb
  -- what is known once the checksum stands
  have done (s₂ s' : St) (hq₂ : Quiet s s₂) (h' : Reads s₂ s')
      (hs₂ : s₂.bytes = s.bytes.set (.block b) (withChecksum inodeRef d)) :
      Rewrote inodeRef s s' b (headerLoad d) (slots d) := by
    refine ⟨hq₂.trans h'.quiet, ?_, ?_, ?_, ?_⟩
    · intro p hp
      rw [h'.bytes, hs₂]
      exact s.bytes.set_ne _ (by rwa [← hplace])
    · unfold Disk.header
      rw [h'.bytes, hs₂, hplace, Disk.set_self, headerLoad_withChecksum]
    · unfold Disk.slots
      rw [h'.bytes, hs₂, hplace, Disk.set_self, slots_withChecksum hh.count]
    · intro _
      rw [h'.bytes, hs₂, hplace, Disk.set_self]
      exact csumOk_withChecksum hh
  unfold finishBlock
  rw [wp_bind, wp_onError]
  refine wp_setExtentBlockChecksum (by rw [hd]; exact hh.magic) (by rw [hd]; exact hh.tail) ?_ ?_
  · refine wp_nodeBlockPut_ok hE fun s' h' => hQ s' (done _ s' (hq.setBytes _ _) h' ?_)
    rw [St.bytes_setBytes, hd, hs, Disk.set_set]
  · intro hc
    refine wp_nodeBlockPut_ok hE fun s' h' => hQ s' (done _ s' hq h' ?_)
    rw [hs]
    unfold withChecksum
    rw [if_neg (by simp [hc])]

theorem wp_finishNode (hb : node.pblockOfNode = b)
    (hs : s₁.bytes = s.bytes.set (Place.of b) d) (hq : Quiet s s₁)
    (hh : HeaderOk inodeRef (Place.of b) (headerLoad d))
    (hQ : ∀ s', Rewrote inodeRef s s' b (headerLoad d) (slots d) → Q () s') :
    wp (finishNode inodeRef node) Q E s₁ := by
  unfold finishNode
  rw [hb, wp_ite]
  constructor
  · rintro rfl
    refine wp_setInodeDirty.mpr (hQ _ ⟨hq, ?_, ?_, ?_, fun h => absurd rfl h⟩)
    · intro p hp
      show s₁.bytes p = _
      rw [hs]
      exact s.bytes.set_ne _ hp
    · show headerLoad (s₁.bytes _) = _
      rw [hs, Disk.set_self]
    · show slots (s₁.bytes _) = _
      rw [hs, Disk.set_self]
  · intro h0
    rw [Place.of_ne_zero h0] at hs hh
    exact wp_finishBlock hE hs hq hh h0 hQ

end Writes

end Ends

end EspLwext4
