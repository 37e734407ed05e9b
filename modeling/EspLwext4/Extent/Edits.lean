import EspLwext4.Extent.Located

/-!
# Edits of a node as edits of its entries

Each of the stores the code makes into a node it holds ends in a state in which
that node has a new header and a new list of entries; finishing the node makes a
`Rewrote` of it, and `Rewrote` puts another tree in the hole of a context.
-/

namespace EspLwext4

open Prog Bytes Ranged

variable (inodeRef : InodeRef) (g : Grade)

/-- `s'` is `s` with the header `h` and the entries `es` at `p`. -/
def Stored (s : St) (p : Place) (h : Ext4ExtentHeader) (es : List Ext4Extent) (s' : St) : Prop :=
  ∃ d, s' = s.setBytes p d ∧ headerLoad d = h ∧ slots d = es

/-- The header with another entry count. -/
def Ext4ExtentHeader.withCount (h : Ext4ExtentHeader) (n : ℕ) : Ext4ExtentHeader :=
  { h with entriesCount := n }

section Lemmas

variable {inodeRef g} {D : Disk} {s s₁ s' : St} {p : Place} {h : Ext4ExtentHeader}
variable {l r es : List Ext4Extent} {x y : Ext4Extent} {pos n b d e : ℕ} {node : ExtentPathNode}

theorem Ext4ExtentHeader.Fits.withCount (hf : h.Fits) (hn : n < 65536) : (h.withCount n).Fits :=
  ⟨hf.magic, hn, hf.maxEntriesCount, hf.depth, hf.generation⟩

theorem HeaderOk.withCount (hh : HeaderOk inodeRef p h) (hn : n ≤ h.maxEntriesCount) :
    HeaderOk inodeRef p (h.withCount n) := ⟨hh.magic, hh.depth, hh.pos, hn, hh.max⟩

theorem HeaderOk.max_lt (hh : HeaderOk inodeRef p h) : h.maxEntriesCount < 65536 := by
  have hmax := hh.max
  have hcap := inodeRef.capacity_le
  cases p with
  | root =>
      have h4 : h.maxEntriesCount ≤ 4 := hmax
      omega
  | block b =>
      have hb : h.maxEntriesCount ≤ capacity inodeRef := hmax
      omega

theorem Disk.header_fits (D : Disk) (p : Place) : (D.header p).Fits := headerLoad_fits _

/-- The child that an index entry names, read back from a node. -/
theorem Ext4ExtentIndex.child_asExtent {x : Ext4ExtentIndex} (hf : x.Fits) :
    x.asExtent.child = (x.firstBlock, indexGetPblock x) := by
  unfold Ext4Extent.child
  rw [Ext4ExtentIndex.asIndex_asExtent hf]
  rfl

@[simp] theorem St.setBytes_self (s : St) (p : Place) : s.setBytes p (s.bytes p) = s := by
  unfold St.setBytes
  congr 1
  funext q
  unfold Disk.set
  split
  · rename_i hq
    rw [hq]
  · rfl

/-! ## Replacing an entry -/

theorem records_storedAt {d d' : Bytes} (hs : slots d = l ++ x :: r) (hpos : pos = l.length)
    (hhead : headerLoad d' = headerLoad d) (hy : extentLayout.get d' pos = y)
    (hne : ∀ i, i ≠ pos → extentLayout.get d' i = extentLayout.get d i) : slots d' = l ++ y :: r := by
  subst hpos
  unfold slots at hs ⊢
  rw [hhead]
  exact extentLayout.records_set hs hy fun i _ hi => hne i hi

theorem wp_storeExtent_stored (hs : s.bytes.slots p = l ++ x :: r) (hpos : pos = l.length)
    (hy : y.Fits) (hfits : inodeRef.Fits p (pos + 1)) :
    wp (storeExtent inodeRef p pos y) (fun _ => Stored s p (s.bytes.header p) (l ++ y :: r))
      (fun _ _ => False) s := by
  rw [wp_storeExtent]
  refine ⟨hfits, _, rfl, headerLoad_extentStore y, ?_⟩
  exact records_storedAt hs hpos (headerLoad_extentStore y) (extent_get_extentStore_self hy)
    fun i hi => extent_get_extentStore_ne hi

theorem wp_storeIndex_stored {y : Ext4ExtentIndex} (hs : s.bytes.slots p = l ++ x :: r)
    (hpos : pos = l.length) (hy : y.Fits) (hfits : inodeRef.Fits p (pos + 1)) :
    wp (storeIndex inodeRef p pos y)
      (fun _ => Stored s p (s.bytes.header p) (l ++ y.asExtent :: r)) (fun _ _ => False) s := by
  rw [wp_storeIndex]
  refine ⟨hfits, _, rfl, headerLoad_indexStore y, ?_⟩
  exact records_storedAt hs hpos (headerLoad_indexStore y) (extent_get_indexStore_self hy)
    fun i hi => extent_get_indexStore_ne hi

/-! ## Inserting an entry -/

/-- Shifting the entries behind `pos` up by one. -/
theorem wp_open {Q : Unit → St → Prop} {E : Errno → St → Prop}
    (hfits : inodeRef.Fits p (n + 1)) (hQ : Q () (s.setBytes p (opened (s.bytes p) pos n))) :
    wp (whenever (pos < n) (moveEntries inodeRef p (pos + 1) pos (n - pos))) Q E s := by
  rw [wp_whenever]
  unfold opened at hQ
  constructor
  · intro hlt
    rw [if_pos hlt] at hQ
    exact wp_moveEntries.mpr ⟨hfits.mono (by omega), hfits.mono (by omega), hQ⟩
  · intro hge
    rw [if_neg hge] at hQ
    rwa [St.setBytes_self] at hQ

theorem slots_inserted {d d₁ : Bytes} (hf : h.Fits)
    (hs : extentLayout.records d n = l ++ r) (hpos : pos = l.length) (hn : n + 1 < 65536)
    (hy : extentLayout.get d₁ pos = y)
    (hne : ∀ i, i ≠ pos → extentLayout.get d₁ i = extentLayout.get (opened d pos n) i) :
    slots (headerStore d₁ (h.withCount (n + 1))) = l ++ y :: r := by
  rw [slots_headerStore (hf.withCount hn)]
  exact records_opened hs hpos hy hne

theorem wp_placeExtent (hp : node.place = p) (hf : node.header.Fits)
    (hs : s.bytes.slots p = l ++ r) (hcount : node.header.entriesCount = (l ++ r).length)
    (hpos : pos = l.length) (hy : y.Fits) (hfits : inodeRef.Fits p ((l ++ r).length + 1))
    (hlt : (l ++ r).length + 1 < 65536) :
    wp (placeExtent inodeRef node pos y)
      (fun _ => Stored s p (node.header.withCount ((l ++ r).length + 1)) (l ++ y :: r))
      (fun _ _ => False) s := by
  have hrec : extentLayout.records (s.bytes p) (l ++ r).length = l ++ r := by
    have hlen : (headerLoad (s.bytes p)).entriesCount = (l ++ r).length := by
      rw [← hs]
      exact Disk.length_slots.symm
    rw [← hlen]
    exact hs
  have hfit : (node.header.withCount ((l ++ r).length + 1)).Fits := hf.withCount hlt
  unfold placeExtent
  rw [hp, hcount, wp_bind]
  refine wp_open hfits ?_
  rw [wp_bind, wp_storeExtent]
  refine ⟨hfits.mono (by rw [hpos, List.length_append]; omega), ?_⟩
  rw [wp_storeHeader, u16_of_lt hlt]
  simp only [St.setBytes_setBytes, St.bytes_setBytes, Disk.set_self]
  exact ⟨_, rfl, headerLoad_headerStore hfit, slots_inserted hf hrec hpos hlt
    (extent_get_extentStore_self hy) fun i hi => extent_get_extentStore_ne hi⟩

/-! ## Finishing -/

theorem wp_finishNode_stored (hb : node.pblockOfNode = b)
    (hr : Quiet s₁ s) (hbytes : s.bytes = s₁.bytes) (hs : Stored s (Place.of b) h es s')
    (hh : HeaderOk inodeRef (Place.of b) h) :
    wp (finishNode inodeRef node) (fun _ s₂ => Rewrote inodeRef s₁ s₂ b h es)
      (fun _ _ => ¬ WritesSucceed inodeRef) s' := by
  obtain ⟨d, rfl, rfl, rfl⟩ := hs
  exact wp_finishNode (fun h _ _ => h) hb (by rw [St.bytes_setBytes, hbytes]) (hr.setBytes _ _) hh
    fun s₂ h₂ => h₂

theorem wp_finishBlock_stored (hb : b ≠ 0)
    (hr : Quiet s₁ s) (hbytes : s.bytes = s₁.bytes) (hs : Stored s (.block b) h es s')
    (hh : HeaderOk inodeRef (.block b) h) :
    wp (finishBlock inodeRef b) (fun _ s₂ => Rewrote inodeRef s₁ s₂ b h es)
      (fun _ _ => ¬ WritesSucceed inodeRef) s' := by
  obtain ⟨d, rfl, rfl, rfl⟩ := hs
  exact wp_finishBlock (fun h _ _ => h) (by rw [St.bytes_setBytes, hbytes]) (hr.setBytes _ _) hh hb
    fun s₂ h₂ => h₂

/-- Collapsing the root changes the depth in its header. -/
theorem wp_collapseRoot_header {Q : Unit → St → Prop} {E : Errno → St → Prop}
    (hQ : ∀ s', s'.trace = s.trace →
      s'.bytes.header .root = { s.bytes.header .root with depth := 0 } → Q () s') :
    wp (collapseRoot inodeRef) Q E s := by
  have hfits := Disk.header_fits s.bytes .root
  unfold collapseRoot
  rw [wp_bind, wp_loadHeader, wp_bind, wp_storeHeader, wp_setInodeDirty]
  refine hQ _ rfl ?_
  unfold Disk.header
  dsimp only
  rw [St.bytes_setBytes, Disk.set_self]
  exact headerLoad_headerStore ⟨hfits.magic, hfits.entriesCount, hfits.maxEntriesCount,
    Nat.zero_lt_succ _, hfits.generation⟩

/-! ## A rewritten node in its context -/

theorem Rewrote.repAt {u : SepTree Ext4Extent d} (hr : Rewrote inodeRef s s' u.addr h es)
    (hh : HeaderOk inodeRef (Place.of u.addr) h) (hd : h.depth = d)
    (hdecl : g.Declares inodeRef u.addr h.maxEntriesCount) (hlists : Lists es u) :
    RepAt inodeRef g s'.bytes u := by
  refine ⟨⟨⟨by rwa [hr.header], by rwa [hr.header], hr.csum⟩, by rwa [hr.header]⟩, ?_⟩
  unfold Shows
  rwa [hr.slots]

theorem Rewrote.bytes_eq (hr : Rewrote inodeRef s s' b h es) {a : ℕ} (ha : a ≠ b) :
    s'.bytes (Place.of a) = s.bytes (Place.of a) :=
  hr.others _ fun heq => ha (Place.of_injective heq)

/-- The nodes around a hole stand when only the node in it was rewritten. -/
theorem Rewrote.around {c : Ctx Ext4Extent d e} {u u' : SepTree Ext4Extent d}
    (hr : Rewrote inodeRef s s' b h es) (hc : c.Around (RepAt inodeRef g s.bytes) u)
    (hb : b ∉ c.addrs) (haddr : u'.addr = u.addr) : c.Around (RepAt inodeRef g s'.bytes) u' := by
  refine Ctx.rep_congr (Ctx.rep_frame hc fun a ha => hr.bytes_eq ?_) haddr
  rintro rfl
  exact hb ha

/-- Subtrees elsewhere stand. -/
theorem Rewrote.rep {u : SepTree Ext4Extent d} (hr : Rewrote inodeRef s s' b h es)
    (hu : Rep inodeRef g s.bytes u) (hb : b ∉ u.addrs) : Rep inodeRef g s'.bytes u := by
  refine Rep.frame hu fun a ha => hr.bytes_eq ?_
  rintro rfl
  exact hb ha

end Lemmas

end EspLwext4
