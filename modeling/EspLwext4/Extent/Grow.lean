import EspLwext4.Extent.Holding

/-!
# Growing the root

`grow_indepth` moves the root's entries into a new block and makes that block the
only child: on the tree this is `SepTree.raise`.
-/

namespace EspLwext4

open Prog Bytes Ranged

variable (inodeRef : InodeRef) (g : Grade)

section Lemmas

variable {inodeRef g} {D : Disk} {s s₁ s' : St} {p q : Place} {h : Ext4ExtentHeader}
variable {es : List Ext4Extent} {b n d src mid k : ℕ} {E : Errno → St → Prop}

/-- How many entries the root declares. -/
def Disk.rootMax (D : Disk) : ℕ := (D.header .root).maxEntriesCount

/-! ## A new node -/

/-- A rewrite that leaves the capacity of the root alone. -/
theorem Rewrote.rootMax (hr : Rewrote inodeRef s s' b h es)
    (hmax : b = 0 → h.maxEntriesCount = s.bytes.rootMax) : s'.bytes.rootMax = s.bytes.rootMax := by
  rcases Nat.eq_zero_or_pos b with rfl | hb
  · exact (congrArg (·.maxEntriesCount) hr.header).trans (hmax rfl)
  · unfold Disk.rootMax Disk.header
    rw [hr.others .root (by rw [Place.of_ne_zero (Nat.pos_iff_ne_zero.mp hb)]; exact nofun)]

theorem headerLoad_zero {d : Bytes} {o : ℕ} (ho : 12 ≤ o) : headerLoad (d.zero o n) = headerLoad d :=
  headerLoad_congr fun _ hk => zero_of_outside (Or.inl (by omega))

theorem wp_transBlockGetNoread_reads :
    wp (transBlockGetNoread inodeRef b) (fun _ s' => Reads s s')
      (fun err s' => Reads s s' ∧ Troubled inodeRef s s' err) s := by
  rw [wp_transBlockGetNoread]
  exact ⟨fun _ => (Reads.refl s).log rfl,
    fun e he => ⟨(Reads.refl s).log rfl, (CallFailed.here List.suffix_rfl he).troubled⟩⟩

theorem wp_ballocFreeBlock_ok {Q : Unit → St → Prop}
    (hE : ¬ WritesSucceed inodeRef → ∀ e s', E e s')
    (hQ : Q () (s.log (.io (.ballocFreeBlock b) none))) : wp (ballocFreeBlock inodeRef b) Q E s := by
  rw [wp_ballocFreeBlock]
  exact ⟨fun _ => hQ, fun e he => hE (not_writesSucceed rfl he) e _⟩

/-- The new block gets the entries of `q` from `src` on, also when it is `q` itself. -/
theorem wp_fillNewNode (hf : h.Fits) (hrec : extentLayout.records (s.bytes q) (src + n) = es)
    (hn : h.entriesCount = n) (hq : inodeRef.Fits q (src + n)) (hb : inodeRef.Fits (.block b) n) :
    wp (fillNewNode inodeRef b h q src n) (fun _ => Stored s (.block b) h (es.drop src))
      (fun _ _ => False) s := by
  unfold fillNewNode
  rw [wp_bind, wp_storeHeader, wp_copyEntries]
  refine ⟨hq, by rwa [Nat.zero_add], ?_⟩
  simp only [St.setBytes_setBytes, St.bytes_setBytes, Disk.set_self]
  have hsrc : extentLayout.records
      ((s.bytes.set (.block b) (headerStore (s.bytes (.block b)) h)) q) (src + n) = es := by
    by_cases heq : q = .block b
    · rw [heq, Disk.set_self, records_headerStore, ← heq, hrec]
    · rw [Disk.set_ne _ _ heq, hrec]
  refine ⟨_, rfl, (headerLoad_copy _).trans (headerLoad_headerStore hf), ?_⟩
  unfold slots
  rw [headerLoad_copy, headerLoad_headerStore hf, hn, ← hsrc]
  exact extentLayout.records_of_copy_drop

theorem Disk.records_of_slots {D : Disk} (h : D.slots p = es) (hlen : es.length = n) :
    extentLayout.records (D p) n = es := by
  rw [← hlen, ← h, Disk.length_slots]
  rfl

/-- The checksum of a node that is filled. -/
theorem wp_setChecksum_filled (hs : Stored s₁ (.block b) h es s)
    (hh : HeaderOk inodeRef (.block b) h) :
    wp (setExtentBlockChecksum inodeRef (.block b) false)
      (fun _ s' => ∃ d, s' = s₁.setBytes (.block b) d ∧ headerLoad d = h ∧ slots d = es ∧
        CsumOk inodeRef d) (fun _ _ => False) s := by
  obtain ⟨d, rfl, rfl, rfl⟩ := hs
  have hd : (s₁.setBytes (.block b) d).bytes (.block b) = d := by
    rw [St.bytes_setBytes, Disk.set_self]
  refine wp_setExtentBlockChecksum (by rw [hd]; exact hh.magic) (by rw [hd]; exact hh.tail) ?_ ?_
  · rw [hd, St.setBytes_setBytes]
    exact ⟨_, rfl, headerLoad_withChecksum, slots_withChecksum hh.count, csumOk_withChecksum hh⟩
  · intro hc
    refine ⟨d, rfl, rfl, rfl, fun hc' => ?_⟩
    rw [hc] at hc'
    cases hc'

/-- A filled node with its checksum, after some more calls. -/
theorem rewrote_of_filled {s₂ : St} {dat : Bytes} (hb : b ≠ 0) (hq : Quiet s s₁)
    (hbytes : ∀ p, p ≠ .block b → s₁.bytes p = s.bytes p) (hcsum : CsumOk inodeRef dat)
    (h₂ : Reads (s₁.setBytes (.block b) dat) s₂) :
    Rewrote inodeRef s s₂ b (headerLoad dat) (slots dat) := by
  have hplace : Place.of b = .block b := Place.of_ne_zero hb
  have hdat : s₂.bytes (Place.of b) = dat := by
    rw [h₂.bytes, hplace, St.bytes_setBytes, Disk.set_self]
  refine ⟨(hq.setBytes _ _).trans h₂.quiet, fun p hp => ?_, ?_, ?_, fun _ => hdat ▸ hcsum⟩
  · rw [hplace] at hp
    rw [h₂.bytes, St.bytes_setBytes, Disk.set_ne _ _ hp]
    exact hbytes p hp
  · unfold Disk.header
    rw [hdat]
  · unfold Disk.slots
    rw [hdat]

/-! ## Entries of parts of a node -/

theorem Lists.withAddr {u : SepTree Ext4Extent d} (hl : Lists es u) : Lists es (u.withAddr b) := by
  cases u with
  | leaf a es' => exact hl
  | node a cs => exact hl

theorem Lists.keys {u : SepTree Ext4Extent d} (hl : Lists es u) :
    es.map (·.firstBlock) = u.keys := by
  cases u with
  | leaf a es' =>
      obtain rfl : es = es' := hl
      rfl
  | node a cs =>
      have hmap : es.map (·.child) = cs.map fun c => (c.1, c.2.addr) := hl
      have := congrArg (List.map Prod.fst) hmap
      rwa [List.map_map, List.map_map] at this

theorem Lists.length {u : SepTree Ext4Extent d} (hl : Lists es u) : es.length = u.keys.length := by
  rw [← hl.keys, List.length_map]

theorem indexStorePblock_fits {k : ℕ} (hk : k < 4294967296) (b : ℕ) :
    (indexStorePblock ⟨k, 0, 0, 0⟩ b).Fits :=
  ⟨hk, Nat.mod_lt _ (by decide), Nat.mod_lt _ (by decide), Nat.zero_lt_succ _⟩

/-- The header of a new node. -/
theorem headerOk_new {depth : ℕ} (hn : n ≤ capacity inodeRef) (hd : depth ≤ 5) :
    HeaderOk inodeRef (.block b) ⟨ext4ExtentMagic, n, capacity inodeRef, depth, 0⟩ := by
  have hcap := inodeRef.capacity_ge
  exact ⟨rfl, hd, by dsimp only; omega, hn, Nat.le_refl _⟩

theorem fits_new {depth : ℕ} (hn : n ≤ capacity inodeRef) (hd : depth ≤ 5) :
    Ext4ExtentHeader.Fits ⟨ext4ExtentMagic, n, capacity inodeRef, depth, 0⟩ := by
  have hcap := inodeRef.capacity_le
  exact ⟨show ext4ExtentMagic < 65536 by decide, by dsimp only; omega, by dsimp only; omega,
    by dsimp only; omega, Nat.zero_lt_succ _⟩

/-! ## Raising the tree -/

variable {base : Multiset ℕ} {t : SepTree Ext4Extent d}

theorem TreeOk.raise (ok : TreeOk inodeRef g t) (hk : t.keys.head? = some k) (h0 : b ≠ 0)
    (hlt : b < inodeRef.blocksCnt) (hb : b ∉ t.addrs) : TreeOk inodeRef g (t.raise b k) := by
  have hne : t.keys ≠ [] := by rintro h; rw [h] at hk; cases hk
  refine ⟨ok.addr, ?_, ?_, SepTree.sorted_raise ok.sorted hk, ok.ordered.raise, ?_, ?_⟩
  · rw [SepTree.addrs_raise]
    exact Multiset.nodup_cons.mpr ⟨hb, ok.nodup⟩
  · intro a ha ha0
    rw [SepTree.addrs_raise, Multiset.mem_cons] at ha
    rcases ha with rfl | ha
    · exact hlt
    · exact ok.inside a ha ha0
  · refine Or.inr (SepTree.Bushy.raise ?_)
    rcases ok.bushy with rfl | hb
    · cases t with
      | leaf a es => exact Grade.holds_of_ne_nil fun h => hne (by rw [SepTree.keys_leaf, h]; rfl)
    · exact hb
  · rw [SepTree.items_raise]
    exact ok.inRange

/-- The root after growing: one entry, one level more. -/
theorem rep_raise (hrep : Rep inodeRef g s.bytes t) (h0 : t.addr = 0) (hb : b ≠ 0)
    (hbt : b ∉ t.addrs) (hnew : Rewrote inodeRef s s₁ b h es) (hh : HeaderOk inodeRef (Place.of b) h)
    (hd : h.depth = d) (hmax : h.maxEntriesCount = capacity inodeRef)
    (hes : es = s.bytes.slots (Place.of 0)) {h' : Ext4ExtentHeader} {x : Ext4Extent}
    (hroot : Rewrote inodeRef s₁ s' 0 h' [x]) (hh' : HeaderOk inodeRef (Place.of 0) h')
    (hd' : h'.depth = d + 1) (hx : x.child = (k, b)) : Rep inodeRef g s'.bytes (t.raise b k) := by
  have hbelow : 0 ∉ t.below ∧ b ∉ t.below := by
    constructor
    · -- the root is no child
      intro hmem
      have hdepth : (s.bytes.header (Place.of 0)).depth = d := h0 ▸ hrep.depth_eq
      cases t with
      | leaf a es => cases hmem
      | node a cs =>
          obtain ⟨c, hc, ha⟩ := SepTree.mem_sum_addrs.mp hmem
          have := Rep.depth_le ((SepTree.all_node.mp hrep).2 c hc) ha
          omega
    · intro hmem
      exact hbt (t.addrs_eq ▸ Multiset.mem_cons_of_mem hmem)
  have hchild : RepAt inodeRef g s₁.bytes (t.withAddr b) := by
    refine Rewrote.repAt (u := t.withAddr b) (by rw [SepTree.addr_withAddr]; exact hnew) ?_ hd ?_ ?_
    · rwa [SepTree.addr_withAddr]
    · rw [hmax]
      exact Grade.declares_capacity _
    · refine Lists.withAddr ?_
      rw [hes, ← h0]
      exact hrep.self.entries
  refine SepTree.all_node.mpr ⟨?_, ?_⟩
  · refine Rewrote.repAt (u := t.raise b k) (by rw [SepTree.addr_raise, h0]; exact hroot) ?_ hd' ?_ ?_
    · rwa [SepTree.addr_raise, h0]
    · rw [SepTree.addr_raise, h0]
      exact Grade.declares_zero _
    · show [x].map (·.child) = [(k, t.withAddr b)].map fun c => (c.1, c.2.addr)
      rw [List.map_singleton, List.map_singleton, hx, SepTree.addr_withAddr]
  · rintro c (_ | ⟨_, hc⟩)
    · refine SepTree.all_iff.mpr ⟨hchild.congr ?_, ?_⟩
      · rw [SepTree.addr_withAddr]
        exact hroot.bytes_eq hb
      · refine SepTree.Below.imp (SepTree.Below.withAddr hrep.below b) fun u hu hrepu => ?_
        rw [SepTree.below_withAddr] at hu
        refine hrepu.congr ((hroot.bytes_eq ?_).trans (hnew.bytes_eq ?_))
        · rintro hu0
          exact hbelow.1 (hu0 ▸ hu)
        · rintro hub
          exact hbelow.2 (hub ▸ hu)
    · cases hc

/-- The first key of a node with entries. -/
theorem Shows.head_key {u : SepTree Ext4Extent d} (hs : Shows D u) (hk : u.keys.head? = some k) :
    0 < (D.header (Place.of u.addr)).entriesCount ∧ D.key (Place.of u.addr) 0 = k := by
  have hkeys : (D.slots (Place.of u.addr)).map (·.firstBlock) = u.keys := Lists.keys hs
  rw [← hkeys, List.head?_map] at hk
  obtain ⟨x, hx, rfl⟩ := Option.map_eq_some_iff.mp hk
  have h0 : 0 < (D.slots (Place.of u.addr)).length := by
    rcases hsl : D.slots (Place.of u.addr) with _ | ⟨y, ys⟩
    · rw [hsl] at hx; cases hx
    · exact Nat.succ_pos _
  refine ⟨Disk.length_slots ▸ h0, ?_⟩
  have hget := Disk.getElem_slots h0
  rw [List.head?_eq_getElem?, List.getElem?_eq_getElem h0] at hx
  rw [← Option.some.inj hx, hget]
  rfl

/-- The last stores of `grow_indepth`, into the root. -/
theorem wp_growRoot {hd : Ext4ExtentHeader} {x : Ext4ExtentIndex} {Q : Unit → St → Prop}
    (hf : hd.Fits) (h1 : hd.entriesCount = 1) (hx : x.Fits)
    (hQ : ∀ s', Rewrote inodeRef s s' 0 hd [x.asExtent] → Q () s') :
    wp (do
      storeHeader inodeRef .root hd
      clear inodeRef .root ext4ExtentHeaderSize (60 - ext4ExtentHeaderSize)
      storeIndex inodeRef .root 0 x
      setInodeDirty) Q E s := by
  rw [wp_bind, wp_storeHeader, wp_bind, wp_clear]
  refine ⟨show ext4ExtentHeaderSize + (60 - ext4ExtentHeaderSize) ≤ 60 by decide, ?_⟩
  rw [wp_bind, wp_storeIndex]
  refine ⟨inodeRef.fits_of_le (show 1 ≤ 4 by decide), ?_⟩
  simp only [St.setBytes_setBytes, St.bytes_setBytes, Disk.set_self]
  rw [wp_setInodeDirty]
  set dat := indexStore ((headerStore (s.bytes .root) hd).zero ext4ExtentHeaderSize
    (60 - ext4ExtentHeaderSize)) (entryOff 0) x with hdat
  have hhead : headerLoad dat = hd := by
    rw [hdat, headerLoad_indexStore, headerLoad_zero (show 12 ≤ ext4ExtentHeaderSize from Nat.le_refl _),
      headerLoad_headerStore hf]
  have hslots : slots dat = [x.asExtent] := by
    unfold slots
    rw [hhead, h1]
    exact congrArg (fun y => [y]) (extent_get_indexStore_self hx)
  have hroot : (s.bytes.set .root dat) .root = dat := Disk.set_self ..
  refine hQ _ ⟨Quiet.refl s, fun p hp => Disk.set_ne _ _ hp, ?_, ?_, fun h => absurd rfl h⟩
  · show headerLoad ((s.bytes.set .root dat) .root) = hd
    rw [hroot, hhead]
  · show slots ((s.bytes.set .root dat) .root) = _
    rw [hroot, hslots]

theorem wp_growIndepth (hcnt : inodeRef.blocksCnt ≤ pblockLimit)
    (h : Holding inodeRef g base s t) (hk : t.keys.head? = some k) :
    wp (growIndepth inodeRef)
      (fun _ s' => ∃ b, Holding inodeRef g (b ::ₘ base) s' (t.raise b k) ∧ Spent base s s' {b} ∧
        s'.bytes.rootMax = 4)
      (fun err s' => WritesSucceed inodeRef → Holding inodeRef g base s' t ∧ Spent base s s' 0 ∧
        (err = .efbig ∧ 5 ≤ d ∧ s'.bytes = s.bytes ∨ Troubled inodeRef s s' err)) s := by
  have haddr := h.ok.addr
  have hroot : RepAt inodeRef g s.bytes t := h.rep.self
  have hstand : Standing inodeRef s.bytes d 0 := haddr ▸ hroot.standing
  have hd : (s.bytes.header .root).depth = d := hstand.depth
  have hcount := hroot.entries.count
  have hkey := hroot.entries.head_key hk
  rw [haddr, Place.of_zero] at hcount hkey
  have hn : (s.bytes.header .root).entriesCount ≤ 4 :=
    Nat.le_trans hstand.headerOk.count hstand.headerOk.max
  have hcap := inodeRef.capacity_ge
  have hcap' := inodeRef.capacity_le
  unfold growIndepth
  rw [wp_bind, wp_loadHeader, wp_ite]
  refine ⟨fun hdepth _ => ⟨h, .refl base s, Or.inl ⟨rfl, hd ▸ hdepth, rfl⟩⟩, fun hdepth => ?_⟩
  have hd5 : d + 1 ≤ 5 := by
    rw [hd] at hdepth
    unfold ext4ExtentMaxDepth at hdepth
    omega
  rw [hd, wp_bind, wp_ballocAllocBlock]
  refine ⟨fun b hb => ?_, fun err _ => ?_⟩
  swap
  · exact fun _ => ⟨h.kept (.refused base) rfl, .refused base, Or.inr (.of_alloc List.suffix_rfl)⟩
  obtain ⟨hb0, hblt, hbbase⟩ := h.handsOut.next hb
  have hbt := h.fresh hb0 hbbase
  have hplace : Place.of b = .block b := Place.of_ne_zero hb0
  have hspent : Spent base s (s.log (.ballocAllocBlock inodeRef.lwext4.inodeToGoalBlock (.ok b))) {b} :=
    .take hbbase
  have hbytes : (s.log (.ballocAllocBlock inodeRef.lwext4.inodeToGoalBlock (.ok b))).bytes = s.bytes :=
    rfl
  generalize s.log _ = s₁ at hspent hbytes
  rw [wp_bind, wp_onError]
  refine wp_mono wp_transBlockGetNoread_reads (fun _ s₂ h₂ => ?_) fun err s₂ h₂ => ?_
  swap
  · obtain ⟨hback, hspent₂⟩ := h.unused (hspent.quiet h₂.1.quiet) (h₂.1.bytes.trans hbytes)
    have htrouble := (h₂.2.earlier hspent.suffix).mono (s₂.suffix_log (.io (.ballocFreeBlock b) none))
    exact wp_ballocFreeBlock_ok (fun hn _ _ hw => absurd hw hn)
      fun _ => ⟨hback, hspent₂, Or.inr htrouble⟩
  rw [wp_bind, wp_clear]
  refine ⟨by show 0 + inodeRef.blockSize ≤ inodeRef.blockSize; omega, ?_⟩
  set s₃ := s₂.setBytes (.block b) ((s₂.bytes (.block b)).zero 0 inodeRef.blockSize) with hs₃
  have hroot₃ : s₃.bytes .root = s.bytes .root := by
    rw [hs₃, St.bytes_setBytes, Disk.set_ne _ _ (by simp), h₂.bytes, hbytes]
  have hfirst : wp (firstLogicalBlockOf inodeRef (s.bytes.header .root).entriesCount)
      (fun r s' => k = r ∧ s₃ = s') (fun _ _ => False) s₃ := by
    unfold firstLogicalBlockOf
    rw [if_pos hkey.1, wp_bind, wp_loadExtent]
    refine ⟨inodeRef.fits_of_le (show 1 ≤ 4 by decide), ?_, rfl⟩
    rw [Disk.extent_firstBlock, ← hkey.2]
    unfold Disk.key
    rw [hroot₃]
  rw [wp_bind]
  refine wp_mono hfirst ?_ fun _ _ hf => hf.elim
  rintro _ _ ⟨rfl, rfl⟩
  -- the new node
  set n := (s.bytes.header .root).entriesCount with hndef
  rw [u16_of_lt (show n < 65536 by omega), u16_of_lt (show capacity inodeRef < 65536 by omega)]
  have hslots₃ : s₃.bytes.slots .root = s.bytes.slots .root := by
    unfold Disk.slots
    rw [hroot₃]
  have hnew : HeaderOk inodeRef (.block b) ⟨ext4ExtentMagic, n, capacity inodeRef, d, 0⟩ :=
    headerOk_new (by omega) (by omega)
  rw [wp_bind]
  refine wp_mono (wp_fillNewNode (fits_new (by omega) (by omega))
    (Disk.records_of_slots hslots₃ (by rw [Nat.zero_add, Disk.length_slots])) rfl (inodeRef.fits_of_le (by rw [Nat.zero_add]; exact hn))
    (inodeRef.fits_of_le (show n ≤ capacity inodeRef by omega))) ?_ fun _ _ hf => hf.elim
  intro _ s₄ h₄
  rw [wp_bind, wp_orElse]
  refine wp_mono (wp_setChecksum_filled h₄ hnew) ?_ fun _ _ hf => hf.elim
  rintro _ s₅ ⟨dat, rfl, hdat, hslots, hcsum⟩
  rw [wp_bind, wp_onError]
  refine wp_nodeBlockPut_ok (fun hn _ _ => ?_) fun s₆ h₆ => ?_
  · rw [wp_ballocFreeBlock]
    exact ⟨fun _ hw => absurd hw hn, fun _ _ hw => absurd hw hn⟩
  have hrew : Rewrote inodeRef s₁ s₆ b (headerLoad dat) (slots dat) := by
    refine rewrote_of_filled hb0 (show Quiet s₁ s₃ from h₂.quiet) (fun p hp => ?_) hcsum h₆
    rw [hs₃, St.bytes_setBytes, Disk.set_ne _ _ hp, h₂.bytes]
  rw [hdat, hslots, List.drop_zero] at hrew
  -- the root
  have hroot₆ : s₆.bytes .root = s.bytes .root := by
    have := hrew.bytes_eq (Ne.symm hb0)
    rwa [Place.of_zero, hbytes] at this
  have hhead₆ : s₆.bytes.header .root = s.bytes.header .root := by
    unfold Disk.header
    rw [hroot₆]
  rw [wp_bind, wp_loadHeader, hhead₆, u16_of_lt (show d + 1 < 65536 by omega)]
  have hfit : (s.bytes.header .root).Fits := s.bytes.header_fits .root
  have hklt : k < 4294967296 := hkey.2 ▸ readLe32_lt _ _
  refine wp_growRoot ⟨hfit.magic, by dsimp only; omega, show 4 < 65536 by decide,
    by dsimp only; omega, hfit.generation⟩ rfl (indexStorePblock_fits hklt b) fun s₇ h₇ => ?_
  have hchild : (indexStorePblock ⟨k, 0, 0, 0⟩ b).asExtent.child = (k, b) := by
    rw [Ext4ExtentIndex.child_asExtent (indexStorePblock_fits hklt b), indexGetPblock_store (by omega)]
    rfl
  have hquiet : Quiet s₁ s₇ := hrew.quiet.trans h₇.quiet
  have hrep₁ : Rep inodeRef g s₁.bytes t := by rw [hbytes]; exact h.rep
  have hrep₇ : Rep inodeRef g s₇.bytes (t.raise b k) := by
    refine rep_raise hrep₁ haddr hb0 hbt hrew (hplace ▸ hnew) rfl rfl ?_ h₇ ?_ rfl hchild
    · rw [hbytes]
      rfl
    · have hroot := hstand.headerOk
      exact ⟨hroot.magic, hd5, show 0 < 4 by decide, show 1 ≤ 4 by decide, Nat.le_refl _⟩
  refine ⟨b, ?_, hspent.quiet hquiet, congrArg (·.maxEntriesCount) h₇.header⟩
  rw [← Multiset.singleton_add]
  refine h.next (hspent.quiet hquiet) hrep₇ (h.ok.raise hk hb0 hblt hbt) fun a ha => ?_
  rw [SepTree.below_raise, Multiset.mem_cons] at ha
  rw [Multiset.mem_add, Multiset.mem_singleton]
  exact ha.imp id (h.within a)

end Lemmas

end EspLwext4
