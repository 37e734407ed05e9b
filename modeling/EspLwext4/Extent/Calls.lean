import EspLwext4.Extent.Removed
import EspLwext4.Extent.BlockMap

/-!
# One call after the other

Each hook of the extent code turns a good tree into a good tree, and what it takes from the
allocator and gives back comes to the difference of the blocks the two trees refer to. A call
that fails leaves the extents as they were, as far as no block read failed.
-/

namespace EspLwext4

open Prog Bytes Ranged

variable (inodeRef : InodeRef)

/-- Between `s` and `s'` the tree `t` became `t'`, and the ledger of its blocks went along. -/
structure Became (s s' : St) {d d' : ℕ} (t : SepTree Ext4Extent d) (t' : SepTree Ext4Extent d') :
    Prop where
  rep : Rep inodeRef .built s'.bytes t'
  ok : TreeOk inodeRef .built t'
  settled : Settled (refs t) s s' (refs t')
  exact : t.Exact → t'.Exact
  stops : (∀ e ∈ t.items, stop e ≤ uint32Max) → ∀ e ∈ t'.items, stop e ≤ uint32Max

section Lemmas

variable {inodeRef} {base own : Multiset ℕ} {s s₁ s' : St} {d d' d'' a z : ℕ} {D : Disk}
variable {t : SepTree Ext4Extent d} {t₁ : SepTree Ext4Extent d'} {t' : SepTree Ext4Extent d''}
variable {iblock maxBlocks : ℕ} {r : ℕ × ℕ} {err : Errno}

theorem Became.of_reads (hreads : Reads s s') (hold : Holding inodeRef .built base s t) :
    Became inodeRef s s' t t :=
  ⟨hreads.bytes ▸ hold.rep, hold.ok, .of_quiet _ hreads.quiet, id, id⟩

theorem Removed.became (h : Removed inodeRef s s' t a z t') : Became inodeRef s s' t t' := by
  refine ⟨h.rep, h.ok, h.settled, h.exact, fun hstop e he => ?_⟩
  obtain ⟨x, hx, -, hle⟩ := h.within e he
  exact Nat.le_trans hle (hstop x hx)

/-- The blocks of a tree with the nodes `own` more and the extents of `t`. -/
theorem refs_eq (haddr : t'.addr = t.addr) (haddrs : t'.addrs = own + t.addrs)
    (hitems : t'.items = t.items) : refs t' = own + refs t := by
  unfold refs
  rw [below_of_addrs haddr haddrs, hitems, add_assoc]

/-! ## Creating -/

section Created

variable (h : Created inodeRef (refs t) s s' t iblock maxBlocks r own t')
  (hcnt : inodeRef.blocksCnt ≤ pblockLimit)

include h hcnt

/-- The tree has the run and its new nodes more. -/
theorem Created.refs_eq (ok : TreeOk inodeRef .built t) :
    refs t' = own + (blockRun r.1 r.2 + refs t) := by
  obtain ⟨s₁, -, hplaced⟩ := h.placed
  unfold refs
  rw [below_of_addrs (hplaced.fit.addr.trans ok.addr.symm) hplaced.addrs,
    inserted_dataBlocks hplaced.items, newRun_run h.count_le (h.pblock_lt hcnt), add_assoc,
    add_left_comm t.below]

/-- Where keys are exact, none lies inside the new extent. -/
theorem Created.became (ok : TreeOk inodeRef .built t) (hex : t.Exact)
    (hend : iblock + min maxBlocks extInitMaxLen ≤ uint32Max) : Became inodeRef s s' t t' := by
  have hkeys := undivided_of_exact h.new ok.inRange hex
  obtain ⟨s₁, htaken, hplaced⟩ := h.placed
  refine ⟨hplaced.rep, h.treeOk hkeys, ?_, hplaced.exact, fun hstop => ?_⟩
  · rw [h.refs_eq hcnt ok]
    exact htaken.spent.settled.trans hplaced.spent.settled
  · refine inserted_stop_le h.items ?_ hstop
    rw [stop_newRun h.count_le]
    have := h.le.trans runCap_le
    omega

end Created

/-- A call that failed to create blocks. -/
theorem CreateFailed.became (h : CreateFailed inodeRef (refs t) s s' t iblock err)
    (hold : Holding inodeRef .built (refs t) s t) :
    (∃ (d' : ℕ) (t' : SepTree Ext4Extent d'), Became inodeRef s s' t t' ∧ t'.items = t.items) ∨
      Interrupted inodeRef s s' err := by
  rcases h with ⟨hspent, hbytes⟩ | ⟨s₁, s₂, pblock, count, htaken, -, hfailed, rfl⟩
  · have hsettled := hspent.settled
    rw [zero_add] at hsettled
    exact Or.inl ⟨d, t, ⟨hbytes ▸ hold.rep, hold.ok, hsettled, id, id⟩, rfl⟩
  · have hsuffix : s.trace <:+ s₁.trace := htaken.spent.suffix
    have hlater : s₂.trace <:+ (s₂.log (.io (.ballocFreeBlocks pblock count) none)).trace :=
      List.suffix_cons _ _
    rcases hfailed with (⟨d', own, t', hre, -⟩ | ⟨s₃, d', own, t', hre, hread, -⟩) |
      ⟨d', own, t', -, hread⟩
    · refine Or.inl ⟨d', t', ⟨hre.holding.rep, hre.holding.ok, ?_, hre.content.exact, ?_⟩,
        hre.content.items⟩
      · have hrefs := refs_eq (hre.holding.ok.addr.trans hold.ok.addr.symm) hre.addrs hre.content.items
        have hsettled := htaken.spent.settled.trans hre.spent.settled
        rw [add_left_comm, ← hrefs] at hsettled
        exact hsettled.trans (.give _ s₂)
      · rw [hre.content.items]
        exact id
    · refine Or.inr ⟨.splitShorten, Or.inl rfl, ?_⟩
      exact ((hread.earlier hre.spent.suffix).earlier hsuffix).mono hlater
    · exact Or.inr ⟨.writeIndexAt, Or.inr (Or.inl rfl), (hread.earlier hsuffix).mono hlater⟩

theorem IoSucceeds.not_interrupted (h : IoSucceeds inodeRef) : ¬ Interrupted inodeRef s s' err :=
  fun ⟨_, _, hread⟩ => h.not_failed hread.io

/-- Where no call fails, a removal that fails took no block off the map. -/
theorem RemoveFailed.became (h : RemoveFailed inodeRef s s' t a z err) (hio : IoSucceeds inodeRef) :
    ∃ (d' : ℕ) (t' : SepTree Ext4Extent d'), Became inodeRef s s' t t' ∧
      ∀ v, valueAt Ext4Extent.blockAt t'.items v = valueAt Ext4Extent.blockAt t.items v := by
  rcases h with ⟨n, -, -, ⟨d', t', hrem⟩, hfailed | ⟨rfl, -⟩⟩ | hint
  · exact absurd hfailed hio.not_failed
  · refine ⟨d', t', hrem.became, fun v => ?_⟩
    rw [hrem.values, if_neg (by omega)]
  · exact absurd hint hio.not_interrupted

end Lemmas

/-! ## The hooks -/

/-- What `m` returns, or the error it fails with, as a reply. -/
def reporting {α : Type} (m : M α) (f : α → Reply) : M Reply := do
  match ← m.attempt with
  | .ok a => return f a
  | .error err => return .failed err

/-- The call a request stands for. A removal may take more rounds than there are blocks up to
its end. -/
def Request.exec : Request → M Reply
  | .getBlocks iblock maxBlocks create =>
      reporting (ext4ExtentGetBlocks inodeRef iblock maxBlocks create) fun r => .blocks r.1 r.2
  | .removeSpace first last =>
      reporting (ext4ExtentRemoveSpace inodeRef (last.toNat + 2) first last) fun _ => .removed

/-- Blocks are created below 2^32 - 1 only. -/
def Request.Within : Request → Prop
  | .getBlocks iblock maxBlocks create =>
      create = true → iblock.toNat + min maxBlocks.toNat extInitMaxLen ≤ uint32Max
  | .removeSpace _ _ => True

/-- The blocks from `a` on and before `n` are a first part of what the request may take off the
map. -/
def Request.Starts : Request → ℕ → ℕ → Prop
  | .getBlocks _ _ _, a, n => n ≤ a
  | .removeSpace first last, a, n => a = first.toNat ∧ n ≤ last.toNat + 1

/-- Between `s` and `s'` a first part of a request was done, and the tree is whole. -/
structure CutShort (s s' : St) (request : Request) : Prop where
  wellFormed : WellFormed inodeRef s'.bytes
  mapping : ∃ a n, request.Starts a n ∧
    ∀ v, s'.bytes.mapping v = if a ≤ v ∧ v < n then none else s.bytes.mapping v
  settled : Settled (refs s.bytes.root) s s' (refs s'.bytes.root)

/-- Between `s` and `s'` nothing changed for the callers: the tree is well formed and maps what
it did, and of the blocks taken in between all but those it refers to were given back. -/
structure Undone (s s' : St) : Prop where
  wellFormed : WellFormed inodeRef s'.bytes
  mapping : ∀ v, s'.bytes.mapping v = s.bytes.mapping v
  lookups : ∀ lblock : UInt32, Resolves inodeRef s' lblock.toNat (s.bytes.mapping lblock.toNat)
  settled : Settled (refs s.bytes.root) s s' (refs s'.bytes.root)

section Lemmas

variable {inodeRef} {s s' : St} {d d' : ℕ} {t : SepTree Ext4Extent d} {t' : SepTree Ext4Extent d'}

theorem wp_reporting {α : Type} {m : M α} {f : α → Reply} {Q : Reply → St → Prop}
    {E : Errno → St → Prop} : wp (reporting m f) Q E s ↔
      wp m (fun a => Q (f a)) (fun err => Q (.failed err)) s := by
  unfold reporting
  rw [wp_bind, wp_attempt]
  exact Iff.rfl

theorem WellFormed.holding (h : WellFormed inodeRef s.bytes)
    (hout : HandsOut inodeRef (refs s.bytes.root) s.trace) :
    Holding inodeRef .built (refs s.bytes.root) s s.bytes.root :=
  ⟨h.rep, h.treeOk, fun _ ha => Multiset.mem_add.mpr (Or.inl ha), hout⟩

/-- The tree a call left is the one on the disk. -/
theorem Became.eq_root (h : Became inodeRef s s' t t') :
    t'.items = s'.bytes.root.items ∧ refs t' = refs s'.bytes.root ∧
      (t'.Exact → s'.bytes.root.Exact) := by
  obtain ⟨rfl, heq⟩ := h.rep.eq_root h.ok.addr
  dsimp only at heq
  subst heq
  exact ⟨rfl, rfl, id⟩

theorem Became.wellFormed (h : Became inodeRef s s' t t') (hstop : ∀ e ∈ t.items, stop e ≤ uint32Max) :
    WellFormed inodeRef s'.bytes := wellFormed_of_treeOk h.rep h.ok (h.stops hstop)

theorem Became.mapping_eq (h : Became inodeRef s s' s.bytes.root t')
    (hvalues : ∀ v, valueAt Ext4Extent.blockAt t'.items v =
      valueAt Ext4Extent.blockAt s.bytes.root.items v) (v : ℕ) :
    s'.bytes.mapping v = s.bytes.mapping v := by
  rw [Disk.mapping_eq_valueAt, Disk.mapping_eq_valueAt, ← h.eq_root.1, hvalues]

theorem Became.undone (h : Became inodeRef s s' s.bytes.root t') (hwf : WellFormed inodeRef s.bytes)
    (hvalues : ∀ v, valueAt Ext4Extent.blockAt t'.items v =
      valueAt Ext4Extent.blockAt s.bytes.root.items v) : Undone inodeRef s s' := by
  have hwf' := h.wellFormed fun e he => (hwf.extents e he).stop_le
  have hmapping := h.mapping_eq hvalues
  exact ⟨hwf', hmapping, fun lblock => hmapping lblock.toNat ▸ hwf'.resolves lblock,
    h.eq_root.2.1 ▸ h.settled⟩

theorem Undone.cutShort {request : Request} {a n : ℕ} (h : Undone inodeRef s s')
    (hstarts : request.Starts a n) (hle : n ≤ a) : CutShort inodeRef s s' request := by
  refine ⟨h.wellFormed, ⟨a, n, hstarts, fun v => ?_⟩, h.settled⟩
  rw [h.mapping, if_neg (by omega)]

theorem Removed.cutShort {request : Request} {a n : ℕ}
    (h : Removed inodeRef s s' s.bytes.root a n t') (hwf : WellFormed inodeRef s.bytes)
    (hstarts : request.Starts a n) : CutShort inodeRef s s' request := by
  have hb := h.became
  refine ⟨hb.wellFormed fun e he => (hwf.extents e he).stop_le, ⟨a, n, hstarts, h.mapping⟩, ?_⟩
  exact hb.eq_root.2.1 ▸ hb.settled

theorem Undone.of_reads (hreads : Reads s s') (h : WellFormed inodeRef s.bytes)
    (hout : HandsOut inodeRef (refs s.bytes.root) s.trace) : Undone inodeRef s s' :=
  (Became.of_reads hreads (h.holding hout)).undone h fun _ => rfl

end Lemmas

/-- **A call that fails is undone.** On a well-formed tree, where no call of the block layer fails
and the allocator hands out only free blocks of the volume that the tree does not refer to, but
may refuse at any time: creating blocks and removing them ends, and with an error only as if
nothing had been called. -/
theorem failed_calls_undone (inodeRef : InodeRef) (s : St) (request : Request)
    (hio : IoSucceeds inodeRef) (hcnt : inodeRef.blocksCnt ≤ pblockLimit)
    (h : WellFormed inodeRef s.bytes) (hout : HandsOut inodeRef (refs s.bytes.root) s.trace)
    (hin : request.Within) :
    ∃ reply s', request.exec inodeRef s = .ok reply s' ∧
      ∀ err, reply = .failed err → Undone inodeRef s s' := by
  have hold := h.holding hout
  refine wp_returns ?_
  cases request with
  | getBlocks iblock maxBlocks create =>
      refine wp_reporting.mpr ?_
      cases create with
      | false =>
          refine wp_mono (wp_lookup hold.rep hold.ok.addr (hold.ok.acceptable_all hold.rep)) ?_ ?_
          · exact fun _ _ _ err herr => by cases herr
          · exact fun _ s' hfailed _ _ => .of_reads hfailed.1 h hout
      | true =>
          have hstay := h.staysInRange (hin rfl)
          refine wp_mono (wp_getBlocks_create hcnt hold hio.writes hio.neverMissing hstay) ?_ ?_
          · exact fun _ _ _ err herr => by cases herr
          · rintro err s' hfailed _ -
            rcases hfailed.became hold with ⟨d', t', hbecame, hitems⟩ | hint
            · exact hbecame.undone h fun v => by rw [hitems]
            · exact absurd hint hio.not_interrupted
  | removeSpace first last =>
      refine wp_reporting.mpr ?_
      refine wp_mono (wp_removeSpace hio.writes hio.neverMissing hcnt hold (by omega)) ?_ ?_
      · exact fun _ _ _ err herr => by cases herr
      · rintro err s' (⟨rfl, -⟩ | hfailed) _ -
        · exact .of_reads (.refl s') h hout
        · obtain ⟨d', t', hbecame, hvalues⟩ := hfailed.became hio
          exact hbecame.undone h hvalues

theorem fresh_refs_fullRootDisk : 300 ∉ refs fullRootDisk.root := by
  have hdepth : fullRootDisk.rootDepth = 0 := by decide +kernel
  have hitems : fullRootDisk.root.items = _ := (items_of_leaf hdepth).trans slots_fullRootDisk
  intro hmem
  rcases Multiset.mem_add.mp hmem with hb | hb
  · exact fresh_fullRootDisk hb
  · obtain ⟨e, he, hb⟩ := mem_dataBlocks.mp hb
    rw [hitems] at he
    simp only [List.mem_cons, List.not_mem_nil, or_false] at he
    rcases he with rfl | rfl | rfl | rfl
    all_goals exact absurd hb (by decide)

/-- The only block left is taken for the data, none is left to grow the full root, and it is
given back. -/
theorem failed_calls_undone_grow :
    ∃ s', (Request.getBlocks 7 1 true).exec (sampleVolume oneBlockLwext4)
        ⟨fullRootDisk, false, []⟩ = .ok (.failed .enospc) s' ∧
      Undone (sampleVolume oneBlockLwext4) ⟨fullRootDisk, false, []⟩ s' := by
  obtain ⟨reply, s', hrun, hundone⟩ := failed_calls_undone (sampleVolume oneBlockLwext4)
    ⟨fullRootDisk, false, []⟩ (.getBlocks 7 1 true) (fun _ _ => rfl) (by decide)
    wellFormed_fullRootDisk (handsOut_oneBlock fresh_refs_fullRootDisk) (fun _ => by decide)
  have hreply : resultOf ((Request.getBlocks 7 1 true).exec (sampleVolume oneBlockLwext4)
      ⟨fullRootDisk, false, []⟩) = some (.failed .enospc) := by decide +kernel
  rw [hrun] at hreply
  obtain rfl := Option.some.inj hreply
  exact ⟨s', hrun, hundone .enospc rfl⟩

/-- **A failing read leaves a whole tree.** On a well-formed tree, when any block may turn out
unreadable and any allocation may be refused: a call that fails leaves a well-formed tree, from
which it took a first part of what it was to remove, or nothing, and the blocks of this tree are
the ones the file holds. This is so unless the read that failed came between two writes: when a
split leaf was to be shortened, a key to be corrected or an entry to be taken out of its index. -/
theorem failing_reads_cut_short (inodeRef : InodeRef) (s : St) (request : Request)
    (hw : WritesSucceed inodeRef) (hmiss : NeverMissing inodeRef)
    (hcnt : inodeRef.blocksCnt ≤ pblockLimit) (h : WellFormed inodeRef s.bytes)
    (hout : HandsOut inodeRef (refs s.bytes.root) s.trace) (hin : request.Within) :
    ∃ reply s', request.exec inodeRef s = .ok reply s' ∧ ∀ err, reply = .failed err →
      CutShort inodeRef s s' request ∨ Interrupted inodeRef s s' err := by
  have hold := h.holding hout
  refine wp_returns ?_
  cases request with
  | getBlocks iblock maxBlocks create =>
      have hstarts : (Request.getBlocks iblock maxBlocks create).Starts 0 0 := Nat.le_refl 0
      refine wp_reporting.mpr ?_
      cases create with
      | false =>
          refine wp_mono (wp_lookup hold.rep hold.ok.addr (hold.ok.acceptable_all hold.rep)) ?_ ?_
          · exact fun _ _ _ err herr => by cases herr
          · exact fun _ s' hfailed _ _ =>
              Or.inl ((Undone.of_reads hfailed.1 h hout).cutShort hstarts (Nat.le_refl 0))
      | true =>
          refine wp_mono (wp_getBlocks_create hcnt hold hw hmiss (h.staysInRange (hin rfl))) ?_ ?_
          · exact fun _ _ _ err herr => by cases herr
          · rintro err s' hfailed _ ⟨⟩
            rcases hfailed.became hold with ⟨d', t', hbecame, hitems⟩ | hint
            · have hundone := hbecame.undone h fun v => by rw [hitems]
              exact Or.inl (hundone.cutShort hstarts (Nat.le_refl 0))
            · exact Or.inr hint
  | removeSpace first last =>
      refine wp_reporting.mpr ?_
      refine wp_mono (wp_removeSpace hw hmiss hcnt hold (by omega)) ?_ ?_
      · exact fun _ _ _ err herr => by cases herr
      · rintro err s' (⟨rfl, -⟩ | ⟨n, -, hle, ⟨d', t', hrem⟩, -⟩ | hint) _ ⟨⟩
        · refine Or.inl ((Undone.of_reads (.refl s') h hout).cutShort ⟨rfl, ?_⟩ (Nat.zero_le _))
          exact Nat.zero_le _
        · exact Or.inl (hrem.cutShort h ⟨rfl, hle⟩)
        · exact Or.inr hint

/-- The block of the second leaf cannot be read, and nothing is left to allocate. -/
def unreadableLwext4 : Lwext4 :=
  ⟨fun c _ => if c = .transBlockGet .findExtent 101 then some .eio else none,
    fun _ _ => .error .enospc, 0, fun _ _ => 0⟩

/-- Block 0 is removed with its leaf, then the other leaf cannot be read. -/
theorem failing_reads_cut_short_unreadable :
    ∃ s', (Request.removeSpace 0 1).exec (sampleVolume unreadableLwext4) ⟨keyGapDisk, false, []⟩ =
        .ok (.failed .eio) s' ∧
      (CutShort (sampleVolume unreadableLwext4) ⟨keyGapDisk, false, []⟩ s' (.removeSpace 0 1) ∨
        Interrupted (sampleVolume unreadableLwext4) ⟨keyGapDisk, false, []⟩ s' .eio) := by
  have hw : WritesSucceed (sampleVolume unreadableLwext4) := by
    refine ⟨fun c tr hc => if_neg fun heq => ?_⟩
    rw [heq] at hc
    cases hc
  have hmiss : NeverMissing (sampleVolume unreadableLwext4) := by
    intro c tr h
    have hanswer : (if c = .transBlockGet .findExtent 101 then some Errno.eio else none) =
        some .enoent := h
    split at hanswer
    · cases hanswer
    · cases hanswer
  obtain ⟨reply, s', hrun, hfailed⟩ := failing_reads_cut_short (sampleVolume unreadableLwext4)
    ⟨keyGapDisk, false, []⟩ (.removeSpace 0 1) hw hmiss (by decide)
    wellFormed_keyGapDisk (fun _ _ _ h => by cases h) trivial
  have hreply : resultOf ((Request.removeSpace 0 1).exec (sampleVolume unreadableLwext4)
      ⟨keyGapDisk, false, []⟩) = some (.failed .eio) := by decide +kernel
  rw [hrun] at hreply
  obtain rfl := Option.some.inj hreply
  exact ⟨s', hrun, hfailed .eio rfl⟩

end EspLwext4
