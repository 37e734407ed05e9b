import EspLwext4.Extent.Calls

/-!
# Runs

A run initialises the extent tree of an inode and then calls `ext4_extent_get_blocks` and
`ext4_extent_remove_space` in any order; a call may end with an error, and the run goes on,
unless a block could not be read between two writes that belong together. After every call the
tree is well formed, its keys are exact, the file holds exactly the blocks the tree refers to,
and the tree shows the block map that the calls made so far.
-/

namespace EspLwext4

open Prog Bytes Ranged

variable (inodeRef : InodeRef)

/-- A turn of the machine: a request is made, and the code replies. -/
structure Takes (s : St) (turn : Turn) (s' : St) : Prop where
  within : turn.request.Within
  exec : turn.request.exec inodeRef s = .ok turn.reply s'
  whole : ∀ err, turn.reply = .failed err → ¬ Interrupted inodeRef s s' err

/-- `ext4_extent_tree_init` and then the turns `turns` take `s` to `s'`. -/
def Run (s : St) (turns : List Turn) (s' : St) : Prop :=
  ∃ s₁, ext4ExtentTreeInit inodeRef s = .ok () s₁ ∧ Machine.Run (Takes inodeRef) s₁ turns s'

/-- What holds after every call of a run that began in `s₀`, when the map is `m` then. -/
structure Sustained (s₀ s : St) (m : BlockMap) : Prop where
  wellFormed : WellFormed inodeRef s.bytes
  exact : s.bytes.root.Exact
  settled : Settled 0 s₀ s (refs s.bytes.root)
  shows : ∀ v, s.bytes.mapping v = (m.block v).map fun p => (p, false)

/-- The file holds the blocks its tree refers to, each once: since `s₀` it gave back only what
it held and took only what it did not hold. -/
structure Accounted (s₀ s : St) : Prop where
  nodup : (refs s.bytes.root).Nodup
  ledger : ∃ evs, s.trace = evs ++ s₀.trace ∧ Ledger.Legal 0 (txns evs) ∧
    Ledger.held 0 (txns evs) = refs s.bytes.root

/-- The checksum of the external node `b` verifies, and lies behind all entry slots. -/
structure Checksummed (s : St) (b : ℕ) : Prop where
  verifies : verifyExtentBlockChecksum inodeRef (.block b) s = .ok () s
  behind : ∀ i < (s.bytes.header (.block b)).maxEntriesCount,
    entryOff i + ext4ExtentSize ≤ tailOffset (s.bytes.header (.block b))
  inside : tailOffset (s.bytes.header (.block b)) + 4 ≤ inodeRef.blockSize

section Lemmas

variable {inodeRef} {s₀ s s' : St} {d b : ℕ} {t : SepTree Ext4Extent d} {m : BlockMap}
variable {turns : List Turn} {iblock maxBlocks : UInt32} {e : Ext4Extent}
variable {v p : ℕ}

/-! ## The first call -/

theorem treeOk_emptyRoot : TreeOk inodeRef .built (.leaf 0 []) := by
  refine ⟨rfl, Multiset.nodup_singleton 0, fun a ha h0 => ?_, List.Pairwise.nil, trivial, Or.inl rfl,
    fun e he => by cases he⟩
  exact absurd (Multiset.mem_singleton.mp ha) h0

/-- The header that `ext4_extent_tree_init` leaves. -/
theorem wp_treeInit :
    wp (ext4ExtentTreeInit inodeRef) (fun _ s' => Rep inodeRef .built s'.bytes (.leaf 0 []) ∧
      s'.trace = s.trace) (fun _ _ => False) s := by
  unfold ext4ExtentTreeInit
  rw [wp_bind, wp_storeHeader, wp_bind, wp_clear]
  refine ⟨Nat.le_refl 60, ?_⟩
  rw [wp_setInodeDirty]
  generalize hh : (⟨ext4ExtentMagic, 0, ext4ExtentRootMaxEntries, 0, 0⟩ : Ext4ExtentHeader) = h
  have hfits : h.Fits := by
    subst hh
    exact ⟨by decide, by decide, by decide, by decide, by decide⟩
  set s' : St := { (s.setBytes .root (headerStore (s.bytes .root) h)).setBytes .root
    (((s.setBytes .root (headerStore (s.bytes .root) h)).bytes .root).zero ext4ExtentHeaderSize
      (60 - ext4ExtentHeaderSize)) with dirty := true } with hs'
  have hheader : s'.bytes.header .root = h := by
    have hbytes : s'.bytes .root = (headerStore (s.bytes .root) h).zero ext4ExtentHeaderSize
        (60 - ext4ExtentHeaderSize) := by
      rw [hs']
      simp only [St.bytes_setBytes, Disk.set_self]
    have hzero : 12 ≤ ext4ExtentHeaderSize := Nat.le_refl 12
    unfold Disk.header
    rw [hbytes, headerLoad_zero hzero, headerLoad_headerStore hfits]
  have hok : HeaderOk inodeRef .root (s'.bytes.header .root) := by
    rw [hheader, ← hh]
    exact ⟨rfl, by decide, by decide, by decide, Nat.le_refl 4⟩
  refine ⟨rep_emptyRoot hok ?_ ?_, rfl⟩
  · rw [hheader, ← hh]
  · rw [hheader, ← hh]

/-- The invariant, from a tree on the disk. -/
theorem sustained_of_tree (hrep : Rep inodeRef .built s.bytes t) (ok : TreeOk inodeRef .built t)
    (hex : t.Exact) (hstop : ∀ e ∈ t.items, stop e ≤ uint32Max) (hset : Settled 0 s₀ s (refs t))
    (hshows : ∀ v, valueAt Ext4Extent.blockAt t.items v = (m.block v).map fun p => (p, false)) :
    Sustained inodeRef s₀ s m := by
  have hmap (v : ℕ) : s.bytes.mapping v = (m.block v).map fun p => (p, false) := by
    rw [Disk.mapping_eq_valueAt, hrep.items_root ok.addr, hshows]
  have hwf := wellFormed_of_treeOk hrep ok hstop
  obtain ⟨rfl, heq⟩ := hrep.eq_root ok.addr
  dsimp only at heq
  exact ⟨hwf, heq ▸ hex, heq ▸ hset, hmap⟩

/-- A new tree maps nothing and refers to nothing. -/
theorem sustained_init : wp (ext4ExtentTreeInit inodeRef)
    (fun _ s' => Sustained inodeRef s s' .empty) (fun _ _ => False) s := by
  refine wp_mono wp_treeInit ?_ fun _ _ h => h
  rintro _ s' ⟨hrep, htrace⟩
  exact sustained_of_tree hrep treeOk_emptyRoot trivial (fun e he => by cases he)
    (.of_quiet 0 ⟨[], htrace, by simp⟩) fun _ => rfl

/-! ## What the map says of the extents -/

namespace Sustained

variable (h : Sustained inodeRef s₀ s m)

include h

/-- Each extent of the tree is written, and the map has its blocks. -/
theorem block_of_mem (he : e ∈ s.bytes.root.items) (hcov : Covers e v) :
    extentIsUnwritten e = false ∧ m.block v = some (extentGetPblock e + (v - first e)) := by
  have hvalue : s.bytes.mapping v = some (e.blockAt v) := by
    rw [Disk.mapping_eq_valueAt]
    exact valueAt_of_mem (SepTree.items_sorted h.wellFormed.sorted) he hcov.1 hcov.2
  rw [h.shows] at hvalue
  obtain ⟨p, hp, heq⟩ := Option.map_eq_some_iff.mp hvalue
  obtain ⟨hpblock, hwritten⟩ := Prod.mk.inj heq
  exact ⟨hwritten.symm, hp.trans (congrArg some hpblock)⟩

theorem block_eq_none (hno : ∀ e ∈ s.bytes.root.items, ¬ Covers e v) : m.block v = none := by
  have hvalue : s.bytes.mapping v = none := by
    rw [Disk.mapping_eq_valueAt]
    exact valueAt_eq_none_iff.mpr hno
  rw [h.shows] at hvalue
  exact Option.map_eq_none_iff.mp hvalue

/-- A mapped block lies in an extent, so the tree refers to it. -/
theorem mem_dataBlocks (hv : m.block v = some p) : p ∈ dataBlocks s.bytes.root.items := by
  by_contra hno
  have hnone : m.block v = none := by
    refine h.block_eq_none fun e he hcov => ?_
    obtain ⟨-, hblock⟩ := h.block_of_mem he hcov
    refine hno (EspLwext4.mem_dataBlocks.mpr ⟨e, he, mem_blockRun.mpr ?_⟩)
    rw [hv, Option.some.injEq] at hblock
    have hstop := stop_extent e
    have hfirst := first_extent e
    have hle : first e ≤ v := hcov.1
    have hlt : v < stop e := hcov.2
    omega
  rw [hv] at hnone
  cases hnone

/-- What a lookup in an extent answers is on the map. -/
theorem found (he : e ∈ s.bytes.root.items) (hcov : Covers e iblock.toNat) (create : Bool) :
    BlockMap.Step m ⟨.getBlocks iblock maxBlocks create,
      .blocks (mappedAnswer e iblock.toNat maxBlocks.toNat).1
        (mappedAnswer e iblock.toNat maxBlocks.toNat).2⟩ m := by
  obtain ⟨hwritten, hblock⟩ := h.block_of_mem he hcov
  have hanswer : mappedAnswer e iblock.toNat maxBlocks.toNat =
      (extentGetPblock e + (iblock.toNat - first e), min maxBlocks.toNat (stop e - iblock.toNat)) := by
    unfold mappedAnswer
    rw [hwritten]
    rfl
  rw [hanswer]
  have hle := hcov.1
  have hlt := hcov.2
  refine .found hblock (Nat.min_le_left _ _) (fun hpos => by omega) fun k hk => ?_
  have hin : Covers e (iblock.toNat + k) := ⟨by omega, by omega⟩
  rw [(h.block_of_mem he hin).2, Option.some.injEq]
  omega

theorem holding (hout : HandsOut inodeRef 0 s₀.trace) :
    Holding inodeRef .built (refs s.bytes.root) s s.bytes.root :=
  h.wellFormed.holding (hout.settled h.settled)

theorem stops : ∀ e ∈ s.bytes.root.items, stop e ≤ uint32Max :=
  fun e he => (h.wellFormed.extents e he).stop_le

/-- Every block the file holds is held once. -/
theorem accounted : Accounted s₀ s := by
  obtain ⟨evs, htrace, hlegal, hheld⟩ := h.settled
  refine ⟨?_, evs, htrace, hlegal, hheld⟩
  rw [← hheld]
  exact hlegal.nodup Multiset.nodup_zero

/-! ## One call -/

/-- The tree a call left, when the map is `m'` then. -/
theorem next {m' : BlockMap} (hb : Became inodeRef s s' s.bytes.root t)
    (hshows : ∀ v, s'.bytes.mapping v = (m'.block v).map fun p => (p, false)) :
    Sustained inodeRef s₀ s' m' := by
  obtain ⟨-, hrefs, hexact⟩ := hb.eq_root
  exact ⟨hb.wellFormed h.stops, hexact (hb.exact h.exact), hrefs ▸ h.settled.trans hb.settled, hshows⟩

/-- A call that leaves the map alone. -/
theorem same (hb : Became inodeRef s s' s.bytes.root t)
    (hvalues : ∀ v, valueAt Ext4Extent.blockAt t.items v =
      valueAt Ext4Extent.blockAt s.bytes.root.items v) : Sustained inodeRef s₀ s' m :=
  h.next hb fun v => (hb.mapping_eq hvalues v).trans (h.shows v)

theorem reads (hout : HandsOut inodeRef 0 s₀.trace) (hreads : Reads s s') :
    Sustained inodeRef s₀ s' m :=
  h.same (.of_reads hreads (h.holding hout)) fun _ => rfl

section Call

variable (hw : WritesSucceed inodeRef) (hmiss : NeverMissing inodeRef)
  (hcnt : inodeRef.blocksCnt ≤ pblockLimit) (hout : HandsOut inodeRef 0 s₀.trace)

include hcnt in
/-- Creating blocks puts a run of unused blocks on the map. -/
theorem created {r : ℕ × ℕ} {own : Multiset ℕ}
    (hcreated : Created inodeRef (refs s.bytes.root) s s' s.bytes.root iblock.toNat maxBlocks.toNat r
      own t) (hend : iblock.toNat + min maxBlocks.toNat extInitMaxLen ≤ uint32Max) :
    ∃ m', BlockMap.Step m ⟨.getBlocks iblock maxBlocks true, .blocks r.1 r.2⟩ m' ∧
      Sustained inodeRef s₀ s' m' := by
  have ok := h.wellFormed.treeOk
  have hb := hcreated.became hcnt ok h.exact hend
  have hle : r.2 ≤ maxBlocks.toNat := (hcreated.le.trans runCap_le).trans (Nat.min_le_left _ _)
  have hfree (k : ℕ) (hk : k < r.2) : m.block (iblock.toNat + k) = none := by
    have hunmapped := hcreated.unmapped hk
    rw [h.shows] at hunmapped
    exact Option.map_eq_none_iff.mp hunmapped
  -- the ledger holds no block twice, so the run is not in the old tree
  have hnodup : (refs t).Nodup := by
    obtain ⟨evs, -, hlegal, hheld⟩ := h.settled.trans hb.settled
    rw [← hheld]
    exact hlegal.nodup Multiset.nodup_zero
  have hnew : m.Unused r.1 r.2 := by
    intro v p hv hin
    rw [hcreated.refs_eq hcnt ok] at hnodup
    have hrun := (Multiset.nodup_add.mp (Multiset.nodup_add.mp hnodup).2.1).2.2
    refine Multiset.disjoint_left.mp hrun (mem_blockRun.mpr hin) ?_
    exact Multiset.mem_add.mpr (Or.inr (h.mem_dataBlocks hv))
  refine ⟨_, .created hcreated.pos hle hfree hnew, h.next hb fun v => ?_⟩
  rw [hcreated.mapping h.wellFormed hcnt]
  show _ = (ite _ _ _ : Option ℕ).map _
  split
  · rfl
  · exact h.shows v

/-- Removing them takes blocks off it. -/
theorem removed {a n : ℕ} (hrem : Removed inodeRef s s' s.bytes.root a n t) :
    Sustained inodeRef s₀ s' (m.erase a n) := by
  refine h.next hrem.became fun v => ?_
  rw [hrem.mapping, h.shows]
  show _ = (ite _ _ _ : Option ℕ).map _
  split
  · rfl
  · rfl

include hw hmiss hcnt hout

/-- Every call ends, with a reply the block map allows, and keeps what the runs keep. -/
theorem call (request : Request) (hin : request.Within) :
    wp (request.exec inodeRef)
      (fun reply s' => (∃ m', BlockMap.Step m ⟨request, reply⟩ m' ∧ Sustained inodeRef s₀ s' m') ∨
        ∃ err, reply = .failed err ∧ Interrupted inodeRef s s' err) (fun _ _ => False) s := by
  have hold := h.holding hout
  cases request with
  | getBlocks iblock maxBlocks create =>
      refine wp_reporting.mpr ?_
      cases create with
      | false =>
          refine wp_mono (wp_lookup hold.rep hold.ok.addr (hold.ok.acceptable_all hold.rep)) ?_ ?_
          · rintro r s' ⟨hreads, rfl⟩
            refine Or.inl ⟨m, ?_, h.reads hout hreads⟩
            have hiblock : iblock.toNat ≤ uint32Max := Nat.le_of_lt_succ iblock.toNat_lt
            rw [h.wellFormed.admitted.lookupAnswer_eq hiblock h.stops]
            unfold scanAnswer
            rcases hfind : s.bytes.root.items.find? fun e => Covers e iblock.toNat with _ | e
            · refine .hole (h.block_eq_none fun e he hcov => ?_)
              exact List.find?_eq_none.mp hfind e he (decide_eq_true hcov)
            · have hcov : Covers e iblock.toNat := by simpa using List.find?_some hfind
              exact h.found (List.mem_of_find?_eq_some hfind) hcov false
          · exact fun err s' hfailed => Or.inl ⟨m, .refused, h.reads hout hfailed.1⟩
      | true =>
          have hstay := h.wellFormed.staysInRange (hin rfl)
          refine wp_mono (wp_getBlocks_create hcnt hold hw hmiss hstay) ?_ ?_
          · rintro r s' (⟨e, he, hcov, -, hreads, rfl⟩ | ⟨-, d', own, t', hcreated⟩)
            · exact Or.inl ⟨m, h.found he hcov true, h.reads hout hreads⟩
            · exact Or.inl (h.created hcnt hcreated (hin rfl))
          · rintro err s' hfailed
            rcases hfailed.became hold with ⟨d', t', hb, hitems⟩ | hint
            · exact Or.inl ⟨m, .refused, h.same hb fun v => by rw [hitems]⟩
            · exact Or.inr ⟨err, rfl, hint⟩
  | removeSpace first last =>
      refine wp_reporting.mpr ?_
      refine wp_mono (wp_removeSpace hw hmiss hcnt hold (by omega)) ?_ ?_
      · rintro _ s' ⟨d', t', hrem⟩
        exact Or.inl ⟨_, .removed, h.removed hrem⟩
      · rintro err s' (⟨rfl, -⟩ | ⟨n, -, hle, ⟨d', t', hrem⟩, -⟩ | hint)
        · exact Or.inl ⟨_, .cutShort (Nat.zero_le _), h.next (.of_reads (.refl s') hold) fun v =>
            (h.shows v).trans (congrArg _ (if_neg fun hv => absurd hv.2 (Nat.not_lt_zero v)).symm)⟩
        · exact Or.inl ⟨_, .cutShort hle, h.removed hrem⟩
        · exact Or.inr ⟨err, rfl, hint⟩

end Call

end Sustained

/-! ## All calls -/

section Run

variable (hw : WritesSucceed inodeRef) (hmiss : NeverMissing inodeRef)
  (hcnt : inodeRef.blocksCnt ≤ pblockLimit) (hout : HandsOut inodeRef 0 s₀.trace)

include hw hmiss hcnt hout

theorem takes_follows : Machine.Follows (Takes inodeRef) BlockMap.Step (Sustained inodeRef s₀) := by
  rintro s s' m ⟨request, reply⟩ h ⟨hin, hexec, hwhole⟩
  rcases wp_ok (h.call hw hmiss hcnt hout request hin) hexec with hstep | ⟨err, rfl, hint⟩
  · exact hstep
  · exact absurd hint (hwhole err rfl)

/-- What a run keeps, and the run of the block map beside it. -/
theorem Run.sustained (h : Run inodeRef s₀ turns s) :
    ∃ m, Machine.Run BlockMap.Step .empty turns m ∧ Sustained inodeRef s₀ s m := by
  obtain ⟨s₁, hinit, hcalls⟩ := h
  have hstart : Sustained inodeRef s₀ s₁ .empty :=
    wp_ok (Q := fun _ s' => Sustained inodeRef s₀ s' .empty) sustained_init hinit
  exact hcalls.followed (takes_follows hw hmiss hcnt hout) hstart

end Run

/-- The checksum of a node behind its declared slots. -/
theorem checksummed_of_standing (h : Standing inodeRef s.bytes d b) (hb : b ≠ 0)
    (hcsum : inodeRef.metadataCsum = true) : Checksummed inodeRef s b := by
  have hok := h.csum hb
  rw [Place.of_ne_zero hb] at hok
  refine ⟨?_, fun i hi => extentLayout.off_add_width_le hi, (hok hcsum).2.1⟩
  obtain ⟨_, s', hrun, rfl⟩ := wp_returns (Q := fun _ s' => s' = s)
    (wp_verifyExtentBlockChecksum.mpr ⟨fun _ => rfl, fun hno => absurd hok hno⟩)
  exact hrun

end Lemmas

section Main

variable {inodeRef} {s₀ s : St} {turns before after : List Turn}

/-- **The code follows the block map.** Where only calls that obtain a block may fail and the
allocator hands out only free blocks of the volume, but may refuse at any time: whatever is
called, each call replies as the block map allows, and a search for a block ends where the map
says. -/
theorem runs_follow_block_map (hw : WritesSucceed inodeRef)
    (hmiss : NeverMissing inodeRef) (hcnt : inodeRef.blocksCnt ≤ pblockLimit)
    (hout : HandsOut inodeRef 0 s₀.trace)
    (hrun : Run inodeRef s₀ turns s) :
    ∃ m, Machine.Run BlockMap.Step .empty turns m ∧
      ∀ lblock : UInt32, Resolves inodeRef s lblock.toNat
        ((m.block lblock.toNat).map fun p => (p, false)) := by
  obtain ⟨m, hmap, hs⟩ := hrun.sustained hw hmiss hcnt hout
  exact ⟨m, hmap, fun lblock => hs.shows lblock.toNat ▸ hs.wellFormed.resolves lblock⟩

/-- **The tree stays well formed.** After every call of every run the tree is well formed, and
every further call ends. -/
theorem runs_keep_wellFormed (hw : WritesSucceed inodeRef)
    (hmiss : NeverMissing inodeRef) (hcnt : inodeRef.blocksCnt ≤ pblockLimit)
    (hout : HandsOut inodeRef 0 s₀.trace)
    (hrun : Run inodeRef s₀ turns s) :
    WellFormed inodeRef s.bytes ∧ ∀ request : Request, request.Within →
      ∃ reply s', request.exec inodeRef s = .ok reply s' := by
  obtain ⟨m, -, hs⟩ := hrun.sustained hw hmiss hcnt hout
  refine ⟨hs.wellFormed, fun request hin => ?_⟩
  obtain ⟨reply, s', hexec, -⟩ := wp_returns (hs.call hw hmiss hcnt hout request hin)
  exact ⟨reply, s', hexec⟩

/-- **No block is lost or freed twice.** After every call of every run the file holds exactly the
blocks its tree refers to, its nodes and its data, and no two of them are the same. -/
theorem runs_balance_blocks (hw : WritesSucceed inodeRef)
    (hmiss : NeverMissing inodeRef) (hcnt : inodeRef.blocksCnt ≤ pblockLimit)
    (hout : HandsOut inodeRef 0 s₀.trace)
    (hrun : Run inodeRef s₀ turns s) : Accounted s₀ s := by
  obtain ⟨m, -, hs⟩ := hrun.sustained hw hmiss hcnt hout
  exact hs.accounted

/-- **Checksums stay right.** With checksums enabled, after every call of every run each external
node of the tree verifies, behind all its entry slots and inside its block, and a search fails
only when a block cannot be read. -/
theorem runs_verify_checksums (hw : WritesSucceed inodeRef)
    (hmiss : NeverMissing inodeRef) (hcnt : inodeRef.blocksCnt ≤ pblockLimit)
    (hout : HandsOut inodeRef 0 s₀.trace)
    (hcsum : inodeRef.metadataCsum = true) (hrun : Run inodeRef s₀ turns s) :
    (s.bytes.root.All fun u => u.addr ≠ 0 → Checksummed inodeRef s u.addr) ∧
      ∀ lblock : UInt32, wp (findExtent inodeRef lblock.toNat) (fun _ _ => True)
        (fun err s' => ReadFailed inodeRef s s' .findExtent err) s := by
  obtain ⟨m, -, hs⟩ := hrun.sustained hw hmiss hcnt hout
  refine ⟨hs.wellFormed.stands.imp fun u _ hu hne =>
    checksummed_of_standing hu.standing hne hcsum, fun lblock => ?_⟩
  exact wp_mono (hs.wellFormed.resolves lblock) (fun _ _ _ => trivial) fun _ _ hfailed => hfailed

/-- **Blocks stay where they were put.** What a call reported for a block is what a search for it
finds from then on, until a removal that covers it. -/
theorem reported_blocks_stay {iblock maxBlocks v : UInt32} {create : Bool} {p count : ℕ}
    (hw : WritesSucceed inodeRef) (hmiss : NeverMissing inodeRef)
    (hcnt : inodeRef.blocksCnt ≤ pblockLimit) (hout : HandsOut inodeRef 0 s₀.trace)
    (hrun : Run inodeRef s₀
      (before ++ ⟨.getBlocks iblock maxBlocks create, .blocks p count⟩ :: after) s)
    (hle : iblock.toNat ≤ v.toNat) (hlt : v.toNat < iblock.toNat + count)
    (hno : ∀ turn ∈ after, ¬ BlockMap.Removes v.toNat turn) :
    Resolves inodeRef s v.toNat (some (p + (v.toNat - iblock.toNat), false)) := by
  obtain ⟨m, hmap, hs⟩ := hrun.sustained hw hmiss hcnt hout
  rw [List.append_cons] at hmap
  obtain ⟨m₁, hfirst, hrest⟩ := hmap.split
  obtain ⟨m₀, -, hlast⟩ := hfirst.split
  have hblock := BlockMap.stays_of_run hrest hno (hlast.last_of_single.reported hle hlt)
  have hresolves := hs.wellFormed.resolves v
  rwa [hs.shows, hblock] at hresolves

/-- **Removed blocks do not come back.** What a removal covered is not mapped from then on, until
a call creates it. -/
theorem removed_blocks_stay_gone {first last v : UInt32} (hw : WritesSucceed inodeRef)
    (hmiss : NeverMissing inodeRef) (hcnt : inodeRef.blocksCnt ≤ pblockLimit)
    (hout : HandsOut inodeRef 0 s₀.trace)
    (hrun : Run inodeRef s₀ (before ++ ⟨.removeSpace first last, .removed⟩ :: after) s)
    (hle : first.toNat ≤ v.toNat) (hlast : v.toNat ≤ last.toNat)
    (hno : ∀ turn ∈ after, ¬ BlockMap.Maps v.toNat turn) :
    Resolves inodeRef s v.toNat none := by
  obtain ⟨m, hmap, hs⟩ := hrun.sustained hw hmiss hcnt hout
  rw [List.append_cons] at hmap
  obtain ⟨m₁, hfirst, hrest⟩ := hmap.split
  obtain ⟨m₀, -, hsingle⟩ := hfirst.split
  have hblock := BlockMap.gone_of_run hrest hno (hsingle.last_of_single.erased hle hlast)
  have hresolves := hs.wellFormed.resolves v
  rwa [hs.shows, hblock] at hresolves

end Main

/-! ## A run on a small volume -/

/-- The replies to some requests, one after the other. -/
def replies : List Request → M (List Reply)
  | [] => pure []
  | request :: requests => do
      let reply ← request.exec inodeRef
      let rest ← replies requests
      return reply :: rest

theorem run_of_replies {inodeRef : InodeRef} {requests : List Request} {rs : List Reply}
    {s s' : St} (hio : IoSucceeds inodeRef) (h : replies inodeRef requests s = .ok rs s')
    (hin : ∀ r ∈ requests, r.Within) :
    Machine.Run (Takes inodeRef) s (List.zipWith Turn.mk requests rs) s' := by
  induction requests generalizing s rs with
  | nil =>
      cases h
      exact .start
  | cons request requests ih =>
      unfold replies at h
      obtain ⟨reply, s₁, hexec, hrest⟩ := ok_of_bind h
      obtain ⟨rest, s₂, hreplies, hpure⟩ := ok_of_bind hrest
      cases hpure
      have hfirst : Takes inodeRef s ⟨request, reply⟩ s₁ :=
        ⟨hin request (by simp), hexec, fun _ _ => hio.not_interrupted⟩
      have hbehind := ih hreplies fun r hr => hin r (List.mem_cons_of_mem _ hr)
      exact (Machine.Run.single hfirst).append hbehind

/-- The volume of the other samples, with checksums. -/
def checkedVolume : InodeRef := { sampleVolume risingLwext4 with metadataCsum := true }

def blankSt : St := ⟨fun _ _ => 0, false, []⟩

/-- Two blocks are created, one is removed, and the other one is looked up. -/
def threeTurns : List Turn :=
  [⟨.getBlocks 7 2 true, .blocks 300 2⟩, ⟨.removeSpace 8 8, .removed⟩,
    ⟨.getBlocks 7 4 false, .blocks 300 1⟩]

theorem checked_io : IoSucceeds checkedVolume := fun _ _ => rfl

theorem exists_threeTurns : ∃ s, Run checkedVolume blankSt threeTurns s := by
  have hreplies : resultOf ((ext4ExtentTreeInit checkedVolume >>= fun _ => replies checkedVolume
      [.getBlocks 7 2 true, .removeSpace 8 8, .getBlocks 7 4 false]) blankSt) =
      some [.blocks 300 2, .removed, .blocks 300 1] := by decide +kernel
  obtain ⟨_, s₁, hinit, hrest⟩ := resultOf_bind hreplies
  obtain ⟨s, hrun⟩ := resultOf_eq_some hrest
  refine ⟨s, s₁, hinit, run_of_replies checked_io hrun fun r hr => ?_⟩
  simp only [List.mem_cons, List.not_mem_nil, or_false] at hr
  rcases hr with rfl | rfl | rfl
  · exact fun _ => by decide
  · exact trivial
  · exact fun h => by cases h

/-- Blocks of five extents are created, one more than the root holds. -/
def fiveTurns : List Turn :=
  [⟨.getBlocks 10 1 true, .blocks 300 1⟩, ⟨.getBlocks 20 1 true, .blocks 301 1⟩,
    ⟨.getBlocks 30 1 true, .blocks 302 1⟩, ⟨.getBlocks 40 1 true, .blocks 303 1⟩,
    ⟨.getBlocks 5 1 true, .blocks 304 1⟩]

theorem exists_fiveTurns :
    ∃ s, Run checkedVolume blankSt fiveTurns s ∧ s.bytes.rootDepth = 1 := by
  have hreplies : resultOf ((ext4ExtentTreeInit checkedVolume >>= fun _ =>
      replies checkedVolume (fiveTurns.map Turn.request) >>= fun rs => getState >>= fun s =>
        pure (rs, s.bytes.rootDepth)) blankSt) =
      some ([.blocks 300 1, .blocks 301 1, .blocks 302 1, .blocks 303 1, .blocks 304 1], 1) := by
    decide +kernel
  obtain ⟨_, s₁, hinit, hrest⟩ := resultOf_bind hreplies
  obtain ⟨rs, s, hrun, hstate⟩ := resultOf_bind hrest
  obtain ⟨rfl, hdepth⟩ := Prod.mk.inj (show (rs, s.bytes.rootDepth) = _ from
    Option.some.inj hstate)
  refine ⟨s, ⟨s₁, hinit, run_of_replies checked_io hrun fun r hr => ?_⟩, hdepth⟩
  simp only [fiveTurns, List.map_cons, List.map_nil, List.mem_cons, List.not_mem_nil, or_false] at hr
  rcases hr with rfl | rfl | rfl | rfl | rfl
  all_goals exact fun _ => by decide

theorem handsOut_checked : HandsOut checkedVolume 0 blankSt.trace :=
  @handsOut_rising 0 fun _ hb => absurd hb (Multiset.notMem_zero _)

theorem runs_follow_block_map_three : ∃ s m, Run checkedVolume blankSt threeTurns s ∧
    Machine.Run BlockMap.Step .empty threeTurns m ∧
      ∀ lblock : UInt32, Resolves checkedVolume s lblock.toNat
        ((m.block lblock.toNat).map fun p => (p, false)) := by
  obtain ⟨s, hrun⟩ := exists_threeTurns
  obtain ⟨m, hm⟩ := runs_follow_block_map checked_io.writes checked_io.neverMissing (by decide) handsOut_checked hrun
  exact ⟨s, m, hrun, hm⟩

theorem runs_keep_wellFormed_three : ∃ s, Run checkedVolume blankSt threeTurns s ∧
    WellFormed checkedVolume s.bytes ∧ ∀ request : Request, request.Within →
      ∃ reply s', request.exec checkedVolume s = .ok reply s' := by
  obtain ⟨s, hrun⟩ := exists_threeTurns
  exact ⟨s, hrun, runs_keep_wellFormed checked_io.writes checked_io.neverMissing (by decide) handsOut_checked hrun⟩

theorem runs_balance_blocks_three :
    ∃ s, Run checkedVolume blankSt threeTurns s ∧ Accounted blankSt s := by
  obtain ⟨s, hrun⟩ := exists_threeTurns
  exact ⟨s, hrun, runs_balance_blocks checked_io.writes checked_io.neverMissing (by decide) handsOut_checked hrun⟩

theorem runs_verify_checksums_five :
    ∃ s, Run checkedVolume blankSt fiveTurns s ∧ s.bytes.rootDepth = 1 ∧
      (s.bytes.root.All fun u => u.addr ≠ 0 → Checksummed checkedVolume s u.addr) ∧
      ∀ lblock : UInt32, wp (findExtent checkedVolume lblock.toNat) (fun _ _ => True)
        (fun err s' => ReadFailed checkedVolume s s' .findExtent err) s := by
  obtain ⟨s, hrun, hdepth⟩ := exists_fiveTurns
  exact ⟨s, hrun, hdepth, runs_verify_checksums checked_io.writes checked_io.neverMissing
    (by decide) handsOut_checked rfl hrun⟩

/-- Block 7 is where it was created. -/
theorem reported_blocks_stay_three : ∃ s, Run checkedVolume blankSt threeTurns s ∧
    Resolves checkedVolume s (UInt32.toNat 7) (some (300 + (UInt32.toNat 7 - UInt32.toNat 7), false)) := by
  obtain ⟨s, hrun⟩ := exists_threeTurns
  have hcut : Run checkedVolume blankSt ([] ++ ⟨.getBlocks 7 2 true, .blocks 300 2⟩ ::
      threeTurns.tail) s := hrun
  refine ⟨s, hrun, reported_blocks_stay checked_io.writes checked_io.neverMissing (by decide) handsOut_checked hcut
    (by decide) (by decide) ?_⟩
  rintro turn hturn ⟨first, last, reply, rfl, hle, hlt⟩
  simp only [threeTurns, List.tail_cons, List.mem_cons, Turn.mk.injEq, Request.removeSpace.injEq,
    reduceCtorEq, false_and, List.not_mem_nil, or_false] at hturn
  obtain ⟨⟨rfl, rfl⟩, -⟩ := hturn
  exact absurd hle (by decide)

/-- Block 8 stays gone. -/
theorem removed_blocks_stay_gone_three : ∃ s, Run checkedVolume blankSt threeTurns s ∧
    Resolves checkedVolume s (UInt32.toNat 8) none := by
  obtain ⟨s, hrun⟩ := exists_threeTurns
  have hcut : Run checkedVolume blankSt ([⟨.getBlocks 7 2 true, .blocks 300 2⟩] ++
      ⟨.removeSpace 8 8, .removed⟩ :: [⟨.getBlocks 7 4 false, .blocks 300 1⟩]) s := hrun
  refine ⟨s, hrun, removed_blocks_stay_gone checked_io.writes checked_io.neverMissing (by decide) handsOut_checked hcut
    (by decide) (by decide) ?_⟩
  rintro turn hturn ⟨iblock, maxBlocks, p, count, rfl, -, -⟩
  simp at hturn

end EspLwext4
